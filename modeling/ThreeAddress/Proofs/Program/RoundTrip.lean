import Mathlib.Data.List.Basic
import ThreeAddress.Program.Reader
import ThreeAddress.Program.Writer
import ThreeAddress.Proofs.Json.Reading

/-!
A program survives being written and read.  Every value that the writer makes is legible, so its text is read as the
value; what is left is that each reader of a part takes the value of the part back: numbers, texts, operands, records
of the fields in their order, and lists.

Main statement: `Program.ofJson_jsonText`.
-/

namespace ThreeAddress

namespace Json

/-! ### Texts -/

theorem legible_pieceOf (c : Char) : (Literal.pieceOf c).Legible := by
  unfold Literal.pieceOf
  split
  · rename_i h
    simp only [Bool.and_eq_true, decide_eq_true_eq] at h
    exact Nat.lt_trans h.1 (by decide)
  · rename_i h
    by_cases hc : c.toNat < 0x20
    · refine .inr (by_contra fun hm => h ?_)
      rw [decide_eq_true hc, decide_eq_false hm]
      rfl
    · exact .inl (Nat.le_of_not_lt hc)

theorem legible_ofString (s : String) : (Literal.ofString s).Legible where
  pieces := by
    intro p hp
    obtain ⟨c, -, rfl⟩ := List.mem_map.1 hp
    exact legible_pieceOf c
  closed := rfl

theorem decode_unit {u : Nat} (hhigh : Literal.isHigh u = false) (hlow : Literal.isLow u = false) (fault : Option Fault)
    (rest : List Piece) :
    Literal.decode fault (.unit u :: rest) = (Literal.decode fault rest).map (Char.ofNat u :: ·) := by
  cases rest with
  | nil => simp [Literal.decode, hhigh, hlow]
  | cons p rest => cases p <;> simp [Literal.decode, hhigh, hlow]

theorem decode_pieceOf (c : Char) (fault : Option Fault) (rest : List Piece) :
    Literal.decode fault (Literal.pieceOf c :: rest) = (Literal.decode fault rest).map (c :: ·) := by
  unfold Literal.pieceOf
  split
  · rename_i h
    simp only [Bool.and_eq_true, decide_eq_true_eq] at h
    have hhigh : Literal.isHigh c.toNat = false := by simp [Literal.isHigh]; omega
    have hlow : Literal.isLow c.toNat = false := by simp [Literal.isLow]; omega
    rw [decode_unit hhigh hlow, Char.ofNat_toNat]
  · rw [Literal.decode]

theorem text_ofString (s : String) : (Literal.ofString s).text = .ok s := by
  have hdecode : ∀ cs : List Char, Literal.decode none (cs.map Literal.pieceOf) = .ok cs := by
    intro cs
    induction cs with
    | nil => rfl
    | cons c cs ih => rw [List.map_cons, decode_pieceOf, ih]; rfl
  rw [Literal.text, Literal.ofString, hdecode]
  exact congrArg Except.ok String.ofList_toList

theorem use_ofString (s : String) : (Literal.ofString s).use = .ok s := by rw [Literal.use, text_ofString]

/-! ### Whole numbers -/

theorem head?_toDigits {n : Nat} (hn : 0 < n) : (Nat.toDigits 10 n).head? ≠ some '0' := by
  have hdigit : ∀ n < 10, 0 < n → some n.digitChar ≠ some '0' := by decide
  induction n using Nat.strongRecOn with
  | ind n ih =>
    rw [Nat.toDigits_eq_if (by decide)]
    split
    · rename_i hlt
      exact hdigit n hlt hn
    · rename_i hge
      have hdiv := ih (n / 10) (by omega) (by omega)
      rw [List.head?_append]
      cases hh : (Nat.toDigits 10 (n / 10)).head? with
      | none => exact absurd (List.head?_eq_none_iff.1 hh) Nat.toDigits_ne_nil
      | some c =>
        rw [hh] at hdiv
        exact hdiv

theorem numeral_toDigits (n : Nat) : Numeral (Nat.toDigits 10 n) where
  digits := fun _ hc => Nat.isDigit_of_mem_toDigits (by decide) (by decide) hc
  nonempty := Nat.toDigits_ne_nil
  lead := by
    intro d rest h
    rcases Nat.eq_zero_or_pos n with rfl | hn
    · simp at h
    · exact head?_toDigits hn (by rw [h]; rfl)

theorem legible_ofInt (i : Int) : (Value.ofInt i).Legible := ⟨numeral_toDigits i.natAbs, rfl, rfl⟩

theorem le_ofDigitChars (ds : List Char) (n : Nat) : n ≤ Nat.ofDigitChars 10 ds n := by
  induction ds generalizing n with
  | nil => simp
  | cons d ds ih =>
    rw [Nat.ofDigitChars_cons]
    have := ih (10 * n + (d.toNat - '0'.toNat))
    omega

theorem gather_eq {ds : List Char} {n : Nat} (h : Nat.ofDigitChars 10 ds n ≤ Scalar.maxSignificand) :
    Scalar.gather n ds = (Nat.ofDigitChars 10 ds n, 0) := by
  induction ds generalizing n with
  | nil => simp [Scalar.gather]
  | cons d ds ih =>
    rw [Nat.ofDigitChars_cons] at h ⊢
    have hle : 10 * n + Scalar.digit d ≤ Scalar.maxSignificand := Nat.le_trans (le_ofDigitChars ds _) h
    rw [Scalar.gather, if_pos hle]
    exact ih h

/-- A whole number of 64 bits is read as itself. -/
theorem scalar?_ofInt {i : Int} (hmin : -Nat.pow 2 63 ≤ i) (hmax : i ≤ Scalar.maxSignificand) :
    (Number.ofInt i).scalar? = some (.int i) := by
  have hmin' : -9223372036854775808 ≤ i := hmin
  have hmax' : i ≤ 18446744073709551615 := hmax
  have hgather : Scalar.gather 0 (Nat.toDigits 10 i.natAbs) = (i.natAbs, 0) := by
    have hvalue : Nat.ofDigitChars 10 (Nat.toDigits 10 i.natAbs) 0 = i.natAbs := Nat.ofDigitChars_ten_toDigits
    have hle : i.natAbs ≤ Scalar.maxSignificand := by
      show i.natAbs ≤ 18446744073709551615
      omega
    rw [gather_eq (by rw [hvalue]; exact hle), hvalue]
  have hinteger : (Number.ofInt i).integer? i.natAbs = some i := by
    show (if decide (i < 0) then if 0 < i.natAbs && i.natAbs ≤ Nat.pow 2 63 then some (-(i.natAbs : Int)) else none
      else some (i.natAbs : Int)) = some i
    by_cases hneg : i < 0
    · have hpos : 0 < i.natAbs := by omega
      have hle : i.natAbs ≤ Nat.pow 2 63 := by
        show i.natAbs ≤ 9223372036854775808
        omega
      rw [if_pos (decide_eq_true hneg), if_pos (by rw [decide_eq_true hpos, decide_eq_true hle]; rfl)]
      exact congrArg some (by omega)
    · rw [if_neg (by rw [decide_eq_false hneg]; decide)]
      exact congrArg some (by omega)
  unfold Number.scalar?
  simp only [show (Number.ofInt i).whole = Nat.toDigits 10 i.natAbs from rfl, hgather, if_true, hinteger]

/-! ### Lists and records -/

theorem readList_ofList {α : Type} {item : Value → Read α} {toJson : α → Value} (h : ∀ a, item (toJson a) = .ok a)
    (as : List α) : readList item (.ofList (as.map toJson)) = .ok as := by
  show readItemsOf item none (as.map toJson) = .ok as
  induction as with
  | nil => rfl
  | cons a as ih => rw [List.map_cons, readItemsOf, h, ih]; rfl

namespace Fields

def names : {αs : List Type} → Fields αs → List String
  | _, nil => []
  | _, cons f rest => f.name :: rest.names

/-- A member for each field, in order, with a value that the field reads. -/
inductive Written : {αs : List Type} → Fields αs → List (String × Value) → Tuple αs → Prop
  | nil : Written nil [] ()
  | cons {α : Type} {αs : List Type} {f : RecordField α} {rest : Fields αs} {ms : List (String × Value)} {v : Value}
      {a : α} {as : Tuple αs} : f.read v = .ok a → Written rest ms as →
      Written (cons f rest) ((f.name, v) :: ms) (a, as)

/-- The members of a record as an object has them. -/
def keyed (ms : List (String × Value)) : List (Literal × Value) := ms.map fun m => (.ofString m.1, m.2)

theorem Written.keys {αs : List Type} {fs : Fields αs} {ms : List (String × Value)} {as : Tuple αs}
    (h : fs.Written ms as) : ms.map Prod.fst = fs.names := by
  induction h with
  | nil => rfl
  | cons _ _ ih => rw [List.map_cons, ih, names]

/-- Members that a field has no part in are read by the fields after it. -/
theorem readMembersOf_cons {α : Type} {αs : List Type} (f : RecordField α) (rest : Fields αs) (a : α)
    (draft : Draft αs) {ms : List (String × Value)} (h : f.name ∉ ms.map Prod.fst) :
    (cons f rest).readMembersOf none (some a, draft) (keyed ms) =
      (rest.readMembersOf none draft (keyed ms)).map fun as => (a, as) := by
  induction ms generalizing draft with
  | nil =>
    show (do return (a, ← rest.complete draft)) = (rest.complete draft).map fun as => (a, as)
    cases rest.complete draft <;> rfl
  | cons m ms ih =>
    obtain ⟨key, v⟩ := m
    rw [List.map_cons, List.mem_cons, not_or] at h
    show (do
      let key ← (Literal.ofString key).use
      let draft ← (cons f rest).put (some a, draft) key v
      readMembersOf (cons f rest) none draft (keyed ms)) = (do
      let key ← (Literal.ofString key).use
      let draft ← rest.put draft key v
      readMembersOf rest none draft (keyed ms)).map fun as => (a, as)
    rw [use_ofString]
    show ((cons f rest).put (some a, draft) key v >>= fun draft =>
        readMembersOf (cons f rest) none draft (keyed ms)) =
      (rest.put draft key v >>= fun draft => readMembersOf rest none draft (keyed ms)).map fun as => (a, as)
    rw [put, if_neg (Ne.symm h.1)]
    cases rest.put draft key v with
    | error e => rfl
    | ok draft => exact ih draft h.2

/-- **A record is read from its fields in order.** -/
theorem read_of_written {αs : List Type} {fs : Fields αs} {ms : List (String × Value)} {as : Tuple αs}
    (h : fs.Written ms as) (hn : fs.names.Nodup) (name : String) : fs.read name (.record ms) = .ok as := by
  show fs.readMembersOf none fs.blank (keyed ms) = .ok as
  induction h with
  | nil => rfl
  | @cons α αs f rest ms v a as hread hrest ih =>
    obtain ⟨hname, hn⟩ := List.nodup_cons.1 hn
    show (do
      let key ← (Literal.ofString f.name).use
      let draft ← (cons f rest).put (none, rest.blank) key v
      readMembersOf (cons f rest) none draft (keyed ms)) = .ok (a, as)
    rw [use_ofString]
    show ((cons f rest).put (none, rest.blank) f.name v >>= fun draft =>
        readMembersOf (cons f rest) none draft (keyed ms)) = .ok (a, as)
    rw [put, if_pos rfl, hread]
    show readMembersOf (cons f rest) none (some a, rest.blank) (keyed ms) = .ok (a, as)
    rw [readMembersOf_cons f rest a _ (by rw [hrest.keys]; exact hname), ih hn]
    rfl

theorem bind_read {α : Type} {αs : List Type} {fs : Fields αs} {ms : List (String × Value)} {as : Tuple αs}
    (h : fs.Written ms as) (hn : fs.names.Nodup) (name : String) (make : Tuple αs → Read α) :
    (fs.read name (.record ms) >>= make) = make as := by
  rw [read_of_written h hn]
  rfl

end Fields

theorem legible_ofList {vs : List Value} (h : ∀ v ∈ vs, v.Legible) : (Value.ofList vs).Legible :=
  ⟨legibleItems_iff.2 h, rfl⟩

theorem legible_record {ms : List (String × Value)} (h : ∀ m ∈ ms, m.2.Legible) : (Value.record ms).Legible := by
  refine ⟨legibleMembers_iff.2 fun m hm => ?_, rfl⟩
  obtain ⟨n, hn, rfl⟩ := List.mem_map.1 hm
  exact ⟨legible_ofString n.1, h n hn⟩

end Json

open Json

/-! ### Operands -/

namespace Program

theorem readInt_ofInt {α : Type} {ofInt? : Int → Option α} {i : Int} {a : α} (h : ofInt? i = some a)
    (hmin : -Nat.pow 2 63 ≤ i) (hmax : i ≤ Scalar.maxSignificand) (expected : String) :
    readInt ofInt? expected (.ofInt i) = .ok a := by
  simp only [readInt, Value.ofInt, Number.use, scalar?_ofInt hmin hmax, h, bind, Except.bind, pure, Except.pure]

theorem tempOfInt?_index (t : Temp) : tempOfInt? t.index = some t := by
  have hlt : t.index < Nat.pow 2 32 := t.id.toNat_lt
  rw [tempOfInt?, if_neg (by omega), Int.natAbs_natCast, Temp.ofNat?, if_pos hlt]
  simp [Temp.index]

theorem index_range (t : Temp) : -Nat.pow 2 63 ≤ (t.index : Int) ∧ (t.index : Int) ≤ Scalar.maxSignificand := by
  have hlt : t.index < 4294967296 := t.id.toNat_lt
  constructor
  · show (-9223372036854775808 : Int) ≤ t.index
    omega
  · show (t.index : Int) ≤ 18446744073709551615
    omega

theorem readTemp_ofInt (t : Temp) : readTemp (.ofInt t.index) = .ok t :=
  readInt_ofInt (tempOfInt?_index t) (index_range t).1 (index_range t).2 "u32"

theorem readWord_ofInt (w : Word) : readWord (.ofInt w.toInt) = .ok w := by
  have hmin : -2147483648 ≤ w.toInt := BitVec.le_toInt w
  have hmax : w.toInt < 2147483648 := BitVec.toInt_lt
  refine readInt_ofInt (Word.ofInt?_toInt w) ?_ ?_ "i32"
  · show (-9223372036854775808 : Int) ≤ w.toInt
    omega
  · show w.toInt ≤ 18446744073709551615
    omega

theorem readString_ofString (s : String) : readString (.ofString s) = .ok s := use_ofString s

theorem readLabel_ofString (l : Label) : readLabel (.ofString l.name) = .ok l := by
  rw [readLabel, readString_ofString]
  rfl

theorem readOp_ofString {α : Type} {all : List α} {tag : α → String} {a : α}
    (h : all.find? (fun b => tag b = tag a) = some a) : readOp all tag (.ofString (tag a)) = .ok a := by
  have hmem : tag a ∈ all.map tag := List.mem_map_of_mem (List.mem_of_find?_eq_some h)
  simp only [readOp, Value.ofString, readVariant, use_ofString, hmem, h, bind, Except.bind, if_true]

theorem operand?_toJson (op : Operand) : operand? op.toJson = some op := by
  cases op with
  | temp t =>
    have hscalar := scalar?_ofInt (index_range t).1 (index_range t).2
    simp only [Operand.toJson, Value.ofInt, operand?, hscalar, tempOfInt?_index, Option.map_some]
  | reg r =>
    simp only [Operand.toJson, Value.ofString, operand?, operand?.named, text_ofString, Reg.ofName?_name,
      Option.map_some]

theorem useFault_toJson (op : Operand) (levels : Nat) : op.toJson.useFault levels = none := by
  cases op with
  | temp t =>
    have hscalar := scalar?_ofInt (index_range t).1 (index_range t).2
    simp [Operand.toJson, Value.ofInt, Value.useFault, hscalar]
  | reg r => simp [Operand.toJson, Value.ofString, Value.useFault, Literal.useFault, text_ofString]

theorem readOperandAt_toJson (level : Nat) (op : Operand) : readOperandAt level op.toJson = .ok op := by
  rw [readOperandAt, useFault_toJson, operand?_toJson]

theorem readOptional_toJson (op : Option Operand) : readOptional (Operand.optionToJson op) = .ok op := by
  cases op with
  | none => rfl
  | some op =>
    have hread : readOptional op.toJson = (do return some (← readOperand op.toJson)) := by cases op <;> rfl
    show readOptional op.toJson = .ok (some op)
    rw [hread, readOperand, readOperandAt_toJson]
    rfl

theorem readArgs_toJson (args : List Operand) : readArgs (.ofList (args.map Operand.toJson)) = .ok args :=
  readList_ofList (readOperandAt_toJson _) args

/-! ### Instructions -/

theorem readInstr_record (t : InstrTag) (v : Value) : readInstr (.record [(t.tag, v)]) = readInstrOf t v := by
  have hfind : InstrTag.all.find? (fun u => u.tag = t.tag) = some t := by cases t <;> rfl
  have hmem : t.tag ∈ instrNames := List.mem_map_of_mem (List.mem_of_find?_eq_some hfind)
  simp only [readInstr, Value.record, List.map_cons, List.map_nil, readVariant, use_ofString, hmem, hfind, endOfOne,
    bind, Except.bind, if_true]
  cases readInstrOf t v <;> rfl

theorem readInstr_toJson (i : Instr) : readInstr i.toJson = .ok i := by
  have hop (op : Operand) : readOperand op.toJson = .ok op := readOperandAt_toJson _ op
  rw [Instr.toJson, readInstr_record]
  cases i with
  | move dst src => exact Fields.bind_read (.cons (hop dst) (.cons (hop src) .nil)) (by decide) _ _
  | const dst value => exact Fields.bind_read (.cons (hop dst) (.cons (readWord_ofInt value) .nil)) (by decide) _ _
  | unary op dst src =>
    have hname : readOp UnaryOp.all UnaryOp.tag (.ofString op.tag) = .ok op := readOp_ofString (by cases op <;> rfl)
    exact Fields.bind_read (.cons hname (.cons (hop dst) (.cons (hop src) .nil))) (by decide) _ _
  | binary op dst lhs rhs =>
    have hname : readOp BinaryOp.all BinaryOp.tag (.ofString op.tag) = .ok op := readOp_ofString (by cases op <;> rfl)
    exact Fields.bind_read (.cons hname (.cons (hop dst) (.cons (hop lhs) (.cons (hop rhs) .nil)))) (by decide) _ _
  | jump target => exact Fields.bind_read (.cons (readLabel_ofString target) .nil) (by decide) _ _
  | branch test cond target =>
    have hname : readOp Test.all Test.tag (.ofString test.tag) = .ok test := readOp_ofString (by cases test <;> rfl)
    exact Fields.bind_read (.cons hname (.cons (hop cond) (.cons (readLabel_ofString target) .nil))) (by decide) _ _
  | ret value => exact Fields.bind_read (.cons (readOptional_toJson value) .nil) (by decide) _ _
  | mark label => exact Fields.bind_read (.cons (readLabel_ofString label) .nil) (by decide) _ _
  | memo text => exact Fields.bind_read (.cons (readString_ofString text) .nil) (by decide) _ _
  | call dst callee args =>
    exact Fields.bind_read (.cons (readOptional_toJson dst) (.cons (readLabel_ofString callee)
      (.cons (readArgs_toJson args) .nil))) (by decide) _ _

/-! ### Functions and programs -/

theorem readFunc_toJson (f : Func) : readFunc f.toJson = .ok f := by
  have hparams : readList readTemp (.ofList (f.params.map fun t => .ofInt t.index)) = .ok f.params :=
    readList_ofList readTemp_ofInt f.params
  have hinstrs : readList readInstr (.ofList (f.instrs.map Instr.toJson)) = .ok f.instrs :=
    readList_ofList readInstr_toJson f.instrs
  exact Fields.bind_read (.cons (readLabel_ofString f.name) (.cons hparams (.cons hinstrs .nil))) (by decide) _ _

theorem readProgram_toJson (p : Program) : readProgram p.toJson = .ok p := by
  have hfuncs : readList readFunc (.ofList (p.funcs.map Func.toJson)) = .ok p.funcs :=
    readList_ofList readFunc_toJson p.funcs
  exact Fields.bind_read (.cons hfuncs .nil) (by decide) _ _

end Program

theorem Operand.legible_toJson (op : Operand) : op.toJson.Legible := by
  cases op with
  | temp t => exact legible_ofInt t.index
  | reg r => exact legible_ofString r.name

theorem Operand.legible_optionToJson (op : Option Operand) : (optionToJson op).Legible := by
  cases op with
  | none => trivial
  | some op => exact op.legible_toJson

theorem Instr.legible_toJson (i : Instr) : i.toJson.Legible := by
  have hargs (args : List Operand) : (Value.ofList (args.map Operand.toJson)).Legible :=
    legible_ofList (by simp [Operand.legible_toJson])
  have hstring (s : String) : (Value.ofString s).Legible := legible_ofString s
  refine legible_record fun m hm => ?_
  rw [List.mem_singleton.1 hm]
  refine legible_record ?_
  cases i <;> simp [members, Operand.legible_toJson, Operand.legible_optionToJson, hargs, hstring, legible_ofInt]

theorem Func.legible_toJson (f : Func) : f.toJson.Legible := by
  refine legible_record ?_
  have hparams : (Value.ofList (f.params.map fun t => .ofInt t.index)).Legible :=
    legible_ofList (by simp [legible_ofInt])
  have hinstrs : (Value.ofList (f.instrs.map Instr.toJson)).Legible := legible_ofList (by simp [Instr.legible_toJson])
  have hname : (Value.ofString f.name.name).Legible := legible_ofString f.name.name
  simp [hname, hparams, hinstrs]

namespace Program

theorem legible_toJson (p : Program) : p.toJson.Legible := by
  refine legible_record fun m hm => ?_
  rw [List.mem_singleton.1 hm]
  exact legible_ofList (by simp [Func.legible_toJson])

/-- **A program that is written can be read**: the text of every program in JSON describes that program, whatever
numbers, names and texts stand in it. -/
theorem ofJson_jsonText (p : Program) : ofJson p.jsonText = .ok p := by
  have hread : Json.read p.jsonText.toList = (p.toJson, some []) := by
    rw [jsonText, String.toList_ofList, read_write p.legible_toJson]
  simp only [ofJson, hread, readProgram_toJson, bind, Except.bind]
  rfl

end Program

end ThreeAddress
