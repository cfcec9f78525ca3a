import ThreeAddress.Proofs.Listing

/-!
Assembly text can be read back.  Empty lines part the functions, and a line tells by its first characters what it is: a
comment by its mark, a label by having no margin, and all else by its first word, the mnemonic.  What stands between the
words need not be told apart, since the mnemonic says what each of them is.

Main statement: the reader gives back every program whose functions have code, whose names and labels are symbols and
whose comments have one line (`AsmFunc.ofText?_program`), so two such programs with the same text are the same
(`AsmFunc.program_eq_iff`).
-/

namespace ThreeAddress

namespace Text

theorem mapM_map_eq_some {α β : Type} {write : α → β} {read? : β → Option α} {as : List α}
    (h : ∀ a ∈ as, read? (write a) = some a) : (as.map write).mapM read? = some as := by
  induction as with
  | nil => rfl
  | cons a as ih =>
    obtain ⟨ha, has⟩ := List.forall_mem_cons.1 h
    simp [ha, ih has]

theorem lines_unlines_of_notMem {rows : List (List Char)} (h : ∀ row ∈ rows, '\n' ∉ row) :
    lines (unlines rows) = rows := by
  have hsplit : ∀ row ∈ rows, row.splitOn '\n' = [row] := fun row hrow => List.splitOn_eq_singleton (h row hrow)
  rw [lines_unlines, List.flatMap_def, List.map_congr_left hsplit, ← List.flatMap_def, List.flatMap_singleton']

theorem splitOn_parts {first : List (List Char)} {parts : List (List (List Char))} (hfirst : [] ∉ first)
    (hparts : ∀ part ∈ parts, [] ∉ part) : (first ++ parts.flatMap ([] :: ·)).splitOn [] = first :: parts := by
  induction parts generalizing first with
  | nil => rw [List.flatMap_nil, List.append_nil, List.splitOn_eq_singleton hfirst]
  | cons part parts ih =>
    obtain ⟨hpart, hparts⟩ := List.forall_mem_cons.1 hparts
    rw [List.flatMap_cons, List.cons_append, List.splitOn_append_cons_self, List.splitOn_eq_singleton hfirst,
      ih hpart hparts]
    rfl

/-! ### Words -/

def words (cs : List Char) : List String := ((cs.splitOnP isSeparator).filter fun w => !w.isEmpty).map String.ofList

theorem words_append_cons {c : Char} (h : isSeparator c = true) (cs ds : List Char) :
    words (cs ++ c :: ds) = words cs ++ words ds := by
  rw [words, List.splitOnP_append_cons cs ds h, List.filter_append, List.map_append]
  rfl

theorem words_separators {cs : List Char} (h : cs.all isSeparator = true) (ds : List Char) :
    words (cs ++ ds) = words ds := by
  induction cs with
  | nil => rfl
  | cons c cs ih =>
    obtain ⟨hc, hcs⟩ : isSeparator c = true ∧ cs.all isSeparator = true := by simpa using h
    rw [← ih hcs]
    exact words_append_cons hc [] (cs ++ ds)

theorem isSeparator_of_isWordChar {c : Char} (h : isWordChar c = true) : isSeparator c = false := by
  have hword : [' ', ',', '(', ')', ':'].all (fun d => !isWordChar d) = true := by decide
  refine Bool.eq_false_iff.2 fun hsep => ?_
  simpa [h] using List.all_eq_true.1 hword c (of_decide_eq_true hsep)

theorem words_word {w : String} (h : IsWord w.toList) : words w.toList = [w] := by
  obtain ⟨hne, hchars⟩ := h
  rw [words, List.splitOnP_eq_singleton fun c hc => isSeparator_of_isWordChar (List.all_eq_true.1 hchars c hc)]
  simp [hne]

/-- The words are found in their text, if something stands between any two of them. -/
theorem words_spell {ts : List Token} (h : ∀ t ∈ ts, t.Formed) (hparted : ts.Pairwise fun t _ => t.after.toList ≠ []) :
    words (spell ts) = ts.map Token.word := by
  induction ts with
  | nil => rfl
  | cons t ts ih =>
    obtain ⟨⟨hword, hafter⟩, hts⟩ := List.forall_mem_cons.1 h
    obtain ⟨hbetween, hparted⟩ := List.pairwise_cons.1 hparted
    have hspell : spell (t :: ts) = t.word.toList ++ (t.after.toList ++ spell ts) := by simp [spell]
    rw [hspell, List.map_cons, ← ih hts hparted]
    cases hsep : t.after.toList with
    | nil =>
      -- nothing stands after this word, so it is the last
      have hlast : ts = [] := List.eq_nil_iff_forall_not_mem.2 fun u hu => hbetween u hu hsep
      subst hlast
      rw [List.nil_append, show spell [] = [] from rfl, List.append_nil, words_word hword]
      rfl
    | cons c cs =>
      obtain ⟨hc, hcs⟩ : isSeparator c = true ∧ cs.all isSeparator = true := by simpa [hsep] using hafter
      rw [List.cons_append, words_append_cons hc, words_separators hcs, words_word hword]
      rfl

/-! ### Numbers -/

def digits? (cs : List Char) : Option Nat :=
  if cs ≠ [] ∧ cs.all Char.isDigit then some (Nat.ofDigitChars 10 cs 0) else none

theorem digits?_repr (n : Nat) : digits? n.repr.toList = some n := by
  have hdigit : (Nat.toDigits 10 n).all Char.isDigit = true :=
    List.all_eq_true.2 fun c hc => Nat.isDigit_of_mem_toDigits (by decide) (by decide) hc
  rw [Nat.toList_repr, digits?, if_pos ⟨Nat.toDigits_ne_nil, hdigit⟩, Nat.ofDigitChars_ten_toDigits]

/-- The number that digits write, after a sign if it is negative. -/
def number? (s : String) : Option Int :=
  if s.toList.head? = some '-' then (digits? s.toList.tail).map fun n => -Int.ofNat n
  else (digits? s.toList).map Int.ofNat

@[simp] theorem number?_repr (i : Int) : number? i.repr = some i := by
  rw [Int.repr_eq_if]
  split
  · next hpos =>
    have hsign : i.toNat.repr.toList.head? ≠ some '-' := by
      intro hhead
      rw [Nat.toList_repr] at hhead
      have hdigit : '-'.isDigit = true :=
        Nat.isDigit_of_mem_toDigits (by decide) (by decide) (List.mem_of_head? hhead)
      exact absurd hdigit (by decide)
    rw [number?, if_neg hsign, digits?_repr, Option.map_some, Int.ofNat_eq_natCast, Int.toNat_of_nonneg hpos]
  · next hneg =>
    have hlist : ("-" ++ (-i).toNat.repr).toList = '-' :: (-i).toNat.repr.toList := by
      rw [String.toList_append]
      rfl
    rw [number?, hlist, List.head?_cons, if_pos rfl, List.tail_cons, digits?_repr, Option.map_some,
      Int.ofNat_eq_natCast, Int.toNat_of_nonneg (by omega), Int.neg_neg]

end Text

open Text

/-! ### Instructions -/

/-- The first word of an instruction. -/
inductive Mnemonic where
  | alu (op : AluOp)
  | unary (op : RegOp)
  | branch (test : Test)
  | addi | li | lw | sw | j | call | ret
  deriving DecidableEq

namespace Mnemonic

def text : Mnemonic → String
  | alu op => op.text
  | unary op => op.text
  | branch test => test.mnemonic
  | addi => "addi" | li => "li" | lw => "lw" | sw => "sw" | j => "j" | call => "call" | ret => "ret"

def all : List Mnemonic :=
  [alu .add, alu .sub, alu .mul, alu .div, alu .rem, alu .and, alu .or, alu .slt, alu .sgt,
    unary .mv, unary .neg, unary .not, unary .seqz, unary .snez, branch .isZero, branch .isNonzero,
    addi, li, lw, sw, j, call, ret]

def ofText? (s : String) : Option Mnemonic := all.find? fun m => m.text = s

theorem ofText?_text (m : Mnemonic) : ofText? m.text = some m := by
  cases m with
  | alu op => cases op <;> rfl
  | unary op => cases op <;> rfl
  | branch test => cases test <;> rfl
  | addi | li | lw | sw | j | call | ret => rfl

/-- The instruction with the given operands, if there are as many as it takes and each is what it should be. -/
def instruction? : Mnemonic → List String → Option Asm
  | alu op, [rd, rs, rt] => return .alu op (← Reg.ofName? rd) (← Reg.ofName? rs) (← Reg.ofName? rt)
  | unary op, [rd, rs] => return .unary op (← Reg.ofName? rd) (← Reg.ofName? rs)
  | branch test, [rs, target] => return .branch test (← Reg.ofName? rs) ⟨target⟩
  | addi, [rd, rs, imm] => return .addi (← Reg.ofName? rd) (← Reg.ofName? rs) (← number? imm)
  | li, [rd, imm] => return .li (← Reg.ofName? rd) (← Word.ofInt? (← number? imm))
  | lw, [rd, offset, base] => return .lw (← Reg.ofName? rd) (← number? offset) (← Reg.ofName? base)
  | sw, [rs, offset, base] => return .sw (← Reg.ofName? rs) (← number? offset) (← Reg.ofName? base)
  | j, [target] => some (.j ⟨target⟩)
  | call, [target] => some (.call ⟨target⟩)
  | ret, [] => some .ret
  | _, _ => none

end Mnemonic

namespace Asm

/-- The instruction that the words write. -/
def ofWords? (ws : List String) : Option Asm := (ws.head?.bind Mnemonic.ofText?).bind fun m => m.instruction? ws.tail

theorem ofWords?_cons (m : Mnemonic) (ws : List String) : ofWords? (m.text :: ws) = m.instruction? ws := by
  rw [ofWords?, List.head?_cons, Option.bind_some, m.ofText?_text]
  rfl

theorem ofWords?_tokens {a : Asm} (h : a.isPseudo = false) : ofWords? (a.tokens.map Token.word) = some a := by
  cases a with
  | label | comment => simp [isPseudo] at h
  | alu op => exact (ofWords?_cons (.alu op) _).trans (by simp [Mnemonic.instruction?])
  | unary op => exact (ofWords?_cons (.unary op) _).trans (by simp [Mnemonic.instruction?])
  | branch test => exact (ofWords?_cons (.branch test) _).trans (by simp [Mnemonic.instruction?])
  | addi => exact (ofWords?_cons .addi _).trans (by simp [Mnemonic.instruction?])
  | li => exact (ofWords?_cons .li _).trans (by simp [Mnemonic.instruction?])
  | lw => exact (ofWords?_cons .lw _).trans (by simp [Mnemonic.instruction?])
  | sw => exact (ofWords?_cons .sw _).trans (by simp [Mnemonic.instruction?])
  | j => exact ofWords?_cons .j _
  | call => exact ofWords?_cons .call _
  | ret => exact ofWords?_cons .ret _

/-! ### Lines -/

/-- The line of code that a row shows. -/
def ofRow? (row : List Char) : Option Asm :=
  if isRemark row then some (comment (String.ofList (row.drop "    # ".length)))
  else if row.head? = some ' ' then ofWords? (words row)
  else (words row).head?.map fun name => label ⟨name⟩

/-- The line can be read back: labels are symbols and a comment is one line. -/
def Legible (a : Asm) : Prop := (∀ l ∈ a.mention?, l.IsSymbol) ∧ ∀ text ∈ a.remark?, '\n' ∉ text.toList

instance (a : Asm) : Decidable a.Legible := inferInstanceAs (Decidable (_ ∧ _))

theorem pairwise_tokens (a : Asm) : a.tokens.Pairwise fun t _ => t.after.toList ≠ [] := by
  cases a <;> simp [tokens]

theorem words_text {a : Asm} (hsymbol : ∀ l ∈ a.mention?, l.IsSymbol) (hcomment : a.isComment = false) :
    words a.text.toList = a.tokens.map Token.word := by
  rw [toList_text hcomment, words_spell (formed_tokens hsymbol) a.pairwise_tokens]

theorem ofRow?_comment (text : String) : ofRow? (comment text).row = some (comment text) := by
  have hlength : "    # ".toList.length = "    # ".length := rfl
  rw [ofRow?, row_comment, if_pos (isRemark_comment _), List.drop_left' hlength, String.ofList_toList]

theorem ofRow?_label {l : Label} (h : l.IsSymbol) : ofRow? (label l).row = some (label l) := by
  have hsymbol : ∀ k ∈ (label l).mention?, k.IsSymbol := by simpa [mention?] using h
  have hmargin : (label l).row.head? ≠ some ' ' := by
    obtain ⟨c, cs, hname⟩ := List.exists_cons_of_ne_nil h.1
    have hc : isSymbolChar c = true := List.all_eq_true.1 h.2 c (by simp [hname])
    rw [row_label, text, String.toList_append, hname, List.cons_append, List.head?_cons]
    rintro ⟨⟩
    exact absurd hc (by decide)
  rw [ofRow?, (row_of_symbols hsymbol rfl).2, if_neg (by decide), if_neg hmargin, row_label, words_text hsymbol rfl]
  rfl

theorem ofRow?_instruction {a : Asm} (hsymbol : ∀ l ∈ a.mention?, l.IsSymbol) (h : a.isPseudo = false) :
    ofRow? a.row = some a := by
  have hcomment : a.isComment = false := by cases a <;> simp [isPseudo, isComment] at h ⊢
  have hrow : a.row = "    ".toList ++ a.text.toList := by
    refine row_of_ne_label ?_
    rintro l rfl
    simp [isPseudo] at h
  have hmargin : a.row.head? = some ' ' := by rw [hrow]; rfl
  rw [ofRow?, (row_of_symbols hsymbol hcomment).2, if_neg (by decide), if_pos hmargin, hrow,
    words_separators (by decide), words_text hsymbol hcomment, ofWords?_tokens h]

/-- **A line is read from its row.** -/
theorem ofRow?_row {a : Asm} (h : a.Legible) : ofRow? a.row = some a := by
  obtain ⟨hsymbol, -⟩ := h
  cases a with
  | comment text => exact ofRow?_comment text
  | label l => exact ofRow?_label (hsymbol l rfl)
  | alu | addi | li | unary | lw | sw | j | branch | call | ret => exact ofRow?_instruction hsymbol rfl

theorem row_ne_nil {a : Asm} (h : a.Legible) : a.row ≠ [] := by
  -- no line is read from an empty row
  intro hnil
  have hread := ofRow?_row h
  rw [hnil] at hread
  exact absurd hread nofun

theorem notMem_row {a : Asm} (h : a.Legible) : '\n' ∉ a.row := by
  cases hcomment : a.isComment with
  | true =>
    obtain ⟨text, rfl⟩ := exists_comment hcomment
    rw [row_comment, List.mem_append]
    exact fun hm => hm.elim (by decide) (h.2 text rfl)
  | false => exact (row_of_symbols h.1 hcomment).1

end Asm

/-! ### Functions -/

namespace AsmFunc

def labelled (f : AsmFunc) : List Asm := .label f.name :: f.code

/-- The function can be read back from a program: it has code, its name is a symbol, and all lines can be read back. -/
def Legible (f : AsmFunc) : Prop := f.code ≠ [] ∧ f.name.IsSymbol ∧ ∀ a ∈ f.code, a.Legible

instance (f : AsmFunc) : Decidable f.Legible := inferInstanceAs (Decidable (_ ∧ _))

theorem Legible.labelled {f : AsmFunc} (h : f.Legible) : ∀ a ∈ f.labelled, a.Legible := by
  obtain ⟨-, hname, hcode⟩ := h
  refine List.forall_mem_cons.2 ⟨⟨?_, ?_⟩, hcode⟩
  · simpa [Asm.mention?] using hname
  · simp [Asm.remark?]

/-- The function with the given code, its entry label in front. -/
def ofLabelled? : List Asm → Option AsmFunc
  | .label name :: code => some ⟨name, code⟩
  | _ => none

def ofRows? (rows : List (List Char)) : Option AsmFunc := (rows.mapM Asm.ofRow?).bind ofLabelled?

theorem ofRows?_labelled {f : AsmFunc} (h : f.Legible) : ofRows? (f.labelled.map Asm.row) = some f := by
  rw [ofRows?, mapM_map_eq_some fun a ha => Asm.ofRow?_row (h.labelled a ha)]
  rfl

/-! ### Programs -/

/-- The directives in front of the functions. -/
def header (fs : List AsmFunc) : List (List Char) :=
  "    .text".toList :: fs.map fun f => "    .global ".toList ++ f.name.name.toList

def rows (fs : List AsmFunc) : List (List Char) := header fs ++ fs.flatMap fun f => [] :: f.labelled.map Asm.row

theorem toList_directive (f : AsmFunc) :
    f.directive.toList = "    .global ".toList ++ f.name.name.toList ++ ['\n'] := by
  rw [directive, String.toList_append, String.toList_append]
  rfl

theorem toList_text (f : AsmFunc) : f.text.toList = unlines ([] :: f.labelled.map Asm.row) := by
  rw [labelled, List.map_cons, unlines_cons, unlines_cons, ← Asm.toList_listing, Asm.row_label]
  simp [text, Asm.text]

theorem toList_program {fs : List AsmFunc} (h : ∀ f ∈ fs, f.code ≠ []) : (program fs).toList = unlines (rows fs) := by
  have hall : (fs.filter fun f => !f.code.isEmpty) = fs := List.filter_eq_self.2 fun f hf => by simpa using h f hf
  have hparts : unlines (fs.flatMap fun f => [] :: f.labelled.map Asm.row) = fs.flatMap fun f => f.text.toList := by
    simp only [toList_text]
    exact List.flatMap_assoc
  have hheader : unlines (header fs) = "    .text\n".toList ++ fs.flatMap fun f => f.directive.toList := by
    rw [header, unlines_cons, unlines, List.flatMap_map]
    simp only [toList_directive]
    rfl
  rw [rows, unlines, List.flatMap_append, ← unlines, ← unlines, hparts, hheader]
  simp only [program, hall, String.toList_append, String.toList_join, List.flatMap_map]

section

variable {fs : List AsmFunc} (h : ∀ f ∈ fs, f.Legible)
include h

theorem notMem_rows : ∀ row ∈ rows fs, '\n' ∉ row := by
  have hname : ∀ f ∈ fs, '\n' ∉ f.name.name.toList :=
    fun f hf hm => absurd (List.all_eq_true.1 (h f hf).2.1.2 '\n' hm) (by decide)
  refine List.forall_mem_append.2 ⟨List.forall_mem_cons.2 ⟨by decide, List.forall_mem_map.2 fun f hf hm => ?_⟩, ?_⟩
  · exact (List.mem_append.1 hm).elim (by decide) (hname f hf)
  · intro row hrow
    obtain ⟨f, hf, hrow⟩ := List.mem_flatMap.1 hrow
    rcases List.mem_cons.1 hrow with rfl | hrow
    · exact List.not_mem_nil
    · obtain ⟨a, ha, rfl⟩ := List.mem_map.1 hrow
      exact Asm.notMem_row ((h f hf).labelled a ha)

theorem splitOn_rows : (rows fs).splitOn [] = header fs :: fs.map fun f => f.labelled.map Asm.row := by
  have hheader : [] ∉ header fs := by simp [header]
  have hparts : ∀ f ∈ fs, [] ∉ f.labelled.map Asm.row := by
    intro f hf hnil
    obtain ⟨a, ha, hrow⟩ := List.mem_map.1 hnil
    exact Asm.row_ne_nil ((h f hf).labelled a ha) hrow
  rw [← splitOn_parts hheader (List.forall_mem_map.2 hparts), List.flatMap_map]
  rfl

end

/-- The functions of the program that the text shows.  Nothing is read from the directives: they repeat the names. -/
def ofText? (cs : List Char) : Option (List AsmFunc) := ((lines cs).splitOn []).tail.mapM ofRows?

/-- **A program is read from its text.** -/
theorem ofText?_program {fs : List AsmFunc} (h : ∀ f ∈ fs, f.Legible) : ofText? (program fs).toList = some fs := by
  rw [ofText?, toList_program fun f hf => (h f hf).1, lines_unlines_of_notMem (notMem_rows h), splitOn_rows h,
    List.tail_cons, mapM_map_eq_some fun f hf => ofRows?_labelled (h f hf)]

/-- **The text determines the program.**  If the functions have code, their names and labels are symbols and their
comments have one line, two programs have the same text only if they have the same functions in the same order, with the
same names and the same lines. -/
theorem program_eq_iff {fs gs : List AsmFunc} (hfs : ∀ f ∈ fs, f.Legible) (hgs : ∀ g ∈ gs, g.Legible) :
    program fs = program gs ↔ fs = gs := by
  refine ⟨fun h => ?_, congrArg program⟩
  have hread : some fs = some gs := by rw [← ofText?_program hfs, ← ofText?_program hgs, h]
  exact Option.some.inj hread

/-- One function with a label in its code. -/
def joined : List AsmFunc := [⟨⟨"f"⟩, [.li .a0 (-1), .ret, .label ⟨"g"⟩, .comment "f returns", .ret]⟩]

/-- The same lines as two functions. -/
def parted : List AsmFunc := [⟨⟨"f"⟩, [.li .a0 (-1), .ret]⟩, ⟨⟨"g"⟩, [.comment "f returns", .ret]⟩]

/-- A label in the code of a function is not taken for the entry of another. -/
theorem program_eq_iff_parted :
    (∀ f ∈ joined, f.Legible) ∧ (∀ g ∈ parted, g.Legible) ∧ program joined ≠ program parted := by
  have hjoined : ∀ f ∈ joined, f.Legible := by decide
  have hparted : ∀ g ∈ parted, g.Legible := by decide
  exact ⟨hjoined, hparted, fun h => absurd ((program_eq_iff hjoined hparted).1 h) (by decide)⟩

end AsmFunc

end ThreeAddress
