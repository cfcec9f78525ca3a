import ThreeAddress.Json.Reader
import ThreeAddress.Json.Writer

/-!
Reading what was written.  A value is legible if each part of it can be told from its text: no fault stands in it,
control characters in its strings are escaped, and its numbers are whole numbers without zeros in front.

Main statement: the text of a legible value is read as the value (`read_write`).
-/

namespace ThreeAddress.Json

/-! ### Strings -/

theorem hexDigit?_hexChar {n : Nat} (h : n < 16) : hexDigit? (hexChar n) = some n := by
  revert n
  decide

theorem hexUnit?_hexChar {u : Nat} (h : u < 65536) :
    hexUnit? (hexChar (u / 4096 % 16)) (hexChar (u / 256 % 16)) (hexChar (u / 16 % 16)) (hexChar (u % 16)) =
      some u := by
  have hd : ∀ n, hexDigit? (hexChar (n % 16)) = some (n % 16) := fun n => hexDigit?_hexChar (Nat.mod_lt n (by decide))
  simp only [hexUnit?, hd, Option.bind_eq_bind, Option.bind_some, Option.pure_def, Option.some.injEq]
  omega

/-- The piece has a written form of its own: a character that may stand in a string or has a short escape, or a
UTF-16 unit. -/
def Piece.Legible : Piece → Prop
  | .char c => 0x20 ≤ c.toNat ∨ c ∈ ['\x08', '\t', '\n', '\x0c', '\r']
  | .unit u => u < 65536

/-- The literal is closed, and each piece has a written form. -/
structure Literal.Legible (s : Literal) : Prop where
  pieces : ∀ p ∈ s.pieces, p.Legible
  closed : s.fault = none

theorem readLiteral_char {c : Char} (hc : 0x20 ≤ c.toNat) (hquote : c ≠ '"') (hescape : c ≠ '\\') (rest : List Char) :
    readLiteral (c :: rest) = Literal.cons (.char c) (readLiteral rest) := by
  rw [readLiteral]
  · rw [if_neg (Nat.not_lt.2 hc)]
  · exact hquote
  · exact fun _ _ _ _ _ h _ => hescape h
  · exact fun _ h _ => hescape h
  · exact fun _ _ h _ => hescape h
  · exact fun h _ => hescape h

theorem readLiteral_piece {p : Piece} (hp : p.Legible) (rest : List Char) :
    readLiteral (p.write ++ rest) = Literal.cons p (readLiteral rest) := by
  fun_cases Piece.write p
  case case8 c hquote hescape h₁ h₂ h₃ h₄ h₅ =>
    refine readLiteral_char (hp.resolve_right ?_) hquote hescape rest
    simpa using ⟨h₁, h₂, h₃, h₄, h₅⟩
  case case9 u =>
    show readLiteral ('\\' :: 'u' :: _ :: _ :: _ :: _ :: rest) = _
    rw [readLiteral, hexUnit?_hexChar hp]
  all_goals rfl

def Literal.tail (s : Literal) : List Char := s.pieces.flatMap Piece.write ++ ['"']

theorem Literal.write_eq (s : Literal) : s.write = '"' :: s.tail := rfl

theorem readLiteral_tail {s : Literal} (hs : s.Legible) (rest : List Char) :
    readLiteral (s.tail ++ rest) = (s, some rest) := by
  obtain ⟨pieces, fault⟩ := s
  obtain ⟨hp, rfl⟩ := hs
  unfold Literal.tail
  induction pieces with
  | nil => rfl
  | cons p pieces ih =>
    rw [List.forall_mem_cons] at hp
    rw [List.flatMap_cons, List.append_assoc, List.append_assoc, readLiteral_piece hp.1, ← List.append_assoc, ih hp.2]
    rfl

/-! ### Numbers -/

/-- The digits of a whole number: at least one, and no zero in front of others. -/
structure Numeral (ds : List Char) : Prop where
  digits : ∀ c ∈ ds, c.isDigit = true
  nonempty : ds ≠ []
  lead : ∀ d rest, ds ≠ '0' :: d :: rest

/-- No number goes on with the text. -/
def EndsNumber (cs : List Char) : Prop := ∀ c ∈ cs.head?, c.isDigit = false ∧ c ≠ '.' ∧ c ≠ 'e' ∧ c ≠ 'E'

theorem EndsNumber.nil : EndsNumber [] := by simp [EndsNumber]

theorem digits_append {ds rest : List Char} (hds : ∀ c ∈ ds, c.isDigit = true) (hrest : EndsNumber rest) :
    digits (ds ++ rest) = (ds, rest) := by
  have hstop : rest.takeWhile Char.isDigit = [] ∧ rest.dropWhile Char.isDigit = rest := by
    cases rest with
    | nil => exact ⟨rfl, rfl⟩
    | cons c rest => simp [(hrest c rfl).1]
  rw [digits, List.takeWhile_append_of_pos hds, List.dropWhile_append_of_pos hds, hstop.1, hstop.2, List.append_nil]

theorem readNumber_append (negative : Bool) {ds rest : List Char} (hds : Numeral ds) (hrest : EndsNumber rest) :
    readNumber negative (ds ++ rest) = (.number ⟨negative, ds, none, none⟩, some rest) := by
  have hexponent : readExponent negative ds none rest = (.number ⟨negative, ds, none, none⟩, some rest) := by
    cases rest with
    | nil => rfl
    | cons c rest =>
      obtain ⟨-, -, he, hE⟩ := hrest c rfl
      simp [readExponent, he, hE]
  have hfraction : readFraction negative ds rest = readExponent negative ds none rest := by
    rw [readFraction]
    rintro cs rfl
    exact (hrest '.' rfl).2.1 rfl
  unfold readNumber
  rw [digits_append hds.digits hrest]
  split
  · rename_i h
    exact absurd (congrArg Prod.fst h) hds.nonempty
  · rename_i h
    exact absurd (congrArg Prod.fst h) (hds.lead _ _)
  · rename_i h
    obtain ⟨rfl, rfl⟩ := Prod.mk.inj h
    rw [hfraction, hexponent]

/-! ### Values -/

mutual

/-- The value can be told from its text. -/
def Value.Legible : Value → Prop
  | .null | .bool _ => True
  | .number n => Numeral n.whole ∧ n.fraction = none ∧ n.exponent = none
  | .string s => s.Legible
  | .array items fault => LegibleItems items ∧ fault = none
  | .object members fault => LegibleMembers members ∧ fault = none
  | .missing _ | .broken _ _ => False

def LegibleItems : List Value → Prop
  | [] => True
  | v :: vs => v.Legible ∧ LegibleItems vs

def LegibleMembers : List (Literal × Value) → Prop
  | [] => True
  | (k, v) :: ms => k.Legible ∧ v.Legible ∧ LegibleMembers ms

end

theorem legibleItems_iff {vs : List Value} : LegibleItems vs ↔ ∀ v ∈ vs, v.Legible := by
  induction vs with
  | nil => simp [LegibleItems]
  | cons v vs ih => simp [LegibleItems, ih]

theorem legibleMembers_iff {ms : List (Literal × Value)} :
    LegibleMembers ms ↔ ∀ m ∈ ms, m.1.Legible ∧ m.2.Legible := by
  induction ms with
  | nil => simp [LegibleMembers]
  | cons m ms ih => simp [LegibleMembers, ih, and_assoc]

theorem skipBlank_newline (level : Nat) (cs : List Char) : skipBlank (newline level ++ cs) = skipBlank cs := by
  have hblank : ∀ c ∈ newline level, isBlank c = true := by
    intro c hc
    rcases List.mem_cons.1 hc with rfl | hc
    · rfl
    · rw [List.eq_of_mem_replicate hc]
      rfl
  exact List.dropWhile_append_of_pos hblank

theorem skipBlank_cons {c : Char} (hc : isBlank c = false) (cs : List Char) : skipBlank (c :: cs) = c :: cs :=
  List.dropWhile_cons_of_neg (by simp [hc])

theorem endsNumber_newline (level : Nat) (cs : List Char) : EndsNumber (newline level ++ cs) := by
  rintro c hc
  cases Option.some.inj hc
  decide

theorem not_isBlank_of_isDigit {c : Char} (hc : c.isDigit = true) : isBlank c = false := by
  cases hb : isBlank c with
  | false => rfl
  | true =>
    simp only [isBlank, Bool.or_eq_true, decide_eq_true_eq] at hb
    rcases hb with ((rfl | rfl) | rfl) | rfl <;> simp at hc

/-- A value starts with a character that is neither blank nor a closing bracket. -/
theorem Value.Legible.head {v : Value} (hv : v.Legible) (level : Nat) :
    ∃ c cs, v.write level = c :: cs ∧ isBlank c = false ∧ c ≠ ']' := by
  fun_cases Value.write level v
  case case4 n =>
    obtain ⟨hds, -, -⟩ := hv
    obtain ⟨d, ds, hd⟩ := List.exists_cons_of_ne_nil hds.nonempty
    have hdigit := hds.digits d (by simp [hd])
    unfold Number.write
    cases n.negative with
    | true => exact ⟨'-', _, rfl, rfl, by decide⟩
    | false =>
      refine ⟨d, _, by rw [hd]; rfl, not_isBlank_of_isDigit hdigit, ?_⟩
      rintro rfl
      simp at hdigit
  case case10 => exact absurd hv id
  case case11 => exact absurd hv id
  all_goals exact ⟨_, _, rfl, rfl, by decide⟩

theorem readValue_digit {c : Char} (hc : c.isDigit = true) (fuel : Nat) (cs : List Char) :
    readValue (fuel + 1) (c :: cs) = readNumber false (c :: cs) := by
  unfold readValue
  rw [skipBlank_cons (not_isBlank_of_isDigit hc)]
  split
  case h_8 heq =>
    obtain ⟨rfl, rfl⟩ := List.cons.inj heq
    rw [if_pos hc]
  case h_9 heq => simp at heq
  all_goals
    rename_i heq
    cases (List.cons.inj heq).1
    simp at hc

theorem readNumber_write {n : Number} (hn : (Value.number n).Legible) {fuel : Nat} {rest : List Char}
    (hrest : EndsNumber rest) : readValue (fuel + 1) (n.write ++ rest) = (.number n, some rest) := by
  obtain ⟨negative, whole, fraction, exponent⟩ := n
  obtain ⟨hds, rfl, rfl⟩ := hn
  have htext : Number.write ⟨negative, whole, none, none⟩ = (if negative then ['-'] else []) ++ whole := by
    simp [Number.write]
  rw [htext, List.append_assoc]
  cases negative with
  | true => exact readNumber_append true hds hrest
  | false =>
    have hread := readNumber_append false hds hrest
    obtain ⟨d, ds, rfl⟩ := List.exists_cons_of_ne_nil hds.nonempty
    exact (readValue_digit (hds.digits d List.mem_cons_self) fuel _).trans hread

/-! ### Brackets -/

/-- The text of items, the first of which has no comma in front, and of the closing bracket. -/
def itemsText (level : Nat) (v : Value) (vs : List Value) (rest : List Char) : List Char :=
  v.write (level + 1) ++ (writeItems (level + 1) vs ++ (newline level ++ ']' :: rest))

/-- The text of members after the quote that opens the first key, and of the closing bracket. -/
def membersText (level : Nat) (k : Literal) (v : Value) (ms : List (Literal × Value)) (rest : List Char) : List Char :=
  k.tail ++ ':' :: ' ' :: (v.write (level + 1) ++ (writeMembers (level + 1) ms ++ (newline level ++ '\x7d' :: rest)))

theorem endsNumber_items (level : Nat) (vs : List Value) (rest : List Char) :
    EndsNumber (writeItems (level + 1) vs ++ (newline level ++ ']' :: rest)) := by
  cases vs with
  | nil => exact endsNumber_newline level _
  | cons v vs =>
    intro c hc
    rw [writeItems] at hc
    cases Option.some.inj hc
    decide

theorem endsNumber_members (level : Nat) (ms : List (Literal × Value)) (rest : List Char) :
    EndsNumber (writeMembers (level + 1) ms ++ (newline level ++ '\x7d' :: rest)) := by
  cases ms with
  | nil => exact endsNumber_newline level _
  | cons m ms =>
    intro c hc
    rw [writeMembers] at hc
    cases Option.some.inj hc
    decide

theorem skipBlank_itemsText {v : Value} (hv : v.Legible) (level : Nat) (vs : List Value) (rest : List Char) :
    ∃ c cs, itemsText level v vs rest = c :: cs ∧ c ≠ ']' ∧
      skipBlank (newline (level + 1) ++ itemsText level v vs rest) = c :: cs := by
  obtain ⟨c, cs, hc, hblank, hne⟩ := hv.head (level + 1)
  have htext : itemsText level v vs rest =
      c :: (cs ++ (writeItems (level + 1) vs ++ (newline level ++ ']' :: rest))) := by
    rw [itemsText, hc, List.cons_append]
  exact ⟨c, _, htext, hne, by rw [skipBlank_newline, htext, skipBlank_cons hblank]⟩

theorem readValue_string (fuel : Nat) (cs : List Char) :
    readValue (fuel + 1) ('"' :: cs) = (.string (readLiteral cs).1, (readLiteral cs).2) :=
  rfl

theorem readValue_items {v : Value} (hv : v.Legible) (fuel level : Nat) (vs : List Value) (rest : List Char) :
    readValue (fuel + 1) ('[' :: (newline (level + 1) ++ itemsText level v vs rest)) =
      readItems fuel [] (itemsText level v vs rest) := by
  obtain ⟨c, cs, htext, hne, hskip⟩ := skipBlank_itemsText hv level vs rest
  rw [htext] at hskip ⊢
  simp only [readValue, skipBlank_cons (show isBlank '[' = false from rfl), hskip]
  split
  · rename_i heq
    exact absurd (List.cons.inj heq).1 hne
  · rename_i heq
    simp at heq
  · rfl

theorem readValue_members (fuel level : Nat) (cs : List Char) :
    readValue (fuel + 1) ('\x7b' :: (newline level ++ '"' :: cs)) = readMembers fuel [] cs := by
  simp only [readValue, skipBlank_cons (show isBlank '\x7b' = false from rfl), skipBlank_newline,
    skipBlank_cons (show isBlank '"' = false from rfl)]

theorem readItems_last {fuel : Nat} {cs rest : List Char} {v : Value} {level : Nat} (items : List Value)
    (hread : readValue fuel cs = (v, some (newline level ++ ']' :: rest))) :
    readItems (fuel + 1) items cs = (.array (items.reverse ++ [v]) none, some rest) := by
  rw [readItems, hread]
  simp [skipBlank_newline, skipBlank_cons (show isBlank ']' = false from rfl)]

theorem readItems_next {fuel : Nat} {cs rest : List Char} {v w : Value} {vs : List Value} {level : Nat}
    (items : List Value) (hw : w.Legible)
    (hread : readValue fuel cs = (v, some (',' :: (newline (level + 1) ++ itemsText level w vs rest)))) :
    readItems (fuel + 1) items cs = readItems fuel (v :: items) (itemsText level w vs rest) := by
  obtain ⟨c, cs', htext, hne, hskip⟩ := skipBlank_itemsText hw level vs rest
  rw [readItems, hread, htext]
  rw [htext] at hskip
  simp only [skipBlank_cons (show isBlank ',' = false from rfl), hskip]
  split
  · rename_i heq
    exact absurd (List.cons.inj heq).1 hne
  · rfl

theorem readValue_space (fuel : Nat) (cs : List Char) : readValue fuel (' ' :: cs) = readValue fuel cs := by
  cases fuel <;> rfl

theorem readMembers_last {fuel : Nat} {cs cs' rest : List Char} {k : Literal} {v : Value} {level : Nat}
    (members : List (Literal × Value)) (hkey : readLiteral cs = (k, some (':' :: ' ' :: cs')))
    (hread : readValue fuel cs' = (v, some (newline level ++ '\x7d' :: rest))) :
    readMembers (fuel + 1) members cs = (.object (members.reverse ++ [(k, v)]) none, some rest) := by
  have hcolon : readColon (':' :: ' ' :: cs') = .ok (' ' :: cs') := rfl
  rw [readMembers, hkey]
  simp [hcolon, readValue_space, hread, skipBlank_newline, skipBlank_cons (show isBlank '\x7d' = false from rfl)]

theorem readMembers_next {fuel : Nat} {cs cs' rest : List Char} {k : Literal} {v : Value} {level : Nat}
    (members : List (Literal × Value)) (hkey : readLiteral cs = (k, some (':' :: ' ' :: cs')))
    (hread : readValue fuel cs' = (v, some (',' :: (newline level ++ '"' :: rest)))) :
    readMembers (fuel + 1) members cs = readMembers fuel ((k, v) :: members) rest := by
  have hcolon : readColon (':' :: ' ' :: cs') = .ok (' ' :: cs') := rfl
  rw [readMembers, hkey]
  simp [hcolon, readValue_space, hread, skipBlank_newline, skipBlank_cons (show isBlank ',' = false from rfl),
    skipBlank_cons (show isBlank '"' = false from rfl)]

/-! ### Reading back -/

/-- With the given fuel, legible values, items and members whose text is not longer are read back. -/
structure ReadsBack (fuel : Nat) : Prop where
  value : ∀ (v : Value) (level : Nat) (rest : List Char), v.Legible → EndsNumber rest →
    2 * (v.write level).length ≤ fuel → readValue fuel (v.write level ++ rest) = (v, some rest)
  items : ∀ (v : Value) (vs before : List Value) (level : Nat) (rest : List Char), v.Legible → LegibleItems vs →
    2 * (v.write (level + 1) ++ writeItems (level + 1) vs).length < fuel →
    readItems fuel before (itemsText level v vs rest) = (.array (before.reverse ++ v :: vs) none, some rest)
  members : ∀ (k : Literal) (v : Value) (ms before : List (Literal × Value)) (level : Nat) (rest : List Char),
    k.Legible → v.Legible → LegibleMembers ms →
    2 * (k.tail ++ v.write (level + 1) ++ writeMembers (level + 1) ms).length < fuel →
    readMembers fuel before (membersText level k v ms rest) = (.object (before.reverse ++ (k, v) :: ms) none, some rest)

namespace ReadsBack

variable {fuel : Nat}

theorem value_succ (h : ReadsBack fuel) (v : Value) (level : Nat) (rest : List Char) (hv : v.Legible)
    (hrest : EndsNumber rest) (hfuel : 2 * (v.write level).length ≤ fuel + 1) :
    readValue (fuel + 1) (v.write level ++ rest) = (v, some rest) := by
  match v with
  | .null => simp only [Value.write]; rfl
  | .bool true => simp only [Value.write]; rfl
  | .bool false => simp only [Value.write]; rfl
  | .number n =>
    simp only [Value.write]
    exact readNumber_write hv hrest
  | .string s =>
    simp only [Value.write]
    refine (readValue_string fuel (s.tail ++ rest)).trans ?_
    rw [readLiteral_tail hv]
  | .array [] fault =>
    cases hv.2
    simp only [Value.write]
    rfl
  | .array (v :: vs) fault =>
    obtain ⟨⟨hv, hvs⟩, rfl⟩ := hv
    simp only [Value.write, List.cons_append, List.append_assoc, List.nil_append] at hfuel ⊢
    refine (readValue_items hv fuel level vs rest).trans (h.items v vs [] level rest hv hvs ?_)
    simp only [List.length_cons, List.length_append, newline] at hfuel ⊢
    omega
  | .object [] fault =>
    cases hv.2
    simp only [Value.write]
    rfl
  | .object ((k, v) :: ms) fault =>
    obtain ⟨⟨hk, hv, hms⟩, rfl⟩ := hv
    simp only [Value.write, Literal.write_eq, List.cons_append, List.append_assoc, List.nil_append] at hfuel ⊢
    refine (readValue_members fuel (level + 1) _).trans (h.members k v ms [] level rest hk hv hms ?_)
    simp only [List.length_cons, List.length_append, newline] at hfuel ⊢
    omega
  | .missing _ => exact absurd hv id
  | .broken _ _ => exact absurd hv id

theorem items_succ (h : ReadsBack fuel) (v : Value) (vs before : List Value) (level : Nat) (rest : List Char)
    (hv : v.Legible) (hvs : LegibleItems vs)
    (hfuel : 2 * (v.write (level + 1) ++ writeItems (level + 1) vs).length < fuel + 1) :
    readItems (fuel + 1) before (itemsText level v vs rest) = (.array (before.reverse ++ v :: vs) none, some rest) := by
  rw [List.length_append] at hfuel
  have hread := h.value v (level + 1) _ hv (endsNumber_items level vs rest) (by omega)
  cases vs with
  | nil => exact readItems_last before hread
  | cons w vs =>
    simp only [writeItems, List.cons_append, List.append_assoc] at hread
    simp only [writeItems, List.length_cons, List.length_append] at hfuel
    have hnext := h.items w vs (v :: before) level rest hvs.1 hvs.2 (by rw [List.length_append]; omega)
    rw [itemsText, writeItems]
    simp only [List.cons_append, List.append_assoc]
    refine (readItems_next before hvs.1 hread).trans (hnext.trans ?_)
    simp

theorem members_succ (h : ReadsBack fuel) (k : Literal) (v : Value) (ms before : List (Literal × Value)) (level : Nat)
    (rest : List Char) (hk : k.Legible) (hv : v.Legible) (hms : LegibleMembers ms)
    (hfuel : 2 * (k.tail ++ v.write (level + 1) ++ writeMembers (level + 1) ms).length < fuel + 1) :
    readMembers (fuel + 1) before (membersText level k v ms rest) =
      (.object (before.reverse ++ (k, v) :: ms) none, some rest) := by
  rw [List.length_append, List.length_append] at hfuel
  have hkey := readLiteral_tail hk (':' :: ' ' :: (v.write (level + 1) ++ (writeMembers (level + 1) ms ++
    (newline level ++ '\x7d' :: rest))))
  have hread := h.value v (level + 1) _ hv (endsNumber_members level ms rest) (by omega)
  cases ms with
  | nil => exact readMembers_last before hkey hread
  | cons m ms =>
    obtain ⟨l, w⟩ := m
    obtain ⟨hl, hw, hms⟩ := hms
    simp only [writeMembers, Literal.write_eq, List.cons_append, List.append_assoc, List.nil_append] at hread hkey
    simp only [writeMembers, Literal.write_eq, List.length_cons, List.length_append] at hfuel
    have hnext := h.members l w ms ((k, v) :: before) level rest hl hw hms (by
      rw [List.length_append, List.length_append]
      omega)
    rw [membersText, writeMembers]
    simp only [Literal.write_eq, List.cons_append, List.append_assoc, List.nil_append]
    refine (readMembers_next before hkey hread).trans (hnext.trans ?_)
    simp

end ReadsBack

/-- Every call of a reader spends one unit of fuel, and every other call takes a character. -/
theorem readsBack (fuel : Nat) : ReadsBack fuel := by
  induction fuel with
  | zero =>
    refine ⟨fun v level rest hv _ hfuel => ?_, fun _ _ _ _ _ _ _ h => absurd h (Nat.not_lt_zero _),
      fun _ _ _ _ _ _ _ _ _ h => absurd h (Nat.not_lt_zero _)⟩
    obtain ⟨c, cs, hc, -⟩ := hv.head level
    simp [hc] at hfuel
  | succ fuel ih => exact ⟨ih.value_succ, ih.items_succ, ih.members_succ⟩

/-- **The text of a legible value is read as the value**, with nothing left. -/
theorem read_write {v : Value} (hv : v.Legible) (level : Nat) : read (v.write level) = (v, some []) := by
  have h := (readsBack (2 * (v.write level).length + 2)).value v level [] hv .nil (by omega)
  rwa [List.append_nil] at h

end ThreeAddress.Json
