import ThreeAddress.Ordered

/-!
Finite sets as ascending lists.  The list is determined by the members (`OrdSet.ext_iff_mem`), so equality of sets
is equality of lists and the members come out in ascending order.

One membership lemma per operation: `mem_insert`, `mem_union`, `mem_diff`, `mem_ofList`.
-/

namespace ThreeAddress

/-- A finite set, as the ascending list of its members. -/
structure OrdSet (α : Type) [LT α] where
  toList : List α
  ascending : toList.Pairwise (· < ·)

namespace OrdSet

section

variable {α : Type} [LT α]

theorem ext_toList {s t : OrdSet α} (h : s.toList = t.toList) : s = t := by
  cases s; cases t; cases h; rfl

instance [DecidableEq α] : DecidableEq (OrdSet α) := fun s t =>
  decidable_of_iff (s.toList = t.toList) ⟨ext_toList, fun h => h ▸ rfl⟩

instance : Membership α (OrdSet α) := ⟨fun s a => a ∈ s.toList⟩

instance [DecidableEq α] (a : α) (s : OrdSet α) : Decidable (a ∈ s) := inferInstanceAs (Decidable (a ∈ s.toList))

def empty : OrdSet α := ⟨[], List.Pairwise.nil⟩

instance : EmptyCollection (OrdSet α) := ⟨empty⟩

instance : Inhabited (OrdSet α) := ⟨∅⟩

def size (s : OrdSet α) : Nat := s.toList.length

/-- The members that pass the test. -/
def filter (p : α → Bool) (s : OrdSet α) : OrdSet α := ⟨s.toList.filter p, s.ascending.filter p⟩

@[simp] theorem mem_toList {a : α} {s : OrdSet α} : a ∈ s.toList ↔ a ∈ s := Iff.rfl

@[simp] theorem not_mem_empty (a : α) : ¬ a ∈ (∅ : OrdSet α) := List.not_mem_nil

@[simp] theorem mem_filter {p : α → Bool} {a : α} {s : OrdSet α} : a ∈ s.filter p ↔ a ∈ s ∧ p a = true :=
  List.mem_filter

/-- **Sets are determined by their members.** -/
theorem ext_iff_mem [Ordered α] {s t : OrdSet α} : s = t ↔ ∀ a, a ∈ s ↔ a ∈ t :=
  ⟨fun h _ => h ▸ Iff.rfl, fun h => ext_toList (ascending_ext s.ascending t.ascending h)⟩

/-- The members of `s` that `t` lacks. -/
def diff [DecidableEq α] (s t : OrdSet α) : OrdSet α := s.filter fun a => ¬ a ∈ t

instance [DecidableEq α] : SDiff (OrdSet α) := ⟨diff⟩

@[simp] theorem mem_diff [DecidableEq α] {a : α} {s t : OrdSet α} : a ∈ s \ t ↔ a ∈ s ∧ ¬ a ∈ t := by
  show a ∈ s.filter _ ↔ _
  simp

end

/-! ### Adding members -/

section

variable {α : Type} [LT α] [DecidableLT α] [DecidableEq α]

/-- Puts `a` at its place in an ascending list. -/
def place (a : α) : List α → List α
  | [] => [a]
  | b :: l => if a = b then b :: l else if a < b then a :: b :: l else b :: place a l

@[simp] theorem mem_place {a x : α} {l : List α} : x ∈ place a l ↔ x = a ∨ x ∈ l := by
  induction l with
  | nil => simp [place]
  | cons b l ih =>
    unfold place
    split
    · rename_i h; subst h; simp
    · split
      · simp
      · simp only [List.mem_cons, ih]
        constructor
        · rintro (h | h | h)
          · exact Or.inr (Or.inl h)
          · exact Or.inl h
          · exact Or.inr (Or.inr h)
        · rintro (h | h | h)
          · exact Or.inr (Or.inl h)
          · exact Or.inl h
          · exact Or.inr (Or.inr h)

variable [Ordered α]

theorem place_ascending (a : α) {l : List α} (h : l.Pairwise (· < ·)) : (place a l).Pairwise (· < ·) := by
  induction l with
  | nil => simp [place]
  | cons b l ih =>
    have hb := List.pairwise_cons.1 h
    unfold place
    split
    · exact h
    · rename_i hne
      split
      · rename_i hlt
        refine List.pairwise_cons.2 ⟨fun x hx => ?_, h⟩
        rcases List.mem_cons.1 hx with e | hx
        · exact e ▸ hlt
        · exact Ordered.lt_trans hlt (hb.1 x hx)
      · rename_i hlt
        refine List.pairwise_cons.2 ⟨fun x hx => ?_, ih hb.2⟩
        rcases mem_place.1 hx with e | hx
        · rcases Ordered.lt_connex a b with h' | h' | h'
          · exact absurd h' hlt
          · exact absurd h' hne
          · exact e ▸ h'
        · exact hb.1 x hx

def insert (a : α) (s : OrdSet α) : OrdSet α := ⟨place a s.toList, place_ascending a s.ascending⟩

def ofList (l : List α) : OrdSet α := l.foldr insert ∅

def union (s t : OrdSet α) : OrdSet α := s.toList.foldr insert t

instance : Union (OrdSet α) := ⟨union⟩

@[simp] theorem mem_insert {a x : α} {s : OrdSet α} : x ∈ s.insert a ↔ x = a ∨ x ∈ s := mem_place

theorem mem_foldr_insert {x : α} {l : List α} {s : OrdSet α} : x ∈ l.foldr insert s ↔ x ∈ l ∨ x ∈ s := by
  induction l with
  | nil => simp
  | cons a l ih => simp [ih, or_assoc]

@[simp] theorem mem_ofList {x : α} {l : List α} : x ∈ ofList l ↔ x ∈ l := by
  simp [ofList, mem_foldr_insert]

@[simp] theorem mem_union {x : α} {s t : OrdSet α} : x ∈ s ∪ t ↔ x ∈ s ∨ x ∈ t := mem_foldr_insert

end

/-! ### Text -/

/-- The members in braces, each written by `f` and divided by commas. -/
def render {α : Type} [LT α] (f : α → String) (s : OrdSet α) : String :=
  "\x7b" ++ ", ".intercalate (s.toList.map f) ++ "\x7d"

end OrdSet

end ThreeAddress
