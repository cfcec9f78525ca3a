import ThreeAddress.Ordered

/-!
Finite maps as lists of pairs with ascending keys, so that the pairs come out in ascending order of key.

One look-up lemma per operation: `get?_empty`, `get?_insert`.
-/

namespace ThreeAddress

/-- A finite map, as the list of its pairs with ascending keys. -/
structure OrdMap (α : Type) (β : Type) [LT α] where
  toList : List (α × β)
  ascending : toList.Pairwise (·.1 < ·.1)

namespace OrdMap

/-! ### Lists of pairs -/

section

variable {α β : Type} [DecidableEq α]

/-- The value of the first pair with key `a`. -/
def find (a : α) : List (α × β) → Option β
  | [] => none
  | p :: l => if a = p.1 then some p.2 else find a l

variable [LT α] [DecidableLT α]

/-- Puts the pair at its place in a list with ascending keys, over a pair with the same key. -/
def place (a : α) (b : β) : List (α × β) → List (α × β)
  | [] => [(a, b)]
  | p :: l => if a = p.1 then (a, b) :: l else if a < p.1 then (a, b) :: p :: l else p :: place a b l

theorem mem_place {a : α} {b : β} {q : α × β} {l : List (α × β)} (h : q ∈ place a b l) : q = (a, b) ∨ q ∈ l := by
  induction l with
  | nil => exact Or.inl (by simpa [place] using h)
  | cons p l ih =>
    unfold place at h
    split at h
    · rcases List.mem_cons.1 h with e | h
      · exact Or.inl e
      · exact Or.inr (List.mem_cons_of_mem _ h)
    · split at h
      · rcases List.mem_cons.1 h with e | h
        · exact Or.inl e
        · exact Or.inr h
      · rcases List.mem_cons.1 h with e | h
        · exact Or.inr (e ▸ List.mem_cons_self)
        · exact (ih h).imp id (List.mem_cons_of_mem _)

theorem find_place {a x : α} {b : β} {l : List (α × β)} :
    find x (place a b l) = if x = a then some b else find x l := by
  induction l with
  | nil => rfl
  | cons p l ih =>
    unfold place
    split
    · rename_i hp
      rw [find, find]
      by_cases hx : x = a
      · rw [if_pos hx, if_pos hx]
      · rw [if_neg hx, if_neg hx, if_neg (hp ▸ hx)]
    · rename_i hp
      split
      · rw [find]
      · rw [find, find, ih]
        by_cases hx : x = p.1
        · rw [if_pos hx, if_neg (fun e => hp (e.symm.trans hx)), if_pos hx]
        · rw [if_neg hx, if_neg hx]

theorem place_ascending [Ordered α] (a : α) (b : β) {l : List (α × β)} (h : l.Pairwise (·.1 < ·.1)) :
    (place a b l).Pairwise (·.1 < ·.1) := by
  induction l with
  | nil => simp [place]
  | cons p l ih =>
    have hp := List.pairwise_cons.1 h
    unfold place
    split
    · rename_i e
      exact List.pairwise_cons.2 ⟨fun q hq => e ▸ hp.1 q hq, hp.2⟩
    · rename_i hne
      split
      · rename_i hlt
        refine List.pairwise_cons.2 ⟨fun q hq => ?_, h⟩
        rcases List.mem_cons.1 hq with e | hq
        · exact e ▸ hlt
        · exact Ordered.lt_trans hlt (hp.1 q hq)
      · rename_i hlt
        refine List.pairwise_cons.2 ⟨fun q hq => ?_, ih hp.2⟩
        rcases mem_place hq with e | hq
        · subst e
          rcases Ordered.lt_connex a p.1 with h' | h' | h'
          · exact absurd h' hlt
          · exact absurd h' hne
          · exact h'
        · exact hp.1 q hq

end

/-! ### Maps -/

section

variable {α β : Type} [LT α]

theorem ext_toList {m n : OrdMap α β} (h : m.toList = n.toList) : m = n := by
  cases m; cases n; cases h; rfl

instance [DecidableEq α] [DecidableEq β] : DecidableEq (OrdMap α β) := fun m n =>
  decidable_of_iff (m.toList = n.toList) ⟨ext_toList, fun h => h ▸ rfl⟩

def empty : OrdMap α β := ⟨[], List.Pairwise.nil⟩

instance : EmptyCollection (OrdMap α β) := ⟨empty⟩

instance : Inhabited (OrdMap α β) := ⟨∅⟩

variable [DecidableEq α]

def get? (m : OrdMap α β) (a : α) : Option β := find a m.toList

@[simp] theorem get?_empty (a : α) : (∅ : OrdMap α β).get? a = none := rfl

variable [Ordered α] [DecidableLT α]

def insert (m : OrdMap α β) (a : α) (b : β) : OrdMap α β :=
  ⟨place a b m.toList, place_ascending a b m.ascending⟩

@[simp] theorem get?_insert {m : OrdMap α β} {a x : α} {b : β} :
    (m.insert a b).get? x = if x = a then some b else m.get? x := find_place

end

end OrdMap

end ThreeAddress
