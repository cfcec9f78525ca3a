/-!
Strict linear orders.  Sets of temporaries and of block numbers are kept as ascending lists; everything that is
known about them comes from the three laws below.
-/

namespace ThreeAddress

/-- A strict linear order: irreflexive, transitive, and any two distinct elements are comparable. -/
class Ordered (α : Type) [LT α] : Prop where
  lt_irrefl : ∀ a : α, ¬ a < a
  lt_trans : ∀ {a b c : α}, a < b → b < c → a < c
  lt_connex : ∀ a b : α, a < b ∨ a = b ∨ b < a

instance : Ordered Nat where
  lt_irrefl := Nat.lt_irrefl
  lt_trans := Nat.lt_trans
  lt_connex := Nat.lt_trichotomy

namespace Ordered

variable {α : Type} [LT α] [Ordered α]

theorem lt_asymm {a b : α} (h : a < b) : ¬ b < a := fun h' => lt_irrefl a (lt_trans h h')

theorem ne_of_lt {a b : α} (h : a < b) : a ≠ b := fun e => lt_irrefl b (e ▸ h)

def max [DecidableLT α] (a b : α) : α := if a < b then b else a

end Ordered

/-- Ascending lists with the same members are equal. -/
theorem ascending_ext {α : Type} [LT α] [Ordered α] {l r : List α} (hl : l.Pairwise (· < ·))
    (hr : r.Pairwise (· < ·)) (h : ∀ a, a ∈ l ↔ a ∈ r) : l = r := by
  induction l generalizing r with
  | nil =>
    cases r with
    | nil => rfl
    | cons b r => exact absurd ((h b).2 List.mem_cons_self) List.not_mem_nil
  | cons a l ih =>
    cases r with
    | nil => exact absurd ((h a).1 List.mem_cons_self) List.not_mem_nil
    | cons b r =>
      rw [List.pairwise_cons] at hl hr
      have hab : a = b := by
        rcases List.mem_cons.1 ((h a).1 List.mem_cons_self) with e | ha
        · exact e
        · rcases List.mem_cons.1 ((h b).2 List.mem_cons_self) with e | hb
          · exact e.symm
          · exact absurd (hr.1 a ha) (Ordered.lt_asymm (hl.1 b hb))
      subst hab
      refine congrArg _ (ih hl.2 hr.2 fun x => ⟨fun hx => ?_, fun hx => ?_⟩)
      · rcases List.mem_cons.1 ((h x).1 (List.mem_cons_of_mem _ hx)) with e | hx'
        · exact absurd e.symm (Ordered.ne_of_lt (hl.1 x hx))
        · exact hx'
      · rcases List.mem_cons.1 ((h x).2 (List.mem_cons_of_mem _ hx)) with e | hx'
        · exact absurd e.symm (Ordered.ne_of_lt (hr.1 x hx))
        · exact hx'

end ThreeAddress
