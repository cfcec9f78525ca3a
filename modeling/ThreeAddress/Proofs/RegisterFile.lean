import Mathlib.Logic.Function.Basic
import ThreeAddress.RegisterFile

/-!
The two look-ups of the register file stay inverse to each other (`Consistent`).  For each operation stand here what
it does to either look-up, and that it forgets no register that was written.
-/

namespace ThreeAddress

namespace RegisterFile

/-- A temporary is in a register exactly if the register holds it. -/
def Consistent (f : RegisterFile) : Prop := ∀ t r, f.binding? t = some r ↔ f.occupant? r = some t

def used (f : RegisterFile) (r : Reg) : Bool := (f.state r).used

section

variable (f : RegisterFile)

theorem occupant?_setState (r q : Reg) (s : RegState) :
    (f.setState r s).occupant? q = if q = r then s.occupant? else f.occupant? q := by
  rw [occupant?, state_setState]
  split <;> rfl

theorem used_setState (r q : Reg) (s : RegState) :
    (f.setState r s).used q = if q = r then s.used else f.used q := by
  rw [used, state_setState]
  split <;> rfl

theorem occupant?_release (r q : Reg) : (f.release r).occupant? q = if q = r then none else f.occupant? q :=
  occupant?_setState f r q _

@[simp] theorem binding?_release (r : Reg) (t : Temp) : (f.release r).binding? t = f.binding? t := rfl

@[simp] theorem used_release (r q : Reg) : (f.release r).used q = f.used q := by
  unfold release
  rw [used_setState]
  split
  · rename_i h; rw [h]; rfl
  · rfl

/-! ### The table of temporaries -/

/-- What the table holds at a place; nothing beyond its end. -/
def boundAt? (i : Nat) : Option Reg := f.bindings[i]?.join

theorem join_getElem?_replicate (n i : Nat) : (Array.replicate n (none : Option Reg))[i]?.join = none := by
  rw [Array.getElem?_replicate]
  split <;> rfl

theorem boundAt?_setIfInBounds {i : Nat} (h : i < f.bindings.size) (x : Option Reg) (j : Nat) :
    (f.bindings.setIfInBounds i x)[j]?.join = if j = i then x else f.boundAt? j := by
  rw [Array.getElem?_setIfInBounds]
  by_cases hj : j = i
  · rw [if_pos hj.symm, if_pos h, if_pos hj]
    rfl
  · rw [if_neg (Ne.symm hj), if_neg hj]
    rfl

theorem index_lt_size {t : Temp} {r : Reg} (h : f.binding? t = some r) : t.index < f.bindings.size := by
  have hx := Option.join_eq_some_iff.1 h
  exact (Array.getElem?_eq_some_iff.1 hx).1

theorem index_lt_size_reserve (t : Temp) : t.index < (f.reserve t).bindings.size := by
  unfold reserve
  split
  · rw [Array.size_append, Array.size_replicate]
    omega
  · omega

@[simp] theorem boundAt?_reserve (t : Temp) (i : Nat) : (f.reserve t).boundAt? i = f.boundAt? i := by
  unfold reserve boundAt?
  split
  · rw [Array.getElem?_append]
    split
    · rfl
    · have hend : f.bindings[i]? = none := Array.getElem?_eq_none (by omega)
      rw [join_getElem?_replicate, hend]
      rfl
  · rfl

@[simp] theorem pool_reserve (t : Temp) : (f.reserve t).pool = f.pool := by
  unfold reserve
  split <;> rfl

@[simp] theorem state_reserve (t : Temp) (r : Reg) : (f.reserve t).state r = f.state r := by
  unfold reserve
  split <;> rfl

@[simp] theorem occupant?_reserve (t : Temp) (r : Reg) : (f.reserve t).occupant? r = f.occupant? r := by
  rw [occupant?, state_reserve, occupant?]

@[simp] theorem used_reserve (t : Temp) (r : Reg) : (f.reserve t).used r = f.used r := by
  rw [used, state_reserve, used]

/-! ### Taking a temporary out -/

/-- The answer to taking a temporary out is the register it was in. -/
theorem unbind_eq (t : Temp) : f.unbind t = (f.binding? t, f.without t) := by
  unfold without unbind
  cases f.binding? t with
  | none => rfl
  | some r => rfl

theorem without_eq_self {t : Temp} (h : f.binding? t = none) : f.without t = f := by
  rw [without, unbind, h]

theorem without_eq {t : Temp} {r : Reg} (h : f.binding? t = some r) :
    f.without t = { f.release r with bindings := f.bindings.setIfInBounds t.index none } := by
  rw [without, unbind, h]

@[simp] theorem pool_without (t : Temp) : (f.without t).pool = f.pool := by
  cases h : f.binding? t with
  | none => rw [without_eq_self f h]
  | some r => rw [without_eq f h]; rfl

@[simp] theorem used_without (t : Temp) (r : Reg) : (f.without t).used r = f.used r := by
  cases h : f.binding? t with
  | none => rw [without_eq_self f h]
  | some q => rw [without_eq f h]; exact used_release f q r

theorem boundAt?_without (t : Temp) (i : Nat) :
    (f.without t).boundAt? i = if i = t.index then none else f.boundAt? i := by
  cases h : f.binding? t with
  | none =>
    rw [without_eq_self f h]
    split
    · rename_i e; rw [e]; exact h
    · rfl
  | some r =>
    rw [without_eq f h]
    exact boundAt?_setIfInBounds f (index_lt_size f h) none i

theorem binding?_without (t u : Temp) : (f.without t).binding? u = if u = t then none else f.binding? u := by
  have h := boundAt?_without f t u.index
  simp only [Temp.index_inj] at h
  exact h

variable {f}

theorem binding?_of_without {t u : Temp} {r : Reg} (h : (f.without t).binding? u = some r) : f.binding? u = some r := by
  rw [binding?_without] at h
  split at h
  · simp at h
  · exact h

theorem Consistent.occupant?_without (h : f.Consistent) (t : Temp) (r : Reg) :
    (f.without t).occupant? r = if f.occupant? r = some t then none else f.occupant? r := by
  cases hq : f.binding? t with
  | some q =>
    have e : (f.without t).occupant? r = (f.release q).occupant? r := by rw [without_eq f hq]; rfl
    rw [e, occupant?_release]
    by_cases hr : r = q
    · rw [if_pos hr, hr, if_pos ((h t q).1 hq)]
    · have hn : ¬ f.occupant? r = some t := fun ho => hr (Option.some.inj (((h t r).2 ho).symm.trans hq))
      rw [if_neg hr, if_neg hn]
  | none =>
    have hn : ¬ f.occupant? r = some t := fun ho => by
      rw [(h t r).2 ho] at hq
      exact absurd hq (by simp)
    rw [without_eq_self f hq, if_neg hn]

theorem Consistent.without (h : f.Consistent) (t : Temp) : (f.without t).Consistent := by
  intro u r
  rw [binding?_without, h.occupant?_without]
  by_cases hu : u = t
  · subst hu
    rw [if_pos rfl]
    constructor
    · intro he; exact absurd he (by simp)
    · intro he
      split at he
      · exact absurd he (by simp)
      · rename_i hn; exact absurd he hn
  · rw [if_neg hu, h u r]
    constructor
    · intro he
      have hn : ¬ f.occupant? r = some t := fun ho => hu (Option.some.inj (he.symm.trans ho))
      rw [if_neg hn, he]
    · intro he
      split at he
      · exact absurd he (by simp)
      · exact he

/-! ### Putting a temporary in a register -/

/-- The register file after what register `r` holds has left for `t`. -/
def vacated (f : RegisterFile) (t : Temp) (r : Reg) : RegisterFile :=
  match f.displaced? t r with
  | some u => f.without u
  | none => f

/-- The register file after the former register of `t` is emptied, if `t` goes to `r`. -/
def released (f : RegisterFile) (t : Temp) (r : Reg) : RegisterFile :=
  match f.binding? t with
  | some q => if q = r then f else f.release q
  | none => f

theorem bind_eq (f : RegisterFile) (t : Temp) (r : Reg) :
    f.bind t r = { (((f.vacated t r).released t r).reserve t).setState r ⟨true, true, some t⟩ with
      bindings := (((f.vacated t r).released t r).reserve t).bindings.setIfInBounds t.index (some r) } := rfl

theorem displaced?_eq_some {t u : Temp} {r : Reg} : f.displaced? t r = some u ↔ f.occupant? r = some u ∧ u ≠ t := by
  unfold displaced?
  simp [Option.filter_eq_some_iff]

theorem displaced?_eq_none {t u : Temp} {r : Reg} (h : f.displaced? t r = none) (hu : u ≠ t) :
    f.occupant? r ≠ some u := by
  intro ho
  rw [displaced?_eq_some.2 ⟨ho, hu⟩] at h
  exact absurd h (by simp)

theorem binding?_vacated {t u : Temp} (r : Reg) (hu : u ≠ t) :
    (f.vacated t r).binding? u = if f.occupant? r = some u then none else f.binding? u := by
  unfold vacated
  split
  · rename_i w hw
    obtain ⟨ho, -⟩ := displaced?_eq_some.1 hw
    rw [binding?_without]
    by_cases e : u = w
    · rw [if_pos e, e, if_pos ho]
    · have hn : ¬ f.occupant? r = some u := fun h => e (Option.some.inj (h.symm.trans ho))
      rw [if_neg e, if_neg hn]
  · rename_i hw
    rw [if_neg (displaced?_eq_none hw hu)]

theorem binding?_vacated_self (t : Temp) (r : Reg) : (f.vacated t r).binding? t = f.binding? t := by
  unfold vacated
  split
  · rename_i w hw
    obtain ⟨-, hne⟩ := displaced?_eq_some.1 hw
    rw [binding?_without, if_neg (Ne.symm hne)]
  · rfl

theorem Consistent.occupant?_vacated (h : f.Consistent) (t : Temp) {r q : Reg} (hq : q ≠ r) :
    (f.vacated t r).occupant? q = f.occupant? q := by
  unfold vacated
  split
  · rename_i w hw
    obtain ⟨ho, -⟩ := displaced?_eq_some.1 hw
    have hn : ¬ f.occupant? q = some w := fun e =>
      hq (Option.some.inj (((h w q).2 e).symm.trans ((h w r).2 ho)))
    rw [h.occupant?_without, if_neg hn]
  · rfl

@[simp] theorem pool_vacated (t : Temp) (r : Reg) : (f.vacated t r).pool = f.pool := by
  unfold vacated
  split
  · exact pool_without f _
  · rfl

@[simp] theorem used_vacated (t : Temp) (r q : Reg) : (f.vacated t r).used q = f.used q := by
  unfold vacated
  split
  · exact used_without f _ q
  · rfl

@[simp] theorem pool_released (t : Temp) (r : Reg) : (f.released t r).pool = f.pool := by
  unfold released
  split
  · split <;> rfl
  · rfl

@[simp] theorem boundAt?_released (t : Temp) (r : Reg) (i : Nat) : (f.released t r).boundAt? i = f.boundAt? i := by
  unfold released
  split
  · split <;> rfl
  · rfl

@[simp] theorem binding?_released (t u : Temp) (r : Reg) : (f.released t r).binding? u = f.binding? u :=
  boundAt?_released t r u.index

@[simp] theorem used_released (t : Temp) (r q : Reg) : (f.released t r).used q = f.used q := by
  unfold released
  split
  · split
    · rfl
    · exact used_release f _ q
  · rfl

theorem occupant?_released (t : Temp) {r q : Reg} (hq : q ≠ r) :
    (f.released t r).occupant? q = if f.binding? t = some q then none else f.occupant? q := by
  unfold released
  split
  · rename_i p hp
    rw [hp]
    by_cases e : q = p
    · subst e
      rw [if_neg hq, occupant?_release, if_pos rfl, if_pos rfl]
    · rw [if_neg (fun h => e (Option.some.inj h).symm)]
      split
      · rfl
      · rw [occupant?_release, if_neg e]
  · rename_i hp
    rw [hp, if_neg (by simp)]

@[simp] theorem pool_bind (t : Temp) (r : Reg) : (f.bind t r).pool = f.pool := by
  rw [bind_eq]
  exact ((pool_reserve _ t).trans (pool_released t r)).trans (pool_vacated t r)

theorem states_bind (t : Temp) (r : Reg) :
    (f.bind t r).states = (((f.vacated t r).released t r).setState r ⟨true, true, some t⟩).states := by
  rw [bind_eq, reserve]
  split <;> rfl

theorem used_bind (t : Temp) (r q : Reg) : (f.bind t r).used q = if q = r then true else f.used q := by
  have h := used_setState (((f.vacated t r).released t r).reserve t) r q ⟨true, true, some t⟩
  rw [used_reserve, used_released, used_vacated] at h
  exact h

theorem boundAt?_bind (t : Temp) (r : Reg) (i : Nat) :
    (f.bind t r).boundAt? i = if i = t.index then some r else ((f.vacated t r).released t r).boundAt? i := by
  have h := boundAt?_setIfInBounds (((f.vacated t r).released t r).reserve t) (index_lt_size_reserve _ t) (some r) i
  rw [boundAt?_reserve] at h
  exact h

theorem binding?_bind (t u : Temp) (r : Reg) :
    (f.bind t r).binding? u = if u = t then some r else if f.occupant? r = some u then none else f.binding? u := by
  have h := boundAt?_bind (f := f) t r u.index
  simp only [Temp.index_inj] at h
  refine Eq.trans h ?_
  split
  · rfl
  · rename_i hu
    exact (binding?_released t u r).trans (binding?_vacated r hu)

theorem binding?_of_bind {t u : Temp} {r q : Reg} (h : (f.bind t r).binding? u = some q) :
    (u = t ∧ q = r) ∨ f.binding? u = some q := by
  rw [binding?_bind] at h
  split at h
  · rename_i hu
    exact .inl ⟨hu, (Option.some.inj h).symm⟩
  · split at h
    · simp at h
    · exact .inr h

theorem Consistent.occupant?_bind (h : f.Consistent) (t : Temp) (r q : Reg) :
    (f.bind t r).occupant? q = if q = r then some t else if f.occupant? q = some t then none else f.occupant? q := by
  have e := occupant?_setState (((f.vacated t r).released t r).reserve t) r q ⟨true, true, some t⟩
  refine Eq.trans e ?_
  split
  · rfl
  · rename_i hq
    rw [occupant?_reserve, occupant?_released t hq, binding?_vacated_self, h.occupant?_vacated t hq]
    simp only [h t q]

theorem Consistent.bind (h : f.Consistent) (t : Temp) (r : Reg) : (f.bind t r).Consistent := by
  intro u q
  rw [binding?_bind, h.occupant?_bind]
  by_cases hu : u = t
  · subst hu
    rw [if_pos rfl]
    constructor
    · intro e
      rw [if_pos (Option.some.inj e).symm]
    · intro e
      by_cases hq : q = r
      · rw [hq]
      · rw [if_neg hq] at e
        split at e
        · exact absurd e (by simp)
        · rename_i hn; exact absurd e hn
  · rw [if_neg hu]
    by_cases hq : q = r
    · subst hq
      rw [if_pos rfl]
      constructor
      · intro e
        split at e
        · exact absurd e (by simp)
        · rename_i hn; exact absurd ((h u q).1 e) hn
      · intro e
        exact absurd (Option.some.inj e).symm hu
    · rw [if_neg hq]
      constructor
      · intro e
        split at e
        · exact absurd e (by simp)
        · have ho := (h u q).1 e
          rw [if_neg (fun ht => hu (Option.some.inj (ho.symm.trans ht))), ho]
      · intro e
        split at e
        · exact absurd e (by simp)
        · have hb := (h u q).2 e
          rw [if_neg (fun ho => hq (Option.some.inj (hb.symm.trans ((h u r).2 ho)))), hb]

end

/-! ### Starting a block or a function -/

section

variable (f : RegisterFile)

@[simp] theorem boundAt?_resetBlock (i : Nat) : f.resetBlock.boundAt? i = none := join_getElem?_replicate _ i

@[simp] theorem binding?_resetBlock (t : Temp) : f.resetBlock.binding? t = none := boundAt?_resetBlock f t.index

@[simp] theorem occupant?_resetBlock (r : Reg) : f.resetBlock.occupant? r = none := by
  unfold occupant? resetBlock state
  simp [Vector.get, RegState.emptied, RegState.occupant?]

@[simp] theorem used_resetBlock (r : Reg) : f.resetBlock.used r = f.used r := by
  unfold used resetBlock state
  simp [Vector.get, RegState.emptied]

variable (n : Nat)

@[simp] theorem boundAt?_resetFunction (i : Nat) : (f.resetFunction n).boundAt? i = none := join_getElem?_replicate n i

@[simp] theorem binding?_resetFunction (t : Temp) : (f.resetFunction n).binding? t = none :=
  boundAt?_resetFunction f n t.index

@[simp] theorem occupant?_resetFunction (r : Reg) : (f.resetFunction n).occupant? r = none := by
  unfold occupant? resetFunction state
  simp [Vector.get, RegState.fresh, RegState.occupant?]

@[simp] theorem used_resetFunction (r : Reg) : (f.resetFunction n).used r = false := by
  unfold used resetFunction state
  simp [Vector.get, RegState.fresh]

theorem consistent_of_empty (hb : ∀ t, f.binding? t = none) (ho : ∀ r, f.occupant? r = none) : f.Consistent := by
  intro t r
  rw [hb, ho]
  simp

end

/-! ### The size of the table -/

/-- The register files differ only in how far the table of temporaries reaches. -/
structure Alike (f f' : RegisterFile) : Prop where
  pool : f.pool = f'.pool
  states : f.states = f'.states
  boundAt? : ∀ i, f.boundAt? i = f'.boundAt? i

theorem alike_resetFunction (f : RegisterFile) (n m : Nat) : (f.resetFunction n).Alike (f.resetFunction m) :=
  ⟨rfl, rfl, fun i => by rw [boundAt?_resetFunction, boundAt?_resetFunction]⟩

namespace Alike

variable {f f' : RegisterFile}

theorem binding? (h : f.Alike f') (t : Temp) : f.binding? t = f'.binding? t := h.boundAt? t.index

theorem state (h : f.Alike f') (r : Reg) : f.state r = f'.state r := by
  rw [RegisterFile.state, RegisterFile.state, h.states]

theorem occupant? (h : f.Alike f') (r : Reg) : f.occupant? r = f'.occupant? r := by
  rw [RegisterFile.occupant?, RegisterFile.occupant?, h.state]

theorem usedCalleeSaved (h : f.Alike f') : f.usedCalleeSaved = f'.usedCalleeSaved := by
  unfold RegisterFile.usedCalleeSaved
  simp only [h.state]

theorem setState (h : f.Alike f') (r : Reg) (s : RegState) : (f.setState r s).Alike (f'.setState r s) :=
  ⟨h.pool, by rw [RegisterFile.setState, RegisterFile.setState, h.states], h.boundAt?⟩

theorem release (h : f.Alike f') (r : Reg) : (f.release r).Alike (f'.release r) := by
  rw [RegisterFile.release, RegisterFile.release, h.state]
  exact h.setState r _

theorem without (h : f.Alike f') (t : Temp) : (f.without t).Alike (f'.without t) := by
  refine ⟨?_, ?_, fun i => ?_⟩
  · rw [pool_without, pool_without, h.pool]
  · have hb := h.binding? t
    cases hq : f.binding? t with
    | none => rw [without_eq_self f hq, without_eq_self f' (hb.symm.trans hq), h.states]
    | some q =>
      rw [without_eq f hq, without_eq f' (hb.symm.trans hq)]
      exact (h.release q).states
  · rw [boundAt?_without, boundAt?_without, h.boundAt?]

theorem vacated (h : f.Alike f') (t : Temp) (r : Reg) : (f.vacated t r).Alike (f'.vacated t r) := by
  rw [RegisterFile.vacated, RegisterFile.vacated, displaced?, displaced?, h.occupant?]
  split
  · exact h.without _
  · exact h

theorem released (h : f.Alike f') (t : Temp) (r : Reg) : (f.released t r).Alike (f'.released t r) := by
  rw [RegisterFile.released, RegisterFile.released, h.binding?]
  split
  · split
    · exact h
    · exact h.release _
  · exact h

theorem bind (h : f.Alike f') (t : Temp) (r : Reg) : (f.bind t r).Alike (f'.bind t r) := by
  have hr := (h.vacated t r).released t r
  refine ⟨?_, ?_, fun i => ?_⟩
  · rw [pool_bind, pool_bind, h.pool]
  · rw [states_bind, states_bind]
    exact (hr.setState r _).states
  · rw [boundAt?_bind, boundAt?_bind, hr.boundAt?]

theorem resetBlock (h : f.Alike f') : f.resetBlock.Alike f'.resetBlock :=
  ⟨h.pool, congrArg (·.map RegState.emptied) h.states, fun i => by rw [boundAt?_resetBlock, boundAt?_resetBlock]⟩

end Alike

end RegisterFile

end ThreeAddress
