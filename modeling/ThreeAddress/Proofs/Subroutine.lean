import Mathlib.Logic.Function.Basic
import ThreeAddress.Subroutine

/-!
The body of a function and the homes of its temporaries.  A home once given stays, so the body can be read off the
actions with the final homes (`Subroutine.body_performAll`).  Homes lie in the words of the stack parameters or in the
slots of the frame, and no two temporaries share one (`Subroutine.Housed`).
-/

namespace ThreeAddress

/-- The code of an action, given the homes of the temporaries. -/
def Action.code (home : Temp → Option Int) : Action → List Asm
  | .store r t => (home t).toList.map fun offset => .sw r offset .frame
  | .load r t => (home t).toList.map fun offset => .lw r offset .frame
  | .native a => [a]
  | .label l => [.label l]
  | .comment text => [.comment text]
  | .note _ => []

def Action.temp? : Action → Option Temp
  | .store _ t | .load _ t => some t
  | .native _ | .label _ | .comment _ | .note _ => none

namespace Subroutine

variable {f : Subroutine} {t u : Temp} {o : Int}

theorem home?_settle (f : Subroutine) (t u : Temp) :
    (f.settle t).home? u = if u = t ∧ f.home? t = none then some (Frame.slotOffset f.slots) else f.home? u := by
  unfold settle
  cases ht : f.home? t with
  | some o => simp
  | none =>
    have h : ({ f with homes := f.homes.insert t (Frame.slotOffset f.slots), slots := f.slots + 1 } :
      Subroutine).home? u = if u = t then some (Frame.slotOffset f.slots) else f.home? u := OrdMap.get?_insert
    simp [h]

theorem exists_home?_settle (f : Subroutine) (t : Temp) : ∃ o, (f.settle t).home? t = some o := by
  rw [home?_settle]
  cases ht : f.home? t with
  | some o => exact ⟨o, by simp⟩
  | none => exact ⟨Frame.slotOffset f.slots, by simp⟩

/-- A home once given stays. -/
def Extends (f f' : Subroutine) : Prop := ∀ ⦃t o⦄, f.home? t = some o → f'.home? t = some o

theorem extends_settle (f : Subroutine) (t : Temp) : f.Extends (f.settle t) := by
  intro u o hu
  rw [home?_settle, if_neg]
  · exact hu
  · rintro ⟨rfl, hn⟩
    rw [hn] at hu
    simp at hu

theorem access_eq (f : Subroutine) (t : Temp) (line : Int → Asm) :
    ∃ o, (f.settle t).home? t = some o ∧ f.access t line = (f.settle t).push (line o) := by
  obtain ⟨o, ho⟩ := exists_home?_settle f t
  refine ⟨o, ho, ?_⟩
  unfold access
  simp only [ho]

theorem extends_perform (f : Subroutine) (α : Action) : f.Extends (f.perform α) := by
  cases α with
  | store r t =>
    obtain ⟨o, -, h⟩ := access_eq f t fun offset => .sw r offset .frame
    rw [perform, h]
    exact extends_settle f t
  | load r t =>
    obtain ⟨o, -, h⟩ := access_eq f t fun offset => .lw r offset .frame
    rw [perform, h]
    exact extends_settle f t
  | native | label | comment | note => exact fun _ _ h => h

theorem extends_performAll (f : Subroutine) (τ : List Action) : f.Extends (f.performAll τ) := by
  induction τ generalizing f with
  | nil => exact fun _ _ h => h
  | cons α τ ih => exact fun _ _ h => ih (f.perform α) (extends_perform f α h)

theorem exists_home?_perform (f : Subroutine) {α : Action} (h : α.temp? = some t) :
    ∃ o, (f.perform α).home? t = some o := by
  cases α with
  | store r u =>
    cases Option.some.inj h
    obtain ⟨o, ho, he⟩ := access_eq f t fun offset => .sw r offset .frame
    exact ⟨o, by rw [perform, he]; exact ho⟩
  | load r u =>
    cases Option.some.inj h
    obtain ⟨o, ho, he⟩ := access_eq f t fun offset => .lw r offset .frame
    exact ⟨o, by rw [perform, he]; exact ho⟩
  | native | label | comment | note => simp [Action.temp?] at h

/-- In the end, every temporary that an action gets at has a home. -/
theorem exists_home?_performAll (f : Subroutine) {τ : List Action} {α : Action} (hα : α ∈ τ) (h : α.temp? = some t) :
    ∃ o, (f.performAll τ).home? t = some o := by
  induction τ generalizing f with
  | nil => simp at hα
  | cons β τ ih =>
    rcases List.mem_cons.1 hα with rfl | hα
    · obtain ⟨o, ho⟩ := exists_home?_perform f h
      exact ⟨o, extends_performAll (f.perform α) τ ho⟩
    · exact ih (f.perform β) hα

theorem body_settle (f : Subroutine) (t : Temp) : (f.settle t).body = f.body := by
  unfold settle
  split <;> rfl

theorem body_perform {f' : Subroutine} (α : Action) (h : (f.perform α).Extends f') :
    (f.perform α).body.toList = f.body.toList ++ α.code f'.home? := by
  cases α with
  | store r t =>
    obtain ⟨o, ho, he⟩ := access_eq f t fun offset => .sw r offset .frame
    rw [perform, he] at h ⊢
    have ho' : f'.home? t = some o := h ho
    simp [push, body_settle, Action.code, ho']
  | load r t =>
    obtain ⟨o, ho, he⟩ := access_eq f t fun offset => .lw r offset .frame
    rw [perform, he] at h ⊢
    have ho' : f'.home? t = some o := h ho
    simp [push, body_settle, Action.code, ho']
  | native | label | comment => simp [perform, push, Action.code]
  | note => simp [perform, Action.code]

/-- **The body is the code of the actions**, with the final homes. -/
theorem body_performAll (f : Subroutine) (τ : List Action) :
    (f.performAll τ).body.toList = f.body.toList ++ τ.flatMap (Action.code (f.performAll τ).home?) := by
  induction τ generalizing f with
  | nil => simp [performAll]
  | cons α τ ih =>
    show ((f.perform α).performAll τ).body.toList = _
    rw [ih, body_perform α (extends_performAll (f.perform α) τ), List.flatMap_cons, List.append_assoc]
    rfl

theorem name_perform (f : Subroutine) (α : Action) : (f.perform α).name = f.name := by
  have hset : ∀ t, (f.settle t).name = f.name := fun t => by unfold settle; split <;> rfl
  cases α with
  | store r t =>
    obtain ⟨o, -, he⟩ := access_eq f t fun offset => .sw r offset .frame
    rw [perform, he]
    exact hset t
  | load r t =>
    obtain ⟨o, -, he⟩ := access_eq f t fun offset => .lw r offset .frame
    rw [perform, he]
    exact hset t
  | native | label | comment | note => rfl

theorem name_performAll (f : Subroutine) (τ : List Action) : (f.performAll τ).name = f.name := by
  induction τ generalizing f with
  | nil => rfl
  | cons α τ ih => exact (ih (f.perform α)).trans (name_perform f α)

/-! ### Homes -/

theorem slotOffset_eq (k : Nat) : Frame.slotOffset k = -(56 + 4 * (k : Int)) := by
  unfold Frame.slotOffset
  have h : Frame.headerSize = 52 := rfl
  rw [h, Frame.wordSize]
  omega

theorem paramOffset?_eq_some {i : Nat} : Frame.paramOffset? i = some o ↔ 8 ≤ i ∧ o = 4 * ((i : Int) - 8) := by
  unfold Frame.paramOffset? Reg.maxParams Frame.wordSize
  split
  · simp only [reduceCtorEq, false_iff, not_and]
    omega
  · simp only [Option.some.injEq]
    omega

theorem paramHomes_cons (homes : OrdMap Temp Int) (i : Nat) (t : Temp) (ts : List Temp) :
    paramHomes homes i (t :: ts) =
      paramHomes (((Frame.paramOffset? i).map fun o => homes.insert t o).getD homes) (i + 1) ts := by
  rw [paramHomes]
  cases Frame.paramOffset? i <;> rfl

/-- A home in the parameters' words is that of a parameter. -/
theorem exists_param_of_get?_paramHomes {homes : OrdMap Temp Int} {i : Nat} {ts : List Temp}
    (h : (paramHomes homes i ts).get? t = some o) :
    homes.get? t = some o ∨ ∃ k, ts[k]? = some t ∧ Frame.paramOffset? (i + k) = some o := by
  induction ts generalizing homes i with
  | nil => exact .inl h
  | cons u ts ih =>
    rw [paramHomes_cons] at h
    rcases ih h with h | ⟨k, hk, ho⟩
    · cases hi : Frame.paramOffset? i with
      | none =>
        rw [hi] at h
        exact .inl h
      | some p =>
        simp only [hi, Option.map_some, Option.getD_some, OrdMap.get?_insert] at h
        split at h
        · rename_i htu
          exact .inr ⟨0, by simp [htu], by rw [Nat.add_zero, hi, h]⟩
        · exact .inl h
    · exact .inr ⟨k + 1, hk, by rw [← ho]; congr 1; omega⟩

theorem get?_paramHomes_of_not_mem {homes : OrdMap Temp Int} {i : Nat} {ts : List Temp} (h : t ∉ ts) :
    (paramHomes homes i ts).get? t = homes.get? t := by
  induction ts generalizing homes i with
  | nil => rfl
  | cons u ts ih =>
    obtain ⟨hne, h⟩ := not_or.1 (mt List.mem_cons.2 h)
    rw [paramHomes_cons, ih h]
    cases Frame.paramOffset? i with
    | none => rfl
    | some p => simp only [Option.map_some, Option.getD_some, OrdMap.get?_insert, if_neg hne]

/-- A parameter that comes on the stack lives where it was passed, the last time if it is repeated. -/
theorem get?_paramHomes {homes : OrdMap Temp Int} {i k : Nat} {ts : List Temp} (hk : ts[k]? = some t)
    (hlast : ∀ j, k < j → ts[j]? ≠ some t) (ho : Frame.paramOffset? (i + k) = some o) :
    (paramHomes homes i ts).get? t = some o := by
  induction ts generalizing homes i k with
  | nil => simp at hk
  | cons u ts ih =>
    rw [paramHomes_cons]
    cases k with
    | zero =>
      cases Option.some.inj hk
      have hu : t ∉ ts := by
        intro hm
        obtain ⟨j, hj⟩ := List.getElem?_of_mem hm
        exact hlast (j + 1) (by omega) hj
      rw [get?_paramHomes_of_not_mem hu]
      rw [Nat.add_zero] at ho
      simp only [ho, Option.map_some, Option.getD_some, OrdMap.get?_insert, if_true]
    | succ k => exact ih hk (fun j hj => hlast (j + 1) (by omega)) (by rw [← ho]; congr 1; omega)

theorem home?_start {name : Label} {params : List Temp} {i : Nat} (h8 : 8 ≤ i) (ht : params[i]? = some t)
    (hlast : ∀ j, i < j → params[j]? ≠ some t) : (start name params).home? t = some (4 * ((i : Int) - 8)) :=
  get?_paramHomes ht hlast (by rw [Nat.zero_add]; exact paramOffset?_eq_some.2 ⟨h8, rfl⟩)

/-- The offset of a word where the caller may have passed one of `n` parameters. -/
def IsParamHome (n : Nat) (o : Int) : Prop := ∃ i : Nat, 8 ≤ i ∧ i < n ∧ o = 4 * ((i : Int) - 8)

/-- Where temporaries live: in the words of stack parameters or in slots, and no two at one place. -/
structure Housed (n : Nat) (f : Subroutine) : Prop where
  place : ∀ ⦃t o⦄, f.home? t = some o → IsParamHome n o ∨ ∃ k < f.slots, o = Frame.slotOffset k
  unique : ∀ ⦃t u o⦄, f.home? t = some o → f.home? u = some o → t = u

theorem housed_start (name : Label) (params : List Temp) : (start name params).Housed params.length := by
  have key : ∀ {t o}, (start name params).home? t = some o →
      ∃ k : Nat, params[k]? = some t ∧ 8 ≤ k ∧ o = 4 * ((k : Int) - 8) := by
    intro t o h
    rcases exists_param_of_get?_paramHomes h with h | ⟨k, hk, ho⟩
    · exact absurd h (by simp)
    · rw [Nat.zero_add] at ho
      exact ⟨k, hk, paramOffset?_eq_some.1 ho⟩
  constructor
  · intro t o h
    obtain ⟨k, hk, h8, ho⟩ := key h
    exact .inl ⟨k, h8, (List.getElem?_eq_some_iff.1 hk).1, ho⟩
  · intro t u o ht hu
    obtain ⟨k, hk, -, hko⟩ := key ht
    obtain ⟨m, hm, -, hmo⟩ := key hu
    have hkm : k = m := by omega
    rw [hkm, hm] at hk
    exact (Option.some.inj hk).symm

namespace Housed

variable {n : Nat}

theorem settle (h : f.Housed n) (t : Temp) : (f.settle t).Housed n := by
  unfold Subroutine.settle
  split
  · exact h
  · rename_i hnone
    let f' : Subroutine := { f with homes := f.homes.insert t (Frame.slotOffset f.slots), slots := f.slots + 1 }
    have hhome : ∀ u, f'.home? u = if u = t then some (Frame.slotOffset f.slots) else f.home? u :=
      fun u => OrdMap.get?_insert
    -- no home so far is the new slot
    have hfresh : ∀ u, f.home? u ≠ some (Frame.slotOffset f.slots) := by
      intro u hu
      rcases h.place hu with ⟨i, h8, -, ho⟩ | ⟨k, hk, ho⟩
      · rw [slotOffset_eq] at ho
        omega
      · rw [slotOffset_eq, slotOffset_eq] at ho
        omega
    refine ⟨fun u o hu => ?_, fun u w o hu hw => ?_⟩
    · rw [hhome] at hu
      split at hu
      · exact .inr ⟨f.slots, Nat.lt_succ_self _, (Option.some.inj hu).symm⟩
      · exact (h.place hu).imp_right fun ⟨k, hk, ho⟩ => ⟨k, Nat.lt_succ_of_lt hk, ho⟩
    · rw [hhome] at hu hw
      split at hu <;> split at hw
      · rename_i hut hwt
        rw [hut, hwt]
      · exact absurd (hw.trans hu.symm) (hfresh w)
      · exact absurd (hu.trans hw.symm) (hfresh u)
      · exact h.unique hu hw

theorem perform (h : f.Housed n) (α : Action) : (f.perform α).Housed n := by
  cases α with
  | store r t =>
    obtain ⟨o, -, he⟩ := access_eq f t fun offset => .sw r offset .frame
    rw [Subroutine.perform, he]
    exact { h.settle t with }
  | load r t =>
    obtain ⟨o, -, he⟩ := access_eq f t fun offset => .lw r offset .frame
    rw [Subroutine.perform, he]
    exact { h.settle t with }
  | native | label | comment => exact { h with }
  | note => exact h

theorem performAll (h : f.Housed n) (τ : List Action) : (f.performAll τ).Housed n := by
  induction τ generalizing f with
  | nil => exact h
  | cons α τ ih => exact ih (h.perform α)

end Housed

end Subroutine

end ThreeAddress
