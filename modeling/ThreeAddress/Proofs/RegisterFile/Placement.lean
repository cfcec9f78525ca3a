import Mathlib.Data.Finset.Insert
import ThreeAddress.Proofs.RegisterFile

/-!
The register file as a map.  What its two tables hold is one partial map from temporaries to registers that takes no two
temporaries to the same register; with it goes the set of registers written in the current function (`Placement`).  Each
operation on the tables is a simple one on the map and the set (`Represents.perform`).  How far the table of temporaries
reaches plays no part: beyond its end no temporary is in a register, and places that no temporary numbers stay empty
(`Represents.numbered`).

Main statement: after any operations on a new register file, the map and the set give every answer that the register
file gives (`placement_refined`).
-/

namespace ThreeAddress

/-- Which register each temporary is in, no two in the same one, and which registers have been written. -/
structure Placement where
  place : Temp → Option Reg
  written : Finset Reg
  injective : ∀ ⦃t u r⦄, place t = some r → place u = some r → t = u

namespace Placement

def empty : Placement := ⟨fun _ => none, ∅, by simp⟩

variable (p : Placement)

def remove (t : Temp) : Placement where
  place u := if u = t then none else p.place u
  written := p.written
  injective := by
    intro u w r hu hw
    split at hu
    · simp at hu
    split at hw
    · simp at hw
    exact p.injective hu hw

/-- Puts a temporary in a register, after it and what the register held have been taken out. -/
def put (t : Temp) (r : Reg) : Placement where
  place u := if u = t then some r else if p.place u = some r then none else p.place u
  written := insert r p.written
  injective := by
    -- what is left was there before, and not in the register that is now taken
    have hleft : ∀ {u q}, (if p.place u = some r then none else p.place u) = some q → p.place u = some q ∧ q ≠ r := by
      intro u q h
      split at h
      · simp at h
      · rename_i hne
        exact ⟨h, fun hq => hne (hq ▸ h)⟩
    intro u w q hu hw
    split at hu <;> split at hw
    · rename_i hut hwt
      rw [hut, hwt]
    · exact absurd (Option.some.inj hu).symm (hleft hw).2
    · exact absurd (Option.some.inj hw).symm (hleft hu).2
    · exact p.injective (hleft hu).1 (hleft hw).1

def clear : Placement := ⟨fun _ => none, p.written, by simp⟩

end Placement

/-! ### Operations -/

inductive RegisterFile.Op where
  | bind (t : Temp) (r : Reg)
  | unbind (t : Temp)
  | resetBlock
  | resetFunction (tempCount : Nat)

open RegisterFile (Op)

/-- The answers to operations in turn and the state after them, if `step` gives the answer to one and the state after
it. -/
def RegisterFile.Op.run {σ : Type} (step : σ → Op → Option Reg × σ) (s : σ) : List Op → List (Option Reg) × σ
  | [] => ([], s)
  | op :: ops => ((step s op).1 :: (run step (step s op).2 ops).1, (run step (step s op).2 ops).2)

/-- An operation on the tables.  Only taking a temporary out has an answer. -/
def RegisterFile.perform (f : RegisterFile) : Op → Option Reg × RegisterFile
  | .bind t r => (none, f.bind t r)
  | .unbind t => f.unbind t
  | .resetBlock => (none, f.resetBlock)
  | .resetFunction tempCount => (none, f.resetFunction tempCount)

/-- The operation on the map and the set.  Taking a temporary out answers with the register it was in. -/
def Placement.perform (p : Placement) : Op → Option Reg × Placement
  | .bind t r => (none, p.put t r)
  | .unbind t => (p.place t, p.remove t)
  | .resetBlock => (none, p.clear)
  | .resetFunction _ => (none, .empty)

namespace RegisterFile

variable {f : RegisterFile} {p : Placement}

/-! ### The tables show the map -/

theorem boundAt?_without_of_le (f : RegisterFile) (t : Temp) {i : Nat} (hi : 4294967296 ≤ i) :
    (f.without t).boundAt? i = f.boundAt? i := by
  have hlt := t.index_lt
  rw [boundAt?_without, if_neg (by omega)]

theorem boundAt?_bind_of_le (f : RegisterFile) (t : Temp) (r : Reg) {i : Nat} (hi : 4294967296 ≤ i) :
    (f.bind t r).boundAt? i = f.boundAt? i := by
  have hlt := t.index_lt
  rw [boundAt?_bind, if_neg (by omega), boundAt?_released, vacated]
  split
  · exact boundAt?_without_of_le f _ hi
  · rfl

/-- The tables agree with each other and hold the map and the set. -/
structure Represents (f : RegisterFile) (p : Placement) : Prop where
  binding : ∀ t, f.binding? t = p.place t
  consistent : f.Consistent
  used : ∀ r, f.used r = true ↔ r ∈ p.written
  /-- Only places that number a temporary are ever filled. -/
  numbered : ∀ i, 4294967296 ≤ i → f.boundAt? i = none

namespace Represents

theorem occupant (h : f.Represents p) (r : Reg) (t : Temp) : f.occupant? r = some t ↔ p.place t = some r := by
  rw [← h.consistent, h.binding]

theorem bind (h : f.Represents p) (t : Temp) (r : Reg) : (f.bind t r).Represents (p.put t r) where
  binding u := by simp only [binding?_bind, h.occupant, h.binding, Placement.put]
  consistent := h.consistent.bind t r
  used q := by
    rw [used_bind, Placement.put, Finset.mem_insert, ← h.used]
    split
    · rename_i hq
      simp [hq]
    · rename_i hq
      simp [hq]
  numbered i hi := (boundAt?_bind_of_le f t r hi).trans (h.numbered i hi)

theorem without (h : f.Represents p) (t : Temp) : (f.without t).Represents (p.remove t) where
  binding u := by simp only [binding?_without, h.binding, Placement.remove]
  consistent := h.consistent.without t
  used r := by rw [used_without, h.used, Placement.remove]
  numbered i hi := (boundAt?_without_of_le f t hi).trans (h.numbered i hi)

theorem resetBlock (h : f.Represents p) : f.resetBlock.Represents p.clear where
  binding := binding?_resetBlock f
  consistent := consistent_of_empty _ (binding?_resetBlock f) (occupant?_resetBlock f)
  used r := by rw [used_resetBlock, h.used, Placement.clear]
  numbered i _ := boundAt?_resetBlock f i

theorem resetFunction (f : RegisterFile) (n : Nat) : (f.resetFunction n).Represents .empty where
  binding := binding?_resetFunction f n
  consistent := consistent_of_empty _ (binding?_resetFunction f n) (occupant?_resetFunction f n)
  used r := by simp [Placement.empty]
  numbered i _ := boundAt?_resetFunction f n i

/-- A new register file is as at the start of a function without temporaries. -/
theorem ofLimit (limit : Option Nat) : (RegisterFile.ofLimit limit).Represents .empty :=
  resetFunction (.ofLimit limit) 0

theorem perform (h : f.Represents p) (op : Op) :
    (f.perform op).1 = (p.perform op).1 ∧ (f.perform op).2.Represents (p.perform op).2 := by
  cases op with
  | bind t r => exact ⟨rfl, h.bind t r⟩
  | unbind t =>
    rw [RegisterFile.perform, unbind_eq]
    exact ⟨h.binding t, h.without t⟩
  | resetBlock => exact ⟨rfl, h.resetBlock⟩
  | resetFunction n => exact ⟨rfl, resetFunction f n⟩

/-- Any number of operations. -/
theorem run (h : f.Represents p) (ops : List Op) :
    (Op.run RegisterFile.perform f ops).1 = (Op.run Placement.perform p ops).1 ∧
      (Op.run RegisterFile.perform f ops).2.Represents (Op.run Placement.perform p ops).2 := by
  induction ops generalizing f p with
  | nil => exact ⟨rfl, h⟩
  | cons op ops ih =>
    obtain ⟨hanswer, hnext⟩ := h.perform op
    obtain ⟨hanswers, hlast⟩ := ih hnext
    exact ⟨congrArg₂ List.cons hanswer hanswers, hlast⟩

end Represents

/-! ### What the operations keep -/

theorem pool_perform (f : RegisterFile) (op : Op) : (f.perform op).2.pool = f.pool := by
  cases op with
  | bind t r => exact pool_bind t r
  | unbind t => exact pool_without f t
  | resetBlock | resetFunction n => rfl

theorem pool_run (f : RegisterFile) (ops : List Op) : (Op.run perform f ops).2.pool = f.pool := by
  induction ops generalizing f with
  | nil => rfl
  | cons op ops ih => exact (ih (f.perform op).2).trans (pool_perform f op)

/-! ### What else can be asked -/

theorem boundAt?_of_mem {e : Option Reg × Nat} (h : e ∈ f.bindings.toList.zipIdx) : f.boundAt? e.2 = e.1 := by
  rw [boundAt?, ← Array.getElem?_toList, List.mem_zipIdx_iff_getElem?.1 h]
  rfl

namespace Represents

theorem lt_of_mem (h : f.Represents p) {e : Option Reg × Nat} (he : e ∈ f.bindings.toList.zipIdx) {r : Reg}
    (hr : e.1 = some r) : e.2 < 4294967296 := by
  by_contra hge
  have hnone := h.numbered e.2 (Nat.le_of_not_lt hge)
  rw [boundAt?_of_mem he, hr] at hnone
  simp at hnone

theorem mem_bound (h : f.Represents p) {t : Temp} {r : Reg} : (t, r) ∈ f.bound ↔ f.binding? t = some r := by
  rw [bound, List.mem_filterMap]
  constructor
  · rintro ⟨e, he, heq⟩
    obtain ⟨q, hq, hpair⟩ := Option.map_eq_some_iff.1 heq
    obtain ⟨rfl, rfl⟩ := Prod.mk.inj hpair
    have hat : f.boundAt? (Temp.ofIndex e.2).index = some q := by
      rw [Temp.index_ofIndex (h.lt_of_mem he hq), boundAt?_of_mem he, hq]
    exact hat
  · intro hb
    have hplace : f.bindings.toList[t.index]? = some (some r) := by
      rw [Array.getElem?_toList]
      exact Option.join_eq_some_iff.1 hb
    exact ⟨(some r, t.index), List.mem_zipIdx_iff_getElem?.2 hplace, by simp⟩

/-- The table goes through the temporaries in ascending order. -/
theorem ascending_bound (h : f.Represents p) : f.bound.Pairwise (·.1 < ·.1) := by
  have hplaces : f.bindings.toList.zipIdx.Pairwise (·.2 < ·.2) := by
    rw [← List.pairwise_map, List.zipIdx_map_snd]
    exact List.pairwise_lt_range'
  rw [bound, List.pairwise_filterMap]
  refine hplaces.imp_of_mem fun he he' hlt x hx y hy => ?_
  obtain ⟨q, hq, rfl⟩ := Option.map_eq_some_iff.1 hx
  obtain ⟨q', hq', rfl⟩ := Option.map_eq_some_iff.1 hy
  show (Temp.ofIndex _).index < (Temp.ofIndex _).index
  rw [Temp.index_ofIndex (h.lt_of_mem he hq), Temp.index_ofIndex (h.lt_of_mem he' hq')]
  exact hlt

/-- The check looks at all pairs of both tables. -/
theorem isConsistent (h : f.Represents p) : f.isConsistent = true := by
  rw [RegisterFile.isConsistent, Bool.and_eq_true, List.all_eq_true, List.all_eq_true]
  constructor
  · rintro ⟨t, r⟩ hm
    exact decide_eq_true ((h.consistent t r).1 (h.mem_bound.1 hm))
  · intro r _
    cases ho : f.occupant? r with
    | none => rfl
    | some t => exact decide_eq_true ((h.consistent t r).2 ho)

end Represents

/-- **The register file is a partial one-to-one map and a set.**  Let any operations be carried out on a new register
file.  Putting `t` in `r` takes `t` out, and what was in `r`, and then adds the one pair; taking `t` out answers with
the register it was in; a new block empties the map, a new function the set as well.  Then the register of a temporary
is its value in the map, the occupant of a register is its value in the inverse map, the temporaries in registers are
listed in ascending order, the callee-saved registers to save are those in the set, the pool is as it was, and the check
of the tables succeeds. -/
theorem placement_refined (limit : Option Nat) (ops : List Op) : ∃ answers f p,
    Op.run perform (ofLimit limit) ops = (answers, f) ∧ Op.run Placement.perform .empty ops = (answers, p) ∧
      (∀ t, f.binding? t = p.place t) ∧ (∀ r t, f.occupant? r = some t ↔ p.place t = some r) ∧
      (f.bound.Pairwise (·.1 < ·.1) ∧ ∀ t r, (t, r) ∈ f.bound ↔ p.place t = some r) ∧
      (∀ r, (f.state r).used = true ↔ r ∈ p.written) ∧
      f.usedCalleeSaved = Reg.calleeSaved.filter (· ∈ p.written) ∧
      f.pool = (ofLimit limit).pool ∧ f.isConsistent = true := by
  obtain ⟨hanswers, h⟩ := (Represents.ofLimit limit).run ops
  refine ⟨_, _, _, rfl, Prod.ext hanswers.symm rfl, h.binding, h.occupant, ⟨h.ascending_bound, fun t r => ?_⟩, h.used,
    List.filter_congr fun r _ => ?_, pool_run _ ops, h.isConsistent⟩
  · rw [h.mem_bound, h.binding]
  · exact Bool.eq_iff_iff.2 ((h.used r).trans decide_eq_true_iff.symm)

end RegisterFile

end ThreeAddress
