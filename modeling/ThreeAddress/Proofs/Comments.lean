import ThreeAddress.Proofs.Allocator.InStep
import ThreeAddress.Proofs.Listing
import ThreeAddress.Proofs.Subroutine
import ThreeAddress.Proofs.Unreachable

/-!
Comments never influence the code.  Allocation with comments and without takes the same actions, comments apart; a
comment among the actions adds a line to the body and touches neither the homes of temporaries nor the slots.  So the
two bodies differ in comments only (`Subroutine.Alike`), and with them the frames are the same, the errors and the log.

Main statement: with comments and without, a function has the same code but for comments, or fails with the same error,
and the log is the same (`comments_irrelevant`).
-/

namespace ThreeAddress

namespace Asm

theorem uncommented_append (code code' : List Asm) :
    uncommented (code ++ code') = uncommented code ++ uncommented code' := List.filter_append code code'

theorem instructionCount_uncommented (code : List Asm) :
    instructionCount (uncommented code) = instructionCount code := by
  have hpseudo : ∀ a : Asm, (!a.isPseudo && !a.isComment) = !a.isPseudo := fun a => by cases a <;> rfl
  unfold instructionCount uncommented
  simp only [List.countP_filter, hpseudo]

end Asm

def AsmFunc.uncommented (f : AsmFunc) : AsmFunc := { f with code := Asm.uncommented f.code }

/-! ### The body -/

namespace Subroutine

/-- The two differ in the comments of their bodies only. -/
structure Alike (f f' : Subroutine) : Prop where
  name : f.name = f'.name
  homes : f.homes = f'.homes
  slots : f.slots = f'.slots
  body : Asm.uncommented f.body.toList = Asm.uncommented f'.body.toList

variable {f f' f'' : Subroutine}

namespace Alike

theorem refl (f : Subroutine) : f.Alike f := ⟨rfl, rfl, rfl, rfl⟩

theorem symm (h : f.Alike f') : f'.Alike f := ⟨h.name.symm, h.homes.symm, h.slots.symm, h.body.symm⟩

theorem trans (h : f.Alike f') (h' : f'.Alike f'') : f.Alike f'' :=
  ⟨h.name.trans h'.name, h.homes.trans h'.homes, h.slots.trans h'.slots, h.body.trans h'.body⟩

theorem home? (h : f.Alike f') (t : Temp) : f.home? t = f'.home? t := by
  rw [Subroutine.home?, h.homes, ← Subroutine.home?]

theorem push (h : f.Alike f') (a : Asm) : (f.push a).Alike (f'.push a) := by
  refine { h with body := ?_ }
  simp only [Subroutine.push, Array.toList_push, Asm.uncommented_append, h.body]

theorem settle (h : f.Alike f') (t : Temp) : (f.settle t).Alike (f'.settle t) := by
  unfold Subroutine.settle
  rw [h.home? t]
  split
  · exact h
  · exact ⟨h.name, by rw [h.homes, h.slots], by rw [h.slots], h.body⟩

theorem access (h : f.Alike f') (t : Temp) (line : Int → Asm) : (f.access t line).Alike (f'.access t line) := by
  obtain ⟨o, ho, he⟩ := access_eq f t line
  obtain ⟨o', ho', he'⟩ := access_eq f' t line
  rw [(h.settle t).home? t, ho'] at ho
  rw [he, he', Option.some.inj ho]
  exact (h.settle t).push _

theorem perform (h : f.Alike f') (α : Action) : (f.perform α).Alike (f'.perform α) := by
  cases α with
  | store r t | load r t => exact h.access t _
  | native a | label a | comment a => exact h.push _
  | note => exact h

theorem performNotes (h : f.Alike f') (α : Action) : f.performNotes α = f'.performNotes α := by
  cases α with
  | load r t => rw [Subroutine.performNotes, Subroutine.performNotes, h.home? t, h.name]
  | store | native | label | comment | note => rfl

theorem comment (h : f.Alike f') (text : String) : (f.perform (.comment text)).Alike f' := by
  refine { h with body := ?_ }
  simp only [Subroutine.perform, Subroutine.push, Array.toList_push, Asm.uncommented_append, ← h.body]
  exact List.append_nil _

theorem performAll (h : f.Alike f') (τ : List Action) :
    (f.performAll τ).Alike (f'.performAll (Action.uncommented τ)) := by
  induction τ generalizing f f' with
  | nil => exact h
  | cons α τ ih =>
    cases α with
    | comment text => exact ih (h.comment text)
    | store | load | native | label | note => exact ih (h.perform _)

theorem performAllNotes (h : f.Alike f') (τ : List Action) :
    f.performAllNotes τ = f'.performAllNotes (Action.uncommented τ) := by
  induction τ generalizing f f' with
  | nil => rfl
  | cons α τ ih =>
    cases α with
    | comment text => exact ih (h.comment text)
    | store | load | native | label | note => exact congrArg₂ (· ++ ·) (h.performNotes _) (ih (h.perform _))

theorem frame? (h : f.Alike f') (saved : List Reg) (hasCalls : Bool) :
    f.frame? saved hasCalls = f'.frame? saved hasCalls := by
  rw [Subroutine.frame?, Subroutine.frame?, h.slots]

theorem finish (h : f.Alike f') (saved : List Reg) (hasCalls : Bool) :
    (f.finish saved hasCalls).map Asm.uncommented = (f'.finish saved hasCalls).map Asm.uncommented := by
  rw [Subroutine.finish, Subroutine.finish, h.frame?, h.name, h.slots]
  cases f'.frame? saved hasCalls with
  | none => rfl
  | some frame =>
    cases hprologue : frame.prologue with
    | error e => simp only [hprologue]; rfl
    | ok opening =>
      cases hepilogue : frame.epilogue with
      | error e => simp only [hprologue, hepilogue]; rfl
      | ok closing =>
        simp only [hprologue, hepilogue]
        exact congrArg Except.ok (by simp only [Asm.uncommented_append, h.body])

theorem finishNotes (h : f.Alike f') (saved : List Reg) (hasCalls : Bool) :
    f.finishNotes saved hasCalls = f'.finishNotes saved hasCalls := by
  rw [Subroutine.finishNotes, Subroutine.finishNotes, h.frame?, h.name, h.slots]

end Alike

/-- Actions that differ in comments only build bodies that do. -/
theorem alike_performAll (f : Subroutine) {τ υ : List Action} (h : Action.uncommented τ = Action.uncommented υ) :
    (f.performAll τ).Alike (f.performAll υ) := by
  have hτ := (Alike.refl f).performAll τ
  rw [h] at hτ
  exact hτ.trans ((Alike.refl f).performAll υ).symm

theorem performAllNotes_congr (f : Subroutine) {τ υ : List Action}
    (h : Action.uncommented τ = Action.uncommented υ) : f.performAllNotes τ = f.performAllNotes υ := by
  rw [(Alike.refl f).performAllNotes τ, h, ← (Alike.refl f).performAllNotes υ]

end Subroutine

/-! ### Allocation and lowering -/

/-- The two allocations differ in comments only. -/
structure Allocation.Alike (x y : Allocation) : Prop where
  outcome : x.outcome = y.outcome
  actions : Action.uncommented x.actions = Action.uncommented y.actions
  regs : x.final.regs = y.final.regs
  cursor : x.final.cursor = y.final.cursor
  hasCalls : x.final.hasCalls = y.final.hasCalls
  spills : x.final.spills = y.final.spills

theorem Allocator.alike_accept (a : Allocator) (on : Bool) (g : FlowGraph) (name : Label) (params : List Temp) :
    ((a.commenting on).accept g name params).Alike (a.accept g name params) := by
  have hstep := Alloc.inStep_function on g name params
  have hfinal : ((a.commenting on).accept g name params).final = (a.accept g name params).final.commenting on :=
    hstep.state rfl
  exact ⟨hstep.value rfl, hstep.trace rfl, by rw [hfinal]; rfl, by rw [hfinal]; rfl, by rw [hfinal]; rfl,
    by rw [hfinal]; rfl⟩

/-- The code of the two is the same but for comments, or fails with the same error. -/
theorem Allocation.Alike.code {x y : Allocation} (h : x.Alike y) (name : Label) (params : List Temp) :
    (x.code name params).map AsmFunc.uncommented = (y.code name params).map AsmFunc.uncommented := by
  have hfinish := ((Subroutine.start name params).alike_performAll h.actions).finish y.final.regs.usedCalleeSaved
    y.final.hasCalls
  have hnamed : ∀ r : Except LowerError (List Asm), (r.map fun code => AsmFunc.mk name code).map AsmFunc.uncommented =
      (r.map Asm.uncommented).map fun code => ⟨name, code⟩ := fun r => by cases r <;> rfl
  unfold Allocation.code
  rw [h.outcome, h.regs, h.hasCalls]
  cases y.outcome with
  | error e => rfl
  | ok =>
    show Except.map _ (Except.map _ _) = Except.map _ (Except.map _ _)
    rw [hnamed, hnamed, hfinish]

/-- What the making of the code reports, from an allocation for it. -/
def Allocation.notes (x : Allocation) (name : Label) (params : List Temp) : List Note :=
  let start := Subroutine.start name params
  start.performAllNotes x.actions ++
  (x.outcome.toOption.toList.flatMap fun _ =>
    (start.performAll x.actions).finishNotes x.final.regs.usedCalleeSaved x.final.hasCalls) ++
  (x.code name params).toOption.toList.map fun f => .instructions name (Asm.instructionCount f.code)

theorem FlowGraph.log_lower (g : FlowGraph) (f : Func) (o : Options) :
    (g.lower f o).log = g.analyze.notes ++ o.notes ++
      ((Allocator.ofOptions o).accept g.withLiveness f.name f.params).notes f.name f.params := by
  unfold FlowGraph.lower Allocation.notes Allocation.code
  dsimp only
  rw [show g.analyze.graph = g.withLiveness from rfl]
  generalize (Allocator.ofOptions o).accept g.withLiveness f.name f.params = x
  obtain ⟨outcome, final, actions⟩ := x
  cases outcome with
  | error e => simp [Except.bind, Except.toOption]
  | ok =>
    dsimp only
    generalize (Subroutine.start f.name f.params).performAll actions = body
    cases body.finish final.regs.usedCalleeSaved final.hasCalls <;>
      simp [Except.bind, Except.map, Except.toOption]

theorem Allocation.Alike.notes {x y : Allocation} (h : x.Alike y) (name : Label) (params : List Temp) :
    x.notes name params = y.notes name params := by
  have hcount : ∀ r : Except LowerError AsmFunc,
      (r.toOption.toList.map fun f => Note.instructions name (Asm.instructionCount f.code)) =
        (r.map AsmFunc.uncommented).toOption.toList.map fun f => .instructions name (Asm.instructionCount f.code) := by
    intro r
    cases r with
    | error e => rfl
    | ok f => exact congrArg (fun n => [Note.instructions name n]) (Asm.instructionCount_uncommented f.code).symm
  unfold Allocation.notes
  dsimp only
  rw [hcount (x.code name params), h.code, ← hcount, h.outcome, h.regs, h.hasCalls,
    Subroutine.performAllNotes_congr _ h.actions, (Subroutine.alike_performAll _ h.actions).finishNotes]

/-- **Comments never influence the code.**  Whatever the register limit, with comments and without

* a function fails with the same error, or has code that is the same once all comments are deleted, and the log is the
  same, warnings included;
* allocation on any graph has the same outcome, takes the same actions but for comments, and ends with the same
  registers, hence the same callee-saved ones in use, the same evictions, and calls made or not. -/
theorem comments_irrelevant (limit : Option Nat) :
    (∀ f : Func,
      (f.lower ⟨true, limit⟩).result.map AsmFunc.uncommented = (f.lower ⟨false, limit⟩).result.map AsmFunc.uncommented ∧
      (f.lower ⟨true, limit⟩).log = (f.lower ⟨false, limit⟩).log) ∧
    ∀ (g : FlowGraph) (name : Label) (params : List Temp),
      ((Allocator.ofOptions ⟨true, limit⟩).accept g name params).Alike
        ((Allocator.ofOptions ⟨false, limit⟩).accept g name params) := by
  have haccept : ∀ (g : FlowGraph) (name : Label) (params : List Temp),
      ((Allocator.ofOptions ⟨true, limit⟩).accept g name params).Alike
        ((Allocator.ofOptions ⟨false, limit⟩).accept g name params) :=
    (Allocator.ofOptions ⟨false, limit⟩).alike_accept true
  refine ⟨fun f => ?_, haccept⟩
  unfold Func.lower
  cases FlowGraph.ofFunc f with
  | error e => exact ⟨rfl, rfl⟩
  | ok g =>
    dsimp only
    split
    · exact ⟨rfl, rfl⟩
    · have halike := haccept g.withLiveness f.name f.params
      dsimp only
      rw [FlowGraph.result_lower, FlowGraph.result_lower, FlowGraph.log_lower, FlowGraph.log_lower, halike.notes]
      exact ⟨halike.code f.name f.params, rfl⟩

end ThreeAddress
