import ThreeAddress.Proofs.Allocator.Named
import ThreeAddress.Proofs.FlowGraph.Positions
import ThreeAddress.Proofs.Liveness.Exact

/-!
What the code of a function is made of.  Every step of a reachable block gives its own code once, with loads and stores
before it and stores after it; only where a step leaves its block does the code come last (`Rendered`).  That step goes
through the choice of registers twice, once for the loads and stores before it and once for its code; the second time
everything it reads is in a register already, so nothing more is emitted (`resolve_again`).

Main statement: the events of a function are the stores on entry and then, for each reachable block in order, its label
and what its steps give (`reachable_steps_emitted`).
-/

namespace ThreeAddress

namespace Action

/-- The actions that build the body of a function: all but notes. -/
def events (τ : List Action) : List Action := τ.filter fun α => α.note?.isNone

/-- Whether the action moves a value between a register and its stack home, or explains such a move. -/
def isMove : Action → Bool
  | load _ _ | store _ _ | comment _ => true
  | native _ | label _ | note _ => false

def isStore : Action → Bool
  | store _ _ => true
  | _ => false

@[simp] theorem events_nil : events [] = [] := rfl

@[simp] theorem events_append (τ υ : List Action) : events (τ ++ υ) = events τ ++ events υ := List.filter_append τ υ

@[simp] theorem events_note (n : Note) (τ : List Action) : events (.note n :: τ) = events τ := rfl

@[simp] theorem events_notes (ns : List Note) : events (ns.map .note) = [] := by
  induction ns with
  | nil => rfl
  | cons n ns ih => exact ih

@[simp] theorem events_code (code : List Asm) : events (code.map .native) = code.map .native := by
  induction code with
  | nil => rfl
  | cons x code ih => exact congrArg (Action.native x :: ·) ih

@[simp] theorem events_label (l : Option Label) : events (l.toList.map .label) = l.toList.map .label := by
  cases l <;> rfl

theorem mem_events {τ : List Action} {α : Action} (h : α ∈ events τ) : α ∈ τ := (List.mem_filter.1 h).1

theorem isMove_of_essential_eq_nil {τ : List Action} (h : essential τ = []) : ∀ α ∈ events τ, α.isMove = true := by
  intro α hα
  obtain ⟨hm, hn⟩ := List.mem_filter.1 hα
  have hq := List.filter_eq_nil_iff.1 h α hm
  cases α <;> simp [isQuiet, note?, isMove] at hq hn ⊢

end Action

/-! ### Computations that emit only some actions -/

namespace Alloc

/-- From every state, the events of the computation all pass the test. -/
def Only {α : Type} (p : Action → Bool) (x : Alloc α) : Prop := ∀ a, ∀ e ∈ Action.events (run x a).trace, p e = true

namespace Only

section

variable {α β : Type} {p : Action → Bool} {x : Alloc α} {f : α → Alloc β}

theorem pure (v : α) : Only p (Pure.pure v) := by
  intro a e he
  simp [run_pure] at he

theorem bind (hx : Only p x) (hf : ∀ v, Only p (f v)) : Only p (x >>= f) := by
  intro a e he
  rw [run_bind, Action.events_append] at he
  rcases List.mem_append.1 he with he | he
  · exact hx a e he
  · exact hf _ _ e he

theorem forM {γ : Type} {f : γ → Alloc Unit} (hf : ∀ x, Only p (f x)) (l : List γ) : Only p (l.forM f) := by
  induction l with
  | nil => exact pure ()
  | cons x l ih => exact bind (hf x) fun _ => ih

end

variable {p : Action → Bool}

theorem state : Only p state := fun a e he => by simp [run_state] at he

theorem change (f : Allocator → Allocator) : Only p (change f) := fun a e he => by simp [run_change] at he

theorem report (n : Note) : Only p (report n) := fun a e he => by simp [run_report] at he

theorem assign (t : Temp) (r : Reg) : Only p (assign t r) := fun a e he => by
  rw [show (run (Alloc.assign t r) a).trace = (a.regs.bindNotes t r).map .note from rfl, Action.events_notes] at he
  simp at he

theorem forget (t : Temp) : Only p (forget t) := fun a e he => by
  rw [show (run (Alloc.forget t) a).trace = (a.regs.unbindNotes t).map .note from rfl, Action.events_notes] at he
  simp at he

theorem emit {α : Action} (h : p α = true) : Only p (emit α) := fun a e he => by
  have hm : e ∈ [α] := Action.mem_events he
  rw [List.mem_singleton.1 hm]
  exact h

theorem remark (h : ∀ text, p (.comment text) = true) (text : String) : Only p (remark text) := by
  refine bind state fun a => ?_
  split
  · exact emit (h text)
  · exact pure ()

end Only

theorem only_writeBack (ts : TempSet) : Only Action.isStore (writeBack ts) := by
  refine Only.forM (fun t => Only.bind Only.state fun a => ?_) _
  split
  · exact Only.emit rfl
  · exact Only.pure ()

theorem only_evict (r : Reg) (t : Temp) : Only Action.isMove (evict r t) := by
  refine Only.bind Only.state fun a => ?_
  split
  · exact (Only.report _).bind fun _ => (Only.remark (fun _ => rfl) _).bind fun _ => (Only.emit rfl).bind fun _ =>
      (Only.forget _).bind fun _ => Only.change _
  · exact Only.pure ()

theorem only_victim (read : Bool) (pinned : List Reg) : Only Action.isMove (victim read pinned) := by
  refine Only.bind Only.state fun a => ?_
  dsimp only
  split
  · exact (Only.change _).bind fun _ => Only.pure _
  · split
    · exact (Only.report _).bind fun _ => (Only.change _).bind fun _ => Only.pure _
    · exact (Only.change _).bind fun _ => Only.pure _

theorem only_hold (t : Temp) (read : Bool) (live : TempSet) (pinned : List Reg) :
    Only Action.isMove (hold t read live pinned) := by
  refine Only.bind Only.state fun a => ?_
  split
  · exact Only.pure _
  · split
    · refine (Only.report _).bind fun _ => (Only.remark (fun _ => rfl) _).bind fun _ => ?_
      split
      · exact (Only.emit rfl).bind fun _ => (Only.assign _ _).bind fun _ => Only.pure _
      · exact (Only.assign _ _).bind fun _ => Only.pure _
    · refine (only_victim read pinned).bind fun r => (only_evict r t).bind fun _ =>
        (Only.remark (fun _ => rfl) _).bind fun _ => (Only.assign t r).bind fun _ => ?_
      split
      · exact (Only.emit rfl).bind fun _ => Only.pure _
      · exact Only.pure _

theorem binding?_hold (t : Temp) (read : Bool) (live : TempSet) (pinned : List Reg) (a : Allocator) :
    (run (hold t read live pinned) a).state.regs.binding? t = some (run (hold t read live pinned) a).value := by
  have hassign : ∀ (f : RegisterFile) (r : Reg), (f.bind t r).binding? t = some r := fun f r => by
    rw [RegisterFile.binding?_bind, if_pos rfl]
  unfold hold
  rw [run_bind, run_state]
  dsimp only
  split
  · assumption
  · split
    · cases read <;> exact hassign _ _
    · cases read <;> simp only [run_bind, run_assign] <;> exact hassign _ _

/-! ### The registers of operands -/

/-- Registers that may stand for operands: one for each, and for an operand that names a register that one. -/
def Fits (ops : List Operand) (rs : List Reg) : Prop := List.Forall₂ (fun op r => ∀ q ∈ op.reg?, r = q) ops rs

theorem only_readAll (live : TempSet) (pinned : List Reg) (ops : List Operand) :
    Only Action.isMove (readAll live pinned ops) := by
  induction ops generalizing pinned with
  | nil => exact Only.pure _
  | cons op ops ih =>
    cases op with
    | temp t => exact (only_hold t true live pinned).bind fun r => (ih (r :: pinned)).bind fun _ => Only.pure _
    | reg r => exact (Only.pure r).bind fun r => (ih (r :: pinned)).bind fun _ => Only.pure _

theorem only_writeAll (live : TempSet) (pinned : List Reg) (ops : List Operand) :
    Only Action.isMove (writeAll live pinned ops) := by
  induction ops with
  | nil => exact Only.pure _
  | cons op ops ih =>
    cases op with
    | temp t => exact (only_hold t false live pinned).bind fun r => ih.bind fun _ => Only.pure _
    | reg r => exact (Only.pure r).bind fun r => ih.bind fun _ => Only.pure _

theorem only_resolve (s : Step) : Only Action.isMove (resolve s) :=
  (only_readAll _ _ _).bind fun _ => (only_writeAll _ _ _).bind fun _ => Only.pure _

theorem fits_readAll (live : TempSet) (pinned : List Reg) (ops : List Operand) (a : Allocator) :
    Fits ops (run (readAll live pinned ops) a).value := by
  induction ops generalizing pinned a with
  | nil => exact .nil
  | cons op ops ih =>
    cases op with
    | temp t => exact .cons (by simp [Operand.reg?]) (ih _ _)
    | reg r => exact .cons (by rintro q ⟨⟩; rfl) (ih _ _)

theorem fits_writeAll (live : TempSet) (pinned : List Reg) (ops : List Operand) (a : Allocator) :
    Fits ops (run (writeAll live pinned ops) a).value := by
  induction ops generalizing a with
  | nil => exact .nil
  | cons op ops ih =>
    cases op with
    | temp t => exact .cons (by simp [Operand.reg?]) (ih _)
    | reg r => exact .cons (by rintro q ⟨⟩; rfl) (ih _)

theorem fits_resolve (s : Step) (a : Allocator) :
    Fits s.instr.dsts (run (resolve s) a).value.1 ∧ Fits s.instr.srcs (run (resolve s) a).value.2 :=
  ⟨fits_writeAll _ _ _ _, fits_readAll _ _ _ _⟩

/-- An instruction that leaves writes nothing and reads at most one operand. -/
theorem srcs_shape_of_leaves {i : Instr} (h : i.leaves = true) : i.srcs = [] ∨ ∃ op, i.srcs = [op] := by
  cases i with
  | jump => exact .inl rfl
  | branch test cond target => exact .inr ⟨cond, rfl⟩
  | ret value =>
    cases value with
    | none => exact .inl rfl
    | some op => exact .inr ⟨op, rfl⟩
  | move | const | unary | binary | mark | memo | call => simp [Instr.leaves, Instr.flow] at h

/-- **Once its operands are in registers, an instruction that leaves finds them there.** -/
theorem resolve_again {s : Step} (h : s.instr.leaves = true) (a : Allocator) :
    run (resolve s) (run (resolve s) a).state = ⟨(run (resolve s) a).value, (run (resolve s) a).state, []⟩ := by
  have hd := Instr.dsts_of_leaves h
  rcases srcs_shape_of_leaves h with hs | ⟨op, hs⟩
  · unfold resolve
    simp only [hs, hd]
    rfl
  · cases op with
    | reg r =>
      unfold resolve
      simp only [hs, hd]
      rfl
    | temp t =>
      unfold resolve
      simp only [hs, hd, readAll, writeAll, run_bind, run_pure]
      rw [run_hold_bound (binding?_hold t true _ _ a)]
      rfl

/-! ### Steps -/

/-- The events of a step: loads and stores, its code for some registers, and stores.  Code that leaves the block comes
after the stores. -/
def Rendered (exit : Label) (s : Step) (τ : List Action) : Prop :=
  ∃ before after dsts srcs, (∀ α ∈ before, α.isMove = true) ∧ (∀ α ∈ after, α.isStore = true) ∧
    Fits s.instr.dsts dsts ∧ Fits s.instr.srcs srcs ∧
    τ = if s.instr.leaves then before ++ after ++ (s.instr.select dsts srcs exit).map .native
      else before ++ (s.instr.select dsts srcs exit).map .native ++ after

/-- From every state, the events are moves, the code, and stores. -/
def Around {α : Type} (code : List Asm) (x : Alloc α) : Prop :=
  ∀ a, ∃ before after, (∀ α ∈ before, α.isMove = true) ∧ (∀ α ∈ after, α.isStore = true) ∧
    Action.events (run x a).trace = before ++ code.map .native ++ after

theorem Around.code {α : Type} (code : List Asm) {f : Unit → Alloc α} (hf : ∀ v, Only Action.isStore (f v)) :
    Around code (emitCode code >>= f) := by
  intro a
  refine ⟨[], Action.events (run (f ()) a).trace, by simp, hf () a, ?_⟩
  rw [run_bind, run_emitCode, Action.events_append, Action.events_code, List.nil_append]

theorem Around.bind {α β : Type} {code : List Asm} {x : Alloc α} {f : α → Alloc β} (hx : Only Action.isMove x)
    (hf : ∀ v, Around code (f v)) : Around code (x >>= f) := by
  intro a
  obtain ⟨before, after, hb, ha, he⟩ := hf (run x a).value (run x a).state
  refine ⟨Action.events (run x a).trace ++ before, after, List.forall_mem_append.2 ⟨hx a, hb⟩, ha, ?_⟩
  rw [run_bind, Action.events_append, he]
  simp only [List.append_assoc]

theorem only_vacate (live : TempSet) (r : Reg) : Only Action.isMove (vacate live r) := by
  refine Only.bind Only.state fun a => ?_
  split
  · split
    · exact (Only.report _).bind fun _ => (Only.emit rfl).bind fun _ => Only.forget _
    · exact Only.forget _
  · exact Only.pure ()

theorem only_pass (t : Temp) (r : Reg) : Only Action.isMove (pass t r) :=
  (Only.forget t).bind fun _ => (Only.emit rfl).bind fun _ => Only.assign t r

theorem only_drop (r : Reg) : Only Action.isStore (drop r) := by
  refine Only.bind Only.state fun a => ?_
  split
  · exact Only.forget _
  · exact Only.pure ()

theorem around_call (s : Step) (args : List Temp) (dst : Option Temp) (exit : Label) :
    Around (s.instr.select (dst.toList.map fun _ => .result) (Reg.params.take args.length) exit)
      (call s args dst exit) := by
  have hpass : ∀ p : Temp × Reg, Only Action.isMove (pass p.1 p.2) := fun p => only_pass p.1 p.2
  refine Around.bind (Only.change _) fun _ => ?_
  refine Around.bind (Only.remark (fun _ => rfl) _) fun _ => ?_
  refine Around.bind (Only.forM (only_vacate s.liveIn) _) fun _ => ?_
  refine Around.bind (Only.forM hpass _) fun _ => ?_
  refine Around.code _ fun _ => ?_
  refine Only.bind (Only.forM only_drop _) fun _ => ?_
  cases dst with
  | some t => exact (Only.assign _ _).bind fun _ => Only.emit rfl
  | none => exact Only.pure ()

variable {s : Step} {ss : List Step} {exit : Label} {a a' : Allocator} {τ : List Action}

theorem fits_call {i : Instr} {dst : Option Operand} {args : List Operand} {xs : List Temp} {d : Option Temp}
    (h : callTemps i dst args = .ok (xs, d)) :
    Fits dst.toList (d.toList.map fun _ => .result) ∧ Fits args (Reg.params.take xs.length) := by
  obtain ⟨rfl, rfl, hlen⟩ := callTemps_eq_ok h
  have htemps : ∀ {ts : List Temp} {rs : List Reg}, ts.length = rs.length → Fits (ts.map .temp) rs := by
    intro ts rs hl
    refine List.forall₂_iff_zip.2 ⟨by rw [List.length_map, hl], fun {op r} hm => ?_⟩
    obtain ⟨t, -, rfl⟩ := List.mem_map.1 (List.of_mem_zip hm).1
    simp [Operand.reg?]
  refine ⟨?_, htemps (by rw [List.length_take]; omega)⟩
  cases d with
  | none => exact .nil
  | some t => exact .cons (by simp [Operand.reg?]) .nil

theorem events_instruction (s : Step) (exit : Label) (a : Allocator) :
    Action.events (run (instruction s exit true) a).trace = Action.events (run (resolve s) a).trace ++
      (s.instr.select (run (resolve s) a).value.1 (run (resolve s) a).value.2 exit).map .native := by
  rw [show (run (instruction s exit true) a).trace = (run (resolve s) a).trace ++
    (s.instr.select (run (resolve s) a).value.1 (run (resolve s) a).value.2 exit).map .native from rfl,
    Action.events_append, Action.events_code]

/-- The events before and after the code of a step that does not leave. -/
theorem step_rendered (hs : s.instr.leaves = false) (h : Yields (step s exit true) a () a' τ) :
    Rendered exit s (Action.events τ) := by
  cases hc : s.instr.isCall with
  | true =>
    obtain ⟨dst, l, args, hi⟩ := Instr.eq_call hc
    obtain ⟨xs, d, a₁, τ₁, τ₂, htemps, h₁, h₂, rfl⟩ := step_call hi h
    obtain ⟨hd, hx⟩ := fits_call htemps
    obtain ⟨before, after, hb, ha, he⟩ := around_call s xs d exit a
    have hw := only_writeBack s.liveOut a₁
    rw [h₁] at he
    rw [h₂] at hw
    refine ⟨before, after ++ Action.events τ₂, _, _, hb, List.forall_mem_append.2 ⟨ha, hw⟩, by rw [hi]; exact hd,
      by rw [hi]; exact hx, ?_⟩
    rw [hs, Action.events_append, show Action.events τ₁ = _ from he]
    simp only [Bool.false_eq_true, if_false, List.append_assoc]
  | false =>
    obtain ⟨a₁, τ₀, τ₁, τ₂, h₀, h₁, h₂, rfl⟩ := step_instruction hc h
    have he := events_instruction s exit a
    have hw := only_writeBack s.liveOut a₁
    rw [h₁] at he
    rw [h₂] at hw
    obtain ⟨hd, hx⟩ := fits_resolve s a
    have hb := List.forall_mem_append.2 ⟨Action.isMove_of_essential_eq_nil h₀, only_resolve s a⟩
    refine ⟨_, Action.events τ₂, _, _, hb, hw, hd, hx, ?_⟩
    rw [hs, Action.events_append, Action.events_append, show Action.events τ₁ = _ from he]
    simp only [Bool.false_eq_true, if_false, List.append_assoc]

/-- A step that leaves, up to its code: loads and stores, with its operands in registers at the end. -/
theorem step_prepared (hs : s.instr.leaves = true) (h : Yields (step s exit false) a () a' τ) :
    a' = (run (resolve s) a).state ∧
      ∃ before after, (∀ α ∈ before, α.isMove = true) ∧ (∀ α ∈ after, α.isStore = true) ∧
        Action.events τ = before ++ after := by
  have hc : s.instr.isCall = false := by
    cases hi : s.instr <;> simp [hi, Instr.leaves, Instr.flow] at hs <;> rfl
  obtain ⟨a₁, τ₀, τ₁, τ₂, h₀, h₁, h₂, rfl⟩ := step_instruction hc h
  have hrun : run (instruction s exit false) a = ⟨(), (run (resolve s) a).state, (run (resolve s) a).trace ++ []⟩ := rfl
  rw [hrun] at h₁
  obtain ⟨-, rfl, rfl⟩ := Emitted.mk.inj h₁
  have hstate := state_writeBack s.liveOut (run (resolve s) a).state
  have hw := only_writeBack s.liveOut (run (resolve s) a).state
  rw [h₂] at hstate hw
  have hb := List.forall_mem_append.2 ⟨Action.isMove_of_essential_eq_nil h₀, only_resolve s a⟩
  refine ⟨hstate, _, Action.events τ₂, hb, hw, ?_⟩
  simp only [Action.events_append, List.append_nil]

/-- The events of the steps of a block, but for the code of the one that leaves. -/
theorem steps_rendered {e : Ending} (hf : Formed (ss.map Step.instr) e)
    (h : Yields (steps exit (decide (e ≠ .fallsThrough)) ss) a () a' τ) :
    (e = .fallsThrough ∧ ∃ τs, List.Forall₂ (Rendered exit) ss τs ∧ Action.events τ = τs.flatten) ∨
      ∃ done s τs before after b, ss = done ++ [s] ∧ s.instr.leaves = true ∧
        List.Forall₂ (Rendered exit) done τs ∧ (∀ α ∈ before, α.isMove = true) ∧ (∀ α ∈ after, α.isStore = true) ∧
        Action.events τ = τs.flatten ++ (before ++ after) ∧ a' = (run (resolve s) b).state := by
  induction ss generalizing a τ with
  | nil =>
    obtain ⟨-, rfl⟩ := steps_nil h
    exact .inl ⟨hf.ending_of_nil, [], .nil, rfl⟩
  | cons s ss ih =>
    obtain ⟨a₁, τ₁, τ₂, h₁, h₂, rfl⟩ := steps_cons h
    replace hf : Formed (s.instr :: ss.map Step.instr) e := hf
    have hem : (!(decide (e ≠ .fallsThrough) && ss.isEmpty)) = !s.instr.leaves := by
      rw [hf.leaves_eq, List.isEmpty_map]
    rw [hem] at h₁
    rcases hf.of_cons with ⟨hflow, hf'⟩ | ⟨hnil, hl, -⟩
    · have hl : s.instr.leaves = false := by simp [Instr.leaves, hflow]
      rw [hl] at h₁
      have hr := step_rendered hl h₁
      rcases ih hf' h₂ with ⟨he, τs, hτs, heq⟩ | ⟨done, s', τs, before, after, b, rfl, hl', hτs, hb, ha, heq, hst⟩
      · exact .inl ⟨he, _ :: τs, .cons hr hτs, by rw [Action.events_append, heq, List.flatten_cons]⟩
      · refine .inr ⟨s :: done, s', _ :: τs, before, after, b, rfl, hl', .cons hr hτs, hb, ha, ?_, hst⟩
        rw [Action.events_append, heq, List.flatten_cons, List.append_assoc]
    · cases List.map_eq_nil_iff.1 hnil
      obtain ⟨rfl, rfl⟩ := steps_nil h₂
      rw [hl] at h₁
      obtain ⟨hst, before, after, hb, ha, heq⟩ := step_prepared hl h₁
      exact .inr ⟨[], s, [], before, after, a, rfl, hl, .nil, hb, ha, by simp [heq], hst⟩

/-! ### Blocks -/

/-- The events of a block: its label, then what its steps give, in order.  Only the last step can leave. -/
def Laid (exit : Label) (b : Block) (τ : List Action) : Prop :=
  (∀ s ∈ b.steps.dropLast, s.instr.leaves = false) ∧
    ∃ τs, List.Forall₂ (Rendered exit) b.steps τs ∧ τ = b.label.toList.map .label ++ τs.flatten

variable {b : Block} {bs : List Block}

theorem leaves_eq_false_of_mem_dropLast (hf : Formed b.instrs b.ending) (hs : s ∈ b.steps.dropLast) :
    s.instr.leaves = false := by
  apply hf.leaves_eq_false
  rw [Block.instrs, ← List.map_dropLast]
  exact List.mem_map_of_mem hs

/-- The step at which control leaves a block is the last, if that one leaves. -/
theorem last?_of_leaves {done : List Step} (hf : Formed b.instrs b.ending) (hs : b.steps = done ++ [s])
    (hl : s.instr.leaves = true) : b.last? = some s := by
  have hlast : b.steps.getLast? = some s := by rw [hs, List.getLast?_concat]
  have hi : b.instrs[done.length]? = some s.instr := by
    rw [Block.instrs, List.getElem?_map, hs, List.getElem?_concat_length]
    rfl
  have hend := (hf.of_getElem? hi).2 (by rw [Block.instrs, hs]; simp)
  have hne : b.ending ≠ .fallsThrough := hend ▸ Instr.ofFlow_ne_fallsThrough hl
  unfold Block.last?
  cases he : b.ending with
  | fallsThrough => exact absurd he hne
  | jumps | branches | returns => exact hlast

theorem block_laid (hf : Formed b.instrs b.ending) (h : Yields (block b exit) a () a' τ) :
    Laid exit b (Action.events τ) := by
  obtain ⟨a₁, τ₁, τ₂, h₁, h₂, rfl⟩ := block_parts h
  have hsome := Block.isSome_last? hf
  rw [hsome] at h₁
  refine ⟨fun s hs => leaves_eq_false_of_mem_dropLast hf hs, ?_⟩
  have hevents : Action.events (b.label.toList.map .label ++ .note (.entering b.id b.ending b.liveIn) :: (τ₁ ++ τ₂)) =
      b.label.toList.map .label ++ (Action.events τ₁ ++ Action.events τ₂) := by
    rw [Action.events_append, Action.events_label, Action.events_note, Action.events_append]
  rw [hevents]
  rcases steps_rendered hf h₁ with ⟨he, τs, hτs, heq⟩ | ⟨done, s, τs, before, after, a₀, hs, hl, hτs, hb, ha, heq, rfl⟩
  · have hnone : b.last? = none := by
      rw [he] at hsome
      exact Option.isNone_iff_eq_none.1 (by rw [← Option.not_isSome, hsome]; rfl)
    rw [leave, hnone, run_pure] at h₂
    obtain ⟨-, -, rfl⟩ := Emitted.mk.inj h₂
    exact ⟨τs, hτs, by rw [heq, Action.events_nil, List.append_nil]⟩
  · have hrun : run (instruction s exit true) (run (resolve s) a₀).state = ⟨(), (run (resolve s) a₀).state,
        (s.instr.select (run (resolve s) a₀).value.1 (run (resolve s) a₀).value.2 exit).map .native⟩ := by
      unfold instruction
      rw [run_bind, resolve_again hl]
      rfl
    rw [leave, last?_of_leaves hf hs hl, hrun] at h₂
    obtain ⟨-, -, rfl⟩ := Emitted.mk.inj h₂
    obtain ⟨hd, hx⟩ := fits_resolve s a₀
    have hlast : Rendered exit s _ := ⟨before, after, _, _, hb, ha, hd, hx, rfl⟩
    refine ⟨τs ++ [_], by rw [hs]; exact List.rel_append hτs (.cons hlast .nil), ?_⟩
    rw [hl, heq, Action.events_code]
    simp

theorem blocks_laid (hf : ∀ b ∈ bs, Formed b.instrs b.ending) (h : Yields (blocks exit bs) a () a' τ) :
    ∃ τs, List.Forall₂ (Laid exit) bs τs ∧ Action.events τ = τs.flatten := by
  induction bs generalizing a τ with
  | nil =>
    obtain ⟨-, rfl⟩ := blocks_nil h
    exact ⟨[], .nil, rfl⟩
  | cons b bs ih =>
    obtain ⟨a₁, τ₁, τ₂, h₁, h₂, rfl⟩ := blocks_cons h
    obtain ⟨τs, hτs, heq⟩ := ih (fun c hc => hf c (List.mem_cons_of_mem b hc)) h₂
    refine ⟨Action.events τ₁ :: τs, .cons (block_laid (hf b List.mem_cons_self) h₁) hτs, ?_⟩
    rw [Action.events_append, heq, List.flatten_cons]

/-! ### Functions -/

/-- What is in a register after parameters were put there was in it before or is one of them. -/
theorem binding?_forM_assign {ps : List (Temp × Reg)} {t : Temp} {r : Reg}
    (h : (run (ps.forM fun p => assign p.1 p.2) a).state.regs.binding? t = some r) :
    a.regs.binding? t = some r ∨ (t, r) ∈ ps := by
  induction ps generalizing a with
  | nil => exact .inl h
  | cons p ps ih =>
    have hcons : (run ((p :: ps).forM fun p => assign p.1 p.2) a).state =
        (run (ps.forM fun p => assign p.1 p.2) { a with regs := a.regs.bind p.1 p.2 }).state := rfl
    rw [hcons] at h
    rcases ih h with h | h
    · simp only [RegisterFile.binding?_bind] at h
      split at h
      · rename_i ht
        cases Option.some.inj h
        exact .inr (by rw [ht]; exact List.mem_cons_self)
      · split at h
        · simp at h
        · exact .inl h
    · exact .inr (List.mem_cons_of_mem p h)

theorem trace_writeBack (ts : TempSet) (a : Allocator) :
    (run (writeBack ts) a).trace = ts.toList.filterMap fun t => (a.regs.binding? t).map (.store · t) := by
  unfold writeBack
  induction ts.toList with
  | nil => rfl
  | cons t ts ih =>
    rw [List.filterMap_cons, ← ih]
    show (run (_ >>= fun _ => _) a).trace = _
    rw [run_bind, run_bind, run_state]
    dsimp only
    cases hb : a.regs.binding? t <;> rfl

/-- The stores on entry: parameters that come in registers and are needed. -/
theorem events_takeParams {g : FlowGraph} {params : List Temp}
    (h : run (takeParams g params) (a.reset (g.tempCount params)) = ⟨(), a', τ⟩) :
    ∀ α ∈ Action.events τ, ∃ t r, α = .store r t ∧ (t, r) ∈ params.zip Reg.params ∧ t ∈ entryLive g := by
  intro α hα
  have hτ : τ = (run (takeParams g params) (a.reset (g.tempCount params))).trace := by rw [h]
  rw [hτ, takeParams, run_bind, Action.events_append] at hα
  rcases List.mem_append.1 hα with hα | hα
  · have hnone : Only (fun _ => false) ((params.zip Reg.params).forM fun p => assign p.1 p.2) :=
      Only.forM (fun p : Temp × Reg => Only.assign p.1 p.2) _
    exact absurd (hnone _ α hα) (by simp)
  · have hm := Action.mem_events hα
    rw [trace_writeBack] at hm
    obtain ⟨t, ht, hr⟩ := List.mem_filterMap.1 hm
    obtain ⟨r, hb, rfl⟩ := Option.map_eq_some_iff.1 hr
    refine ⟨t, r, rfl, ?_, OrdSet.mem_toList.1 ht⟩
    rcases binding?_forM_assign hb with hb | hb
    · simp [Allocator.reset] at hb
    · exact hb

end Alloc

namespace FlowGraph

variable {f : Func} {g : FlowGraph} {b : Block}

theorem map_id_reachableBlocks (hid : ∀ (u : Nat) (b : Block), g.blocks[u]? = some b → b.id = u) :
    g.reachableBlocks.map Block.id = g.reachable := by
  apply List.ext_getElem?
  intro k
  rw [List.getElem?_map, getElem?_reachableBlocks]
  cases hk : g.reachable[k]? with
  | none => rfl
  | some u =>
    have hu := List.getElem?_eq_getElem (mem_reachable.1 (List.mem_of_getElem? hk)).1
    rw [Option.bind_some, hu]
    exact congrArg some (hid u _ hu)

theorem mem_reachableBlocks (hid : ∀ (u : Nat) (b : Block), g.blocks[u]? = some b → b.id = u) :
    b ∈ g.reachableBlocks ↔ b ∈ g.blocks ∧ b.id ∈ g.reachable := by
  rw [reachableBlocks, List.mem_filterMap]
  constructor
  · rintro ⟨u, hu, hb⟩
    exact ⟨List.mem_of_getElem? hb, hid u b hb ▸ hu⟩
  · rintro ⟨hb, hr⟩
    obtain ⟨u, hu⟩ := List.getElem?_of_mem hb
    exact ⟨u, hid u b hu ▸ hr, hu⟩

theorem id_withLiveness (h : ofFunc f = .ok g) (u : Nat) (b : Block) (hb : g.withLiveness.blocks[u]? = some b) :
    b.id = u := by
  have hbare := bare_of_ofFunc h
  obtain ⟨hsegs, -, -⟩ := settled_withLiveness hbare
  obtain ⟨c, hc, -⟩ := getElem?_segments_eq_some.1 (hsegs ▸ getElem?_segments_eq_some.2 ⟨b, hb, rfl⟩)
  obtain ⟨d, hd, hid, -⟩ := exists_getElem?_withLiveness hbare hc
  rw [Option.some.inj (hb.symm.trans hd), hid]
  exact id_of_split ((ofFunc_eq_ok h).1 ▸ hc)

end FlowGraph

open FlowGraph in
/-- **Every step of a reachable block is emitted once, in order, and nothing else is.**  The events of allocation are
stores of parameters, followed by what the reachable blocks give, from the lowest number to the highest.  The reachable
blocks are those that a path of edges leads to from the entry, and all blocks, one after the other, are the function. -/
theorem reachable_steps_emitted {f : Func} {g : FlowGraph} (a : Allocator) (h : ofFunc f = .ok g)
    (hok : (a.accept g.withLiveness f.name f.params).outcome = .ok ()) :
    ∃ entry τs, Action.events (a.accept g.withLiveness f.name f.params).actions = entry ++ τs.flatten ∧
      (∀ α ∈ entry, ∃ t r, α = .store r t ∧ (t, r) ∈ f.params.zip Reg.params ∧
        t ∈ Alloc.entryLive g.withLiveness) ∧
      List.Forall₂ (Alloc.Laid f.name.exit) g.withLiveness.reachableBlocks τs ∧
      (g.withLiveness.reachableBlocks.map Block.id).Pairwise (· < ·) ∧
      (∀ b, b ∈ g.withLiveness.reachableBlocks ↔
        b ∈ g.withLiveness.blocks ∧ Relation.ReflTransGen (fun u v => (u, v) ∈ g.edges) 0 b.id) ∧
      g.withLiveness.blocks.flatMap Block.source = f.instrs := by
  obtain ⟨hsegs, hedges, -⟩ := settled_withLiveness (bare_of_ofFunc h)
  have hd : g.withLiveness.Describes f := (describes_of_ofFunc h).congr hsegs hedges
  have hid := id_withLiveness h
  have hy : Alloc.Yields (Alloc.function g.withLiveness f.name f.params) a ()
      (a.accept g.withLiveness f.name f.params).final (a.accept g.withLiveness f.name f.params).actions := by
    unfold Alloc.Yields
    rw [← hok]
    rfl
  obtain ⟨a₁, τ₁, τ₂, h₁, h₂, hτ⟩ := Alloc.function_parts hy
  have hformed : ∀ b ∈ g.withLiveness.reachableBlocks, Formed b.instrs b.ending :=
    fun b hb => hd.formed ((mem_reachableBlocks hid).1 hb).1
  obtain ⟨τs, hτs, heq⟩ := Alloc.blocks_laid hformed h₂
  refine ⟨Action.events τ₁, τs, ?_, Alloc.events_takeParams h₁, hτs, ?_, fun b => ?_, hd.flatMap_source_blocks⟩
  · rw [hτ, Action.events_note, Action.events_append, Action.events_append, heq, Action.events_note,
      Action.events_nil, List.append_nil]
  · rw [map_id_reachableBlocks hid]
    exact pairwise_reachable _
  · rw [mem_reachableBlocks hid, mem_reachable_iff, hedges]
    refine and_congr_right fun hb => ⟨fun hr => hr.2, fun hpath => ⟨?_, hpath⟩⟩
    obtain ⟨u, hu⟩ := List.getElem?_of_mem hb
    rw [hid u b hu]
    exact (List.getElem?_eq_some_iff.1 hu).1

open FlowGraph in
/-- The code of a function that jumps over two blocks is that of the other three. -/
theorem reachable_steps_emitted_skipping : ofFunc skipping = .ok skippingGraph ∧
    ((Allocator.ofOptions ⟨true, none⟩).accept skippingGraph.withLiveness ⟨"f"⟩ [⟨0⟩]).outcome = .ok () ∧
    skippingGraph.withLiveness.reachableBlocks.map Block.id = [0, 3, 4] ∧
    ∃ entry τs, Action.events
        ((Allocator.ofOptions ⟨true, none⟩).accept skippingGraph.withLiveness ⟨"f"⟩ [⟨0⟩]).actions =
          entry ++ τs.flatten ∧
      List.Forall₂ (Alloc.Laid (Label.exit ⟨"f"⟩)) skippingGraph.withLiveness.reachableBlocks τs := by
  have hok : ofFunc skipping = .ok skippingGraph := rfl
  have haccept : ((Allocator.ofOptions ⟨true, none⟩).accept skippingGraph.withLiveness ⟨"f"⟩ [⟨0⟩]).outcome =
      .ok () := by
    decide +kernel
  have hids : skippingGraph.withLiveness.reachableBlocks.map Block.id = [0, 3, 4] := by decide +kernel
  obtain ⟨entry, τs, hτ, -, hτs, -⟩ := reachable_steps_emitted (Allocator.ofOptions ⟨true, none⟩) hok haccept
  exact ⟨hok, haccept, hids, entry, τs, hτ, hτs⟩

end ThreeAddress
