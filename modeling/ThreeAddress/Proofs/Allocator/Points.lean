import ThreeAddress.Proofs.Allocator.Effect
import ThreeAddress.Proofs.Allocator.Reports
import ThreeAddress.Proofs.Liveness.Exact

/-!
The points of a function that allocation comes to.  A point is a step of a reachable block, with what lies before and
after it (`Point`); allocation reaches it in some state, having emitted some actions (`Point.Reached`).  This does not
ask for allocation to succeed in the end, so what is shown of the points that are reached holds of failed allocations
too.

Main statements: every load, and every report of an eviction, is emitted by a step at a point that is reached
(`exists_reached`); and what has been emitted by then are the effects of the blocks and steps before the point
(`Point.Reached.effects`).
-/

namespace ThreeAddress

/-- Whether the action can only come from a step: a load, or the report of an eviction. -/
def Action.isChoice : Action → Bool
  | .load _ _ | .note (.spilled _ _ _) | .note (.evictingOperand _) => true
  | _ => false

/-- The instructions of a block before one of them are straight, and the others are formed as the block is. -/
theorem Formed.of_append {is js : List Instr} {i : Instr} {e : Ending} (h : Formed (is ++ i :: js) e) :
    (∀ k ∈ is, k.flow = .straight) ∧ Formed (i :: js) e := by
  induction is with
  | nil => exact ⟨by simp, h⟩
  | cons k is ih =>
    rcases Formed.of_cons h with ⟨hk, h⟩ | ⟨hnil, -⟩
    · obtain ⟨his, h⟩ := ih h
      exact ⟨List.forall_mem_cons.2 ⟨hk, his⟩, h⟩
    · simp at hnil

namespace Alloc

variable {α β : Type} {a a' a₀ : Allocator} {τ xs ys : List Action} {e : Action}

/-! ### Where an action is emitted -/

theorem split_append {τ υ : List Action} (h : τ ++ υ = xs ++ e :: ys) :
    (∃ zs, τ = xs ++ e :: zs ∧ ys = zs ++ υ) ∨ ∃ xs', υ = xs' ++ e :: ys ∧ xs = τ ++ xs' := by
  rcases List.append_eq_append_iff.1 h with ⟨xs', rfl, hυ⟩ | ⟨zs, rfl, hys⟩
  · exact .inr ⟨xs', hυ, rfl⟩
  · cases zs with
    | nil => exact .inr ⟨[], hys.symm, by simp⟩
    | cons z zs =>
      obtain ⟨rfl, rfl⟩ := List.cons.inj hys
      exact .inl ⟨zs, rfl, rfl⟩

/-- The computation emits `e` after `xs` and before `ys`, whether it succeeds or not. -/
def Emits (x : AllocE α) (a : Allocator) (xs : List Action) (e : Action) (ys : List Action) : Prop :=
  (run x.run a).trace = xs ++ e :: ys

theorem Emits.lift_iff {x : Alloc α} : Emits (liftM x) a xs e ys ↔ (run x a).trace = xs ++ e :: ys := by
  have h : (run (ExceptT.run (liftM x : AllocE α)) a).trace = (run x a).trace ++ [] := rfl
  rw [Emits, h, List.append_nil]

theorem Emits.mem {x : Alloc α} (h : Emits (liftM x) a xs e ys) : e ∈ (run x a).trace := by
  rw [Emits.lift_iff.1 h]
  exact List.mem_append_right _ List.mem_cons_self

/-- Of two computations the first emits the action, or the second does after the first has succeeded. -/
theorem Emits.of_bind {x : AllocE α} {f : α → AllocE β} (h : Emits (x >>= f) a xs e ys) :
    (∃ zs rest, Emits x a xs e zs ∧ ys = zs ++ rest) ∨
      ∃ v a' τ xs', Yields x a v a' τ ∧ Emits (f v) a' xs' e ys ∧ xs = τ ++ xs' := by
  unfold Emits Yields at *
  rw [ExceptT.run_bind, run_bind] at h
  generalize run x.run a = r at h ⊢
  obtain ⟨v, a', τ⟩ := r
  cases v with
  | error err =>
    replace h : τ ++ [] = xs ++ e :: ys := h
    rw [List.append_nil] at h
    exact .inl ⟨ys, [], h, (List.append_nil ys).symm⟩
  | ok v =>
    replace h : τ ++ (run (f v).run a').trace = xs ++ e :: ys := h
    rcases split_append h with ⟨zs, hτ, hys⟩ | ⟨xs', hf, rfl⟩
    · exact .inl ⟨zs, _, hτ, hys⟩
    · exact .inr ⟨v, a', τ, xs', rfl, hf, rfl⟩

theorem Emits.of_bind_of_notMem {x : Alloc α} {f : α → AllocE β}
    (h : Emits (liftM x >>= f : AllocE β) a xs e ys) (hx : e ∉ (run x a).trace) :
    ∃ v a' τ xs', Yields (liftM x : AllocE α) a v a' τ ∧ Emits (f v) a' xs' e ys ∧ xs = τ ++ xs' := by
  rcases h.of_bind with ⟨zs, rest, hzs, -⟩ | h
  · exact absurd hzs.mem hx
  · exact h

theorem Routine.notMem {x : Alloc α} (hx : Routine x) (he : e.isRoutine = false) : e ∉ (run x a).trace := by
  intro hm
  rw [(hx a).2.2 e hm] at he
  simp at he

theorem notMem_report {n : Note} (hn : (Action.note n).isChoice = false) (he : e.isChoice = true) :
    e ∉ (run (report n) a).trace := by
  intro hm
  rw [run_report] at hm
  rw [List.mem_singleton.1 hm, hn] at he
  simp at he

/-- What a step emits that is not routine comes from the choice of its registers. -/
theorem Emits.of_step {s : Step} {exit : Label} {emitted : Bool} (he : e.isRoutine = false)
    (h : Emits (step s exit emitted) a xs e ys) :
    s.instr.isCall = false ∧ ∃ ρ xs' zs rest, (run (instruction s exit emitted) a).trace = xs' ++ e :: zs ∧
      xs = ρ ++ xs' ∧ ys = zs ++ rest := by
  cases hc : s.instr.isCall with
  | true =>
    obtain ⟨dst, l, args, hi⟩ := Instr.eq_call hc
    unfold step at h
    simp only [hi] at h
    rcases h.of_bind with ⟨zs, rest, hzs, -⟩ | ⟨v, a₁, τ₁, xs₁, -, hk, -⟩
    · have hnil : (run (liftM (callTemps (.call dst l args) dst args) : AllocE _).run a).trace = [] := by
        cases callTemps (.call dst l args) dst args <;> rfl
      rw [Emits, hnil] at hzs
      simp at hzs
    · obtain ⟨⟨⟩, a₂, τ₂, xs₂, -, hk₂, -⟩ := hk.of_bind_of_notMem ((Routine.call s v.1 v.2 exit).notMem he)
      exact absurd hk₂.mem ((Routine.writeBack _).notMem he)
  | false =>
    replace h : Emits (do
        (liftM (report (.instruction s.instr)) : AllocE Unit)
        liftM (remark s.instr.text)
        liftM (instruction s exit emitted)
        liftM (writeBack s.liveOut)) a xs e ys := by
      unfold step at h
      cases hs : s.instr with
      | call => simp [hs, Instr.isCall] at hc
      | _ =>
        simp only [hs] at h
        exact h
    obtain ⟨⟨⟩, a₁, τ₁, xs₁, h₁, hk₁, rfl⟩ := h.of_bind_of_notMem ((Routine.emit rfl).notMem he)
    obtain ⟨⟨⟩, a₂, τ₂, xs₂, h₂, hk₂, rfl⟩ := hk₁.of_bind_of_notMem ((Routine.remark _).notMem he)
    obtain ⟨-, rfl, -⟩ := Emitted.mk.inj (Yields.lift_iff.1 h₁)
    obtain rfl : a = a₂ := (Does.remark a s.instr.text).2.1.symm.trans (congrArg Emitted.state (Yields.lift_iff.1 h₂))
    rcases hk₂.of_bind with ⟨zs, rest, hi, rfl⟩ | ⟨⟨⟩, a₃, τ₃, xs₃, -, hk₃, -⟩
    · exact ⟨rfl, τ₁ ++ τ₂, xs₂, zs, rest, Emits.lift_iff.1 hi, (List.append_assoc ..).symm, rfl⟩
    · exact absurd hk₃.mem ((Routine.writeBack _).notMem he)

/-! ### Points -/

/-- A step of a reachable block, and where it stands. -/
structure Point (g : FlowGraph) where
  before : List Block
  block : Block
  after : List Block
  done : List Step
  step : Step
  todo : List Step
  blocks_eq : g.reachableBlocks = before ++ block :: after
  steps_eq : block.steps = done ++ step :: todo

namespace Point

variable {g : FlowGraph} (p : Point g)

def emitted : Bool := !(p.block.last?.isSome && p.todo.isEmpty)

/-- Allocation from state `a₀` comes to the point in state `a`, having emitted `pre`. -/
def Reached (name : Label) (params : List Temp) (a₀ : Allocator) (pre : List Action) (a : Allocator) : Prop :=
  ∃ a₁ τ₁ τ₂, Yields (toBlock g name params p.before p.block) a₀ () a₁ τ₁ ∧
    Yields (stepsTo name.exit p.block.last?.isSome (p.step :: p.todo) p.done) a₁ () a τ₂ ∧ pre = τ₁ ++ τ₂

theorem block_mem : p.block ∈ g.reachableBlocks := p.blocks_eq ▸ List.mem_append_right _ List.mem_cons_self

theorem step_mem : p.step ∈ p.block.steps := p.steps_eq ▸ List.mem_append_right _ List.mem_cons_self

theorem instr_mem : p.step.instr ∈ p.block.instrs := List.mem_map_of_mem p.step_mem

theorem before_mem {b : Block} (hb : b ∈ p.before) : b ∈ g.reachableBlocks := p.blocks_eq ▸ List.mem_append_left _ hb

theorem chained (hs : g.Settled) : Step.Chained p.block.liveOut (p.step :: p.todo) := by
  obtain ⟨u, hu, hb⟩ := List.mem_filterMap.1 p.block_mem
  exact (p.steps_eq ▸ hs.chained hu hb).of_append

/-- The code comes later exactly for a step that leaves. -/
theorem emitted_eq (hf : Formed p.block.instrs p.block.ending) : p.emitted = !p.step.instr.leaves := by
  have hrest : Formed ((p.step :: p.todo).map Step.instr) p.block.ending := by
    rw [Block.instrs, p.steps_eq, List.map_append] at hf
    exact hf.of_append.2
  rw [emitted, Block.isSome_last? hf, ← List.isEmpty_map, hrest.leaves_eq]

end Point

/-! ### The points that are reached -/

section

variable {exit : Label} {leaves : Bool} {g : FlowGraph} {name : Label} {params : List Temp}

theorem Emits.of_steps {ss : List Step} (h : Emits (steps exit leaves ss) a xs e ys) :
    ∃ done s todo, ss = done ++ s :: todo ∧ ∃ a' τ xs' zs rest,
      Yields (stepsTo exit leaves (s :: todo) done) a () a' τ ∧
      Emits (step s exit (!(leaves && todo.isEmpty))) a' xs' e zs ∧ xs = τ ++ xs' ∧ ys = zs ++ rest := by
  induction ss generalizing a xs with
  | nil => exact absurd (Emits.mem (x := pure ()) h) (by simp [run_pure])
  | cons s ss ih =>
    rcases h.of_bind with ⟨zs, rest, hs, rfl⟩ | ⟨⟨⟩, a₁, τ₁, xs₁, h₁, h₂, rfl⟩
    · exact ⟨[], s, ss, rfl, a, [], xs, zs, rest, Yields.pure_iff.2 ⟨rfl, rfl, rfl⟩, hs, rfl, rfl⟩
    · obtain ⟨done, s', todo, rfl, a', τ, xs', zs, rest, hdone, hs, rfl, rfl⟩ := ih h₂
      refine ⟨s :: done, s', todo, rfl, a', τ₁ ++ τ, xs', zs, rest, ?_, hs, (List.append_assoc ..).symm, rfl⟩
      exact Yields.bind_iff.2 ⟨(), a₁, τ₁, τ, h₁, hdone, rfl⟩

theorem Emits.of_blocks {bs : List Block} (h : Emits (blocks exit bs) a xs e ys) :
    ∃ before b after, bs = before ++ b :: after ∧ ∃ a' τ xs' zs rest,
      Yields (blocks exit before) a () a' τ ∧ Emits (block b exit) a' xs' e zs ∧ xs = τ ++ xs' ∧ ys = zs ++ rest := by
  induction bs generalizing a xs with
  | nil => exact absurd (Emits.mem (x := pure ()) h) (by simp [run_pure])
  | cons b bs ih =>
    rcases h.of_bind with ⟨zs, rest, hb, rfl⟩ | ⟨⟨⟩, a₁, τ₁, xs₁, h₁, h₂, rfl⟩
    · exact ⟨[], b, bs, rfl, a, [], xs, zs, rest, Yields.pure_iff.2 ⟨rfl, rfl, rfl⟩, hb, rfl, rfl⟩
    · obtain ⟨before, c, after, rfl, a', τ, xs', zs, rest, hbefore, hc, rfl, rfl⟩ := ih h₂
      refine ⟨b :: before, c, after, rfl, a', τ₁ ++ τ, xs', zs, rest, ?_, hc, (List.append_assoc ..).symm, rfl⟩
      exact Yields.bind_iff.2 ⟨(), a₁, τ₁, τ, h₁, hbefore, rfl⟩

/-- The code that leaves a block has nothing else in it. -/
theorem native_of_mem_leave {b : Block} (hf : Formed b.instrs b.ending)
    (h : Yields (steps exit b.last?.isSome b.steps) a () a' τ) (he : e ∈ (run (leave b exit) a').trace) :
    ∃ x, e = .native x := by
  have hsome := Block.isSome_last? hf
  rw [hsome] at h
  rcases steps_rendered hf h with ⟨hend, -⟩ | ⟨done, s, -, -, -, a₁, hs, hl, -, -, -, -, rfl⟩
  · have hnone : b.last? = none := by
      rw [hend] at hsome
      exact Option.isNone_iff_eq_none.1 (by rw [← Option.not_isSome, hsome]; rfl)
    rw [leave, hnone, run_pure] at he
    exact absurd he List.not_mem_nil
  · rw [leave, last?_of_leaves hf hs hl, run_instruction_again hl] at he
    obtain ⟨x, -, rfl⟩ := List.mem_map.1 he
    exact ⟨x, rfl⟩

/-- What a block emits of choices, one of its steps emits. -/
theorem Emits.of_block {b : Block} (hf : Formed b.instrs b.ending) (he : e.isChoice = true)
    (h : Emits (block b exit) a xs e ys) :
    ∃ xs' zs rest, Emits (steps exit b.last?.isSome b.steps) (enter a) xs' e zs ∧
      xs = b.label.toList.map .label ++ .note (.entering b.id b.ending b.liveIn) :: xs' ∧ ys = zs ++ rest := by
  rw [block_eq] at h
  obtain ⟨⟨⟩, a₁, τ₁, xs₁, h₁, hk₁, rfl⟩ := h.of_bind_of_notMem fun hm => by
    rw [run_arrive] at hm
    obtain ⟨l, -, rfl⟩ := List.mem_map.1 hm
    simp [Action.isChoice] at he
  obtain ⟨⟨⟩, a₂, τ₂, xs₂, h₂, hk₂, rfl⟩ := hk₁.of_bind_of_notMem (by simp [run_change])
  obtain ⟨⟨⟩, a₃, τ₃, xs₃, h₃, hk₃, rfl⟩ := hk₂.of_bind_of_notMem (notMem_report rfl he)
  rw [Yields.lift_iff, run_arrive] at h₁
  rw [Yields.lift_iff, run_change] at h₂
  rw [Yields.lift_iff, run_report] at h₃
  obtain ⟨-, rfl, rfl⟩ := Emitted.mk.inj h₁
  obtain ⟨-, rfl, rfl⟩ := Emitted.mk.inj h₂
  obtain ⟨-, rfl, rfl⟩ := Emitted.mk.inj h₃
  rcases hk₃.of_bind with ⟨zs, rest, hs, rfl⟩ | ⟨⟨⟩, a₄, τ₄, xs₄, h₄, hl, -⟩
  · exact ⟨xs₃, zs, rest, hs, rfl, rfl⟩
  · obtain ⟨x, rfl⟩ := native_of_mem_leave hf h₄ hl.mem
    simp [Action.isChoice] at he

/-- Putting parameters in registers is no choice. -/
theorem isChoice_of_mem_takeParams (he : e ∈ (run (takeParams g params) (a.reset (g.tempCount params))).trace) :
    e.isChoice = false := by
  have hroutine := (Routine.takeParams g params (a.reset (g.tempCount params))).2.2 e he
  cases e with
  | load r t =>
    have hevent : .load r t ∈ Action.events (run (takeParams g params) (a.reset (g.tempCount params))).trace :=
      List.mem_filter.2 ⟨he, rfl⟩
    obtain ⟨u, q, hstore, -⟩ := events_takeParams rfl _ hevent
    simp at hstore
  | note n => cases n <;> first | rfl | simp [Action.isRoutine] at hroutine
  | store | native | label | comment => rfl

/-- Allocation comes to the first step of a block from the end of the block before it. -/
theorem yields_toBlock {a₁ a₂ a₃ : Allocator} {τ₁ τ₂ τ₃ τ₄ : List Action} {before : List Block} {b : Block}
    (h₁ : Yields (liftM (change fun s => s.reset (g.tempCount params))) a () a₁ τ₁)
    (h₂ : Yields (liftM (report (.allocating name (g.tempCount params) g.reachable.length))) a₁ () a₂ τ₂)
    (h₃ : Yields (liftM (takeParams g params)) a₂ () a₃ τ₃) (h₄ : Yields (blocks name.exit before) a₃ () a' τ₄) :
    Yields (toBlock g name params before b) a () (enter a') (τ₁ ++ (τ₂ ++ (τ₃ ++ (τ₄ ++
      (b.label.toList.map .label ++ [.note (.entering b.id b.ending b.liveIn)]))))) := by
  unfold toBlock
  simp only [Yields.bind_iff]
  refine ⟨(), a₁, τ₁, _, h₁, ⟨(), a₂, τ₂, _, h₂, ⟨(), a₃, τ₃, _, h₃, ⟨(), a', τ₄, _, h₄, ⟨(), a', _, _, ?_,
    ⟨(), enter a', [], _, ?_, ?_, rfl⟩, rfl⟩, rfl⟩, rfl⟩, rfl⟩, rfl⟩
  · exact Yields.lift_iff.2 (run_arrive b a')
  · exact Yields.lift_iff.2 (run_change a' enter)
  · exact Yields.lift_iff.2 (run_report (enter a') _)

/-- **What allocation emits of choices, a step emits at a point that is reached.** -/
theorem exists_reached (hf : ∀ b ∈ g.reachableBlocks, Formed b.instrs b.ending) (he : e.isChoice = true)
    (h : (a₀.accept g name params).actions = xs ++ e :: ys) :
    ∃ (p : Point g) (pre : List Action) (a : Allocator) (xs' zs rest : List Action), p.Reached name params a₀ pre a ∧
      Emits (step p.step name.exit p.emitted) a xs' e zs ∧ xs = pre ++ xs' ∧ ys = zs ++ rest := by
  replace h : Emits (function g name params) a₀ xs e ys := h
  rw [function_eq] at h
  obtain ⟨⟨⟩, a₁, τ₁, xs₁, h₁, hk₁, rfl⟩ := h.of_bind_of_notMem (by simp [run_change])
  obtain ⟨⟨⟩, a₂, τ₂, xs₂, h₂, hk₂, rfl⟩ := hk₁.of_bind_of_notMem (notMem_report rfl he)
  obtain ⟨-, rfl, -⟩ := Emitted.mk.inj (Yields.lift_iff.1 h₁)
  obtain ⟨-, rfl, -⟩ := Emitted.mk.inj (Yields.lift_iff.1 h₂)
  obtain ⟨⟨⟩, a₃, τ₃, xs₃, h₃, hk₃, rfl⟩ := hk₂.of_bind_of_notMem fun hm => by
    rw [isChoice_of_mem_takeParams hm] at he
    simp at he
  rcases hk₃.of_bind with ⟨zs, rest, hbs, rfl⟩ | ⟨⟨⟩, a₄, τ₄, xs₄, -, hk₄, -⟩
  · obtain ⟨before, b, after, hblocks, a₄, τ₄, xs₄, zs, rest₁, h₄, hb, rfl, rfl⟩ := hbs.of_blocks
    have hbm : b ∈ g.reachableBlocks := hblocks ▸ List.mem_append_right _ List.mem_cons_self
    obtain ⟨xs₅, zs, rest₂, hsteps, rfl, rfl⟩ := hb.of_block (hf b hbm) he
    obtain ⟨done, s, todo, hss, a₆, τ₆, xs₆, zs, rest₃, h₆, hs, rfl, rfl⟩ := hsteps.of_steps
    refine ⟨⟨before, b, after, done, s, todo, hblocks, hss⟩, _, a₆, xs₆, zs, rest₃ ++ (rest₂ ++ (rest₁ ++ rest)),
      ⟨_, _, τ₆, yields_toBlock h₁ h₂ h₃ h₄, h₆, rfl⟩, hs, ?_, ?_⟩
    · simp only [List.append_assoc, List.cons_append, List.nil_append]
    · simp only [List.append_assoc]
  · -- the count of evictions comes last
    obtain ⟨_, a₅, τ₅, xs₅, -, hk₅, -⟩ := hk₄.of_bind_of_notMem (by simp [run_state])
    exact absurd hk₅.mem (notMem_report rfl he)

/-! ### What lies before a point -/

/-- The steps of a block before another one, with their effects. -/
theorem stepsTo_effects {done todo : List Step} {s : Step} (hv : a.Valid)
    (hs : ∀ k ∈ done, k.instr.flow = .straight) (h : Yields (stepsTo exit leaves (s :: todo) done) a () a' τ) :
    a'.Valid ∧ ∃ τs, Effects exit a.regs done τs a'.regs ∧ Action.events τ = τs.flatten := by
  induction done generalizing a τ with
  | nil =>
    obtain ⟨-, rfl, rfl⟩ := Yields.pure_iff.1 h
    exact ⟨hv, [], .nil _, rfl⟩
  | cons k done ih =>
    obtain ⟨hk, hs⟩ := List.forall_mem_cons.1 hs
    have hl : k.instr.leaves = false := by simp [Instr.leaves, hk]
    have hem : (!(leaves && (done ++ s :: todo).isEmpty)) = true := by
      cases done <;> simp
    rw [stepsTo, hem, Yields.bind_iff] at h
    obtain ⟨_, a₁, τ₁, τ₂, h₁, h₂, rfl⟩ := h
    have hv₁ : a₁.Valid := (step_clean hv (fun _ hr => hr) (by rw [hk]; decide) (by rw [hl]; rfl) h₁).valid
    obtain ⟨hv', τs, heffs, hτs⟩ := ih hv₁ hs h₂
    exact ⟨hv', _ :: τs, .cons (step_effect hv hl h₁) heffs, by rw [Action.events_append, hτs, List.flatten_cons]⟩

/-- **What has been emitted when a point is reached**: the stores of parameters, the events of the blocks before it, and
in its block the label and the events of the steps before it. -/
theorem Point.Reached.effects {p : Point g} {pre : List Action} (hv : (a₀.reset (g.tempCount params)).Valid)
    (hf : ∀ b ∈ g.reachableBlocks, Formed b.instrs b.ending) (h : p.Reached name params a₀ pre a) :
    a.Valid ∧ ∃ (υs τs : List (List Action)) (f₁ : RegisterFile),
      BlockEffects name.exit (run (takeParams g params) (a₀.reset (g.tempCount params))).state.regs p.before υs f₁ ∧
      Effects name.exit f₁.resetBlock p.done τs a.regs ∧
      Action.events pre = Action.events (run (takeParams g params) (a₀.reset (g.tempCount params))).trace ++
        (υs.flatten ++ (p.block.label.toList.map .label ++ τs.flatten)) := by
  obtain ⟨a₃, τ, τ₃, h, hsteps, rfl⟩ := h
  obtain ⟨a₁, a₂, τ₁, τ₂, hparams, hblocks, rfl, rfl⟩ := toBlock_parts h
  have hclean : Clean [] (a₀.reset (g.tempCount params)) a₁ τ₁ := (tidy_takeParams hv g params).clean hparams
  have hbefore : ∀ b ∈ p.before, Formed b.instrs b.ending := fun b hb => hf b (p.before_mem hb)
  have hdone : ∀ k ∈ p.done, k.instr.flow = .straight := by
    have hformed := hf p.block p.block_mem
    rw [Block.instrs, p.steps_eq, List.map_append] at hformed
    exact fun k hk => hformed.of_append.1 _ (List.mem_map_of_mem hk)
  obtain ⟨υs, heffs, hυs⟩ := blocks_effects hclean.valid hbefore hblocks
  have hv₂ := blocks_valid hclean.valid hbefore hblocks
  obtain ⟨hv', τs, hsteps, hτs⟩ := stepsTo_effects (valid_enter hv₂) hdone hsteps
  rw [hparams]
  refine ⟨hv', υs, τs, a₂.regs, heffs, hsteps, ?_⟩
  simp only [Action.events_append, Action.events_note, Action.events_label, Action.events_nil, hυs, hτs,
    List.append_nil, List.append_assoc]

end

theorem Tracks.stepsTo (exit : Label) (leaves : Bool) (todo done : List Step) :
    Tracks (stepsTo exit leaves todo done).run := by
  induction done with
  | nil => exact (Routine.pure _).tracks
  | cons s done ih => exact (step s exit _).bindE fun _ => ih

theorem Point.Reached.pool {g : FlowGraph} {p : Point g} {name : Label} {params : List Temp} {a₀ a : Allocator}
    {pre : List Action} (h : p.Reached name params a₀ pre a) : a.regs.pool = a₀.regs.pool := by
  obtain ⟨a₁, τ₁, τ₂, h₁, h₂, -⟩ := h
  obtain ⟨a₂, a₃, τ₃, τ₄, h₃, h₄, rfl, -⟩ := toBlock_parts h₁
  have hparams := (Routine.takeParams g params).tracks (a₀.reset (g.tempCount params))
  rw [h₃] at hparams
  have hblocks := (Tracks.blocks name.exit p.before).tracked h₄
  have hsteps := (Tracks.stepsTo name.exit p.block.last?.isSome (p.step :: p.todo) p.done).tracked h₂
  exact hsteps.pool.trans (hblocks.pool.trans hparams.pool)

end Alloc

end ThreeAddress
