import ThreeAddress.Allocator.Walk
import ThreeAddress.Proofs.Allocator.Choice

/-!
The parts of a successful allocation.  `Yields` says that a computation succeeds, with its value, its final state and
its actions; for steps, blocks and functions it comes apart into the same for their parts, in order.
-/

namespace ThreeAddress

namespace Alloc

/-! ### Computations that may fail -/

/-- From state `a` the computation succeeds with `v`, ends in `a'` and emits `τ`. -/
def Yields {α : Type} (x : AllocE α) (a : Allocator) (v : α) (a' : Allocator) (τ : List Action) : Prop :=
  run x.run a = ⟨.ok v, a', τ⟩

namespace Yields

variable {α β : Type} {a a' : Allocator} {τ : List Action}

theorem lift_iff {x : Alloc α} {v : α} : Yields (liftM x) a v a' τ ↔ run x a = ⟨v, a', τ⟩ := by
  have e : run (ExceptT.run (liftM x : AllocE α)) a = ⟨.ok (run x a).value, (run x a).state, (run x a).trace ++ []⟩ := rfl
  unfold Yields
  rw [e, List.append_nil]
  constructor
  · intro h
    obtain ⟨h1, h2, h3⟩ := Emitted.mk.inj h
    rw [← Except.ok.inj h1, ← h2, ← h3]
  · intro h
    rw [h]

theorem except_iff {x : Except LowerError α} {v : α} :
    Yields (liftM x) a v a' τ ↔ x = .ok v ∧ a' = a ∧ τ = [] := by
  have e : run (ExceptT.run (liftM x : AllocE α)) a = ⟨x, a, []⟩ := rfl
  unfold Yields
  rw [e]
  constructor
  · intro h
    obtain ⟨h1, h2, h3⟩ := Emitted.mk.inj h
    exact ⟨h1, h2.symm, h3.symm⟩
  · rintro ⟨rfl, rfl, rfl⟩
    rfl

theorem pure_iff {v w : α} : Yields (pure v) a w a' τ ↔ v = w ∧ a' = a ∧ τ = [] := by
  have e : run (ExceptT.run (pure v : AllocE α)) a = ⟨.ok v, a, []⟩ := rfl
  unfold Yields
  rw [e]
  constructor
  · intro h
    obtain ⟨h1, h2, h3⟩ := Emitted.mk.inj h
    exact ⟨Except.ok.inj h1, h2.symm, h3.symm⟩
  · rintro ⟨rfl, rfl, rfl⟩
    rfl

theorem bind_iff {x : AllocE α} {f : α → AllocE β} {w : β} :
    Yields (x >>= f) a w a' τ ↔
      ∃ v a₁ τ₁ τ₂, Yields x a v a₁ τ₁ ∧ Yields (f v) a₁ w a' τ₂ ∧ τ = τ₁ ++ τ₂ := by
  unfold Yields
  rw [ExceptT.run_bind, run_bind]
  generalize run x.run a = r
  obtain ⟨v, a₁, τ₁⟩ := r
  cases v with
  | error e =>
    constructor
    · intro h; exact absurd (Emitted.mk.inj h).1 (by simp [run_pure])
    · rintro ⟨v, a₁, τ₁, τ₂, h, -⟩; exact absurd (Emitted.mk.inj h).1 (by simp)
  | ok v =>
    constructor
    · intro h
      obtain ⟨h1, h2, h3⟩ := Emitted.mk.inj h
      exact ⟨v, a₁, τ₁, _, rfl, by rw [← h1, ← h2], h3.symm⟩
    · rintro ⟨v, a₁, τ₁, τ₂, h, h', rfl⟩
      obtain ⟨h1, rfl, rfl⟩ := Emitted.mk.inj h
      cases Except.ok.inj h1
      simp only [h']

end Yields

theorem forM_lift {α : Type} (f : α → Alloc Unit) (l : List α) :
    (l.forM fun x => (liftM (f x) : AllocE Unit)) = liftM (l.forM f) := by
  induction l with
  | nil => rfl
  | cons x l ih =>
    show (liftM (f x) >>= fun _ => l.forM fun x => (liftM (f x) : AllocE Unit)) = liftM (f x >>= fun _ => l.forM f)
    rw [ih, liftM_bind]

/-! ### Steps -/

section

variable {s : Step} {exit : Label} {emitted leaves : Bool} {a a' : Allocator} {τ : List Action}

theorem step_call {dst : Option Operand} {l : Label} {args : List Operand} (hi : s.instr = .call dst l args)
    (h : Yields (step s exit emitted) a () a' τ) :
    ∃ xs d a₁ τ₁ τ₂, callTemps s.instr dst args = .ok (xs, d) ∧ run (call s xs d exit) a = ⟨(), a₁, τ₁⟩ ∧
      run (writeBack s.liveOut) a₁ = ⟨(), a', τ₂⟩ ∧ τ = τ₁ ++ τ₂ := by
  unfold step at h
  simp only [hi, Yields.bind_iff, Yields.lift_iff, Yields.except_iff] at h
  obtain ⟨⟨xs, d⟩, _, _, _, ⟨hc, rfl, rfl⟩, ⟨_, a₁, τ₁, τ₂, h1, h2, rfl⟩, rfl⟩ := h
  exact ⟨xs, d, a₁, τ₁, τ₂, by rw [hi]; exact hc, h1, h2, rfl⟩

theorem step_instruction (hi : s.instr.isCall = false) (h : Yields (step s exit emitted) a () a' τ) :
    ∃ a₁ τ₀ τ₁ τ₂, Action.essential τ₀ = [] ∧ run (instruction s exit emitted) a = ⟨(), a₁, τ₁⟩ ∧
      run (writeBack s.liveOut) a₁ = ⟨(), a', τ₂⟩ ∧ τ = τ₀ ++ τ₁ ++ τ₂ := by
  have key : Yields (do
      (liftM (report (.instruction s.instr)) : AllocE Unit)
      liftM (remark s.instr.text)
      liftM (instruction s exit emitted)
      liftM (writeBack s.liveOut)) a () a' τ := by
    unfold step at h
    cases hs : s.instr <;> simp only [hs] at h ⊢ <;> first | exact h | simp [hs, Instr.isCall] at hi
  simp only [Yields.bind_iff, Yields.lift_iff, run_report, run_remark] at key
  obtain ⟨_, _, _, _, e1, ⟨_, _, _, _, e2, ⟨_, a₁, τ₁, τ₂, h1, h2, rfl⟩, rfl⟩, rfl⟩ := key
  obtain ⟨-, rfl, rfl⟩ := Emitted.mk.inj e1
  obtain ⟨-, rfl, rfl⟩ := Emitted.mk.inj e2
  refine ⟨a₁, [.note (.instruction s.instr)] ++ (if a.comments then [.comment s.instr.text] else []), τ₁, τ₂, ?_,
    h1, h2, by simp only [List.append_assoc]⟩
  rw [Action.essential_append, Action.essential_remark]
  rfl

theorem steps_nil (h : Yields (steps exit leaves []) a () a' τ) : a' = a ∧ τ = [] :=
  (Yields.pure_iff.1 h).2

theorem steps_cons {rest : List Step} (h : Yields (steps exit leaves (s :: rest)) a () a' τ) :
    ∃ a₁ τ₁ τ₂, Yields (step s exit (!(leaves && rest.isEmpty))) a () a₁ τ₁ ∧
      Yields (steps exit leaves rest) a₁ () a' τ₂ ∧ τ = τ₁ ++ τ₂ := by
  rw [steps, Yields.bind_iff] at h
  obtain ⟨_, a₁, τ₁, τ₂, h1, h2, rfl⟩ := h
  exact ⟨a₁, τ₁, τ₂, h1, h2, rfl⟩

end

/-! ### Blocks -/

def enter (a : Allocator) : Allocator := { a with regs := a.regs.resetBlock }

def arrive (b : Block) : Alloc Unit :=
  match b.label with
  | some l => emit (.label l)
  | none => pure ()

def leave (b : Block) (exit : Label) : Alloc Unit :=
  match b.last? with
  | some s => instruction s exit true
  | none => pure ()

section

variable {b : Block} {bs : List Block} {exit : Label} {a a' : Allocator} {τ : List Action}

theorem run_arrive (b : Block) (a : Allocator) : run (arrive b) a = ⟨(), a, b.label.toList.map .label⟩ := by
  unfold arrive
  cases b.label <;> rfl

theorem block_eq (b : Block) (exit : Label) : block b exit = (do
    liftM (arrive b)
    liftM (change enter)
    liftM (report (.entering b.id b.ending b.liveIn))
    steps exit b.last?.isSome b.steps
    liftM (leave b exit)) := by
  unfold block arrive leave
  cases b.label <;> cases b.last? <;> rfl

/-- A block: its label, its steps from empty registers, and the code that leaves it. -/
theorem block_parts (h : Yields (block b exit) a () a' τ) :
    ∃ a₁ τ₁ τ₂, Yields (steps exit b.last?.isSome b.steps) (enter a) () a₁ τ₁ ∧
      run (leave b exit) a₁ = ⟨(), a', τ₂⟩ ∧
      τ = b.label.toList.map .label ++ .note (.entering b.id b.ending b.liveIn) :: (τ₁ ++ τ₂) := by
  rw [block_eq] at h
  simp only [Yields.bind_iff, Yields.lift_iff, run_arrive, run_change, run_report] at h
  obtain ⟨_, _, _, _, e1, ⟨_, _, _, _, e2, ⟨_, _, _, _, e3, ⟨_, a₁, τ₁, τ₂, h1, h2, rfl⟩, rfl⟩, rfl⟩, rfl⟩ := h
  obtain ⟨-, rfl, rfl⟩ := Emitted.mk.inj e1
  obtain ⟨-, rfl, rfl⟩ := Emitted.mk.inj e2
  obtain ⟨-, rfl, rfl⟩ := Emitted.mk.inj e3
  exact ⟨a₁, τ₁, τ₂, h1, h2, rfl⟩

theorem blocks_nil (h : Yields (blocks exit []) a () a' τ) : a' = a ∧ τ = [] :=
  (Yields.pure_iff.1 h).2

theorem blocks_cons (h : Yields (blocks exit (b :: bs)) a () a' τ) :
    ∃ a₁ τ₁ τ₂, Yields (block b exit) a () a₁ τ₁ ∧ Yields (blocks exit bs) a₁ () a' τ₂ ∧ τ = τ₁ ++ τ₂ := by
  rw [blocks, Yields.bind_iff] at h
  obtain ⟨_, a₁, τ₁, τ₂, h1, h2, rfl⟩ := h
  exact ⟨a₁, τ₁, τ₂, h1, h2, rfl⟩

end

/-! ### Functions -/

def entryLive (g : FlowGraph) : TempSet :=
  match g.blocks.head? with
  | some b => b.liveIn
  | none => ∅

/-- The parameters that come in registers are there, and are stored if they are needed. -/
def takeParams (g : FlowGraph) (params : List Temp) : Alloc Unit := do
  (params.zip Reg.params).forM fun p => assign p.1 p.2
  writeBack (entryLive g)

section

variable {g : FlowGraph} {name : Label} {params : List Temp} {a a' : Allocator} {τ : List Action}

/-- A function once the state is reset and its start reported: the parameters, the blocks, and the evictions. -/
def afterReset (g : FlowGraph) (name : Label) (params : List Temp) : AllocE Unit := do
  liftM (takeParams g params)
  blocks name.exit g.reachableBlocks
  let a ← (liftM state : AllocE Allocator)
  liftM (report (.spills name a.spills))

theorem function_eq (g : FlowGraph) (name : Label) (params : List Temp) : function g name params = (do
    liftM (change fun s => s.reset (g.tempCount params))
    liftM (report (.allocating name (g.tempCount params) g.reachable.length))
    liftM (takeParams g params)
    blocks name.exit g.reachableBlocks
    let a ← (liftM state : AllocE Allocator)
    liftM (report (.spills name a.spills))) := by
  unfold function takeParams entryLive
  rw [liftM_bind, ← forM_lift]
  simp only [bind_assoc]
  cases g.blocks.head? <;> rfl

theorem function_eq_afterReset (g : FlowGraph) (name : Label) (params : List Temp) : function g name params = (do
    liftM (change fun s => s.reset (g.tempCount params))
    liftM (report (.allocating name (g.tempCount params) g.reachable.length))
    afterReset g name params) :=
  function_eq g name params

/-- A function: its parameters, then its blocks. -/
theorem function_parts (h : Yields (function g name params) a () a' τ) :
    ∃ a₁ τ₁ τ₂, run (takeParams g params) (a.reset (g.tempCount params)) = ⟨(), a₁, τ₁⟩ ∧
      Yields (blocks name.exit g.reachableBlocks) a₁ () a' τ₂ ∧
      τ = .note (.allocating name (g.tempCount params) g.reachable.length) ::
        (τ₁ ++ (τ₂ ++ [.note (.spills name a'.spills)])) := by
  rw [function_eq] at h
  simp only [Yields.bind_iff, Yields.lift_iff, run_change, run_report, run_state] at h
  obtain ⟨_, _, _, _, e1, ⟨_, _, _, _, e2, ⟨_, a₁, τ₁, _, h1, ⟨_, a₂, τ₂, _, h2,
    ⟨_, _, _, _, e4, e5, rfl⟩, rfl⟩, rfl⟩, rfl⟩, rfl⟩ := h
  obtain ⟨-, rfl, rfl⟩ := Emitted.mk.inj e1
  obtain ⟨-, rfl, rfl⟩ := Emitted.mk.inj e2
  obtain ⟨rfl, rfl, rfl⟩ := Emitted.mk.inj e4
  obtain ⟨-, rfl, rfl⟩ := Emitted.mk.inj e5
  exact ⟨a₁, τ₁, τ₂, h1, h2, rfl⟩

end

end Alloc

end ThreeAddress
