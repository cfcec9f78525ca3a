import ThreeAddress.Proofs.Allocator.Named
import ThreeAddress.Proofs.FlowGraph.Reach
import ThreeAddress.Proofs.Simulation.Actions

/-!
The code of a function and the function.  Where the code of a function stands in a program whose labels are set once, a
run of the function's instructions carries over to the machine: every property of runs that is closed under the next
line and holds where the function returns, with its value in the result register, holds where it is entered
(`Lowered.simulates`).  The instructions may name registers to be written, if these hold nothing that is needed
afterwards (`Func.Sparing`).

The proof follows the run of the flow graph.  Between instructions, the state is in a block with some steps to do
(`InBlock`); between blocks, it is where the code of the next block starts (`AtBlock`).
-/

namespace ThreeAddress

open Alloc

/-- What is asked of a function whose instructions may name registers: registers are named only to be written, they are
allocatable, and they hold nothing then that is needed afterwards. -/
structure Func.Sparing (f : Func) (o : Options) : Prop where
  srcs : ∀ i ∈ f.instrs, ∀ op ∈ i.srcs, op.reg? = none
  named : ∀ r ∈ f.named, r ∈ Reg.allocatable
  spares : f.Spares o

namespace Lowered

variable {f : Func} {o : Options} (p : Lowered f o)

abbrev flow : FlowGraph := p.graph.withLiveness

def tail : List Asm := .label f.name.exit :: (p.frame.closing ++ [.ret])

/-- The code of the function stands in the program at `base`, and labels are set once. -/
structure Placed (P : List Asm) (base : Nat) : Prop where
  code : At P base p.code
  labels : (P.filterMap Asm.label?).Nodup

/-- From state `a`, allocation for the blocks from `u` on takes the actions `τ`, and their code stands at `q`. -/
structure Located (P : List Asm) (u q : Nat) (a : Allocator) (τ : List Action) : Prop where
  valid : a.Valid
  yields : ∃ a', Yields (blocks f.name.exit (p.flow.blocksFrom u)) a () a' τ
  mem : ∀ α ∈ τ, α ∈ p.actions
  spares : ∀ q ∈ blockStates f.name.exit (p.flow.blocksFrom u) a, q.1.Spares q.2
  code : At P q (p.codeOf τ ++ p.tail)

theorem parts : ∃ a τ₀ τ,
    run (takeParams p.flow f.params) ((Allocator.ofOptions o).reset (p.flow.tempCount f.params)) = ⟨(), a, τ₀⟩ ∧
    Yields (blocks f.name.exit p.flow.reachableBlocks) a () p.final τ ∧ p.body = p.codeOf τ₀ ++ p.codeOf τ ∧
    (∀ α ∈ τ₀, α ∈ p.actions) ∧ ∀ α ∈ τ, α ∈ p.actions := by
  obtain ⟨a, τ₀, τ, h₀, h, hτ⟩ := function_parts p.yields
  refine ⟨a, τ₀, τ, h₀, h, ?_, fun α hα => ?_, fun α hα => ?_⟩
  · rw [body, hτ]
    simp [codeOf, Action.code]
  · rw [hτ]
    exact List.mem_cons_of_mem _ (List.mem_append_left _ hα)
  · rw [hτ]
    exact List.mem_cons_of_mem _ (List.mem_append_right _ (List.mem_append_left _ hα))

theorem states_eq {a : Allocator} {τ₀ : List Action}
    (h₀ : run (takeParams p.flow f.params) ((Allocator.ofOptions o).reset (p.flow.tempCount f.params)) = ⟨(), a, τ₀⟩) :
    f.states o = blockStates f.name.exit p.flow.reachableBlocks a := by
  simp only [Func.states, p.isGraph]
  rw [h₀]

/-- A function that names no registers spares all. -/
theorem sparing_of_tempsOnly (p : Lowered f o) (ht : f.TempsOnly) : f.Sparing o where
  srcs := fun i hi op hop => ht i hi op (List.mem_append_left _ hop)
  named := by simp [Func.named_of_tempsOnly ht]
  spares := by
    obtain ⟨a, τ₀, τ, h₀, -⟩ := p.parts
    unfold Func.Spares
    rw [p.states_eq h₀]
    intro q hq r hr
    obtain ⟨b, hb, hs⟩ := mem_blockStates hq
    have hi := (instr_mem_of_reachable p.describes hb).2 _ (List.mem_map_of_mem hs)
    simp [Instr.named_of_tempsOnly (ht _ hi)] at hr

variable {p} {P : List Asm} {base : Nat}

theorem Placed.exists_located (hP : p.Placed P base) (hsp : f.Spares o) (u : Nat) :
    ∃ q a τ, p.Located P u q a τ := by
  obtain ⟨a₀, τ₀, τ, h₀, h, hbody, -, hmem⟩ := p.parts
  obtain ⟨bs, hbs⟩ := p.flow.exists_append_blocksFrom u
  have hclean : Clean [] _ a₀ τ₀ := (tidy_takeParams (valid_reset_ofOptions o _) p.flow f.params).clean h₀
  rw [hbs, blocks_append] at h
  obtain ⟨_, a, τ₁, τ₂, h₁, h₂, rfl⟩ := Yields.bind_iff.1 h
  have hformed : ∀ b ∈ bs, Formed b.instrs b.ending := fun b hb => (p.names b (hbs ▸ List.mem_append_left _ hb)).formed
  have hcode := hP.code
  rw [Lowered.code, hbody, codeOf, codeOf, List.flatMap_append, List.append_assoc, List.append_assoc] at hcode
  unfold Func.Spares at hsp
  rw [p.states_eq h₀, hbs, blockStates_append h₁] at hsp
  exact ⟨_, a, τ₂, blocks_valid hclean.valid hformed h₁, ⟨p.final, h₂⟩,
    fun α hα => hmem α (List.mem_append_right _ hα), fun q hq => hsp q (List.mem_append_right _ hq),
    hcode.append.2.append.2.append.2⟩

theorem Placed.exit (hP : p.Placed P base) : ∃ q, Asm.place? P f.name.exit = some q ∧ At P q p.tail := by
  have hcode := hP.code.append.2.append.2
  exact ⟨_, Asm.place?_eq_some hP.labels hcode.cons.1, hcode⟩

/-! ### Leaving the function -/

variable {W : Machine → List Call → Prop} {e s : Machine} {T : List Call}

theorem sim_exit (hW : Closed P W) (hat : At P s.pc p.tail) (hf : InFrameBut f.named e p.frame f.params.length s)
    (h : ∀ s' : Machine, P[s'.pc]? = some .ret → RestoredBut f.named e f.params.length s' →
      s'.word .a0 = s.word .a0 → W s' T) : W s T := by
  obtain ⟨hlabel, hat⟩ := hat.cons
  obtain ⟨hclose, hret⟩ := hat.append
  obtain ⟨hback, hget⟩ := (hf.jump (s.pc + 1)).closing fun r hr => (p.mem_saved_frame.1 hr).1
  refine hW.exec hlabel rfl (hW.lines p.frame.isStraight_closing hclose (h _ ?_ hback ?_))
  · rw [Machine.pc_lines _ p.frame.isStraight_closing]
    exact hret.cons.1
  · exact congrArg (BitVec.ofInt 32) (hget .a0 (by decide))

/-! ### Between blocks and between instructions -/

variable (p)

/-- In state `s`, control is where the code of block `u` starts, with the values `E`; after the last block, at the
exit label. -/
inductive AtBlock (P : List Asm) (e : Machine) (u : Nat) (E : Env) (s : Machine) : Prop
  | mk {a : Allocator} {τ : List Action} {σ : Cells} (located : p.Located P u s.pc a τ) (body : p.InBody e s σ)
      (kept : ∀ b, p.flow.blocks[u]? = some b → Kept b.liveIn E σ)

/-- From state `a`, allocation for the rest of block `u` takes the actions `τ₁` for its steps `todo` and `τ₂` to leave
it; the code of them and of the blocks after it stands at `q`. -/
structure Ahead (P : List Asm) (u : Nat) (b : Block) (todo : List Step) (a : Allocator) (q : Nat) (a₁ a₂ : Allocator)
    (τ₁ τ₂ τ₃ : List Action) : Prop where
  steps : Yields (steps f.name.exit b.last?.isSome todo) a () a₁ τ₁
  leave : run (leave b f.name.exit) a₁ = ⟨(), a₂, τ₂⟩
  rest : ∃ a', Yields (blocks f.name.exit (p.flow.blocksFrom (u + 1))) a₂ () a' τ₃
  mem : ∀ α ∈ τ₁ ++ (τ₂ ++ τ₃), α ∈ p.actions
  spares : ∀ q ∈ stepStates f.name.exit b.last?.isSome todo a ++ blockStates f.name.exit (p.flow.blocksFrom (u + 1)) a₂,
    q.1.Spares q.2
  code : At P q (p.codeOf τ₁ ++ (p.codeOf τ₂ ++ (p.codeOf τ₃ ++ p.tail)))

/-- In state `s`, control is in block `u` before its steps `todo`, with the values `E`. -/
inductive InBlock (P : List Asm) (e : Machine) (u : Nat) (todo : List Step) (E : Env) (s : Machine) : Prop
  | mk {b : Block} {a a₁ a₂ : Allocator} {τ₁ τ₂ τ₃ : List Action} {σ : Cells} (block : p.flow.blocks[u]? = some b)
      (reach : u ∈ p.flow.reachable) (suffix : todo <:+ b.steps) (formed : Formed (todo.map Step.instr) b.ending)
      (chained : Step.Chained b.liveOut todo) (ahead : p.Ahead P u b todo a s.pc a₁ a₂ τ₁ τ₂ τ₃)
      (synced : Synced a (E.only (Step.before b.liveOut todo)) (Step.before b.liveOut todo) σ) (body : p.InBody e s σ)

variable {p} {u : Nat} {E E' : Env} {b : Block} {s₀ : Step} {todo : List Step}

theorem names_of_mem (hu : u ∈ p.flow.reachable) (hb : p.flow.blocks[u]? = some b) : Names f.named p.targets b :=
  p.names b (List.mem_filterMap.2 ⟨u, hu, hb⟩)

theorem srcs_of_mem (ht : f.Sparing o) (hu : u ∈ p.flow.reachable) (hb : p.flow.blocks[u]? = some b)
    (hs : s₀ ∈ b.steps) : ∀ op ∈ s₀.instr.srcs, op.reg? = none :=
  ht.srcs _ ((instr_mem_of_reachable p.describes (List.mem_filterMap.2 ⟨u, hu, hb⟩)).2 _ (List.mem_map_of_mem hs))

theorem performs_of_permits {α : Action} (hm : α ∈ p.actions) {a : Allocator} (h : a.Permits f.named α) :
    p.Performs α := by
  refine ⟨hm, ?_⟩
  rcases p.labelled.permits α hm with hp | ⟨l, -, hj⟩ | ⟨l, rfl⟩
  · exact hp
  · cases α with
    | native x => cases x <;> first | exact absurd h id | simp [Action.target?, Asm.target?] at hj
    | _ => simp [Action.target?] at hj
  · exact absurd h id

/-- The label of a block, and the state before its steps. -/
theorem sim_enter (hW : Closed P W) (hu : u ∈ p.flow.reachable) (hb : p.flow.blocks[u]? = some b)
    (hat : p.AtBlock P e u E s) (h : ∀ s' : Machine, p.InBlock P e u b.steps E s' → W s' T) : W s T := by
  obtain ⟨⟨hv, ⟨a', hy⟩, hmem, hspares, hcode⟩, hbody, hkept⟩ := hat
  rename_i a τ σ
  rw [p.flow.blocksFrom_of_mem hu hb] at hspares
  rw [p.flow.blocksFrom_of_mem hu hb] at hy
  obtain ⟨a₂, τ', τ₃, hblock, hrest, rfl⟩ := blocks_cons hy
  rw [blockStates_cons hblock] at hspares
  obtain ⟨a₁, τ₁, τ₂, hsteps, hleave, rfl⟩ := block_parts hblock
  have hsync : Synced (enter a) (E.only (Step.before b.liveOut b.steps)) (Step.before b.liveOut b.steps) σ := by
    refine ⟨valid_enter hv, fun t r v hbt => ?_, Kept.only ?_⟩
    · simp [enter] at hbt
    · rw [p.settled.before hu hb]
      exact hkept b hb
  have hin : ∀ s' : Machine, p.InBody e s' σ →
      At P s'.pc (p.codeOf τ₁ ++ (p.codeOf τ₂ ++ (p.codeOf τ₃ ++ p.tail))) → p.InBlock P e u b.steps E s' := by
    intro s' hb' hat'
    refine ⟨hb, hu, List.suffix_refl _, (names_of_mem hu hb).formed, p.settled.chained hu hb,
      ⟨hsteps, hleave, ⟨a', hrest⟩, fun α hα => hmem α ?_, hspares, hat'⟩, hsync, hb'⟩
    simp only [List.mem_append, List.mem_cons] at hα ⊢
    rcases hα with hα | hα | hα <;> simp [hα]
  cases hl : b.label with
  | none =>
    refine h s (hin s hbody ?_)
    simpa [codeOf, Action.code, hl] using hcode
  | some l =>
    have hcode' : At P s.pc (.label l :: (p.codeOf τ₁ ++ (p.codeOf τ₂ ++ (p.codeOf τ₃ ++ p.tail)))) := by
      simpa [codeOf, Action.code, hl] using hcode
    exact hW.exec hcode'.cons.1 rfl (h _ (hin _ (hbody.jump _) hcode'.cons.2))

/-! ### Steps -/

/-- A step of a block, up to its write-backs. -/
theorem sim_step_actions (hW : Closed P W) (ht : f.Sparing o) {a a₁ a₂ : Allocator} {τ₁ τ₂ τ₃ : List Action} {σ : Cells}
    {evs : List Call} (hb : p.flow.blocks[u]? = some b) (hu : u ∈ p.flow.reachable) (hsuf : s₀ :: todo <:+ b.steps)
    (hf : Formed ((s₀ :: todo).map Step.instr) b.ending) (hch : Step.Chained b.liveOut (s₀ :: todo))
    (ha : p.Ahead P u b (s₀ :: todo) a s.pc a₁ a₂ τ₁ τ₂ τ₃)
    (hs : Synced a (E.only (Step.before b.liveOut (s₀ :: todo))) (Step.before b.liveOut (s₀ :: todo)) σ)
    (hbody : p.InBody e s σ) (hadv : s₀.instr.Advances E evs E')
    (h : ∀ (s' : Machine) (σ' : Cells) (a' : Allocator) (τ : List Action), p.Ahead P u b todo a' s'.pc a₁ a₂ τ τ₂ τ₃ →
      Synced a' (E'.only (Step.before b.liveOut todo)) (Step.before b.liveOut todo) σ' → p.InBody e s' σ' →
      (s₀.instr.leaves = true → ∀ t v, s₀.instr.srcs = [.temp t] → E t = some v →
        ∃ r, a'.regs.binding? t = some r ∧ σ'.reg r = v) → W s' T) : W s (evs ++ T) := by
  have hnames := names_of_mem hu hb
  have hs₀ : s₀ ∈ b.steps := hsuf.subset List.mem_cons_self
  obtain ⟨hsteps, hleave, hrest, hmem, hspares, hcode⟩ := ha
  obtain ⟨a', τ, τ', hstep, hsteps', rfl⟩ := steps_cons hsteps
  rw [stepStates_cons hstep, List.cons_append, List.forall_mem_cons] at hspares
  obtain ⟨hlive, hout, -⟩ := hch
  replace hf : Formed (s₀.instr :: todo.map Step.instr) b.ending := hf
  have hem : (!(b.last?.isSome && todo.isEmpty)) = !s₀.instr.leaves := by
    rw [Block.isSome_last? hnames.formed, hf.leaves_eq, List.isEmpty_map]
  have hclean := step_clean hs.valid (hnames.regs _ (List.mem_map_of_mem hs₀)) (hf.flow_ne_label List.mem_cons_self) hem
    hstep
  rw [codeOf, List.flatMap_append, List.append_assoc] at hcode
  obtain ⟨hat, hat'⟩ := hcode.append
  have hperf : ∀ α ∈ τ, p.Performs α := fun α hα => performs_of_permits (hmem α (by simp [hα])) (hclean.permits α hα)
  refine sim_actions hW ht.named hperf hat hbody
    (step_follows hs hlive (srcs_of_mem ht hu hb hs₀) hem hadv hstep hspares.1) ?_
  rintro s' σ' T' hpc hb' ⟨rfl, hs', hbound⟩
  refine h s' σ' a' τ' ⟨hsteps', hleave, hrest, fun α hα => hmem α ?_, hspares.2, by rw [hpc]; exact hat'⟩
    (hout ▸ hs') hb' hbound
  simp only [List.mem_append] at hα ⊢
  rcases hα with hα | hα | hα <;> simp [hα]

/-- An instruction that passes control on. -/
theorem sim_step (hW : Closed P W) (ht : f.Sparing o) (hin : p.InBlock P e u (s₀ :: todo) E s)
    (hflow : s₀.instr.flow = .straight) {evs : List Call} (hadv : s₀.instr.Advances E evs E')
    (h : ∀ s' : Machine, p.InBlock P e u todo E' s' → W s' T) : W s (evs ++ T) := by
  obtain ⟨hb, hu, hsuf, hf, hch, ha, hs, hbody⟩ := hin
  refine sim_step_actions hW ht hb hu hsuf hf hch ha hs hbody hadv fun s' σ' a' τ ha' hs' hb' _ => h s' ?_
  refine ⟨hb, hu, (List.suffix_cons s₀ todo).trans hsuf, ?_, hch.2.2, ha', hs', hb'⟩
  rcases Formed.of_cons hf with ⟨-, hf'⟩ | ⟨-, hl, -⟩
  · exact hf'
  · simp [Instr.leaves, hflow] at hl

variable (p) in
/-- Control is before the instructions `is` of block `u`, or at the exit label. -/
inductive Ready (P : List Asm) (e : Machine) (u : Nat) (is : List Instr) (E : Env) (s : Machine) : Prop
  | inBlock (todo : List Step) : todo.map Step.instr = is → p.InBlock P e u todo E s → Ready P e u is E s
  | atExit : u = p.flow.blocks.length → is = [] → p.AtBlock P e u E s → Ready P e u is E s

theorem Ready.cons {i : Instr} {is : List Instr} (h : p.Ready P e u (i :: is) E s) :
    ∃ s₀ rest, s₀.instr = i ∧ rest.map Step.instr = is ∧ p.InBlock P e u (s₀ :: rest) E s := by
  cases h with
  | atExit _ hnil => simp at hnil
  | inBlock todo hmap hin =>
    obtain ⟨s₀, rest, rfl, hi, hrest⟩ := List.map_eq_cons_iff.1 hmap
    exact ⟨s₀, rest, hi, hrest, hin⟩

variable (p) in
/-- Before the code of an instruction `i` that leaves block `u`, with its operands in the registers `rs`. -/
structure Leaving (P : List Asm) (e : Machine) (u : Nat) (i : Instr) (E : Env) (ws : List Word) (rs : List Reg)
    (s : Machine) (σ : Cells) : Prop where
  reach : u ∈ p.flow.reachable
  code : At P s.pc (i.select [] rs f.name.exit)
  next : ∃ a τ, p.Located P (u + 1) (s.pc + (i.select [] rs f.name.exit).length) a τ
  body : p.InBody e s σ
  values : ∀ x, ws = [x] → ∃ r, rs = [r] ∧ s.word r = x
  kept : ∃ b, p.flow.blocks[u]? = some b ∧ b.ending = .ofFlow i.flow ∧ Kept b.liveOut E σ

/-- An instruction that leaves its block, up to its own code. -/
theorem sim_leaving (hW : Closed P W) (ht : f.Sparing o) {i : Instr} (hready : p.Ready P e u [i] E s)
    (hl : i.leaves = true) {ws : List Word} (hread : E.readAll i.srcs = some ws)
    (h : ∀ (s' : Machine) (σ : Cells) (rs : List Reg), p.Leaving P e u i E ws rs s' σ → W s' T) : W s T := by
  obtain ⟨s₀, rest, rfl, hrest, hin⟩ := hready.cons
  cases List.map_eq_nil_iff.1 hrest
  obtain ⟨hb, hu, hsuf, hf, hch, ha, hs, hbody⟩ := hin
  rename_i b a a₁ a₂ τ₁ τ₂ τ₃ σ
  have htemps := tempsOnly_of_leaves hl (srcs_of_mem ht hu hb (hsuf.subset List.mem_cons_self))
  show W s ([] ++ T)
  refine sim_step_actions hW ht hb hu hsuf hf hch ha hs hbody (.leaves hl hread) ?_
  intro s' σ' a' τ ha' hs' hb' hbound
  obtain ⟨rfl, rfl⟩ := steps_nil ha'.steps
  -- the operand, if there is one, has a value and is in a register with that value
  have hvalue : ∀ t, s₀.instr.srcs = [.temp t] → ∃ v r, ws = [v] ∧ a₁.regs.binding? t = some r ∧ σ'.reg r = v := by
    intro t hsrc
    rw [hsrc] at hread
    obtain ⟨v, ys, hv, hys, rfl⟩ := Env.readAll_cons hread
    cases Option.some.inj hys
    obtain ⟨r, hr⟩ := hbound hl t v hsrc hv
    exact ⟨v, r, rfl, hr⟩
  have hlast : b.last? = some s₀ := by
    obtain ⟨done, hdone⟩ := hsuf
    have hsome : b.last?.isSome = true := by
      have hf' : Formed (s₀.instr :: []) b.ending := hf
      rw [Block.isSome_last? (names_of_mem hu hb).formed]
      simpa [hl] using hf'.leaves_eq
    obtain ⟨s₁, hs₁⟩ := Option.isSome_iff_exists.1 hsome
    have hg := getLast?_of_last? hs₁
    rw [← hdone, List.getLast?_concat] at hg
    rw [hs₁, ← hg]
  obtain ⟨rs, hrun, hrs⟩ := run_instruction_leaves hl htemps
    (fun t hsrc => let ⟨_, r, _, hr, _⟩ := hvalue t hsrc; ⟨r, hr⟩) f.name.exit
  have hleave := ha'.leave
  unfold Alloc.leave at hleave
  simp only [hlast, hrun] at hleave
  obtain ⟨-, rfl, rfl⟩ := Emitted.mk.inj hleave
  have hsel : p.codeOf ((s₀.instr.select [] rs f.name.exit).map .native) = s₀.instr.select [] rs f.name.exit := by
    rw [codeOf, List.flatMap_map]
    exact List.flatMap_singleton' _
  have hcode : At P s'.pc (s₀.instr.select [] rs f.name.exit ++ (p.codeOf τ₃ ++ p.tail)) := by
    rw [← hsel]
    exact ha'.code
  refine h s' σ' rs ⟨hu, hcode.append.1, ⟨_, τ₃, hs'.valid, ha'.rest, fun α hα => ha'.mem α (by simp [hα]), ha'.spares,
    hcode.append.2⟩, hb', fun x hx => ?_, b, hb, ?_, hs'.kept.of_only⟩
  · subst hx
    rcases (srcs_of_leaves hl htemps).2 with hnil | ⟨t, hsrc⟩
    · rw [hnil] at hread
      simp [Env.readAll] at hread
    · obtain ⟨r, rfl, hbt⟩ := hrs t hsrc
      obtain ⟨v, q, hv, hq, hqv⟩ := hvalue t hsrc
      cases Option.some.inj (hbt.symm.trans hq)
      exact ⟨r, rfl, hb'.shown.reg ▸ (hqv.trans (List.cons.inj hv).1.symm)⟩
  · rcases Formed.of_cons hf with ⟨hflow, -⟩ | ⟨-, -, hend⟩
    · simp [Instr.leaves, hflow] at hl
    · exact hend

/-! ### From block to block -/

/-- What is live where a block starts is live where control comes from. -/
theorem kept_of_edge (hu : u ∈ p.flow.reachable) (hb : p.flow.blocks[u]? = some b) {σ : Cells}
    (hk : Kept b.liveOut E σ) {w : Nat} (he : (u, w) ∈ p.flow.edges) :
    ∀ c, p.flow.blocks[w]? = some c → Kept c.liveIn E σ :=
  fun _ hc _ _ ht hE => hk (p.settled.flows hu hb he hc _ ht) hE

theorem AtBlock.of_jump (hP : p.Placed P base) (hsp : f.Spares o) {i : Instr} {ws : List Word} {rs : List Reg}
    {σ : Cells} (hlv : p.Leaving P e u i E ws rs s σ) {w : Nat} {c : Block} {l : Label} (he : (u, w) ∈ p.flow.edges)
    (hc : p.flow.blocks[w]? = some c) (hl : c.label = some l) :
    ∃ q, Asm.place? P l = some q ∧ p.AtBlock P e w E { s with pc := q } := by
  obtain ⟨q, a, τ, hloc⟩ := hP.exists_located hsp w
  have hw := FlowGraph.reachable_closed hlv.reach he (List.getElem?_eq_some_iff.1 hc).1
  have hline : P[q]? = some (.label l) := by
    obtain ⟨a', hy⟩ := hloc.yields
    rw [p.flow.blocksFrom_of_mem hw hc] at hy
    obtain ⟨a₂, τ', τ₃, hblock, -, rfl⟩ := blocks_cons hy
    obtain ⟨a₁, τ₁, τ₂, -, -, rfl⟩ := block_parts hblock
    have hcode := hloc.code
    rw [hl] at hcode
    exact hcode.cons.1
  obtain ⟨b, hb, -, hk⟩ := hlv.kept
  exact ⟨q, Asm.place?_eq_some hP.labels hline, hloc, hlv.body.jump q, kept_of_edge hlv.reach hb hk he⟩

/-- Where control passes on from block `u`, either the next block is reachable or there is none. -/
theorem reachable_next (hu : u ∈ p.flow.reachable) (hb : p.flow.blocks[u]? = some b)
    (hend : b.ending = .fallsThrough ∨ b.ending = .branches) :
    (u + 1 ∈ p.flow.reachable ∧ (u, u + 1) ∈ p.flow.edges) ∨ u + 1 = p.flow.blocks.length := by
  have hlt := (List.getElem?_eq_some_iff.1 hb).1
  by_cases hn : u + 1 < p.flow.blocks.length
  · have he := p.describes.next hb hend hn
    exact .inl ⟨FlowGraph.reachable_closed hu he hn, he⟩
  · exact .inr (by omega)

theorem AtBlock.of_next (hu : u ∈ p.flow.reachable) (hb : p.flow.blocks[u]? = some b)
    (hend : b.ending = .fallsThrough ∨ b.ending = .branches) {a : Allocator} {τ : List Action} {σ : Cells}
    (hloc : p.Located P (u + 1) s.pc a τ) (hbody : p.InBody e s σ) (hk : Kept b.liveOut E σ) :
    p.AtBlock P e (u + 1) E s := by
  refine ⟨hloc, hbody, fun c hc => ?_⟩
  rcases reachable_next hu hb hend with ⟨-, he⟩ | hn
  · exact kept_of_edge hu hb hk he c hc
  · have := (List.getElem?_eq_some_iff.1 hc).1
    omega

theorem sim_arrive (hW : Closed P W) (hu : u ∈ p.flow.reachable ∨ u = p.flow.blocks.length)
    (hat : p.AtBlock P e u E s) (h : ∀ s' : Machine, p.Ready P e u (p.flow.instrsAt u) E s' → W s' T) : W s T := by
  cases hb : p.flow.blocks[u]? with
  | some b =>
    have hreach : u ∈ p.flow.reachable := by
      rcases hu with hu | hu
      · exact hu
      · have := (List.getElem?_eq_some_iff.1 hb).1
        omega
    refine sim_enter hW hreach hb hat fun s' hin => h s' (.inBlock b.steps ?_ hin)
    rw [FlowGraph.instrsAt, hb]
    rfl
  | none =>
    have hlen : u = p.flow.blocks.length := by
      rcases hu with hu | hu
      · have := (FlowGraph.mem_reachable.1 hu).1
        rw [List.getElem?_eq_none_iff] at hb
        omega
      · exact hu
    exact h s (.atExit hlen (by rw [FlowGraph.instrsAt, hb]; rfl) hat)

/-! ### Runs -/

theorem sim_goto_exit (hW : Closed P W) (hP : p.Placed P base) (hat : P[s.pc]? = some (.j f.name.exit))
    (hf : InFrameBut f.named e p.frame f.params.length s)
    (h : ∀ s' : Machine, P[s'.pc]? = some .ret → RestoredBut f.named e f.params.length s' →
      s'.word .a0 = s.word .a0 → W s' T) : W s T := by
  obtain ⟨q, hq, hat'⟩ := hP.exit
  have hx : s.exec? P (.j f.name.exit) = some { s with pc := q } := by rw [Machine.exec?, hq]; rfl
  exact hW.exec hat hx (sim_exit hW hat' (hf.jump q) h)

theorem sim_value (hW : Closed P W) (hP : p.Placed P base) {r : Reg} {op : Operand}
    (hat : At P s.pc ((Instr.ret (some op)).select [] [r] f.name.exit))
    (hf : InFrameBut f.named e p.frame f.params.length s)
    (h : ∀ s' : Machine, P[s'.pc]? = some .ret → RestoredBut f.named e f.params.length s' →
      s'.word .a0 = s.word r → W s' T) : W s T := by
  rw [Instr.select] at hat
  split at hat
  · rename_i hr
    subst hr
    exact sim_goto_exit hW hP hat.cons.1 hf h
  · obtain ⟨hmv, hj⟩ := hat.cons
    have hw : p.frame.MayWrite .a0 := ⟨by decide, fun hc => absurd hc (by decide)⟩
    refine hW.exec hmv rfl (sim_goto_exit hW hP hj.cons.1 ((hf.set (.inr hw) _).jump _) fun s' hret hback ha0 => ?_)
    refine h s' hret hback (ha0.trans ?_)
    have hset := congrFun (s.word_set .a0 (RegOp.mv.eval (s.word r)).toInt) .a0
    rw [Reg.write_self _ (by decide), BitVec.ofInt_toInt] at hset
    exact hset

theorem sim_goto (hW : Closed P W) (hP : p.Placed P base) (hsp : f.Spares o) {i : Instr} {ws : List Word}
    {rs : List Reg} {σ : Cells} (hlv : p.Leaving P e u i E ws rs s σ) {w : Nat} {c : Block} {l : Label}
    (he : (u, w) ∈ p.flow.edges) (hc : p.flow.blocks[w]? = some c) (hl : c.label = some l) {a : Asm}
    (hat : P[s.pc]? = some a) (hx : s.exec? P a = (Asm.place? P l).map fun q => { s with pc := q })
    (h : ∀ s' : Machine, p.Ready P e w c.instrs E s' → W s' T) : W s T := by
  obtain ⟨q, hq, hblock⟩ := AtBlock.of_jump hP hsp hlv he hc hl
  rw [hq] at hx
  refine hW.exec hat hx (sim_arrive hW (.inl ?_) hblock fun s' hr => h s' ?_)
  · exact FlowGraph.reachable_closed hlv.reach he (List.getElem?_eq_some_iff.1 hc).1
  · rw [FlowGraph.instrsAt, hc] at hr
    exact hr

/-- A block that ends without a jump leaves nothing to do before the next one. -/
theorem Ready.fallsThrough {b : Block} (hready : p.Ready P e u [] E s) (hb : p.flow.blocks[u]? = some b)
    (hend : b.ending = .fallsThrough) : u ∈ p.flow.reachable ∧ p.AtBlock P e (u + 1) E s := by
  cases hready with
  | atExit hu =>
    have := (List.getElem?_eq_some_iff.1 hb).1
    omega
  | inBlock todo hmap hin =>
    cases List.map_eq_nil_iff.1 hmap
    obtain ⟨hb', hu, -, -, -, ha, hs, hbody⟩ := hin
    cases Option.some.inj (hb.symm.trans hb')
    obtain ⟨rfl, rfl⟩ := steps_nil ha.steps
    have hleave := ha.leave
    have hnone : b.last? = none := by rw [Block.last?, hend]
    unfold Alloc.leave at hleave
    simp only [hnone, run_pure] at hleave
    obtain ⟨-, rfl, rfl⟩ := Emitted.mk.inj hleave
    exact ⟨hu, AtBlock.of_next hu hb (.inl hend)
      ⟨hs.valid, ha.rest, fun α hα => ha.mem α (by simp [hα]), ha.spares, ha.code⟩ hbody hs.kept.of_only⟩

/-- **A run of the flow graph on the machine.** -/
theorem sim_evaluates (hW : Closed P W) (hP : p.Placed P base) (ht : f.Sparing o) {is : List Instr} {v : Option Word}
    (hfin : ∀ s' : Machine, P[s'.pc]? = some .ret → RestoredBut f.named e f.params.length s' →
      (∀ x, v = some x → s'.word .a0 = x) → W s' [])
    (hev : p.flow.Evaluates u is E T v) (hready : p.Ready P e u is E s) : W s T := by
  induction hev generalizing s with
  | advance hflow hadv _ ih =>
    obtain ⟨s₀, rest, rfl, hrest, hin⟩ := hready.cons
    exact sim_step hW ht hin hflow hadv fun s' hin' => ih hfin (.inBlock rest hrest hin')
  | @next u b E T v hb hend _ ih =>
    obtain ⟨hu, hat⟩ := hready.fallsThrough hb hend
    exact sim_arrive hW ((reachable_next hu hb (.inl hend)).imp_left And.left) hat fun s' hr => ih hfin hr
  | jump he hc hcl _ ih =>
    refine sim_leaving hW ht hready rfl rfl fun s' σ rs hlv => ?_
    exact sim_goto hW hP ht.spares hlv he hc hcl hlv.code.cons.1 rfl fun s'' hr => ih hfin hr
  | @taken u w c test op l x E T v hx hpass he hc hcl _ ih =>
    have hread : E.readAll (Instr.branch test op l).srcs = some [x] := by simp [Instr.srcs, Env.readAll, hx]
    refine sim_leaving hW ht hready rfl hread fun s' σ rs hlv => ?_
    obtain ⟨r, rfl, hr⟩ := hlv.values x rfl
    refine sim_goto hW hP ht.spares hlv he hc hcl hlv.code.cons.1 ?_ fun s'' hr => ih hfin hr
    rw [Machine.exec?, hr, if_pos hpass]
  | @passed u test op l x E T v hx hpass _ ih =>
    have hread : E.readAll (Instr.branch test op l).srcs = some [x] := by simp [Instr.srcs, Env.readAll, hx]
    refine sim_leaving hW ht hready rfl hread fun s' σ rs hlv => ?_
    obtain ⟨r, rfl, hr⟩ := hlv.values x rfl
    obtain ⟨a, τ, hloc⟩ := hlv.next
    obtain ⟨b, hb, hend, hk⟩ := hlv.kept
    have hexec : s'.exec? P (.branch test r l) = some s'.next := by rw [Machine.exec?, hr, if_neg (by simp [hpass])]
    have hat : p.AtBlock P e (u + 1) E s'.next :=
      AtBlock.of_next hlv.reach hb (.inr hend) hloc (hlv.body.jump _) hk
    have hu := (reachable_next hlv.reach hb (.inr hend)).imp_left And.left
    exact hW.exec hlv.code.cons.1 hexec (sim_arrive hW hu hat fun s'' hr => ih hfin hr)
  | ret =>
    refine sim_leaving hW ht hready rfl rfl fun s' σ rs hlv => ?_
    exact sim_goto_exit hW hP hlv.code.cons.1 hlv.body.frame fun s'' hret hback _ => hfin s'' hret hback (by simp)
  | @value u op x E hx =>
    have hread : E.readAll (Instr.ret (some op)).srcs = some [x] := by simp [Instr.srcs, Env.readAll, hx]
    refine sim_leaving hW ht hready rfl hread fun s' σ rs hlv => ?_
    obtain ⟨r, rfl, hr⟩ := hlv.values x rfl
    refine sim_value hW hP hlv.code hlv.body.frame fun s'' hret hback ha0 => hfin s'' hret hback fun y hy => ?_
    cases Option.some.inj hy
    rw [ha0, hr]
  | done =>
    cases hready with
    | inBlock todo hmap hin =>
      obtain ⟨hb⟩ := hin
      have := (List.getElem?_eq_some_iff.1 hb).1
      omega
    | atExit hu _ hat =>
      obtain ⟨⟨-, ⟨a', hy⟩, -, -, hcode⟩, hbody, -⟩ := hat
      rw [p.flow.blocksFrom_length] at hy
      obtain ⟨-, rfl⟩ := blocks_nil hy
      exact sim_exit hW hcode hbody.frame fun s' hret hback _ => hfin s' hret hback (by simp)

/-! ### Entering the function -/

/-- A stack parameter lives where it was passed. -/
theorem home?_of_param (hd : f.params.Nodup) {i : Nat} {t : Temp} (h8 : 8 ≤ i) (ht : f.params[i]? = some t) :
    p.subroutine.home? t = some (4 * ((i : Int) - 8)) := by
  refine Subroutine.extends_performAll _ p.actions (Subroutine.home?_start h8 ht fun j hj hjt => ?_)
  have hij := (List.getElem?_inj (List.getElem?_eq_some_iff.1 ht).1 hd).1 (ht.trans hjt.symm)
  omega

/-- Where a function has been entered, its parameters are in registers and cells. -/
theorem params_received (hd : f.params.Nodup) {args : List Word} (hargs : e.Receives args) {σ : Cells}
    (hget : ∀ r, r ≠ .sp → r ≠ .s0 → s.get r = e.get r) (hmem : ∀ a, e.get .sp ≤ a → s.mem a = e.mem a)
    (hfp : s.get .s0 = e.get .sp) (hbody : p.InBody e s σ) :
    (∀ q ∈ f.params.zip Reg.params, ∀ v, Env.ofParams f.params args q.1 = some v → σ.reg q.2 = v) ∧
      ∀ t v, Env.ofParams f.params args t = some v → (∀ q ∈ f.params.zip Reg.params, q.1 ≠ t) → σ.cell t = v := by
  constructor
  · rintro ⟨t, r⟩ hq v hE
    obtain ⟨k, hk⟩ := List.mem_iff_getElem?.1 hq
    obtain ⟨ht, hr⟩ := List.getElem?_zip_eq_some.1 hk
    obtain ⟨i, hi, hx⟩ := Env.exists_of_ofParams hE
    have hik : i = k := (List.getElem?_inj (List.getElem?_eq_some_iff.1 hi).1 hd).1 (hi.trans ht.symm)
    have hword : e.word r = v := hargs.inRegs hr (hik ▸ hx)
    have hne : ∀ r ∈ Reg.params, r ≠ .sp ∧ r ≠ .s0 := by decide
    obtain ⟨h1, h2⟩ := hne r (List.mem_of_getElem? hr)
    rw [hbody.shown.reg, ← hword]
    exact congrArg (BitVec.ofInt 32) (hget r h1 h2)
  · intro t v hE hq
    obtain ⟨i, hi, hx⟩ := Env.exists_of_ofParams hE
    have h8 : 8 ≤ i := by
      apply Nat.le_of_not_lt
      intro hlt
      have hr : Reg.params[i]? = some Reg.params[i] := List.getElem?_eq_getElem (by rw [Reg.length_params]; exact hlt)
      exact hq (t, Reg.params[i]) (List.mem_of_getElem? (List.getElem?_zip_eq_some.2 ⟨hi, hr⟩)) rfl
    rw [hbody.shown.cell (home?_of_param hd h8 hi), hfp, ← hargs.onStack h8 hx, Machine.wordAt, Machine.wordAt,
      hmem _ (by omega)]

theorem sim_entry (hW : Closed P W) (hP : p.Placed P base) (ht : f.Sparing o) (hd : f.params.Nodup) {args : List Word}
    (he : e.pc = base) (hargs : e.Receives args)
    (h : ∀ s : Machine, p.AtBlock P e 0 (Env.ofParams f.params args) s → W s T) : W e T := by
  have hsaved : ∀ r ∈ p.frame.saved, r ∈ Reg.calleeSaved := fun r hr => (p.mem_saved_frame.1 hr).1
  obtain ⟨hframe, hget, hmem⟩ := Frame.inFrame_opening hsaved f.params.length e
  have hpc := Machine.pc_lines e p.frame.isStraight_opening
  obtain ⟨a, τ₀, τ, h₀, hy, hbody, hmem₀, hmem₁⟩ := p.parts
  have hcode := hP.code
  rw [Lowered.code, hbody, ← he, List.append_assoc] at hcode
  obtain ⟨hopen, hrest⟩ := hcode.append
  refine hW.lines p.frame.isStraight_opening hopen ?_
  generalize e.lines p.frame.opening = s at *
  rw [← hpc] at hrest
  -- cells without a home are never seen, so they may hold anything
  let σ : Cells := ⟨s.word, fun t => ((p.subroutine.home? t).map fun o' => s.wordAt (s.get .s0 + o')).getD 0⟩
  have hin : p.InBody e s σ := ⟨.of_inFrame hframe, rfl, fun t o' ho => by simp [σ, ho]⟩
  obtain ⟨hreg, hcell⟩ := params_received hd hargs hget hmem hframe.fp hin
  have hv := valid_reset_ofOptions o (p.flow.tempCount f.params)
  have hclean : Clean f.named _ a τ₀ := (tidy_takeParams hv p.flow f.params).clean h₀
  have hempty : Holds ((Allocator.ofOptions o).reset (p.flow.tempCount f.params)).regs (Env.ofParams f.params args)
      σ := by
    intro t r v hb
    simp [Allocator.reset] at hb
  refine sim_actions hW ht.named (fun α hα => performs_of_permits (hmem₀ α hα) (hclean.permits α hα)) hrest.append.1 hin
    ((ensures_takeParams hv hempty p.flow hd hreg hcell).must h₀) ?_
  rintro s' σ' T' hpc' hb' ⟨rfl, hv', hk⟩
  refine h s' ⟨⟨hv', ⟨p.final, by rw [FlowGraph.blocksFrom_zero]; exact hy⟩, hmem₁, ?_, ?_⟩, hb', fun b hb => ?_⟩
  · rw [FlowGraph.blocksFrom_zero, ← p.states_eq h₀]
    exact ht.spares
  · rw [hpc']
    exact hrest.append.2
  · rw [← List.head?_eq_getElem?] at hb
    simp only [entryLive, hb] at hk
    exact hk

/-- **The code of a function does what its instructions do**, if these spare what is needed.  Let `W` be a property of
runs that holds if it holds after the next line.  If it holds where the function returns with the value `v`, having
restored all that its caller wants back, but for the registers that its instructions name, then it holds of the state in
which the function is entered on arguments on which it makes the calls `T` and returns `v`. -/
theorem simulates_sparing (hW : Closed P W) (hP : p.Placed P base) (ht : f.Sparing o) (hd : f.params.Nodup)
    {args : List Word} (he : e.pc = base) (hargs : e.Receives args) {v : Option Word}
    (hev : Evaluates f.instrs 0 (Env.ofParams f.params args) T v)
    (hfin : ∀ s : Machine, P[s.pc]? = some .ret → RestoredBut f.named e f.params.length s →
      (∀ x, v = some x → s.word .a0 = x) → W s []) : W e T := by
  have hu : 0 ∈ p.flow.reachable ∨ 0 = p.flow.blocks.length := by
    by_cases hne : p.flow.blocks = []
    · exact .inr (by rw [hne]; rfl)
    · exact .inl (FlowGraph.zero_mem_reachable hne)
  refine sim_entry hW hP ht hd he hargs fun s hat => sim_arrive hW hu hat fun s' hr => ?_
  exact sim_evaluates hW hP ht hfin (p.describes.evaluates_entry hev) hr

/-- **The code of a function that names no registers does what its instructions do**, and restores all that its caller
wants back. -/
theorem simulates (hW : Closed P W) (hP : p.Placed P base) (ht : f.TempsOnly) (hd : f.params.Nodup) {args : List Word}
    (he : e.pc = base) (hargs : e.Receives args) {v : Option Word}
    (hev : Evaluates f.instrs 0 (Env.ofParams f.params args) T v)
    (hfin : ∀ s : Machine, P[s.pc]? = some .ret → Restored e f.params.length s →
      (∀ x, v = some x → s.word .a0 = x) → W s []) : W e T := by
  refine simulates_sparing hW hP (p.sparing_of_tempsOnly ht) hd he hargs hev fun s hret hback => hfin s hret ?_
  rw [Func.named_of_tempsOnly ht] at hback
  exact hback.restored

end Lowered

end ThreeAddress
