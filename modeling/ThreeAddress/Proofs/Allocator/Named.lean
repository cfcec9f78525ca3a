import ThreeAddress.Proofs.Allocator.UpToDate

/-!
Instructions that name a register to be written.  The allocator does not look whether the register holds a temporary.
If it does, the temporary is lost from the register, and if it is needed afterwards then its cell is overwritten by the
next write-back.  A step *spares* what is live if no register that it names holds a temporary that is live after it
(`Step.Spares`).

Of the values of temporaries, only those of live ones are then kept track of (`Env.only`).  Main statement: a step that
spares what is live keeps it up to date (`Alloc.step_follows`).
-/

namespace ThreeAddress

/-- The values of the temporaries in `L`. -/
def Env.only (E : Env) (L : TempSet) : Env := fun t => if t ∈ L then E t else none

/-- No register that the step names holds, after the step, a temporary that is live then. -/
def Step.Spares (s : Step) (a : Allocator) : Prop := ∀ r ∈ s.instr.named, ∀ t ∈ a.regs.occupant? r, t ∉ s.liveOut

instance (s : Step) (a : Allocator) : Decidable (s.Spares a) :=
  inferInstanceAs (Decidable (∀ r ∈ s.instr.named, ∀ t ∈ a.regs.occupant? r, t ∉ s.liveOut))

section

variable {a : Allocator} {E E' E₀ : Env} {L : TempSet} {σ : Cells} {i : Instr} {evs : List Call} {t : Temp} {r : Reg}

theorem Env.only_eq_some {v : Word} : E.only L t = some v ↔ t ∈ L ∧ E t = some v := by
  unfold Env.only
  split <;> simp [*]

theorem Env.only_of_mem (h : t ∈ L) : E.only L t = E t := if_pos h

theorem Kept.only (h : Kept L E σ) : Kept L (E.only L) σ := fun _ _ ht hE => h ht (Env.only_eq_some.1 hE).2

theorem Kept.of_only (h : Kept L (E.only L) σ) : Kept L E σ := fun _ _ ht hE => h ht (Env.only_eq_some.2 ⟨ht, hE⟩)

/-! ### Instructions read what is live before them -/

theorem Env.readAll_congr {ops : List Operand} (h : ∀ op ∈ ops, E₀.read op = E.read op) :
    E₀.readAll ops = E.readAll ops := by
  induction ops with
  | nil => rfl
  | cons op ops ih =>
    rw [Env.readAll, Env.readAll, h op List.mem_cons_self, ih fun q hq => h q (List.mem_cons_of_mem op hq)]

theorem Env.write_congr {op : Operand} {x : Option Word} (h : ∀ t ∈ L, t ∉ [op].filterMap Operand.temp? → E₀ t = E t) :
    ∀ t ∈ L, E₀.write op x t = E.write op x t := by
  intro t ht
  cases op with
  | reg => exact h t ht (by simp [Operand.temp?])
  | temp d =>
    show Function.update E₀ d x t = Function.update E d x t
    rw [Function.update_apply, Function.update_apply]
    split
    · rfl
    · rename_i hd
      exact h t ht (by simpa [Operand.temp?] using hd)

theorem Instr.dsts_of_leaves (h : i.leaves = true) : i.dsts = [] := by
  cases i <;> first | rfl | simp [Instr.leaves, Instr.flow] at h

/-- An instruction needs no values but those live before it to do what it does to those live after it. -/
theorem Instr.Advances.only (h : i.Advances E evs E') (L : TempSet) :
    ∃ E₁, i.Advances (E.only (i.liveBefore L)) evs E₁ ∧ ∀ t ∈ L, E₁ t = E' t := by
  have hsrcs : ∀ op ∈ i.srcs, (E.only (i.liveBefore L)).read op = E.read op := by
    intro op hop
    cases op with
    | reg => rfl
    | temp t =>
      refine Env.only_of_mem (Instr.mem_liveBefore.2 (.inr ?_))
      exact List.mem_filterMap.2 ⟨_, hop, rfl⟩
  have hlive : ∀ t ∈ L, t ∉ i.defs → E.only (i.liveBefore L) t = E t := by
    intro t ht hd
    exact Env.only_of_mem (Instr.mem_liveBefore.2 (.inl ⟨ht, hd⟩))
  cases h with
  | effect he =>
    cases i with
    | move dst src =>
      obtain ⟨x, hx, rfl⟩ := Option.map_eq_some_iff.1 he
      refine ⟨Env.write _ dst (some x), .effect ?_, Env.write_congr hlive⟩
      rw [Instr.effect?, hsrcs src List.mem_cons_self, hx]
      rfl
    | const dst value =>
      cases Option.some.inj he
      exact ⟨_, .effect rfl, Env.write_congr hlive⟩
    | unary op dst src =>
      obtain ⟨x, hx, rfl⟩ := Option.map_eq_some_iff.1 he
      refine ⟨Env.write _ dst (some (op.eval x)), .effect ?_, Env.write_congr hlive⟩
      rw [Instr.effect?, hsrcs src List.mem_cons_self, hx]
      rfl
    | binary op dst lhs rhs =>
      simp only [Instr.effect?, Option.bind_eq_bind, Option.bind_eq_some_iff, Option.pure_def, Option.some.injEq] at he
      obtain ⟨x, hx, y, hy, rfl⟩ := he
      refine ⟨Env.write _ dst (some (op.eval x y)), .effect ?_, Env.write_congr hlive⟩
      rw [Instr.effect?, hsrcs lhs List.mem_cons_self, hsrcs rhs (List.mem_cons_of_mem _ List.mem_cons_self), hx, hy]
      rfl
    | mark | memo =>
      cases Option.some.inj he
      exact ⟨_, .effect rfl, fun t ht => hlive t ht List.not_mem_nil⟩
    | jump | branch | ret | call => simp [Instr.effect?] at he
  | @call dst l args ws x hread =>
    refine ⟨_, .call (x := x) ((Env.readAll_congr hsrcs).trans hread), ?_⟩
    cases dst with
    | none => exact fun t ht => hlive t ht List.not_mem_nil
    | some op => exact Env.write_congr hlive
  | leaves hl hread =>
    refine ⟨_, .leaves hl ((Env.readAll_congr hsrcs).trans hread), fun t ht => hlive t ht ?_⟩
    rw [Instr.defs, Instr.dsts_of_leaves hl]
    exact List.not_mem_nil

/-! ### Overwriting a register -/

/-- A write to a register loses at most the temporary in it. -/
theorem Holds.overwrite (h : Holds a.regs E σ) (hv : a.Valid) (hL : ∀ t ∈ a.regs.occupant? r, t ∉ L) (x : Word) :
    Holds a.regs (E.only L) (σ.write r x) := by
  intro t q v hb hE
  obtain ⟨ht, hE⟩ := Env.only_eq_some.1 hE
  have hq : q ≠ r := by
    rintro rfl
    exact hL t ((hv.consistent t q).1 hb) ht
  rw [σ.reg_write_of_ne hq]
  exact h hb hE

/-- The code of an instruction writes its destination and no other register, whatever is in its operands. -/
theorem Instr.compute_select {dst : Operand} {rs : List Reg} (hd : i.dsts = [dst]) (hc : i.isCall = false)
    (hrs : rs.length = i.srcs.length) (r : Reg) (exit : Label) (ρ : Reg → Word) :
    ∃ w, Asm.compute ρ (i.select [r] rs exit) = some (Reg.write ρ r w) := by
  cases i with
  | move | unary =>
    obtain ⟨q, rfl⟩ := List.length_eq_one_iff.1 hrs
    exact ⟨_, rfl⟩
  | const =>
    cases List.length_eq_zero_iff.1 hrs
    exact ⟨_, rfl⟩
  | binary op =>
    obtain ⟨p, q, rfl⟩ := List.length_eq_two.1 hrs
    exact ⟨_, BinaryOp.run_select op r p q ρ⟩
  | call => simp [Instr.isCall] at hc
  | jump | branch | ret | mark | memo => simp [Instr.dsts] at hd

end

namespace Alloc

variable {a a' : Allocator} {s : Step} {E E' : Env} {σ : Cells} {T evs : List Call} {exit : Label} {emitted : Bool}
  {τ : List Action} {r : Reg}

theorem state_forM {γ : Type} {f : γ → Alloc Unit} (hf : ∀ x a, (run (f x) a).state = a) (l : List γ) (a : Allocator) :
    (run (l.forM f) a).state = a := by
  induction l with
  | nil => rfl
  | cons x l ih =>
    show (run (l.forM f) (run (f x) a).state).state = a
    rw [hf, ih]

theorem state_writeBack (L : TempSet) (a : Allocator) : (run (writeBack L) a).state = a := by
  refine state_forM (fun t a => ?_) _ a
  rw [run_bind, run_state]
  dsimp only
  split <;> rfl

/-- The code of an instruction that names its destination, with its operands brought into registers. -/
theorem ensures_instruction_named (hs : Synced a E s.liveIn σ) (huses : ∀ t ∈ s.instr.uses, t ∈ s.liveIn)
    (hsrc : ∀ op ∈ s.instr.srcs, op.reg? = none) (hd : s.instr.dsts = [.reg r]) (hc : s.instr.isCall = false) :
    Ensures (instruction s exit true) a σ T fun _ a' σ' T' => T' = T ∧ a'.Valid ∧ Kept s.liveIn E σ' ∧
      (s.Spares a' → Holds a'.regs (E.only s.liveOut) σ') := by
  have hops : ∀ op ∈ s.instr.srcs, ∃ t ∈ s.liveIn, op = .temp t := by
    intro op hop
    obtain ⟨t, rfl⟩ := exists_temp (hsrc op hop)
    exact ⟨t, huses t (List.mem_filterMap.2 ⟨_, hop, rfl⟩), rfl⟩
  have hnamed : r ∈ s.instr.named := by simp [Instr.named, hd, Operand.reg?]
  have hresolve : Ensures (resolve s) a σ T fun p a' σ' T' =>
      T' = T ∧ p.1 = [r] ∧ Read a E s.liveIn s.instr.srcs p.2 a' σ' := by
    refine Ensures.bind (ensures_readAll hs.valid hs.holds hs.kept hops) ?_
    rintro rs a₁ σ₁ T₁ ⟨rfl, hr, -⟩
    rw [hd]
    exact Ensures.quiet ⟨rfl, rfl, rfl⟩ (Ensures.pure ⟨rfl, rfl, hr⟩)
  refine Ensures.bind hresolve ?_
  rintro ⟨ds, rs⟩ a₁ σ₁ T₁ ⟨rfl, rfl, hr⟩
  obtain ⟨w, hw⟩ := Instr.compute_select hd hc hr.length r exit σ₁.reg
  refine Ensures.emitCode ((Cells.must_compute hw).2 ⟨rfl, hr.valid, hr.kept, fun hsp => ?_⟩)
  exact hr.holds.overwrite hr.valid (hsp r hnamed) w

theorem step_must_named (hs : Synced a E s.liveIn σ) (hlive : s.liveIn = s.instr.liveBefore s.liveOut)
    (hsrc : ∀ op ∈ s.instr.srcs, op.reg? = none) (hd : s.instr.dsts = [.reg r]) (hc : s.instr.isCall = false)
    (hsp : s.Spares a') (h : Yields (step s exit true) a () a' τ) :
    Cells.Must (fun σ' T' => T' = T ∧ Synced a' (E.only s.liveOut) s.liveOut σ') τ σ T := by
  obtain ⟨a₁, τ₀, τ₁, τ₂, h₀, h₁, h₂, rfl⟩ := step_instruction hc h
  obtain rfl : a' = a₁ := by
    have hstate := state_writeBack s.liveOut a₁
    rw [h₂] at hstate
    exact hstate
  have hdefs : s.instr.defs = [] := by rw [Instr.defs, hd]; rfl
  rw [List.append_assoc, Cells.must_append, ← Cells.must_essential, h₀, Cells.must_nil, Cells.must_append]
  refine ((ensures_instruction_named hs (uses_subset_liveIn hlive) hsrc hd hc).must h₁).mono ?_
  rintro σ₁ T₁ ⟨rfl, hv₁, hk₁, hh₁⟩
  refine ((ensures_writeBack_live hlive hv₁ (hh₁ hsp) ?_ ?_).must h₂).mono fun σ' T' h' => ⟨h'.1, h'.2.2⟩
  · rw [hdefs, Env.except_nil]
    exact fun t v ht hE => hk₁ ht (Env.only_eq_some.1 hE).2
  · simp [hdefs]

/-! ### Steps -/

theorem Synced.mono {L : TempSet} (h : Synced a E L σ) (hE : ∀ t v, E' t = some v → E t = some v) :
    Synced a E' L σ :=
  ⟨h.valid, fun t _ v hb hv => h.holds hb (hE t v hv), fun t v ht hv => h.kept ht (hE t v hv)⟩

/-- An instruction whose sources are temporaries, if it is not a call, either names no register or names its
destination. -/
theorem named_cases {i : Instr} (hsrc : ∀ op ∈ i.srcs, op.reg? = none) (hc : i.isCall = false) :
    i.TempsOnly ∨ ∃ r, i.dsts = [.reg r] := by
  have htemps : (∀ op ∈ i.dsts, op.reg? = none) → i.TempsOnly := fun hd op hop =>
    (List.mem_append.1 hop).elim (hsrc op) (hd op)
  rcases dsts_shape hc with hd | ⟨op, hd⟩
  · exact .inl (htemps (by simp [hd]))
  · cases op with
    | temp t => exact .inl (htemps (by simp [hd, Operand.reg?]))
    | reg r => exact .inr ⟨r, hd⟩

theorem tempsOnly_of_leaves {i : Instr} (hl : i.leaves = true) (hsrc : ∀ op ∈ i.srcs, op.reg? = none) :
    i.TempsOnly := by
  intro op hop
  rw [Instr.dsts_of_leaves hl, List.append_nil] at hop
  exact hsrc op hop

/-- **A step that spares what is live keeps it up to date**, and the operand of one that leaves the block is then in a
register. -/
theorem step_follows (hs : Synced a (E.only s.liveIn) s.liveIn σ) (hlive : s.liveIn = s.instr.liveBefore s.liveOut)
    (hsrc : ∀ op ∈ s.instr.srcs, op.reg? = none) (he : emitted = !s.instr.leaves) (hadv : s.instr.Advances E evs E')
    (h : Yields (step s exit emitted) a () a' τ) (hsp : s.Spares a') :
    Cells.Must (fun σ' T' => T' = T ∧ Synced a' (E'.only s.liveOut) s.liveOut σ' ∧ (s.instr.leaves = true →
      ∀ t v, s.instr.srcs = [.temp t] → E t = some v → ∃ r, a'.regs.binding? t = some r ∧ σ'.reg r = v)) τ σ
      (evs ++ T) := by
  obtain ⟨E₁, hadv₁, hagree⟩ := hadv.only s.liveOut
  rw [← hlive] at hadv₁
  -- the values that the step is proved for are those wanted, as far as they are live
  have hdone : ∀ t v, E'.only s.liveOut t = some v → E₁ t = some v := by
    intro t v hE
    obtain ⟨ht, hE⟩ := Env.only_eq_some.1 hE
    rw [hagree t ht, hE]
  by_cases htemps : s.instr.TempsOnly
  · refine (step_must hs hlive htemps he hadv₁ h).mono ?_
    rintro σ' T' ⟨rfl, hs', hbound⟩
    refine ⟨rfl, hs'.mono hdone, fun hl t v hst hE => ?_⟩
    obtain ⟨r, hb⟩ := hbound hl t hst
    have hsame := hadv₁.except_defs
    rw [Instr.defs, Instr.dsts_of_leaves hl] at hsame
    have ht : t ∈ s.liveIn := uses_subset_liveIn hlive t (by simp [Instr.uses, hst, Operand.temp?])
    have hE₁ : E₁ t = some v := (congrFun hsame t).trans ((Env.only_of_mem ht).trans hE)
    exact ⟨r, hb, hs'.holds hb hE₁⟩
  · generalize hi : s.instr = i at hadv₁
    cases hadv₁ with
    | effect heff =>
      rw [← hi] at heff
      obtain ⟨hc, hl⟩ := Instr.effect?_kind heff
      obtain ⟨r, hd⟩ := (named_cases hsrc hc).resolve_left htemps
      have hsame := (Instr.Advances.effect heff).except_defs
      rw [Instr.defs, hd] at hsame
      rw [hl] at he
      subst he
      refine (step_must_named hs hlive hsrc hd hc hsp h).mono ?_
      rintro σ' T' ⟨rfl, hs'⟩
      refine ⟨rfl, hs'.mono fun t v hE => ?_, fun hl' => absurd (hi ▸ hl') (by simp [hl])⟩
      have ht := (Env.only_eq_some.1 hE).1
      exact Env.only_eq_some.2 ⟨ht, (congrFun hsame t).symm.trans (hdone t v hE)⟩
    | call hread =>
      refine (step_must_call hs hlive hi hread _ h).mono ?_
      rintro σ' T' ⟨rfl, hs'⟩
      exact ⟨rfl, hs'.mono hdone, fun hl' => absurd hl' (by simp [Instr.leaves, Instr.flow])⟩
    | leaves hl =>
      subst hi
      exact absurd (tempsOnly_of_leaves hl hsrc) htemps

/-! ### The states of allocation -/

/-- The steps, each with the state of allocation after it. -/
def stepStates (exit : Label) (leaves : Bool) : List Step → Allocator → List (Step × Allocator)
  | [], _ => []
  | s :: rest, a =>
    let a' := (run (step s exit (!(leaves && rest.isEmpty))).run a).state
    (s, a') :: stepStates exit leaves rest a'

def blockStates (exit : Label) : List Block → Allocator → List (Step × Allocator)
  | [], _ => []
  | b :: rest, a =>
    stepStates exit b.last?.isSome b.steps (enter a) ++ blockStates exit rest (run (block b exit).run a).state

theorem Yields.state {α : Type} {x : AllocE α} {v : α} (h : Yields x a v a' τ) : (run x.run a).state = a' := by
  unfold Yields at h
  rw [h]

theorem stepStates_cons {leaves : Bool} {rest : List Step}
    (h : Yields (step s exit (!(leaves && rest.isEmpty))) a () a' τ) :
    stepStates exit leaves (s :: rest) a = (s, a') :: stepStates exit leaves rest a' := by
  rw [stepStates, h.state]

theorem blockStates_cons {b : Block} {bs : List Block} (h : Yields (block b exit) a () a' τ) :
    blockStates exit (b :: bs) a =
      stepStates exit b.last?.isSome b.steps (enter a) ++ blockStates exit bs a' := by
  rw [blockStates, h.state]

theorem blockStates_append {bs cs : List Block} (h : Yields (blocks exit bs) a () a' τ) :
    blockStates exit (bs ++ cs) a = blockStates exit bs a ++ blockStates exit cs a' := by
  induction bs generalizing a τ with
  | nil =>
    obtain ⟨rfl, rfl⟩ := blocks_nil h
    rfl
  | cons b bs ih =>
    obtain ⟨a₁, τ₁, τ₂, h₁, h₂, rfl⟩ := blocks_cons h
    rw [List.cons_append, blockStates_cons h₁, blockStates_cons h₁, ih h₂, List.append_assoc]

theorem mem_stepStates {leaves : Bool} {ss : List Step} {q : Step × Allocator} (h : q ∈ stepStates exit leaves ss a) :
    q.1 ∈ ss := by
  induction ss generalizing a with
  | nil => simp [stepStates] at h
  | cons s ss ih =>
    rcases List.mem_cons.1 h with rfl | h
    · exact List.mem_cons_self
    · exact List.mem_cons_of_mem s (ih h)

theorem mem_blockStates {bs : List Block} {q : Step × Allocator} (h : q ∈ blockStates exit bs a) :
    ∃ b ∈ bs, q.1 ∈ b.steps := by
  induction bs generalizing a with
  | nil => simp [blockStates] at h
  | cons b bs ih =>
    rcases List.mem_append.1 h with h | h
    · exact ⟨b, List.mem_cons_self, mem_stepStates h⟩
    · obtain ⟨c, hc, hq⟩ := ih h
      exact ⟨c, List.mem_cons_of_mem b hc, hq⟩

end Alloc

namespace Func

variable (f : Func) (o : Options)

open Alloc in
def states : List (Step × Allocator) :=
  match FlowGraph.ofFunc f with
  | .ok g =>
    let g := g.withLiveness
    let start := (Allocator.ofOptions o).reset (g.tempCount f.params)
    blockStates f.name.exit g.reachableBlocks (run (takeParams g f.params) start).state
  | .error _ => []

/-- No register that the function names holds a temporary that is live after the instruction. -/
def Spares : Prop := ∀ q ∈ f.states o, q.1.Spares q.2

instance : Decidable (f.Spares o) := inferInstanceAs (Decidable (∀ q ∈ f.states o, q.1.Spares q.2))

end Func

end ThreeAddress
