import ThreeAddress.Proofs.Allocator.Invariant
import ThreeAddress.Proofs.FlowGraph.Evaluation
import ThreeAddress.Proofs.Liveness

/-!
Every value that is live after an instruction has an up-to-date copy in its cell.  One step of a block takes values in
the cells, for what is live before it, to values in registers and cells, for what is live after it (`step_must`); so
does any number of steps (`stepsTo_must`).
-/

namespace ThreeAddress

namespace Instr

variable {E E' : Env} {i : Instr} {evs : List Call}

theorem Env.except_write (E : Env) (op : Operand) (x : Option Word) :
    (E.write op x).except ([op].filterMap Operand.temp?) = E.except ([op].filterMap Operand.temp?) := by
  funext t
  cases op with
  | reg r => rfl
  | temp d =>
    unfold Env.except
    split
    · rfl
    · rename_i hne
      exact Function.update_of_ne (by simpa [Operand.temp?] using hne) ..

/-- Only the destinations get new values. -/
theorem Advances.except_defs (h : i.Advances E evs E') : E'.except i.defs = E.except i.defs := by
  cases h with
  | effect he =>
    cases i with
    | move dst src =>
      obtain ⟨x, -, rfl⟩ := Option.map_eq_some_iff.1 he
      exact Env.except_write E dst _
    | const dst value =>
      cases Option.some.inj he
      exact Env.except_write E dst _
    | unary op dst src =>
      obtain ⟨x, -, rfl⟩ := Option.map_eq_some_iff.1 he
      exact Env.except_write E dst _
    | binary op dst lhs rhs =>
      simp only [effect?, Option.bind_eq_bind, Option.bind_eq_some_iff, Option.pure_def, Option.some.injEq] at he
      obtain ⟨x, -, y, -, rfl⟩ := he
      exact Env.except_write E dst _
    | mark | memo =>
      cases Option.some.inj he
      rfl
    | jump | branch | ret | call => simp [effect?] at he
  | @call dst l args ws x =>
    cases dst with
    | none => rfl
    | some op => exact Env.except_write E op x
  | leaves => rfl

end Instr

namespace Alloc

variable {a a' : Allocator} {s : Step} {E E' : Env} {σ : Cells} {T evs : List Call} {exit : Label} {emitted : Bool}
  {τ : List Action}

theorem Ensures.must {α : Type} {x : Alloc α} {v : α} {Q : α → Allocator → Cells → List Call → Prop}
    (h : Ensures x a σ T Q) (hr : run x a = ⟨v, a', τ⟩) : Cells.Must (Q v a') τ σ T := by
  unfold Ensures at h
  rw [hr] at h
  exact h

/-- Where control is after a step: what is bound and what is live after it is up to date. -/
structure Synced (a : Allocator) (E : Env) (L : TempSet) (σ : Cells) : Prop where
  valid : a.Valid
  holds : Holds a.regs E σ
  kept : Kept L E σ

/-- The write-backs after a step whose destinations are in registers. -/
theorem ensures_writeBack_live (hlive : s.liveIn = s.instr.liveBefore s.liveOut) (hv : a.Valid)
    (hh : Holds a.regs E' σ) (hk : Kept s.liveIn (E'.except s.instr.defs) σ)
    (hd : ∀ t ∈ s.instr.defs, a.regs.binding? t ≠ none) :
    Ensures (writeBack s.liveOut) a σ T fun _ a' σ' T' => T' = T ∧ a' = a ∧ Synced a' E' s.liveOut σ' := by
  refine (ensures_writeBack hh fun t ht v hE hb => hk ?_ ?_).mono ?_
  · rw [hlive]
    exact Instr.mem_liveBefore.2 (.inl ⟨ht, fun hm => hd t hm hb⟩)
  · exact Env.except_eq_some.2 ⟨fun hm => hd t hm hb, hE⟩
  · rintro - a' σ' T' ⟨rfl, rfl, hh', hk'⟩
    exact ⟨rfl, rfl, hv, hh', hk'⟩

theorem uses_subset_liveIn (hlive : s.liveIn = s.instr.liveBefore s.liveOut) : ∀ t ∈ s.instr.uses, t ∈ s.liveIn := by
  intro t ht
  rw [hlive]
  exact Instr.mem_liveBefore.2 (.inr ht)

theorem step_must_effect (hs : Synced a E s.liveIn σ) (hlive : s.liveIn = s.instr.liveBefore s.liveOut)
    (ht : s.instr.TempsOnly) (heff : s.instr.effect? E = some E') (h : Yields (step s exit true) a () a' τ) :
    Cells.Must (fun σ' T' => T' = T ∧ Synced a' E' s.liveOut σ') τ σ T := by
  have hc := (Instr.effect?_kind heff).1
  obtain ⟨a₁, τ₀, τ₁, τ₂, h₀, h₁, h₂, rfl⟩ := step_instruction hc h
  have hcode : Ensures (instruction s exit true) a σ T fun _ a' σ' T' => T' = T ∧ a'.Valid ∧ Holds a'.regs E' σ' ∧
      Kept s.liveIn (E'.except s.instr.defs) σ' ∧ ∀ t ∈ s.instr.defs, a'.regs.binding? t ≠ none := by
    refine Ensures.bind (ensures_resolve hs.valid hs.holds hs.kept hc ht (uses_subset_liveIn hlive)) ?_
    rintro ⟨ds, rs⟩ a₁ σ₁ T₁ ⟨rfl, hr⟩
    refine Ensures.emitCode ((must_select hr ht heff exit).mono ?_)
    rintro σ₂ T₂ ⟨rfl, hcell, hh₂⟩
    refine ⟨rfl, hr.valid, hh₂, fun t v htL hE => ?_, fun t htd => ?_⟩
    · rw [(Instr.Advances.effect heff).except_defs] at hE
      rw [hcell]
      exact hr.kept htL (Env.except_eq_some.1 hE).2
    · rcases dsts_cases hc ht with hd | ⟨u, hd⟩
      · simp [Instr.defs, hd] at htd
      · obtain ⟨r, -, hb⟩ := hr.dst hd
        have hu : t = u := by simpa [Instr.defs, hd, Operand.temp?] using htd
        simp [hu, hb]
  rw [List.append_assoc, Cells.must_append, ← Cells.must_essential, h₀, Cells.must_nil, Cells.must_append]
  refine (hcode.must h₁).mono ?_
  rintro σ₁ T₁ ⟨rfl, hv₁, hh₁, hk₁, hd₁⟩
  exact ((ensures_writeBack_live hlive hv₁ hh₁ hk₁ hd₁).must h₂).mono fun σ' T' h' => ⟨h'.1, h'.2.2⟩

theorem step_must_call {dst : Option Operand} {l : Label} {args : List Operand} {ws : List Word}
    (hs : Synced a E s.liveIn σ) (hlive : s.liveIn = s.instr.liveBefore s.liveOut) (hi : s.instr = .call dst l args)
    (hread : E.readAll args = some ws) (x : Option Word) (h : Yields (step s exit emitted) a () a' τ) :
    Cells.Must (fun σ' T' => T' = T ∧ Synced a' (E.receive dst x) s.liveOut σ') τ σ (⟨l, ws, x⟩ :: T) := by
  obtain ⟨xs, d, a₁, τ₁, τ₂, hct, h₁, h₂, rfl⟩ := step_call hi h
  obtain ⟨rfl, rfl, hlen⟩ := callTemps_eq_ok hct
  have huses : s.instr.uses = xs := by
    rw [hi, Instr.uses, Instr.srcs, List.filterMap_map]
    exact List.filterMap_some
  have hdefs : s.instr.defs = d.toList := by
    rw [hi]
    cases d <;> rfl
  have hexc : (E.receive (d.map .temp) x).except s.instr.defs = E.except s.instr.defs := by
    rw [hi]
    exact (Instr.Advances.call hread).except_defs
  rw [Cells.must_append]
  refine (ensures_call hs.valid hs.holds hs.kept hi hlen ?_ hread x exit).must h₁ |>.mono ?_
  · intro t ht
    exact uses_subset_liveIn hlive t (huses ▸ ht)
  rintro σ₁ T₁ ⟨rfl, hv₁, hh₁, hk₁, hd₁⟩
  refine ((ensures_writeBack_live hlive hv₁ hh₁ ?_ ?_).must h₂).mono fun σ' T' h' => ⟨h'.1, h'.2.2⟩
  · rw [hexc, hdefs]
    exact hk₁
  · intro t ht
    rw [hdefs] at ht
    exact hd₁ t (Option.mem_toList.1 ht)

/-- The step of an instruction that leaves the block emits no code yet; its operand is in a register then. -/
theorem step_must_leaves (hs : Synced a E s.liveIn σ) (hlive : s.liveIn = s.instr.liveBefore s.liveOut)
    (ht : s.instr.TempsOnly) (hl : s.instr.leaves = true) (h : Yields (step s exit false) a () a' τ) :
    Cells.Must (fun σ' T' => T' = T ∧ Synced a' E s.liveOut σ' ∧
      ∀ t, s.instr.srcs = [.temp t] → ∃ r, a'.regs.binding? t = some r) τ σ T := by
  have hc : s.instr.isCall = false := by
    cases hi : s.instr <;> simp [hi, Instr.leaves, Instr.flow] at hl <;> rfl
  have hd : s.instr.dsts = [] := by
    cases hi : s.instr <;> simp [hi, Instr.leaves, Instr.flow] at hl <;> rfl
  have hdefs : s.instr.defs = [] := by rw [Instr.defs, hd]; rfl
  obtain ⟨a₁, τ₀, τ₁, τ₂, h₀, h₁, h₂, rfl⟩ := step_instruction hc h
  have hcode : Ensures (instruction s exit false) a σ T fun _ a' σ' T' => T' = T ∧ a'.Valid ∧ Holds a'.regs E σ' ∧
      Kept s.liveIn E σ' ∧ ∀ t, s.instr.srcs = [.temp t] → ∃ r, a'.regs.binding? t = some r := by
    refine Ensures.bind (ensures_resolve hs.valid hs.holds hs.kept hc ht (uses_subset_liveIn hlive)) ?_
    rintro ⟨ds, rs⟩ a₁ σ₁ T₁ ⟨rfl, hr⟩
    have hh := hr.holds
    rw [hdefs, Env.except_nil] at hh
    exact Ensures.pure ⟨rfl, hr.valid, hh, hr.kept, fun t hst => hr.src hd hst⟩
  rw [List.append_assoc, Cells.must_append, ← Cells.must_essential, h₀, Cells.must_nil, Cells.must_append]
  refine (hcode.must h₁).mono ?_
  rintro σ₁ T₁ ⟨rfl, hv₁, hh₁, hk₁, hb₁⟩
  refine ((ensures_writeBack_live hlive hv₁ hh₁ ?_ ?_).must h₂).mono ?_
  · rw [hdefs]
    exact hk₁
  · rw [hdefs]
    simp
  · rintro σ' T' ⟨rfl, rfl, hs'⟩
    exact ⟨rfl, hs', hb₁⟩

/-- **A step keeps what is live up to date**, and the operand of one that leaves the block is then in a register. -/
theorem step_must (hs : Synced a E s.liveIn σ) (hlive : s.liveIn = s.instr.liveBefore s.liveOut)
    (ht : s.instr.TempsOnly) (he : emitted = !s.instr.leaves) (hadv : s.instr.Advances E evs E')
    (h : Yields (step s exit emitted) a () a' τ) :
    Cells.Must (fun σ' T' => T' = T ∧ Synced a' E' s.liveOut σ' ∧ (s.instr.leaves = true →
      ∀ t, s.instr.srcs = [.temp t] → ∃ r, a'.regs.binding? t = some r)) τ σ (evs ++ T) := by
  generalize hi : s.instr = i at hadv
  cases hadv with
  | effect heff =>
    rw [← hi] at heff
    have hl := (Instr.effect?_kind heff).2
    rw [hl] at he
    subst he
    exact (step_must_effect hs hlive ht heff h).mono fun σ' T' h' =>
      ⟨h'.1, h'.2, fun hl' => absurd (hi ▸ hl') (by simp [hl])⟩
  | call hread =>
    exact (step_must_call hs hlive hi hread _ h).mono fun σ' T' h' =>
      ⟨h'.1, h'.2, fun hl' => absurd hl' (by simp [Instr.leaves, Instr.flow])⟩
  | leaves hl hread =>
    subst hi
    rw [hl] at he
    subst he
    exact (step_must_leaves hs hlive ht hl h).mono fun σ' T' h' => ⟨h'.1, h'.2.1, fun _ => h'.2.2⟩

/-! ### The code that leaves a block -/

theorem run_hold_bound {t : Temp} {r : Reg} (hb : a.regs.binding? t = some r) (read : Bool) (live : TempSet)
    (pinned : List Reg) : run (hold t read live pinned) a = ⟨r, a, []⟩ := by
  unfold hold
  rw [run_bind, run_state]
  simp only [hb]
  rfl

theorem srcs_of_leaves {i : Instr} (hl : i.leaves = true) (ht : i.TempsOnly) :
    i.dsts = [] ∧ (i.srcs = [] ∨ ∃ t, i.srcs = [.temp t]) := by
  cases i with
  | jump => exact ⟨rfl, .inl rfl⟩
  | branch test c l =>
    obtain ⟨t, rfl⟩ := exists_temp (ht c (by simp [Instr.srcs]))
    exact ⟨rfl, .inr ⟨t, rfl⟩⟩
  | ret v =>
    cases v with
    | none => exact ⟨rfl, .inl rfl⟩
    | some op =>
      obtain ⟨t, rfl⟩ := exists_temp (ht op (by simp [Instr.srcs]))
      exact ⟨rfl, .inr ⟨t, rfl⟩⟩
  | move | const | unary | binary | mark | memo | call => simp [Instr.leaves, Instr.flow] at hl

/-- The code of an instruction that leaves, once its operand is in a register. -/
theorem run_instruction_leaves (hl : s.instr.leaves = true) (ht : s.instr.TempsOnly)
    (hb : ∀ t, s.instr.srcs = [.temp t] → ∃ r, a.regs.binding? t = some r) (exit : Label) :
    ∃ rs, run (instruction s exit true) a = ⟨(), a, (s.instr.select [] rs exit).map .native⟩ ∧
      ∀ t, s.instr.srcs = [.temp t] → ∃ r, rs = [r] ∧ a.regs.binding? t = some r := by
  obtain ⟨hd, hs⟩ := srcs_of_leaves hl ht
  rcases hs with hs | ⟨t, hs⟩
  · refine ⟨[], ?_, fun t ht => by simp [hs] at ht⟩
    unfold instruction resolve
    simp only [hs, hd]
    rfl
  · obtain ⟨r, hr⟩ := hb t hs
    refine ⟨[r], ?_, fun u hu => ?_⟩
    · unfold instruction resolve
      simp only [hs, hd, readAll, run_bind, run_hold_bound hr]
      rfl
    · rw [hs] at hu
      simp only [List.cons.injEq, Operand.temp.injEq, and_true] at hu
      exact ⟨r, rfl, hu ▸ hr⟩

/-- The first steps of a block; `todo` are those after them. -/
def stepsTo (exit : Label) (leaves : Bool) (todo : List Step) : List Step → AllocE Unit
  | [] => pure ()
  | s :: rest => do
    step s exit (!(leaves && (rest ++ todo).isEmpty))
    stepsTo exit leaves todo rest

end Alloc

namespace Alloc

/-- Allocation for a function up to the first step of block `b`, which comes after the blocks `before`. -/
def toBlock (g : FlowGraph) (name : Label) (params : List Temp) (before : List Block) (b : Block) : AllocE Unit := do
  liftM (change fun s => s.reset (g.tempCount params))
  liftM (report (.allocating name (g.tempCount params) g.reachable.length))
  liftM (takeParams g params)
  blocks name.exit before
  liftM (arrive b)
  liftM (change enter)
  liftM (report (.entering b.id b.ending b.liveIn))

theorem blocks_append (exit : Label) (bs cs : List Block) :
    blocks exit (bs ++ cs) = (do blocks exit bs; blocks exit cs) := by
  induction bs with
  | nil => rw [blocks, pure_bind]; rfl
  | cons b bs ih => rw [List.cons_append, blocks, blocks, ih, bind_assoc]

/-- The way to the first step of a block: the parameters, then the blocks before it. -/
theorem toBlock_parts {g : FlowGraph} {name : Label} {params : List Temp} {before : List Block} {b : Block}
    (h : Yields (toBlock g name params before b) a () a' τ) :
    ∃ a₁ a₂ τ₁ τ₂, run (takeParams g params) (a.reset (g.tempCount params)) = ⟨(), a₁, τ₁⟩ ∧
      Yields (blocks name.exit before) a₁ () a₂ τ₂ ∧ a' = enter a₂ ∧
      τ = .note (.allocating name (g.tempCount params) g.reachable.length) :: (τ₁ ++ (τ₂ ++
        (b.label.toList.map .label ++ [.note (.entering b.id b.ending b.liveIn)]))) := by
  unfold toBlock at h
  simp only [Yields.bind_iff, Yields.lift_iff, run_change, run_report, run_arrive] at h
  obtain ⟨_, _, _, _, e1, ⟨_, _, _, _, e2, ⟨_, a₁, τ₁, _, h1, ⟨_, a₂, τ₂, _, h2,
    ⟨_, _, _, _, e3, ⟨_, _, _, _, e4, e5, rfl⟩, rfl⟩, rfl⟩, rfl⟩, rfl⟩, rfl⟩ := h
  obtain ⟨-, rfl, rfl⟩ := Emitted.mk.inj e1
  obtain ⟨-, rfl, rfl⟩ := Emitted.mk.inj e2
  obtain ⟨-, rfl, rfl⟩ := Emitted.mk.inj e3
  obtain ⟨-, rfl, rfl⟩ := Emitted.mk.inj e4
  obtain ⟨-, rfl, rfl⟩ := Emitted.mk.inj e5
  exact ⟨a₁, a₂, τ₁, τ₂, h1, h2, rfl, rfl⟩

/-- A block starts with a valid state and empty registers. -/
theorem toBlock_state {g : FlowGraph} {name : Label} {params : List Temp} {before : List Block} {b : Block}
    (hv : (a.reset (g.tempCount params)).Valid) (hp : ∀ c ∈ before, Plain c)
    (h : Yields (toBlock g name params before b) a () a' τ) :
    a'.Valid ∧ ∀ t, a'.regs.binding? t = none := by
  obtain ⟨a₁, a₂, τ₁, τ₂, h1, h2, rfl, -⟩ := toBlock_parts h
  have hclean : Clean [] _ _ _ := (tidy_takeParams hv g params).clean h1
  exact ⟨valid_enter (blocks_valid hclean.valid (fun c hc => (hp c hc).formed) h2),
    RegisterFile.binding?_resetBlock a₂.regs⟩

end Alloc

/-- A function that adds its parameters, calls another with the sum, and takes the first one off the result. -/
def Func.caller : Func := ⟨⟨"f"⟩, [⟨0⟩, ⟨1⟩],
  [.binary .add (.temp ⟨2⟩) (.temp ⟨0⟩) (.temp ⟨1⟩), .call (some (.temp ⟨3⟩)) ⟨"g"⟩ [.temp ⟨2⟩, .temp ⟨0⟩],
    .binary .sub (.temp ⟨4⟩) (.temp ⟨3⟩) (.temp ⟨0⟩), .ret (some (.temp ⟨4⟩))]⟩

end ThreeAddress
