import ThreeAddress.Proofs.Allocator.Walk

/-!
What allocation reports.  Apart from the search for a register, computations report no evictions and count none
(`Routine`); the search reports each eviction once and counts it once.  That a load is one of what was never stored is
reported when its code is written, so allocation does not report it.

Main statement: over a whole run, failed or not, the count of evictions is the number of those reported
(`tracked_accept`).
-/

namespace ThreeAddress

theorem RegisterFile.mem_unbindNotes {f : RegisterFile} {t : Temp} {n : Note} (h : n ∈ f.unbindNotes t) :
    ∃ u r, n = .unbound u r := by
  unfold unbindNotes at h
  split at h
  · exact ⟨_, _, List.mem_singleton.1 h⟩
  · simp at h

theorem RegisterFile.mem_bindNotes {f : RegisterFile} {t : Temp} {r : Reg} {n : Note} (h : n ∈ f.bindNotes t r) :
    ∃ u q, n = .unbound u q ∨ n = .bound u q := by
  unfold bindNotes at h
  rcases List.mem_append.1 h with h | h
  · split at h
    · obtain ⟨u, q, hn⟩ := mem_unbindNotes h
      exact ⟨u, q, .inl hn⟩
    · simp at h
  · exact ⟨t, r, .inr (List.mem_singleton.1 h)⟩

namespace Action

def isEviction : Action → Bool
  | .note (.spilled _ _ _) => true
  | _ => false

def isUnstored : Action → Bool
  | .note (.unstoredRead _ _) => true
  | _ => false

/-- Whether the action is anything but the report of an eviction or of a load of what was never stored. -/
def isRoutine : Action → Bool
  | .note (.spilled _ _ _) | .note (.evictingOperand _) | .note (.unstoredRead _ _) => false
  | _ => true

theorem isEviction_of_isRoutine {e : Action} (h : e.isRoutine = true) : e.isEviction = false := by
  cases e with
  | note n => cases n <;> first | rfl | simp [isRoutine] at h
  | store | load | native | label | comment => rfl

theorem isUnstored_of_isRoutine {e : Action} (h : e.isRoutine = true) : e.isUnstored = false := by
  cases e with
  | note n => cases n <;> first | rfl | simp [isRoutine] at h
  | store | load | native | label | comment => rfl

def evictions (τ : List Action) : Nat := τ.countP isEviction

@[simp] theorem evictions_append (τ υ : List Action) : evictions (τ ++ υ) = evictions τ + evictions υ :=
  List.countP_append

theorem evictions_eq_zero {τ : List Action} (h : ∀ e ∈ τ, e.isRoutine = true) : evictions τ = 0 :=
  List.countP_eq_zero.2 fun e he => by simp [isEviction_of_isRoutine (h e he)]

end Action

/-- From state `a` to `a'` allocation emitted `τ`: the pool is the same, the evictions have been counted, and no load is
reported as one of what was never stored. -/
structure Tracked (a : Allocator) (τ : List Action) (a' : Allocator) : Prop where
  pool : a'.regs.pool = a.regs.pool
  spills : a'.spills = a.spills + Action.evictions τ
  unreported : ∀ e ∈ τ, e.isUnstored = false

theorem Tracked.trans {a a₁ a₂ : Allocator} {τ υ : List Action} (h₁ : Tracked a τ a₁) (h₂ : Tracked a₁ υ a₂) :
    Tracked a (τ ++ υ) a₂ where
  pool := h₂.pool.trans h₁.pool
  spills := by rw [h₂.spills, h₁.spills, Action.evictions_append, Nat.add_assoc]
  unreported := List.forall_mem_append.2 ⟨h₁.unreported, h₂.unreported⟩

namespace Alloc

/-- From every state the computation changes neither the pool nor the count of evictions, and reports nothing of the
kind. -/
def Routine {α : Type} (x : Alloc α) : Prop :=
  ∀ a, (run x a).state.regs.pool = a.regs.pool ∧ (run x a).state.spills = a.spills ∧
    ∀ e ∈ (run x a).trace, e.isRoutine = true

namespace Routine

section

variable {α β : Type}

theorem pure (v : α) : Routine (Pure.pure v) := fun _ => ⟨rfl, rfl, by simp [run_pure]⟩

theorem bind {x : Alloc α} {f : α → Alloc β} (hx : Routine x) (hf : ∀ v, Routine (f v)) : Routine (x >>= f) := by
  intro a
  obtain ⟨hp, hs, he⟩ := hx a
  obtain ⟨hp', hs', he'⟩ := hf (run x a).value (run x a).state
  exact ⟨hp'.trans hp, hs'.trans hs, List.forall_mem_append.2 ⟨he, he'⟩⟩

theorem forM {γ : Type} {f : γ → Alloc Unit} (hf : ∀ x, Routine (f x)) (l : List γ) : Routine (l.forM f) := by
  induction l with
  | nil => exact pure ()
  | cons x l ih => exact bind (hf x) fun _ => ih

end

theorem state : Routine state := fun _ => ⟨rfl, rfl, by simp [run_state]⟩

theorem change {f : Allocator → Allocator} (hp : ∀ a, (f a).regs.pool = a.regs.pool)
    (hs : ∀ a, (f a).spills = a.spills) : Routine (change f) := fun a => ⟨hp a, hs a, by simp [run_change]⟩

theorem emit {e : Action} (he : e.isRoutine = true) : Routine (emit e) :=
  fun _ => ⟨rfl, rfl, by simpa [run_emit] using he⟩

theorem remark (text : String) : Routine (remark text) := by
  refine state.bind fun a => ?_
  split
  · exact emit rfl
  · exact pure ()

theorem emitCode (code : List Asm) : Routine (emitCode code) := fun _ => ⟨rfl, rfl, fun e he => by
  obtain ⟨x, -, rfl⟩ := List.mem_map.1 he
  rfl⟩

theorem assign (t : Temp) (r : Reg) : Routine (assign t r) :=
  fun _ => ⟨RegisterFile.pool_bind t r, rfl, fun e he => by
    obtain ⟨n, hn, rfl⟩ := List.mem_map.1 he
    obtain ⟨u, q, rfl | rfl⟩ := RegisterFile.mem_bindNotes hn <;> rfl⟩

theorem forget (t : Temp) : Routine (forget t) := fun _ => ⟨RegisterFile.pool_without _ t, rfl, fun e he => by
  obtain ⟨n, hn, rfl⟩ := List.mem_map.1 he
  obtain ⟨u, q, rfl⟩ := RegisterFile.mem_unbindNotes hn
  rfl⟩

theorem writeBack (ts : TempSet) : Routine (writeBack ts) := by
  refine forM (fun t => state.bind fun a => ?_) _
  split
  · exact emit rfl
  · exact pure ()

theorem vacate (live : TempSet) (r : Reg) : Routine (vacate live r) := by
  refine state.bind fun a => ?_
  split
  · split
    · exact (emit rfl).bind fun _ => (emit rfl).bind fun _ => forget _
    · exact forget _
  · exact pure ()

theorem pass (t : Temp) (r : Reg) : Routine (pass t r) :=
  (forget t).bind fun _ => (emit rfl).bind fun _ => assign t r

theorem drop (r : Reg) : Routine (drop r) := by
  refine state.bind fun a => ?_
  split
  · exact forget _
  · exact pure ()

theorem call (s : Step) (args : List Temp) (dst : Option Temp) (exit : Label) : Routine (call s args dst exit) := by
  have hpass : ∀ p : Temp × Reg, Routine (Alloc.pass p.1 p.2) := fun p => pass p.1 p.2
  unfold Alloc.call
  refine bind (change (fun _ => rfl) fun _ => rfl) fun _ => ?_
  refine bind (remark _) fun _ => ?_
  refine bind (forM (vacate s.liveIn) _) fun _ => ?_
  refine bind (forM hpass _) fun _ => ?_
  refine bind (emitCode _) fun _ => ?_
  refine bind (forM drop _) fun _ => ?_
  cases dst with
  | some t => exact (assign _ _).bind fun _ => emit rfl
  | none => exact pure ()

theorem takeParams (g : FlowGraph) (params : List Temp) : Routine (takeParams g params) :=
  (forM (fun _ => assign _ _) _).bind fun _ => writeBack _

end Routine

def Tracks {α : Type} (x : Alloc α) : Prop := ∀ a, Tracked a (run x a).trace (run x a).state

theorem Routine.tracks {α : Type} {x : Alloc α} (h : Routine x) : Tracks x := by
  intro a
  obtain ⟨hp, hs, he⟩ := h a
  refine ⟨hp, ?_, fun e hm => Action.isUnstored_of_isRoutine (he e hm)⟩
  rw [hs, Action.evictions_eq_zero he, Nat.add_zero]

theorem run_evict_of_none {a : Allocator} {r : Reg} (h : a.regs.occupant? r = none) (t : Temp) :
    run (evict r t) a = ⟨(), a, []⟩ := by
  unfold evict
  rw [run_bind, run_state]
  simp only [h]
  rfl

/-- Stores what register `r` holds and takes it out. -/
def unload (r : Reg) (u : Temp) : Alloc Unit := do
  remark (Note.spilledText r u)
  emit (.store r u)
  forget u

theorem routine_unload (r : Reg) (u : Temp) : Routine (unload r u) :=
  (Routine.remark _).bind fun _ => (Routine.emit rfl).bind fun _ => .forget u

theorem does_unload (a : Allocator) (r : Reg) (u : Temp) :
    Does (unload r u) a () { a with regs := a.regs.without u } [.store r u] :=
  (Does.remark a _).andThen ((Does.store a r u).bind (Does.forget a u))

theorem run_evict {a : Allocator} {r : Reg} {u : Temp} (h : a.regs.occupant? r = some u) (t : Temp) :
    run (evict r t) a = ⟨(), { a with regs := a.regs.without u, spills := a.spills + 1 },
      .note (.spilled r u t) :: (run (unload r u) a).trace⟩ := by
  unfold evict unload
  rw [run_bind, run_state]
  simp only [h, run_bind, run_report, run_remark, run_emit, run_change, List.nil_append, List.append_nil]
  rfl

namespace Tracks

section

variable {α β : Type}

theorem bind {x : Alloc α} {f : α → Alloc β} (hx : Tracks x) (hf : ∀ v, Tracks (f v)) : Tracks (x >>= f) :=
  fun a => (hx a).trans (hf _ _)

theorem bindE {x : AllocE α} {f : α → AllocE β} (hx : Tracks x.run) (hf : ∀ v, Tracks (f v).run) :
    Tracks (x >>= f).run := by
  rw [ExceptT.run_bind]
  refine hx.bind fun r => ?_
  cases r with
  | error err => exact (Routine.pure _).tracks
  | ok v => exact hf v

theorem lift {x : Alloc α} (hx : Tracks x) : Tracks (liftM x : AllocE α).run :=
  hx.bind fun _ => (Routine.pure _).tracks

theorem tracked {x : AllocE α} {a a' : Allocator} {v : α} {τ : List Action} (hx : Tracks x.run)
    (h : Yields x a v a' τ) : Tracked a τ a' := by
  have ht := hx a
  unfold Yields at h
  rw [h] at ht
  exact ht

end

/-! ### The choice of a register -/

theorem victim (read : Bool) (pinned : List Reg) : Tracks (victim read pinned) := by
  have hadvance : ∀ i, Routine (Alloc.change fun s => s.advance i) := fun i => .change (fun _ => rfl) fun _ => rfl
  have hreport : ∀ r, Tracks (report (.evictingOperand r)) :=
    fun r a => ⟨rfl, rfl, by simp [run_report, Action.isUnstored]⟩
  refine bind (Routine.state.tracks) fun a => ?_
  dsimp only
  split
  · exact ((hadvance _).bind fun _ => .pure _).tracks
  · split
    · exact (hreport _).bind fun _ => ((hadvance _).bind fun _ => .pure _).tracks
    · exact ((hadvance _).bind fun _ => .pure _).tracks

/-- An eviction is reported once and counted once. -/
theorem evict (r : Reg) (t : Temp) : Tracks (evict r t) := by
  intro a
  cases ho : a.regs.occupant? r with
  | none =>
    rw [run_evict_of_none ho]
    exact (Routine.pure ()).tracks a
  | some u =>
    obtain ⟨-, -, hroutine⟩ := routine_unload r u a
    rw [run_evict ho]
    refine ⟨RegisterFile.pool_without _ u, ?_, List.forall_mem_cons.2 ⟨rfl, fun e he => ?_⟩⟩
    · rw [Action.evictions, List.countP_cons, ← Action.evictions, Action.evictions_eq_zero hroutine]
      rfl
    · exact Action.isUnstored_of_isRoutine (hroutine e he)

theorem hold (t : Temp) (read : Bool) (live : TempSet) (pinned : List Reg) : Tracks (hold t read live pinned) := by
  refine bind (Routine.state.tracks) fun a => ?_
  split
  · exact (Routine.pure _).tracks
  · split
    · refine Routine.tracks ((Routine.emit rfl).bind fun _ => (Routine.remark _).bind fun _ => ?_)
      split
      · exact (Routine.emit rfl).bind fun _ => (Routine.assign _ _).bind fun _ => .pure _
      · exact (Routine.assign _ _).bind fun _ => .pure _
    · refine (victim read pinned).bind fun r => (evict r t).bind fun _ => Routine.tracks ?_
      refine (Routine.remark _).bind fun _ => (Routine.assign t r).bind fun _ => ?_
      split
      · exact (Routine.emit rfl).bind fun _ => .pure _
      · exact .pure _

theorem readAll (live : TempSet) (pinned : List Reg) (ops : List Operand) : Tracks (readAll live pinned ops) := by
  induction ops generalizing pinned with
  | nil => exact (Routine.pure _).tracks
  | cons op ops ih =>
    have hrest : ∀ r, Tracks (do let rs ← Alloc.readAll live (r :: pinned) ops; return r :: rs) :=
      fun r => (ih (r :: pinned)).bind fun _ => (Routine.pure _).tracks
    cases op with
    | temp t => exact (hold t true live pinned).bind hrest
    | reg r => exact hrest r

theorem writeAll (live : TempSet) (pinned : List Reg) (ops : List Operand) : Tracks (writeAll live pinned ops) := by
  induction ops with
  | nil => exact (Routine.pure _).tracks
  | cons op ops ih =>
    have hrest : ∀ r, Tracks (do let rs ← Alloc.writeAll live pinned ops; return r :: rs) :=
      fun r => ih.bind fun _ => (Routine.pure _).tracks
    cases op with
    | temp t => exact (hold t false live pinned).bind hrest
    | reg r => exact hrest r

/-! ### Steps, blocks, functions -/

theorem instruction (s : Step) (exit : Label) (emitted : Bool) : Tracks (instruction s exit emitted) := by
  have hresolve : Tracks (resolve s) :=
    (readAll _ _ _).bind fun _ => (writeAll _ _ _).bind fun _ => (Routine.pure _).tracks
  refine hresolve.bind fun p => Routine.tracks ?_
  dsimp only
  split
  · exact .emitCode _
  · exact .pure ()

theorem step (s : Step) (exit : Label) (emitted : Bool) : Tracks (step s exit emitted).run := by
  obtain ⟨i, liveIn, liveOut⟩ := s
  have hwrite : Tracks (liftM (writeBack liveOut) : AllocE Unit).run := lift (Routine.writeBack _).tracks
  cases i with
  | call dst l args =>
    have htemps : Tracks (liftM (callTemps (.call dst l args) dst args) : AllocE _).run := (Routine.pure _).tracks
    exact htemps.bindE fun v => (lift (Routine.call _ v.1 v.2 exit).tracks).bindE fun _ => hwrite
  | move | const | unary | binary | jump | branch | ret | mark | memo =>
    exact (lift (Routine.emit rfl).tracks).bindE fun _ => (lift (Routine.remark _).tracks).bindE fun _ =>
      (lift (instruction _ exit emitted)).bindE fun _ => hwrite

theorem steps (exit : Label) (leaves : Bool) (ss : List Step) : Tracks (steps exit leaves ss).run := by
  induction ss with
  | nil => exact (Routine.pure _).tracks
  | cons s ss ih => exact (step s exit _).bindE fun _ => ih

theorem block (b : Block) (exit : Label) : Tracks (block b exit).run := by
  have harrive : Routine (arrive b) := by
    unfold arrive
    split
    · exact .emit rfl
    · exact .pure ()
  have henter : Routine (change enter) := .change (fun _ => rfl) fun _ => rfl
  have hleave : Tracks (leave b exit) := by
    unfold leave
    split
    · exact instruction _ exit true
    · exact (Routine.pure ()).tracks
  rw [block_eq]
  exact (lift harrive.tracks).bindE fun _ => (lift henter.tracks).bindE fun _ =>
    (lift (Routine.emit rfl).tracks).bindE fun _ => (steps exit _ _).bindE fun _ => lift hleave

theorem blocks (exit : Label) (bs : List Block) : Tracks (blocks exit bs).run := by
  induction bs with
  | nil => exact (Routine.pure _).tracks
  | cons b bs ih => exact (block b exit).bindE fun _ => ih

end Tracks

/-- **A run of allocation counts its evictions** and reports no load as one of what was never stored. -/
theorem tracked_accept (a : Allocator) (g : FlowGraph) (name : Label) (params : List Temp) :
    Tracked (a.reset (g.tempCount params)) (a.accept g name params).actions (a.accept g name params).final := by
  have hrest : Tracks (do
      (liftM (report (.allocating name (g.tempCount params) g.reachable.length)) : AllocE Unit)
      liftM (takeParams g params)
      blocks name.exit g.reachableBlocks
      let a ← (liftM state : AllocE Allocator)
      liftM (report (.spills name a.spills))).run :=
    (Tracks.lift (Routine.emit rfl).tracks).bindE fun _ => (Tracks.lift (Routine.takeParams g params).tracks).bindE
      fun _ => (Tracks.blocks _ _).bindE fun _ => (Tracks.lift Routine.state.tracks).bindE fun _ =>
        Tracks.lift (Routine.emit rfl).tracks
  have haccept : Tracked (a.reset (g.tempCount params)) (run (function g name params).run a).trace
      (run (function g name params).run a).state := by
    rw [function_eq]
    exact hrest (a.reset (g.tempCount params))
  exact haccept

end Alloc

end ThreeAddress
