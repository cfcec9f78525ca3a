import ThreeAddress.Proofs.Allocator.Walk

/-!
Runs of allocation that keep step.  Allocation asks the state for the register of a temporary, the occupant of a
register, the pool, the cursor and the evictions so far, and for nothing else; so two states that answer alike, and go
on to do so whatever is done to both, lead to the same values and the same actions (`Alloc.Correspondence`,
`Alloc.InStep`).  Only `Alloc.remark` looks at the switch for comments.

Two correspondences are of use: states that differ in the switch, if comments are left out of what is seen, and states
whose tables of temporaries differ in how far they reach.

Main statements: allocation for a function keeps step with the switch on and off, failed or not
(`Alloc.inStep_function`), and the size of the table is never asked for (`Alloc.correspondence_alike`).
-/

namespace ThreeAddress

namespace Alloc

/-- Related states answer every question of allocation alike, and stay related whatever it does to both.  Of the
actions, those count that are `seen`. -/
structure Correspondence (R : Allocator → Allocator → Prop) (seen : Action → Bool) : Prop where
  pool : ∀ {a b}, R a b → a.regs.pool = b.regs.pool
  binding? : ∀ {a b}, R a b → ∀ t, a.regs.binding? t = b.regs.binding? t
  occupant? : ∀ {a b}, R a b → ∀ r, a.regs.occupant? r = b.regs.occupant? r
  cursor : ∀ {a b}, R a b → a.cursor = b.cursor
  spills : ∀ {a b}, R a b → a.spills = b.spills
  remarks : ∀ {a b}, R a b → ∀ text : String,
    List.filter seen (if a.comments then [.comment text] else []) =
      List.filter seen (if b.comments then [.comment text] else [])
  assigned : ∀ {a b}, R a b → ∀ t r, R { a with regs := a.regs.bind t r } { b with regs := b.regs.bind t r }
  forgotten : ∀ {a b}, R a b → ∀ t, R { a with regs := a.regs.without t } { b with regs := b.regs.without t }
  entered : ∀ {a b}, R a b → R (enter a) (enter b)
  advanced : ∀ {a b}, R a b → ∀ i, R (a.advance i) (b.advance i)
  spilled : ∀ {a b}, R a b → R { a with spills := a.spills + 1 } { b with spills := b.spills + 1 }
  called : ∀ {a b}, R a b → R { a with hasCalls := true } { b with hasCalls := true }

/-- From related states the computation gives the same value and the same actions, as far as they are seen, and ends in
related states. -/
structure InStep (R : Allocator → Allocator → Prop) (seen : Action → Bool) {α : Type} (x : Alloc α) : Prop where
  value : ∀ {a b}, R a b → (run x a).value = (run x b).value
  state : ∀ {a b}, R a b → R (run x a).state (run x b).state
  trace : ∀ {a b}, R a b → (run x a).trace.filter seen = (run x b).trace.filter seen

variable {R : Allocator → Allocator → Prop} {seen : Action → Bool}

namespace InStep

section

variable {α β : Type}

theorem pure (v : α) : InStep R seen (Pure.pure v) := ⟨fun _ => rfl, fun h => h, fun _ => rfl⟩

theorem bind {x : Alloc α} {f : α → Alloc β} (hx : InStep R seen x) (hf : ∀ v, InStep R seen (f v)) :
    InStep R seen (x >>= f) where
  value h := by simp only [run_bind, hx.value h, (hf _).value (hx.state h)]
  state h := by
    simp only [run_bind, hx.value h]
    exact (hf _).state (hx.state h)
  trace h := by simp only [run_bind, List.filter_append, hx.value h, hx.trace h, (hf _).trace (hx.state h)]

/-- What is done may depend on the state, as far as related states agree. -/
theorem observe {f : Allocator → Alloc β} (hsame : ∀ {a b}, R a b → f a = f b) (hf : ∀ a, InStep R seen (f a)) :
    InStep R seen (Alloc.state >>= f) where
  value {a b} h := by simp only [run_bind, run_state, hsame h, (hf b).value h]
  state {a b} h := by
    simp only [run_bind, run_state, hsame h]
    exact (hf b).state h
  trace {a b} h := by simp only [run_bind, run_state, hsame h, List.nil_append, (hf b).trace h]

theorem forM {γ : Type} {f : γ → Alloc Unit} (hf : ∀ x, InStep R seen (f x)) (l : List γ) :
    InStep R seen (l.forM f) := by
  induction l with
  | nil => exact pure ()
  | cons x l ih => exact bind (hf x) fun _ => ih

end

theorem change {f : Allocator → Allocator} (hf : ∀ {a b}, R a b → R (f a) (f b)) : InStep R seen (change f) :=
  ⟨fun _ => rfl, hf, fun _ => rfl⟩

theorem emit (e : Action) : InStep R seen (emit e) := ⟨fun _ => rfl, fun h => h, fun _ => rfl⟩

theorem emitCode (code : List Asm) : InStep R seen (emitCode code) := ⟨fun _ => rfl, fun h => h, fun _ => rfl⟩

section

variable {α β : Type}

theorem bindE {x : AllocE α} {f : α → AllocE β} (hx : InStep R seen x.run) (hf : ∀ v, InStep R seen (f v).run) :
    InStep R seen (x >>= f).run := by
  rw [ExceptT.run_bind]
  refine hx.bind fun r => ?_
  cases r with
  | error e => exact pure _
  | ok v => exact hf v

theorem lift {x : Alloc α} (hx : InStep R seen x) : InStep R seen (liftM x : AllocE α).run := hx.bind fun _ => pure _

end

end InStep

namespace Correspondence

variable (hc : Correspondence R seen)
include hc

theorem free? {a b : Allocator} (h : R a b) (read : Bool) (live : TempSet) (pinned : List Reg) :
    a.free? read live pinned = b.free? read live pinned := by
  unfold Allocator.free?
  simp only [hc.pool h, hc.occupant? h]

theorem fromCursor {a b : Allocator} (h : R a b) : a.fromCursor = b.fromCursor := by
  unfold Allocator.fromCursor
  rw [hc.pool h, hc.cursor h]

theorem unbindNotes {a b : Allocator} (h : R a b) (t : Temp) : a.regs.unbindNotes t = b.regs.unbindNotes t := by
  unfold RegisterFile.unbindNotes
  rw [hc.binding? h]

theorem bindNotes {a b : Allocator} (h : R a b) (t : Temp) (r : Reg) :
    a.regs.bindNotes t r = b.regs.bindNotes t r := by
  unfold RegisterFile.bindNotes RegisterFile.displaced?
  simp only [hc.occupant? h, hc.unbindNotes h]

end Correspondence

namespace InStep

variable (hc : Correspondence R seen)
include hc

theorem remark (text : String) : InStep R seen (remark text) where
  value h := by rw [run_remark, run_remark]
  state h := by rw [run_remark, run_remark]; exact h
  trace h := by rw [run_remark, run_remark]; exact hc.remarks h text

theorem assign (t : Temp) (r : Reg) : InStep R seen (assign t r) where
  value h := rfl
  state h := hc.assigned h t r
  trace h := by rw [run_assign, run_assign, hc.bindNotes h]

theorem forget (t : Temp) : InStep R seen (forget t) where
  value h := rfl
  state h := hc.forgotten h t
  trace h := by rw [run_forget, run_forget, hc.unbindNotes h]

theorem writeBack (ts : TempSet) : InStep R seen (writeBack ts) := by
  refine forM (fun t => observe (fun h => by simp only [hc.binding? h]) fun a => ?_) _
  split
  · exact emit _
  · exact pure ()

/-! ### The choice of a register -/

theorem victim (read : Bool) (pinned : List Reg) : InStep R seen (victim read pinned) := by
  have hadvance : ∀ (i : Nat) (r : Reg),
      InStep R seen (Alloc.change (fun s => s.advance i) >>= fun _ => (Pure.pure r : Alloc Reg)) :=
    fun i r => (change fun h => hc.advanced h i).bind fun _ => pure r
  refine observe (fun h => by simp only [hc.fromCursor h]) fun a => ?_
  dsimp only
  split
  · exact hadvance _ _
  · split
    · exact (emit _).bind fun _ => hadvance _ _
    · exact hadvance _ _

theorem evict (r : Reg) (t : Temp) : InStep R seen (evict r t) := by
  refine observe (fun h => by simp only [hc.occupant? h]) fun a => ?_
  split
  · exact (emit _).bind fun _ => (remark hc _).bind fun _ => (emit _).bind fun _ => (forget hc _).bind fun _ =>
      change hc.spilled
  · exact pure ()

theorem hold (t : Temp) (read : Bool) (live : TempSet) (pinned : List Reg) :
    InStep R seen (hold t read live pinned) := by
  refine observe (fun h => by simp only [hc.binding? h, hc.free? h]) fun a => ?_
  split
  · exact pure _
  · split
    · refine (emit _).bind fun _ => (remark hc _).bind fun _ => ?_
      split
      · exact (emit _).bind fun _ => (assign hc _ _).bind fun _ => pure _
      · exact (assign hc _ _).bind fun _ => pure _
    · refine (victim hc read pinned).bind fun r => (evict hc r t).bind fun _ => (remark hc _).bind fun _ =>
        (assign hc t r).bind fun _ => ?_
      split
      · exact (emit _).bind fun _ => pure _
      · exact pure _

theorem readAll (live : TempSet) (pinned : List Reg) (ops : List Operand) :
    InStep R seen (readAll live pinned ops) := by
  induction ops generalizing pinned with
  | nil => exact pure _
  | cons op ops ih =>
    have hrest : ∀ r, InStep R seen (do let rs ← Alloc.readAll live (r :: pinned) ops; return r :: rs) :=
      fun r => (ih (r :: pinned)).bind fun _ => pure _
    cases op with
    | temp t => exact (hold hc t true live pinned).bind hrest
    | reg r => exact hrest r

theorem writeAll (live : TempSet) (pinned : List Reg) (ops : List Operand) :
    InStep R seen (writeAll live pinned ops) := by
  induction ops with
  | nil => exact pure _
  | cons op ops ih =>
    have hrest : ∀ r, InStep R seen (do let rs ← Alloc.writeAll live pinned ops; return r :: rs) :=
      fun r => ih.bind fun _ => pure _
    cases op with
    | temp t => exact (hold hc t false live pinned).bind hrest
    | reg r => exact hrest r

theorem instruction (s : Step) (exit : Label) (emitted : Bool) : InStep R seen (instruction s exit emitted) := by
  have hresolve : InStep R seen (resolve s) :=
    (readAll hc _ _ _).bind fun _ => (writeAll hc _ _ _).bind fun _ => pure _
  refine hresolve.bind fun p => ?_
  dsimp only
  split
  · exact emitCode _
  · exact pure ()

/-! ### Calls -/

theorem vacate (live : TempSet) (r : Reg) : InStep R seen (vacate live r) := by
  refine observe (fun h => by simp only [hc.occupant? h]) fun a => ?_
  split
  · split
    · exact (emit _).bind fun _ => (emit _).bind fun _ => forget hc _
    · exact forget hc _
  · exact pure ()

theorem drop (r : Reg) : InStep R seen (drop r) := by
  refine observe (fun h => by simp only [hc.occupant? h]) fun a => ?_
  split
  · exact forget hc _
  · exact pure ()

theorem pass (p : Temp × Reg) : InStep R seen (pass p.1 p.2) :=
  (forget hc _).bind fun _ => (emit _).bind fun _ => assign hc _ _

theorem call (s : Step) (args : List Temp) (dst : Option Temp) (exit : Label) :
    InStep R seen (call s args dst exit) := by
  unfold Alloc.call
  refine (change hc.called).bind fun _ => ?_
  refine (remark hc _).bind fun _ => ?_
  refine (forM (vacate hc s.liveIn) _).bind fun _ => ?_
  refine (forM (pass hc) _).bind fun _ => ?_
  refine (emitCode _).bind fun _ => ?_
  refine (forM (drop hc) _).bind fun _ => ?_
  cases dst with
  | some t => exact (assign hc _ _).bind fun _ => emit _
  | none => exact pure ()

/-! ### Steps and blocks -/

theorem step (s : Step) (exit : Label) (emitted : Bool) : InStep R seen (step s exit emitted).run := by
  obtain ⟨i, liveIn, liveOut⟩ := s
  have hwrite : InStep R seen (liftM (Alloc.writeBack liveOut) : AllocE Unit).run := lift (writeBack hc _)
  cases i with
  | call dst l args =>
    have htemps : InStep R seen (liftM (callTemps (.call dst l args) dst args) : AllocE _).run := pure _
    exact htemps.bindE fun v => (lift (call hc _ v.1 v.2 exit)).bindE fun _ => hwrite
  | move | const | unary | binary | jump | branch | ret | mark | memo =>
    exact (lift (emit _)).bindE fun _ => (lift (remark hc _)).bindE fun _ =>
      (lift (instruction hc _ exit emitted)).bindE fun _ => hwrite

theorem steps (exit : Label) (leaves : Bool) (ss : List Step) : InStep R seen (steps exit leaves ss).run := by
  induction ss with
  | nil => exact pure _
  | cons s ss ih => exact (step hc s exit _).bindE fun _ => ih

theorem block (b : Block) (exit : Label) : InStep R seen (block b exit).run := by
  have harrive : InStep R seen (arrive b) := by
    unfold arrive
    split
    · exact emit _
    · exact pure ()
  have hleave : InStep R seen (leave b exit) := by
    unfold leave
    split
    · exact instruction hc _ exit true
    · exact pure ()
  rw [block_eq]
  exact (lift harrive).bindE fun _ => (lift (change hc.entered)).bindE fun _ =>
    (lift (emit _)).bindE fun _ => (steps hc exit _ _).bindE fun _ => lift hleave

theorem blocks (exit : Label) (bs : List Block) : InStep R seen (blocks exit bs).run := by
  induction bs with
  | nil => exact pure _
  | cons b bs ih => exact (block hc b exit).bindE fun _ => ih

theorem afterReset (g : FlowGraph) (name : Label) (params : List Temp) :
    InStep R seen (afterReset g name params).run := by
  have hparams : InStep R seen (takeParams g params) :=
    (forM (fun _ => assign hc _ _) _).bind fun _ => writeBack hc _
  have hcount : InStep R seen (do
      let a ← (liftM Alloc.state : AllocE Allocator)
      (liftM (report (.spills name a.spills)) : AllocE Unit)).run := by
    rw [← liftM_bind]
    exact lift (observe (fun h => by simp only [hc.spills h]) fun _ => emit _)
  exact (lift hparams).bindE fun _ => (blocks hc _ _).bindE fun _ => hcount

end InStep

end Alloc

/-! ### Comments -/

def Allocator.commenting (a : Allocator) (on : Bool) : Allocator := { a with comments := on }

namespace Action

/-- Whether the action is a comment.  The code of a memo is not: it is there whether comments are wanted or not. -/
def isComment : Action → Bool
  | .comment _ => true
  | _ => false

def uncommented (τ : List Action) : List Action := τ.filter fun α => !α.isComment

theorem uncommented_remark (on : Bool) (text : String) : uncommented (if on then [.comment text] else []) = [] := by
  cases on <;> rfl

end Action

namespace Alloc

theorem correspondence_commenting (on : Bool) :
    Correspondence (fun a b => a = b.commenting on) fun α => !α.isComment where
  pool := by rintro _ b rfl; rfl
  binding? := by rintro _ b rfl t; rfl
  occupant? := by rintro _ b rfl r; rfl
  cursor := by rintro _ b rfl; rfl
  spills := by rintro _ b rfl; rfl
  remarks h text := (Action.uncommented_remark _ text).trans (Action.uncommented_remark _ text).symm
  assigned := by rintro _ b rfl t r; rfl
  forgotten := by rintro _ b rfl t; rfl
  entered := by rintro _ b rfl; rfl
  advanced := by rintro _ b rfl i; rfl
  spilled := by rintro _ b rfl; rfl
  called := by rintro _ b rfl; rfl

/-- **Comments have no part in the allocation for a function.** -/
theorem inStep_function (on : Bool) (g : FlowGraph) (name : Label) (params : List Temp) :
    InStep (fun a b => a = b.commenting on) (fun α => !α.isComment) (function g name params).run := by
  rw [function_eq_afterReset]
  refine (InStep.lift (.change ?_)).bindE fun _ => (InStep.lift (.emit _)).bindE fun _ =>
    InStep.afterReset (correspondence_commenting on) g name params
  rintro _ b rfl
  rfl

end Alloc

/-! ### The size of the table of temporaries -/

/-- The allocators differ in the size of the table of temporaries only. -/
structure Allocator.Alike (a b : Allocator) : Prop where
  regs : a.regs.Alike b.regs
  cursor : a.cursor = b.cursor
  comments : a.comments = b.comments
  hasCalls : a.hasCalls = b.hasCalls
  spills : a.spills = b.spills

theorem Allocator.alike_reset (a : Allocator) (n m : Nat) : (a.reset n).Alike (a.reset m) :=
  ⟨a.regs.alike_resetFunction n m, rfl, rfl, rfl, rfl⟩

/-- The size of the table is never asked for. -/
theorem Alloc.correspondence_alike : Correspondence Allocator.Alike fun _ => true where
  pool h := h.regs.pool
  binding? h := h.regs.binding?
  occupant? h := h.regs.occupant?
  cursor h := h.cursor
  spills h := h.spills
  remarks h text := by rw [h.comments]
  assigned h t r := { h with regs := h.regs.bind t r }
  forgotten h t := { h with regs := h.regs.without t }
  entered h := { h with regs := h.regs.resetBlock }
  advanced {a b} h i := { h with cursor := by rw [Allocator.advance, Allocator.advance, h.regs.pool] }
  spilled h := { h with spills := congrArg (· + 1) h.spills }
  called h := { h with hasCalls := rfl }

end ThreeAddress
