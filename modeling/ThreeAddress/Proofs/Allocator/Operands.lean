import ThreeAddress.Proofs.Allocator.Points

/-!
The operands of one instruction do not get in each other's way.  A register that has been found for an operand is pinned
for those after it, so no load for them goes there; and since an instruction reads at most two operands, a pool of two
registers always has one that is not pinned.  What is in a register after the operands are read was therefore loaded
there last, or was there before and has not been overwritten (`Backed`).

Main statement: different operands are in different registers when the code of an instruction is emitted, each with what
was last written there, and no operand is ever evicted for another (`operands_kept_apart`).
-/

namespace ThreeAddress

/-- What the choice of registers for an instruction relies on: the look-ups of the register file are inverse to each
other, and the pool has two different registers.  The cursor may be anywhere. -/
structure Allocator.Sound (a : Allocator) : Prop where
  consistent : a.regs.Consistent
  distinct : a.regs.pool.Nodup
  room : 2 ≤ a.regs.pool.length

theorem Allocator.Valid.sound {a : Allocator} (h : a.Valid) : a.Sound := ⟨h.consistent, h.distinct, h.room⟩

/-! ### The last write to a register -/

namespace Action

/-- The last of the actions that writes the register. -/
def lastWrite? (τ : List Action) (r : Reg) : Option Action := τ.reverse.find? fun α => α.dst? = some r

theorem lastWrite?_append (τ υ : List Action) (r : Reg) :
    lastWrite? (τ ++ υ) r = (lastWrite? υ r).or (lastWrite? τ r) := by
  rw [lastWrite?, List.reverse_append, List.find?_append]
  rfl

theorem lastWrite?_eq_none {τ : List Action} {r : Reg} (h : ∀ α ∈ τ, α.dst? ≠ some r) : lastWrite? τ r = none := by
  refine List.find?_eq_none.2 fun α hα => ?_
  simpa using h α (List.mem_reverse.1 hα)

theorem lastWrite?_essential (τ : List Action) (r : Reg) : lastWrite? (essential τ) r = lastWrite? τ r := by
  induction τ with
  | nil => rfl
  | cons α τ ih =>
    have hcons : ∀ υ : List Action, lastWrite? (α :: υ) r = (lastWrite? υ r).or (lastWrite? [α] r) :=
      fun υ => lastWrite?_append [α] υ r
    cases α with
    | store | load | native | label =>
      show lastWrite? (_ :: essential τ) r = _
      rw [hcons (essential τ), hcons τ, ih]
    | comment | note =>
      rw [hcons, lastWrite?_eq_none (τ := [_]) (by simp [dst?]), Option.or_none]
      exact ih

end Action

/-- What is in a register of `f'` was last written there by the actions, or was there in `f` and they write nothing
there. -/
def Backed (f : RegisterFile) (τ : List Action) (f' : RegisterFile) : Prop :=
  ∀ t r, f'.binding? t = some r → Action.lastWrite? τ r = some (.load r t) ∨
    Action.lastWrite? τ r = none ∧ f.binding? t = some r

namespace Backed

variable {f f₁ f₂ : RegisterFile} {τ υ : List Action}

theorem refl (f : RegisterFile) : Backed f [] f := fun _ _ hb => .inr ⟨rfl, hb⟩

theorem trans (h₁ : Backed f τ f₁) (h₂ : Backed f₁ υ f₂) : Backed f (τ ++ υ) f₂ := by
  intro t r hb
  rw [Action.lastWrite?_append]
  rcases h₂ t r hb with hload | ⟨hnone, hb₁⟩
  · left
    rw [hload, Option.some_or]
  · rw [hnone, Option.none_or]
    exact h₁ t r hb₁

theorem of_essential (h : Backed f (Action.essential τ) f₁) : Backed f τ f₁ := by
  intro t r hb
  rw [← Action.lastWrite?_essential]
  exact h t r hb

theorem store (f : RegisterFile) (r : Reg) (u : Temp) : Backed f [.store r u] (f.without u) := by
  intro t q hb
  exact .inr ⟨Action.lastWrite?_eq_none (by simp [Action.dst?]), RegisterFile.binding?_of_without hb⟩

theorem load (hc : f.Consistent) (r : Reg) (t : Temp) : Backed f [.load r t] (f.bind t r) := by
  intro u q hb
  rw [RegisterFile.binding?_bind] at hb
  split at hb
  · rename_i hu
    cases Option.some.inj hb
    left
    rw [hu]
    simp [Action.lastWrite?, Action.dst?]
  · split at hb
    · simp at hb
    · rename_i ho
      have hq : r ≠ q := by
        rintro rfl
        exact ho ((hc u r).1 hb)
      exact .inr ⟨Action.lastWrite?_eq_none (by simpa [Action.dst?] using hq), hb⟩

end Backed

/-! ### The register of one operand -/

/-- The result of the search for a register for `t`, with all that is reported.  It differs from `Held` in that a
register that is not pinned is there for a temporary that is read. -/
inductive Chosen (a : Allocator) (t : Temp) (read : Bool) (live : TempSet) (pinned : List Reg) : Emitted Reg → Prop
  | bound {r : Reg} : a.regs.binding? t = some r → Chosen a t read live pinned ⟨r, a, []⟩
  | free {r : Reg} {τ : List Action} : a.regs.binding? t = none → a.free? read live pinned = some r →
      (∀ e ∈ τ, e.isRoutine = true) → Action.essential τ = (if read then [.load r t] else []) →
      Chosen a t read live pinned ⟨r, { a with regs := a.regs.bind t r }, τ⟩
  | evicted {r : Reg} {u : Temp} {i : Nat} {τ : List Action} : a.regs.binding? t = none →
      a.free? read live pinned = none → r ∈ a.regs.pool → (read = true → r ∉ pinned) →
      a.regs.occupant? r = some u → (∀ e ∈ τ, e.isRoutine = true) →
      Action.essential τ = .store r u :: (if read then [.load r t] else []) →
      Chosen a t read live pinned
        ⟨r, { a.advance i with regs := (a.regs.without u).bind t r, spills := a.spills + 1 },
          .note (.spilled r u t) :: τ⟩

namespace Alloc

variable {a : Allocator} {t : Temp} {read : Bool} {live : TempSet} {pinned : List Reg}

/-- The register to evict, where one is not pinned or the temporary is only written: nothing is reported. -/
theorem run_victim (hroom : 2 ≤ a.regs.pool.length) (hp : read = true → ∃ q ∈ a.regs.pool, q ∉ pinned) :
    ∃ r i, run (victim read pinned) a = ⟨r, a.advance i, []⟩ ∧ r ∈ a.regs.pool ∧ (read = true → r ∉ pinned) := by
  unfold victim
  rw [run_bind, run_state]
  cases hf : a.fromCursor.find? fun p => ¬ p.1 ∈ pinned with
  | some p =>
    refine ⟨p.1, p.2, ?_, Allocator.mem_fromCursor (List.mem_of_find?_eq_some hf), fun _ => ?_⟩
    · simp only [hf]
      rfl
    · simpa using List.find?_some hf
  | none =>
    have hpinned : ∀ q ∈ a.regs.pool, q ∈ pinned := by
      intro q hq
      obtain ⟨k, hk⟩ := Allocator.exists_mem_fromCursor hq
      simpa using List.find?_eq_none.1 hf _ hk
    cases read with
    | true =>
      obtain ⟨q, hq, hn⟩ := hp rfl
      exact absurd (hpinned q hq) hn
    | false =>
      have hpos : 0 < a.regs.pool.length := by omega
      obtain ⟨i, hi⟩ := Allocator.exists_mem_fromCursor (List.getElem_mem hpos)
      obtain ⟨p, l, hl⟩ := List.exists_cons_of_ne_nil (List.ne_nil_of_mem hi)
      refine ⟨p.1, p.2, ?_, Allocator.mem_fromCursor (hl ▸ List.mem_cons_self), by simp⟩
      simp only [hf]
      simp only [hl, List.headD_cons]
      rfl

/-- Puts `t` in a register that is free, loading it first if it is read. -/
def occupy (t : Temp) (r : Reg) (read : Bool) : Alloc Reg := do
  report (.allocated t r read)
  remark (Note.allocatedText t r read)
  if read then emit (.load r t)
  assign t r
  return r

/-- Puts `t` in a register that has been emptied for it, and then loads it if it is read. -/
def refill (t : Temp) (r : Reg) (read : Bool) : Alloc Reg := do
  remark (Note.allocatedText t r read)
  assign t r
  if read then emit (.load r t)
  return r

section

variable (t : Temp) (r : Reg) (read : Bool)

theorem does_occupy (a : Allocator) :
    Does (occupy t r read) a r { a with regs := a.regs.bind t r } (if read then [.load r t] else []) := by
  refine (Does.report a _).andThen ((Does.remark a _).andThen ?_)
  cases read
  · exact (Does.assign a t r).andThen (Does.pure r _)
  · exact (Does.load a r t).bind ((Does.assign a t r).andThen (Does.pure r _))

theorem does_refill (a : Allocator) :
    Does (refill t r read) a r { a with regs := a.regs.bind t r } (if read then [.load r t] else []) :=
  (Does.remark a _).andThen ((Does.assign a t r).andThen (does_load_if read r t _))

theorem routine_occupy : Routine (occupy t r read) := by
  refine (Routine.emit rfl).bind fun _ => (Routine.remark _).bind fun _ => ?_
  split
  · exact (Routine.emit rfl).bind fun _ => (Routine.assign t r).bind fun _ => .pure r
  · exact (Routine.assign t r).bind fun _ => .pure r

theorem routine_refill : Routine (refill t r read) := by
  refine (Routine.remark _).bind fun _ => (Routine.assign t r).bind fun _ => ?_
  split
  · exact (Routine.emit rfl).bind fun _ => .pure r
  · exact .pure r

end

theorem Does.run_eq {α : Type} {x : Alloc α} {v : α} {a' : Allocator} {τ : List Action} (h : Does x a v a' τ) :
    run x a = ⟨v, a', (run x a).trace⟩ := by
  obtain ⟨rfl, rfl, -⟩ := h
  rfl

/-- **What the search for a register comes to**, with all that it reports. -/
theorem hold_chosen (hroom : 2 ≤ a.regs.pool.length) (hp : read = true → ∃ q ∈ a.regs.pool, q ∉ pinned) :
    Chosen a t read live pinned (run (hold t read live pinned) a) := by
  unfold hold
  rw [run_bind, run_state]
  cases hb : a.regs.binding? t with
  | some r => exact .bound hb
  | none =>
    cases hf : a.free? read live pinned with
    | some r =>
      have hdoes := does_occupy t r read a
      show Chosen a t read live pinned (run (occupy t r read) a)
      rw [hdoes.run_eq]
      exact .free hb hf (routine_occupy t r read a).2.2 hdoes.2.2
    | none =>
      obtain ⟨r, i, hvictim, hr, hn⟩ := run_victim hroom hp
      obtain ⟨u, hu, -⟩ := Allocator.free?_eq_none hf hr hn
      have hu' : (a.advance i).regs.occupant? r = some u := hu
      have hdoes := does_refill t r read { a.advance i with regs := a.regs.without u, spills := a.spills + 1 }
      have hroutine := routine_refill t r read { a.advance i with regs := a.regs.without u, spills := a.spills + 1 }
      replace hroutine := hroutine.2.2
      show Chosen a t read live pinned (run (victim read pinned >>= fun r => evict r t >>= fun _ => refill t r read) a)
      rw [run_bind, hvictim, run_bind, run_evict hu' t]
      dsimp only
      rw [show (a.advance i).spills = a.spills from rfl, show (a.advance i).regs = a.regs from rfl, hdoes.run_eq]
      have hstored := (does_unload (a.advance i) r u).2.2
      have hloaded := hdoes.2.2
      generalize (run (refill t r read) _).trace = ρ at hroutine hloaded ⊢
      refine .evicted (τ := (run (unload r u) (a.advance i)).trace ++ ρ) hb hf hr hn hu ?_ ?_
      · exact List.forall_mem_append.2 ⟨(routine_unload r u _).2.2, hroutine⟩
      · rw [Action.essential_append, hstored, hloaded]
        rfl

end Alloc

namespace Chosen

variable {a : Allocator} {t : Temp} {read : Bool} {live : TempSet} {pinned : List Reg} {e : Emitted Reg}

theorem sound (ha : a.Sound) (h : Chosen a t read live pinned e) : e.state.Sound := by
  cases h with
  | bound => exact ha
  | free => exact ⟨ha.consistent.bind t _, by simpa using ha.distinct, by simpa using ha.room⟩
  | @evicted r u =>
    exact ⟨(ha.consistent.without u).bind t r, by simpa using ha.distinct, by simpa using ha.room⟩

theorem binding? (h : Chosen a t read live pinned e) : e.state.regs.binding? t = some e.value := by
  cases h with
  | bound hb => exact hb
  | free | evicted => simp only [RegisterFile.binding?_bind, if_true]

/-- Pinned registers hold what they held. -/
theorem occupant? (ha : a.Sound) (h : Chosen a t true live pinned e) {q : Reg} (hq : q ∈ pinned) :
    e.state.regs.occupant? q = a.regs.occupant? q := by
  cases h with
  | bound => rfl
  | @free r _ hb hf =>
    have hr : q ≠ r := by
      rintro rfl
      exact (Allocator.free?_eq_some hf).2.1 rfl hq
    have ht : a.regs.occupant? q ≠ some t := fun ho => by simp [(ha.consistent t q).2 ho] at hb
    rw [ha.consistent.occupant?_bind, if_neg hr, if_neg ht]
  | @evicted r u _ _ hb _ _ hn ho =>
    have hr : q ≠ r := by
      rintro rfl
      exact hn rfl hq
    have hu : a.regs.occupant? q ≠ some u := fun ho' =>
      hr (Option.some.inj (((ha.consistent u q).2 ho').symm.trans ((ha.consistent u r).2 ho)))
    have ht : a.regs.occupant? q ≠ some t := fun ho' => by simp [(ha.consistent t q).2 ho'] at hb
    rw [(ha.consistent.without u).occupant?_bind, if_neg hr, ha.consistent.occupant?_without, if_neg hu, if_neg ht]

/-- For a temporary that is read, what is in registers stays there or is loaded. -/
theorem backed (ha : a.Sound) (h : Chosen a t true live pinned e) : Backed a.regs e.trace e.state.regs := by
  cases h with
  | bound => exact .refl _
  | @free r _ _ _ _ hτ =>
    refine .of_essential ?_
    rw [hτ]
    exact .load ha.consistent r t
  | @evicted r u _ τ _ _ _ _ _ _ hτ =>
    refine .of_essential ?_
    show Backed a.regs (Action.essential τ) _
    rw [hτ]
    exact (Backed.store a.regs r u).trans (.load (ha.consistent.without u) r t)

theorem lastWrite?_eq_none (h : Chosen a t false live pinned e) (q : Reg) : Action.lastWrite? e.trace q = none := by
  rw [← Action.lastWrite?_essential]
  cases h with
  | bound => rfl
  | free _ _ _ hτ => rw [hτ]; rfl
  | @evicted r u _ τ _ _ _ _ _ _ hτ =>
    show Action.lastWrite? (Action.essential τ) q = none
    rw [hτ]
    exact Action.lastWrite?_eq_none (by simp [Action.dst?])

theorem notMem_evictingOperand (h : Chosen a t read live pinned e) (q : Reg) :
    .note (.evictingOperand q) ∉ e.trace := by
  intro hm
  cases h with
  | bound => simp at hm
  | free _ _ hτ => exact absurd (hτ _ hm) (by simp [Action.isRoutine])
  | evicted _ _ _ _ _ hτ =>
    rcases List.mem_cons.1 hm with hm | hm
    · simp at hm
    · exact absurd (hτ _ hm) (by simp [Action.isRoutine])

end Chosen

/-! ### The operands of one instruction -/

/-- The result of reading operands beside pinned registers: each is in its register, registers hold what was last loaded
or was there before, and pinned ones hold what they held. -/
structure Reads (a : Allocator) (pinned : List Reg) (ops : List Operand) (e : Emitted (List Reg)) : Prop where
  sound : e.state.Sound
  bound : List.Forall₂ (fun op r => ∃ t, op = .temp t ∧ e.state.regs.binding? t = some r) ops e.value
  backed : Backed a.regs e.trace e.state.regs
  pinned : ∀ q ∈ pinned, e.state.regs.occupant? q = a.regs.occupant? q
  calm : ∀ q, .note (.evictingOperand q) ∉ e.trace

namespace Alloc

variable {a : Allocator} {live : TempSet} {pinned : List Reg} {s : Step}

theorem run_readAll_cons (live : TempSet) (pinned : List Reg) (t : Temp) (ops : List Operand) (a : Allocator) :
    ∃ e₁ e₂, run (hold t true live pinned) a = e₁ ∧ run (readAll live (e₁.value :: pinned) ops) e₁.state = e₂ ∧
      run (readAll live pinned (.temp t :: ops)) a = ⟨e₁.value :: e₂.value, e₂.state, e₁.trace ++ e₂.trace⟩ := by
  refine ⟨_, _, rfl, rfl, ?_⟩
  rw [readAll, run_bind, run_bind, run_pure, List.append_nil]

theorem readAll_reads {ops : List Operand} (ha : a.Sound) (ht : ∀ op ∈ ops, op.reg? = none)
    (hp : pinned.length + ops.length ≤ 2) : Reads a pinned ops (run (readAll live pinned ops) a) := by
  induction ops generalizing a pinned with
  | nil => exact ⟨ha, .nil, .refl _, fun _ _ => rfl, by simp [readAll, run_pure]⟩
  | cons op ops ih =>
    obtain ⟨hop, hops⟩ := List.forall_mem_cons.1 ht
    obtain ⟨t, rfl⟩ := exists_temp hop
    rw [List.length_cons] at hp
    have hfree : true = true → ∃ q ∈ a.regs.pool, q ∉ pinned := fun _ =>
      Allocator.exists_unpinned ha.distinct ha.room (by omega)
    obtain ⟨e₁, e₂, h₁, h₂, hrun⟩ := run_readAll_cons live pinned t ops a
    have hch : Chosen a t true live pinned e₁ := h₁ ▸ hold_chosen ha.room hfree
    have hrest : Reads e₁.state (e₁.value :: pinned) ops e₂ :=
      h₂ ▸ ih (hch.sound ha) hops (by rw [List.length_cons]; omega)
    rw [hrun]
    refine ⟨hrest.sound, .cons ⟨t, rfl, ?_⟩ hrest.bound, (hch.backed ha).trans hrest.backed, fun q hq => ?_,
      fun q hm => ?_⟩
    · -- the register is pinned, so it still holds the temporary after the operands that come later
      have ho := (hch.sound ha).consistent t e₁.value |>.1 hch.binding?
      exact (hrest.sound.consistent t e₁.value).2 ((hrest.pinned e₁.value List.mem_cons_self).trans ho)
    · exact (hrest.pinned q (List.mem_cons_of_mem _ hq)).trans (hch.occupant? ha hq)
    · exact (List.mem_append.1 hm).elim (hch.notMem_evictingOperand q) (hrest.calm q)

/-- The operand that an instruction writes, if it writes any, gets its register after those that it reads. -/
theorem run_resolve (hc : s.instr.isCall = false) (ht : s.instr.TempsOnly) (a : Allocator) :
    ∃ e₁ : Emitted (List Reg), run (readAll s.liveIn [] s.instr.srcs) a = e₁ ∧
      ((s.instr.dsts = [] ∧ run (resolve s) a = ⟨([], e₁.value), e₁.state, e₁.trace⟩) ∨
        ∃ t e₂, s.instr.dsts = [.temp t] ∧ run (hold t false s.liveOut e₁.value) e₁.state = e₂ ∧
          run (resolve s) a = ⟨([e₂.value], e₁.value), e₂.state, e₁.trace ++ e₂.trace⟩) := by
  have hnamed : (s.instr.srcs ++ s.instr.dsts).filterMap Operand.reg? = [] := List.filterMap_eq_nil_iff.2 ht
  refine ⟨_, rfl, ?_⟩
  unfold resolve
  rw [hnamed]
  rcases dsts_cases hc ht with hd | ⟨t, hd⟩
  · refine .inl ⟨hd, ?_⟩
    rw [hd]
    simp only [run_bind, writeAll, run_pure, List.append_nil]
  · refine .inr ⟨t, _, hd, rfl, ?_⟩
    rw [hd]
    simp only [run_bind, writeAll, run_pure, List.append_nil]

end Alloc

namespace Alloc

variable {a : Allocator} {s : Step}

/-- Allocation for a function comes to state `a` between two steps of a block, or at the start or the end of its
steps. -/
def Visits (g : FlowGraph) (name : Label) (params : List Temp) (a₀ a : Allocator) : Prop :=
  ∃ before b after done todo a₁ τ₁ τ₂, g.reachableBlocks = before ++ b :: after ∧ b.steps = done ++ todo ∧
    Yields (toBlock g name params before b) a₀ () a₁ τ₁ ∧
    Yields (stepsTo name.exit b.last?.isSome todo done) a₁ () a τ₂

theorem stepsTo_valid {exit : Label} {e : Ending} {done todo : List Step} {a' : Allocator} {τ : List Action}
    (hv : a.Valid) (hf : Formed ((done ++ todo).map Step.instr) e)
    (h : Yields (stepsTo exit (decide (e ≠ .fallsThrough)) todo done) a () a' τ) : a'.Valid := by
  induction done generalizing a τ with
  | nil =>
    obtain ⟨-, rfl, -⟩ := Yields.pure_iff.1 h
    exact hv
  | cons s done ih =>
    rw [stepsTo, Yields.bind_iff] at h
    obtain ⟨_, a₁, τ₁, τ₂, h₁, h₂, rfl⟩ := h
    replace hf : Formed (s.instr :: (done ++ todo).map Step.instr) e := hf
    have hem : (!(decide (e ≠ .fallsThrough) && (done ++ todo).isEmpty)) = !s.instr.leaves := by
      rw [hf.leaves_eq, List.isEmpty_map]
    have hv₁ : a₁.Valid := (step_clean hv (fun _ hr => hr) (hf.flow_ne_label List.mem_cons_self) hem h₁).valid
    rcases hf.of_cons with ⟨-, hf'⟩ | ⟨hnil, -⟩
    · exact ih hv₁ hf' h₂
    · obtain ⟨rfl, rfl⟩ := List.append_eq_nil_iff.1 (List.map_eq_nil_iff.1 hnil)
      obtain ⟨-, rfl, -⟩ := Yields.pure_iff.1 h₂
      exact hv₁

theorem Visits.sound {g : FlowGraph} {name : Label} {params : List Temp} {a₀ : Allocator}
    (hv : (a₀.reset (g.tempCount params)).Valid) (hp : ∀ b ∈ g.reachableBlocks, Plain b)
    (h : Visits g name params a₀ a) : a.Sound := by
  obtain ⟨before, b, after, done, todo, a₁, τ₁, τ₂, hb, hs, h₁, h₂⟩ := h
  have hf := (hp b (hb ▸ List.mem_append_right _ List.mem_cons_self)).formed
  have hv₁ := (toBlock_state hv (fun c hc => hp c (hb ▸ List.mem_append_left _ hc)) h₁).1
  rw [Block.isSome_last? hf] at h₂
  rw [Block.instrs, hs] at hf
  exact (stepsTo_valid hv₁ hf h₂).sound

theorem trace_instruction (exit : Label) (emitted : Bool) (a : Allocator) :
    (run (instruction s exit emitted) a).trace = (run (resolve s) a).trace ++
      if emitted then (s.instr.select (run (resolve s) a).value.1 (run (resolve s) a).value.2 exit).map .native
      else [] := by
  rw [instruction, run_bind]
  cases emitted <;> rfl

end Alloc

end ThreeAddress
