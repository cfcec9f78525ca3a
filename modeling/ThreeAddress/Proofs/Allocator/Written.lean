import ThreeAddress.Proofs.Allocator.Walk
import ThreeAddress.Proofs.Evaluation
import ThreeAddress.Proofs.FlowGraph.Split

/-!
What the code of a function may do, as far as it can be told without running it.  Every register that it writes is one
that its instructions name, or is allocatable, and a callee-saved one is on record as written; a call is on record; and
it jumps where its instructions jump, or to the exit label.  So if the instructions name no registers, the stack
pointer, the frame pointer and the return address are left alone.  `Clean` says this of the actions between two states
of allocation, `Alloc.Tidy` of a computation.

Main statement: it holds of the code of every function (`Alloc.function_labelled`).
-/

namespace ThreeAddress

theorem Instr.eq_call {i : Instr} (h : i.isCall = true) : ∃ dst l args, i = .call dst l args := by
  cases i <;> simp [isCall] at h
  exact ⟨_, _, _, rfl⟩

def Instr.named (i : Instr) : List Reg := i.dsts.filterMap Operand.reg?

theorem Instr.named_of_tempsOnly {i : Instr} (h : i.TempsOnly) : i.named = [] :=
  List.filterMap_eq_nil_iff.2 fun op hop => h op (List.mem_append_right _ hop)

/-- The label that a line may send control to, a call apart. -/
def Asm.target? : Asm → Option Label
  | .j l | .branch _ _ l => some l
  | _ => none

def Action.target? : Action → Option Label
  | .native a => a.target?
  | _ => none

namespace Allocator

/-- The function may write the register: it is one of those named, or it is allocatable, and on record if the caller
wants it back. -/
def MayWrite (named : List Reg) (a : Allocator) (r : Reg) : Prop :=
  r ∈ named ∨ r ∈ Reg.allocatable ∧ (r ∈ Reg.calleeSaved → a.regs.used r = true)

/-- The action does nothing that is not on record.  Labels and jumps are apart: they stand at the two ends of a
block. -/
def Permits (named : List Reg) (a : Allocator) : Action → Prop
  | .load r _ => a.MayWrite named r
  | .native (.alu _ rd _ _) | .native (.li rd _) | .native (.unary _ rd _) => a.MayWrite named rd
  | .native (.call _) => a.hasCalls = true
  | .native (.comment _) => True
  | .native _ | .label _ => False
  | .store _ _ | .comment _ | .note _ => True

/-- What is on record stays so. -/
structure Grows (a a' : Allocator) : Prop where
  used : ∀ {r}, a.regs.used r = true → a'.regs.used r = true
  hasCalls : a.hasCalls = true → a'.hasCalls = true

variable {named : List Reg} {a a' a'' : Allocator} {r : Reg} {t : Temp} {α : Action}

theorem Grows.refl (a : Allocator) : a.Grows a := ⟨id, id⟩

theorem Grows.trans (h : a.Grows a') (h' : a'.Grows a'') : a.Grows a'' := ⟨h'.used ∘ h.used, h'.hasCalls ∘ h.hasCalls⟩

theorem Grows.bind (a : Allocator) (t : Temp) (r : Reg) : a.Grows { a with regs := a.regs.bind t r } where
  used := by
    intro q hq
    simp only [RegisterFile.used_bind]
    split
    · rfl
    · exact hq
  hasCalls := id

theorem Grows.without (a : Allocator) (t : Temp) : a.Grows { a with regs := a.regs.without t } where
  used := fun hq => by simpa using hq
  hasCalls := id

theorem MayWrite.mono (h : a.MayWrite named r) (hg : a.Grows a') : a'.MayWrite named r :=
  h.imp_right fun h => ⟨h.1, fun hc => hg.used (h.2 hc)⟩

theorem Permits.mono (h : a.Permits named α) (hg : a.Grows a') : a'.Permits named α := by
  unfold Permits at h ⊢
  split at h
  case h_5 => exact hg.hasCalls h
  all_goals first | exact h.mono hg | trivial

theorem permits_of_isQuiet (h : α.isQuiet = true) : a.Permits named α := by
  cases α <;> simp [Action.isQuiet] at h <;> trivial

theorem allocatable_of_mem_params (h : r ∈ Reg.params) : r ∈ Reg.allocatable :=
  List.mem_append_left _ (List.mem_append_right _ h)

/-- A register that carries an argument may be written; the callee-saved ones are others. -/
theorem mayWrite_of_mem_params (a : Allocator) (h : r ∈ Reg.params) : a.MayWrite named r := by
  refine .inr ⟨allocatable_of_mem_params h, fun hc => ?_⟩
  exact absurd h (by revert hc; revert r; decide)

end Allocator

/-- From state `a` to `a'` allocation emitted `τ`, and did nothing that is not on record in `a'`. -/
structure Clean (named : List Reg) (a a' : Allocator) (τ : List Action) : Prop where
  valid : a'.Valid
  grows : a.Grows a'
  permits : ∀ α ∈ τ, a'.Permits named α

namespace Clean

variable {named : List Reg} {a a₁ a₂ : Allocator} {τ τ₁ τ₂ : List Action}

theorem refl (h : a.Valid) : Clean named a a [] := ⟨h, .refl a, by simp⟩

theorem append (h₁ : Clean named a a₁ τ₁) (h₂ : Clean named a₁ a₂ τ₂) : Clean named a a₂ (τ₁ ++ τ₂) where
  valid := h₂.valid
  grows := h₁.grows.trans h₂.grows
  permits := by
    intro α hα
    rcases List.mem_append.1 hα with h | h
    · exact (h₁.permits α h).mono h₂.grows
    · exact h₂.permits α h

theorem of_essential (h : Clean named a a₁ (Action.essential τ)) : Clean named a a₁ τ where
  valid := h.valid
  grows := h.grows
  permits := by
    intro α hα
    by_cases hq : α.isQuiet = true
    · exact Allocator.permits_of_isQuiet hq
    · exact h.permits α (List.mem_filter.2 ⟨hα, by simpa using hq⟩)

end Clean

/-! ### The choice of a register -/

theorem Allocator.Valid.emptied {a : Allocator} (h : a.Valid) (r : Reg) : (a.emptied r).Valid := by
  unfold Allocator.emptied
  split
  · exact { h.without _ with }
  · exact h

theorem Allocator.Grows.emptied (a : Allocator) (r : Reg) : a.Grows (a.emptied r) := by
  unfold Allocator.emptied
  split
  · exact ⟨fun hq => by simpa using hq, id⟩
  · exact .refl a

namespace Held

variable {named : List Reg} {a a' : Allocator} {t : Temp} {read : Bool} {live : TempSet} {pinned : List Reg} {r : Reg}
  {τ : List Action}

theorem valid (hv : a.Valid) (h : Held a t read live pinned r a' τ) : a'.Valid := by
  cases h with
  | bound => exact hv
  | free _ hr => exact hv.bind t (hv.pool r hr)
  | @evicted u i _ hr => exact { ((hv.advance i).without u).bind t (hv.pool r hr) with }
  | @forced i _ hr => exact ((hv.advance i).emptied r).bind t (hv.pool r hr)

theorem grows (h : Held a t read live pinned r a' τ) : a.Grows a' := by
  cases h with
  | bound => exact .refl a
  | free => exact .bind a t r
  | evicted =>
    refine ⟨fun hq => ?_, id⟩
    simp only [RegisterFile.used_bind, RegisterFile.used_without]
    split
    · rfl
    · exact hq
  | @forced i =>
    have hadv : a.Grows (a.advance i) := ⟨id, id⟩
    exact (hadv.trans (.emptied _ r)).trans (.bind _ t r)

theorem binding? (h : Held a t read live pinned r a' τ) : a'.regs.binding? t = some r := by
  cases h with
  | bound hb => exact hb
  | free | evicted | forced => simp only [RegisterFile.binding?_bind, if_true]

theorem mayWrite (hv : a.Valid) (h : Held a t read live pinned r a' τ) : a'.MayWrite named r :=
  let hb := (h.valid hv).bound h.binding?
  .inr ⟨hb.1, fun _ => hb.2⟩

theorem clean (hv : a.Valid) (h : Held a t read live pinned r a' τ) : Clean named a a' τ where
  valid := h.valid hv
  grows := h.grows
  permits := by
    have hw : a'.MayWrite named r := h.mayWrite hv
    have hl : ∀ α ∈ (if read then [Action.load r t] else []), a'.Permits named α := by
      intro α hα
      cases read
      · simp at hα
      · rw [List.mem_singleton.1 hα]
        exact hw
    cases h with
    | bound => simp
    | free => exact hl
    | evicted =>
      intro α hα
      rcases List.mem_cons.1 hα with rfl | hα
      · trivial
      · exact hl α hα
    | forced _ _ hread =>
      intro α hα
      rcases List.mem_append.1 hα with hα | hα
      · obtain ⟨u, -, rfl⟩ := List.mem_map.1 hα
        trivial
      · rw [hread] at hl
        exact hl α hα

end Held

namespace Alloc

/-! ### Computations -/

/-- From state `a` the computation is clean and its value and final state have `Q`. -/
def Tidy {α : Type} (named : List Reg) (x : Alloc α) (a : Allocator) (Q : α → Allocator → Prop) : Prop :=
  Clean named a (run x a).state (run x a).trace ∧ Q (run x a).value (run x a).state

abbrev Any {α : Type} : α → Allocator → Prop := fun _ _ => True

namespace Tidy

section

variable {α β : Type} {named : List Reg} {x : Alloc α} {f : α → Alloc β} {a : Allocator} {Q : α → Allocator → Prop}
  {R : β → Allocator → Prop}

theorem pure {v : α} (h : a.Valid) (hq : Q v a) : Tidy named (Pure.pure v) a Q := ⟨.refl h, hq⟩

theorem bind (hx : Tidy named x a Q) (hf : ∀ v a', a'.Valid → a.Grows a' → Q v a' → Tidy named (f v) a' R) :
    Tidy named (x >>= f) a R := by
  obtain ⟨hc, hq⟩ := hx
  obtain ⟨hc', hr⟩ := hf _ _ hc.valid hc.grows hq
  exact ⟨hc.append hc', hr⟩

theorem ofState {f : Allocator → Alloc β} (h : Tidy named (f a) a R) : Tidy named (Alloc.state >>= f) a R := h

theorem of_does {v : α} {a' : Allocator} {τ : List Action} (h : Does x a v a' τ) (hc : Clean named a a' τ)
    (hq : Q v a') : Tidy named x a Q := by
  obtain ⟨rfl, rfl, rfl⟩ := h
  exact ⟨hc.of_essential, hq⟩

theorem forM {γ : Type} {f : γ → Alloc Unit} (l : List γ) (h : a.Valid)
    (hf : ∀ x ∈ l, ∀ a' : Allocator, a'.Valid → a.Grows a' → Tidy named (f x) a' Any) :
    Tidy named (l.forM f) a Any := by
  induction l generalizing a with
  | nil => exact Tidy.pure h trivial
  | cons x l ih =>
    refine Tidy.bind (hf x List.mem_cons_self a h (.refl a)) fun _ a' hv hg _ => ?_
    exact ih hv fun y hy b hb hgb => hf y (List.mem_cons_of_mem x hy) b hb (hg.trans hgb)

end

variable {named : List Reg} {a : Allocator}

theorem change {f : Allocator → Allocator} (hv : (f a).Valid) (hg : a.Grows (f a)) :
    Tidy named (Alloc.change f) a fun _ a' => a' = f a := ⟨⟨hv, hg, by rw [run_change]; simp⟩, rfl⟩

theorem emit {α : Action} (h : a.Valid) (hp : a.Permits named α) : Tidy named (Alloc.emit α) a Any :=
  ⟨⟨h, .refl a, by rw [run_emit]; simpa using hp⟩, trivial⟩

theorem emitCode {code : List Asm} (h : a.Valid) (hp : ∀ x ∈ code, a.Permits named (.native x)) :
    Tidy named (Alloc.emitCode code) a Any :=
  ⟨⟨h, .refl a, by rw [run_emitCode]; simpa using hp⟩, trivial⟩

theorem remark (h : a.Valid) (text : String) : Tidy named (Alloc.remark text) a Any :=
  of_does (Does.remark a text) (.refl h) trivial

theorem assign (h : a.Valid) (t : Temp) {r : Reg} (hr : r ∈ Reg.allocatable) : Tidy named (Alloc.assign t r) a Any :=
  of_does (Does.assign a t r) ⟨h.bind t hr, .bind a t r, by simp⟩ trivial

theorem forget (h : a.Valid) (t : Temp) : Tidy named (Alloc.forget t) a Any :=
  of_does (Does.forget a t) ⟨h.without t, .without a t, by simp⟩ trivial

theorem writeBack (h : a.Valid) (ts : TempSet) : Tidy named (Alloc.writeBack ts) a Any := by
  refine forM _ h fun t _ a' h' _ => ofState ?_
  split
  · exact emit h' trivial
  · exact Tidy.pure h' trivial

end Tidy

/-! ### The operands of an instruction -/

variable {named : List Reg} {a : Allocator} {s : Step} {exit : Label}

theorem tidy_hold (hv : a.Valid) (t : Temp) (read : Bool) (live : TempSet) (pinned : List Reg) :
    Tidy named (hold t read live pinned) a fun r a' => a'.MayWrite named r := by
  obtain ⟨r, a', τ, hd, hh⟩ := hold_held hv t read live pinned
  exact Tidy.of_does hd (hh.clean hv) (hh.mayWrite hv)

theorem exists_temp {op : Operand} (h : op.reg? = none) : ∃ t, op = .temp t := by
  cases op with
  | temp t => exact ⟨t, rfl⟩
  | reg r => exact absurd h (by simp [Operand.reg?])

theorem tidy_readAll (hv : a.Valid) (live : TempSet) (pinned : List Reg) (ops : List Operand) :
    Tidy named (readAll live pinned ops) a Any := by
  induction ops generalizing a pinned with
  | nil => exact Tidy.pure hv trivial
  | cons op ops ih =>
    have hrest : ∀ r (a₁ : Allocator), a₁.Valid →
        Tidy named (do let rs ← readAll live (r :: pinned) ops; return r :: rs) a₁ Any :=
      fun r a₁ hv₁ => Tidy.bind (ih hv₁ _) fun rs a₂ hv₂ _ _ => Tidy.pure hv₂ trivial
    cases op with
    | reg r => exact hrest r a hv
    | temp t => exact Tidy.bind (tidy_hold hv t true live pinned) fun r a₁ hv₁ _ _ => hrest r a₁ hv₁

theorem tidy_writeAll (hv : a.Valid) (live : TempSet) (pinned : List Reg) {ops : List Operand}
    (hn : ∀ r ∈ ops.filterMap Operand.reg?, r ∈ named) :
    Tidy named (writeAll live pinned ops) a fun rs a' => ∀ r ∈ rs, a'.MayWrite named r := by
  induction ops generalizing a with
  | nil => exact Tidy.pure hv (by simp)
  | cons op ops ih =>
    have hn' : ∀ r ∈ ops.filterMap Operand.reg?, r ∈ named := fun r hr =>
      hn r (((List.sublist_cons_self op ops).filterMap _).subset hr)
    have hrest : ∀ r (a₁ : Allocator), a₁.Valid → a₁.MayWrite named r →
        Tidy named (do let rs ← writeAll live pinned ops; return r :: rs) a₁
          fun rs a' => ∀ r ∈ rs, a'.MayWrite named r := by
      intro r a₁ hv₁ hr
      refine Tidy.bind (ih hv₁ hn') fun rs a₂ hv₂ hg hrs => Tidy.pure hv₂ fun q hq => ?_
      rcases List.mem_cons.1 hq with rfl | hq
      · exact hr.mono hg
      · exact hrs q hq
    cases op with
    | reg r => exact hrest r a hv (.inl (hn r List.mem_cons_self))
    | temp t => exact Tidy.bind (tidy_hold hv t false live pinned) fun r a₁ hv₁ _ hr => hrest r a₁ hv₁ hr

theorem tidy_resolve (hv : a.Valid) (hn : ∀ r ∈ s.instr.named, r ∈ named) :
    Tidy named (resolve s) a fun rs a' => ∀ r ∈ rs.1, a'.MayWrite named r := by
  unfold resolve
  refine Tidy.bind (tidy_readAll hv _ _ _) fun srcs a₁ hv₁ _ _ => ?_
  exact Tidy.bind (tidy_writeAll hv₁ _ _ hn) fun dsts a₂ hv₂ _ hd => Tidy.pure hv₂ hd

theorem permits_select_binary {rd : Reg} (h : a.MayWrite named rd) (op : BinaryOp) (lhs rhs : Reg) :
    ∀ x ∈ op.select rd lhs rhs, a.Permits named (.native x) := by
  cases op <;> simp only [BinaryOp.select, List.forall_mem_cons, List.not_mem_nil, false_implies, implies_true,
    and_true, Allocator.Permits, h]

/-- The code selected for an instruction writes its destinations and, for a return, the result register.  Only that of
an instruction that leaves the block has jumps in it, to its target or to the exit label. -/
theorem permits_select {i : Instr} {dsts srcs : List Reg} (hd : ∀ r ∈ dsts, a.MayWrite named r)
    (hm : i.flow ≠ .label) (hc : i.isCall = true → a.hasCalls = true) :
    ∀ x ∈ i.select dsts srcs exit, a.Permits named (.native x) ∨
      i.leaves = true ∧ ∃ l, x.target? = some l ∧ (l = exit ∨ i.target? = some l) := by
  have hresult : a.MayWrite named .result := a.mayWrite_of_mem_params (by decide)
  fun_cases Instr.select i dsts srcs exit
  case case1 | case2 | case3 =>
    intro x hx
    rw [List.mem_singleton.1 hx]
    exact .inl (hd _ List.mem_cons_self)
  case case4 => exact fun x hx => .inl (permits_select_binary (hd _ List.mem_cons_self) _ _ _ x hx)
  case case5 | case6 =>
    intro x hx
    rw [List.mem_singleton.1 hx]
    exact .inr ⟨rfl, _, rfl, .inr rfl⟩
  case case7 | case9 =>
    intro x hx
    rw [List.mem_singleton.1 hx]
    exact .inr ⟨rfl, _, rfl, .inl rfl⟩
  case case8 =>
    intro x hx
    rcases List.mem_cons.1 hx with rfl | hx
    · exact .inl hresult
    · rw [List.mem_singleton.1 hx]
      exact .inr ⟨rfl, _, rfl, .inl rfl⟩
  case case10 => exact absurd rfl hm
  case case11 =>
    intro x hx
    rw [List.mem_singleton.1 hx]
    exact .inl trivial
  case case12 =>
    intro x hx
    rw [List.mem_singleton.1 hx]
    exact .inl (hc rfl)
  case case13 => simp

/-! ### Calls -/

theorem tidy_vacate (hv : a.Valid) (live : TempSet) (r : Reg) : Tidy named (vacate live r) a Any := by
  refine Tidy.ofState ?_
  split
  · rename_i t _
    split
    · refine Tidy.bind (Tidy.emit hv trivial) fun _ a₁ hv₁ _ _ => ?_
      refine Tidy.bind (Tidy.emit hv₁ trivial) fun _ a₂ hv₂ _ _ => ?_
      exact Tidy.forget hv₂ t
    · exact Tidy.forget hv t
  · exact Tidy.pure hv trivial

theorem tidy_pass (hv : a.Valid) (t : Temp) {r : Reg} (hr : r ∈ Reg.params) : Tidy named (pass t r) a Any := by
  refine Tidy.bind (Tidy.forget hv t) fun _ a₁ hv₁ _ _ => ?_
  refine Tidy.bind (Tidy.emit hv₁ (a₁.mayWrite_of_mem_params hr)) fun _ a₂ hv₂ _ _ => ?_
  exact Tidy.assign hv₂ t (Allocator.allocatable_of_mem_params hr)

theorem tidy_drop (hv : a.Valid) (r : Reg) : Tidy named (drop r) a Any := by
  refine Tidy.ofState ?_
  split
  · exact Tidy.forget hv _
  · exact Tidy.pure hv trivial

theorem tidy_receive (hv : a.Valid) (t : Temp) : Tidy named (receive t) a Any := by
  refine Tidy.bind (Tidy.assign hv t (by decide)) fun _ a₁ hv₁ _ _ => ?_
  exact Tidy.emit hv₁ trivial

theorem tidy_call (hv : a.Valid) (hc : s.instr.isCall = true) (args : List Temp) (dst : Option Temp) (exit : Label) :
    Tidy named (call s args dst exit) a Any := by
  have hcall : (Allocator.mk a.regs a.cursor a.comments true a.spills).Valid := { hv with }
  refine Tidy.bind (Tidy.change hcall ⟨id, fun _ => rfl⟩) fun _ a₀ hv₀ _ h₀ => ?_
  have hh₀ : a₀.hasCalls = true := by rw [h₀]
  refine Tidy.bind (Tidy.remark hv₀ _) fun _ a₁ hv₁ hg₁ _ => ?_
  refine Tidy.bind (Tidy.forM _ hv₁ fun r _ b hb _ => tidy_vacate hb _ r) fun _ a₂ hv₂ hg₂ _ => ?_
  refine Tidy.bind (Tidy.forM _ hv₂ fun p hp b hb _ => ?_) fun _ a₃ hv₃ hg₃ _ => ?_
  · exact tidy_pass hb p.1 (List.of_mem_zip hp).2
  refine Tidy.bind (Tidy.emitCode hv₃ fun x hx => ?_) fun _ a₄ hv₄ _ _ => ?_
  · have hcalls : a₃.hasCalls = true := hg₃.hasCalls (hg₂.hasCalls (hg₁.hasCalls hh₀))
    obtain ⟨_, _, _, hi⟩ := Instr.eq_call hc
    rw [hi] at hx
    rw [List.mem_singleton.1 hx]
    exact hcalls
  refine Tidy.bind (Tidy.forM _ hv₄ fun r _ b hb _ => tidy_drop hb r) fun _ a₅ hv₅ _ _ => ?_
  cases dst with
  | none => exact Tidy.pure hv₅ trivial
  | some t => exact tidy_receive hv₅ t

/-! ### Steps and blocks -/

theorem tidy_instruction (hv : a.Valid) (hc : s.instr.isCall = false) (hn : ∀ r ∈ s.instr.named, r ∈ named)
    (exit : Label) {emitted : Bool} (hf : emitted = true → s.instr.flow = .straight) :
    Tidy named (instruction s exit emitted) a Any := by
  refine Tidy.bind (tidy_resolve hv hn) fun rs a₁ hv₁ _ hd => ?_
  cases emitted with
  | false => exact Tidy.pure hv₁ trivial
  | true =>
    have hs := hf rfl
    refine Tidy.emitCode hv₁ fun x hx => ?_
    refine (permits_select hd (by simp [hs]) (fun h => absurd h (by simp [hc])) x hx).resolve_right fun h => ?_
    simp [Instr.leaves, hs] at h

variable {b : Block} {bs : List Block} {leaves emitted : Bool} {a' : Allocator} {τ : List Action}

theorem Tidy.clean {α : Type} {x : Alloc α} {Q : α → Allocator → Prop} {v : α} (h : Tidy named x a Q)
    (hr : run x a = ⟨v, a', τ⟩) : Clean named a a' τ := by
  have hc := h.1
  rw [hr] at hc
  exact hc

theorem step_clean (hv : a.Valid) (hn : ∀ r ∈ s.instr.named, r ∈ named) (hm : s.instr.flow ≠ .label)
    (he : emitted = !s.instr.leaves) (h : Yields (step s exit emitted) a () a' τ) : Clean named a a' τ := by
  cases hc : s.instr.isCall with
  | true =>
    obtain ⟨dst, l, args, hi⟩ := Instr.eq_call hc
    obtain ⟨xs, d, a₁, τ₁, τ₂, -, h₁, h₂, rfl⟩ := step_call hi h
    have hc₁ : Clean named a a₁ τ₁ := (tidy_call hv hc xs d exit).clean h₁
    exact hc₁.append ((Tidy.writeBack hc₁.valid _).clean h₂)
  | false =>
    obtain ⟨a₁, τ₀, τ₁, τ₂, h₀, h₁, h₂, rfl⟩ := step_instruction hc h
    have hc₀ : Clean named a a τ₀ := .of_essential (by rw [h₀]; exact .refl hv)
    have hf : emitted = true → s.instr.flow = .straight := by
      intro h
      rcases s.instr.kinds with ⟨l, hl⟩ | hs | hl
      · exact absurd (by rw [hl]; rfl) hm
      · exact hs
      · simp [he, hl] at h
    have hc₁ := (tidy_instruction hv hc hn exit hf).clean h₁
    exact (hc₀.append hc₁).append ((Tidy.writeBack hc₁.valid _).clean h₂)

theorem steps_clean {ss : List Step} {e : Ending} (hv : a.Valid) (hn : ∀ s ∈ ss, ∀ r ∈ s.instr.named, r ∈ named)
    (hf : Formed (ss.map Step.instr) e) (h : Yields (steps exit (decide (e ≠ .fallsThrough)) ss) a () a' τ) :
    Clean named a a' τ := by
  induction ss generalizing a τ with
  | nil =>
    obtain ⟨rfl, rfl⟩ := steps_nil h
    exact .refl hv
  | cons s ss ih =>
    obtain ⟨a₁, τ₁, τ₂, h₁, h₂, rfl⟩ := steps_cons h
    replace hf : Formed (s.instr :: ss.map Step.instr) e := hf
    have hem : (!(decide (e ≠ .fallsThrough) && ss.isEmpty)) = !s.instr.leaves := by
      rw [hf.leaves_eq, List.isEmpty_map]
    have hc₁ := step_clean hv (hn s List.mem_cons_self) (hf.flow_ne_label List.mem_cons_self) hem h₁
    rcases hf.of_cons with ⟨-, hf'⟩ | ⟨hnil, -, -⟩
    · exact hc₁.append (ih hc₁.valid (fun t h => hn t (List.mem_cons_of_mem s h)) hf' h₂)
    · cases List.map_eq_nil_iff.1 hnil
      obtain ⟨rfl, rfl⟩ := steps_nil h₂
      exact hc₁.append (.refl hc₁.valid)

/-- A block that names no other registers to be written and jumps to no other labels. -/
structure Names (named : List Reg) (targets : List Label) (b : Block) : Prop where
  formed : Formed b.instrs b.ending
  regs : ∀ i ∈ b.instrs, ∀ r ∈ i.named, r ∈ named
  target : ∀ l, b.target? = some l → l ∈ targets

structure Plain (b : Block) : Prop where
  formed : Formed b.instrs b.ending
  temps : ∀ i ∈ b.instrs, i.TempsOnly

theorem getLast?_of_last? {s : Step} (hs : b.last? = some s) : b.steps.getLast? = some s := by
  unfold Block.last? at hs
  split at hs
  · simp at hs
  all_goals exact hs

theorem leaves_of_last? (hf : Formed b.instrs b.ending) {s : Step} (hs : b.last? = some s) :
    s.instr.leaves = true ∧ s.instr ∈ b.instrs := by
  have hne : b.ending ≠ .fallsThrough := by
    intro he
    simp [Block.last?, he] at hs
  have hl : b.instrs.getLast? = some s.instr := by rw [Block.instrs, List.getLast?_map, getLast?_of_last? hs]; rfl
  exact ⟨hf.leaves_of_getLast? hne hl, List.mem_of_getLast? hl⟩

theorem Plain.last (hb : Plain b) {s : Step} (hs : b.last? = some s) : s.instr.leaves = true ∧ s.instr.TempsOnly :=
  let h := leaves_of_last? hb.formed hs
  ⟨h.1, hb.temps _ h.2⟩

end Alloc

/-! ### Whole functions -/

def Action.label? : Action → Option Label
  | .label l | .native (.label l) => some l
  | _ => none

/-- As `Clean`, for code with jumps in it, to `targets`, and with labels: `ls`, in order. -/
structure Labelled (named : List Reg) (targets : List Label) (a a' : Allocator) (τ : List Action) (ls : List Label) :
    Prop where
  valid : a'.Valid
  grows : a.Grows a'
  permits : ∀ α ∈ τ, a'.Permits named α ∨ (∃ l ∈ targets, α.target? = some l) ∨ ∃ l, α = .label l
  labels : τ.filterMap Action.label? = ls

namespace Labelled

variable {named : List Reg} {targets : List Label} {a a₁ a₂ : Allocator} {τ τ₁ τ₂ : List Action}
  {ls ls₁ ls₂ : List Label}

theorem append (h₁ : Labelled named targets a a₁ τ₁ ls₁) (h₂ : Labelled named targets a₁ a₂ τ₂ ls₂) :
    Labelled named targets a a₂ (τ₁ ++ τ₂) (ls₁ ++ ls₂) where
  valid := h₂.valid
  grows := h₁.grows.trans h₂.grows
  permits := by
    intro α hα
    rcases List.mem_append.1 hα with h | h
    · exact (h₁.permits α h).imp (fun hp => hp.mono h₂.grows) id
    · exact h₂.permits α h
  labels := by rw [List.filterMap_append, h₁.labels, h₂.labels]

theorem of_clean (h : Clean named a a₁ τ) : Labelled named targets a a₁ τ [] where
  valid := h.valid
  grows := h.grows
  permits := fun α hα => .inl (h.permits α hα)
  labels := by
    refine List.filterMap_eq_nil_iff.2 fun α hα => ?_
    have hp := h.permits α hα
    unfold Action.label?
    split
    · exact absurd hp id
    · exact absurd hp id
    · rfl

theorem label (h : a.Valid) (l : Option Label) : Labelled named targets a a (l.toList.map .label) l.toList where
  valid := h
  grows := .refl a
  permits := by
    intro α hα
    obtain ⟨m, -, rfl⟩ := List.mem_map.1 hα
    exact .inr (.inr ⟨m, rfl⟩)
  labels := by cases l <;> rfl

end Labelled

namespace Alloc

variable {named : List Reg} {targets : List Label} {a a' : Allocator} {τ : List Action} {exit : Label} {bs : List Block}

theorem valid_enter (h : a.Valid) : (enter a).Valid where
  consistent := RegisterFile.consistent_of_empty _ (by simp [enter]) (by simp [enter])
  bound := by
    intro t r hr
    simp [enter] at hr
  pool := h.pool
  distinct := h.distinct
  room := h.room
  cursor := h.cursor

/-- The code that leaves a block: operands are brought into registers, then it jumps. -/
theorem leave_labelled {b : Block} (hv : a.Valid) (hb : Names named targets b) (hexit : exit ∈ targets)
    (h : run (leave b exit) a = ⟨(), a', τ⟩) : Labelled named targets a a' τ [] := by
  unfold leave at h
  split at h
  · rename_i s hs
    obtain ⟨hl, hi⟩ := leaves_of_last? hb.formed hs
    have hc : s.instr.isCall = false := by
      cases hi : s.instr <;> simp [hi, Instr.leaves, Instr.flow] at hl <;> rfl
    have hm : s.instr.flow ≠ .label := by
      intro hf
      simp [Instr.leaves, hf] at hl
    have htarget : ∀ l, s.instr.target? = some l → l ∈ targets := by
      intro l hl
      exact hb.target l (by rw [Block.target?, hs]; exact hl)
    obtain ⟨hclean, hd⟩ := tidy_resolve hv (hb.regs _ hi)
    have hrun : run (instruction s exit true) a = ⟨(), (run (resolve s) a).state, (run (resolve s) a).trace ++
        (s.instr.select (run (resolve s) a).value.1 (run (resolve s) a).value.2 exit).map .native⟩ := rfl
    rw [hrun] at h
    obtain ⟨-, rfl, rfl⟩ := Emitted.mk.inj h
    have hsel : ∀ x ∈ s.instr.select (run (resolve s) a).value.1 (run (resolve s) a).value.2 exit, _ :=
      permits_select hd hm fun h => by simp [hc] at h
    refine (Labelled.of_clean hclean).append ⟨hclean.valid, .refl _, fun α hα => ?_, ?_⟩
    · obtain ⟨x, hx, rfl⟩ := List.mem_map.1 hα
      rcases hsel x hx with hp | ⟨-, l, hxl, rfl | hl⟩
      · exact .inl hp
      · exact .inr (.inl ⟨l, hexit, hxl⟩)
      · exact .inr (.inl ⟨l, htarget l hl, hxl⟩)
    · refine List.filterMap_eq_nil_iff.2 fun α hα => ?_
      obtain ⟨x, hx, rfl⟩ := List.mem_map.1 hα
      cases x with
      | label l => rcases hsel _ hx with h | h <;> simp [Allocator.Permits, Asm.target?] at h
      | _ => rfl
  · rw [run_pure] at h
    obtain ⟨-, rfl, rfl⟩ := Emitted.mk.inj h
    exact .of_clean (.refl hv)

theorem block_labelled {b : Block} (hv : a.Valid) (hb : Names named targets b) (hexit : exit ∈ targets)
    (h : Yields (block b exit) a () a' τ) : Labelled named targets a a' τ b.label.toList := by
  obtain ⟨a₁, τ₁, τ₂, h₁, h₂, rfl⟩ := block_parts h
  rw [Block.isSome_last? hb.formed] at h₁
  have henter : Clean named a (enter a) [.note (.entering b.id b.ending b.liveIn)] :=
    ⟨valid_enter hv, ⟨fun hq => by simpa [enter] using hq, id⟩, by simp [Allocator.Permits]⟩
  have hc₁ := steps_clean henter.valid (fun s hs => hb.regs _ (List.mem_map_of_mem hs)) hb.formed h₁
  have hl₂ := leave_labelled hc₁.valid hb hexit h₂
  have hl := (Labelled.label hv b.label).append ((Labelled.of_clean henter).append ((Labelled.of_clean hc₁).append hl₂))
  simpa using hl

theorem blocks_labelled (hv : a.Valid) (hb : ∀ b ∈ bs, Names named targets b) (hexit : exit ∈ targets)
    (h : Yields (blocks exit bs) a () a' τ) : Labelled named targets a a' τ (bs.filterMap Block.label) := by
  induction bs generalizing a τ with
  | nil =>
    obtain ⟨rfl, rfl⟩ := blocks_nil h
    exact .of_clean (.refl hv)
  | cons b bs ih =>
    obtain ⟨a₁, τ₁, τ₂, h₁, h₂, rfl⟩ := blocks_cons h
    have hl₁ := block_labelled hv (hb b List.mem_cons_self) hexit h₁
    have hl₂ := ih hl₁.valid (fun c hc => hb c (List.mem_cons_of_mem b hc)) h₂
    have hl := hl₁.append hl₂
    rw [List.filterMap_cons]
    cases hlab : b.label <;> rw [hlab] at hl <;> exact hl

/-- Allocation goes from valid states to valid states, whatever registers the blocks name. -/
theorem blocks_valid (hv : a.Valid) (hb : ∀ b ∈ bs, Formed b.instrs b.ending)
    (h : Yields (blocks exit bs) a () a' τ) : a'.Valid := by
  -- for the registers and labels that occur in the blocks, `blocks_labelled` asks for nothing more
  let named := bs.flatMap fun b => b.instrs.flatMap Instr.named
  let targets := exit :: bs.filterMap Block.target?
  have hnames : ∀ b ∈ bs, Names named targets b := by
    intro b hm
    refine ⟨hb b hm, fun i hi r hr => ?_, fun l hl => ?_⟩
    · exact List.mem_flatMap.2 ⟨b, hm, List.mem_flatMap.2 ⟨i, hi, hr⟩⟩
    · exact List.mem_cons_of_mem _ (List.mem_filterMap.2 ⟨b, hm, hl⟩)
  exact (blocks_labelled hv hnames List.mem_cons_self h).valid

/-- Whatever the limit, allocation starts in a valid state. -/
theorem valid_reset_ofOptions (o : Options) (n : Nat) : ((Allocator.ofOptions o).reset n).Valid := by
  have hsize : 2 ≤ RegisterFile.poolSize o.registerLimit := by
    cases o.registerLimit with
    | none => decide
    | some n => exact Nat.le_min.2 ⟨Nat.le_max_right _ _, by decide⟩
  have hroom : 2 ≤ (Reg.allocatable.take (RegisterFile.poolSize o.registerLimit)).length := by
    rw [List.length_take]
    exact Nat.le_min.2 ⟨hsize, by decide⟩
  exact {
    consistent := RegisterFile.consistent_of_empty _ (RegisterFile.binding?_resetFunction _ n)
      (RegisterFile.occupant?_resetFunction _ n)
    bound := fun hb => absurd hb (by simp [Allocator.reset])
    pool := fun r hr => List.mem_of_mem_take hr
    distinct := (List.take_sublist _ _).nodup (by decide)
    room := hroom
    cursor := Nat.lt_of_lt_of_le Nat.zero_lt_two hroom }

theorem tidy_takeParams (hv : a.Valid) (g : FlowGraph) (params : List Temp) :
    Tidy named (takeParams g params) a Any := by
  refine Tidy.bind (Tidy.forM _ hv fun p hp b hb _ => ?_) fun _ a₁ hv₁ _ _ => Tidy.writeBack hv₁ _
  exact Tidy.assign hb p.1 (Allocator.allocatable_of_mem_params (List.of_mem_zip hp).2)

theorem instr_mem_of_reachable {f : Func} {g : FlowGraph} (hg : g.Describes f) {b : Block}
    (hb : b ∈ g.reachableBlocks) : Formed b.instrs b.ending ∧ ∀ i ∈ b.instrs, i ∈ f.instrs := by
  obtain ⟨u, -, hu⟩ := List.mem_filterMap.1 hb
  have hm := List.mem_of_getElem? hu
  refine ⟨hg.formed hm, fun i hi => ?_⟩
  rw [← hg.flatMap_source]
  exact List.mem_flatMap.2 ⟨b.segment, List.mem_map_of_mem hm, List.mem_append_right _ hi⟩

theorem plain_of_reachable {f : Func} {g : FlowGraph} (ht : f.TempsOnly) (hg : g.Describes f) :
    ∀ b ∈ g.reachableBlocks, Plain b := by
  intro b hb
  obtain ⟨hf, hi⟩ := instr_mem_of_reachable hg hb
  exact ⟨hf, fun i hm => ht i (hi i hm)⟩

/-- **What the code of a function may do.** -/
theorem function_labelled {g : FlowGraph} {name : Label} {params : List Temp}
    (hv : (a.reset (g.tempCount params)).Valid) (hb : ∀ b ∈ g.reachableBlocks, Names named targets b)
    (hexit : name.exit ∈ targets) (h : Yields (function g name params) a () a' τ) :
    Labelled named targets (a.reset (g.tempCount params)) a' τ (g.reachableBlocks.filterMap Block.label) := by
  obtain ⟨a₁, τ₁, τ₂, h₁, h₂, rfl⟩ := function_parts h
  have hnote : ∀ (b : Allocator) (n : Note), b.Valid → Clean named b b [.note n] := fun b n hb =>
    ⟨hb, .refl b, by simp [Allocator.Permits]⟩
  have hc := (hnote _ (.allocating name (g.tempCount params) g.reachable.length) hv).append
    ((tidy_takeParams hv g params).clean h₁)
  have hl := blocks_labelled hc.valid hb hexit h₂
  have := (Labelled.of_clean hc).append (hl.append (.of_clean (hnote _ (.spills name a'.spills) hl.valid)))
  simpa using this

end Alloc

end ThreeAddress
