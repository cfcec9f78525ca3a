import ThreeAddress.Proofs.Allocator.Emission

/-!
What a step does to the register file, event by event.  Its operands are brought into registers by stores and loads
(`Moves`), a register is claimed for its result (`Claims`), its code is emitted, and what is live after it is written
back; a call goes through the argument registers instead, and leaves nothing in the registers that it may overwrite.
`Effect` has one case for each of these shapes, with all that the allocator promises about it, so that what holds of
the events of a function can be shown from the cases, without the allocator.

Main statement: the events of a function are stores of parameters and then the effects of the steps of its blocks, each
block starting from empty registers (`function_effects`).
-/

namespace ThreeAddress

theorem Reg.notMem_callerSaved {r : Reg} (h : r ∈ calleeSaved) : r ∉ callerSaved := by
  revert h
  revert r
  decide

/-- The stores of those of the temporaries that are in registers. -/
def RegisterFile.stores (f : RegisterFile) (live : TempSet) : List Action :=
  live.toList.filterMap fun t => (f.binding? t).map (.store · t)

theorem RegisterFile.mem_stores {f : RegisterFile} {live : TempSet} {α : Action} :
    α ∈ f.stores live ↔ ∃ t r, t ∈ live ∧ f.binding? t = some r ∧ α = .store r t := by
  rw [stores, List.mem_filterMap]
  constructor
  · rintro ⟨t, ht, hα⟩
    obtain ⟨r, hb, rfl⟩ := Option.map_eq_some_iff.1 hα
    exact ⟨t, r, OrdSet.mem_toList.1 ht, hb, rfl⟩
  · rintro ⟨t, r, ht, hb, rfl⟩
    exact ⟨t, OrdSet.mem_toList.2 ht, Option.map_eq_some_iff.2 ⟨r, hb, rfl⟩⟩

/-- The register that a line writes; a call does not say which ones it does. -/
def Asm.dst? : Asm → Option Reg
  | .alu _ rd _ _ | .addi rd _ _ | .li rd _ | .unary _ rd _ | .lw rd _ _ => some rd
  | .sw _ _ _ | .j _ | .branch _ _ _ | .call _ | .ret | .label _ | .comment _ => none

def Action.dst? : Action → Option Reg
  | .load r _ => some r
  | .native a => a.dst?
  | .store _ _ | .label _ | .comment _ | .note _ => none

/-- The first line of the code of an instruction writes its destination. -/
theorem Instr.select_eq_cons {i : Instr} {dst : Operand} {rs : List Reg} (hd : i.dsts = [dst])
    (hc : i.isCall = false) (hrs : rs.length = i.srcs.length) (r : Reg) (exit : Label) :
    ∃ x xs, i.select [r] rs exit = x :: xs ∧ x.dst? = some r := by
  cases i with
  | move | unary =>
    obtain ⟨q, rfl⟩ := List.length_eq_one_iff.1 hrs
    exact ⟨_, _, rfl, rfl⟩
  | const =>
    cases List.length_eq_zero_iff.1 hrs
    exact ⟨_, _, rfl, rfl⟩
  | binary op =>
    obtain ⟨p, q, rfl⟩ := List.length_eq_two.1 hrs
    cases op <;> exact ⟨_, _, rfl, rfl⟩
  | jump | branch | ret | mark | memo => simp [dsts] at hd
  | call => simp [isCall] at hc

theorem Instr.exists_mem_select {i : Instr} {dst : Operand} {rs : List Reg} (hd : i.dsts = [dst])
    (hc : i.isCall = false) (hrs : rs.length = i.srcs.length) (r : Reg) (exit : Label) :
    ∃ x ∈ i.select [r] rs exit, x.dst? = some r := by
  obtain ⟨x, xs, hselect, hx⟩ := select_eq_cons hd hc hrs r exit
  exact ⟨x, hselect ▸ List.mem_cons_self, hx⟩

namespace Alloc

/-! ### Effects -/

/-- Loads of what a step reads, stores of what must survive, and changes of the register file without either.  Comments
may stand between them. -/
inductive Moves (s : Step) : RegisterFile → List Action → RegisterFile → Prop
  | done (f : RegisterFile) : Moves s f [] f
  | remark {f f' : RegisterFile} {τ : List Action} (text : String) : Moves s f τ f' → Moves s f (.comment text :: τ) f'
  | save {f f' : RegisterFile} {τ : List Action} {r : Reg} {t : Temp} : f.binding? t = some r →
      (s.instr.TempsOnly → t ∈ s.liveIn ∨ t ∈ s.liveOut) → Moves s f τ f' → Moves s f (.store r t :: τ) f'
  | fetch {f f' : RegisterFile} {τ : List Action} {r : Reg} {t : Temp} : t ∈ s.instr.uses →
      Moves s (f.bind t r) τ f' → Moves s f (.load r t :: τ) f'
  | free {f f' : RegisterFile} {τ : List Action} (t : Temp) : Moves s (f.without t) τ f' → Moves s f τ f'

/-- The register stands for an operand that is read: it is the one named, or the temporary was there before the moves,
or is loaded by them. -/
def Supplies (f : RegisterFile) (τ : List Action) (op : Operand) (r : Reg) : Prop :=
  (∀ q ∈ op.reg?, r = q) ∧ ∀ t ∈ op.temp?, f.binding? t = some r ∨ .load r t ∈ τ

/-- The registers for the operands that an instruction writes, of which there is at most one.  A temporary keeps its
register or gets a new one. -/
inductive Claims (f : RegisterFile) : List Operand → List Reg → RegisterFile → Prop
  | none : Claims f [] [] f
  | named (r : Reg) : Claims f [.reg r] [r] f
  | kept {t : Temp} {r : Reg} : f.binding? t = some r → Claims f [.temp t] [r] f
  | taken (t : Temp) (r : Reg) : Claims f [.temp t] [r] (f.bind t r)

/-- After a call, only the callee-saved registers hold what they held. -/
structure Crosses (f f' : RegisterFile) : Prop where
  kept : ∀ t r, f'.binding? t = some r → f.binding? t = some r ∧ r ∈ Reg.calleeSaved
  used : ∀ r, f'.used r = f.used r

def received (f : RegisterFile) : Option Temp → RegisterFile
  | some t => f.bind t .result
  | none => f

def passes (args : List Temp) : List Action := (args.zip Reg.params).map fun p => .load p.2 p.1

/-- The events of a step, and what becomes of the register file. -/
inductive Effect (exit : Label) (s : Step) : RegisterFile → List Action → RegisterFile → Prop
  | straight {f f₁ f₂ : RegisterFile} {τ : List Action} {dsts srcs : List Reg} : s.instr.isCall = false →
      s.instr.leaves = false → Moves s f τ f₁ → List.Forall₂ (Supplies f τ) s.instr.srcs srcs →
      Claims f₁ s.instr.dsts dsts f₂ →
      Effect exit s f (τ ++ (s.instr.select dsts srcs exit).map .native ++ f₂.stores s.liveOut) f₂
  | leaving {f f' : RegisterFile} {τ : List Action} {srcs : List Reg} : s.instr.leaves = true → Moves s f τ f' →
      List.Forall₂ (Supplies f τ) s.instr.srcs srcs →
      Effect exit s f (τ ++ f'.stores s.liveOut ++ (s.instr.select [] srcs exit).map .native) f'
  | call {f f₁ f₂ f₃ : RegisterFile} {τ : List Action} {dst : Option Temp} {l : Label} {args : List Temp} :
      s.instr = .call (dst.map .temp) l (args.map .temp) → args.length ≤ Reg.params.length → Moves s f τ f₁ →
      Moves s f₁ (passes args) f₂ → Crosses f₂ f₃ →
      Effect exit s f (τ ++ passes args ++ .native (.call l) ::
        (dst.toList.map (.store .result) ++ (received f₃ dst).stores s.liveOut)) (received f₃ dst)

/-- The events of steps in order, those of each apart. -/
inductive Effects (exit : Label) : RegisterFile → List Step → List (List Action) → RegisterFile → Prop
  | nil (f : RegisterFile) : Effects exit f [] [] f
  | cons {f f₁ f' : RegisterFile} {s : Step} {ss : List Step} {τ : List Action} {τs : List (List Action)} :
      Effect exit s f τ f₁ → Effects exit f₁ ss τs f' → Effects exit f (s :: ss) (τ :: τs) f'

/-- The events of blocks in order, those of each apart: the label of a block and then, from empty registers, the events
of its steps. -/
inductive BlockEffects (exit : Label) : RegisterFile → List Block → List (List Action) → RegisterFile → Prop
  | nil (f : RegisterFile) : BlockEffects exit f [] [] f
  | cons {f f₁ f' : RegisterFile} {b : Block} {bs : List Block} {τs υs : List (List Action)} :
      Effects exit f.resetBlock b.steps τs f₁ → BlockEffects exit f₁ bs υs f' →
      BlockEffects exit f (b :: bs) ((b.label.toList.map .label ++ τs.flatten) :: υs) f'

/-! ### Moves -/

variable {s : Step} {f f' f'' : RegisterFile} {τ υ : List Action}

namespace Moves

theorem trans (h : Moves s f τ f') (h' : Moves s f' υ f'') : Moves s f (τ ++ υ) f'' := by
  induction h with
  | done => exact h'
  | remark text _ ih => exact .remark text (ih h')
  | save hb hl _ ih => exact .save hb hl (ih h')
  | fetch ht _ ih => exact .fetch ht (ih h')
  | free t _ ih => exact .free t (ih h')

theorem remarks {ρ : List Action} (hρ : ∀ α ∈ ρ, ∃ text, α = .comment text) (h : Moves s f τ f') :
    Moves s f (ρ ++ τ) f' := by
  induction ρ with
  | nil => exact h
  | cons α ρ ih =>
    obtain ⟨text, rfl⟩ := hρ α List.mem_cons_self
    exact .remark text (ih fun β hβ => hρ β (List.mem_cons_of_mem _ hβ))

theorem isMove (h : Moves s f τ f') : ∀ α ∈ τ, α.isMove = true := by
  induction h with
  | done => simp
  | free _ _ ih => exact ih
  | remark _ _ ih | save _ _ _ ih | fetch _ _ ih => exact List.forall_mem_cons.2 ⟨rfl, ih⟩

/-- What is in a register after moves was there before, or was loaded. -/
theorem binding? (h : Moves s f τ f') {t : Temp} {r : Reg} (hb : f'.binding? t = some r) :
    f.binding? t = some r ∨ .load r t ∈ τ := by
  induction h with
  | done => exact .inl hb
  | remark text _ ih => exact (ih hb).imp_right (List.mem_cons_of_mem _)
  | save _ _ _ ih => exact (ih hb).imp_right (List.mem_cons_of_mem _)
  | fetch _ _ ih =>
    rcases ih hb with h | h
    · rcases RegisterFile.binding?_of_bind h with ⟨rfl, rfl⟩ | h
      · exact .inr List.mem_cons_self
      · exact .inl h
    · exact .inr (List.mem_cons_of_mem _ h)
  | free u _ ih => exact (ih hb).imp_left RegisterFile.binding?_of_without

end Moves

/-! ### Steps and blocks of a run -/

section

variable {exit : Label} {ss : List Step} {bs : List Block} {b : Block} {τs : List (List Action)} {α : Action}

theorem Effects.exists_of_mem (h : Effects exit f ss τs f') (hs : s ∈ ss) :
    ∃ f₀ τ f₁, Effect exit s f₀ τ f₁ ∧ ∀ α ∈ τ, α ∈ τs.flatten := by
  induction h with
  | nil => simp at hs
  | cons he _ ih =>
    rw [List.flatten_cons]
    rcases List.mem_cons.1 hs with rfl | hs
    · exact ⟨_, _, _, he, fun _ hα => List.mem_append_left _ hα⟩
    · obtain ⟨f₀, τ, f₁, he, hτ⟩ := ih hs
      exact ⟨f₀, τ, f₁, he, fun α hα => List.mem_append_right _ (hτ α hα)⟩

theorem BlockEffects.exists_of_mem (h : BlockEffects exit f bs τs f') (hb : b ∈ bs) :
    ∃ (f₀ : RegisterFile) (σs : List (List Action)) (f₁ : RegisterFile), Effects exit f₀.resetBlock b.steps σs f₁ ∧
      ∀ α ∈ σs.flatten, α ∈ τs.flatten := by
  induction h with
  | nil => simp at hb
  | cons he _ ih =>
    rw [List.flatten_cons]
    rcases List.mem_cons.1 hb with rfl | hb
    · exact ⟨_, _, _, he, fun _ hα => List.mem_append_left _ (List.mem_append_right _ hα)⟩
    · obtain ⟨f₀, σs, f₁, he, hσs⟩ := ih hb
      exact ⟨f₀, σs, f₁, he, fun α hα => List.mem_append_right _ (hσs α hα)⟩

end

end Alloc

/-! ### Events and what matters of them -/

namespace Action

theorem eq_comment_of_essential_eq_nil {τ : List Action} (h : essential τ = []) :
    ∀ α ∈ events τ, ∃ text, α = .comment text := by
  intro α hα
  obtain ⟨hm, hn⟩ := List.mem_filter.1 hα
  have hq := List.filter_eq_nil_iff.1 h α hm
  cases α <;> simp [isQuiet, note?] at hq hn ⊢

/-- The events up to the first that matters. -/
theorem events_of_essential_eq_cons {τ υ : List Action} {α : Action} (h : essential τ = α :: υ) :
    ∃ ρ τ', events τ = ρ ++ α :: events τ' ∧ (∀ β ∈ ρ, ∃ text, β = .comment text) ∧ essential τ' = υ := by
  obtain ⟨ρ, τ', rfl, hρ, hα, hτ'⟩ := List.filter_eq_cons_iff.1 h
  have hnil : essential ρ = [] := List.filter_eq_nil_iff.2 hρ
  refine ⟨events ρ, τ', ?_, eq_comment_of_essential_eq_nil hnil, hτ'⟩
  rw [events_append]
  cases α with
  | store | load | native | label => rfl
  | comment | note => simp [isQuiet] at hα

end Action

namespace Alloc

variable {s : Step} {f f' : RegisterFile} {τ υ : List Action}

theorem Moves.of_essential (h : Moves s f (Action.essential τ) f') : Moves s f (Action.events τ) f' := by
  generalize he : Action.essential τ = υ at h
  induction h generalizing τ with
  | done f =>
    have hc := Action.eq_comment_of_essential_eq_nil he
    simpa using Moves.remarks hc (.done f)
  | remark text =>
    have hm : Action.comment text ∈ Action.essential τ := he ▸ List.mem_cons_self
    simp [Action.essential, Action.isQuiet] at hm
  | save hb hl _ ih =>
    obtain ⟨ρ, τ', hτ, hρ, he'⟩ := Action.events_of_essential_eq_cons he
    exact hτ ▸ .remarks hρ (.save hb hl (ih he'))
  | fetch ht _ ih =>
    obtain ⟨ρ, τ', hτ, hρ, he'⟩ := Action.events_of_essential_eq_cons he
    exact hτ ▸ .remarks hρ (.fetch ht (ih he'))
  | free t _ ih => exact .free t (ih he)

theorem Supplies.mono (hs : ∀ {α}, α ∈ τ → α ∈ υ) {op : Operand} {r : Reg} (h : Supplies f τ op r) :
    Supplies f υ op r :=
  ⟨h.1, fun t ht => (h.2 t ht).imp_right hs⟩

/-! ### The operands of an instruction -/

variable {a a' : Allocator} {pinned : List Reg}

theorem Does.andReturn {α β : Type} {x : Alloc α} {v : α} (h : Does x a v a' τ) (g : α → β) :
    Does (x >>= fun y => Pure.pure (g y)) a (g v) a' τ := by
  have hb := h.bind (f := fun y => Pure.pure (g y)) (Does.pure (g v) a')
  rwa [List.append_nil] at hb

/-- A temporary that is read is in its register already or is loaded. -/
theorem moves_hold_read (hv : a.Valid) {t : Temp} (ht : t ∈ s.instr.uses)
    (hp : s.instr.TempsOnly → pinned.length < 2) :
    ∃ r a' τ, Does (hold t true s.liveIn pinned) a r a' τ ∧ a'.Valid ∧ Moves s a.regs τ a'.regs ∧
      (a.regs.binding? t = some r ∨ .load r t ∈ τ) := by
  obtain ⟨r, a', τ, hd, hh⟩ := hold_held hv t true s.liveIn pinned
  refine ⟨r, a', τ, hd, hh.valid hv, ?_⟩
  cases hh with
  | bound hb => exact ⟨.done _, .inl hb⟩
  | free => exact ⟨.fetch ht (.done _), .inr List.mem_cons_self⟩
  | @evicted u _ _ _ _ ho hl =>
    have hb := (hv.consistent u r).2 ho
    refine ⟨.save hb (fun _ => .inl hl) (.free u (.fetch ht (.done _))), .inr ?_⟩
    exact List.mem_cons_of_mem _ List.mem_cons_self
  | @forced i _ _ _ hpin =>
    -- no register is left over, so more than one is pinned, and the step names registers
    have hn : ¬ s.instr.TempsOnly := fun hts => by
      obtain ⟨q, hq, hq'⟩ := hv.exists_unpinned (hp hts)
      exact hq' (hpin q hq)
    refine ⟨?_, .inr (List.mem_append_right _ List.mem_cons_self)⟩
    cases ho : a.regs.occupant? r with
    | none =>
      have ho' : (a.advance i).regs.occupant? r = none := ho
      rw [Allocator.emptied_of_none ho']
      exact .fetch ht (.done _)
    | some u =>
      have ho' : (a.advance i).regs.occupant? r = some u := ho
      rw [Allocator.emptied_of_some ho']
      exact .save ((hv.consistent u r).2 ho) (fun hts => absurd hts hn) (.free u (.fetch ht (.done _)))

/-- A temporary that is written keeps its register or takes one. -/
theorem moves_hold_write (s : Step) (pinned : List Reg) (hv : a.Valid) (t : Temp) :
    ∃ r a' τ f₁, Does (hold t false s.liveOut pinned) a r a' τ ∧ Moves s a.regs τ f₁ ∧
      Claims f₁ [.temp t] [r] a'.regs := by
  obtain ⟨r, a', τ, hd, hh⟩ := hold_held hv t false s.liveOut pinned
  cases hh with
  | bound hb => exact ⟨r, a, [], a.regs, hd, .done _, .kept hb⟩
  | free => exact ⟨r, _, [], a.regs, hd, .done _, .taken t r⟩
  | @evicted u _ _ _ _ ho hl =>
    have hb := (hv.consistent u r).2 ho
    exact ⟨r, _, _, a.regs.without u, hd, .save hb (fun _ => .inr hl) (.free u (.done _)), .taken t r⟩
  | forced _ _ hread => simp at hread

theorem moves_readAll (hv : a.Valid) {ops : List Operand} (hops : ∀ op ∈ ops, op ∈ s.instr.srcs)
    (hp : s.instr.TempsOnly → pinned.length + ops.length ≤ 2) :
    ∃ rs a' τ, Does (readAll s.liveIn pinned ops) a rs a' τ ∧ a'.Valid ∧ Moves s a.regs τ a'.regs ∧
      List.Forall₂ (Supplies a.regs τ) ops rs := by
  induction ops generalizing a pinned with
  | nil => exact ⟨[], a, [], Does.pure _ a, hv, .done _, .nil⟩
  | cons op ops ih =>
    have hops' : ∀ op ∈ ops, op ∈ s.instr.srcs := fun q hq => hops q (List.mem_cons_of_mem op hq)
    have hp' : ∀ r : Reg, s.instr.TempsOnly → (r :: pinned).length + ops.length ≤ 2 := fun r hts => by
      have := hp hts
      simp only [List.length_cons] at this ⊢
      omega
    cases op with
    | reg r =>
      obtain ⟨rs, a', τ, hd, hv', hm, hsup⟩ := ih hv hops' (hp' r)
      refine ⟨r :: rs, a', τ, ?_, hv', hm, .cons ⟨fun q hq => Option.some.inj hq, by simp [Operand.temp?]⟩ hsup⟩
      exact (Does.pure r a).andThen (hd.andReturn (r :: ·))
    | temp t =>
      have ht : t ∈ s.instr.uses := List.mem_filterMap.2 ⟨_, hops _ List.mem_cons_self, rfl⟩
      have hlt : s.instr.TempsOnly → pinned.length < 2 := fun hts => by
        have := hp hts
        rw [List.length_cons] at this
        omega
      obtain ⟨r, a₁, τ₁, hd₁, hv₁, hm₁, hr⟩ := moves_hold_read hv ht hlt
      obtain ⟨rs, a', τ₂, hd₂, hv', hm₂, hsup⟩ := ih hv₁ hops' (hp' r)
      refine ⟨r :: rs, a', τ₁ ++ τ₂, hd₁.bind (hd₂.andReturn (r :: ·)), hv', hm₁.trans hm₂,
        .cons ⟨by simp [Operand.reg?], fun u hu => ?_⟩ (hsup.imp fun op q hq => ⟨hq.1, fun u hu => ?_⟩)⟩
      · cases Option.some.inj hu
        exact hr.imp_right (List.mem_append_left _)
      · rcases hq.2 u hu with h | h
        · exact (hm₁.binding? h).imp_right (List.mem_append_left _)
        · exact .inr (List.mem_append_right _ h)

theorem moves_writeAll (s : Step) (pinned : List Reg) (hv : a.Valid) {ops : List Operand}
    (hops : ops = [] ∨ ∃ op, ops = [op]) :
    ∃ rs a' τ f₁, Does (writeAll s.liveOut pinned ops) a rs a' τ ∧ Moves s a.regs τ f₁ ∧ Claims f₁ ops rs a'.regs := by
  rcases hops with rfl | ⟨op, rfl⟩
  · exact ⟨[], a, [], a.regs, Does.pure _ a, .done _, .none⟩
  · cases op with
    | reg r => exact ⟨[r], a, [], a.regs, (Does.pure r a).andThen (Does.pure _ a), .done _, .named r⟩
    | temp t =>
      obtain ⟨r, a', τ, f₁, hd, hm, hc⟩ := moves_hold_write s pinned hv t
      exact ⟨[r], a', τ, f₁, hd.andReturn ([·]), hm, hc⟩

/-- **How the operands of an instruction come into registers.** -/
theorem moves_resolve (hv : a.Valid) (hc : s.instr.isCall = false) :
    ∃ dsts srcs a' τ f₁, Does (resolve s) a (dsts, srcs) a' τ ∧ Moves s a.regs τ f₁ ∧
      List.Forall₂ (Supplies a.regs τ) s.instr.srcs srcs ∧ Claims f₁ s.instr.dsts dsts a'.regs := by
  let named := (s.instr.srcs ++ s.instr.dsts).filterMap Operand.reg?
  have hpin : s.instr.TempsOnly → named.length + s.instr.srcs.length ≤ 2 := fun hts => by
    have hnil : named = [] := List.filterMap_eq_nil_iff.2 hts
    rw [hnil, List.length_nil, Nat.zero_add]
    exact length_srcs_le hc
  obtain ⟨srcs, a₁, τ₁, hd₁, hv₁, hm₁, hsup⟩ := moves_readAll hv (fun _ h => h) hpin
  obtain ⟨dsts, a', τ₂, f₁, hd₂, hm₂, hcl⟩ := moves_writeAll s (srcs ++ named) hv₁ (dsts_shape hc)
  refine ⟨dsts, srcs, a', τ₁ ++ τ₂, f₁, hd₁.bind (hd₂.andReturn (·, srcs)),
    hm₁.trans hm₂, hsup.imp fun _ _ h => h.mono (List.mem_append_left _), hcl⟩

theorem mem_events_of_mem_essential {α : Action} (h : α ∈ Action.essential τ) : α ∈ Action.events τ := by
  obtain ⟨hm, hq⟩ := List.mem_filter.1 h
  refine List.mem_filter.2 ⟨hm, ?_⟩
  cases α with
  | store | load | native | label => rfl
  | comment | note => simp [Action.isQuiet] at hq

/-- The same with the events, after actions that do not matter. -/
theorem resolve_moves (hv : a.Valid) (hc : s.instr.isCall = false) {ρ : List Action} (hρ : Action.essential ρ = []) :
    ∃ dsts srcs f₁, (run (resolve s) a).value = (dsts, srcs) ∧
      Moves s a.regs (Action.events (ρ ++ (run (resolve s) a).trace)) f₁ ∧
      List.Forall₂ (Supplies a.regs (Action.events (ρ ++ (run (resolve s) a).trace))) s.instr.srcs srcs ∧
      Claims f₁ s.instr.dsts dsts (run (resolve s) a).state.regs := by
  obtain ⟨dsts, srcs, a', τ, f₁, ⟨hval, rfl, rfl⟩, hm, hsup, hcl⟩ := moves_resolve hv hc
  have he : Action.essential (ρ ++ (run (resolve s) a).trace) = Action.essential (run (resolve s) a).trace := by
    rw [Action.essential_append, hρ, List.nil_append]
  refine ⟨dsts, srcs, f₁, hval, .of_essential (he ▸ hm), hsup.imp fun _ _ h => h.mono fun hα => ?_, hcl⟩
  exact mem_events_of_mem_essential (he ▸ hα)

theorem events_stores (f : RegisterFile) (live : TempSet) : Action.events (f.stores live) = f.stores live := by
  refine List.filter_eq_self.2 fun α hα => ?_
  obtain ⟨t, -, ht⟩ := List.mem_filterMap.1 hα
  obtain ⟨r, -, rfl⟩ := Option.map_eq_some_iff.1 ht
  rfl

/-- What is live is written back, and nothing else changes. -/
theorem run_writeBack (live : TempSet) (a : Allocator) : run (writeBack live) a = ⟨(), a, a.regs.stores live⟩ := by
  rw [RegisterFile.stores, ← trace_writeBack]
  exact congrArg (Emitted.mk () · _) (state_writeBack live a)

/-! ### Calls -/

section

variable (s a)

/-- Before a call, the registers that it may overwrite are emptied. -/
theorem moves_vacate (r : Reg) (hv : a.Valid) :
    (run (vacate s.liveIn r) a).state.Valid ∧
      Moves s a.regs (Action.events (run (vacate s.liveIn r) a).trace) (run (vacate s.liveIn r) a).state.regs := by
  unfold vacate
  rw [run_bind, run_state]
  dsimp only
  cases ho : a.regs.occupant? r with
  | none => exact ⟨hv, .done _⟩
  | some t =>
    have hb := (hv.consistent t r).2 ho
    have hforget : Action.events (run (forget t) a).trace = [] := Action.events_notes _
    dsimp only
    split
    · rename_i hl
      refine ⟨hv.without t, ?_⟩
      show Moves s a.regs (Action.events (.note _ :: .store r t :: (run (forget t) a).trace)) _
      rw [Action.events_note]
      show Moves s a.regs (.store r t :: Action.events (run (forget t) a).trace) _
      rw [hforget]
      exact .save hb (fun _ => .inl hl) (.free t (.done _))
    · refine ⟨hv.without t, ?_⟩
      show Moves s a.regs (Action.events (run (forget t) a).trace) _
      rw [hforget]
      exact .free t (.done _)

end

theorem moves_vacateAll (hv : a.Valid) (rs : List Reg) :
    (run (rs.forM fun r => vacate s.liveIn r) a).state.Valid ∧
      Moves s a.regs (Action.events (run (rs.forM fun r => vacate s.liveIn r) a).trace)
        (run (rs.forM fun r => vacate s.liveIn r) a).state.regs := by
  induction rs generalizing a with
  | nil => exact ⟨hv, .done _⟩
  | cons r rs ih =>
    obtain ⟨hv₁, hm₁⟩ := moves_vacate s a r hv
    obtain ⟨hv₂, hm₂⟩ := ih hv₁
    refine ⟨hv₂, ?_⟩
    show Moves s a.regs (Action.events ((run (vacate s.liveIn r) a).trace ++ _)) _
    rw [Action.events_append]
    exact hm₁.trans hm₂

theorem events_pass (t : Temp) (r : Reg) (a : Allocator) : Action.events (run (pass t r) a).trace = [.load r t] := by
  show Action.events ((a.regs.unbindNotes t).map .note ++ (.load r t :: (_ : List Note).map .note)) = _
  rw [Action.events_append, Action.events_notes]
  show .load r t :: Action.events _ = _
  rw [Action.events_notes]

/-- The arguments of a call are loaded into their registers, and nothing else is emitted. -/
theorem moves_pass {ps : List (Temp × Reg)} (hps : ∀ p ∈ ps, p.1 ∈ s.instr.uses ∧ p.2 ∈ Reg.allocatable)
    (hv : a.Valid) :
    (run (ps.forM fun p => pass p.1 p.2) a).state.Valid ∧
      Action.events (run (ps.forM fun p => pass p.1 p.2) a).trace = ps.map (fun p => .load p.2 p.1) ∧
      Moves s a.regs (ps.map fun p => .load p.2 p.1) (run (ps.forM fun p => pass p.1 p.2) a).state.regs := by
  induction ps generalizing a with
  | nil => exact ⟨hv, rfl, .done _⟩
  | cons p ps ih =>
    obtain ⟨hu, hr⟩ := hps p List.mem_cons_self
    have hv₁ := (hv.without p.1).bind p.1 hr
    obtain ⟨hv₂, he, hm⟩ := ih (fun q hq => hps q (List.mem_cons_of_mem p hq)) hv₁
    refine ⟨hv₂, ?_, .free p.1 (.fetch hu hm)⟩
    show Action.events ((run (pass p.1 p.2) a).trace ++ _) = _
    rw [Action.events_append, events_pass]
    exact congrArg (_ :: ·) he

theorem run_drop (r : Reg) (a : Allocator) :
    Action.events (run (drop r) a).trace = [] ∧ ∀ q, (run (drop r) a).state.regs.used q = a.regs.used q := by
  unfold drop
  rw [run_bind, run_state]
  dsimp only
  split
  · exact ⟨Action.events_notes _, fun q => RegisterFile.used_without _ _ q⟩
  · exact ⟨rfl, fun _ => rfl⟩

theorem run_dropAll (rs : List Reg) (a : Allocator) :
    Action.events (run (rs.forM fun r => drop r) a).trace = [] ∧
      ∀ q, (run (rs.forM fun r => drop r) a).state.regs.used q = a.regs.used q := by
  induction rs generalizing a with
  | nil => exact ⟨rfl, fun _ => rfl⟩
  | cons r rs ih =>
    obtain ⟨he, hu⟩ := run_drop r a
    obtain ⟨hes, hus⟩ := ih (run (drop r) a).state
    refine ⟨?_, fun q => (hus q).trans (hu q)⟩
    show Action.events ((run (drop r) a).trace ++ _) = []
    rw [Action.events_append, he]
    exact hes

theorem crosses_drop (hv : a.Valid) :
    Action.events (run (Reg.callerSaved.forM fun r => drop r) a).trace = [] ∧
      Crosses a.regs (run (Reg.callerSaved.forM fun r => drop r) a).state.regs := by
  obtain ⟨he, hu⟩ := run_dropAll Reg.callerSaved a
  have hnil : Action.essential (run (Reg.callerSaved.forM fun r => drop r) a).trace = [] :=
    List.eq_nil_iff_forall_not_mem.2 fun α hα => List.not_mem_nil (he ▸ mem_events_of_mem_essential hα)
  have hdrop := ensures_drop (σ := ⟨fun _ => 0, fun _ => 0⟩) (T := []) hv
  -- nothing that matters is emitted, so what is ensured holds at once
  unfold Ensures at hdrop
  rw [← Cells.must_essential, hnil, Cells.must_nil] at hdrop
  exact ⟨he, hdrop.2.2.2, hu⟩

/-- A call, from the moves before it to the arrival of its result. -/
theorem call_effect (hv : a.Valid) {xs : List Temp} {d : Option Temp} {l : Label}
    (hi : s.instr = .call (d.map .temp) l (xs.map .temp)) (exit : Label) :
    ∃ τ f₁ f₂ f₃, Moves s a.regs τ f₁ ∧ Moves s f₁ (passes xs) f₂ ∧ Crosses f₂ f₃ ∧
      (run (call s xs d exit) a).state.regs = received f₃ d ∧
      Action.events (run (call s xs d exit) a).trace =
        τ ++ passes xs ++ .native (.call l) :: d.toList.map (.store .result) := by
  have hsel : ∀ ds rs, s.instr.select ds rs exit = [.call l] := fun _ _ => by rw [hi]; rfl
  have huses : ∀ p ∈ xs.zip Reg.params, p.1 ∈ s.instr.uses ∧ p.2 ∈ Reg.allocatable := by
    intro p hp
    obtain ⟨hx, hr⟩ := List.of_mem_zip hp
    refine ⟨List.mem_filterMap.2 ⟨.temp p.1, ?_, rfl⟩, Allocator.allocatable_of_mem_params hr⟩
    rw [hi]
    exact List.mem_map_of_mem hx
  have hv₀ : (Allocator.mk a.regs a.cursor a.comments true a.spills).Valid := { hv with }
  obtain ⟨hv₁, hm₁⟩ := moves_vacateAll (s := s) hv₀ Reg.callerSaved
  obtain ⟨hv₂, he₂, hm₂⟩ := moves_pass huses hv₁
  obtain ⟨he₃, hc₃⟩ := crosses_drop hv₂
  have hremark : ∀ α ∈ Action.events (if a.comments then [.comment s.instr.text] else []), ∃ text, α = .comment text :=
    Action.eq_comment_of_essential_eq_nil (Action.essential_remark _ _)
  refine ⟨_, _, _, _, Moves.remarks hremark hm₁, hm₂, hc₃, ?_⟩
  unfold call
  simp only [run_bind, run_change, run_remark, run_emitCode, hsel]
  generalize run (Reg.callerSaved.forM fun r => vacate s.liveIn r)
    (Allocator.mk a.regs a.cursor a.comments true a.spills) = v at he₂ he₃ ⊢
  generalize run ((xs.zip Reg.params).forM fun p => pass p.1 p.2) v.state = w at he₂ he₃ ⊢
  generalize run (Reg.callerSaved.forM fun r => drop r) w.state = z at he₃ ⊢
  simp only [Action.events_append, Action.events_nil, Action.events_code, he₂, he₃]
  simp only [passes, List.nil_append, List.append_assoc, List.map_cons, List.map_nil, List.singleton_append]
  cases d with
  | none => exact ⟨rfl, rfl⟩
  | some t =>
    have hreceive : Action.events (run (receive t) z.state).trace = [.store .result t] := by
      show Action.events (List.map .note _ ++ [.store .result t]) = _
      rw [Action.events_append, Action.events_notes]
      rfl
    exact ⟨rfl, by rw [hreceive]; rfl⟩

/-! ### Steps and blocks -/

variable {exit : Label}

theorem step_effect (hv : a.Valid) (hs : s.instr.leaves = false) (h : Yields (step s exit true) a () a' τ) :
    Effect exit s a.regs (Action.events τ) a'.regs := by
  cases hc : s.instr.isCall with
  | true =>
    obtain ⟨dst, l, args, hi⟩ := Instr.eq_call hc
    obtain ⟨xs, d, a₁, τ₁, τ₂, htemps, h₁, h₂, rfl⟩ := step_call hi h
    obtain ⟨rfl, rfl, hlen⟩ := callTemps_eq_ok htemps
    obtain ⟨υ, f₁, f₂, f₃, hm₁, hm₂, hc₃, hstate, hevents⟩ := call_effect hv hi exit
    rw [h₁] at hstate hevents
    rw [run_writeBack] at h₂
    obtain ⟨-, rfl, rfl⟩ := Emitted.mk.inj h₂
    replace hstate : a₁.regs = received f₃ d := hstate
    rw [Action.events_append, events_stores, show Action.events τ₁ = _ from hevents, hstate, List.append_assoc,
      List.cons_append]
    exact .call hi hlen hm₁ hm₂ hc₃
  | false =>
    obtain ⟨a₁, τ₀, τ₁, τ₂, h₀, h₁, h₂, rfl⟩ := step_instruction hc h
    obtain ⟨dsts, srcs, f₁, hval, hm, hsup, hcl⟩ := resolve_moves hv hc h₀
    have hrun : run (instruction s exit true) a = ⟨(), (run (resolve s) a).state, (run (resolve s) a).trace ++
        (s.instr.select (run (resolve s) a).value.1 (run (resolve s) a).value.2 exit).map .native⟩ := rfl
    rw [hrun, hval] at h₁
    obtain ⟨-, rfl, rfl⟩ := Emitted.mk.inj h₁
    rw [run_writeBack] at h₂
    obtain ⟨-, rfl, rfl⟩ := Emitted.mk.inj h₂
    rw [Action.events_append, events_stores, ← List.append_assoc, Action.events_append, Action.events_code]
    exact .straight hc hs hm hsup hcl

theorem leaving_effect (hv : a.Valid) (hl : s.instr.leaves = true) (h : Yields (step s exit false) a () a' τ) :
    a' = (run (resolve s) a).state ∧ Effect exit s a.regs (Action.events τ ++
      (s.instr.select (run (resolve s) a).value.1 (run (resolve s) a).value.2 exit).map .native) a'.regs := by
  have hc : s.instr.isCall = false := by
    cases hi : s.instr <;> simp [hi, Instr.leaves, Instr.flow] at hl <;> rfl
  obtain ⟨a₁, τ₀, τ₁, τ₂, h₀, h₁, h₂, rfl⟩ := step_instruction hc h
  obtain ⟨dsts, srcs, f₁, hval, hm, hsup, hcl⟩ := resolve_moves hv hc h₀
  have hrun : run (instruction s exit false) a = ⟨(), (run (resolve s) a).state, (run (resolve s) a).trace ++ []⟩ := rfl
  rw [hrun, List.append_nil] at h₁
  obtain ⟨-, rfl, rfl⟩ := Emitted.mk.inj h₁
  rw [run_writeBack] at h₂
  obtain ⟨-, rfl, rfl⟩ := Emitted.mk.inj h₂
  refine ⟨rfl, ?_⟩
  rw [Instr.dsts_of_leaves hl] at hcl
  rw [hval, Action.events_append, events_stores]
  -- nothing is written, so no register is claimed
  cases hcl
  exact .leaving hl hm hsup

variable {ss : List Step} {b : Block} {bs : List Block}

/-- The steps of a block; if the last leaves, its code is still to come. -/
theorem steps_effects {e : Ending} (hv : a.Valid) (hf : Formed (ss.map Step.instr) e)
    (h : Yields (steps exit (decide (e ≠ .fallsThrough)) ss) a () a' τ) :
    ∃ τs, Effects exit a.regs ss τs a'.regs ∧
      ((e = .fallsThrough ∧ Action.events τ = τs.flatten) ∨
        ∃ done s a₀, ss = done ++ [s] ∧ s.instr.leaves = true ∧ a' = (run (resolve s) a₀).state ∧
          Action.events τ ++ (s.instr.select (run (resolve s) a₀).value.1 (run (resolve s) a₀).value.2 exit).map
            .native = τs.flatten) := by
  induction ss generalizing a τ with
  | nil =>
    obtain ⟨rfl, rfl⟩ := steps_nil h
    exact ⟨[], .nil _, .inl ⟨hf.ending_of_nil, rfl⟩⟩
  | cons s ss ih =>
    obtain ⟨a₁, τ₁, τ₂, h₁, h₂, rfl⟩ := steps_cons h
    replace hf : Formed (s.instr :: ss.map Step.instr) e := hf
    have hem : (!(decide (e ≠ .fallsThrough) && ss.isEmpty)) = !s.instr.leaves := by
      rw [hf.leaves_eq, List.isEmpty_map]
    rw [hem] at h₁
    have hv₁ : a₁.Valid := (step_clean hv (fun _ hr => hr) (hf.flow_ne_label List.mem_cons_self) rfl h₁).valid
    rcases hf.of_cons with ⟨hflow, hf'⟩ | ⟨hnil, hl, -⟩
    · have hl : s.instr.leaves = false := by simp [Instr.leaves, hflow]
      rw [hl] at h₁
      have heff := step_effect hv hl h₁
      obtain ⟨τs, heffs, hτs⟩ := ih hv₁ hf' h₂
      refine ⟨_ :: τs, .cons heff heffs, ?_⟩
      rw [Action.events_append, List.flatten_cons]
      rcases hτs with ⟨he, hτs⟩ | ⟨done, s', a₀, rfl, hl', hst, hτs⟩
      · exact .inl ⟨he, by rw [hτs]⟩
      · exact .inr ⟨s :: done, s', a₀, rfl, hl', hst, by rw [List.append_assoc, hτs]⟩
    · cases List.map_eq_nil_iff.1 hnil
      obtain ⟨rfl, rfl⟩ := steps_nil h₂
      rw [hl] at h₁
      obtain ⟨hst, heff⟩ := leaving_effect hv hl h₁
      exact ⟨[_], .cons heff (.nil _), .inr ⟨[], s, a, rfl, hl, hst, by simp⟩⟩

/-- The code that leaves a block, once its operands are in registers. -/
theorem run_instruction_again (hl : s.instr.leaves = true) (a : Allocator) :
    run (instruction s exit true) (run (resolve s) a).state = ⟨(), (run (resolve s) a).state,
      (s.instr.select (run (resolve s) a).value.1 (run (resolve s) a).value.2 exit).map .native⟩ := by
  unfold instruction
  rw [run_bind, resolve_again hl]
  rfl

theorem block_effects (hv : a.Valid) (hf : Formed b.instrs b.ending) (h : Yields (block b exit) a () a' τ) :
    ∃ τs, Effects exit a.regs.resetBlock b.steps τs a'.regs ∧
      Action.events τ = b.label.toList.map .label ++ τs.flatten := by
  obtain ⟨a₁, τ₁, τ₂, h₁, h₂, rfl⟩ := block_parts h
  have hsome := Block.isSome_last? hf
  rw [hsome] at h₁
  rw [Action.events_append, Action.events_label, Action.events_note, Action.events_append]
  obtain ⟨τs, heffs, ⟨he, hτs⟩ | ⟨done, s, a₀, hs, hl, rfl, hτs⟩⟩ := steps_effects (valid_enter hv) hf h₁
  · have hnone : b.last? = none := by
      rw [he] at hsome
      exact Option.isNone_iff_eq_none.1 (by rw [← Option.not_isSome, hsome]; rfl)
    rw [leave, hnone, run_pure] at h₂
    obtain ⟨-, rfl, rfl⟩ := Emitted.mk.inj h₂
    exact ⟨τs, heffs, by rw [hτs, Action.events_nil, List.append_nil]⟩
  · rw [leave, last?_of_leaves hf hs hl, run_instruction_again hl] at h₂
    obtain ⟨-, rfl, rfl⟩ := Emitted.mk.inj h₂
    exact ⟨τs, heffs, by rw [Action.events_code, hτs]⟩

theorem block_valid (hv : a.Valid) (hf : Formed b.instrs b.ending) (h : Yields (block b exit) a () a' τ) :
    a'.Valid := by
  have hnames : Names (b.instrs.flatMap Instr.named) (exit :: b.target?.toList) b := by
    refine ⟨hf, fun i hi r hr => List.mem_flatMap.2 ⟨i, hi, hr⟩, fun l hl => ?_⟩
    exact List.mem_cons_of_mem _ (Option.mem_toList.2 hl)
  exact (block_labelled hv hnames List.mem_cons_self h).valid

theorem blocks_effects (hv : a.Valid) (hf : ∀ b ∈ bs, Formed b.instrs b.ending)
    (h : Yields (blocks exit bs) a () a' τ) :
    ∃ υs, BlockEffects exit a.regs bs υs a'.regs ∧ Action.events τ = υs.flatten := by
  induction bs generalizing a τ with
  | nil =>
    obtain ⟨rfl, rfl⟩ := blocks_nil h
    exact ⟨[], .nil _, rfl⟩
  | cons b bs ih =>
    obtain ⟨a₁, τ₁, τ₂, h₁, h₂, rfl⟩ := blocks_cons h
    obtain ⟨τs, heff, hτ₁⟩ := block_effects hv (hf b List.mem_cons_self) h₁
    have hv₁ : a₁.Valid := block_valid hv (hf b List.mem_cons_self) h₁
    obtain ⟨υs, heffs, hτ₂⟩ := ih hv₁ (fun c hc => hf c (List.mem_cons_of_mem b hc)) h₂
    exact ⟨_ :: υs, .cons heff heffs, by rw [Action.events_append, hτ₁, hτ₂, List.flatten_cons]⟩

/-! ### Functions -/

theorem used_takeParams (g : FlowGraph) (params : List Temp) (a : Allocator) {r : Reg}
    (h : (run (takeParams g params) (a.reset (g.tempCount params))).state.regs.used r = true) : r ∈ Reg.params := by
  have key : ∀ (ps : List (Temp × Reg)) (a : Allocator),
      (run (ps.forM fun p => assign p.1 p.2) a).state.regs.used r = true →
        a.regs.used r = true ∨ r ∈ ps.map Prod.snd := by
    intro ps
    induction ps with
    | nil => exact fun _ h => .inl h
    | cons p ps ih =>
      intro a h
      rcases ih { a with regs := a.regs.bind p.1 p.2 } h with hu | hm
      · rw [RegisterFile.used_bind] at hu
        split at hu
        · rename_i e
          exact .inr (e ▸ List.mem_cons_self)
        · exact .inl hu
      · exact .inr (List.mem_cons_of_mem _ hm)
  have hstate : (run (takeParams g params) (a.reset (g.tempCount params))).state =
      (run ((params.zip Reg.params).forM fun p => assign p.1 p.2) (a.reset (g.tempCount params))).state :=
    state_writeBack _ _
  rw [hstate] at h
  rcases key _ _ h with hu | hm
  · simp [Allocator.reset] at hu
  · obtain ⟨p, hp, rfl⟩ := List.mem_map.1 hm
    exact (List.of_mem_zip hp).2

theorem yields_of_outcome {g : FlowGraph} {name : Label} {params : List Temp}
    (h : (a.accept g name params).outcome = .ok ()) :
    Yields (function g name params) a () (a.accept g name params).final (a.accept g name params).actions := by
  unfold Yields
  rw [← h]
  rfl

/-- **The events of a function** are stores of parameters and then the effects of the steps of its reachable blocks. -/
theorem function_effects {g : FlowGraph} {name : Label} {params : List Temp} (hv : (a.reset (g.tempCount params)).Valid)
    (hf : ∀ b ∈ g.reachableBlocks, Formed b.instrs b.ending) (h : Yields (function g name params) a () a' τ) :
    ∃ entry υs f₀, Action.events τ = entry ++ υs.flatten ∧
      (∀ α ∈ entry, ∃ t r, α = .store r t ∧ (t, r) ∈ params.zip Reg.params ∧ t ∈ entryLive g) ∧
      (∀ r, f₀.used r = true → r ∈ Reg.params) ∧ BlockEffects name.exit f₀ g.reachableBlocks υs a'.regs := by
  obtain ⟨a₁, τ₁, τ₂, h₁, h₂, rfl⟩ := function_parts h
  have hclean : Clean [] (a.reset (g.tempCount params)) a₁ τ₁ := (tidy_takeParams hv g params).clean h₁
  obtain ⟨υs, heffs, hτ₂⟩ := blocks_effects hclean.valid hf h₂
  refine ⟨Action.events τ₁, υs, a₁.regs, ?_, events_takeParams h₁, fun r hr => ?_, heffs⟩
  · rw [Action.events_note, Action.events_append, Action.events_append, hτ₂, Action.events_note, Action.events_nil,
      List.append_nil]
  · refine used_takeParams g params a ?_
    rw [h₁]
    exact hr

end Alloc

end ThreeAddress
