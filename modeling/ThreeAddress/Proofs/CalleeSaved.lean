import ThreeAddress.Proofs.Allocator.Effect
import ThreeAddress.Proofs.Lowering

/-!
Which callee-saved registers a function saves.  The allocator keeps a record of the registers that it has given to
temporaries, and what is on record is saved.  A register that an instruction names as its destination is written
without being put on record.

Main statement: the callee-saved registers that the body writes are those that are saved and those that reachable
instructions name, and the latter are saved only if they are on record too (`callee_saved_covered`).
-/

namespace ThreeAddress

/-! ### Registers on record -/

namespace Alloc

variable {exit : Label} {s : Step} {ss : List Step} {bs : List Block} {f f' : RegisterFile} {τ : List Action}
  {τs : List (List Action)} {r : Reg}

theorem Moves.used (h : Moves s f τ f') (hu : f'.used r = true) : f.used r = true ∨ ∃ α ∈ τ, α.dst? = some r := by
  induction h with
  | done => exact .inl hu
  | remark text _ ih => exact (ih hu).imp_right fun ⟨α, hα, hr⟩ => ⟨α, List.mem_cons_of_mem _ hα, hr⟩
  | save _ _ _ ih => exact (ih hu).imp_right fun ⟨α, hα, hr⟩ => ⟨α, List.mem_cons_of_mem _ hα, hr⟩
  | fetch _ _ ih =>
    rcases ih hu with h | ⟨α, hα, hr⟩
    · rw [RegisterFile.used_bind] at h
      split at h
      · rename_i e
        exact .inr ⟨_, List.mem_cons_self, congrArg some e.symm⟩
      · exact .inl h
    · exact .inr ⟨α, List.mem_cons_of_mem _ hα, hr⟩
  | free t _ ih =>
    rw [RegisterFile.used_without] at ih
    exact ih hu

theorem Effect.used (h : Effect exit s f τ f') (hr : r ∈ Reg.calleeSaved) (hu : f'.used r = true) :
    f.used r = true ∨ ∃ α ∈ τ, α.dst? = some r := by
  cases h with
  | @straight f₁ _ τ dsts srcs hc _ hm hsup hcl =>
    have hold : f₁.used r = true → f.used r = true ∨
        ∃ α ∈ τ ++ (s.instr.select dsts srcs exit).map .native ++ f'.stores s.liveOut, α.dst? = some r :=
      fun hu₁ => (hm.used hu₁).imp_right fun ⟨α, hα, hd⟩ =>
        ⟨α, List.mem_append_left _ (List.mem_append_left _ hα), hd⟩
    generalize hd : s.instr.dsts = ops at hcl
    cases hcl with
    | none | named | kept => exact hold hu
    | taken t q =>
      rw [RegisterFile.used_bind] at hu
      split at hu
      · rename_i e
        obtain ⟨x, hx, hxr⟩ := Instr.exists_mem_select hd hc hsup.length_eq.symm q exit
        exact .inr ⟨_, List.mem_append_left _ (List.mem_append_right _ (List.mem_map_of_mem hx)), e ▸ hxr⟩
      · exact hold hu
  | leaving _ hm =>
    exact (hm.used hu).imp_right fun ⟨α, hα, hd⟩ => ⟨α, List.mem_append_left _ (List.mem_append_left _ hα), hd⟩
  | @call f₁ f₂ f₃ τ dst l args _ _ hm₁ hm₂ hc₃ =>
    have hu₃ : f₃.used r = true := by
      cases dst with
      | none => exact hu
      | some t =>
        -- the result register is not callee-saved
        have hne : r ≠ .result := fun e => absurd hr (by rw [e]; decide)
        rw [received, RegisterFile.used_bind, if_neg hne] at hu
        exact hu
    rw [hc₃.used] at hu₃
    refine ((hm₁.trans hm₂).used hu₃).imp_right fun ⟨α, hα, hd⟩ => ⟨α, List.mem_append_left _ hα, hd⟩

/-- A register that a step names to be written is written by it. -/
theorem Effect.named (h : Effect exit s f τ f') (hr : r ∈ s.instr.named) : ∃ α ∈ τ, α.dst? = some r := by
  cases h with
  | straight hc _ _ hsup hcl =>
    unfold Instr.named at hr
    generalize hd : s.instr.dsts = ops at hcl hr
    cases hcl with
    | none | kept | taken => simp [Operand.reg?] at hr
    | named q =>
      obtain rfl : r = q := by simpa [Operand.reg?] using hr
      obtain ⟨x, hx, hxr⟩ := Instr.exists_mem_select hd hc hsup.length_eq.symm r exit
      exact ⟨_, List.mem_append_left _ (List.mem_append_right _ (List.mem_map_of_mem hx)), hxr⟩
  | leaving hl => simp [Instr.named, Instr.dsts_of_leaves hl] at hr
  | @call _ _ _ _ dst _ _ hi =>
    rw [Instr.named, hi] at hr
    cases dst <;> simp [Instr.dsts, Operand.reg?] at hr

theorem Effects.used (h : Effects exit f ss τs f') (hr : r ∈ Reg.calleeSaved) (hu : f'.used r = true) :
    f.used r = true ∨ ∃ α ∈ τs.flatten, α.dst? = some r := by
  induction h with
  | nil => exact .inl hu
  | cons he _ ih =>
    rw [List.flatten_cons]
    rcases ih hu with hu₁ | ⟨α, hα, hd⟩
    · exact (he.used hr hu₁).imp_right fun ⟨α, hα, hd⟩ => ⟨α, List.mem_append_left _ hα, hd⟩
    · exact .inr ⟨α, List.mem_append_right _ hα, hd⟩

/-- **A callee-saved register that comes on record is written**, if not by the first of the blocks then by a later one,
since a new block leaves the record as it is. -/
theorem BlockEffects.used (h : BlockEffects exit f bs τs f') (hr : r ∈ Reg.calleeSaved) (hu : f'.used r = true) :
    f.used r = true ∨ ∃ α ∈ τs.flatten, α.dst? = some r := by
  induction h with
  | nil => exact .inl hu
  | cons he _ ih =>
    rw [List.flatten_cons]
    rcases ih hu with hu₁ | ⟨α, hα, hd⟩
    · rcases he.used hr hu₁ with hu₀ | ⟨α, hα, hd⟩
      · exact .inl (RegisterFile.used_resetBlock _ r ▸ hu₀)
      · exact .inr ⟨α, List.mem_append_left _ (List.mem_append_right _ hα), hd⟩
    · exact .inr ⟨α, List.mem_append_right _ hα, hd⟩

theorem BlockEffects.named (h : BlockEffects exit f bs τs f') {b : Block} (hb : b ∈ bs) {i : Instr} (hi : i ∈ b.instrs)
    (hr : r ∈ i.named) : ∃ α ∈ τs.flatten, α.dst? = some r := by
  obtain ⟨s, hs, rfl⟩ := List.mem_map.1 hi
  obtain ⟨f₀, σs, f₁, heffs, hσs⟩ := h.exists_of_mem hb
  obtain ⟨f₂, τ, f₃, he, hτ⟩ := heffs.exists_of_mem hs
  obtain ⟨α, hα, hd⟩ := he.named hr
  exact ⟨α, hσs α (hτ α hα), hd⟩

end Alloc

/-! ### Saving and restoring -/

/-- The register is stored where the function is entered, and loaded from the same word where it is left. -/
def Frame.Keeps (f : Frame) (r : Reg) : Prop := ∃ o, .sw r o .frame ∈ f.opening ∧ .lw r o .frame ∈ f.closing

theorem Frame.keeps_iff {f : Frame} {r : Reg} (hr : r ∈ Reg.calleeSaved) : f.Keeps r ↔ r ∈ f.saved := by
  constructor
  · rintro ⟨o, ho, -⟩
    -- the lines before those that save registers are relative to the stack pointer
    have hsaves : .sw r o .frame ∈ saves f.saved := by
      unfold opening at ho
      rcases List.mem_append.1 ho with ho | ho
      · exfalso
        revert ho
        cases f.hasCalls <;> simp [Reg.stack, Reg.frame]
      · exact ho
    obtain ⟨q, hq, hqo⟩ := List.mem_filterMap.1 hsaves
    obtain ⟨o', -, he⟩ := Option.map_eq_some_iff.1 hqo
    cases he
    exact hq
  · intro hs
    obtain ⟨o, ho⟩ := exists_saveOffset? hr
    refine ⟨o, List.mem_append_right _ (List.mem_filterMap.2 ⟨r, hs, by rw [ho]; rfl⟩), ?_⟩
    refine List.mem_append_left _ (List.mem_append_left _ (List.mem_filterMap.2 ⟨r, ?_, by rw [ho]; rfl⟩))
    exact List.mem_reverse.2 hs

/-! ### The code of a function -/

/-- The registers that reachable instructions name to be written. -/
def FlowGraph.named (g : FlowGraph) : List Reg := g.reachableInstrs.flatMap Instr.named

theorem Allocator.Permits.mayWrite {named : List Reg} {a : Allocator} {α : Action} {r : Reg} (h : a.Permits named α)
    (hd : α.dst? = some r) : a.MayWrite named r := by
  cases α with
  | load =>
    cases Option.some.inj hd
    exact h
  | native x =>
    cases x with
    | alu | li | unary =>
      cases Option.some.inj hd
      exact h
    | addi | lw => exact absurd h id
    | sw | j | branch | call | ret | label | comment => simp [Action.dst?, Asm.dst?] at hd
  | store | label | comment | note => simp [Action.dst?] at hd

namespace Lowered

variable {f : Func} {o : Options} (p : Lowered f o) {r : Reg}

theorem named_withLiveness : p.graph.withLiveness.named = p.graph.named := by
  rw [FlowGraph.named, FlowGraph.reachableInstrs_withLiveness (FlowGraph.bare_of_ofFunc p.isGraph)]
  rfl

theorem exists_mem_body_iff : (∃ a ∈ p.body, a.dst? = some r) ↔ ∃ α ∈ p.actions, α.dst? = some r := by
  constructor
  · rintro ⟨a, ha, hd⟩
    obtain ⟨α, hα, ha⟩ := List.mem_flatMap.1 ha
    refine ⟨α, hα, ?_⟩
    cases α with
    | load =>
      obtain ⟨x, -, rfl⟩ := List.mem_map.1 ha
      exact hd
    | native =>
      cases List.mem_singleton.1 ha
      exact hd
    | store =>
      obtain ⟨x, -, rfl⟩ := List.mem_map.1 ha
      simp [Asm.dst?] at hd
    | label | comment =>
      cases List.mem_singleton.1 ha
      simp [Asm.dst?] at hd
    | note => simp [Action.code] at ha
  · rintro ⟨α, hα, hd⟩
    cases α with
    | load q t =>
      cases Option.some.inj hd
      obtain ⟨x, hx⟩ := (Subroutine.start f.name f.params).exists_home?_performAll hα rfl
      exact ⟨.lw r x .frame, List.mem_flatMap.2 ⟨_, hα, List.mem_map.2 ⟨x, Option.mem_toList.2 hx, rfl⟩⟩, rfl⟩
    | native a => exact ⟨a, List.mem_flatMap.2 ⟨_, hα, List.mem_cons_self⟩, hd⟩
    | store | label | comment | note => simp [Action.dst?] at hd

theorem saved_or_named {α : Action} (hα : α ∈ p.actions) (hd : α.dst? = some r) (hr : r ∈ Reg.calleeSaved) :
    r ∈ p.frame.saved ∨ r ∈ p.graph.named := by
  have hnames : ∀ b ∈ p.graph.withLiveness.reachableBlocks, Alloc.Names p.graph.withLiveness.named p.targets b := by
    intro b hb
    obtain ⟨hf, -, ht⟩ := p.names b hb
    refine ⟨hf, fun i hi q hq => ?_, ht⟩
    exact List.mem_flatMap.2 ⟨i, FlowGraph.mem_reachableInstrs.2 ⟨b, hb, hi⟩, hq⟩
  have hlab := Alloc.function_labelled (Alloc.valid_reset_ofOptions o _) hnames List.mem_cons_self p.yields
  rcases hlab.permits α hα with hp | ⟨l, -, hl⟩ | ⟨l, rfl⟩
  · rcases hp.mayWrite hd with hn | ⟨-, hu⟩
    · exact .inr (p.named_withLiveness ▸ hn)
    · exact .inl (p.mem_saved_frame.2 ⟨hr, hu hr⟩)
  · cases α with
    | native x => cases x <;> simp [Action.target?, Asm.target?, Action.dst?, Asm.dst?] at hl hd
    | _ => simp [Action.target?] at hl
  · simp [Action.dst?] at hd

/-- What is on record or named is written. -/
theorem exists_mem_actions (h : r ∈ p.frame.saved ∨ r ∈ p.graph.named) (hr : r ∈ Reg.calleeSaved) :
    ∃ α ∈ p.actions, α.dst? = some r := by
  obtain ⟨entry, υs, f₀, hevents, -, hused, heffs⟩ :=
    Alloc.function_effects (Alloc.valid_reset_ofOptions o _) p.formed p.yields
  have hmem : (∃ α ∈ υs.flatten, α.dst? = some r) → ∃ α ∈ p.actions, α.dst? = some r := fun ⟨α, hα, hd⟩ =>
    ⟨α, Action.mem_events (hevents ▸ List.mem_append_right _ hα), hd⟩
  rcases h with hs | hn
  · rcases heffs.used hr (p.mem_saved_frame.1 hs).2 with hu | hw
    · exact absurd (List.mem_append_right _ (hused r hu)) (Reg.notMem_callerSaved hr)
    · exact hmem hw
  · rw [← p.named_withLiveness] at hn
    obtain ⟨i, hi, hn⟩ := List.mem_flatMap.1 hn
    obtain ⟨b, hb, hi⟩ := FlowGraph.mem_reachableInstrs.1 hi
    exact hmem (heffs.named hb hi hn)

end Lowered

/-- **Callee-saved registers that the code writes are saved, unless instructions name them.**  In the code of a
function, take what stands between the lines that enter it and the exit label.  A callee-saved register is written there
if and only if it is saved on entry and restored at the end, or a reachable instruction names it as its destination.  So
where no reachable instruction names a callee-saved register, every one that is written is saved and restored. -/
theorem callee_saved_covered {f : Func} {o : Options} {asm : AsmFunc} (h : (f.lower o).result = .ok asm) :
    (f.instrs = [] ∧ asm.code = []) ∨ ∃ p : Lowered f o,
      asm.code = p.frame.opening ++ (p.body ++ .label f.name.exit :: (p.frame.closing ++ [.ret])) ∧
      ∀ r ∈ Reg.calleeSaved, (∃ a ∈ p.body, a.dst? = some r) ↔ p.frame.Keeps r ∨ r ∈ p.graph.named := by
  refine (f.exists_lowered h).imp_right fun ⟨p, hp⟩ => ⟨p, by rw [hp]; rfl, fun r hr => ?_⟩
  rw [p.exists_mem_body_iff, Frame.keeps_iff hr]
  exact ⟨fun ⟨α, hα, hd⟩ => p.saved_or_named hα hd hr, fun hs => p.exists_mem_actions hs hr⟩

/-- A function that writes a callee-saved register by name. -/
def Func.naming : Func := ⟨⟨"f"⟩, [], [.const (.reg .s1) 5, .ret none]⟩

def Func.namingCode : List Asm := [.addi .sp .sp (-64), .sw .s0 56 .sp, .addi .s0 .sp 64, .li .s1 5, .j ⟨"f_exit"⟩,
  .label ⟨"f_exit"⟩, .lw .s0 56 .sp, .addi .sp .sp 64, .ret]

/-- The register is written and not saved. -/
theorem callee_saved_covered_naming : (Func.naming.lower ⟨false, none⟩).result = .ok ⟨⟨"f"⟩, Func.namingCode⟩ ∧
    (∀ o, .sw .s1 o .frame ∉ Func.namingCode) ∧ ∃ p : Lowered Func.naming ⟨false, none⟩,
      Func.namingCode = p.frame.opening ++ (p.body ++ .label ⟨"f_exit"⟩ :: (p.frame.closing ++ [.ret])) ∧
      (∃ a ∈ p.body, a.dst? = some .s1) ∧ ¬ p.frame.Keeps .s1 ∧ .s1 ∈ p.graph.named := by
  have hlower : (Func.naming.lower ⟨false, none⟩).result = .ok ⟨⟨"f"⟩, Func.namingCode⟩ := by decide +kernel
  have hsave : ∀ o, .sw .s1 o .frame ∉ Func.namingCode := by simp [Func.namingCode]
  rcases callee_saved_covered hlower with ⟨hnil, -⟩ | ⟨p, hcode, hr⟩
  · exact absurd hnil (by decide)
  have hgraph : FlowGraph.ofFunc Func.naming = .ok ⟨[.ofInstrs 0 .returns none Func.naming.instrs], []⟩ := rfl
  have hnamed : .s1 ∈ p.graph.named := by
    rw [← Except.ok.inj (hgraph.symm.trans p.isGraph)]
    decide +kernel
  refine ⟨hlower, hsave, p, hcode, (hr .s1 (by decide)).2 (.inr hnamed), fun ⟨o, ho, _⟩ => hsave o ?_, hnamed⟩
  rw [show Func.namingCode = _ from hcode]
  exact List.mem_append_left _ ho

end ThreeAddress
