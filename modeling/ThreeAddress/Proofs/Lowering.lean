import ThreeAddress.Lowering
import ThreeAddress.Proofs.Allocator.Written
import ThreeAddress.Proofs.FlowGraph.Reach
import ThreeAddress.Proofs.Homes

/-!
The code of a function, taken apart.  `Lowered f o` is a successful allocation for `f`; its `code` enters the function,
runs the body that the actions of allocation make, and leaves the function from the exit label.  All code that
lowering gives is of this form (`Func.exists_lowered_within`).

Main statements: of functions that name no registers, every line of the body fits the frame (`Lowered.fits_body`); the
labels in the code of any function are those of its reachable blocks and the exit label
(`Lowered.filterMap_label?_code`).
-/

namespace ThreeAddress

/-- A successful allocation for the function `f`, and the frame of the function. -/
structure Lowered (f : Func) (o : Options) where
  graph : FlowGraph
  final : Allocator
  actions : List Action
  frame : Frame
  isGraph : FlowGraph.ofFunc f = .ok graph
  yields : Alloc.Yields (Alloc.function graph.withLiveness f.name f.params) (.ofOptions o) () final actions
  framed : ((Subroutine.start f.name f.params).performAll actions).frame? final.regs.usedCalleeSaved final.hasCalls =
    some frame

namespace Lowered

section

variable {f : Func} {o : Options} (p : Lowered f o)

def subroutine : Subroutine := (Subroutine.start f.name f.params).performAll p.actions

def body : List Asm := p.actions.flatMap (Action.code p.subroutine.home?)

def code : List Asm := p.frame.opening ++ (p.body ++ .label f.name.exit :: (p.frame.closing ++ [.ret]))

theorem code_eq : p.code = p.frame.opening ++
    (p.subroutine.body.toList ++ .label p.subroutine.name.exit :: (p.frame.closing ++ [.ret])) := by
  have hbody : p.subroutine.body.toList = p.body := Subroutine.body_performAll _ p.actions
  have hname : p.subroutine.name = f.name := Subroutine.name_performAll _ p.actions
  rw [hbody, hname]
  rfl

theorem finish_eq : p.subroutine.finish p.final.regs.usedCalleeSaved p.final.hasCalls =
    if Frame.maxSize < p.frame.size then .error (.frameTooLarge p.frame.size) else .ok p.code := by
  rw [code_eq]
  exact Subroutine.finish_eq p.framed

end

end Lowered

/-- **Code of a function comes from a successful allocation** whose frame is not too large, unless the function is
empty. -/
theorem Func.exists_lowered_within {f : Func} {o : Options} {asm : AsmFunc} (h : (f.lower o).result = .ok asm) :
    (f.instrs = [] ∧ asm.code = []) ∨
      ∃ p : Lowered f o, asm = ⟨f.name, p.code⟩ ∧ p.frame.size ≤ Frame.maxSize := by
  unfold Func.lower at h
  split at h
  · simp at h
  rename_i g hg
  split at h
  · rename_i hempty
    cases Except.ok.inj h
    have hsrc := (FlowGraph.describes_of_ofFunc hg).flatMap_source
    rw [FlowGraph.segments, List.isEmpty_iff.1 hempty] at hsrc
    exact .inl ⟨hsrc.symm, rfl⟩
  replace h : (g.lower f o).result = .ok asm := h
  unfold FlowGraph.lower at h
  dsimp only at h
  split at h
  · simp at h
  rename_i hok
  split at h
  · simp at h
  rename_i code hfin
  cases Except.ok.inj h
  let accepted := (Allocator.ofOptions o).accept g.withLiveness f.name f.params
  have hy : Alloc.Yields (Alloc.function g.withLiveness f.name f.params) (.ofOptions o) () accepted.final
      accepted.actions := by
    unfold Alloc.Yields
    rw [← hok]
    rfl
  obtain ⟨frame, hframed, hsize, rfl⟩ := Subroutine.exists_frame_of_finish hfin
  let p : Lowered f o := ⟨g, accepted.final, accepted.actions, frame, hg, hy, hframed⟩
  exact .inr ⟨p, by rw [p.code_eq]; rfl, hsize⟩

theorem Func.exists_lowered {f : Func} {o : Options} {asm : AsmFunc} (h : (f.lower o).result = .ok asm) :
    (f.instrs = [] ∧ asm.code = []) ∨ ∃ p : Lowered f o, asm = ⟨f.name, p.code⟩ :=
  (f.exists_lowered_within h).imp_right fun ⟨p, hp, _⟩ => ⟨p, hp⟩

/-- The registers that the instructions of a function name to be written. -/
def Func.named (f : Func) : List Reg := f.instrs.flatMap Instr.named

theorem Func.named_of_tempsOnly {f : Func} (ht : f.TempsOnly) : f.named = [] :=
  List.flatMap_eq_nil_iff.2 fun i hi => Instr.named_of_tempsOnly (ht i hi)

namespace Lowered

variable {f : Func} {o : Options} (p : Lowered f o)

/-! ### The graph -/

theorem describes : p.graph.withLiveness.Describes f := FlowGraph.describes_withLiveness p.isGraph

theorem settled : p.graph.withLiveness.Settled :=
  (FlowGraph.settled_withLiveness (FlowGraph.bare_of_ofFunc p.isGraph)).2.2

theorem formed : ∀ b ∈ p.graph.withLiveness.reachableBlocks, Formed b.instrs b.ending :=
  fun _ hb => (Alloc.instr_mem_of_reachable p.describes hb).1

/-- The labels that the code may jump to. -/
def targets : List Label := f.name.exit :: p.graph.withLiveness.reachableBlocks.filterMap Block.target?

theorem names : ∀ b ∈ p.graph.withLiveness.reachableBlocks, Alloc.Names f.named p.targets b := by
  intro b hb
  obtain ⟨hf, hi⟩ := Alloc.instr_mem_of_reachable p.describes hb
  refine ⟨hf, fun i hm r hr => List.mem_flatMap.2 ⟨i, hi i hm, hr⟩, fun l hl => ?_⟩
  exact List.mem_cons_of_mem _ (List.mem_filterMap.2 ⟨b, hb, hl⟩)

theorem labelled : Labelled f.named p.targets
    ((Allocator.ofOptions o).reset (p.graph.withLiveness.tempCount f.params)) p.final p.actions
    (p.graph.withLiveness.reachableBlocks.filterMap Block.label) :=
  Alloc.function_labelled (Alloc.valid_reset_ofOptions o _) p.names List.mem_cons_self p.yields

/-! ### The frame -/

theorem mem_saved_frame {r : Reg} : r ∈ p.frame.saved ↔ r ∈ Reg.calleeSaved ∧ p.final.regs.used r = true := by
  obtain ⟨-, -, -, hsaved⟩ := Subroutine.of_frame? p.framed
  rw [hsaved, RegisterFile.usedCalleeSaved, List.mem_filter]
  unfold RegisterFile.used
  tauto

theorem hasCalls_frame : p.frame.hasCalls = p.final.hasCalls := (Subroutine.of_frame? p.framed).2.2.1

theorem slots_frame : p.frame.slots = p.subroutine.slots := (Subroutine.of_frame? p.framed).1

theorem slots_le : p.frame.slots ≤ Frame.slotLimit := (Subroutine.of_frame? p.framed).2.1

theorem housed : p.subroutine.Housed f.params.length := (Subroutine.housed_start f.name f.params).performAll p.actions

theorem isHome {t : Temp} {o' : Int} (h : p.subroutine.home? t = some o') : p.frame.IsHome f.params.length o' := by
  unfold Frame.IsHome
  rw [p.slots_frame]
  exact p.housed.place h

theorem mayWrite {r : Reg} (h : p.final.MayWrite [] r) : p.frame.MayWrite r := by
  obtain ⟨ha, hu⟩ := h.resolve_left List.not_mem_nil
  exact ⟨ha, fun hc => p.mem_saved_frame.2 ⟨hc, hu hc⟩⟩

theorem fits_code {α : Action}
    (h : p.final.Permits [] α ∨ (∃ l ∈ p.targets, α.target? = some l) ∨ ∃ l, α = .label l) :
    ∀ a ∈ α.code p.subroutine.home?, p.frame.Fits f.params.length a := by
  intro a ha
  rcases h with h | ⟨l, -, h⟩ | ⟨l, rfl⟩
  · cases α with
    | store r t =>
      obtain ⟨o', ho, rfl⟩ := List.mem_map.1 ha
      exact ⟨rfl, p.isHome (Option.mem_toList.1 ho)⟩
    | load r t =>
      obtain ⟨o', -, rfl⟩ := List.mem_map.1 ha
      exact p.mayWrite h
    | native x =>
      cases List.mem_singleton.1 ha
      cases a with
      | alu | li | unary => exact p.mayWrite h
      | call => exact p.hasCalls_frame.trans h
      | comment => trivial
      | addi | lw | sw | j | branch | ret | label => exact absurd h id
    | label => exact absurd h id
    | comment =>
      cases List.mem_singleton.1 ha
      trivial
    | note => simp [Action.code] at ha
  · cases α with
    | native x =>
      cases List.mem_singleton.1 ha
      cases a <;> trivial
    | _ => simp [Action.target?] at h
  · cases List.mem_singleton.1 ha
    trivial

/-- **Every line of the body fits the frame.** -/
theorem fits_body (ht : f.TempsOnly) : ∀ a ∈ p.body, p.frame.Fits f.params.length a := by
  intro a ha
  obtain ⟨α, hα, ha⟩ := List.mem_flatMap.1 ha
  have hp := p.labelled.permits α hα
  rw [Func.named_of_tempsOnly ht] at hp
  exact p.fits_code hp a ha

end Lowered

/-! ### Labels -/

def Asm.label? : Asm → Option Label
  | .label l => some l
  | _ => none

theorem Action.label?_code (home : Temp → Option Int) (α : Action) :
    (α.code home).filterMap Asm.label? = α.label?.toList := by
  cases α with
  | store r t => cases h : home t <;> simp [Action.code, Asm.label?, Action.label?, h]
  | load r t => cases h : home t <;> simp [Action.code, Asm.label?, Action.label?, h]
  | native a => cases a <;> rfl
  | label | comment | note => rfl

theorem label?_of_isStraight {l : List Asm} (h : ∀ a ∈ l, a.isStraight = true) : l.filterMap Asm.label? = [] := by
  refine List.filterMap_eq_nil_iff.2 fun a ha => ?_
  have := h a ha
  cases a <;> first | rfl | simp [Asm.isStraight] at this

namespace Lowered

variable {f : Func} {o : Options} (p : Lowered f o)

/-- The labels in the code are those of the reachable blocks, in order, and the exit label. -/
theorem filterMap_label?_code : p.code.filterMap Asm.label? =
    p.graph.withLiveness.reachableBlocks.filterMap Block.label ++ [f.name.exit] := by
  have hbody : p.body.filterMap Asm.label? = p.actions.filterMap Action.label? := by
    unfold body
    generalize p.actions = τ
    induction τ with
    | nil => rfl
    | cons α τ ih =>
      rw [List.flatMap_cons, List.filterMap_append, ih, Action.label?_code, List.filterMap_cons]
      cases α.label? <;> rfl
  have hret : [Asm.ret].filterMap Asm.label? = [] := rfl
  have hexit : (Asm.label f.name.exit).label? = some f.name.exit := rfl
  rw [code, List.filterMap_append, List.filterMap_append, label?_of_isStraight p.frame.isStraight_opening, hbody,
    p.labelled.labels, List.filterMap_cons, hexit, List.filterMap_append,
    label?_of_isStraight p.frame.isStraight_closing, hret]
  rfl

theorem labels_sublist : (p.graph.withLiveness.reachableBlocks.filterMap Block.label).Sublist f.marks := by
  rw [← p.describes.labels]
  exact p.graph.withLiveness.reachableBlocks_sublist.filterMap _

/-- Every label is set once, if no mark is the exit label. -/
theorem nodup_labels (hm : f.name.exit ∉ f.marks) : (p.code.filterMap Asm.label?).Nodup := by
  rw [p.filterMap_label?_code, List.nodup_append]
  refine ⟨p.labels_sublist.nodup p.describes.distinct, by simp, fun l hl m hme => ?_⟩
  rw [List.mem_singleton.1 hme]
  rintro rfl
  exact hm (p.labels_sublist.subset hl)

end Lowered

end ThreeAddress
