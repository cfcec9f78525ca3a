import ThreeAddress.Proofs.WholeProgram

/-!
Labels of an emitted program.  A jump stays within its function: it goes to the label of a block that can be reached, or
to the exit label, and both are set in the function's code (`Lowered.label_mem_of_target?`).  A call goes to the name of
a function, which is set if the function is listed; functions without code are not.  Nothing relates the labels of one
function to those of another.

Main statement: `labels_resolve`.
-/

namespace ThreeAddress

theorem Asm.target?_of_isStraight {a : Asm} (h : a.isStraight = true) : a.target? = none := by
  cases a <;> first | rfl | simp [Asm.isStraight] at h

theorem Asm.label_mem_iff {code : List Asm} {l : Label} : .label l ∈ code ↔ l ∈ code.filterMap Asm.label? := by
  refine ⟨fun h => List.mem_filterMap.2 ⟨_, h, rfl⟩, fun h => ?_⟩
  obtain ⟨a, ha, hl⟩ := List.mem_filterMap.1 h
  cases a <;> simp [Asm.label?] at hl
  exact hl ▸ ha

theorem Action.target?_of_mem_code {home : Temp → Option Int} {α : Action} {a : Asm} (ha : a ∈ α.code home) {l : Label}
    (h : a.target? = some l) : α.target? = some l := by
  cases α with
  | native =>
    cases List.mem_singleton.1 ha
    exact h
  | store | load =>
    obtain ⟨o, -, rfl⟩ := List.mem_map.1 ha
    simp [Asm.target?] at h
  | label | comment =>
    cases List.mem_singleton.1 ha
    simp [Asm.target?] at h
  | note => simp [Action.code] at ha

namespace Lowered

variable {f : Func} {o : Options} (p : Lowered f o)

/-- A block that a reachable block jumps to can be reached. -/
theorem mem_labels_of_mem_targets {l : Label} (h : l ∈ p.targets) : l ∈ p.code.filterMap Asm.label? := by
  rw [p.filterMap_label?_code]
  rcases List.mem_cons.1 h with rfl | h
  · exact List.mem_append_right _ List.mem_cons_self
  obtain ⟨b, hb, hl⟩ := List.mem_filterMap.1 h
  obtain ⟨u, hu, hbu⟩ := List.mem_filterMap.1 hb
  obtain ⟨s, hs, hsl⟩ := Option.bind_eq_some_iff.1 hl
  have hlast : b.instrs.getLast? = some s.instr := by
    rw [Block.instrs, List.getLast?_map, Alloc.getLast?_of_last? hs]
    rfl
  obtain ⟨v, c, hc, hcl, he⟩ := p.describes.target hbu hlast hsl
  have hv := FlowGraph.reachable_closed hu he (List.getElem?_eq_some_iff.1 hc).1
  exact List.mem_append_left _ (List.mem_filterMap.2 ⟨c, List.mem_filterMap.2 ⟨v, hv, hc⟩, hcl⟩)

theorem target_mem_body {a : Asm} (ha : a ∈ p.body) {l : Label} (hl : a.target? = some l) : l ∈ p.targets := by
  obtain ⟨α, hα, ha⟩ := List.mem_flatMap.1 ha
  have hαl := Action.target?_of_mem_code ha hl
  rcases p.labelled.permits α hα with hp | ⟨m, hm, hαm⟩ | ⟨m, rfl⟩
  · cases α with
    | native x =>
      cases x <;> first | exact absurd hp id | simp [Action.target?, Asm.target?] at hαl
    | _ => simp [Action.target?] at hαl
  · cases Option.some.inj (hαm.symm.trans hαl)
    exact hm
  · simp [Action.target?] at hαl

/-- **Jumps stay within the function.** -/
theorem label_mem_of_target? {a : Asm} (ha : a ∈ p.code) {l : Label} (hl : a.target? = some l) : .label l ∈ p.code := by
  rw [Asm.label_mem_iff]
  refine p.mem_labels_of_mem_targets ?_
  have hstraight : ∀ {code : List Asm}, (∀ x ∈ code, x.isStraight = true) → a ∉ code := fun h hm => by
    simp [Asm.target?_of_isStraight (h a hm)] at hl
  rcases List.mem_append.1 ha with ha | ha
  · exact absurd ha (hstraight p.frame.isStraight_opening)
  rcases List.mem_append.1 ha with ha | ha
  · exact p.target_mem_body ha hl
  rcases List.mem_cons.1 ha with rfl | ha
  · simp [Asm.target?] at hl
  rcases List.mem_append.1 ha with ha | ha
  · exact absurd ha (hstraight p.frame.isStraight_closing)
  · rw [List.mem_singleton.1 ha] at hl
    simp [Asm.target?] at hl

end Lowered

/-! ### The functions of a program -/

/-- The functions that the text of a program lists. -/
def AsmFunc.emitted (fs : List AsmFunc) : List AsmFunc := fs.filter fun f => !f.code.isEmpty

/-- The functions of a program that have instructions. -/
def Program.defined (p : Program) : List Func := p.funcs.filter fun f => !f.instrs.isEmpty

theorem Func.lower_nil (name : Label) (params : List Temp) (o : Options) :
    (Func.lower ⟨name, params, []⟩ o).result = .ok ⟨name, []⟩ := rfl

/-- A function has code if it has instructions, and not otherwise. -/
theorem Func.emitted_or_empty {f : Func} {o : Options} {asm : AsmFunc} (h : (f.lower o).result = .ok asm) :
    (f.instrs = [] ∧ asm.code = []) ∨
      f.instrs ≠ [] ∧ asm.code ≠ [] ∧ ∃ c : Lowered f o, asm = ⟨f.name, c.code⟩ := by
  refine (f.exists_lowered h).imp_right fun ⟨c, hc⟩ => ?_
  have hcode : asm.code ≠ [] := by
    rw [hc]
    exact List.append_ne_nil_of_right_ne_nil _ (List.append_ne_nil_of_right_ne_nil _ (List.cons_ne_nil _ _))
  refine ⟨fun hnil => hcode ?_, hcode, c, hc⟩
  obtain ⟨name, params, instrs⟩ := f
  cases hnil
  rw [← Except.ok.inj ((Func.lower_nil name params o).symm.trans h)]

namespace Program

variable {p : Program} {o : Options} {fs : List Func} {asms : List AsmFunc}

theorem forall₂_emitted (h : List.Forall₂ (fun f asm => (f.lower o).result = .ok asm) fs asms) :
    List.Forall₂ (fun f asm => ∃ c : Lowered f o, asm = ⟨f.name, c.code⟩) (fs.filter fun f => !f.instrs.isEmpty)
      (AsmFunc.emitted asms) := by
  induction h with
  | nil => exact .nil
  | @cons f asm fs asms hf _ ih =>
    unfold AsmFunc.emitted at ih ⊢
    rcases f.emitted_or_empty hf with ⟨hinstrs, hcode⟩ | ⟨hinstrs, hcode, hc⟩
    · rw [List.filter_cons_of_neg (by simp [hinstrs]), List.filter_cons_of_neg (by simp [hcode])]
      exact ih
    · rw [List.filter_cons_of_pos (by simp [hinstrs]), List.filter_cons_of_pos (by simp [hcode])]
      exact .cons hc ih

/-- What is listed is the code of a function. -/
theorem exists_lowered_of_mem_emitted (h : (lowerAll o fs).result = .ok asms) {asm : AsmFunc}
    (hm : asm ∈ AsmFunc.emitted asms) : ∃ (f : Func) (c : Lowered f o), asm = ⟨f.name, c.code⟩ := by
  have hem := (forall₂_emitted (forall₂_of_lowerAll h)).flip
  have hboth := hem.imp fun asm f hf =>
    And.intro (show ∃ (f : Func) (c : Lowered f o), asm = ⟨f.name, c.code⟩ from ⟨f, hf⟩) hf
  exact ((List.forall₂_and_left _ _).1 hboth).1 asm hm

theorem compile_eq_ok {text : String} (h : p.compile o = .ok text) :
    ∃ asms, (p.lower o).result = .ok asms ∧ text = AsmFunc.program asms := by
  unfold compile at h
  cases hl : (p.lower o).result with
  | error e =>
    rw [hl] at h
    cases h
  | ok asms =>
    rw [hl] at h
    exact ⟨asms, rfl, (Except.ok.inj h).symm⟩

end Program

/-- **Labels resolve.**  Take a program for which compilation succeeds.  A jump or branch goes to a label of the same
function.  The name of every function that has instructions is set, so calls of these functions have a target.  The
labels of a function, its exit label apart, are distinct; and if no two of the names, marks and exit labels of the
functions that have instructions are the same, then no label of the program is set twice. -/
theorem labels_resolve {p : Program} {o : Options} {text : String} (h : p.compile o = .ok text) :
    ∃ asms, (p.lower o).result = .ok asms ∧ text = AsmFunc.program asms ∧
      (∀ asm ∈ AsmFunc.emitted asms, ∀ a ∈ asm.code, ∀ l, a.target? = some l → .label l ∈ asm.code) ∧
      (∀ f ∈ p.funcs, f.instrs ≠ [] → .label f.name ∈ AsmFunc.image (AsmFunc.emitted asms)) ∧
      (∀ asm ∈ AsmFunc.emitted asms, ∃ ls, asm.code.filterMap Asm.label? = ls ++ [asm.name.exit] ∧ ls.Nodup) ∧
      ((p.defined.flatMap Func.labels).Nodup →
        ((AsmFunc.image (AsmFunc.emitted asms)).filterMap Asm.label?).Nodup) := by
  obtain ⟨asms, hlower, rfl⟩ := Program.compile_eq_ok h
  have hem := Program.forall₂_emitted (Program.forall₂_of_lowerAll hlower)
  refine ⟨asms, hlower, rfl, fun asm hm a ha l hl => ?_, fun f hf hne => ?_, fun asm hm => ?_, fun hd => ?_⟩
  · obtain ⟨f, c, rfl⟩ := Program.exists_lowered_of_mem_emitted hlower hm
    exact c.label_mem_of_target? ha hl
  · have hdef : f ∈ p.defined := List.mem_filter.2 ⟨hf, by simpa using hne⟩
    obtain ⟨c, q, hat⟩ := Program.at_image hem hdef
    exact List.mem_of_getElem? hat.cons.1
  · obtain ⟨f, c, rfl⟩ := Program.exists_lowered_of_mem_emitted hlower hm
    exact ⟨_, c.filterMap_label?_code, c.labels_sublist.nodup c.describes.distinct⟩
  · exact (Program.labels_image hem).nodup hd

/-- The code of a function that calls `g` behind a mark and then jumps. -/
def AsmFunc.caller (target : Label) : AsmFunc := ⟨⟨"f"⟩, [.addi .sp .sp (-64), .sw .ra 60 .sp, .sw .s0 56 .sp,
  .addi .s0 .sp 64, .label ⟨"_L1"⟩, .call ⟨"g"⟩, .j target, .label ⟨"f_exit"⟩, .lw .ra 60 .sp, .lw .s0 56 .sp,
  .addi .sp .sp 64, .ret]⟩

def AsmFunc.leaf (name : Label) (marks : List Label) : AsmFunc := ⟨name, [.addi .sp .sp (-64), .sw .s0 56 .sp,
  .addi .s0 .sp 64] ++ marks.map .label ++ [.j name.exit, .label name.exit, .lw .s0 56 .sp, .addi .sp .sp 64, .ret]⟩

/-- A function calls another for ever, and a third has no instructions. -/
def Program.spinning : Program := ⟨[⟨⟨"f"⟩, [], [.mark ⟨"_L1"⟩, .call none ⟨"g"⟩ [], .jump ⟨"_L1"⟩]⟩,
  ⟨⟨"g"⟩, [], [.ret none]⟩, ⟨⟨"h"⟩, [], []⟩]⟩

theorem labels_resolve_spinning :
    (Program.spinning.lower ⟨false, none⟩).result = .ok [.caller ⟨"_L1"⟩, .leaf ⟨"g"⟩ [], ⟨⟨"h"⟩, []⟩] ∧
      .label ⟨"_L1"⟩ ∈ (AsmFunc.caller ⟨"_L1"⟩).code ∧
      .label ⟨"g"⟩ ∈ AsmFunc.image [.caller ⟨"_L1"⟩, .leaf ⟨"g"⟩ []] ∧
      ((AsmFunc.image [.caller ⟨"_L1"⟩, .leaf ⟨"g"⟩ []]).filterMap Asm.label?).Nodup := by
  have hlower : (Program.spinning.lower ⟨false, none⟩).result =
      .ok [.caller ⟨"_L1"⟩, .leaf ⟨"g"⟩ [], ⟨⟨"h"⟩, []⟩] := by decide +kernel
  have hcompile : Program.spinning.compile ⟨false, none⟩ =
      .ok (AsmFunc.program [.caller ⟨"_L1"⟩, .leaf ⟨"g"⟩ [], ⟨⟨"h"⟩, []⟩]) := by
    rw [Program.compile, hlower]
    rfl
  obtain ⟨asms, hasms, -, hjumps, hnames, -, hdistinct⟩ := labels_resolve hcompile
  cases Except.ok.inj (hlower.symm.trans hasms)
  refine ⟨hlower, ?_, hnames ⟨⟨"g"⟩, [], [.ret none]⟩ ?_ ?_, hdistinct ?_⟩
  · exact hjumps (.caller ⟨"_L1"⟩) List.mem_cons_self (.j ⟨"_L1"⟩) (by decide) _ rfl
  · exact List.mem_cons_of_mem _ List.mem_cons_self
  · exact List.cons_ne_nil _ _
  · decide

/-- A function calls one without instructions, and a third has a mark of the first. -/
def Program.clashing : Program := ⟨[⟨⟨"f"⟩, [], [.mark ⟨"_L1"⟩, .call none ⟨"g"⟩ [], .ret none]⟩, ⟨⟨"g"⟩, [], []⟩,
  ⟨⟨"h"⟩, [], [.mark ⟨"_L1"⟩, .ret none]⟩]⟩

/-- The label of the function without instructions is called and not set, and the mark is set twice. -/
theorem clashing_unresolved :
    (Program.clashing.lower ⟨false, none⟩).result = .ok [.caller ⟨"f_exit"⟩, ⟨⟨"g"⟩, []⟩, .leaf ⟨"h"⟩ [⟨"_L1"⟩]] ∧
      AsmFunc.emitted [.caller ⟨"f_exit"⟩, ⟨⟨"g"⟩, []⟩, .leaf ⟨"h"⟩ [⟨"_L1"⟩]] =
        [.caller ⟨"f_exit"⟩, .leaf ⟨"h"⟩ [⟨"_L1"⟩]] ∧
      .call ⟨"g"⟩ ∈ AsmFunc.image [.caller ⟨"f_exit"⟩, .leaf ⟨"h"⟩ [⟨"_L1"⟩]] ∧
      .label ⟨"g"⟩ ∉ AsmFunc.image [.caller ⟨"f_exit"⟩, .leaf ⟨"h"⟩ [⟨"_L1"⟩]] ∧
      (AsmFunc.image [.caller ⟨"f_exit"⟩, .leaf ⟨"h"⟩ [⟨"_L1"⟩]]).count (.label ⟨"_L1"⟩) = 2 := by
  refine ⟨?_, rfl, ?_, ?_, ?_⟩ <;> decide +kernel

end ThreeAddress
