import Mathlib.Data.List.Nodup
import ThreeAddress.Proofs.Allocator.Emission
import ThreeAddress.Proofs.FlowGraph.Prune
import ThreeAddress.Proofs.Labels

/-!
Control stays within the code of a function.  The reachable blocks are emitted one after the other, and the exit label
comes after the last.  Where control runs off the end of a block, what comes next in the code is therefore a reachable
block or the exit label; and since the block after it in the function can be reached from it, that block is the one.

Main statement: jumps go to labels that are set once, and control that passes on from a block goes to the block after it
in the function, or to the exit label if there is none (`code_closed`).
-/

namespace ThreeAddress

/-! ### Labels set once -/

theorem Asm.count_label (code : List Asm) (l : Label) : code.count (.label l) = (code.filterMap Asm.label?).count l := by
  induction code with
  | nil => rfl
  | cons a code ih =>
    cases a with
    | label m =>
      rw [List.filterMap_cons_some (show (Asm.label m).label? = some m from rfl), List.count_cons, List.count_cons, ih]
      simp
    | _ =>
      rw [List.filterMap_cons_none rfl, List.count_cons_of_ne (by simp)]
      exact ih

theorem Lowered.count_label {f : Func} {o : Options} (p : Lowered f o) (hm : f.name.exit ∉ f.marks) {l : Label}
    (h : .label l ∈ p.code) : p.code.count (.label l) = 1 := by
  rw [Asm.count_label]
  exact List.count_eq_one_of_mem (p.nodup_labels hm) (Asm.label_mem_iff.1 h)

/-! ### The next block -/

namespace FlowGraph

variable {g : FlowGraph} {f : Func} {b : Block} {before after : List Block}

/-- Of the reachable blocks, the one after a block from which control passes on is the next of all blocks. -/
theorem head?_of_reachableBlocks (hd : g.Describes f)
    (hid : ∀ (u : Nat) (b : Block), g.blocks[u]? = some b → b.id = u) (hb : g.reachableBlocks = before ++ b :: after)
    (hend : b.ending = .fallsThrough ∨ b.ending = .branches) : after.head? = g.blocks[b.id + 1]? := by
  have hget : ∀ k, (before ++ b :: after)[k]? = g.reachable[k]?.bind fun u => g.blocks[u]? :=
    hb ▸ getElem?_reachableBlocks g
  have hk := hget before.length
  have hnext := hget (before.length + 1)
  rw [List.getElem?_append_right (Nat.le_refl _), Nat.sub_self, List.getElem?_cons_zero] at hk
  rw [List.getElem?_append_right (Nat.le_add_right _ 1), Nat.add_sub_cancel_left, List.getElem?_cons_succ,
    ← List.head?_eq_getElem?] at hnext
  obtain ⟨u, hu, hbu⟩ := Option.bind_eq_some_iff.1 hk.symm
  replace hu : g.Keeps before.length u := hu
  rw [hid u b hbu, hnext]
  by_cases hlt : u + 1 < g.blocks.length
  · rw [hu.next (reachable_closed hu.mem (hd.next hbu hend hlt) hlt)]
    rfl
  · -- no block has a higher number
    have hnone : g.reachable[before.length + 1]? = none := by
      cases hv : g.reachable[before.length + 1]? with
      | none => rfl
      | some v =>
        have huv : u < v := hu.lt hv (Nat.lt_succ_self _)
        have hvl := (mem_reachable.1 (List.mem_of_getElem? hv)).1
        omega
    rw [hnone, List.getElem?_eq_none (by omega)]
    rfl

end FlowGraph

/-! ### The parts of the body -/

/-- The code of a block: that of its events, the temporaries having some homes. -/
def Block.Gives (exit : Label) (b : Block) (part : List Asm) : Prop :=
  ∃ τ home, Alloc.Laid exit b τ ∧ part = τ.flatMap (Action.code home)

theorem Action.flatMap_code_events (home : Temp → Option Int) (τ : List Action) :
    (events τ).flatMap (code home) = τ.flatMap (code home) := by
  induction τ with
  | nil => rfl
  | cons α τ ih =>
    cases α with
    | note => exact ih
    | store | load | native | label | comment => exact congrArg (_ ++ ·) ih

namespace Lowered

variable {f : Func} {o : Options} (p : Lowered f o)

/-- The body: stores of parameters, then the code of the reachable blocks, in order. -/
theorem exists_parts : ∃ entry parts, p.body = entry ++ parts.flatten ∧ (∀ a ∈ entry, ∃ r x, a = .sw r x .frame) ∧
    List.Forall₂ (Block.Gives f.name.exit) p.graph.withLiveness.reachableBlocks parts := by
  obtain ⟨a₁, τ₁, τ₂, h₁, h₂, hτ⟩ := Alloc.function_parts p.yields
  obtain ⟨τs, hlaid, hτ₂⟩ := Alloc.blocks_laid p.formed h₂
  let lines := Action.code p.subroutine.home?
  refine ⟨(Action.events τ₁).flatMap lines, τs.map (·.flatMap lines), ?_, fun a ha => ?_, ?_⟩
  · rw [body, ← Action.flatMap_code_events, hτ, Action.events_note, Action.events_append, Action.events_append, hτ₂,
      Action.events_note, Action.events_nil, List.append_nil, List.flatMap_append, List.flatten_eq_flatMap,
      List.flatMap_assoc]
    rfl
  · obtain ⟨α, hα, ha⟩ := List.mem_flatMap.1 ha
    obtain ⟨t, r, rfl, -⟩ := Alloc.events_takeParams h₁ α hα
    obtain ⟨x, -, rfl⟩ := List.mem_map.1 ha
    exact ⟨r, x, rfl⟩
  · exact List.forall₂_map_right_iff.2 (hlaid.imp fun b τ hb => ⟨τ, _, hb, rfl⟩)

end Lowered

/-- **Control stays within the code of a function.**  Take a function whose marks are not its exit label, and code of it
that is not empty.

* The target of a jump or a branch is set exactly once, and so is the exit label.
* After the lines that enter the function, the code is that of the reachable blocks, in order, and then the exit label.
* Where control passes on from a block, by falling through or by a branch that is not taken, the block that is next in
  the code is the next of all blocks, which one after the other are the function; and if there is none, the exit label
  is next. -/
theorem code_closed {f : Func} {o : Options} {asm : AsmFunc} (hm : f.name.exit ∉ f.marks)
    (h : (f.lower o).result = .ok asm) (hne : asm.code ≠ []) :
    (∀ a ∈ asm.code, ∀ l, a.target? = some l → asm.code.count (.label l) = 1) ∧
    asm.code.count (.label f.name.exit) = 1 ∧
    ∃ (g : FlowGraph) (opening closing : List Asm) (parts : List (List Asm)), FlowGraph.ofFunc f = .ok g ∧
      asm.code = opening ++ parts.flatten ++ .label f.name.exit :: closing ∧
      (∀ a ∈ opening ++ closing, a.target? = none ∧ a.label? = none) ∧
      List.Forall₂ (Block.Gives f.name.exit) g.withLiveness.reachableBlocks parts ∧
      g.withLiveness.blocks.flatMap Block.source = f.instrs ∧
      (∀ (u : Nat) (b : Block), g.withLiveness.blocks[u]? = some b → b.id = u) ∧
      ∀ before b after, g.withLiveness.reachableBlocks = before ++ b :: after →
        b.ending = .fallsThrough ∨ b.ending = .branches → after.head? = g.withLiveness.blocks[b.id + 1]? := by
  obtain ⟨-, hnil⟩ | ⟨p, rfl⟩ := f.exists_lowered h
  · exact absurd hnil hne
  have hexit : .label f.name.exit ∈ p.code :=
    List.mem_append_right _ (List.mem_append_right _ List.mem_cons_self)
  refine ⟨fun a ha l hl => p.count_label hm (p.label_mem_of_target? ha hl), p.count_label hm hexit, ?_⟩
  obtain ⟨entry, parts, hbody, hentry, hparts⟩ := p.exists_parts
  have hid := FlowGraph.id_withLiveness p.isGraph
  refine ⟨p.graph, p.frame.opening ++ entry, p.frame.closing ++ [.ret], parts, p.isGraph, ?_, fun a ha => ?_, hparts,
    p.describes.flatMap_source_blocks, hid, fun before b after hb hend => ?_⟩
  · show p.code = _
    rw [Lowered.code, hbody]
    simp only [List.append_assoc]
  · have hstraight : ∀ {c : Asm}, c.isStraight = true → c.target? = none ∧ c.label? = none := by
      intro c hc
      cases c with
      | alu | addi | li | unary | lw | sw | comment => exact ⟨rfl, rfl⟩
      | j | branch | call | ret | label => simp [Asm.isStraight] at hc
    rcases List.mem_append.1 ha with ha | ha
    · rcases List.mem_append.1 ha with ha | ha
      · exact hstraight (p.frame.isStraight_opening a ha)
      · obtain ⟨r, x, rfl⟩ := hentry a ha
        exact ⟨rfl, rfl⟩
    · rcases List.mem_append.1 ha with ha | ha
      · exact hstraight (p.frame.isStraight_closing a ha)
      · rw [List.mem_singleton.1 ha]
        exact ⟨rfl, rfl⟩
  · exact FlowGraph.head?_of_reachableBlocks p.describes hid hb hend

/-- The code of a function that jumps over two blocks. -/
def FlowGraph.skippingCode : List Asm := [.addi .sp .sp (-64), .sw .s0 56 .sp, .addi .s0 .sp 64, .sw .a0 (-56) .s0,
  .li .t0 1, .sw .t0 (-60) .s0, .sw .t0 (-60) .s0, .j ⟨"E"⟩, .label ⟨"E"⟩, .lw .t0 (-56) .s0, .sw .t0 (-56) .s0,
  .branch .isNonzero .t0 ⟨"E"⟩, .lw .t0 (-60) .s0, .unary .mv .a0 .t0, .j ⟨"f_exit"⟩, .label ⟨"f_exit"⟩,
  .lw .s0 56 .sp, .addi .sp .sp 64, .ret]

open FlowGraph in
/-- Control passes from the branch to the block after it. -/
theorem code_closed_skipping : skipping.name.exit ∉ skipping.marks ∧
    (skipping.lower ⟨false, none⟩).result = .ok ⟨⟨"f"⟩, skippingCode⟩ ∧ skippingCode.count (.label ⟨"E"⟩) = 1 ∧
    skippingCode.count (.label ⟨"f_exit"⟩) = 1 ∧ ∃ b c d, skippingGraph.withLiveness.reachableBlocks = [b, c, d] ∧
      c.id = 3 ∧ c.ending = .branches ∧ skippingGraph.withLiveness.blocks[4]? = some d := by
  have hm : skipping.name.exit ∉ skipping.marks := by decide
  have hlower : (skipping.lower ⟨false, none⟩).result = .ok ⟨⟨"f"⟩, skippingCode⟩ := by decide +kernel
  obtain ⟨htargets, hexit, g, -, -, -, hg, -, -, -, -, -, hnext⟩ := code_closed hm hlower (by decide)
  have hok : ofFunc skipping = .ok skippingGraph := rfl
  cases Except.ok.inj (hok.symm.trans hg)
  have hblocks : skippingGraph.withLiveness.reachableBlocks.map (fun b => (b.id, b.ending)) =
      [(0, .jumps), (3, .branches), (4, .returns)] := by decide +kernel
  obtain ⟨b, bs, hbs, -, hblocks⟩ := List.map_eq_cons_iff.1 hblocks
  obtain ⟨c, bs', rfl, hc, hblocks⟩ := List.map_eq_cons_iff.1 hblocks
  obtain ⟨d, bs'', rfl, -, hblocks⟩ := List.map_eq_cons_iff.1 hblocks
  cases List.map_eq_nil_iff.1 hblocks
  obtain ⟨hid, hend⟩ := Prod.mk.inj hc
  have hhead := hnext [b] c [d] hbs (.inr hend)
  rw [hid] at hhead
  exact ⟨hm, hlower, htargets (.j ⟨"E"⟩) (by decide) _ rfl, hexit, b, c, d, hbs, hid, hend, hhead.symm⟩

end ThreeAddress
