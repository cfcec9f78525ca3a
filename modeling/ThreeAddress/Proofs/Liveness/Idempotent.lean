import Mathlib.Logic.Function.Iterate
import ThreeAddress.Proofs.Liveness.Exact

/-!
A second analysis changes nothing.  The first ends with live sets that recomputing leaves as they are, in any block
(`Stable`), and then sets those around the steps.  These play no part in recomputing, which reads the instructions of a
block and the sets at its ends (`Stable.annotateAll`); and they depend on no earlier ones, so setting them again gives
the same (`annotateAll_annotateAll`).

Main statement: `FlowGraph.analysis_idempotent`.
-/

namespace ThreeAddress

/-! ### Blocks -/

theorem Step.annotate_congr {after : TempSet} {ss ts : List Step} (h : ss.map Step.instr = ts.map Step.instr) :
    annotate after ss = annotate after ts := by
  induction ss generalizing ts with
  | nil => rw [List.map_eq_nil_iff.1 h.symm]
  | cons s ss ih =>
    obtain ⟨t, ts, rfl, hinstr, hmap⟩ := List.map_eq_cons_iff.1 h.symm
    rw [annotate, annotate, ih hmap.symm, hinstr]

namespace Block

variable {b : Block} {after : TempSet}

theorem annotate_annotate (b : Block) : b.annotate.annotate = b.annotate := by
  have hsteps : Step.annotate b.liveOut b.annotate.steps = Step.annotate b.liveOut b.steps :=
    Step.annotate_congr b.instrs_annotate
  unfold annotate at hsteps ⊢
  rw [hsteps]

/-- What is set around the steps plays no part in recomputing the sets at the ends. -/
theorem relaxed_annotate (h : b.relaxed after = b) : b.annotate.relaxed after = b.annotate := by
  have hsummary : b.annotate.summary = b.summary := by rw [summary, summary, instrs_annotate]
  have hin : b.summary.before after = b.liveIn := congrArg Block.liveIn h
  have hout : after = b.liveOut := congrArg Block.liveOut h
  rw [relaxed, hsummary, hin, hout]
  rfl

end Block

namespace FlowGraph

variable {g : FlowGraph} {ids : List Nat}

/-! ### Stable graphs -/

theorem joinAfter_annotateAll (hn : ids.Nodup) (g : FlowGraph) (u : Nat) :
    (annotateAll ids g).joinAfter u = g.joinAfter u := by
  rw [OrdSet.ext_iff_mem]
  intro t
  rw [mem_joinAfter, mem_joinAfter]
  refine exists_congr fun v => and_congr ?_ ?_
  · rw [mem_succ, mem_succ, edges_annotateAll]
  · rw [getElem?_annotateAll hn]
    split
    · cases g.blocks[v]? with
      | none => simp
      | some b => simp [Block.annotate]
    · rfl

/-- **Live sets that are stable stay so when those around the steps are set.** -/
theorem Stable.annotateAll (hs : Stable ids g) (hn : ids.Nodup) : Stable ids (annotateAll ids g) := by
  intro u hu
  refine eq_of_getElem? (fun v => ?_) (edges_relax _ u)
  rw [getElem?_relax, joinAfter_annotateAll hn]
  split
  · rename_i huv
    subst huv
    rw [getElem?_annotateAll hn, if_pos hu]
    cases hb : g.blocks[u]? with
    | none => rfl
    | some b => exact congrArg some (Block.relaxed_annotate (hs.relaxed_eq hu hb))
  · rfl

theorem annotateAll_annotateAll (hn : ids.Nodup) (g : FlowGraph) :
    annotateAll ids (annotateAll ids g) = annotateAll ids g := by
  refine eq_of_getElem? (fun v => ?_) (edges_annotateAll ids _)
  rw [getElem?_annotateAll hn, getElem?_annotateAll hn]
  split
  · cases g.blocks[v]? with
    | none => rfl
    | some b => exact congrArg some b.annotate_annotate
  · rfl

/-! ### The next round -/

theorem Stable.sweep_eq (hs : Stable ids g) : g.sweep ids = g := by
  induction ids with
  | nil => rfl
  | cons u ids ih =>
    rw [sweep_cons, ih fun v hv => hs v (List.mem_cons_of_mem u hv)]
    exact hs u List.mem_cons_self

theorem Stable.rounds (hs : Stable ids g) : Rounds ids g 1 g := by
  have hlast : Rounds ids g 1 (g.sweep ids) := .last (by rw [hs.sweep_eq])
  rwa [hs.sweep_eq] at hlast

/-- The analysis finds nothing to change in a stable graph whose steps are annotated. -/
theorem Stable.analyze_eq (hs : Stable g.reachable g) (ha : FlowGraph.annotateAll g.reachable g = g) :
    g.analyze = ⟨g, 1⟩ := by
  have hbound : 1 ≤ g.roundBound := Nat.succ_pos _
  rw [hs.rounds.analyze_eq hbound, ha]

/-- What the analysis leaves behind is stable, and its steps are annotated. -/
theorem stable_withLiveness (hb : g.bare = g) : Stable g.withLiveness.reachable g.withLiveness ∧
    annotateAll g.withLiveness.reachable g.withLiveness = g.withLiveness := by
  have hn := nodup_reachable g
  have hstable := (rounds_analyze hb).stable hn
  obtain ⟨hsegs, hedges, -⟩ := settled_withLiveness hb
  rw [reachable_congr hsegs hedges, withLiveness_eq]
  exact ⟨hstable.annotateAll hn, annotateAll_annotateAll hn _⟩

/-- **The analysis is idempotent.**  On blocks with empty live sets and any edges between them, a second analysis ends
after one round and changes nothing: no block, no live set, no step.  So one analysis or more give the same. -/
theorem analysis_idempotent {blocks : List Block} {edges : List (Nat × Nat)}
    (hempty : ∀ b ∈ blocks, b.liveIn = ∅ ∧ b.liveOut = ∅) (hok : ofBlocks blocks edges = .ok g) :
    Rounds g.withLiveness.reachable g.withLiveness 1 g.withLiveness ∧
    g.withLiveness.analyze = ⟨g.withLiveness, 1⟩ ∧
    ∀ n, withLiveness^[n + 1] g = g.withLiveness := by
  obtain ⟨rfl, -⟩ := ofBlocks_eq_ok hok
  obtain ⟨hs, ha⟩ := stable_withLiveness (bare_of_empty (g := ⟨blocks, edges⟩) hempty)
  have hagain := hs.analyze_eq ha
  refine ⟨hs.rounds, hagain, fun n => ?_⟩
  rw [Function.iterate_succ_apply]
  exact Function.iterate_fixed (congrArg Analysis.graph hagain) n

/-- The first analysis of a loop takes three rounds and changes blocks; two more change nothing. -/
theorem analysis_idempotent_loop : (∀ b ∈ loopBlocks, b.liveIn = ∅ ∧ b.liveOut = ∅) ∧
    ofBlocks loopBlocks loopEdges = .ok ⟨loopBlocks, loopEdges⟩ ∧
    (FlowGraph.mk loopBlocks loopEdges).analyze.rounds = 3 ∧
    (FlowGraph.mk loopBlocks loopEdges).withLiveness ≠ ⟨loopBlocks, loopEdges⟩ ∧
    withLiveness^[3] ⟨loopBlocks, loopEdges⟩ = withLiveness ⟨loopBlocks, loopEdges⟩ := by
  have hempty : ∀ b ∈ loopBlocks, b.liveIn = ∅ ∧ b.liveOut = ∅ := by decide
  have hok : ofBlocks loopBlocks loopEdges = .ok ⟨loopBlocks, loopEdges⟩ := rfl
  refine ⟨hempty, hok, ?_, ?_, (analysis_idempotent hempty hok).2.2 2⟩
  · decide +kernel
  · decide +kernel

end FlowGraph

end ThreeAddress
