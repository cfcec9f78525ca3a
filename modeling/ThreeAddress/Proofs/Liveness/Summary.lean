import ThreeAddress.Proofs.Liveness.Exact

/-!
The summary of a block agrees with its steps.  The summary is made from the first instruction to the last, the sets
around the steps from the last to the first; both take what is live at the end of the block to the same set at its start
(`Block.before_summary`).  So where the rounds end, with the sets at the ends of the blocks following from their
summaries, the sets around the steps begin and end with those of the block (`Block.Coherent`).

Main statement: `FlowGraph.summaries_match_steps`.
-/

namespace ThreeAddress

namespace Block

variable {b : Block}

theorem annotate_snd_eq (b : Block) (after : TempSet) : (Step.annotate after b.steps).2 = b.summary.before after := by
  obtain ⟨-, -, -, hfold⟩ := Step.annotate_eq after b.steps
  exact hfold.trans (b.before_summary after).symm

/-- The sets at the ends of a block and those around its steps agree.  The set at the start follows from the one at the
end by the summary, and step by step as well; the first step starts with what is live at the start of the block, and the
last one ends with what is live at the end. -/
structure Coherent (b : Block) : Prop where
  across : b.liveIn = (b.liveOut \ b.summary.defs) ∪ b.summary.uses
  chained : Step.Chained b.liveOut b.steps
  first : ∀ s, b.steps.head? = some s → b.liveIn = s.liveIn
  last : ∀ s, b.steps.getLast? = some s → b.liveOut = s.liveOut

/-- A block is coherent if the sets around its steps lead from the set at its end to the one at its start. -/
theorem coherent_of_chained (hch : Step.Chained b.liveOut b.steps) (hin : Step.before b.liveOut b.steps = b.liveIn) :
    b.Coherent where
  across := by
    rw [← hin, hch.before_eq]
    exact (b.before_summary b.liveOut).symm
  chained := hch
  first := by
    intro s hs
    obtain ⟨rest, hsteps⟩ := List.head?_eq_some_iff.1 hs
    rw [← hin, hsteps]
    rfl
  last := by
    intro s hs
    have hall : Step.Chained b.liveOut (b.steps ++ []) := by rwa [List.append_nil]
    exact (hall.liveOut_eq hs).symm

end Block

namespace FlowGraph

variable {g g' : FlowGraph} {u : Nat} {b : Block}

/-- **Rounds that end leave every reachable block coherent**, whatever the live sets were before. -/
theorem Rounds.coherent {n : Nat} (hr : Rounds g.reachable g n g')
    (hpath : Relation.ReflTransGen (fun v w => (v, w) ∈ g.edges) 0 u) (hb : g.blocks[u]? = some b) :
    ∃ c, (annotateAll g.reachable g').blocks[u]? = some c ∧ c.instrs = b.instrs ∧ c.Coherent := by
  obtain ⟨hsegs, hedges, hset⟩ := hr.settled
  have hseg : (annotateAll g.reachable g').segments[u]? = some b.segment := by
    rw [hsegs]
    exact getElem?_segments_eq_some.2 ⟨b, hb, rfl⟩
  obtain ⟨c, hc, hcb⟩ := getElem?_segments_eq_some.1 hseg
  have hu : u ∈ g.reachable := mem_reachable_iff.2 ⟨(List.getElem?_eq_some_iff.1 hb).1, hpath⟩
  rw [← reachable_congr hsegs hedges] at hu
  exact ⟨c, hc, congrArg Segment.instrs hcb, Block.coherent_of_chained (hset.chained hu hc) (hset.before hu hc)⟩

/-- **The summaries of blocks agree with their steps.**  For every block and every set, removing what the block writes
and then adding what it reads first gives what going back over its steps gives, at each removing what it writes and then
adding what it reads.  So, on any graph on which the rounds of the analysis end, every reachable block ends up coherent:
it starts and ends with the live sets of its first and its last step.  From empty live sets the rounds do end. -/
theorem summaries_match_steps :
    (∀ (b : Block) (after : TempSet),
      (after \ b.summary.defs) ∪ b.summary.uses = (Step.annotate after b.steps).2 ∧
      (after \ b.summary.defs) ∪ b.summary.uses =
        b.instrs.foldr (fun i live => (live \ .ofList i.defs) ∪ .ofList i.uses) after) ∧
    (∀ {g g' : FlowGraph} {n : Nat}, Rounds g.reachable g n g' →
      (n ≤ g.roundBound → g.analyze = ⟨annotateAll g.reachable g', n⟩) ∧
      ∀ {u b}, Relation.ReflTransGen (fun v w => (v, w) ∈ g.edges) 0 u → g.blocks[u]? = some b →
        ∃ c, (annotateAll g.reachable g').blocks[u]? = some c ∧ c.instrs = b.instrs ∧ c.Coherent) ∧
    ∀ {blocks : List Block} {edges : List (Nat × Nat)} {g : FlowGraph},
      (∀ b ∈ blocks, b.liveIn = ∅ ∧ b.liveOut = ∅) → ofBlocks blocks edges = .ok g →
      (∃ g', Rounds g.reachable g g.analyze.rounds g' ∧ g.withLiveness = annotateAll g.reachable g') ∧
      ∀ {u b}, Relation.ReflTransGen (fun v w => (v, w) ∈ edges) 0 u → blocks[u]? = some b →
        ∃ c, g.withLiveness.blocks[u]? = some c ∧ c.instrs = b.instrs ∧ c.Coherent := by
  refine ⟨fun b after => ⟨(b.annotate_snd_eq after).symm, b.before_summary after⟩,
    fun hr => ⟨hr.analyze_eq, hr.coherent⟩, fun {blocks edges g} hempty hok => ?_⟩
  obtain ⟨rfl, -⟩ := ofBlocks_eq_ok hok
  have hrounds := rounds_analyze (bare_of_empty (g := ⟨blocks, edges⟩) hempty)
  exact ⟨⟨_, hrounds, withLiveness_eq _⟩, hrounds.coherent⟩

/-- Block 0 reads and writes a sum in one instruction, writes it again, and goes round.  The live sets at its ends are
left over from other code. -/
def staleGraph : FlowGraph :=
  ⟨[{ Block.ofInstrs 0 .jumps (some ⟨"L"⟩)
      [.binary .add (.temp ⟨1⟩) (.temp ⟨1⟩) (.temp ⟨0⟩), .const (.temp ⟨0⟩) 7, .move (.temp ⟨1⟩) (.temp ⟨0⟩),
        .jump ⟨"L"⟩] with
      liveIn := .ofList [⟨5⟩], liveOut := .ofList [⟨6⟩] }], [(0, 0)]⟩

/-- On the loop with left-over sets three rounds lead to sets that fit the code, if not to the least ones: its first step
starts with the set of the block.  In the loop that starts with empty sets, the last step of block 1 ends with its set. -/
theorem summaries_match_steps_loops :
    (∃ g', Rounds staleGraph.reachable staleGraph 3 g' ∧ 3 ≤ staleGraph.roundBound ∧
      staleGraph.analyze = ⟨annotateAll staleGraph.reachable g', 3⟩) ∧
    (∃ c s, staleGraph.withLiveness.blocks[0]? = some c ∧ c.steps.head? = some s ∧ c.liveIn = s.liveIn ∧
      c.liveIn = .ofList [⟨0⟩, ⟨1⟩, ⟨5⟩]) ∧
    (∀ b ∈ loopBlocks, b.liveIn = ∅ ∧ b.liveOut = ∅) ∧
    ofBlocks loopBlocks loopEdges = .ok ⟨loopBlocks, loopEdges⟩ ∧
    ∃ c s, (FlowGraph.mk loopBlocks loopEdges).withLiveness.blocks[1]? = some c ∧ c.steps.getLast? = some s ∧
      c.liveOut = s.liveOut ∧ c.liveOut = .ofList [⟨0⟩, ⟨1⟩] := by
  have hrounds : Rounds staleGraph.reachable staleGraph 3 _ :=
    .more (by decide +kernel) (.more (by decide +kernel) (.last (by decide +kernel)))
  have hbound : 3 ≤ staleGraph.roundBound := by decide
  have hempty : ∀ b ∈ loopBlocks, b.liveIn = ∅ ∧ b.liveOut = ∅ := by decide
  have hok : ofBlocks loopBlocks loopEdges = .ok ⟨loopBlocks, loopEdges⟩ := rfl
  obtain ⟨hanalyze, hstale⟩ := summaries_match_steps.2.1 hrounds
  obtain ⟨-, hloop⟩ := summaries_match_steps.2.2 hempty hok
  refine ⟨⟨_, hrounds, hbound, hanalyze hbound⟩, ?_, hempty, hok, ?_⟩
  · obtain ⟨c, hc, hinstrs, hcoh⟩ := hstale .refl (show staleGraph.blocks[0]? = some _ from rfl)
    have hgraph : staleGraph.withLiveness = annotateAll staleGraph.reachable _ :=
      congrArg Analysis.graph (hanalyze hbound)
    rw [← hgraph] at hc
    have hin : staleGraph.withLiveness.blocks[0]?.map Block.liveIn = some (.ofList [⟨0⟩, ⟨1⟩, ⟨5⟩]) := by decide +kernel
    rw [hc] at hin
    obtain ⟨s, rest, hsteps, -⟩ := List.map_eq_cons_iff.1 hinstrs
    have hs : c.steps.head? = some s := by rw [hsteps, List.head?_cons]
    exact ⟨c, s, hc, hs, hcoh.first s hs, Option.some.inj hin⟩
  · have hreach : Relation.ReflTransGen (fun v w => (v, w) ∈ loopEdges) 0 1 := .single (by decide)
    obtain ⟨c, hc, hinstrs, hcoh⟩ := hloop hreach (show loopBlocks[1]? = some _ from rfl)
    have hout : (FlowGraph.mk loopBlocks loopEdges).withLiveness.blocks[1]?.map Block.liveOut =
        some (.ofList [⟨0⟩, ⟨1⟩]) := by decide +kernel
    rw [hc] at hout
    obtain ⟨s, rest, hsteps, -⟩ := List.map_eq_cons_iff.1 hinstrs
    have hne : c.steps ≠ [] := hsteps ▸ List.cons_ne_nil s rest
    have hlast := List.getLast?_eq_some_getLast hne
    exact ⟨c, _, hc, hlast, hcoh.last _ hlast, Option.some.inj hout⟩

end FlowGraph

end ThreeAddress
