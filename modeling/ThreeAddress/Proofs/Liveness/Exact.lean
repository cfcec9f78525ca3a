import ThreeAddress.Proofs.FlowGraph.Reach

/-!
The live sets are exact.  A temporary is live at a point of a graph if some path from there comes to an instruction that
reads it, with no instruction on the way that writes it (`FlowGraph.Live`).

Nothing live is missing from sets that fit the code, by induction on the path (`Settled.mem_before`).  Nothing else is
in them: the sets start empty, and a round puts into a set only what is live (`Truthful.relax`).

Main statement: what the analysis finds around the steps of the reachable blocks is what is live there
(`FlowGraph.live_sets_exact`).
-/

namespace ThreeAddress

namespace Step.Chained

variable {after : TempSet} {done todo : List Step}

theorem of_append (h : Chained after (done ++ todo)) : Chained after todo := by
  induction done with
  | nil => exact h
  | cons s done ih => exact ih h.2.2

theorem before_eq (h : Chained after todo) :
    before after todo = (todo.map Step.instr).foldr Instr.liveBefore after := by
  induction todo with
  | nil => rfl
  | cons s todo ih =>
    obtain ⟨hin, hout, hch⟩ := h
    rw [List.map_cons, List.foldr_cons, ← ih hch, ← hout]
    exact hin

end Step.Chained

namespace FlowGraph

/-! ### Paths -/

/-- From the point of block `u` where the instructions `is` are left of it, control may run through the instructions
`js` to the point of block `v` where `ks` are left. -/
inductive Path (g : FlowGraph) : Nat → List Instr → List Instr → Nat → List Instr → Prop
  | refl {u : Nat} {is : List Instr} : Path g u is [] u is
  | step {u v : Nat} {i : Instr} {is js ks : List Instr} : Path g u is js v ks → Path g u (i :: is) (i :: js) v ks
  | edge {u v w : Nat} {b : Block} {js ks : List Instr} : (u, w) ∈ g.edges → g.blocks[w]? = some b →
      Path g w b.instrs js v ks → Path g u [] js v ks

/-- Where the instructions `is` are left of block `u`, the value of `t` may be read: a path comes to an instruction that
reads it, and no instruction on the path writes it. -/
def Live (g : FlowGraph) (u : Nat) (is : List Instr) (t : Temp) : Prop :=
  ∃ js v i ks, g.Path u is js v (i :: ks) ∧ t ∈ i.uses ∧ ∀ j ∈ js, t ∉ j.defs

variable {g g' h : FlowGraph} {u v : Nat} {b c : Block} {t : Temp} {i : Instr} {is js ks : List Instr}

theorem live_cons : g.Live u (i :: is) t ↔ t ∈ i.uses ∨ (t ∉ i.defs ∧ g.Live u is t) := by
  constructor
  · rintro ⟨js, v, j, ks, hpath, huse, hdefs⟩
    cases hpath with
    | refl => exact .inl huse
    | step hpath =>
      rw [List.forall_mem_cons] at hdefs
      exact .inr ⟨hdefs.1, _, v, j, ks, hpath, huse, hdefs.2⟩
  · rintro (huse | ⟨hdef, js, v, j, ks, hpath, huse, hdefs⟩)
    · exact ⟨[], u, i, is, .refl, huse, by simp⟩
    · exact ⟨i :: js, v, j, ks, hpath.step, huse, List.forall_mem_cons.2 ⟨hdef, hdefs⟩⟩

theorem live_nil : g.Live u [] t ↔ ∃ v b, (u, v) ∈ g.edges ∧ g.blocks[v]? = some b ∧ g.Live v b.instrs t := by
  constructor
  · rintro ⟨js, v, j, ks, hpath, huse, hdefs⟩
    cases hpath with
    | edge he hb hpath => exact ⟨_, _, he, hb, js, v, j, ks, hpath, huse, hdefs⟩
  · rintro ⟨w, b, he, hb, js, v, j, ks, hpath, huse, hdefs⟩
    exact ⟨js, v, j, ks, hpath.edge he hb, huse, hdefs⟩

theorem Path.congr (hs : h.segments = g.segments) (he : h.edges = g.edges) (hp : g.Path u is js v ks) :
    h.Path u is js v ks := by
  induction hp with
  | refl => exact .refl
  | step _ ih => exact .step ih
  | @edge u v w b js ks hmem hb _ ih =>
    have hseg : (h.segments)[w]? = (g.segments)[w]? := by rw [hs]
    rw [segments, segments, List.getElem?_map, List.getElem?_map, hb] at hseg
    obtain ⟨c, hc, hcb⟩ := Option.map_eq_some_iff.1 hseg
    have hinstrs : c.instrs = b.instrs := congrArg Segment.instrs hcb
    rw [← hinstrs] at ih
    exact .edge (he ▸ hmem) hc ih

theorem Live.congr (hs : h.segments = g.segments) (he : h.edges = g.edges) (hl : g.Live u is t) : h.Live u is t := by
  obtain ⟨js, v, i, ks, hpath, hread⟩ := hl
  exact ⟨js, v, i, ks, hpath.congr hs he, hread⟩

/-! ### Nothing live is missing -/

/-- **What is live is in sets that fit the code.** -/
theorem Settled.mem_before (hs : g.Settled) (hrange : ∀ e ∈ g.edges, e.2 < g.blocks.length)
    (hp : g.Path u is js v (i :: ks)) (huse : t ∈ i.uses) (hdefs : ∀ j ∈ js, t ∉ j.defs) (hu : u ∈ g.reachable)
    (hb : g.blocks[u]? = some b) {todo : List Step} (hch : Step.Chained b.liveOut todo)
    (his : todo.map Step.instr = is) : t ∈ Step.before b.liveOut todo := by
  generalize hks : i :: ks = rest at hp
  induction hp generalizing b todo with
  | refl =>
    obtain ⟨s, todo, rfl, rfl, -⟩ := List.map_eq_cons_iff.1 (his.trans hks.symm)
    show t ∈ s.liveIn
    rw [hch.1]
    exact Instr.mem_liveBefore.2 (.inr huse)
  | step _ ih =>
    obtain ⟨s, todo, rfl, rfl, htodo⟩ := List.map_eq_cons_iff.1 his
    rw [List.forall_mem_cons] at hdefs
    obtain ⟨hin, hout, hch⟩ := hch
    have hlater := ih hdefs.2 hu hb hch htodo hks
    show t ∈ s.liveIn
    rw [hin, hout]
    exact Instr.mem_liveBefore.2 (.inl ⟨hlater, hdefs.1⟩)
  | @edge u v w c js ks he hc _ ih =>
    rw [List.map_eq_nil_iff.1 his]
    -- the path goes on in a block that is reachable too
    have hw := reachable_closed hu he (hrange _ he)
    have hstart := ih hdefs hw hc (hs.chained hw hc) rfl hks
    rw [hs.before hw hc] at hstart
    exact hs.flows hu hb he hc t hstart

/-! ### Nothing else is in the sets -/

/-- The live sets of blocks hold only what is live. -/
def Truthful (g : FlowGraph) : Prop :=
  ∀ ⦃u : Nat⦄ ⦃b : Block⦄, g.blocks[u]? = some b →
    (∀ t ∈ b.liveIn, g.Live u b.instrs t) ∧ ∀ t ∈ b.liveOut, g.Live u [] t

/-- If only live temporaries are said to be live after instructions, then so before them. -/
theorem live_of_mem_foldr {after : TempSet} (hafter : ∀ t ∈ after, g.Live u [] t)
    (ht : t ∈ is.foldr Instr.liveBefore after) : g.Live u is t := by
  induction is with
  | nil => exact hafter t ht
  | cons i is ih =>
    rw [List.foldr_cons, Instr.mem_liveBefore] at ht
    refine live_cons.2 ?_
    rcases ht with ⟨ht, hdef⟩ | huse
    · exact .inr ⟨hdef, ih ht⟩
    · exact .inl huse

theorem Truthful.live_of_mem_joinAfter (hg : g.Truthful) (ht : t ∈ g.joinAfter u) : g.Live u [] t := by
  obtain ⟨v, hv, b, hb, hbt⟩ := mem_joinAfter.1 ht
  exact live_nil.2 ⟨v, b, mem_succ.1 hv, hb, (hg hb).1 t hbt⟩

theorem Truthful.relax (hg : g.Truthful) (u : Nat) : (g.relax u).Truthful := by
  intro v c hc
  have hlive : ∀ {is t}, g.Live v is t → (g.relax u).Live v is t :=
    Live.congr (segments_of_bare (bare_relax g u)) (edges_relax g u)
  rw [getElem?_relax] at hc
  split at hc
  · rename_i huv
    obtain ⟨b, -, rfl⟩ := Option.map_eq_some_iff.1 hc
    subst huv
    have hafter : ∀ t ∈ g.joinAfter u, g.Live u [] t := fun t ht => hg.live_of_mem_joinAfter ht
    refine ⟨fun t ht => hlive ?_, fun t ht => hlive (hafter t ht)⟩
    exact live_of_mem_foldr hafter (b.before_summary _ ▸ ht)
  · obtain ⟨hin, hout⟩ := hg hc
    exact ⟨fun t ht => hlive (hin t ht), fun t ht => hlive (hout t ht)⟩

theorem Truthful.sweep (hg : g.Truthful) (ids : List Nat) : (g.sweep ids).Truthful := by
  induction ids with
  | nil => exact hg
  | cons u ids ih => exact Truthful.relax ih u

theorem Rounds.truthful {ids : List Nat} {n : Nat} (hr : Rounds ids g n g') (hg : g.Truthful) : g'.Truthful := by
  induction hr with
  | last => exact hg.sweep ids
  | more _ _ ih => exact ih (hg.sweep ids)

theorem Rounds.getElem?_of_notMem {ids : List Nat} {n : Nat} (hr : Rounds ids g n g') (hu : u ∉ ids) :
    g'.blocks[u]? = g.blocks[u]? := by
  induction hr with
  | last => exact getElem?_sweep_of_notMem hu
  | more _ _ ih => exact ih.trans (getElem?_sweep_of_notMem hu)

theorem truthful_of_bare (hb : g.bare = g) : g.Truthful := by
  intro u b hbu
  obtain ⟨hin, hout⟩ := empty_of_bare hb hbu
  rw [hin, hout]
  exact ⟨fun t ht => absurd ht (OrdSet.not_mem_empty t), fun t ht => absurd ht (OrdSet.not_mem_empty t)⟩

theorem Truthful.annotateAll (hg : g.Truthful) {ids : List Nat} (hn : ids.Nodup) : (annotateAll ids g).Truthful := by
  intro u b hbu
  have hlive : ∀ {is t}, g.Live u is t → (FlowGraph.annotateAll ids g).Live u is t :=
    Live.congr (segments_annotateAll hn g) (edges_annotateAll ids g)
  obtain ⟨c, hc, hin, hout, hinstrs⟩ : ∃ c, g.blocks[u]? = some c ∧ b.liveIn = c.liveIn ∧ b.liveOut = c.liveOut ∧
      b.instrs = c.instrs := by
    rw [getElem?_annotateAll hn] at hbu
    split at hbu
    · obtain ⟨c, hc, rfl⟩ := Option.map_eq_some_iff.1 hbu
      exact ⟨c, hc, rfl, rfl, c.instrs_annotate⟩
    · exact ⟨b, hbu, rfl, rfl, rfl⟩
  rw [hin, hout, hinstrs]
  exact ⟨fun t ht => hlive ((hg hc).1 t ht), fun t ht => hlive ((hg hc).2 t ht)⟩

/-! ### The analysis -/

/-- **Truthful sets that fit the code are exact**, at every point of a reachable block. -/
theorem Settled.mem_before_iff (hs : g.Settled) (hg : g.Truthful) (hrange : ∀ e ∈ g.edges, e.2 < g.blocks.length)
    (hu : u ∈ g.reachable) (hb : g.blocks[u]? = some b) {done todo : List Step} (hsteps : b.steps = done ++ todo) :
    t ∈ Step.before b.liveOut todo ↔ g.Live u (todo.map Step.instr) t := by
  have hch : Step.Chained b.liveOut todo := (hsteps ▸ hs.chained hu hb).of_append
  constructor
  · intro ht
    rw [hch.before_eq] at ht
    exact live_of_mem_foldr (hg hb).2 ht
  · rintro ⟨js, v, i, ks, hpath, huse, hdefs⟩
    exact hs.mem_before hrange hpath huse hdefs hu hb hch rfl

theorem ofBlocks_eq_ok {blocks : List Block} {edges : List (Nat × Nat)} (h : ofBlocks blocks edges = .ok g) :
    g = ⟨blocks, edges⟩ ∧ ∀ e ∈ edges, e.1 < blocks.length ∧ e.2 < blocks.length := by
  unfold ofBlocks at h
  split at h
  · simp at h
  · rename_i hfind
    refine ⟨(Except.ok.inj h).symm, fun e he => ?_⟩
    simpa using List.find?_eq_none.1 hfind e he

/-- The analysis only sets live sets, and leaves blocks that are not reachable as they are. -/
theorem exists_getElem?_withLiveness (hb : g.bare = g) (hbu : g.blocks[u]? = some b) :
    ∃ c, g.withLiveness.blocks[u]? = some c ∧ c.id = b.id ∧ c.ending = b.ending ∧ c.label = b.label ∧
      c.instrs = b.instrs ∧ (u ∉ g.reachable → c = b) := by
  have hrounds := rounds_analyze hb
  have hbare : (settle g.reachable g.roundBound g).1.bare.blocks[u]? = g.bare.blocks[u]? := by rw [hrounds.bare_eq]
  rw [bare, bare, List.getElem?_map, List.getElem?_map, hbu] at hbare
  obtain ⟨c, hc, hcb⟩ := Option.map_eq_some_iff.1 hbare
  obtain ⟨hid, hending, hlabel, hsteps, -⟩ := Block.mk.inj hcb
  have hget := getElem?_annotateAll (nodup_reachable g) (settle g.reachable g.roundBound g).1 u
  rw [← withLiveness_eq, hc] at hget
  by_cases hu : u ∈ g.reachable
  · rw [if_pos hu] at hget
    refine ⟨c.annotate, hget, hid, hending, hlabel, ?_, absurd hu⟩
    rw [c.instrs_annotate, Block.instrs, hsteps]
    rfl
  · rw [if_neg hu] at hget
    have hcb : c = b := Option.some.inj (hc.symm.trans ((hrounds.getElem?_of_notMem hu).trans hbu))
    exact ⟨c, hget, hid, hending, hlabel, by rw [hcb], fun _ => hcb⟩

/-- **The live sets are exact.**  On blocks with empty live sets, the rounds of the analysis end.  Then, at the start
and the end of every reachable block and around every step of it, a temporary is in the live set iff it is live there.
The edges, the instructions, and the blocks that no path of edges leads to stay as they were. -/
theorem live_sets_exact {blocks : List Block} {edges : List (Nat × Nat)}
    (hempty : ∀ b ∈ blocks, b.liveIn = ∅ ∧ b.liveOut = ∅) (hok : ofBlocks blocks edges = .ok g) :
    (∃ g', Rounds g.reachable g g.analyze.rounds g' ∧ g.withLiveness = annotateAll g.reachable g') ∧
    g.withLiveness.edges = edges ∧ g.withLiveness.blocks.length = blocks.length ∧
    ∀ {u b}, blocks[u]? = some b → ∃ c, g.withLiveness.blocks[u]? = some c ∧
      c.id = b.id ∧ c.ending = b.ending ∧ c.label = b.label ∧ c.instrs = b.instrs ∧
      (¬ Relation.ReflTransGen (fun v w => (v, w) ∈ edges) 0 u → c = b) ∧
      (Relation.ReflTransGen (fun v w => (v, w) ∈ edges) 0 u →
        (∀ t, t ∈ c.liveIn ↔ g.Live u b.instrs t) ∧ (∀ t, t ∈ c.liveOut ↔ g.Live u [] t) ∧
        ∀ done s todo, c.steps = done ++ s :: todo →
          (∀ t, t ∈ s.liveIn ↔ g.Live u (s.instr :: todo.map Step.instr) t) ∧
          ∀ t, t ∈ s.liveOut ↔ g.Live u (todo.map Step.instr) t) := by
  obtain ⟨rfl, hrange⟩ := ofBlocks_eq_ok hok
  generalize hg : FlowGraph.mk blocks edges = g
  have hblocks : blocks = g.blocks := by rw [← hg]
  have hedges : edges = g.edges := by rw [← hg]
  rw [hblocks] at hempty hrange ⊢
  rw [hedges] at hrange ⊢
  have hb := bare_of_empty hempty
  obtain ⟨hsegs, hedges', hset⟩ := settled_withLiveness hb
  have htrue : g.withLiveness.Truthful :=
    ((rounds_analyze hb).truthful (truthful_of_bare hb)).annotateAll (nodup_reachable g)
  have hlen : g.withLiveness.blocks.length = g.blocks.length := by
    have := congrArg List.length hsegs
    simpa [segments] using this
  refine ⟨⟨_, rounds_analyze hb, withLiveness_eq g⟩, hedges', hlen, fun {u b} hbu => ?_⟩
  have hreach : u ∈ g.reachable ↔ Relation.ReflTransGen (fun v w => (v, w) ∈ g.edges) 0 u :=
    mem_reachable_iff.trans (and_iff_right (List.getElem?_eq_some_iff.1 hbu).1)
  obtain ⟨c, hc, hid, hending, hlabel, hinstrs, hsame⟩ := exists_getElem?_withLiveness hb hbu
  refine ⟨c, hc, hid, hending, hlabel, hinstrs, fun hu => hsame fun hm => hu (hreach.1 hm), fun hu => ?_⟩
  have hu' : u ∈ g.withLiveness.reachable := reachable_congr hsegs hedges' ▸ hreach.2 hu
  have hpoint : ∀ {done todo}, c.steps = done ++ todo →
      ∀ t, t ∈ Step.before c.liveOut todo ↔ g.Live u (todo.map Step.instr) t := by
    intro done todo hsteps t
    have hrange' : ∀ e ∈ g.withLiveness.edges, e.2 < g.withLiveness.blocks.length := by
      rw [hedges', hlen]
      exact fun e he => (hrange e he).2
    refine (hset.mem_before_iff htrue hrange' hu' hc hsteps).trans ⟨?_, ?_⟩
    · exact Live.congr hsegs.symm hedges'.symm
    · exact Live.congr hsegs hedges'
  refine ⟨?_, hpoint (List.append_nil c.steps).symm, fun done s todo hsteps => ⟨hpoint hsteps, ?_⟩⟩
  · rw [← hinstrs, ← hset.before hu' hc]
    exact hpoint (List.nil_append c.steps).symm
  · have hsteps' : c.steps = (done ++ [s]) ++ todo := by rw [hsteps, List.append_assoc, List.singleton_append]
    have hout : s.liveOut = Step.before c.liveOut todo :=
      (hsteps' ▸ hset.chained hu' hc).liveOut_eq List.getLast?_concat
    rw [hout]
    exact hpoint hsteps'

/-- Block 1 adds to a sum until it is zero, and block 2 returns the sum.  Nothing leads to block 3. -/
def loopBlocks : List Block :=
  [.ofInstrs 0 .fallsThrough none [.const (.temp ⟨0⟩) 1, .const (.temp ⟨1⟩) 7],
    .ofInstrs 1 .branches (some ⟨"L"⟩)
      [.binary .add (.temp ⟨1⟩) (.temp ⟨1⟩) (.temp ⟨0⟩), .branch .isNonzero (.temp ⟨1⟩) ⟨"L"⟩],
    .ofInstrs 2 .returns none [.ret (some (.temp ⟨1⟩))],
    .ofInstrs 3 .jumps none [.move (.temp ⟨0⟩) (.temp ⟨2⟩), .jump ⟨"L"⟩]]

def loopEdges : List (Nat × Nat) := [(0, 1), (1, 2), (1, 1), (3, 1)]

/-- What is added is read again after block 1, on the way round; what only block 3 reads is live nowhere in it. -/
theorem live_sets_exact_loop : (∀ b ∈ loopBlocks, b.liveIn = ∅ ∧ b.liveOut = ∅) ∧
    ofBlocks loopBlocks loopEdges = .ok ⟨loopBlocks, loopEdges⟩ ∧
    (FlowGraph.mk loopBlocks loopEdges).Live 1 [] ⟨0⟩ ∧ ¬ (FlowGraph.mk loopBlocks loopEdges).Live 1 [] ⟨2⟩ := by
  have hempty : ∀ b ∈ loopBlocks, b.liveIn = ∅ ∧ b.liveOut = ∅ := by decide
  have hok : ofBlocks loopBlocks loopEdges = .ok ⟨loopBlocks, loopEdges⟩ := rfl
  refine ⟨hempty, hok, ?_⟩
  obtain ⟨c, hc, -, -, -, -, -, hlive⟩ := (live_sets_exact hempty hok).2.2.2 (show loopBlocks[1]? = some _ from rfl)
  have hreach : Relation.ReflTransGen (fun v w => (v, w) ∈ loopEdges) 0 1 := .single (by decide)
  have hout : (FlowGraph.mk loopBlocks loopEdges).withLiveness.blocks[1]?.map Block.liveOut =
      some (.ofList [⟨0⟩, ⟨1⟩]) := by decide +kernel
  rw [hc] at hout
  have hmem := (hlive hreach).2.1
  rw [Option.some.inj hout] at hmem
  exact ⟨(hmem _).1 (by decide), fun h => absurd ((hmem _).2 h) (by decide)⟩

end FlowGraph

end ThreeAddress
