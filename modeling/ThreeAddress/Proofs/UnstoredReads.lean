import ThreeAddress.Proofs.Allocator.Failure
import ThreeAddress.Proofs.Allocator.Points
import ThreeAddress.Proofs.Allocator.Stored
import ThreeAddress.Proofs.FlowGraph.Positions
import ThreeAddress.Proofs.Outcome

/-!
What it means that a temporary is reported as read before it is stored.  The report comes with a load of a temporary
that has no home yet, so none that was stored or loaded before in the code.  Such a temporary is live where its block
starts.  It may be live where the function is entered; if it is not, then every way to the block assigns it, and does so
in a block that comes later in the code.

Main statement: a temporary that is reported is live on entry and no parameter, or it is assigned on every way to the
load, by blocks that come after it in the code (`unstored_reads_explained`).  There are reports of the second kind, as
the example after it shows.
-/

namespace ThreeAddress

open Alloc

/-! ### Where a report comes from -/

namespace Subroutine

variable {f : Subroutine} {τ : List Action} {n : Note}

/-- A note in the log is one of the actions, or it comes with a load of a temporary that has no home. -/
theorem mem_performAllNotes (h : n ∈ f.performAllNotes τ) : .note n ∈ τ ∨ ∃ xs r t ys, τ = xs ++ .load r t :: ys ∧
    n = .unstoredRead f.name t ∧ (f.performAll xs).home? t = none := by
  induction τ generalizing f with
  | nil => simp [performAllNotes] at h
  | cons α τ ih =>
    rcases List.mem_append.1 h with h | h
    · cases α with
      | load r t =>
        rw [performNotes] at h
        split at h
        · rename_i hnone
          exact .inr ⟨[], r, t, τ, rfl, List.mem_singleton.1 h, Option.isNone_iff_eq_none.1 hnone⟩
        · simp at h
      | note m =>
        rw [List.mem_singleton.1 h]
        exact .inl List.mem_cons_self
      | store | native | label | comment => simp [performNotes] at h
    · rcases ih h with h | ⟨xs, r, t, ys, rfl, hn, hhome⟩
      · exact .inl (List.mem_cons_of_mem _ h)
      · rw [name_perform] at hn
        exact .inr ⟨α :: xs, r, t, ys, rfl, hn, hhome⟩

end Subroutine

theorem Func.mem_performAllNotes_of_unstoredRead {f : Func} {o : Options} {name : Label} {t : Temp}
    (h : .unstoredRead name t ∈ (f.lower o).log) : ∃ g, FlowGraph.ofFunc f = .ok g ∧ .unstoredRead name t ∈
      (Subroutine.start f.name f.params).performAllNotes
        ((Allocator.ofOptions o).accept g.withLiveness f.name f.params).actions := by
  unfold Func.lower at h
  split at h
  · simp at h
  rename_i g hg
  refine ⟨g, hg, ?_⟩
  unfold FlowGraph.withLiveness
  have hoptions : .unstoredRead name t ∉ o.notes := by
    unfold Options.notes
    split
    · split <;> simp
    · simp
  split at h
  · simp [FlowGraph.notes] at h
  unfold FlowGraph.lower at h
  dsimp only at h
  split at h
  · simpa [FlowGraph.notes, FlowGraph.Analysis.notes, hoptions] using h
  split at h
  · simpa [FlowGraph.notes, FlowGraph.Analysis.notes, Subroutine.finishNotes, hoptions] using h
  · simpa [FlowGraph.notes, FlowGraph.Analysis.notes, Subroutine.finishNotes, hoptions] using h

/-- A report in the log comes with a load of a temporary that did not come on the stack and that no earlier action
stores or loads. -/
theorem Func.exists_load_of_unstoredRead {f : Func} {o : Options} {name : Label} {t : Temp}
    (h : .unstoredRead name t ∈ (f.lower o).log) :
    name = f.name ∧ t ∉ f.params.drop 8 ∧ ∃ g, FlowGraph.ofFunc f = .ok g ∧
      ∃ xs r ys, ((Allocator.ofOptions o).accept g.withLiveness f.name f.params).actions = xs ++ .load r t :: ys ∧
        ∀ α ∈ xs, α.temp? ≠ some t := by
  obtain ⟨g, hg, h⟩ := mem_performAllNotes_of_unstoredRead h
  rcases Subroutine.mem_performAllNotes h with hm | ⟨xs, r, u, ys, hsplit, heq, hhome⟩
  · -- allocation itself never says so
    have hnever := (tracked_accept (.ofOptions o) g.withLiveness f.name f.params).unreported _ hm
    simp [Action.isUnstored] at hnever
  · cases heq
    obtain ⟨hstart, hxs⟩ := Subroutine.home?_performAll_eq_none.1 hhome
    exact ⟨rfl, Subroutine.home?_start_eq_none.1 hstart, g, hg, xs, r, ys, hsplit, hxs⟩

/-! ### The point of a load -/

namespace Alloc

variable {g : FlowGraph} {name : Label} {params : List Temp} {a₀ a : Allocator} {pre xs ys : List Action} {r : Reg}
  {t : Temp}

/-- A step that emits anything succeeds. -/
theorem Emits.yields {s : Step} {exit : Label} {emitted : Bool} {e : Action}
    (h : Emits (step s exit emitted) a xs e ys) : ∃ a', Yields (step s exit emitted) a () a' (xs ++ e :: ys) := by
  have hends := step_ends s exit emitted
  cases herr : s.instr.callError? with
  | none =>
    rw [herr] at hends
    obtain ⟨⟨⟩, hv⟩ := hends a
    refine ⟨(run (step s exit emitted).run a).state, ?_⟩
    rw [Yields, ← h, ← hv]
  | some err =>
    -- a call that is refused emits nothing
    obtain ⟨i, liveIn, liveOut⟩ := s
    cases i with
    | call dst l args =>
      have hrun : (run (step ⟨.call dst l args, liveIn, liveOut⟩ exit emitted).run a).trace = [] := by
        unfold step
        dsimp only
        rw [callTemps_eq_error herr]
        rfl
      rw [Emits, hrun] at h
      simp at h
    | _ => simp [Instr.callError?] at herr

theorem Point.Reached.mem_uses {p : Point g} (hv : (a₀.reset (g.tempCount params)).Valid)
    (hf : ∀ b ∈ g.reachableBlocks, Formed b.instrs b.ending) (hp : p.Reached name params a₀ pre a)
    (h : Emits (Alloc.step p.step name.exit p.emitted) a xs (.load r t) ys) : t ∈ p.step.instr.uses := by
  have ha : a.Valid := (hp.effects hv hf).1
  obtain ⟨a', hy⟩ := h.yields
  have hm : .load r t ∈ Action.events (xs ++ .load r t :: ys) :=
    List.mem_filter.2 ⟨List.mem_append_right _ List.mem_cons_self, rfl⟩
  rw [p.emitted_eq (hf p.block p.block_mem)] at hy
  cases hl : p.step.instr.leaves with
  | false =>
    rw [hl] at hy
    exact (step_effect ha hl hy).load hm
  | true =>
    rw [hl] at hy
    exact (leaving_effect ha hl hy).2.load (List.mem_append_left _ hm)

/-- A temporary that is live at a point and has not been stored by then is live where the block of the point starts, and
no block before it assigns the temporary for later blocks. -/
theorem Point.Reached.unstored {p : Point g} (hv : (a₀.reset (g.tempCount params)).Valid)
    (hf : ∀ b ∈ g.reachableBlocks, Formed b.instrs b.ending) (hs : g.Settled) (hp : p.Reached name params a₀ pre a)
    (ht : t ∈ p.step.liveIn) (hpre : ¬ Stored pre t) :
    ¬ Stored (run (takeParams g params) (a₀.reset (g.tempCount params))).trace t ∧ t ∈ p.block.liveIn ∧
      ∀ c ∈ p.before, t ∈ c.liveOut → t ∈ c.liveIn := by
  obtain ⟨-, υs, τs, f₁, hbefore, hdone, hevents⟩ := hp.effects hv hf
  have hmem : ∀ {τ : List Action}, (∀ α ∈ τ, α ∈ Action.events pre) → ¬ Stored τ t := fun hτ hst =>
    hpre (hst.mono fun α hα => Action.mem_events (hτ α hα))
  rw [hevents] at hmem
  refine ⟨?_, ?_, fun c hc hout => ?_⟩
  · rintro ⟨q, hq⟩
    exact hmem (fun α hα => List.mem_append_left _ hα) ⟨q, List.mem_filter.2 ⟨hq, rfl⟩⟩
  · obtain ⟨u, hu, hb⟩ := List.mem_filterMap.1 p.block_mem
    have hch : Step.Chained p.block.liveOut (p.done ++ p.step :: p.todo) := p.steps_eq ▸ hs.chained hu hb
    rw [← hs.before hu hb, p.steps_eq]
    refine (hdone.stored hch ht).resolve_right fun ⟨_, hst⟩ => hmem (fun α hα => ?_) hst
    exact List.mem_append_right _ (List.mem_append_right _ (List.mem_append_right _ hα))
  · obtain ⟨u, hu, hb⟩ := List.mem_filterMap.1 (p.before_mem hc)
    obtain ⟨f₀, σs, f₂, heffs, hσs⟩ := hbefore.exists_of_mem hc
    have hch : Step.Chained c.liveOut (c.steps ++ []) := by
      rw [List.append_nil]
      exact hs.chained hu hb
    rw [← hs.before hu hb]
    have hlive := heffs.stored hch hout
    rw [List.append_nil] at hlive
    refine hlive.resolve_right fun ⟨_, hst⟩ => hmem (fun α hα => ?_) hst
    exact List.mem_append_right _ (List.mem_append_left _ (hσs α hα))

end Alloc

/-! ### Ways to a block -/

theorem Step.Chained.mem_before {after : TempSet} {ss : List Step} {t : Temp} (h : Chained after ss) (ht : t ∈ after) :
    t ∈ before after ss ∨ ∃ s ∈ ss, t ∈ s.instr.defs := by
  induction ss with
  | nil => exact .inl ht
  | cons s ss ih =>
    obtain ⟨hin, hout, hch⟩ := h
    rcases ih hch with hl | ⟨k, hk, hd⟩
    · by_cases hd : t ∈ s.instr.defs
      · exact .inr ⟨s, List.mem_cons_self, hd⟩
      · left
        show t ∈ s.liveIn
        rw [hin, hout]
        exact Instr.mem_liveBefore.2 (.inl ⟨hl, hd⟩)
    · exact .inr ⟨k, List.mem_cons_of_mem _ hk, hd⟩

namespace FlowGraph

variable {g : FlowGraph} {us : List Nat} {u w : Nat} {b : Block} {t : Temp}

/-- The blocks `us`, by number, are a way that control may take from the first block to block `w`. -/
def Way (g : FlowGraph) (us : List Nat) (w : Nat) : Prop :=
  us.IsChain (fun u v => (u, v) ∈ g.edges) ∧ us.head? = some 0 ∧ us.getLast? = some w

/-- On a way from a block where a temporary is not live to one where it is, a block assigns it. -/
theorem Settled.exists_assigning (hs : g.Settled) (hedges : ∀ {u v}, (u, v) ∈ g.edges → v < g.blocks.length)
    (hc : (u :: us).IsChain fun u v => (u, v) ∈ g.edges) (hlast : (u :: us).getLast? = some w) (hu : u ∈ g.reachable)
    (hnot : ∀ c, g.blocks[u]? = some c → t ∉ c.liveIn) (hb : g.blocks[w]? = some b) (ht : t ∈ b.liveIn) :
    ∃ v ∈ u :: us, ∃ c, v ∈ g.reachable ∧ g.blocks[v]? = some c ∧ t ∈ c.liveOut ∧ t ∉ c.liveIn ∧
      ∃ i ∈ c.instrs, t ∈ i.defs := by
  induction us generalizing u with
  | nil =>
    cases Option.some.inj hlast
    exact absurd ht (hnot b hb)
  | cons x us ih =>
    obtain ⟨hux, hc⟩ := List.isChain_cons_cons.1 hc
    rw [List.getLast?_cons_cons] at hlast
    have hx : x < g.blocks.length := hedges hux
    by_cases hlive : t ∈ g.blocks[x].liveIn
    · have hlt : u < g.blocks.length := (mem_reachable.1 hu).1
      have hgu : g.blocks[u]? = some g.blocks[u] := List.getElem?_eq_getElem hlt
      have hout := hs.flows hu hgu hux (List.getElem?_eq_getElem hx) t hlive
      have hin := hnot _ hgu
      refine ⟨u, List.mem_cons_self, _, hu, hgu, hout, hin, ?_⟩
      rcases (hs.chained hu hgu).mem_before hout with hl | ⟨s, hsm, hd⟩
      · rw [hs.before hu hgu] at hl
        exact absurd hl hin
      · exact ⟨s.instr, List.mem_map_of_mem hsm, hd⟩
    · have hnot' : ∀ c, g.blocks[x]? = some c → t ∉ c.liveIn := by
        intro c hc
        rw [List.getElem?_eq_getElem hx] at hc
        cases Option.some.inj hc
        exact hlive
      obtain ⟨v, hv, hrest⟩ := ih hc hlast (reachable_closed hu hux hx) hnot'
      exact ⟨v, List.mem_cons_of_mem _ hv, hrest⟩

theorem lt_length_of_mem_edges {f : Func} (hg : ofFunc f = .ok g) {u v : Nat} (h : (u, v) ∈ g.withLiveness.edges) :
    v < g.withLiveness.blocks.length := by
  obtain ⟨hsegs, hedges, -⟩ := settled_withLiveness (bare_of_ofFunc hg)
  rw [hedges] at h
  obtain ⟨s, t, -, hv, -⟩ := (mem_edges_iff hg).1 h
  rw [length_of_segments hsegs]
  obtain ⟨c, hc, -⟩ := getElem?_segments_eq_some.1 hv
  exact (List.getElem?_eq_some_iff.1 hc).1

end FlowGraph

/-- Reachable blocks with lower numbers come before. -/
theorem Alloc.Point.mem_before {g : FlowGraph} (p : Point g)
    (hid : ∀ (u : Nat) (b : Block), g.blocks[u]? = some b → b.id = u) {u : Nat} {c : Block} (hu : u ∈ g.reachable)
    (hc : g.blocks[u]? = some c) (hlt : u < p.block.id) : c ∈ p.before := by
  have hids := FlowGraph.map_id_reachableBlocks hid ▸ g.pairwise_reachable
  have hm : c ∈ g.reachableBlocks := List.mem_filterMap.2 ⟨u, hu, hc⟩
  have hcu := hid u c hc
  rw [p.blocks_eq, List.map_append, List.map_cons] at hids
  rw [p.blocks_eq] at hm
  obtain ⟨-, hrest, -⟩ := List.pairwise_append.1 hids
  rcases List.mem_append.1 hm with hm | hm
  · exact hm
  · rcases List.mem_cons.1 hm with rfl | hm
    · omega
    · have := (List.pairwise_cons.1 hrest).1 c.id (List.mem_map_of_mem hm)
      omega

/-- **What is reported as read before it is stored.**  Take a function of temporaries, and a report in its log, whether
lowering succeeds or fails.  The temporary did not come on the stack.  Either it is live where the function is entered
and is no parameter, so it may be read without a value.  Or it is not live there, and the report is a false alarm: the
temporary is live where some block starts, and on every way there it is assigned, by a block with a higher number, which
comes later in the code. -/
theorem unstored_reads_explained {f : Func} (ht : f.TempsOnly) {o : Options} {name : Label} {t : Temp}
    (h : .unstoredRead name t ∈ (f.lower o).log) : name = f.name ∧ t ∉ f.params.drop 8 ∧
    ∃ g, FlowGraph.ofFunc f = .ok g ∧
      ((t ∈ entryLive g.withLiveness ∧ t ∉ f.params) ∨
        (t ∉ entryLive g.withLiveness ∧ ∃ b ∈ g.withLiveness.reachableBlocks, t ∈ b.liveIn ∧
          ∀ us, g.withLiveness.Way us b.id → ∃ v ∈ us, ∃ c, g.withLiveness.blocks[v]? = some c ∧ b.id < v ∧
            t ∈ c.liveOut ∧ t ∉ c.liveIn ∧ ∃ i ∈ c.instrs, t ∈ i.defs)) := by
  obtain ⟨hname, hstack, g, hg, xs, r, ys, hsplit, hxs⟩ := Func.exists_load_of_unstoredRead h
  refine ⟨hname, hstack, g, hg, ?_⟩
  have hplain := plain_of_reachable ht (FlowGraph.describes_withLiveness hg)
  have hf : ∀ b ∈ g.withLiveness.reachableBlocks, Formed b.instrs b.ending := fun b hb => (hplain b hb).formed
  have hv := valid_reset_ofOptions o (g.withLiveness.tempCount f.params)
  have hid := FlowGraph.id_withLiveness hg
  obtain ⟨-, -, hs⟩ := FlowGraph.settled_withLiveness (FlowGraph.bare_of_ofFunc hg)
  obtain ⟨p, pre, a, xs', zs, rest, hp, hemits, rfl, -⟩ := exists_reached hf rfl hsplit
  have hlive : t ∈ p.step.liveIn := uses_subset_liveIn (p.chained hs).1 t (hp.mem_uses hv hf hemits)
  have hpre : ¬ Stored pre t := fun ⟨q, hq⟩ => hxs _ (List.mem_append_left _ hq) rfl
  obtain ⟨hentry, hblock, hbefore⟩ := hp.unstored hv hf hs hlive hpre
  by_cases hel : t ∈ entryLive g.withLiveness
  · refine .inl ⟨hel, fun hparam => ?_⟩
    exact (stored_takeParams hv hel hparam).elim hstack hentry
  · refine .inr ⟨hel, p.block, p.block_mem, hblock, fun us hway => ?_⟩
    obtain ⟨hchain, hhead, hlast⟩ := hway
    obtain ⟨us', rfl⟩ : ∃ us', us = 0 :: us' := by
      cases us with
      | nil => simp at hhead
      | cons u us =>
        cases Option.some.inj hhead
        exact ⟨us, rfl⟩
    obtain ⟨w, hw, hbw⟩ := List.mem_filterMap.1 p.block_mem
    rw [hid w _ hbw] at hlast ⊢
    have hzero : 0 ∈ g.withLiveness.reachable := FlowGraph.zero_mem_reachable fun hnil => by simp [hnil] at hbw
    have hnot : ∀ c, g.withLiveness.blocks[0]? = some c → t ∉ c.liveIn := by
      intro c hc hl
      rw [← List.head?_eq_getElem?] at hc
      exact hel (by simpa [entryLive, hc] using hl)
    obtain ⟨v, hvm, c, hvr, hc, hout, hin, hdefs⟩ :=
      hs.exists_assigning (FlowGraph.lt_length_of_mem_edges hg) hchain hlast hzero hnot hbw hblock
    refine ⟨v, hvm, c, hc, ?_, hout, hin, hdefs⟩
    rcases Nat.lt_trichotomy v w with hlt | rfl | hlt
    · exact absurd (hbefore c (p.mem_before hid hvr hc (by rwa [hid w _ hbw])) hout) hin
    · cases Option.some.inj (hc.symm.trans hbw)
      exact absurd hblock hin
    · exact hlt

/-- A function that returns a value from a block before the one that assigns it. -/
def Func.backward : Func := ⟨⟨"f"⟩, [], [.jump ⟨"_L2"⟩, .mark ⟨"_L1"⟩, .ret (some (.temp ⟨0⟩)), .mark ⟨"_L2"⟩,
  .const (.temp ⟨0⟩) 5, .jump ⟨"_L1"⟩]⟩

/-- The report for it is a false alarm: nothing is live where the function is entered. -/
theorem unstored_reads_explained_backward : Func.backward.TempsOnly ∧
    .unstoredRead ⟨"f"⟩ ⟨0⟩ ∈ (Func.backward.lower ⟨false, none⟩).log ∧
    ∃ g, FlowGraph.ofFunc .backward = .ok g ∧ entryLive g.withLiveness = ∅ ∧
      ∃ b ∈ g.withLiveness.reachableBlocks, ⟨0⟩ ∈ b.liveIn ∧ ∀ us, g.withLiveness.Way us b.id →
        ∃ v ∈ us, ∃ c, g.withLiveness.blocks[v]? = some c ∧ b.id < v ∧ ∃ i ∈ c.instrs, ⟨0⟩ ∈ i.defs := by
  have ht : Func.backward.TempsOnly := by decide
  have hlog : .unstoredRead ⟨"f"⟩ ⟨0⟩ ∈ (Func.backward.lower ⟨false, none⟩).log := by decide +kernel
  have hempty : ∀ g, FlowGraph.ofFunc .backward = .ok g → entryLive g.withLiveness = ∅ := by
    intro g hg
    cases Except.ok.inj (hg.symm.trans (show FlowGraph.ofFunc .backward = _ from rfl))
    decide +kernel
  obtain ⟨-, -, g, hg, hcases⟩ := unstored_reads_explained ht hlog
  rw [hempty g hg] at hcases
  obtain ⟨hentry, -⟩ | ⟨-, b, hb, hin, hways⟩ := hcases
  · exact absurd hentry (OrdSet.not_mem_empty _)
  refine ⟨ht, hlog, g, hg, hempty g hg, b, hb, hin, fun us hus => ?_⟩
  obtain ⟨v, hv, c, hc, hlt, -, -, hdefs⟩ := hways us hus
  exact ⟨v, hv, c, hc, hlt, hdefs⟩

end ThreeAddress
