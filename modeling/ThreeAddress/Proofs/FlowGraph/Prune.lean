import Mathlib.Data.List.Chain
import ThreeAddress.Proofs.FlowGraph.Positions
import ThreeAddress.Proofs.Liveness.Exact

/-!
A function without its unreachable blocks.  A block that control falls through to has a label, so the reachable blocks
alone, one after the other, are cut into the same blocks again (`cut_flatMap_source`).  What is left of a graph is
renumbered, in order (`Keeps`), and an edge joins two blocks of the rest iff it joined them before
(`mem_edges_pruned`).

Main statements: the rest has a graph, with all blocks reachable (`exists_ofFunc_pruned`, `reachable_pruned`), and with
the live sets that the reachable blocks had (`reachableBlocks_pruned`).
-/

namespace ThreeAddress

def Block.unnumbered (b : Block) : Block := { b with id := 0 }

/-- The function without the blocks of its graph that are not reachable. -/
def Func.pruned (f : Func) (g : FlowGraph) : Func := { f with instrs := g.reachableBlocks.flatMap Block.source }

namespace Formed

variable {is : List Instr} {e : Ending}

theorem straight (h : Formed is e) (he : e = .fallsThrough) : ∀ i ∈ is, i.flow = .straight := by
  cases h with
  | falls hs => exact hs
  | leaves _ hi => exact absurd he (Instr.ofFlow_ne_fallsThrough hi)

theorem exists_append (h : Formed is e) (he : e ≠ .fallsThrough) :
    ∃ js i, is = js ++ [i] ∧ (∀ j ∈ js, j.flow = .straight) ∧ i.leaves = true ∧ e = .ofFlow i.flow := by
  cases h with
  | falls => exact absurd rfl he
  | leaves hs hi => exact ⟨_, _, rfl, hs, hi, rfl⟩

end Formed

namespace FlowGraph

/-! ### Cutting segments again -/

theorem cut_append {is : List Instr} (h : ∀ i ∈ is, i.flow = .straight) (label : Option Label)
    (pending rest : List Instr) : cut label pending (is ++ rest) = cut label (pending ++ is) rest := by
  induction is generalizing pending with
  | nil => rw [List.nil_append, List.append_nil]
  | cons i is ih =>
    rw [List.cons_append, cut_straight _ _ (h i List.mem_cons_self), ih fun j hj => h j (List.mem_cons_of_mem i hj),
      List.append_assoc, List.singleton_append]

theorem cut_label (label : Option Label) (rest : List Instr) :
    cut none [] (label.toList.map .mark ++ rest) = cut label [] rest := by
  cases label <;> rfl

theorem close_eq {s : Segment} (h : s.source ≠ []) : s.close = [s] := by
  obtain ⟨label, instrs, ending⟩ := s
  cases label <;> cases instrs <;> first | rfl | exact absurd rfl h

theorem cut_source_of_leaves {s : Segment} (h : Formed s.instrs s.ending) (he : s.ending ≠ .fallsThrough)
    (rest : List Instr) : cut none [] (s.source ++ rest) = s :: cut none [] rest := by
  obtain ⟨js, i, hinstrs, hs, hi, hend⟩ := h.exists_append he
  have heq : s = ⟨s.label, js ++ [i], .ofFlow i.flow⟩ := by rw [← hinstrs, ← hend]
  rw [Segment.source, List.append_assoc, cut_label, hinstrs, List.append_assoc, cut_append hs, List.singleton_append,
    cut_leaves _ _ hi, List.nil_append, ← heq]

theorem cut_source_of_falls {s : Segment} (h : Formed s.instrs s.ending) (he : s.ending = .fallsThrough)
    (rest : List Instr) : cut none [] (s.source ++ rest) = cut s.label s.instrs rest := by
  rw [Segment.source, List.append_assoc, cut_label, cut_append (h.straight he), List.nil_append]

/-- If control falls through from `s` to `t`, then `t` has a label. -/
def Joins (s t : Segment) : Prop := s.ending = .fallsThrough → t.label.isSome = true

/-- **Segments, put one after the other, are cut apart again.** -/
theorem cut_flatMap_source {ss : List Segment} (hf : ∀ s ∈ ss, Formed s.instrs s.ending ∧ s.source ≠ [])
    (hj : ss.IsChain Joins) : cut none [] (ss.flatMap Segment.source) = ss := by
  induction ss with
  | nil => rfl
  | cons s ss ih =>
    obtain ⟨hformed, hne⟩ := hf s List.mem_cons_self
    obtain ⟨hnext, hj⟩ := List.isChain_cons.1 hj
    replace ih := ih (fun t ht => hf t (List.mem_cons_of_mem s ht)) hj
    rw [List.flatMap_cons]
    by_cases he : s.ending = .fallsThrough
    · have hs : Segment.mk s.label s.instrs .fallsThrough = s := by rw [← he]
      rw [cut_source_of_falls hformed he]
      cases ss with
      | nil => rw [List.flatMap_nil, cut, hs, close_eq hne]
      | cons t ss =>
        -- the label of the next segment closes this one
        obtain ⟨l, hl⟩ := Option.isSome_iff_exists.1 (hnext t rfl he)
        have hmark : (t :: ss).flatMap Segment.source = .mark l :: (t.instrs ++ ss.flatMap Segment.source) := by
          rw [List.flatMap_cons, Segment.source, hl]
          rfl
        rw [hmark] at ih ⊢
        rw [cut_mark, hs, close_eq hne, List.singleton_append]
        exact congrArg (s :: ·) ih
    · rw [cut_source_of_leaves hformed he, ih]

theorem exists_cons_cut (l : Label) (pending rest : List Instr) :
    ∃ t ts, cut (some l) pending rest = t :: ts ∧ t.label = some l := by
  induction rest generalizing pending with
  | nil => exact ⟨_, _, rfl, rfl⟩
  | cons i rest ih =>
    rcases i.kinds with ⟨m, rfl⟩ | h | h
    · exact ⟨_, _, rfl, rfl⟩
    · rw [cut_straight _ _ h]
      exact ih _
    · rw [cut_leaves _ _ h]
      exact ⟨_, _, rfl, rfl⟩

/-- Control falls through to a segment with a label only. -/
theorem isChain_cut (label : Option Label) (pending rest : List Instr) : (cut label pending rest).IsChain Joins := by
  induction rest generalizing label pending with
  | nil =>
    rw [cut, Segment.close]
    split
    · exact .nil
    · exact .singleton _
  | cons i rest ih =>
    rcases i.kinds with ⟨l, rfl⟩ | h | h
    · rw [cut_mark, Segment.close]
      obtain ⟨t, ts, ht, hl⟩ := exists_cons_cut l [] rest
      split
      · exact ih _ _
      · rw [List.singleton_append, List.isChain_cons]
        refine ⟨fun y hy _ => ?_, ih _ _⟩
        rw [ht] at hy
        rw [← Option.some.inj hy, hl]
        rfl
    · rw [cut_straight _ _ h]
      exact ih _ _
    · rw [cut_leaves _ _ h, List.isChain_cons]
      exact ⟨fun y _ he => absurd he (Instr.ofFlow_ne_fallsThrough h), ih _ _⟩

/-! ### Functions that have a graph -/

variable {f : Func} {g : FlowGraph} {bs rest : List Block} {b : Block} {l : Label} {j k u v : Nat}

theorem repeated?_eq_none {seen rest : List Label} (hn : rest.Nodup) (hs : ∀ l ∈ rest, l ∉ seen) :
    repeated? seen rest = none := by
  induction rest generalizing seen with
  | nil => rfl
  | cons l rest ih =>
    obtain ⟨hl, hn⟩ := List.nodup_cons.1 hn
    rw [repeated?, if_neg (hs l List.mem_cons_self)]
    refine ih hn fun m hm hseen => ?_
    rcases List.mem_cons.1 hseen with rfl | hseen
    · exact hl hm
    · exact hs m (List.mem_cons_of_mem l hm) hseen

theorem exists_locate (h : l ∈ bs.filterMap Block.label) : ∃ v, locate bs l = .ok v := by
  obtain ⟨c, hc, hl⟩ := List.mem_filterMap.1 h
  unfold locate
  cases hfind : bs.findIdx? fun b => b.label = some l with
  | some v => exact ⟨v, rfl⟩
  | none => exact absurd (List.findIdx?_eq_none_iff.1 hfind c hc) (by simp [hl])

theorem exists_exits (h : ∀ l, b.target? = some l → l ∈ bs.filterMap Block.label) : ∃ ids, exits bs b = .ok ids := by
  unfold exits
  cases ht : b.target? with
  | none => cases b.ending <;> exact ⟨_, rfl⟩
  | some l =>
    obtain ⟨v, hv⟩ := exists_locate (h l ht)
    simp only [hv]
    cases b.ending <;> exact ⟨_, rfl⟩

theorem exists_leaving (h : ∀ b ∈ rest, ∃ ids, exits bs b = .ok ids) : ∃ es, leaving bs rest = .ok es := by
  induction rest with
  | nil => exact ⟨[], rfl⟩
  | cons b rest ih =>
    obtain ⟨ids, hids⟩ := h b List.mem_cons_self
    obtain ⟨es, hes⟩ := ih fun c hc => h c (List.mem_cons_of_mem b hc)
    rw [leaving, hids, hes]
    exact ⟨_, rfl⟩

theorem labels_split (f : Func) : (split f.instrs).filterMap Block.label = f.marks := by
  rw [← labels_cut, ← map_segment_split, List.filterMap_map]
  rfl

/-- **A function has a graph if no label is marked twice and every target is marked.** -/
theorem exists_ofFunc (hn : f.marks.Nodup)
    (ht : ∀ s ∈ cut none [] f.instrs, ∀ l, s.target? = some l → l ∈ f.marks) : ∃ g, ofFunc f = .ok g := by
  have hexits : ∀ b ∈ split f.instrs, ∃ ids, exits (split f.instrs) b = .ok ids := by
    intro b hb
    refine exists_exits fun l hl => labels_split f ▸ ht b.segment ?_ l (target?_segment hl)
    exact map_segment_split f.instrs ▸ List.mem_map_of_mem hb
  obtain ⟨es, hes⟩ := exists_leaving hexits
  have hrange : ∀ e ∈ es, e.1 < (split f.instrs).length ∧ e.2 < (split f.instrs).length := by
    rintro ⟨u, v⟩ he
    obtain ⟨b, hb, rfl, ids, hids, hv⟩ := exits_of_mem_leaving hes he
    obtain ⟨w, hw⟩ := List.getElem?_of_mem hb
    rw [id_of_split hw]
    refine ⟨(List.getElem?_eq_some_iff.1 hw).1, ?_⟩
    rcases of_mem_exits hids hv with ⟨-, -, hlt⟩ | ⟨l, -, hloc⟩
    · exact hlt
    · obtain ⟨c, hc, -⟩ := locate_eq_ok hloc
      exact (List.getElem?_eq_some_iff.1 hc).1
  have hnone : es.find? (fun e => ¬ (e.1 < (split f.instrs).length ∧ e.2 < (split f.instrs).length)) = none := by
    refine List.find?_eq_none.2 fun e he => ?_
    simpa using hrange e he
  have hdistinct : repeated? [] f.marks = none := repeated?_eq_none hn fun _ _ => List.not_mem_nil
  refine ⟨⟨split f.instrs, es⟩, ?_⟩
  unfold ofFunc
  simp only [labels_split, hdistinct, hes, bind, Except.bind, ofBlocks, hnone]

/-! ### Blocks that are kept -/

/-- Of the reachable blocks, the one at place `k` is block `u`. -/
def Keeps (g : FlowGraph) (k u : Nat) : Prop := g.reachable[k]? = some u

theorem exists_keeps (hu : u ∈ g.reachable) : ∃ k, g.Keeps k u := List.getElem?_of_mem hu

namespace Keeps

theorem mem (h : g.Keeps k u) : u ∈ g.reachable := List.mem_of_getElem? h

theorem lt (hj : g.Keeps j u) (hk : g.Keeps k v) (h : j < k) : u < v := by
  obtain ⟨hj', rfl⟩ := List.getElem?_eq_some_iff.1 hj
  obtain ⟨hk', rfl⟩ := List.getElem?_eq_some_iff.1 hk
  exact List.pairwise_iff_getElem.1 (pairwise_reachable g) j k hj' hk' h

theorem place_unique (hj : g.Keeps j u) (hk : g.Keeps k u) : j = k := by
  rcases Nat.lt_trichotomy j k with h | h | h
  · exact absurd (hj.lt hk h) (Nat.lt_irrefl u)
  · exact h
  · exact absurd (hk.lt hj h) (Nat.lt_irrefl u)

theorem next (hk : g.Keeps k u) (hu : u + 1 ∈ g.reachable) : g.Keeps (k + 1) (u + 1) := by
  obtain ⟨m, hm⟩ := exists_keeps hu
  have hkm : k < m := by
    by_contra hle
    rcases Nat.eq_or_lt_of_le (Nat.le_of_not_lt hle) with rfl | hlt
    · have := Option.some.inj (hk.symm.trans hm)
      omega
    · have := hm.lt hk hlt
      omega
  obtain rfl : m = k + 1 := by
    by_contra hne
    have hm' := (List.getElem?_eq_some_iff.1 hm).1
    have hbetween : g.Keeps (k + 1) (g.reachable[k + 1]) := List.getElem?_eq_getElem (by omega)
    have h₁ := hk.lt hbetween (by omega)
    have h₂ := hbetween.lt hm (by omega)
    omega
  exact hm

theorem entry (hk : g.Keeps k 0) : k = 0 := by
  by_contra hne
  have hk' := (List.getElem?_eq_some_iff.1 hk).1
  have hfirst : g.Keeps 0 (g.reachable[0]) := List.getElem?_eq_getElem (by omega)
  exact absurd (hfirst.lt hk (by omega)) (Nat.not_lt_zero _)

/-- If control goes on from a block that is kept to the next, that one is the next that is kept. -/
theorem next_eq {s : Segment} (hd : g.Describes f) (hk : g.Keeps k u) (hnext : g.Keeps (k + 1) v)
    (hs : g.segments[u]? = some s) (he : s.ending = .fallsThrough ∨ s.ending = .branches) : v = u + 1 := by
  obtain ⟨b, hb, rfl⟩ := getElem?_segments_eq_some.1 hs
  have hlt := hk.lt hnext (Nat.lt_succ_self k)
  have hv := (mem_reachable.1 hnext.mem).1
  have hu : u + 1 < g.blocks.length := by omega
  have hreach := reachable_closed hk.mem (hd.next hb he hu) hu
  exact Option.some.inj (hnext.symm.trans (hk.next hreach))

end Keeps

theorem keeps_entry (hne : g.blocks ≠ []) : g.Keeps 0 0 := by
  obtain ⟨k, hk⟩ := exists_keeps (zero_mem_reachable hne)
  exact hk.entry ▸ hk

theorem getElem?_segments_reachableBlocks (g : FlowGraph) (k : Nat) :
    (g.reachableBlocks.map Block.segment)[k]? = g.reachable[k]?.bind fun u => g.segments[u]? := by
  rw [List.getElem?_map, getElem?_reachableBlocks]
  cases g.reachable[k]? with
  | none => rfl
  | some u => exact (getElem?_segments g u).symm

/-- The reachable blocks alone are the blocks of what is left of the function. -/
theorem cut_pruned (h : ofFunc f = .ok g) :
    cut none [] (f.pruned g).instrs = g.reachableBlocks.map Block.segment := by
  have hd := describes_of_ofFunc h
  have hsource : (f.pruned g).instrs = (g.reachableBlocks.map Block.segment).flatMap Segment.source := by
    rw [List.flatMap_map]
    rfl
  rw [hsource]
  refine cut_flatMap_source (fun s hs => ?_) (List.isChain_iff_getElem.2 fun k hk he => ?_)
  · obtain ⟨b, hb, rfl⟩ := List.mem_map.1 hs
    have hm : b.segment ∈ g.segments := List.mem_map_of_mem (g.reachableBlocks_sublist.subset hb)
    rw [hd.segments] at hm
    exact mem_cut (by simp) hm
  · have hs := List.getElem?_eq_getElem (Nat.lt_of_succ_lt hk)
    have ht := List.getElem?_eq_getElem hk
    rw [getElem?_segments_reachableBlocks] at hs ht
    obtain ⟨u, hu, hsu⟩ := Option.bind_eq_some_iff.1 hs
    obtain ⟨v, hv, htv⟩ := Option.bind_eq_some_iff.1 ht
    obtain rfl : v = u + 1 := Keeps.next_eq hd hu hv hsu (.inl he)
    obtain ⟨hu', hsu⟩ := List.getElem?_eq_some_iff.1 hsu
    obtain ⟨hv', htv⟩ := List.getElem?_eq_some_iff.1 htv
    have hjoin : g.segments.IsChain Joins := hd.segments ▸ isChain_cut none [] f.instrs
    have hlabel := List.isChain_iff_getElem.1 hjoin u hv'
    rw [hsu, htv] at hlabel
    exact hlabel he

/-- **What is left of a function has a graph.** -/
theorem exists_ofFunc_pruned (h : ofFunc f = .ok g) : ∃ g', ofFunc (f.pruned g) = .ok g' := by
  have hd := describes_of_ofFunc h
  have hmarks : (f.pruned g).marks = g.reachableBlocks.filterMap Block.label := by
    rw [← labels_cut, cut_pruned h, List.filterMap_map]
    rfl
  refine exists_ofFunc ?_ fun s hs l hl => ?_
  · have hsub : (g.reachableBlocks.filterMap Block.label).Sublist f.marks :=
      hd.labels ▸ g.reachableBlocks_sublist.filterMap _
    exact hmarks ▸ hsub.nodup hd.distinct
  · rw [cut_pruned h] at hs
    obtain ⟨b, hb, rfl⟩ := List.mem_map.1 hs
    obtain ⟨u, hu, hbu⟩ := List.mem_filterMap.1 hb
    obtain ⟨i, hi, hil⟩ := Option.bind_eq_some_iff.1 hl
    obtain ⟨v, c, hc, hcl, he⟩ := hd.target hbu hi hil
    have hv := reachable_closed hu he (List.getElem?_eq_some_iff.1 hc).1
    rw [hmarks]
    exact List.mem_filterMap.2 ⟨c, List.mem_filterMap.2 ⟨v, hv, hc⟩, hcl⟩

/-! ### The graph of what is left -/

section

variable {g' : FlowGraph} (h : ofFunc f = .ok g) (h' : ofFunc (f.pruned g) = .ok g')

include h h'

theorem getElem?_segments_pruned (k : Nat) : g'.segments[k]? = g.reachable[k]?.bind fun u => g.segments[u]? := by
  rw [(describes_of_ofFunc h').segments, cut_pruned h, getElem?_segments_reachableBlocks]

theorem Keeps.segment (hk : g.Keeps k u) : g'.segments[k]? = g.segments[u]? := by
  rw [getElem?_segments_pruned h h', show g.reachable[k]? = some u from hk]
  rfl

/-- The places of the blocks that are kept are the numbers of the blocks that are left. -/
theorem lt_length_pruned : k < g'.blocks.length ↔ ∃ u, g.Keeps k u := by
  have hlen : k < g'.blocks.length ↔ ∃ s, g'.segments[k]? = some s := by
    rw [← Option.isSome_iff_exists]
    simp [segments]
  rw [hlen, getElem?_segments_pruned h h']
  constructor
  · rintro ⟨s, hs⟩
    obtain ⟨u, hu, -⟩ := Option.bind_eq_some_iff.1 hs
    exact ⟨u, hu⟩
  · rintro ⟨u, hu⟩
    rw [show g.reachable[k]? = some u from hu, Option.bind_some, getElem?_segments,
      List.getElem?_eq_getElem (mem_reachable.1 hu.mem).1]
    exact ⟨_, rfl⟩

/-- **The edges that are left** are those between blocks that are kept. -/
theorem mem_edges_pruned (hj : g.Keeps j u) (hk : g.Keeps k v) : (j, k) ∈ g'.edges ↔ (u, v) ∈ g.edges := by
  rw [mem_edges_iff h', mem_edges_iff h]
  unfold Leads
  rw [hj.segment h h', hk.segment h h']
  have hnext : ∀ s, g.segments[u]? = some s → s.ending = .fallsThrough ∨ s.ending = .branches →
      (k = j + 1 ↔ v = u + 1) := by
    intro s hs hend
    constructor
    · rintro rfl
      exact hj.next_eq (describes_of_ofFunc h) hk hs hend
    · rintro rfl
      exact hk.place_unique (hj.next hk.mem)
  constructor
  · rintro ⟨s, t, hs, ht, ⟨hend, hkj⟩ | hl⟩
    · exact ⟨s, t, hs, ht, .inl ⟨hend, (hnext s hs hend).1 hkj⟩⟩
    · exact ⟨s, t, hs, ht, .inr hl⟩
  · rintro ⟨s, t, hs, ht, ⟨hend, hvu⟩ | hl⟩
    · exact ⟨s, t, hs, ht, .inl ⟨hend, (hnext s hs hend).2 hvu⟩⟩
    · exact ⟨s, t, hs, ht, .inr hl⟩

theorem blocks_pruned_eq_nil : g'.blocks = [] ↔ g.blocks = [] := by
  have hpos : 0 < g'.blocks.length ↔ ∃ u, g.Keeps 0 u := lt_length_pruned h h'
  constructor
  · intro hnil
    by_contra hne
    rw [hnil] at hpos
    exact absurd (hpos.2 ⟨0, keeps_entry hne⟩) (Nat.lt_irrefl 0)
  · intro hnil
    by_contra hne
    obtain ⟨u, hu⟩ := hpos.1 (List.length_pos_iff.2 hne)
    have hlt := (mem_reachable.1 hu.mem).1
    rw [hnil] at hlt
    exact absurd hlt (Nat.not_lt_zero u)

/-- **All that is left is reachable.** -/
theorem reachable_pruned : g'.reachable = List.range g'.blocks.length := by
  have hpath : ∀ {u : Nat}, Relation.ReflTransGen (fun v w => (v, w) ∈ g.edges) 0 u →
      ∀ k, g.Keeps k u → Relation.ReflTransGen (fun v w => (v, w) ∈ g'.edges) 0 k := by
    intro u hu
    induction hu with
    | refl =>
      intro k hk
      rw [hk.entry]
    | @tail v w hv he ih =>
      intro k hk
      obtain ⟨hlt, -, -⟩ := (mem_edges_iff_passes h).1 he
      obtain ⟨j, hj⟩ := exists_keeps (mem_reachable_iff.2 ⟨hlt, hv⟩)
      exact (ih j hj).tail ((mem_edges_pruned h h' hj hk).2 he)
  have hmem : ∀ k ∈ List.range g'.blocks.length, k ∈ g'.reachable := by
    intro k hk
    obtain ⟨u, hu⟩ := (lt_length_pruned h h').1 (List.mem_range.1 hk)
    exact mem_reachable_iff.2 ⟨List.mem_range.1 hk, hpath (mem_reachable_iff.1 hu.mem).2 k hu⟩
  unfold reachable
  rw [List.filter_eq_self]
  intro k hk
  exact decide_eq_true (mem_reachable.1 (hmem k hk)).2

end

end FlowGraph

/-! ### Live sets -/

/-- The live sets around steps follow from the instructions and what is live after them. -/
theorem Step.Chained.unique {after : TempSet} {ss ts : List Step} (hs : Step.Chained after ss)
    (ht : Step.Chained after ts) (h : ss.map Step.instr = ts.map Step.instr) : ss = ts := by
  induction ss generalizing ts with
  | nil => exact (List.map_eq_nil_iff.1 h.symm).symm
  | cons s ss ih =>
    obtain ⟨t, ts, rfl, hinstr, hmap⟩ := List.map_eq_cons_iff.1 h.symm
    obtain ⟨hin, hout, hs⟩ := hs
    obtain ⟨hin', hout', ht⟩ := ht
    obtain rfl := ih hs ht hmap.symm
    have hout'' : t.liveOut = s.liveOut := hout'.trans hout.symm
    have hin'' : t.liveIn = s.liveIn := by rw [hin', hin, hinstr, hout'']
    cases s
    cases t
    cases hinstr
    cases hin''
    cases hout''
    rfl

namespace FlowGraph

variable {f : Func} {g h : FlowGraph} {b c : Block} {t : Temp} {is js ks : List Instr} {k u v : Nat}

/-- Paths of `g` lead through `h`, if `h` has the edges and blocks that are needed, under other numbers. -/
theorem Path.renumber {S : Nat → Nat → Prop}
    (hS : ∀ {u u' w b}, S u u' → (u, w) ∈ g.edges → g.blocks[w]? = some b →
      ∃ w' c, S w w' ∧ (u', w') ∈ h.edges ∧ h.blocks[w']? = some c ∧ c.instrs = b.instrs)
    (hp : g.Path u is js v ks) {u' : Nat} (hu : S u u') : ∃ v', h.Path u' is js v' ks := by
  induction hp generalizing u' with
  | refl => exact ⟨u', .refl⟩
  | step _ ih =>
    obtain ⟨v', hv'⟩ := ih hu
    exact ⟨v', hv'.step⟩
  | edge he hb _ ih =>
    obtain ⟨w', c, hw, he', hc, hinstrs⟩ := hS hu he hb
    obtain ⟨v', hv'⟩ := ih hw
    exact ⟨v', .edge he' hc (hinstrs ▸ hv')⟩

theorem Live.renumber {S : Nat → Nat → Prop}
    (hS : ∀ {u u' w b}, S u u' → (u, w) ∈ g.edges → g.blocks[w]? = some b →
      ∃ w' c, S w w' ∧ (u', w') ∈ h.edges ∧ h.blocks[w']? = some c ∧ c.instrs = b.instrs)
    {u' : Nat} (hu : S u u') (hl : g.Live u is t) : h.Live u' is t := by
  obtain ⟨js, v, i, ks, hpath, hread⟩ := hl
  obtain ⟨v', hpath'⟩ := hpath.renumber hS hu
  exact ⟨js, v', i, ks, hpath', hread⟩

/-- **At every point of a reachable block, the live set after the analysis is what is live there.** -/
theorem mem_before_withLiveness (hok : ofFunc f = .ok g) (hu : u ∈ g.reachable)
    (hb : g.withLiveness.blocks[u]? = some b) {done todo : List Step} (hsteps : b.steps = done ++ todo) :
    t ∈ Step.before b.liveOut todo ↔ g.withLiveness.Live u (todo.map Step.instr) t := by
  have hbare := bare_of_ofFunc hok
  obtain ⟨hsegs, hedges, hset⟩ := settled_withLiveness hbare
  have htrue : g.withLiveness.Truthful :=
    ((rounds_analyze hbare).truthful (truthful_of_bare hbare)).annotateAll (nodup_reachable g)
  refine hset.mem_before_iff htrue ?_ (reachable_congr hsegs hedges ▸ hu) hb hsteps
  rintro ⟨v, w⟩ he
  rw [hedges] at he
  rw [length_of_segments hsegs]
  exact ((mem_edges_iff_passes hok).1 he).2.1

section

variable {g' : FlowGraph} (hok : ofFunc f = .ok g) (hok' : ofFunc (f.pruned g) = .ok g')

include hok hok'

/-- A block that is kept stays as it was, live sets apart. -/
theorem Keeps.exists_blocks (hk : g.Keeps k u) : ∃ b c, g.withLiveness.blocks[u]? = some b ∧
    g'.withLiveness.blocks[k]? = some c ∧ c.segment = b.segment := by
  obtain ⟨hsegs, -, -⟩ := settled_withLiveness (bare_of_ofFunc hok)
  obtain ⟨hsegs', -, -⟩ := settled_withLiveness (bare_of_ofFunc hok')
  have hseg := hk.segment hok hok'
  rw [← hsegs, ← hsegs'] at hseg
  have hu : u < g.withLiveness.blocks.length := length_of_segments hsegs ▸ (mem_reachable.1 hk.mem).1
  have hb := List.getElem?_eq_getElem hu
  rw [getElem?_segments_eq_some.2 ⟨_, hb, rfl⟩] at hseg
  obtain ⟨c, hc, hcb⟩ := getElem?_segments_eq_some.1 hseg
  exact ⟨_, c, hb, hc, hcb⟩

/-- What is live in a block that is kept is what was live in it. -/
theorem Keeps.live_iff (hk : g.Keeps k u) : g.withLiveness.Live u is t ↔ g'.withLiveness.Live k is t := by
  obtain ⟨-, hedges, -⟩ := settled_withLiveness (bare_of_ofFunc hok)
  obtain ⟨-, hedges', -⟩ := settled_withLiveness (bare_of_ofFunc hok')
  constructor
  · refine Live.renumber (S := fun u k => g.Keeps k u) (fun {u k w b} hk he hb => ?_) hk
    rw [hedges] at he
    obtain ⟨m, hm⟩ := exists_keeps (reachable_closed hk.mem he ((mem_edges_iff_passes hok).1 he).2.1)
    obtain ⟨b', c, hb', hc, hseg⟩ := hm.exists_blocks hok hok'
    cases Option.some.inj (hb.symm.trans hb')
    rw [hedges']
    exact ⟨m, c, hm, (mem_edges_pruned hok hok' hk hm).2 he, hc, congrArg Segment.instrs hseg⟩
  · refine Live.renumber (S := fun k u => g.Keeps k u) (fun {k u m c} hk he hc => ?_) hk
    rw [hedges'] at he
    obtain ⟨w, hw⟩ := (lt_length_pruned hok hok').1 ((mem_edges_iff_passes hok').1 he).2.1
    obtain ⟨b, c', hb, hc', hseg⟩ := hw.exists_blocks hok hok'
    cases Option.some.inj (hc.symm.trans hc')
    rw [hedges]
    exact ⟨w, b, hw, (mem_edges_pruned hok hok' hk hw).1 he, hb, (congrArg Segment.instrs hseg).symm⟩

/-- **A block that is kept has the live sets that it had.** -/
theorem Keeps.block (hk : g.Keeps k u) (hb : g.withLiveness.blocks[u]? = some b)
    (hc : g'.withLiveness.blocks[k]? = some c) : c = { b with id := c.id } := by
  obtain ⟨hsegs, hedges, hset⟩ := settled_withLiveness (bare_of_ofFunc hok)
  obtain ⟨hsegs', hedges', hset'⟩ := settled_withLiveness (bare_of_ofFunc hok')
  have hk' : k ∈ g'.reachable := by
    rw [reachable_pruned hok hok', List.mem_range, lt_length_pruned hok hok']
    exact ⟨u, hk⟩
  have hu : u ∈ g.withLiveness.reachable := reachable_congr hsegs hedges ▸ hk.mem
  have hku : k ∈ g'.withLiveness.reachable := reachable_congr hsegs' hedges' ▸ hk'
  obtain ⟨b', c', hb', hc', hseg⟩ := hk.exists_blocks hok hok'
  cases Option.some.inj (hb.symm.trans hb')
  cases Option.some.inj (hc.symm.trans hc')
  have hout : c.liveOut = b.liveOut := by
    rw [OrdSet.ext_iff_mem]
    intro t
    have hbt := mem_before_withLiveness hok hk.mem hb (t := t) (List.append_nil b.steps).symm
    have hct := mem_before_withLiveness hok' hk' hc (t := t) (List.append_nil c.steps).symm
    exact hct.trans ((hk.live_iff hok hok').symm.trans hbt.symm)
  have hsteps : c.steps = b.steps :=
    Step.Chained.unique (hset'.chained hku hc) (hout ▸ hset.chained hu hb) (congrArg Segment.instrs hseg)
  have hin : c.liveIn = b.liveIn := by
    rw [← hset'.before hku hc, ← hset.before hu hb, hout, hsteps]
  have hending : c.ending = b.ending := congrArg Segment.ending hseg
  have hlabel : c.label = b.label := congrArg Segment.label hseg
  cases b
  cases c
  simp only at hout hsteps hin hending hlabel
  subst hout hsteps hin hending hlabel
  rfl

/-- **The reachable blocks are left, and nothing of them changes but their numbers.** -/
theorem reachableBlocks_pruned :
    g'.withLiveness.reachableBlocks.map Block.unnumbered = g.withLiveness.reachableBlocks.map Block.unnumbered := by
  obtain ⟨hsegs, hedges, -⟩ := settled_withLiveness (bare_of_ofFunc hok)
  obtain ⟨hsegs', hedges', -⟩ := settled_withLiveness (bare_of_ofFunc hok')
  apply List.ext_getElem?
  intro k
  rw [List.getElem?_map, List.getElem?_map, getElem?_reachableBlocks, getElem?_reachableBlocks,
    reachable_congr hsegs hedges, reachable_congr hsegs' hedges', reachable_pruned hok hok']
  cases hk : g.reachable[k]? with
  | none =>
    have hlen : ¬ k < g'.blocks.length := by
      rw [lt_length_pruned hok hok']
      rintro ⟨u, hu⟩
      exact absurd (hk.symm.trans hu) (by simp)
    rw [List.getElem?_eq_none (by simpa using hlen)]
    rfl
  | some u =>
    obtain ⟨b, c, hb, hc, -⟩ := Keeps.exists_blocks hok hok' hk
    have hlen : k < g'.blocks.length := (lt_length_pruned hok hok').2 ⟨u, hk⟩
    rw [List.getElem?_range hlen, Option.bind_some, Option.bind_some, hb, hc, Keeps.block hok hok' hk hb hc]
    rfl

theorem liveIn_entry_pruned :
    g'.withLiveness.blocks.head?.map Block.liveIn = g.withLiveness.blocks.head?.map Block.liveIn := by
  by_cases hne : g.blocks = []
  · have hnil : ∀ {h : FlowGraph}, h.withLiveness.segments = h.segments → h.blocks = [] → h.withLiveness.blocks = [] :=
      fun hsegs hnil => List.map_eq_nil_iff.1 (hsegs.trans (List.map_eq_nil_iff.2 hnil))
    rw [hnil (settled_withLiveness (bare_of_ofFunc hok)).1 hne,
      hnil (settled_withLiveness (bare_of_ofFunc hok')).1 ((blocks_pruned_eq_nil hok hok').2 hne)]
  · obtain ⟨b, c, hb, hc, -⟩ := (keeps_entry hne).exists_blocks hok hok'
    rw [List.head?_eq_getElem?, List.head?_eq_getElem?, hb, hc, (keeps_entry hne).block hok hok' hb hc]
    rfl

end

end FlowGraph

end ThreeAddress
