import Mathlib.Data.List.Forall2
import Mathlib.Data.List.Perm.Subperm
import ThreeAddress.Liveness
import ThreeAddress.Proofs.FlowGraph.Split

/-!
What the liveness analysis leaves behind.  Around the steps of a block, what is live after one is what is live before
the next (`Step.Chained`).  Rounds over the blocks only add to the live sets, and only temporaries that are read
somewhere; so the bound on the rounds suffices (`FlowGraph.rounds_analyze`), and they end with sets that no block
changes (`FlowGraph.Stable`).

Main statement: the sets of a reachable block agree with its steps and with the blocks after it
(`FlowGraph.settled_withLiveness`).
-/

namespace ThreeAddress

/-! ### Within a block -/

theorem Instr.mem_liveBefore {i : Instr} {after : TempSet} {t : Temp} :
    t ∈ i.liveBefore after ↔ t ∈ after ∧ t ∉ i.defs ∨ t ∈ i.uses := by
  rw [liveBefore, OrdSet.mem_union, OrdSet.mem_diff, OrdSet.mem_ofList, OrdSet.mem_ofList]

/-- What is live before a list of steps, where `after` is live after it. -/
def Step.before (after : TempSet) : List Step → TempSet
  | [] => after
  | s :: _ => s.liveIn

/-- Around each step, the live sets follow from what is live after it. -/
def Step.Chained (after : TempSet) : List Step → Prop
  | [] => True
  | s :: rest => s.liveIn = s.instr.liveBefore s.liveOut ∧ s.liveOut = before after rest ∧ Chained after rest

theorem Step.annotate_eq (after : TempSet) (ss : List Step) :
    (annotate after ss).2 = before after (annotate after ss).1 ∧ Chained after (annotate after ss).1 ∧
      (annotate after ss).1.map Step.instr = ss.map Step.instr ∧
      (annotate after ss).2 = (ss.map Step.instr).foldr Instr.liveBefore after := by
  induction ss with
  | nil => exact ⟨rfl, trivial, rfl, rfl⟩
  | cons s ss ih =>
    obtain ⟨h₁, h₂, h₃, h₄⟩ := ih
    refine ⟨rfl, ⟨rfl, h₁, h₂⟩, ?_, ?_⟩
    · rw [List.map_cons, ← h₃]
      rfl
    · rw [List.map_cons, List.foldr_cons, ← h₄]
      rfl

theorem Step.Chained.liveOut_eq {after : TempSet} {done todo : List Step} {s : Step}
    (h : Chained after (done ++ todo)) (hs : done.getLast? = some s) : s.liveOut = before after todo := by
  induction done with
  | nil => simp at hs
  | cons u done ih =>
    obtain ⟨-, hout, hrest⟩ := h
    rw [List.getLast?_cons] at hs
    cases hl : done.getLast? with
    | none =>
      rw [hl] at hs
      cases Option.some.inj hs
      rw [List.getLast?_eq_none_iff.1 hl] at hout
      exact hout
    | some w =>
      rw [hl] at hs
      cases Option.some.inj hs
      exact ih hrest hl

namespace Block

/-- A summary extended by an instruction stands for the instruction before what the summary is used for. -/
theorem Summary.before_step (s : Summary) (i : Instr) (after : TempSet) :
    (s.step i).before after = s.before (i.liveBefore after) := by
  rw [OrdSet.ext_iff_mem]
  intro t
  simp only [before, step, Instr.mem_liveBefore, OrdSet.mem_union, OrdSet.mem_diff, OrdSet.mem_ofList]
  tauto

theorem Summary.before_foldl (is : List Instr) (s : Summary) (after : TempSet) :
    (is.foldl step s).before after = s.before (is.foldr Instr.liveBefore after) := by
  induction is generalizing s with
  | nil => rfl
  | cons i is ih => rw [List.foldl_cons, ih, before_step, List.foldr_cons]

/-- What is live before a block, instruction by instruction. -/
theorem before_summary (b : Block) (after : TempSet) :
    b.summary.before after = b.instrs.foldr Instr.liveBefore after := by
  rw [summary, Summary.before_foldl, OrdSet.ext_iff_mem]
  intro t
  simp [Summary.before]

end Block

/-! ### Sets -/

namespace OrdSet

variable {α : Type} [LT α] [Ordered α] {s t : OrdSet α}

theorem nodup_toList (s : OrdSet α) : s.toList.Nodup :=
  s.ascending.imp fun h e => absurd (e ▸ h) (Ordered.lt_irrefl _)

theorem size_le_length {l : List α} (h : ∀ x ∈ s, x ∈ l) : s.size ≤ l.length :=
  ((nodup_toList s).subperm h).length_le

/-- A set that contains another is equal to it or larger. -/
theorem eq_or_size_lt (h : ∀ x ∈ s, x ∈ t) : s = t ∨ s.size < t.size := by
  by_cases hlt : s.size < t.size
  · exact .inr hlt
  · have hsub := (nodup_toList s).subperm (show s.toList ⊆ t.toList from h)
    have hperm := hsub.perm_of_length_le (Nat.le_of_not_lt hlt)
    exact .inl (ext_iff_mem.2 fun x => hperm.mem_iff)

end OrdSet

/-! ### One block of a graph -/

namespace Block

/-- The block with its live sets recomputed, from what is live after it. -/
def relaxed (after : TempSet) (b : Block) : Block := { b with liveIn := b.summary.before after, liveOut := after }

def bare (b : Block) : Block := { b with liveIn := ∅, liveOut := ∅ }

/-- The live sets of `c` contain those of `b`. -/
def Below (b c : Block) : Prop := (∀ t ∈ b.liveIn, t ∈ c.liveIn) ∧ ∀ t ∈ b.liveOut, t ∈ c.liveOut

theorem Below.refl (b : Block) : Below b b := ⟨fun _ h => h, fun _ h => h⟩

theorem Below.trans {b c d : Block} (h : Below b c) (h' : Below c d) : Below b d :=
  ⟨fun t ht => h'.1 t (h.1 t ht), fun t ht => h'.2 t (h.2 t ht)⟩

theorem Summary.before_mono (s : Summary) {after after' : TempSet} (h : ∀ t ∈ after, t ∈ after') :
    ∀ t ∈ s.before after, t ∈ s.before after' := by
  intro t ht
  simp only [before, OrdSet.mem_union, OrdSet.mem_diff] at ht ⊢
  exact ht.imp_left fun hm => ⟨h t hm.1, hm.2⟩

theorem below_relaxed (b : Block) {after after' : TempSet} (h : ∀ t ∈ after, t ∈ after') :
    Below (b.relaxed after) (b.relaxed after') :=
  ⟨b.summary.before_mono h, h⟩

theorem mem_uses_of_before {b : Block} {after : TempSet} {t : Temp} (h : t ∈ b.summary.before after) :
    t ∈ after ∨ t ∈ b.instrs.flatMap Instr.uses := by
  rw [before_summary] at h
  generalize b.instrs = is at h ⊢
  induction is with
  | nil => exact .inl h
  | cons i is ih =>
    rw [List.foldr_cons, Instr.mem_liveBefore] at h
    rw [List.flatMap_cons, List.mem_append]
    rcases h with ⟨h, -⟩ | h
    · exact (ih h).imp_right .inr
    · exact .inr (.inl h)

theorem instrs_annotate (b : Block) : b.annotate.instrs = b.instrs := (Step.annotate_eq b.liveOut b.steps).2.2.1

end Block

namespace FlowGraph

variable {g g' h : FlowGraph} {u v : Nat} {b c : Block} {t : Temp}

theorem eq_of_getElem? (hb : ∀ v : Nat, h.blocks[v]? = g.blocks[v]?) (he : h.edges = g.edges) : h = g := by
  obtain ⟨bs, es⟩ := g
  obtain ⟨cs, fs⟩ := h
  exact congrArg₂ FlowGraph.mk (List.ext_getElem? hb) he

theorem getElem?_update (g : FlowGraph) (u v : Nat) (f : Block → Block) :
    (g.update u f).blocks[v]? = if u = v then g.blocks[v]?.map f else g.blocks[v]? := by
  unfold update
  rw [List.getElem?_modify]
  cases g.blocks[v]? <;> split <;> rfl

theorem getElem?_relax (g : FlowGraph) (u v : Nat) :
    (g.relax u).blocks[v]? = if u = v then g.blocks[v]?.map (Block.relaxed (g.joinAfter u)) else g.blocks[v]? :=
  getElem?_update g u v (Block.relaxed (g.joinAfter u))

theorem edges_relax (g : FlowGraph) (u : Nat) : (g.relax u).edges = g.edges := rfl

theorem mem_joinAfter : t ∈ g.joinAfter u ↔ ∃ v ∈ g.succ u, ∃ b, g.blocks[v]? = some b ∧ t ∈ b.liveIn := by
  unfold joinAfter
  rw [show (∃ v ∈ g.succ u, ∃ b, g.blocks[v]? = some b ∧ t ∈ b.liveIn) ↔
    ∃ v ∈ (g.succ u).toList, ∃ b, g.blocks[v]? = some b ∧ t ∈ b.liveIn from Iff.rfl]
  induction (g.succ u).toList with
  | nil => simp
  | cons v l ih =>
    rw [List.foldr_cons, OrdSet.mem_union, ih]
    simp only [List.mem_cons, exists_eq_or_imp]
    refine or_congr_left ?_
    cases g.blocks[v]? <;> simp

theorem mem_ends {near far : Nat × Nat → Nat} {es : List (Nat × Nat)} :
    v ∈ OrdSet.ofList (es.filterMap fun e => if near e = u then some (far e) else none) ↔
      ∃ e ∈ es, near e = u ∧ far e = v := by
  rw [OrdSet.mem_ofList, List.mem_filterMap]
  refine exists_congr fun e => and_congr_right fun _ => ?_
  by_cases h : near e = u <;> simp [h]

theorem mem_succ : v ∈ g.succ u ↔ (u, v) ∈ g.edges := by
  rw [succ, mem_ends]
  constructor
  · rintro ⟨⟨x, y⟩, he, rfl, rfl⟩
    exact he
  · intro he
    exact ⟨(u, v), he, rfl, rfl⟩

theorem mem_pred : u ∈ g.pred v ↔ (u, v) ∈ g.edges := by
  rw [pred, mem_ends]
  constructor
  · rintro ⟨⟨x, y⟩, he, rfl, rfl⟩
    exact he
  · intro he
    exact ⟨(u, v), he, rfl, rfl⟩

/-! ### Rounds -/

def bare (g : FlowGraph) : FlowGraph := { g with blocks := g.blocks.map Block.bare }

theorem bare_relax (g : FlowGraph) (u : Nat) : (g.relax u).bare = g.bare := by
  unfold bare
  congr 1
  apply List.ext_getElem?
  intro v
  rw [List.getElem?_map, List.getElem?_map, getElem?_relax]
  split
  · cases g.blocks[v]? <;> rfl
  · rfl

theorem length_of_bare (hb : h.bare = g.bare) : h.blocks.length = g.blocks.length := by
  have := congrArg (fun g => g.blocks.length) hb
  simpa [bare] using this

theorem edges_of_bare (hb : h.bare = g.bare) : h.edges = g.edges := by
  have he : h.bare.edges = g.bare.edges := by rw [hb]
  exact he

/-- The live sets of `h` contain those of `g`. -/
def Below (g h : FlowGraph) : Prop :=
  ∀ ⦃u : Nat⦄ ⦃b c : Block⦄, g.blocks[u]? = some b → h.blocks[u]? = some c → Block.Below b c

theorem joinAfter_mono (hb : Below g h) (hbare : h.bare = g.bare) : ∀ t ∈ g.joinAfter u, t ∈ h.joinAfter u := by
  intro t ht
  obtain ⟨v, hv, b, hgb, hbt⟩ := mem_joinAfter.1 ht
  have hlt : v < h.blocks.length := length_of_bare hbare ▸ (List.getElem?_eq_some_iff.1 hgb).1
  have hc := List.getElem?_eq_getElem hlt
  have hedge : (u, v) ∈ h.edges := edges_of_bare hbare ▸ mem_succ.1 hv
  exact mem_joinAfter.2 ⟨v, mem_succ.2 hedge, _, hc, (hb hgb hc).1 t hbt⟩

/-- No set is larger than what a round makes of it, and all are within `U`. -/
structure Rising (U : List Temp) (g : FlowGraph) : Prop where
  up : ∀ {u : Nat} {b : Block}, g.blocks[u]? = some b → Block.Below b (b.relaxed (g.joinAfter u))
  within : ∀ {u : Nat} {b : Block}, g.blocks[u]? = some b → ∀ t, t ∈ b.liveIn ∨ t ∈ b.liveOut → t ∈ U
  uses : ∀ {u : Nat} {b : Block}, g.blocks[u]? = some b → ∀ t ∈ b.instrs.flatMap Instr.uses, t ∈ U

variable {U : List Temp}

theorem Rising.below_relax (hr : Rising U g) (u : Nat) : Below g (g.relax u) := by
  intro v b c hb hc
  rw [getElem?_relax] at hc
  split at hc
  · rename_i huv
    rw [hb] at hc
    cases Option.some.inj hc
    subst huv
    exact hr.up hb
  · rw [hb] at hc
    cases Option.some.inj hc
    exact .refl b

theorem Rising.relax (hr : Rising U g) (u : Nat) : Rising U (g.relax u) where
  up := by
    intro v c hc
    have hmono := joinAfter_mono (u := v) (hr.below_relax u) (bare_relax g u)
    rw [getElem?_relax] at hc
    split at hc
    · rename_i huv
      obtain ⟨b, hb, rfl⟩ := Option.map_eq_some_iff.1 hc
      subst huv
      exact b.below_relaxed hmono
    · exact (hr.up hc).trans (c.below_relaxed hmono)
  within := by
    intro v c hc t ht
    rw [getElem?_relax] at hc
    split at hc
    · obtain ⟨b, hb, rfl⟩ := Option.map_eq_some_iff.1 hc
      have hjoin : ∀ t ∈ g.joinAfter u, t ∈ U := by
        intro t ht
        obtain ⟨w, -, d, hd, hdt⟩ := mem_joinAfter.1 ht
        exact hr.within hd t (.inl hdt)
      rcases ht with ht | ht
      · exact (Block.mem_uses_of_before ht).elim (hjoin t) (hr.uses hb t)
      · exact hjoin t ht
    · exact hr.within hc t ht
  uses := by
    intro v c hc t ht
    rw [getElem?_relax] at hc
    split at hc
    · obtain ⟨b, hb, rfl⟩ := Option.map_eq_some_iff.1 hc
      exact hr.uses hb t ht
    · exact hr.uses hc t ht

variable {ids : List Nat}

theorem sweep_cons (g : FlowGraph) (u : Nat) (ids : List Nat) : g.sweep (u :: ids) = (g.sweep ids).relax u := rfl

theorem bare_sweep (g : FlowGraph) (ids : List Nat) : (g.sweep ids).bare = g.bare := by
  induction ids with
  | nil => rfl
  | cons u ids ih => rw [sweep_cons, bare_relax, ih]

theorem Rising.sweep (hr : Rising U g) (ids : List Nat) : Rising U (g.sweep ids) := by
  induction ids with
  | nil => exact hr
  | cons u ids ih => exact ih.relax u

theorem Rising.below_sweep (hr : Rising U g) (ids : List Nat) : Below g (g.sweep ids) := by
  induction ids with
  | nil =>
    intro u b c hb hc
    cases Option.some.inj (hb.symm.trans hc)
    exact .refl b
  | cons u ids ih =>
    intro v b c hb hc
    have hlt : v < (g.sweep ids).blocks.length :=
      length_of_bare (bare_sweep g ids) ▸ (List.getElem?_eq_some_iff.1 hb).1
    have hd := List.getElem?_eq_getElem hlt
    exact (ih hb hd).trans ((hr.sweep ids).below_relax u hd hc)

/-! ### The end of the rounds -/

def weight (ls : List (TempSet × TempSet)) : Nat := ls.foldr (fun p n => p.1.size + p.2.size + n) 0

/-- Sets that contain others are the same or larger in total. -/
theorem eq_or_weight_lt {ls ms : List (TempSet × TempSet)}
    (h : List.Forall₂ (fun p q => (∀ t ∈ p.1, t ∈ q.1) ∧ ∀ t ∈ p.2, t ∈ q.2) ls ms) :
    ms = ls ∨ weight ls < weight ms := by
  induction h with
  | nil => exact .inl rfl
  | @cons p q ls ms hpq _ ih =>
    obtain ⟨p₁, p₂⟩ := p
    obtain ⟨q₁, q₂⟩ := q
    obtain ⟨hp₁ : ∀ t ∈ p₁, t ∈ q₁, hp₂ : ∀ t ∈ p₂, t ∈ q₂⟩ := hpq
    simp only [weight, List.foldr_cons] at ih ⊢
    rcases OrdSet.eq_or_size_lt hp₁ with rfl | h₁ <;> rcases OrdSet.eq_or_size_lt hp₂ with rfl | h₂ <;>
      rcases ih with rfl | h₃
    case inl.inl.inl => exact .inl rfl
    all_goals
      refine .inr ?_
      omega

theorem liveSets_le (hlen : g.blocks.length = h.blocks.length) (hb : Below g h) :
    h.liveSets = g.liveSets ∨ weight g.liveSets < weight h.liveSets := by
  refine eq_or_weight_lt ?_
  rw [liveSets, liveSets, List.forall₂_map_left_iff, List.forall₂_map_right_iff]
  refine List.forall₂_iff_get.2 ⟨hlen, fun i h₁ h₂ => ?_⟩
  exact hb (List.getElem?_eq_getElem h₁) (List.getElem?_eq_getElem h₂)

theorem Rising.weight_le (hr : Rising U g) : weight g.liveSets ≤ 2 * g.blocks.length * U.length := by
  have hb : ∀ b ∈ g.blocks, b.liveIn.size + b.liveOut.size ≤ 2 * U.length := by
    intro b hb
    obtain ⟨u, hu⟩ := List.mem_iff_getElem?.1 hb
    have h₁ := OrdSet.size_le_length fun t ht => hr.within hu t (.inl ht)
    have h₂ := OrdSet.size_le_length fun t ht => hr.within hu t (.inr ht)
    omega
  unfold weight liveSets
  generalize g.blocks = bs at hb
  induction bs with
  | nil => exact Nat.zero_le _
  | cons b bs ih =>
    have h₁ := hb b List.mem_cons_self
    have h₂ := ih fun c hc => hb c (List.mem_cons_of_mem b hc)
    simp only [List.map_cons, List.foldr_cons, List.length_cons]
    rw [Nat.mul_add, Nat.add_mul]
    omega

theorem eq_of_bare (hb : h.bare = g.bare) (hs : h.liveSets = g.liveSets) : h = g := by
  obtain ⟨bs, es⟩ := g
  obtain ⟨cs, fs⟩ := h
  simp only [bare, liveSets, FlowGraph.mk.injEq] at hb hs ⊢
  refine ⟨?_, hb.2⟩
  obtain ⟨hb, -⟩ := hb
  induction cs generalizing bs with
  | nil =>
    cases bs with
    | nil => rfl
    | cons b bs => simp at hb
  | cons c cs ih =>
    cases bs with
    | nil => simp at hb
    | cons b bs =>
      simp only [List.map_cons, List.cons.injEq, Prod.mk.injEq] at hb hs
      have hcb : c = b := by
        obtain ⟨⟨h₁, h₂⟩, -⟩ := hs
        obtain ⟨h₃, -⟩ := hb
        cases c; cases b
        simp_all [Block.bare]
      rw [hcb, ih bs hs.2 hb.2]

theorem getElem?_sweep_of_notMem (hv : v ∉ ids) : (g.sweep ids).blocks[v]? = g.blocks[v]? := by
  induction ids with
  | nil => rfl
  | cons u ids ih =>
    rw [List.mem_cons, not_or] at hv
    rw [sweep_cons, getElem?_relax, if_neg (Ne.symm hv.1), ih hv.2]

/-- Recomputing the live sets of one of the blocks changes nothing. -/
def Stable (ids : List Nat) (g : FlowGraph) : Prop := ∀ u ∈ ids, g.relax u = g

theorem Stable.relaxed_eq (hs : Stable ids g) (hu : u ∈ ids) (hb : g.blocks[u]? = some b) :
    b.relaxed (g.joinAfter u) = b := by
  have hrel := getElem?_relax g u u
  rw [if_pos rfl, hs u hu, hb] at hrel
  exact (Option.some.inj hrel).symm

/-- A round that changes nothing changes no block. -/
theorem stable_of_sweep (hn : ids.Nodup) (hs : g.sweep ids = g) : Stable ids g := by
  induction ids with
  | nil => exact fun u hu => by simp at hu
  | cons u ids ih =>
    obtain ⟨hu, hn⟩ := List.nodup_cons.1 hn
    rw [sweep_cons] at hs
    have hrest : g.sweep ids = g := by
      have hedges : ((g.sweep ids).relax u).edges = g.edges := congrArg FlowGraph.edges hs
      refine eq_of_getElem? (fun v => ?_) hedges
      by_cases hv : u = v
      · exact hv ▸ getElem?_sweep_of_notMem hu
      · have := getElem?_relax (g.sweep ids) u v
        rw [if_neg hv, hs] at this
        exact this.symm
    rw [hrest] at hs
    intro v hv
    rcases List.mem_cons.1 hv with rfl | hv
    · exact hs
    · exact ih hn hrest v hv

/-- Rounds over the blocks `ids` until one leaves all live sets as they are: `n` of them lead from `g` to `g'`. -/
inductive Rounds (ids : List Nat) : FlowGraph → Nat → FlowGraph → Prop
  | last {g : FlowGraph} : (g.sweep ids).liveSets = g.liveSets → Rounds ids g 1 (g.sweep ids)
  | more {g g' : FlowGraph} {n : Nat} : (g.sweep ids).liveSets ≠ g.liveSets → Rounds ids (g.sweep ids) n g' →
      Rounds ids g (n + 1) g'

namespace Rounds

variable {n : Nat}

theorem bare_eq (h : Rounds ids g n g') : g'.bare = g.bare := by
  induction h with
  | last => exact bare_sweep _ ids
  | more _ _ ih => exact ih.trans (bare_sweep _ ids)

/-- **The rounds end with stable sets.** -/
theorem stable (h : Rounds ids g n g') (hn : ids.Nodup) : Stable ids g' := by
  induction h with
  | last hs =>
    have he := eq_of_bare (bare_sweep _ ids) hs
    rw [he]
    exact stable_of_sweep hn he
  | more _ _ ih => exact ih

end Rounds

/-- **The rounds do end**: there is fuel enough if each set may grow to all of `U`. -/
theorem rounds_settle (hr : Rising U g) {fuel : Nat}
    (hf : 2 * g.blocks.length * U.length < weight g.liveSets + fuel) :
    Rounds ids g (settle ids fuel g).2 (settle ids fuel g).1 := by
  induction fuel generalizing g with
  | zero =>
    have := hr.weight_le
    omega
  | succ fuel ih =>
    rw [settle]
    split
    · rename_i hs
      exact .last hs
    · rename_i hs
      have hlen := length_of_bare (bare_sweep g ids)
      have hlt := (liveSets_le hlen.symm (hr.below_sweep ids)).resolve_left hs
      exact .more hs (ih (hr.sweep ids) (by rw [hlen]; omega))

/-- Fuel for the rounds that there are is enough. -/
theorem Rounds.settle_eq {n fuel : Nat} (hr : Rounds ids g n g') (hf : n ≤ fuel) : settle ids fuel g = (g', n) := by
  induction hr generalizing fuel with
  | last hs =>
    obtain ⟨fuel, rfl⟩ := Nat.exists_eq_add_one.2 (show 0 < fuel by omega)
    rw [settle, if_pos hs]
  | more hs _ ih =>
    obtain ⟨fuel, rfl⟩ := Nat.exists_eq_add_one.2 (show 0 < fuel by omega)
    rw [settle, if_neg hs, ih (Nat.le_of_add_le_add_right hf)]

/-! ### The whole analysis -/

theorem nodup_reachable (g : FlowGraph) : g.reachable.Nodup := List.nodup_range.filter _

theorem segments_of_bare (hb : h.bare = g.bare) : h.segments = g.segments := by
  have : ∀ g : FlowGraph, g.segments = g.bare.blocks.map Block.segment := fun g => by
    rw [segments, bare, List.map_map]
    rfl
  rw [this, this, hb]

theorem bare_of_ofFunc {f : Func} (hf : ofFunc f = .ok g) : g.bare = g := by
  have hblocks := (ofFunc_eq_ok hf).1
  have hmap : g.blocks.map Block.bare = g.blocks := by
    apply List.ext_getElem?
    intro u
    rw [List.getElem?_map, hblocks, getElem?_split, Option.map_map]
    rfl
  unfold bare
  rw [hmap]

theorem empty_of_bare (hb : g.bare = g) (hu : g.blocks[u]? = some b) : b.liveIn = ∅ ∧ b.liveOut = ∅ := by
  rw [← hb, bare, List.getElem?_map] at hu
  obtain ⟨c, -, rfl⟩ := Option.map_eq_some_iff.1 hu
  exact ⟨rfl, rfl⟩

theorem bare_of_empty (h : ∀ b ∈ g.blocks, b.liveIn = ∅ ∧ b.liveOut = ∅) : g.bare = g := by
  have hmap : g.blocks.map Block.bare = g.blocks := by
    conv_rhs => rw [← List.map_id g.blocks]
    apply List.map_congr_left
    intro b hb
    obtain ⟨hin, hout⟩ := h b hb
    cases b
    cases hin
    cases hout
    rfl
  rw [bare, hmap]

theorem rising_of_bare (hb : g.bare = g) : Rising (g.blocks.flatMap fun b => b.instrs.flatMap Instr.uses) g := by
  refine ⟨fun hu => ?_, fun hu t ht => ?_, fun hu t ht => ?_⟩
  · obtain ⟨h₁, h₂⟩ := empty_of_bare hb hu
    refine ⟨fun t ht => ?_, fun t ht => ?_⟩
    · rw [h₁] at ht
      exact absurd ht (OrdSet.not_mem_empty t)
    · rw [h₂] at ht
      exact absurd ht (OrdSet.not_mem_empty t)
  · obtain ⟨h₁, h₂⟩ := empty_of_bare hb hu
    rw [h₁, h₂] at ht
    exact ht.elim (fun h => absurd h (OrdSet.not_mem_empty t)) fun h => absurd h (OrdSet.not_mem_empty t)
  · exact List.mem_flatMap.2 ⟨_, List.mem_of_getElem? hu, ht⟩

def annotateAll (ids : List Nat) (g : FlowGraph) : FlowGraph := ids.foldl (fun g u => g.update u Block.annotate) g

theorem edges_annotateAll (ids : List Nat) (g : FlowGraph) : (annotateAll ids g).edges = g.edges := by
  induction ids generalizing g with
  | nil => rfl
  | cons u ids ih => exact ih (g.update u Block.annotate)

theorem getElem?_annotateAll (hn : ids.Nodup) (g : FlowGraph) (v : Nat) :
    (annotateAll ids g).blocks[v]? = if v ∈ ids then g.blocks[v]?.map Block.annotate else g.blocks[v]? := by
  induction ids generalizing g with
  | nil => rfl
  | cons u ids ih =>
    obtain ⟨hu, hn⟩ := List.nodup_cons.1 hn
    have hrec := ih hn (g.update u Block.annotate)
    rw [getElem?_update] at hrec
    refine hrec.trans ?_
    by_cases huv : u = v
    · subst huv
      rw [if_neg hu, if_pos rfl, if_pos List.mem_cons_self]
    · rw [if_neg huv]
      by_cases hv : v ∈ ids
      · rw [if_pos hv, if_pos (List.mem_cons_of_mem u hv)]
      · rw [if_neg hv, if_neg fun h => (List.mem_cons.1 h).elim (fun e => huv e.symm) hv]

theorem segment_annotate (b : Block) : b.annotate.segment = b.segment := by
  rw [Block.segment, b.instrs_annotate]
  rfl

theorem segments_annotateAll (hn : ids.Nodup) (g : FlowGraph) : (annotateAll ids g).segments = g.segments := by
  apply List.ext_getElem?
  intro v
  rw [segments, segments, List.getElem?_map, List.getElem?_map, getElem?_annotateAll hn]
  split
  · rw [Option.map_map]
    exact congrArg (Option.map · g.blocks[v]?) (funext segment_annotate)
  · rfl

/-- The live sets fit the code. -/
structure Settled (g : FlowGraph) : Prop where
  chained : ∀ {u : Nat} {b : Block}, u ∈ g.reachable → g.blocks[u]? = some b → Step.Chained b.liveOut b.steps
  before : ∀ {u : Nat} {b : Block}, u ∈ g.reachable → g.blocks[u]? = some b → Step.before b.liveOut b.steps = b.liveIn
  flows : ∀ {u v : Nat} {b c : Block}, u ∈ g.reachable → g.blocks[u]? = some b → (u, v) ∈ g.edges →
    g.blocks[v]? = some c → ∀ t ∈ c.liveIn, t ∈ b.liveOut

theorem withLiveness_eq (g : FlowGraph) :
    g.withLiveness = annotateAll g.reachable (settle g.reachable g.roundBound g).1 := rfl

theorem Rounds.analyze_eq {n : Nat} (hr : Rounds g.reachable g n g') (hn : n ≤ g.roundBound) :
    g.analyze = ⟨annotateAll g.reachable g', n⟩ := by
  unfold analyze
  simp only [hr.settle_eq hn]
  rfl

/-- The bound on the rounds suffices, from empty live sets. -/
theorem rounds_analyze (hb : g.bare = g) :
    Rounds g.reachable g g.analyze.rounds (settle g.reachable g.roundBound g).1 := by
  have hfuel : 2 * g.blocks.length * (g.blocks.flatMap fun b => b.instrs.flatMap Instr.uses).length <
      weight g.liveSets + g.roundBound := by
    unfold roundBound
    omega
  exact rounds_settle (rising_of_bare hb) hfuel

theorem reachable_congr (hs : h.segments = g.segments) (he : h.edges = g.edges) : h.reachable = g.reachable := by
  unfold reachable succ
  rw [he, length_of_segments hs]

/-- Rounds that end give live sets that fit the code and change nothing else, whatever the sets were before. -/
theorem Rounds.settled {n : Nat} {s : FlowGraph} (hr : Rounds g.reachable g n s) :
    (annotateAll g.reachable s).segments = g.segments ∧ (annotateAll g.reachable s).edges = g.edges ∧
      (annotateAll g.reachable s).Settled := by
  have hn := nodup_reachable g
  have hstable := hr.stable hn
  have hbare := hr.bare_eq
  have hsegs : (annotateAll g.reachable s).segments = g.segments :=
    (segments_annotateAll hn s).trans (segments_of_bare hbare)
  have hedges : (annotateAll g.reachable s).edges = g.edges :=
    (edges_annotateAll g.reachable s).trans (edges_of_bare hbare)
  have hreach := reachable_congr hsegs hedges
  refine ⟨hsegs, hedges, ?_⟩
  -- the sets of a reachable block are those that recomputing them gives
  have hsets : ∀ {u : Nat} {b : Block}, u ∈ g.reachable → (annotateAll g.reachable s).blocks[u]? = some b →
      ∃ c, s.blocks[u]? = some c ∧ b = c.annotate ∧ c = c.relaxed (s.joinAfter u) := by
    intro u b hu hbu
    rw [getElem?_annotateAll hn, if_pos hu] at hbu
    obtain ⟨c, hc, rfl⟩ := Option.map_eq_some_iff.1 hbu
    exact ⟨c, hc, rfl, (hstable.relaxed_eq hu hc).symm⟩
  refine ⟨fun hu hbu => ?_, fun hu hbu => ?_, fun {u v b d} hu hbu he hdv t ht => ?_⟩
  · obtain ⟨c, -, rfl, -⟩ := hsets (hreach ▸ hu) hbu
    exact (Step.annotate_eq c.liveOut c.steps).2.1
  · obtain ⟨c, -, rfl, hc⟩ := hsets (hreach ▸ hu) hbu
    obtain ⟨h₁, -, -, h₄⟩ := Step.annotate_eq c.liveOut c.steps
    have hin : c.liveIn = c.summary.before c.liveOut := by
      have h₅ := congrArg Block.liveIn hc
      have h₆ := congrArg Block.liveOut hc
      rw [h₆]
      exact h₅
    exact h₁.symm.trans (h₄.trans ((c.before_summary c.liveOut).symm.trans hin.symm))
  · obtain ⟨c, -, rfl, hc⟩ := hsets (hreach ▸ hu) hbu
    have hout : c.liveOut = s.joinAfter u := congrArg Block.liveOut hc
    obtain ⟨e, he', hin⟩ : ∃ e, s.blocks[v]? = some e ∧ d.liveIn = e.liveIn := by
      rw [getElem?_annotateAll hn] at hdv
      split at hdv
      · obtain ⟨e, he', rfl⟩ := Option.map_eq_some_iff.1 hdv
        exact ⟨e, he', rfl⟩
      · exact ⟨d, hdv, rfl⟩
    show t ∈ c.liveOut
    rw [hout]
    refine mem_joinAfter.2 ⟨v, mem_succ.2 ?_, e, he', hin ▸ ht⟩
    rw [edges_of_bare hbare, ← hedges]
    exact he

/-- **The analysis gives live sets that fit the code** and changes nothing else. -/
theorem settled_withLiveness (hb : g.bare = g) :
    g.withLiveness.segments = g.segments ∧ g.withLiveness.edges = g.edges ∧ g.withLiveness.Settled :=
  (rounds_analyze hb).settled

theorem describes_withLiveness {f : Func} (h : ofFunc f = .ok g) : g.withLiveness.Describes f := by
  obtain ⟨hsegs, hedges, -⟩ := settled_withLiveness (bare_of_ofFunc h)
  exact (describes_of_ofFunc h).congr hsegs hedges

/-! ### The instructions -/

def reachableInstrs (g : FlowGraph) : List Instr := g.reachableBlocks.flatMap Block.instrs

theorem mem_reachableInstrs {i : Instr} : i ∈ g.reachableInstrs ↔ ∃ b ∈ g.reachableBlocks, i ∈ b.instrs :=
  List.mem_flatMap

theorem reachableInstrs_withLiveness (hb : g.bare = g) : g.withLiveness.reachableInstrs = g.reachableInstrs := by
  obtain ⟨hsegs, hedges, -⟩ := settled_withLiveness hb
  have hinstrs : ∀ h : FlowGraph, h.reachableInstrs =
      (h.reachable.filterMap fun u => h.segments[u]?).flatMap Segment.instrs := by
    intro h
    have hmap : (h.reachable.filterMap fun u => h.segments[u]?) = h.reachableBlocks.map Block.segment := by
      rw [reachableBlocks, List.map_filterMap]
      exact congrArg (h.reachable.filterMap ·) (funext h.getElem?_segments)
    rw [hmap, List.flatMap_map]
    rfl
  rw [hinstrs, hinstrs, reachable_congr hsegs hedges, hsegs]

end FlowGraph

end ThreeAddress
