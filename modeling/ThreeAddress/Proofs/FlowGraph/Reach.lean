import Mathlib.Logic.Relation
import ThreeAddress.Proofs.Liveness

/-!
The reachable blocks.  The search has fuel enough to end with an empty stack (`searches_visit`), so the blocks found are
closed under edges, and they are those that a path of edges leads to (`mem_reachable_iff`).  They come in ascending
order, so a reachable block that control falls through to comes directly after the one it falls from
(`blocksFrom_of_mem`).
-/

namespace ThreeAddress

namespace FlowGraph

/-! ### The search -/

section

variable {next : Nat → List Nat} {es : List (Nat × Nat)}

theorem length_unseen (es : List (Nat × Nat)) {u : Nat} {seen : List Nat} (hu : u ∉ seen) :
    (es.filter fun e => e.1 = u).length + (es.filter fun e => e.1 ∉ u :: seen).length =
      (es.filter fun e => e.1 ∉ seen).length := by
  induction es with
  | nil => rfl
  | cons e es ih =>
    simp only [List.filter_cons, decide_eq_true_eq]
    by_cases he : e.1 = u
    · subst he
      simp only [if_true, hu, not_false_eq_true, List.mem_cons_self, not_true, if_false, List.length_cons]
      omega
    · have hmem : e.1 ∉ u :: seen ↔ e.1 ∉ seen := by simp [he]
      simp only [if_neg he, hmem]
      split
      · simp only [List.length_cons]
        omega
      · exact ih

theorem mem_push {u v : Nat} {stack seen : List Nat} :
    v ∈ push next u stack seen ↔ (v ∈ next u ∧ v ∉ seen) ∨ v ∈ stack := by
  rw [push, List.mem_append, List.mem_reverse, List.mem_filter, decide_eq_true_eq]

theorem length_push_le (next : Nat → List Nat) (u : Nat) (stack seen : List Nat) :
    (push next u stack seen).length ≤ (next u).length + stack.length := by
  rw [push, List.length_append, List.length_reverse]
  exact Nat.add_le_add_right (List.length_filter_le _ _) _

/-- The search with no bound on its turns: from the nodes on the stack and those seen, `n` turns end with an empty
stack, and the nodes found are those seen by then. -/
inductive Searches (next : Nat → List Nat) : List Nat → List Nat → Nat → List Nat → Prop
  | done {seen : List Nat} : Searches next [] seen 0 seen
  | again {u n : Nat} {stack seen found : List Nat} : u ∈ seen → Searches next stack seen n found →
      Searches next (u :: stack) seen (n + 1) found
  | enter {u n : Nat} {stack seen found : List Nat} : u ∉ seen →
      Searches next (push next u stack (u :: seen)) (u :: seen) n found → Searches next (u :: stack) seen (n + 1) found

/-- **The search ends**: there is fuel enough for the nodes on the stack and the edges not yet followed. -/
theorem searches_visit (hnext : ∀ u, (next u).length ≤ (es.filter fun e => e.1 = u).length) {fuel : Nat}
    {stack seen : List Nat} (hfuel : stack.length + (es.filter fun e => e.1 ∉ seen).length ≤ fuel) :
    ∃ n ≤ fuel, Searches next stack seen n (visit next fuel stack seen) := by
  induction fuel generalizing stack seen with
  | zero =>
    have hw : stack = [] := List.length_eq_zero_iff.1 (by omega)
    subst hw
    exact ⟨0, Nat.le_refl 0, .done⟩
  | succ fuel ih =>
    cases stack with
    | nil => exact ⟨0, Nat.zero_le _, .done⟩
    | cons u stack =>
      rw [List.length_cons] at hfuel
      rw [visit]
      split
      · rename_i hu
        have hfuel' : stack.length + (es.filter fun e => e.1 ∉ seen).length ≤ fuel := by omega
        obtain ⟨n, hn, hs⟩ := ih hfuel'
        exact ⟨n + 1, by omega, .again hu hs⟩
      · rename_i hu
        have hfuel' : (push next u stack (u :: seen)).length + (es.filter fun e => e.1 ∉ u :: seen).length ≤ fuel := by
          have hlen := length_unseen es hu
          have hpush := length_push_le next u stack (u :: seen)
          have hn := hnext u
          omega
        obtain ⟨n, hn, hs⟩ := ih hfuel'
        exact ⟨n + 1, by omega, .enter hu hs⟩

namespace Searches

variable {n : Nat} {stack seen found : List Nat}

/-- What is seen or on the stack is found. -/
theorem mem_found (h : Searches next stack seen n found) {u : Nat} (hu : u ∈ seen ∨ u ∈ stack) : u ∈ found := by
  induction h with
  | done => exact hu.resolve_right List.not_mem_nil
  | again hs _ ih =>
    apply ih
    rcases hu with hu | hu
    · exact .inl hu
    · rcases List.mem_cons.1 hu with rfl | hu
      · exact .inl hs
      · exact .inr hu
  | enter _ _ ih =>
    apply ih
    rcases hu with hu | hu
    · exact .inl (List.mem_cons_of_mem _ hu)
    · rcases List.mem_cons.1 hu with rfl | hu
      · exact .inl List.mem_cons_self
      · exact .inr (mem_push.2 (.inr hu))

/-- What the nodes found lead to is found, if the nodes seen lead to nodes that are seen or on the stack. -/
theorem closed (h : Searches next stack seen n found) (hseen : ∀ u ∈ seen, ∀ v ∈ next u, v ∈ seen ∨ v ∈ stack) :
    ∀ u ∈ found, ∀ v ∈ next u, v ∈ found := by
  induction h with
  | done =>
    intro u hu v hv
    exact (hseen u hu v hv).resolve_right List.not_mem_nil
  | again hs _ ih =>
    apply ih
    intro u hu v hv
    rcases hseen u hu v hv with h | h
    · exact .inl h
    · rcases List.mem_cons.1 h with rfl | h
      · exact .inl hs
      · exact .inr h
  | @enter w n stack seen found _ _ ih =>
    apply ih
    intro u hu v hv
    by_cases hv' : v ∈ w :: seen
    · exact .inl hv'
    rcases List.mem_cons.1 hu with rfl | hu
    · exact .inr (mem_push.2 (.inl ⟨hv, hv'⟩))
    · rcases hseen u hu v hv with h | h
      · exact absurd (List.mem_cons_of_mem w h) hv'
      · rcases List.mem_cons.1 h with rfl | h
        · exact .inl List.mem_cons_self
        · exact .inr (mem_push.2 (.inr h))

/-- Nothing is found but the nodes seen, those on the stack, and what these lead to. -/
theorem leads (h : Searches next stack seen n found) {u : Nat} (hu : u ∈ found) :
    u ∈ seen ∨ ∃ w ∈ stack, Relation.ReflTransGen (fun v w => w ∈ next v) w u := by
  induction h with
  | done => exact .inl hu
  | @again x n stack seen found _ _ ih =>
    rcases ih hu with h | ⟨w, hw, hpath⟩
    · exact .inl h
    · exact .inr ⟨w, List.mem_cons_of_mem x hw, hpath⟩
  | @enter x n stack seen found _ _ ih =>
    rcases ih hu with h | ⟨w, hw, hpath⟩
    · rcases List.mem_cons.1 h with rfl | h
      · exact .inr ⟨u, List.mem_cons_self, .refl⟩
      · exact .inl h
    · rcases mem_push.1 hw with ⟨hw, -⟩ | hw
      · exact .inr ⟨x, List.mem_cons_self, .head hw hpath⟩
      · exact .inr ⟨w, List.mem_cons_of_mem x hw, hpath⟩

end Searches

end

variable {g : FlowGraph} {u v : Nat}

theorem length_succ_le (g : FlowGraph) (u : Nat) :
    (g.succ u).toList.length ≤ (g.edges.filter fun e => e.1 = u).length := by
  have h : ∀ v ∈ g.succ u, v ∈ (g.edges.filter fun e => e.1 = u).map Prod.snd := by
    intro v hv
    exact List.mem_map.2 ⟨(u, v), List.mem_filter.2 ⟨mem_succ.1 hv, by simp⟩, rfl⟩
  have hle := OrdSet.size_le_length h
  rw [List.length_map] at hle
  exact hle

theorem mem_reachable : u ∈ g.reachable ↔
    u < g.blocks.length ∧ u ∈ visit (fun u => (g.succ u).toList) (g.edges.length + 1) [0] [] := by
  unfold reachable
  rw [List.mem_filter, List.mem_range]
  simp

/-- The search for reachable blocks turns to the entry, and to a block at most once for each edge. -/
theorem searches_reachable (g : FlowGraph) : ∃ n ≤ g.edges.length + 1,
    Searches (fun u => (g.succ u).toList) [0] [] n
      (visit (fun u => (g.succ u).toList) (g.edges.length + 1) [0] []) := by
  apply searches_visit (length_succ_le g)
  have := List.length_filter_le (fun e : Nat × Nat => decide (e.1 ∉ ([] : List Nat))) g.edges
  rw [List.length_singleton]
  omega

private theorem search_closed (g : FlowGraph) :
    0 ∈ visit (fun u => (g.succ u).toList) (g.edges.length + 1) [0] [] ∧
      ∀ u ∈ visit (fun u => (g.succ u).toList) (g.edges.length + 1) [0] [], ∀ v ∈ g.succ u,
        v ∈ visit (fun u => (g.succ u).toList) (g.edges.length + 1) [0] [] := by
  obtain ⟨n, -, hs⟩ := searches_reachable g
  exact ⟨hs.mem_found (.inr List.mem_cons_self), hs.closed fun u hu => absurd hu List.not_mem_nil⟩

theorem zero_mem_reachable (h : g.blocks ≠ []) : 0 ∈ g.reachable :=
  mem_reachable.2 ⟨List.length_pos_iff.2 h, (search_closed g).1⟩

/-- **The reachable blocks are closed under edges.** -/
theorem reachable_closed (hu : u ∈ g.reachable) (he : (u, v) ∈ g.edges) (hv : v < g.blocks.length) :
    v ∈ g.reachable :=
  mem_reachable.2 ⟨hv, (search_closed g).2 u (mem_reachable.1 hu).2 v (mem_succ.2 he)⟩

/-- **The reachable blocks are those that a path of edges leads to from the entry.** -/
theorem mem_reachable_iff : u ∈ g.reachable ↔
    u < g.blocks.length ∧ Relation.ReflTransGen (fun v w => (v, w) ∈ g.edges) 0 u := by
  rw [mem_reachable]
  refine and_congr Iff.rfl ⟨fun hu => ?_, fun hpath => ?_⟩
  · obtain ⟨n, -, hs⟩ := searches_reachable g
    rcases hs.leads hu with h | ⟨w, hw, hpath⟩
    · simp at h
    · rw [List.mem_singleton.1 hw] at hpath
      exact Relation.ReflTransGen.mono (fun v w h => mem_succ.1 h) _ _ hpath
  · induction hpath with
    | refl => exact (search_closed g).1
    | tail _ he ih => exact (search_closed g).2 _ ih _ (mem_succ.2 he)

/-! ### The order of the reachable blocks -/

def blocksFrom (g : FlowGraph) (u : Nat) : List Block :=
  (g.reachable.filter fun v => u ≤ v).filterMap fun v => g.blocks[v]?

theorem pairwise_reachable (g : FlowGraph) : g.reachable.Pairwise (· < ·) := List.pairwise_lt_range.filter _

theorem reachableBlocks_sublist (g : FlowGraph) : g.reachableBlocks.Sublist g.blocks := by
  have hall : (List.range g.blocks.length).filterMap (fun u => g.blocks[u]?) = g.blocks := by
    generalize g.blocks = bs
    induction bs with
    | nil => rfl
    | cons b bs ih =>
      rw [List.length_cons, List.range_succ_eq_map, List.filterMap_cons, List.filterMap_map]
      exact congrArg (b :: ·) ih
  have hsub : g.reachable.Sublist (List.range g.blocks.length) := List.filter_sublist
  have := hsub.filterMap fun u => g.blocks[u]?
  rw [hall] at this
  exact this

theorem getElem?_reachableBlocks (g : FlowGraph) (k : Nat) :
    g.reachableBlocks[k]? = g.reachable[k]?.bind fun u => g.blocks[u]? := by
  have hlist : ∀ (us : List Nat) (k : Nat), (∀ u ∈ us, u < g.blocks.length) →
      (us.filterMap fun u => g.blocks[u]?)[k]? = us[k]?.bind fun u => g.blocks[u]? := by
    intro us k hus
    induction us generalizing k with
    | nil => rfl
    | cons u us ih =>
      rw [List.filterMap_cons, List.getElem?_eq_getElem (hus u List.mem_cons_self)]
      cases k with
      | zero => exact (List.getElem?_eq_getElem _).symm
      | succ k => exact ih k fun v hv => hus v (List.mem_cons_of_mem u hv)
  exact hlist _ k fun u hu => (mem_reachable.1 hu).1

theorem filter_le_of_mem {l : List Nat} (hl : l.Pairwise (· < ·)) (hu : u ∈ l) :
    (l.filter fun v => u ≤ v) = u :: l.filter fun v => u + 1 ≤ v := by
  induction l with
  | nil => simp at hu
  | cons w l ih =>
    obtain ⟨hw, hl⟩ := List.pairwise_cons.1 hl
    rcases List.mem_cons.1 hu with rfl | hm
    · have habove : ∀ v ∈ l, u + 1 ≤ v := hw
      have hle : (l.filter fun v => u ≤ v) = l := List.filter_eq_self.2 fun v hv => by
        have := habove v hv
        simp only [decide_eq_true_eq]
        omega
      have hlt : (l.filter fun v => u + 1 ≤ v) = l := List.filter_eq_self.2 fun v hv => by
        simpa using habove v hv
      rw [List.filter_cons_of_pos (by simp), List.filter_cons_of_neg (by simp), hle, hlt]
    · have hwu := hw u hm
      rw [List.filter_cons_of_neg (by simp; omega), List.filter_cons_of_neg (by simp; omega), ih hl hm]

theorem filter_append_filter {l : List Nat} (hl : l.Pairwise (· < ·)) (u : Nat) :
    (l.filter fun v => v < u) ++ (l.filter fun v => u ≤ v) = l := by
  induction l with
  | nil => rfl
  | cons w l ih =>
    obtain ⟨hw, hl⟩ := List.pairwise_cons.1 hl
    by_cases hwu : w < u
    · rw [List.filter_cons_of_pos (by simpa using hwu), List.filter_cons_of_neg (by simp; omega), List.cons_append,
        ih hl]
    · have hnone : (l.filter fun v => v < u) = [] := List.filter_eq_nil_iff.2 fun v hv => by
        have := hw v hv
        simp only [decide_eq_true_eq]
        omega
      have hall : (l.filter fun v => u ≤ v) = l := List.filter_eq_self.2 fun v hv => by
        have := hw v hv
        simp only [decide_eq_true_eq]
        omega
      rw [List.filter_cons_of_neg (by simpa using hwu), List.filter_cons_of_pos (by simp; omega), hnone, hall]
      rfl

/-- **A reachable block comes directly before those after it.** -/
theorem blocksFrom_of_mem (hu : u ∈ g.reachable) {b : Block} (hb : g.blocks[u]? = some b) :
    g.blocksFrom u = b :: g.blocksFrom (u + 1) := by
  unfold blocksFrom
  rw [filter_le_of_mem (pairwise_reachable g) hu, List.filterMap_cons, hb]

theorem blocksFrom_zero (g : FlowGraph) : g.blocksFrom 0 = g.reachableBlocks := by
  unfold blocksFrom reachableBlocks
  rw [List.filter_eq_self.2 fun v _ => by simp]

theorem blocksFrom_length (g : FlowGraph) : g.blocksFrom g.blocks.length = [] := by
  refine List.filterMap_eq_nil_iff.2 fun v hv => ?_
  exact List.getElem?_eq_none (of_decide_eq_true (List.mem_filter.1 hv).2)

theorem exists_append_blocksFrom (g : FlowGraph) (u : Nat) : ∃ bs, g.reachableBlocks = bs ++ g.blocksFrom u := by
  refine ⟨(g.reachable.filter fun v => v < u).filterMap fun v => g.blocks[v]?, ?_⟩
  unfold reachableBlocks blocksFrom
  rw [← List.filterMap_append, filter_append_filter (pairwise_reachable g)]

end FlowGraph

end ThreeAddress
