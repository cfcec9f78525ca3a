import Mathlib.Data.Finset.Card
import ThreeAddress.Proofs.Liveness.Exact

/-!
Graphs of given blocks and edges.  The edges need not come from the code of the blocks: they may repeat, lead back, or
lead from a block to itself.  The first that starts or ends outside the blocks is the error; otherwise the neighbours of
a block are the other ends of its edges, each once, and the search for reachable blocks ends with those that a path of
edges leads to from the entry.  A table of neighbours that is filled edge by edge (`linkAll`) comes to the same.

Main statement: `FlowGraph.ofBlocks_exact`.
-/

namespace ThreeAddress

theorem OrdSet.size_eq_card {s : OrdSet Nat} {p : Nat → Prop} [DecidablePred p] {n : Nat}
    (h : ∀ x, x ∈ s ↔ x < n ∧ p x) : s.size = ((Finset.range n).filter p).card := by
  have hset : s.toList.toFinset = (Finset.range n).filter p := by
    ext x
    rw [List.mem_toFinset, Finset.mem_filter, Finset.mem_range]
    exact h x
  rw [← hset, List.toFinset_card_of_nodup s.nodup_toList]
  rfl

namespace FlowGraph

variable {g : FlowGraph} {blocks : List Block} {edges : List (Nat × Nat)} {u v : Nat}

/-! ### Edges outside the blocks -/

def Inside (n : Nat) (e : Nat × Nat) : Prop := e.1 < n ∧ e.2 < n

instance (n : Nat) (e : Nat × Nat) : Decidable (Inside n e) := inferInstanceAs (Decidable (e.1 < n ∧ e.2 < n))

theorem ofBlocks_eq_error {e : LowerError} : ofBlocks blocks edges = .error e ↔
    ∃ before u v after, edges = before ++ (u, v) :: after ∧ (∀ d ∈ before, Inside blocks.length d) ∧
      ¬ Inside blocks.length (u, v) ∧ e = .danglingEdge u v := by
  unfold ofBlocks
  constructor
  · intro h
    split at h
    · rename_i d hd
      obtain ⟨hout, before, after, hsplit, hbefore⟩ := List.find?_eq_some_iff_append.1 hd
      cases Except.error.inj h
      refine ⟨before, d.1, d.2, after, hsplit, fun c hc => ?_, of_decide_eq_true hout, rfl⟩
      simpa [Inside] using hbefore c hc
    · simp at h
  · rintro ⟨before, u, v, after, rfl, hbefore, hout, rfl⟩
    have hfind : (before ++ (u, v) :: after).find? (fun e => ¬ (e.1 < blocks.length ∧ e.2 < blocks.length)) =
        some (u, v) := by
      refine List.find?_eq_some_iff_append.2 ⟨decide_eq_true hout, before, after, rfl, fun d hd => ?_⟩
      simpa [Inside] using hbefore d hd
    rw [hfind]

theorem ofBlocks_of_inside (h : ∀ e ∈ edges, Inside blocks.length e) : ofBlocks blocks edges = .ok ⟨blocks, edges⟩ := by
  have hnone : edges.find? (fun e => ¬ (e.1 < blocks.length ∧ e.2 < blocks.length)) = none := by
    refine List.find?_eq_none.2 fun e he => ?_
    simpa [Inside] using h e he
  rw [ofBlocks, hnone]

/-! ### Neighbours -/

section

variable (h : ∀ e ∈ g.edges, Inside g.blocks.length e)

include h

theorem size_succ (u : Nat) :
    (g.succ u).size = ((Finset.range g.blocks.length).filter fun v => (u, v) ∈ g.edges).card := by
  apply OrdSet.size_eq_card
  intro v
  rw [mem_succ]
  exact ⟨fun he => ⟨(h _ he).2, he⟩, fun he => he.2⟩

theorem size_pred (v : Nat) :
    (g.pred v).size = ((Finset.range g.blocks.length).filter fun u => (u, v) ∈ g.edges).card := by
  apply OrdSet.size_eq_card
  intro u
  rw [mem_pred]
  exact ⟨fun he => ⟨(h _ he).1, he⟩, fun he => he.2⟩

/-- A path of edges stays within the blocks, so it alone decides whether a block is reachable. -/
theorem mem_reachable_iff_path :
    u ∈ g.reachable ↔ g.blocks ≠ [] ∧ Relation.ReflTransGen (fun v w => (v, w) ∈ g.edges) 0 u := by
  rw [mem_reachable_iff]
  refine and_congr_left fun hpath => ⟨fun hu => ?_, fun hne => ?_⟩
  · apply List.ne_nil_of_length_pos
    omega
  · cases hpath with
    | refl => exact List.length_pos_iff.2 hne
    | tail _ he => exact (h _ he).2

end

/-! ### The table of neighbours -/

/-- The blocks before each block and those after it. -/
abbrev Links := List (OrdSet Nat × OrdSet Nat)

/-- Notes an edge at both of its ends. -/
def link (links : Links) (e : Nat × Nat) : Links :=
  (links.modify e.1 fun p => (p.1, p.2.insert e.2)).modify e.2 fun p => (p.1.insert e.1, p.2)

/-- Notes the edges one by one; the first outside the `n` blocks is the error. -/
def linkAll (n : Nat) (links : Links) : List (Nat × Nat) → Except LowerError Links
  | [] => .ok links
  | e :: edges => if Inside n e then linkAll n (link links e) edges else .error (.danglingEdge e.1 e.2)

theorem length_link (links : Links) (e : Nat × Nat) : (link links e).length = links.length := by
  rw [link, List.length_modify, List.length_modify]

/-- An edge adds its end to what comes after its start, and its start to what comes before its end. -/
theorem exists_getElem?_link {links : Links} {p : OrdSet Nat × OrdSet Nat} (hp : links[u]? = some p) (e : Nat × Nat) :
    ∃ q, (link links e)[u]? = some q ∧ (∀ v, v ∈ q.1 ↔ v ∈ p.1 ∨ (v, u) = e) ∧ ∀ v, v ∈ q.2 ↔ v ∈ p.2 ∨ (u, v) = e := by
  obtain ⟨x, y⟩ := e
  refine ⟨(if y = u then p.1.insert x else p.1, if x = u then p.2.insert y else p.2), ?_, fun v => ?_, fun v => ?_⟩
  · rw [link, List.getElem?_modify, List.getElem?_modify, hp]
    by_cases hx : x = u <;> by_cases hy : y = u <;> simp [hx, hy]
  · by_cases hy : y = u
    · simp [hy, or_comm]
    · simp [hy, Ne.symm hy]
  · by_cases hx : x = u
    · simp [hx, or_comm]
    · simp [hx, Ne.symm hx]

theorem linkAll_eq_error {n : Nat} {before after : List (Nat × Nat)} (hbefore : ∀ d ∈ before, Inside n d)
    (hout : ¬ Inside n (u, v)) (links : Links) :
    linkAll n links (before ++ (u, v) :: after) = .error (.danglingEdge u v) := by
  induction before generalizing links with
  | nil => exact if_neg hout
  | cons d before ih =>
    obtain ⟨hd, hbefore⟩ := List.forall_mem_cons.1 hbefore
    rw [List.cons_append, linkAll, if_pos hd]
    exact ih hbefore _

theorem exists_linkAll {n : Nat} (h : ∀ e ∈ edges, Inside n e) (links : Links) :
    ∃ filled, linkAll n links edges = .ok filled ∧ filled.length = links.length ∧
      ∀ u p, links[u]? = some p → ∃ q, filled[u]? = some q ∧
        (∀ v, v ∈ q.1 ↔ v ∈ p.1 ∨ (v, u) ∈ edges) ∧ ∀ v, v ∈ q.2 ↔ v ∈ p.2 ∨ (u, v) ∈ edges := by
  induction edges generalizing links with
  | nil => exact ⟨links, rfl, rfl, fun u p hp => ⟨p, hp, fun v => by simp, fun v => by simp⟩⟩
  | cons e edges ih =>
    obtain ⟨he, hedges⟩ := List.forall_mem_cons.1 h
    obtain ⟨filled, hfilled, hlen, hmem⟩ := ih hedges (link links e)
    refine ⟨filled, ?_, hlen.trans (length_link links e), fun u p hp => ?_⟩
    · rw [linkAll, if_pos he]
      exact hfilled
    · obtain ⟨q, hq, hbefore, hafter⟩ := exists_getElem?_link hp e
      obtain ⟨r, hr, hbefore', hafter'⟩ := hmem u q hq
      refine ⟨r, hr, fun v => ?_, fun v => ?_⟩
      · rw [hbefore', hbefore, List.mem_cons, or_assoc]
      · rw [hafter', hafter, List.mem_cons, or_assoc]

/-- **The table filled edge by edge holds the neighbours of every block**, or gives the same error. -/
theorem linkAll_eq (blocks : List Block) (edges : List (Nat × Nat)) :
    linkAll blocks.length (.replicate blocks.length (∅, ∅)) edges =
      (ofBlocks blocks edges).map fun g => (List.range blocks.length).map fun u => (g.pred u, g.succ u) := by
  by_cases h : ∀ e ∈ edges, Inside blocks.length e
  · obtain ⟨filled, hfilled, hlen, hmem⟩ := exists_linkAll h (.replicate blocks.length (∅, ∅))
    rw [List.length_replicate] at hlen
    rw [hfilled, ofBlocks_of_inside h]
    refine congrArg Except.ok (List.ext_getElem? fun u => ?_)
    rw [List.getElem?_map]
    by_cases hu : u < blocks.length
    · obtain ⟨q, hq, hbefore, hafter⟩ := hmem u (∅, ∅) (by simp [hu])
      have hpred : q.1 = pred ⟨blocks, edges⟩ u := by
        rw [OrdSet.ext_iff_mem]
        intro v
        rw [hbefore, mem_pred]
        simp
      have hsucc : q.2 = succ ⟨blocks, edges⟩ u := by
        rw [OrdSet.ext_iff_mem]
        intro v
        rw [hafter, mem_succ]
        simp
      rw [hq, List.getElem?_range hu, Option.map_some, ← hpred, ← hsucc]
    · rw [List.getElem?_eq_none (by omega), List.getElem?_eq_none (by simp; omega)]
      rfl
  · cases hok : ofBlocks blocks edges with
    | ok g => exact absurd (ofBlocks_eq_ok hok).2 h
    | error e =>
      obtain ⟨before, u, v, after, rfl, hbefore, hout, rfl⟩ := ofBlocks_eq_error.1 hok
      exact linkAll_eq_error hbefore hout _

/-! ### The graph -/

/-- **The graph of blocks and edges is exact.**  If an edge starts or ends outside the blocks, the first such edge is the
error, and there is no other error.  Otherwise there is a graph of these blocks and edges, and in it:
the neighbours of a block are the ends of its edges in either direction, and their number counts each once;
the search from the entry ends, after at most one turn more than there are edges;
and the reachable blocks, listed in ascending order, are those to which a path of edges leads from the entry.
The table of neighbours that is filled edge by edge holds the same neighbours, or ends with the same error. -/
theorem ofBlocks_exact (blocks : List Block) (edges : List (Nat × Nat)) :
    (∀ e, ofBlocks blocks edges = .error e ↔
      ∃ before u v after, edges = before ++ (u, v) :: after ∧ (∀ d ∈ before, Inside blocks.length d) ∧
        ¬ Inside blocks.length (u, v) ∧ e = .danglingEdge u v) ∧
    ((∀ e ∈ edges, Inside blocks.length e) → ∃ g, ofBlocks blocks edges = .ok g ∧ g.blocks = blocks ∧ g.edges = edges ∧
      (∀ u v, (v ∈ g.succ u ↔ (u, v) ∈ edges) ∧ (u ∈ g.pred v ↔ (u, v) ∈ edges)) ∧
      (∀ u, (g.succ u).size = ((Finset.range blocks.length).filter fun v => (u, v) ∈ edges).card ∧
        (g.pred u).size = ((Finset.range blocks.length).filter fun v => (v, u) ∈ edges).card) ∧
      (∃ n ≤ edges.length + 1, ∃ found, Searches (fun u => (g.succ u).toList) [0] [] n found ∧
        ∀ u, u ∈ g.reachable ↔ u < blocks.length ∧ u ∈ found) ∧
      (∀ u, u ∈ g.reachable ↔ blocks ≠ [] ∧ Relation.ReflTransGen (fun v w => (v, w) ∈ edges) 0 u) ∧
      g.reachable.Pairwise (· < ·)) ∧
    linkAll blocks.length (.replicate blocks.length (∅, ∅)) edges =
      (ofBlocks blocks edges).map fun g => (List.range blocks.length).map fun u => (g.pred u, g.succ u) := by
  refine ⟨fun e => ofBlocks_eq_error, fun h => ⟨⟨blocks, edges⟩, ofBlocks_of_inside h, rfl, rfl, ?_⟩,
    linkAll_eq blocks edges⟩
  obtain ⟨n, hn, hsearch⟩ := searches_reachable ⟨blocks, edges⟩
  refine ⟨fun u v => ⟨mem_succ, mem_pred⟩, fun u => ⟨?_, ?_⟩, ⟨n, hn, _, hsearch, fun u => mem_reachable⟩,
    fun u => ?_, pairwise_reachable _⟩
  · exact size_succ (g := ⟨blocks, edges⟩) h u
  · exact size_pred (g := ⟨blocks, edges⟩) h u
  · exact mem_reachable_iff_path (g := ⟨blocks, edges⟩) h

/-- Blocks 1 and 2 lead to each other, block 1 also to itself, and two edges lead to it from the entry.  Block 3 leads to
the entry, but nothing leads to block 3. -/
def cycleEdges : List (Nat × Nat) := [(0, 1), (1, 2), (2, 1), (1, 1), (0, 1), (3, 0)]

/-- Each neighbour counts once, and the way back from block 3 makes it no more reachable.  One edge that ends outside
the blocks is enough for an error. -/
theorem ofBlocks_exact_cycle : (∀ e ∈ cycleEdges, Inside loopBlocks.length e) ∧
    (∃ g, ofBlocks loopBlocks cycleEdges = .ok g ∧ (g.succ 0).size = 1 ∧ (g.pred 1).size = 3 ∧
      2 ∈ g.reachable ∧ ¬ Relation.ReflTransGen (fun v w => (v, w) ∈ cycleEdges) 0 3) ∧
    ofBlocks loopBlocks ((0, 1) :: (4, 0) :: cycleEdges) = .error (.danglingEdge 4 0) := by
  have hin : ∀ e ∈ cycleEdges, Inside loopBlocks.length e := by decide
  obtain ⟨g, hok, hblocks, hedges, -, hsize, -, hreach, -⟩ := (ofBlocks_exact loopBlocks cycleEdges).2.1 hin
  refine ⟨hin, ⟨g, hok, ?_, ?_, ?_, fun hpath => ?_⟩, ?_⟩
  · rw [(hsize 0).1]
    decide
  · rw [(hsize 1).2]
    decide
  · refine (hreach 2).2 ⟨by decide, ?_⟩
    exact .tail (.single (show (0, 1) ∈ cycleEdges by decide)) (by decide)
  · have hmem := (hreach 3).2 ⟨by decide, hpath⟩
    obtain rfl : g = ⟨loopBlocks, cycleEdges⟩ := by rw [← hblocks, ← hedges]
    exact absurd hmem (by decide)
  · refine ((ofBlocks_exact loopBlocks _).1 _).2 ⟨[(0, 1)], 4, 0, cycleEdges, rfl, ?_, ?_, rfl⟩ <;> decide

end FlowGraph

end ThreeAddress
