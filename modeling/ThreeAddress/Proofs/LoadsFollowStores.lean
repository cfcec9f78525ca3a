import ThreeAddress.Proofs.Allocator.Crossing
import ThreeAddress.Proofs.CallingConvention
import ThreeAddress.Proofs.FallThrough

/-!
Nothing is loaded that has not been stored.  A route through the code starts at its first line and goes from line to
line as control may; on the way it enters the function, goes through the events of one block after another, and leaves
the function (`Lowered.Stage`).  Where it starts a block, all that is live there has been stored on the way or came on
the stack, since the live sets of blocks follow the edges between them.

Main statement: on every route, a load from the home of a temporary comes after a store to that home, unless the
temporary came on the stack (`loads_follow_stores`).
-/

namespace ThreeAddress

open Alloc

/-! ### Routes -/

namespace Asm

/-- Control may go from line `i` of the code to line `j`: to the next one, also from a call, and from a jump or a branch
to its label. -/
inductive Next (code : List Asm) (i : Nat) : Nat → Prop
  | pass {a : Asm} : code[i]? = some a → a.passesOn = true → Next code i (i + 1)
  | jump {a : Asm} {l : Label} {j : Nat} : code[i]? = some a → a.target? = some l → code[j]? = some (.label l) →
      Next code i j

/-- A route from the first line of the code to line `i`, with the lines passed on the way. -/
inductive Route (code : List Asm) : List Nat → Nat → Prop
  | start : Route code [] 0
  | step {past : List Nat} {i j : Nat} : Route code past i → Next code i j → Route code (past ++ [i]) j

end Asm

namespace Action

variable {home : Temp → Option Int} {r : Reg} {t : Temp} {a : Asm}

theorem code_store (h : (store r t).code home = [a]) : ∃ x, home t = some x ∧ a = .sw r x .frame := by
  obtain ⟨x, hx, ha⟩ := List.map_eq_singleton_iff.1 h
  exact ⟨x, Option.toList_eq_singleton_iff.1 hx, ha.symm⟩

theorem code_load (h : (load r t).code home = [a]) : ∃ x, home t = some x ∧ a = .lw r x .frame := by
  obtain ⟨x, hx, ha⟩ := List.map_eq_singleton_iff.1 h
  exact ⟨x, Option.toList_eq_singleton_iff.1 hx, ha.symm⟩

theorem eq_native_of_target? {α : Action} {l : Label} (h : α.code home = [a]) (ht : a.target? = some l) :
    α = .native a := by
  cases α with
  | store r t =>
    obtain ⟨x, -, rfl⟩ := code_store h
    simp [Asm.target?] at ht
  | load r t =>
    obtain ⟨x, -, rfl⟩ := code_load h
    simp [Asm.target?] at ht
  | native x => rw [(List.cons.inj h).1]
  | label | comment =>
    cases h
    simp [Asm.target?] at ht
  | note => simp [code] at h

end Action

/-- The lines that enter a function load nothing. -/
theorem Frame.lw_notMem_opening (fr : Frame) {r s : Reg} {x : Int} : .lw r x s ∉ fr.opening := by
  intro h
  unfold opening saves at h
  cases hc : fr.hasCalls <;> simp [hc] at h

/-- The lines that leave a function load saved registers from the frame. -/
theorem Frame.range_of_lw_mem_closing {fr : Frame} {r : Reg} {x : Int} (h : .lw r x .frame ∈ fr.closing) :
    -52 ≤ x ∧ x ≤ -12 := by
  have hrestores : .lw r x .frame ∈ restores fr.saved.reverse := by
    unfold closing at h
    cases hc : fr.hasCalls <;> simp [hc, Reg.frame, Reg.stack] at h <;> exact h
  obtain ⟨r', -, hr⟩ := List.mem_filterMap.1 hrestores
  obtain ⟨x', hx, heq⟩ := Option.map_eq_some_iff.1 hr
  cases heq
  exact saveOffset?_range hx

/-- The offset from the frame pointer of the home of a temporary in the code of a function. -/
def Func.home? (f : Func) (o : Options) (t : Temp) : Option Int :=
  match FlowGraph.ofFunc f with
  | .error _ => none
  | .ok g => ((Subroutine.start f.name f.params).performAll
      ((Allocator.ofOptions o).accept g.withLiveness f.name f.params).actions).home? t

namespace Lowered

variable {f : Func} {o : Options} (p : Lowered f o)

theorem home?_eq (t : Temp) : f.home? o t = p.subroutine.home? t := by
  have hactions : ((Allocator.ofOptions o).accept p.graph.withLiveness f.name f.params).actions = p.actions :=
    congrArg Emitted.trace p.yields
  simp only [Func.home?, p.isGraph]
  rw [hactions]
  rfl

/-! ### Events and lines -/

def events : List Action := Action.events p.actions

theorem body_eq : p.body = p.events.flatMap (Action.code p.subroutine.home?) :=
  (Action.flatMap_code_events _ _).symm

theorem exists_line {α : Action} (h : α ∈ p.events) : ∃ x, α.code p.subroutine.home? = [x] := by
  obtain ⟨hm, hnote⟩ := List.mem_filter.1 h
  cases α with
  | store r t | load r t =>
    obtain ⟨o', ho⟩ := Subroutine.exists_home?_performAll (t := t) (Subroutine.start f.name f.params) hm rfl
    rw [Action.code, show p.subroutine.home? t = some o' from ho]
    exact ⟨_, rfl⟩
  | native a => exact ⟨a, rfl⟩
  | label l => exact ⟨.label l, rfl⟩
  | comment text => exact ⟨.comment text, rfl⟩
  | note => simp [Action.note?] at hnote

theorem eq_load_of_code {α : Action} {r : Reg} {x : Int} (h : α ∈ p.events)
    (ha : α.code p.subroutine.home? = [.lw r x .frame]) : ∃ t, α = .load r t ∧ p.subroutine.home? t = some x := by
  cases α with
  | store r' t =>
    obtain ⟨x', -, heq⟩ := Action.code_store ha
    cases heq
  | load r' t =>
    obtain ⟨x', hx, heq⟩ := Action.code_load ha
    cases heq
    exact ⟨t, rfl, hx⟩
  | native a =>
    cases ha
    rcases p.labelled.permits _ (List.mem_filter.1 h).1 with hp | ⟨l, -, hl⟩ | ⟨l, hl⟩
    · exact absurd hp id
    · simp [Action.target?, Asm.target?] at hl
    · cases hl
  | label | comment => cases ha
  | note => simp [Action.code] at ha

theorem length_flatMap_code {τ : List Action} (h : ∀ α ∈ τ, α ∈ p.events) :
    (τ.flatMap (Action.code p.subroutine.home?)).length = τ.length := by
  induction τ with
  | nil => rfl
  | cons α τ ih =>
    obtain ⟨hα, hτ⟩ := List.forall_mem_cons.1 h
    obtain ⟨x, hx⟩ := p.exists_line hα
    rw [List.flatMap_cons, hx, List.length_append, ih hτ, List.length_singleton, List.length_cons, Nat.add_comm]

theorem getElem?_code {xs ys : List Action} {α : Action} (h : p.events = xs ++ α :: ys) :
    ∃ x, α.code p.subroutine.home? = [x] ∧ p.code[p.frame.opening.length + xs.length]? = some x := by
  have hα : α ∈ p.events := h ▸ List.mem_append_right _ List.mem_cons_self
  obtain ⟨x, hx⟩ := p.exists_line hα
  have hlen := p.length_flatMap_code (τ := xs) fun β hβ => h ▸ List.mem_append_left _ hβ
  refine ⟨x, hx, ?_⟩
  rw [code, List.getElem?_append_right (Nat.le_add_right _ _), Nat.add_sub_cancel_left, p.body_eq, h,
    List.flatMap_append, List.flatMap_cons, hx, List.append_assoc, ← hlen,
    List.getElem?_append_right (Nat.le_refl _), Nat.sub_self]
  rfl

theorem exitPos_eq : p.exitPos = p.frame.opening.length + p.events.length := by
  rw [exitPos, p.body_eq, p.length_flatMap_code fun _ h => h]

/-! ### The parts of the body -/

/-- The events of the body: stores of parameters, and then those of each block, as control goes through them. -/
structure Parts where
  entry : List Action
  blocks : List (List Action)
  events_eq : p.events = entry ++ blocks.flatten
  stores : ∀ α ∈ entry, ∃ r t, α = .store r t
  stored : ∀ t ∈ entryLive p.graph.withLiveness, t ∈ f.params → t ∈ f.params.drop 8 ∨ Stored entry t
  crossed : List.Forall₂ (Crossed f.name.exit) p.graph.withLiveness.reachableBlocks blocks

theorem crossed_of_effects {f₀ f₁ : RegisterFile} {bs : List Block} {υs : List (List Action)}
    (h : BlockEffects f.name.exit f₀ bs υs f₁) (hbs : ∀ b ∈ bs, b ∈ p.graph.withLiveness.reachableBlocks) :
    List.Forall₂ (Crossed f.name.exit) bs υs := by
  induction h with
  | nil => exact .nil
  | @cons _ _ _ b bs _ _ he _ ih =>
    obtain ⟨hb, hbs⟩ := List.forall_mem_cons.1 hbs
    obtain ⟨u, hu, hbu⟩ := List.mem_filterMap.1 hb
    have hpos := p.describes.length_source_pos (List.mem_of_getElem? hbu)
    have hs := p.settled
    exact .cons (he.crossed (p.formed b hb) hpos (hs.chained hu hbu) (hs.before hu hbu)) (ih hbs)

theorem nonempty_parts : Nonempty p.Parts := by
  obtain ⟨a₁, τ₁, τ₂, h₁, h₂, hτ⟩ := function_parts p.yields
  have hv := valid_reset_ofOptions o (p.graph.withLiveness.tempCount f.params)
  have hclean : Clean [] _ a₁ τ₁ := (tidy_takeParams hv p.graph.withLiveness f.params).clean h₁
  obtain ⟨υs, heffs, hυs⟩ := blocks_effects hclean.valid p.formed h₂
  refine ⟨Action.events τ₁, υs, ?_, fun α hα => ?_, fun t ht hp => ?_, p.crossed_of_effects heffs fun _ hb => hb⟩
  · rw [events, hτ, Action.events_note, Action.events_append, Action.events_append, hυs, Action.events_note,
      Action.events_nil, List.append_nil]
  · obtain ⟨t, r, rfl, -⟩ := events_takeParams h₁ α hα
    exact ⟨r, t, rfl⟩
  · have hst := stored_takeParams hv ht hp
    rw [h₁] at hst
    exact hst.imp_right fun ⟨r, hr⟩ => ⟨r, List.mem_filter.2 ⟨hr, rfl⟩⟩

variable {p}

namespace Parts

variable (q : p.Parts) {k : Nat} {b : Block} {υ xs ys : List Action} {α : Action}

/-- The line where block `k` of the reachable blocks starts. -/
def first (k : Nat) : Nat := p.frame.opening.length + q.entry.length + (q.blocks.take k).flatten.length

theorem first_succ (h : q.blocks[k]? = some υ) : q.first (k + 1) = q.first k + υ.length := by
  rw [first, first, List.take_add_one, h, List.flatten_append, List.length_append]
  simp [Nat.add_assoc]

theorem first_length : q.first q.blocks.length = p.exitPos := by
  rw [first, List.take_length, p.exitPos_eq, q.events_eq, List.length_append, Nat.add_assoc]

theorem mem_events (h : q.blocks[k]? = some υ) (hα : α ∈ υ) : α ∈ p.events := by
  rw [q.events_eq]
  exact List.mem_append_right _ (List.mem_flatten.2 ⟨υ, List.mem_of_getElem? h, hα⟩)

theorem getElem?_code (h : q.blocks[k]? = some (xs ++ α :: ys)) :
    ∃ x, α.code p.subroutine.home? = [x] ∧ p.code[q.first k + xs.length]? = some x := by
  have hsplit : p.events =
      (q.entry ++ (q.blocks.take k).flatten ++ xs) ++ α :: (ys ++ (q.blocks.drop (k + 1)).flatten) := by
    obtain ⟨hk, hυ⟩ := List.getElem?_eq_some_iff.1 h
    rw [q.events_eq]
    nth_rewrite 1 [← List.take_append_drop k q.blocks]
    rw [List.drop_eq_getElem_cons hk, hυ]
    simp
  obtain ⟨x, hx, hline⟩ := p.getElem?_code hsplit
  refine ⟨x, hx, ?_⟩
  rw [← hline, first]
  simp [Nat.add_assoc]

theorem getElem?_code_entry (h : q.entry = xs ++ α :: ys) :
    ∃ x, α.code p.subroutine.home? = [x] ∧ p.code[p.frame.opening.length + xs.length]? = some x := by
  have hsplit : p.events = xs ++ α :: (ys ++ q.blocks.flatten) := by
    rw [q.events_eq, h, List.append_assoc, List.cons_append]
  exact p.getElem?_code hsplit

theorem exists_crossed {u : Nat} (hk : p.graph.withLiveness.Keeps k u) (hb : p.graph.withLiveness.blocks[u]? = some b) :
    ∃ υ, q.blocks[k]? = some υ ∧ Crossed f.name.exit b υ := by
  have hkb : p.graph.withLiveness.reachableBlocks[k]? = some b := by
    rw [FlowGraph.getElem?_reachableBlocks, show p.graph.withLiveness.reachable[k]? = some u from hk]
    exact hb
  obtain ⟨hlt, -⟩ := List.getElem?_eq_some_iff.1 hkb
  have hυ := List.getElem?_eq_getElem (q.crossed.length_eq ▸ hlt)
  have hzip := List.mem_of_getElem? (List.getElem?_zip_eq_some (z := (b, _)).2 ⟨hkb, hυ⟩)
  exact ⟨_, hυ, (List.forall₂_iff_zip.1 q.crossed).2 hzip⟩

end Parts

/-! ### Stores on a route -/

variable {q : p.Parts} {past : List Nat} {i j k u : Nat} {a : Asm} {b : Block} {xs ys υ : List Action} {α : Action}
  {t : Temp}

/-- One of the lines stores a register to the home of the temporary. -/
def Saved (p : Lowered f o) (past : List Nat) (t : Temp) : Prop :=
  ∃ j ∈ past, ∃ r x, p.subroutine.home? t = some x ∧ p.code[j]? = some (.sw r x .frame)

/-- The temporary came on the stack, or one of the lines stores it. -/
def Supplied (p : Lowered f o) (past : List Nat) (t : Temp) : Prop := t ∈ f.params.drop 8 ∨ p.Saved past t

theorem Supplied.append (h : p.Supplied past t) (i : Nat) : p.Supplied (past ++ [i]) t :=
  h.imp_right fun ⟨j, hj, hrest⟩ => ⟨j, List.mem_append_left _ hj, hrest⟩

theorem saved_of_line {r : Reg} (hj : j ∈ past) (ha : (Action.store r t).code p.subroutine.home? = [a])
    (hline : p.code[j]? = some a) : p.Saved past t := by
  obtain ⟨x, hx, rfl⟩ := Action.code_store ha
  exact ⟨j, hj, r, x, hx, hline⟩

/-! ### Stages of a route -/

/-- A route past the lines `past` has come through the events `xs` of block `u`, before the events `ys`.  What is live
where the block starts is supplied. -/
structure Parts.Inside (q : p.Parts) (past : List Nat) (u k : Nat) (b : Block) (xs ys : List Action) : Prop where
  keeps : p.graph.withLiveness.Keeps k u
  block : p.graph.withLiveness.blocks[u]? = some b
  events : q.blocks[k]? = some (xs ++ ys)
  passed : ∀ n < xs.length, q.first k + n ∈ past
  supplied : ∀ t ∈ b.liveIn, p.Supplied past t

/-- How far a route past the lines `past` has come at line `i`: it enters the function, or goes through a block, or
leaves the function. -/
inductive Stage (q : p.Parts) (past : List Nat) (i : Nat) : Prop
  | entering : i < q.first 0 → (∀ j < i, j ∈ past) → Stage q past i
  | crossing {u k : Nat} {b : Block} {xs ys : List Action} {α : Action} :
      q.Inside past u k b xs (α :: ys) → i = q.first k + xs.length → Stage q past i
  | leaving : p.exitPos ≤ i → Stage q past i

/-- A route comes to the start of a block. -/
theorem Stage.arrive (hk : p.graph.withLiveness.Keeps k u) (hb : p.graph.withLiveness.blocks[u]? = some b)
    (hs : ∀ t ∈ b.liveIn, p.Supplied past t) : Stage q past (q.first k) := by
  obtain ⟨υ, hυ, hcr⟩ := q.exists_crossed hk hb
  obtain ⟨α, ys, rfl⟩ := List.exists_cons_of_ne_nil hcr.ne_nil
  have hin : q.Inside past u k b [] (α :: ys) := ⟨hk, hb, hυ, fun n hn => absurd hn (Nat.not_lt_zero n), hs⟩
  exact .crossing hin rfl

namespace Parts.Inside

theorem crossed (h : q.Inside past u k b xs ys) : Crossed f.name.exit b (xs ++ ys) := by
  obtain ⟨υ, hυ, hcr⟩ := q.exists_crossed h.keeps h.block
  rw [Option.some.inj (h.events.symm.trans hυ)]
  exact hcr

theorem saved (h : q.Inside past u k b xs ys) (hst : Stored xs t) : p.Saved past t := by
  obtain ⟨r, hr⟩ := hst
  obtain ⟨xs₁, xs₂, rfl⟩ := List.append_of_mem hr
  have hev := h.events
  rw [List.append_assoc, List.cons_append] at hev
  obtain ⟨a, ha, hline⟩ := q.getElem?_code hev
  exact saved_of_line (h.passed xs₁.length (by simp)) ha hline

theorem advance (h : q.Inside past u k b xs (α :: ys)) :
    q.Inside (past ++ [q.first k + xs.length]) u k b (xs ++ [α]) ys where
  keeps := h.keeps
  block := h.block
  events := by rw [h.events, List.append_assoc, List.singleton_append]
  passed := by
    intro n hn
    rw [List.length_append, List.length_singleton] at hn
    rcases Nat.lt_or_eq_of_le (Nat.le_of_lt_succ hn) with hn | rfl
    · exact List.mem_append_left _ (h.passed n hn)
    · exact List.mem_append_right _ List.mem_cons_self
  supplied := fun t ht => (h.supplied t ht).append _

/-- From the end of a block, along an edge, the route comes to the start of another. -/
theorem follow (h : q.Inside past u k b xs []) {v : Nat} {c : Block} (he : (u, v) ∈ p.graph.withLiveness.edges)
    (hc : p.graph.withLiveness.blocks[v]? = some c) :
    ∃ m, p.graph.withLiveness.Keeps m v ∧ Stage q past (q.first m) := by
  have hv := FlowGraph.reachable_closed h.keeps.mem he (List.getElem?_eq_some_iff.1 hc).1
  obtain ⟨m, hm⟩ := FlowGraph.exists_keeps hv
  refine ⟨m, hm, .arrive hm hc fun t ht => ?_⟩
  have hout := p.settled.flows h.keeps.mem h.block he hc t ht
  have hcr := h.crossed
  rw [List.append_nil] at hcr
  rcases hcr.stored hout with hin | hst
  · exact h.supplied t hin
  · exact .inr (h.saved hst)

/-- Where control runs on from the end of a block, it comes to the next block, or the exit label. -/
theorem runsOn (h : q.Inside past u k b xs []) (hend : b.ending = .fallsThrough ∨ b.ending = .branches) :
    Stage q past (q.first k + xs.length) := by
  have hnext : q.first (k + 1) = q.first k + xs.length := q.first_succ (by rw [h.events, List.append_nil])
  rw [← hnext]
  cases hc : p.graph.withLiveness.blocks[u + 1]? with
  | some c =>
    have he := p.describes.next h.block hend (List.getElem?_eq_some_iff.1 hc).1
    obtain ⟨m, hm, hstage⟩ := h.follow he hc
    rwa [hm.place_unique (h.keeps.next hm.mem)] at hstage
  | none =>
    -- no block is kept after this one
    have hlast : q.blocks.length ≤ k + 1 := by
      by_contra hlt
      have hget := List.getElem?_eq_getElem (show k + 1 < _ from q.crossed.length_eq ▸ Nat.lt_of_not_le hlt)
      rw [FlowGraph.getElem?_reachableBlocks] at hget
      obtain ⟨v, hv, -⟩ := Option.bind_eq_some_iff.1 hget
      replace hv : p.graph.withLiveness.Keeps (k + 1) v := hv
      have huv := h.keeps.lt hv (Nat.lt_succ_self k)
      have hvl := (FlowGraph.mem_reachable.1 hv.mem).1
      have hnone := List.getElem?_eq_none_iff.1 hc
      omega
    have hk := (List.getElem?_eq_some_iff.1 h.events).1
    have hlen : k + 1 = q.blocks.length := by omega
    rw [hlen, q.first_length]
    exact .leaving (Nat.le_refl _)

end Parts.Inside

/-! ### One step of a route -/

theorem Parts.entering_line (q : p.Parts) (ha : p.code[i]? = some a) (hi : i < q.first 0) :
    a.target? = none ∧ ∀ r x s, a ≠ .lw r x s := by
  by_cases hopen : i < p.frame.opening.length
  · rw [code, List.getElem?_append_left hopen] at ha
    have hmem := List.mem_of_getElem? ha
    refine ⟨Asm.target?_of_isStraight (p.frame.isStraight_opening a hmem), ?_⟩
    rintro r x s rfl
    exact p.frame.lw_notMem_opening hmem
  · obtain ⟨n, rfl⟩ := Nat.exists_eq_add_of_le (Nat.le_of_not_lt hopen)
    have hn : n < q.entry.length := by
      rw [first, List.take_zero, List.flatten_nil, List.length_nil] at hi
      omega
    have hsplit : q.entry = q.entry.take n ++ q.entry[n] :: q.entry.drop (n + 1) := by simp
    obtain ⟨r, t, hst⟩ := q.stores _ (List.getElem_mem hn)
    obtain ⟨x, hx, hline⟩ := q.getElem?_code_entry hsplit
    rw [List.length_take, Nat.min_eq_left (Nat.le_of_lt hn)] at hline
    rw [hst] at hx
    obtain ⟨x', -, rfl⟩ := Action.code_store hx
    cases hline.symm.trans ha
    exact ⟨rfl, by simp⟩

/-- The lines that leave the function do not jump, and load nothing from the home of a temporary. -/
theorem leaving_line (ha : p.code[i]? = some a) (hi : p.exitPos ≤ i) :
    a.target? = none ∧ ∀ r x, a = .lw r x .frame → -52 ≤ x ∧ x ≤ -12 := by
  rcases p.line_cases ha with ⟨hlt, -⟩ | ⟨-, hlt, -⟩ | ⟨-, rfl⟩ | ⟨k, -, hk⟩
  · unfold exitPos at hi
    omega
  · omega
  · exact ⟨rfl, by simp⟩
  · rcases List.mem_append.1 (List.mem_of_getElem? hk) with hmem | hmem
    · refine ⟨Asm.target?_of_isStraight (p.frame.isStraight_closing a hmem), ?_⟩
      rintro r x rfl
      exact Frame.range_of_lw_mem_closing hmem
    · rw [List.mem_singleton.1 hmem]
      exact ⟨rfl, by simp⟩

namespace Parts.Inside

theorem pass (h : q.Inside past u k b xs (α :: ys)) (ha : p.code[q.first k + xs.length]? = some a)
    (hp : a.passesOn = true) : Stage q (past ++ [q.first k + xs.length]) (q.first k + xs.length + 1) := by
  have hlen : q.first k + xs.length + 1 = q.first k + (xs ++ [α]).length := by
    rw [List.length_append, List.length_singleton, Nat.add_assoc]
  cases ys with
  | cons β ys => exact .crossing h.advance hlen
  | nil =>
    rw [hlen]
    refine h.advance.runsOn (h.crossed.pass rfl fun x hx => ?_)
    obtain ⟨y, hy, hline⟩ := q.getElem?_code h.events
    rw [hx] at hy
    cases hy
    rwa [Option.some.inj (ha.symm.trans hline)] at hp

theorem jump (hm : f.name.exit ∉ f.marks) (h : q.Inside past u k b xs (α :: ys))
    (ha : p.code[q.first k + xs.length]? = some a) {l : Label} (ht : a.target? = some l)
    (hj : p.code[j]? = some (.label l)) : Stage q (past ++ [q.first k + xs.length]) j := by
  have huniq : ∀ {m}, p.code[m]? = some (.label l) → m = j := fun hl =>
    eq_of_nodup_filterMap (p.nodup_labels hm) hl hj rfl rfl
  obtain ⟨x, hx, hline⟩ := q.getElem?_code h.events
  cases ha.symm.trans hline
  obtain rfl := Action.eq_native_of_target? hx ht
  obtain ⟨rfl, rfl | ⟨i, hi, hl⟩⟩ := h.crossed.jump rfl ht
  · have hexit : p.code[p.exitPos]? = some (.label f.name.exit) := by
      rw [code, exitPos, List.getElem?_append_right (Nat.le_add_right _ _), Nat.add_sub_cancel_left,
        List.getElem?_append_right (Nat.le_refl _), Nat.sub_self]
      rfl
    exact .leaving (Nat.le_of_eq (huniq hexit))
  · obtain ⟨v, c, hc, hlabel, he⟩ := p.describes.target h.block hi hl
    obtain ⟨m, hkeeps, hstage⟩ := h.advance.follow he hc
    -- the label stands where its block starts
    obtain ⟨υ, hυ, hcr⟩ := q.exists_crossed hkeeps hc
    obtain ⟨zs, rfl⟩ := List.head?_eq_some_iff.1 (hcr.label hlabel)
    obtain ⟨y, hy, hfirst⟩ := q.getElem?_code (show q.blocks[m]? = some ([] ++ .label l :: zs) from hυ)
    cases hy
    rw [← huniq hfirst]
    exact hstage

end Parts.Inside

namespace Stage

theorem start : Stage q [] 0 := by
  refine .entering ?_ fun j hj => absurd hj (Nat.not_lt_zero j)
  rw [Parts.first, Frame.opening]
  simp only [List.length_append, List.length_cons]
  omega

/-- Past all lines that enter the function, a route comes to the first block. -/
theorem enter (hentry : ∀ t ∈ entryLive p.graph.withLiveness, t ∈ f.params) (h : ∀ j < q.first 0, j ∈ past) :
    Stage q past (q.first 0) := by
  cases hb : p.graph.withLiveness.blocks[0]? with
  | none =>
    have hnone : p.graph.withLiveness.reachableBlocks = [] := by
      refine List.filterMap_eq_nil_iff.2 fun u _ => ?_
      rw [List.getElem?_eq_none_iff] at hb ⊢
      omega
    have hnil : q.blocks.length = 0 := by rw [← q.crossed.length_eq, hnone, List.length_nil]
    rw [← hnil, q.first_length]
    exact .leaving (Nat.le_refl _)
  | some b =>
    have hne : p.graph.withLiveness.blocks ≠ [] := List.ne_nil_of_mem (List.mem_of_getElem? hb)
    obtain ⟨k, hk⟩ := FlowGraph.exists_keeps (FlowGraph.zero_mem_reachable hne)
    obtain rfl := hk.entry
    refine .arrive hk hb fun t ht => ?_
    replace ht : t ∈ entryLive p.graph.withLiveness := by
      rw [entryLive, List.head?_eq_getElem?, hb]
      exact ht
    rcases q.stored t ht (hentry t ht) with hstack | ⟨r, hr⟩
    · exact .inl hstack
    · obtain ⟨xs, ys, hsplit⟩ := List.append_of_mem hr
      obtain ⟨a, ha, hline⟩ := q.getElem?_code_entry hsplit
      refine .inr (saved_of_line (h _ ?_) ha hline)
      rw [Parts.first, hsplit]
      simp only [List.length_append, List.length_cons]
      omega

/-- **One step of a route.** -/
theorem step (hm : f.name.exit ∉ f.marks) (hentry : ∀ t ∈ entryLive p.graph.withLiveness, t ∈ f.params)
    (h : Stage q past i) (hn : Asm.Next p.code i j) : Stage q (past ++ [i]) j := by
  cases h with
  | entering hi hpast =>
    cases hn with
    | pass ha _ =>
      have hpast' : ∀ j < i + 1, j ∈ past ++ [i] := by
        intro j hj
        rcases Nat.lt_or_eq_of_le (Nat.le_of_lt_succ hj) with hlt | rfl
        · exact List.mem_append_left _ (hpast j hlt)
        · exact List.mem_append_right _ List.mem_cons_self
      rcases Nat.lt_or_eq_of_le (Nat.succ_le_of_lt hi) with hlt | heq
      · exact .entering hlt hpast'
      · replace heq : i + 1 = q.first 0 := heq
        rw [heq] at hpast' ⊢
        exact enter hentry hpast'
    | jump ha ht _ =>
      rw [(q.entering_line ha hi).1] at ht
      cases ht
  | crossing hin hi =>
    subst hi
    cases hn with
    | pass ha hp => exact hin.pass ha hp
    | jump ha ht hj => exact hin.jump hm ha ht hj
  | leaving hi =>
    cases hn with
    | pass _ _ => exact .leaving (Nat.le_succ_of_le hi)
    | jump ha ht _ =>
      rw [(leaving_line ha hi).1] at ht
      cases ht

theorem of_route (hm : f.name.exit ∉ f.marks) (hentry : ∀ t ∈ entryLive p.graph.withLiveness, t ∈ f.params)
    (h : Asm.Route p.code past i) : Stage q past i := by
  induction h with
  | start => exact start
  | step _ hn ih => exact ih.step hm hentry hn

/-- **A load from the home of a temporary finds it supplied**, wherever a route has come. -/
theorem supplied (h : Stage q past i) {r : Reg} {x : Int} (hl : p.code[i]? = some (.lw r x .frame))
    (hh : p.subroutine.home? t = some x) : p.Supplied past t := by
  cases h with
  | entering hi => exact absurd rfl ((q.entering_line hl hi).2 r x .frame)
  | @crossing _ k b xs ys α hin hi =>
    subst hi
    obtain ⟨a, ha, hline⟩ := q.getElem?_code hin.events
    cases hline.symm.trans hl
    obtain ⟨u, rfl, hu⟩ := p.eq_load_of_code (q.mem_events hin.events (by simp)) ha
    rw [p.housed.unique hh hu]
    rcases hin.crossed.load rfl with hlive | hst
    · exact hin.supplied u hlive
    · exact .inr (hin.saved hst)
  | leaving hi =>
    have hsave := (leaving_line hl hi).2 r x rfl
    have hhome := (p.isHome hh).range
    omega

end Stage

end Lowered

/-- **Nothing is loaded that has not been stored.**  Take a function whose marks are not its exit label, of which only
parameters are live where it is entered.  On every route through its code from the first line, branches taken or not, a
load from the home of a temporary comes after a store to the same home, unless the temporary came on the stack. -/
theorem loads_follow_stores {f : Func} {o : Options} {asm : AsmFunc} {g : FlowGraph} (hm : f.name.exit ∉ f.marks)
    (h : (f.lower o).result = .ok asm) (hg : FlowGraph.ofFunc f = .ok g)
    (hentry : ∀ t ∈ entryLive g.withLiveness, t ∈ f.params) {past : List Nat} {i : Nat}
    (hr : Asm.Route asm.code past i) {r : Reg} {t : Temp} {x : Int} (hl : asm.code[i]? = some (.lw r x .frame))
    (hh : f.home? o t = some x) : t ∈ f.params.drop 8 ∨ ∃ j ∈ past, ∃ s, asm.code[j]? = some (.sw s x .frame) := by
  obtain ⟨-, hnil⟩ | ⟨p, rfl⟩ := f.exists_lowered h
  · rw [hnil] at hl
    cases hl
  obtain ⟨q⟩ := p.nonempty_parts
  cases Except.ok.inj (hg.symm.trans p.isGraph)
  rw [p.home?_eq] at hh
  have hstage : Lowered.Stage q past i := .of_route hm hentry hr
  refine (hstage.supplied hl hh).imp_right fun ⟨j, hj, s, y, hy, hline⟩ => ⟨j, hj, s, ?_⟩
  cases hy.symm.trans hh
  exact hline

open FlowGraph in
/-- Twice through the loop: what is loaded after it was stored before it. -/
theorem loads_follow_stores_skipping : skipping.name.exit ∉ skipping.marks ∧
    (skipping.lower ⟨false, none⟩).result = .ok ⟨⟨"f"⟩, skippingCode⟩ ∧
    (∀ t ∈ entryLive skippingGraph.withLiveness, t ∈ skipping.params) ∧
    Asm.Route skippingCode [0, 1, 2, 3, 4, 5, 6, 7, 8, 9, 10, 11, 8, 9, 10, 11] 12 ∧
    skippingCode[12]? = some (.lw .t0 (-60) .frame) ∧ skipping.home? ⟨false, none⟩ ⟨1⟩ = some (-60) ∧
    ∃ j ∈ [0, 1, 2, 3, 4, 5, 6, 7, 8, 9, 10, 11, 8, 9, 10, 11], ∃ s, skippingCode[j]? = some (.sw s (-60) .frame) := by
  have hm : skipping.name.exit ∉ skipping.marks := by decide
  have hlower : (skipping.lower ⟨false, none⟩).result = .ok ⟨⟨"f"⟩, skippingCode⟩ := by decide +kernel
  have hentry : ∀ t ∈ entryLive skippingGraph.withLiveness, t ∈ skipping.params := by decide +kernel
  have hhome : skipping.home? ⟨false, none⟩ ⟨1⟩ = some (-60) := by decide +kernel
  have hfirst : Asm.Route skippingCode [0, 1, 2, 3, 4, 5, 6] 7 :=
    ((((((Asm.Route.start.step (.pass rfl rfl)).step (.pass rfl rfl)).step (.pass rfl rfl)).step
      (.pass rfl rfl)).step (.pass rfl rfl)).step (.pass rfl rfl)).step (.pass rfl rfl)
  have hloop : ∀ {past}, Asm.Route skippingCode past 8 → Asm.Route skippingCode (past ++ [8] ++ [9] ++ [10]) 11 :=
    fun hr => ((hr.step (.pass rfl rfl)).step (.pass rfl rfl)).step (.pass rfl rfl)
  have hroute : Asm.Route skippingCode [0, 1, 2, 3, 4, 5, 6, 7, 8, 9, 10, 11, 8, 9, 10, 11] 12 :=
    (hloop ((hloop (hfirst.step (.jump rfl rfl rfl))).step (.jump rfl rfl rfl))).step (.pass rfl rfl)
  refine ⟨hm, hlower, hentry, hroute, rfl, hhome, ?_⟩
  exact (loads_follow_stores hm hlower rfl hentry hroute rfl hhome).resolve_left (by decide)

end ThreeAddress
