import Mathlib.Data.List.Basic
import ThreeAddress.FlowGraph.Split

/-!
The blocks of a function, against its instructions.  Put one after the other, blocks give the instructions back, a
labelled block with its mark in front; within a block, only the last instruction can send control elsewhere, and the
ending of the block says how (`Formed`).

Main statement: the graph of a function describes it (`FlowGraph.describes_of_ofFunc`).
-/

namespace ThreeAddress

/-- Whether the instruction can send control elsewhere than to the next one. -/
def Instr.leaves (i : Instr) : Bool :=
  match i.flow with
  | .jump | .branch | .ret => true
  | .label | .straight => false

/-- An instruction is a mark, passes control on, or may send it elsewhere. -/
theorem Instr.kinds (i : Instr) : (∃ l, i = .mark l) ∨ i.flow = .straight ∨ i.leaves = true := by
  cases i with
  | mark l => exact .inl ⟨l, rfl⟩
  | move | const | unary | binary | memo | call => exact .inr (.inl rfl)
  | jump | branch | ret => exact .inr (.inr rfl)

theorem Instr.ofFlow_ne_fallsThrough {i : Instr} (h : i.leaves = true) : Ending.ofFlow i.flow ≠ .fallsThrough := by
  intro he
  cases hf : i.flow <;> simp [Instr.leaves, hf, Ending.ofFlow] at h he

/-- Instructions that control runs through from first to last, with the ending of the block they make. -/
inductive Formed : List Instr → Ending → Prop
  | falls {is : List Instr} : (∀ i ∈ is, i.flow = .straight) → Formed is .fallsThrough
  | leaves {is : List Instr} {i : Instr} : (∀ j ∈ is, j.flow = .straight) → i.leaves = true →
      Formed (is ++ [i]) (.ofFlow i.flow)

namespace Formed

variable {i : Instr} {is : List Instr} {e : Ending}

/-- The first instruction either goes on to the others or is the only one and leaves. -/
theorem of_cons (h : Formed (i :: is) e) :
    (i.flow = .straight ∧ Formed is e) ∨ (is = [] ∧ i.leaves = true ∧ e = .ofFlow i.flow) := by
  generalize hl : i :: is = l at h
  cases h with
  | falls hs =>
    subst hl
    exact .inl ⟨hs i List.mem_cons_self, .falls fun j hj => hs j (List.mem_cons_of_mem i hj)⟩
  | @leaves js j hs hj =>
    cases js with
    | nil =>
      obtain ⟨rfl, rfl⟩ := List.cons.inj hl
      exact .inr ⟨rfl, hj, rfl⟩
    | cons k js =>
      obtain ⟨rfl, rfl⟩ := List.cons.inj hl
      exact .inl ⟨hs i List.mem_cons_self, .leaves (fun k hk => hs k (List.mem_cons_of_mem i hk)) hj⟩

theorem ending_of_nil (h : Formed [] e) : e = .fallsThrough := by
  generalize hl : [] = l at h
  cases h with
  | falls => rfl
  | leaves => simp at hl

theorem flow_ne_label (h : Formed is e) (hi : i ∈ is) : i.flow ≠ .label := by
  cases h with
  | falls hs => rw [hs i hi]; decide
  | leaves hs hj =>
    rcases List.mem_append.1 hi with hi | hi
    · rw [hs i hi]; decide
    · rw [List.mem_singleton.1 hi]
      intro hf
      simp [Instr.leaves, hf] at hj

/-- Only the last instruction leaves. -/
theorem leaves_eq_false (h : Formed is e) (hi : i ∈ is.dropLast) : i.leaves = false := by
  have hflow : i.flow = .straight := by
    cases h with
    | falls hs => exact hs i (List.dropLast_subset is hi)
    | leaves hs _ =>
      rw [List.dropLast_concat] at hi
      exact hs i hi
  simp [Instr.leaves, hflow]

/-- Unless the block falls through, its last instruction leaves. -/
theorem leaves_of_getLast? (h : Formed is e) (he : e ≠ .fallsThrough) (hi : is.getLast? = some i) :
    i.leaves = true := by
  cases h with
  | falls => exact absurd rfl he
  | leaves _ hj =>
    rw [List.getLast?_concat] at hi
    exact Option.some.inj hi ▸ hj

/-- Of the instructions of a block, the one that leaves is the last, and there is one unless the block falls through. -/
theorem leaves_eq (h : Formed (i :: is) e) : i.leaves = (decide (e ≠ .fallsThrough) && is.isEmpty) := by
  rcases h.of_cons with ⟨hf, h⟩ | ⟨rfl, hl, rfl⟩
  · have hn : i.leaves = false := by simp [Instr.leaves, hf]
    cases is with
    | nil => simp [hn, h.ending_of_nil]
    | cons => simp [hn]
  · simp [hl, Instr.ofFlow_ne_fallsThrough hl]

/-- A block whose last instruction names a target ends with a jump or a branch. -/
theorem ending_of_target? {l : Label} (h : Formed is e) (hi : is.getLast? = some i) (ht : i.target? = some l) :
    e = .jumps ∨ e = .branches := by
  cases h with
  | falls hs =>
    have hf := hs i (List.mem_of_getLast? hi)
    cases i <;> simp [Instr.target?, Instr.flow] at ht hf
  | leaves =>
    rw [List.getLast?_concat] at hi
    cases Option.some.inj hi
    cases i <;> simp [Instr.target?] at ht <;> simp [Ending.ofFlow, Instr.flow]

end Formed

namespace FlowGraph

/-! ### Segments -/

def Segment.source (s : Segment) : List Instr := s.label.toList.map .mark ++ s.instrs

theorem Segment.source_close (s : Segment) : s.close.flatMap source = s.source := by
  obtain ⟨label, instrs, ending⟩ := s
  unfold close
  cases label <;> cases instrs <;> simp [source]

theorem cut_mark (label : Option Label) (pending : List Instr) (l : Label) (rest : List Instr) :
    cut label pending (.mark l :: rest) = Segment.close ⟨label, pending, .fallsThrough⟩ ++ cut (some l) [] rest := rfl

theorem cut_straight (label : Option Label) (pending : List Instr) {i : Instr} (h : i.flow = .straight)
    (rest : List Instr) : cut label pending (i :: rest) = cut label (pending ++ [i]) rest := by
  cases i <;> first | rfl | exact absurd h (by simp [Instr.flow])

theorem cut_leaves (label : Option Label) (pending : List Instr) {i : Instr} (h : i.leaves = true)
    (rest : List Instr) :
    cut label pending (i :: rest) = ⟨label, pending ++ [i], .ofFlow i.flow⟩ :: cut none [] rest := by
  cases i <;> first | rfl | exact absurd h (by simp [Instr.leaves, Instr.flow])

theorem flatMap_source_cut (label : Option Label) (pending rest : List Instr) :
    (cut label pending rest).flatMap Segment.source = label.toList.map .mark ++ (pending ++ rest) := by
  induction rest generalizing label pending with
  | nil => rw [cut, Segment.source_close, List.append_nil]; rfl
  | cons i rest ih =>
    rcases i.kinds with ⟨l, rfl⟩ | h | h
    · rw [cut_mark, List.flatMap_append, Segment.source_close, ih]
      simp [Segment.source]
    · rw [cut_straight _ _ h, ih]
      simp
    · rw [cut_leaves _ _ h, List.flatMap_cons, ih]
      simp [Segment.source]

theorem mem_close {s t : Segment} (h : t ∈ s.close) : t = s ∧ s.source ≠ [] := by
  unfold Segment.close at h
  split at h
  · simp at h
  · rename_i hn
    refine ⟨List.mem_singleton.1 h, fun he => hn ?_⟩
    simp only [Segment.source, List.append_eq_nil_iff, List.map_eq_nil_iff, Option.toList_eq_nil_iff] at he
    simp [he.1, he.2]

theorem mem_cut {label : Option Label} {pending rest : List Instr} {s : Segment}
    (hp : ∀ i ∈ pending, i.flow = .straight) (hs : s ∈ cut label pending rest) :
    Formed s.instrs s.ending ∧ s.source ≠ [] := by
  induction rest generalizing label pending with
  | nil =>
    obtain ⟨rfl, hn⟩ := mem_close hs
    exact ⟨.falls hp, hn⟩
  | cons i rest ih =>
    rcases i.kinds with ⟨l, rfl⟩ | h | h
    · rw [cut_mark] at hs
      rcases List.mem_append.1 hs with hs | hs
      · obtain ⟨rfl, hn⟩ := mem_close hs
        exact ⟨.falls hp, hn⟩
      · exact ih (by simp) hs
    · rw [cut_straight _ _ h] at hs
      refine ih (fun j hj => ?_) hs
      rcases List.mem_append.1 hj with hj | hj
      · exact hp j hj
      · rw [List.mem_singleton.1 hj, h]
    · rw [cut_leaves _ _ h] at hs
      rcases List.mem_cons.1 hs with rfl | hs
      · exact ⟨.leaves hp h, by simp [Segment.source]⟩
      · exact ih (by simp) hs

/-! ### Labels -/

end FlowGraph

/-- Two places in a list with the same key are one, if keys do not repeat. -/
theorem eq_of_nodup_filterMap {α β : Type} {k : α → Option β} {l : List α} (h : (l.filterMap k).Nodup) {i j : Nat}
    {a b : α} {x : β} (hi : l[i]? = some a) (hj : l[j]? = some b) (ha : k a = some x) (hb : k b = some x) : i = j := by
  rw [List.Nodup, List.pairwise_filterMap] at h
  have hlt : ∀ {i j : Nat} {a b : α}, l[i]? = some a → l[j]? = some b → k a = some x → k b = some x → ¬ i < j := by
    intro i j a b hi hj ha hb hij
    obtain ⟨hi', rfl⟩ := List.getElem?_eq_some_iff.1 hi
    obtain ⟨hj', rfl⟩ := List.getElem?_eq_some_iff.1 hj
    exact List.pairwise_iff_getElem.1 h i j hi' hj' hij x ha x hb rfl
  have h₁ := hlt hi hj ha hb
  have h₂ := hlt hj hi hb ha
  omega

def Instr.mark? : Instr → Option Label
  | mark l => some l
  | _ => none

def Func.marks (f : Func) : List Label := f.instrs.filterMap Instr.mark?

theorem Instr.mark?_eq_none {i : Instr} (h : i.flow ≠ .label) : i.mark? = none := by
  cases i <;> first | rfl | exact absurd rfl h

namespace FlowGraph

theorem filterMap_mark?_source {s : Segment} (h : Formed s.instrs s.ending) :
    s.source.filterMap Instr.mark? = s.label.toList := by
  have hn : s.instrs.filterMap Instr.mark? = [] :=
    List.filterMap_eq_nil_iff.2 fun i hi => Instr.mark?_eq_none (h.flow_ne_label hi)
  rw [Segment.source, List.filterMap_append, hn, List.append_nil]
  cases s.label <;> rfl

theorem labels_cut (f : Func) : (cut none [] f.instrs).filterMap Segment.label = f.marks := by
  have h : ∀ ss : List Segment, (∀ s ∈ ss, Formed s.instrs s.ending) →
      (ss.flatMap Segment.source).filterMap Instr.mark? = ss.filterMap Segment.label := by
    intro ss hss
    induction ss with
    | nil => rfl
    | cons s ss ih =>
      rw [List.flatMap_cons, List.filterMap_append, filterMap_mark?_source (hss s List.mem_cons_self),
        ih fun t ht => hss t (List.mem_cons_of_mem s ht), List.filterMap_cons]
      cases s.label <;> rfl
  have hs := flatMap_source_cut none [] f.instrs
  rw [Func.marks, ← h _ fun s hs => (mem_cut (by simp) hs).1, hs]
  rfl

theorem nodup_of_repeated? {seen rest : List Label} (h : repeated? seen rest = none) :
    rest.Nodup ∧ ∀ l ∈ rest, l ∉ seen := by
  induction rest generalizing seen with
  | nil => simp
  | cons l rest ih =>
    rw [repeated?] at h
    split at h
    · simp at h
    · rename_i hl
      obtain ⟨hn, hs⟩ := ih h
      refine ⟨List.nodup_cons.2 ⟨fun hm => hs l hm List.mem_cons_self, hn⟩, fun m hm => ?_⟩
      rcases List.mem_cons.1 hm with rfl | hm
      · exact hl
      · exact fun hms => hs m hm (List.mem_cons_of_mem l hms)

end FlowGraph

/-! ### Blocks -/

theorem Block.isSome_last? {b : Block} (h : Formed b.instrs b.ending) :
    b.last?.isSome = decide (b.ending ≠ .fallsThrough) := by
  have hne : b.ending ≠ .fallsThrough → b.steps ≠ [] := by
    intro he hs
    rw [Block.instrs, hs] at h
    exact he h.ending_of_nil
  unfold Block.last?
  cases he : b.ending <;> simp [he] at hne ⊢ <;> exact hne

def Block.segment (b : Block) : FlowGraph.Segment := ⟨b.label, b.instrs, b.ending⟩

namespace FlowGraph

def segments (g : FlowGraph) : List Segment := g.blocks.map Block.segment

variable {f : Func} {g g' : FlowGraph} {is : List Instr} {b : Block} {u : Nat}

theorem getElem?_segments (g : FlowGraph) (u : Nat) : g.segments[u]? = g.blocks[u]?.map Block.segment :=
  List.getElem?_map

theorem getElem?_segments_eq_some {s : Segment} :
    g.segments[u]? = some s ↔ ∃ b, g.blocks[u]? = some b ∧ b.segment = s := by
  rw [getElem?_segments, Option.map_eq_some_iff]

theorem length_of_segments (h : g'.segments = g.segments) : g'.blocks.length = g.blocks.length := by
  have hlen := congrArg List.length h
  rwa [segments, segments, List.length_map, List.length_map] at hlen

theorem segment_ofInstrs (u : Nat) (s : Segment) : (Block.ofInstrs u s.ending s.label s.instrs).segment = s := by
  simp [Block.segment, Block.instrs, Block.ofInstrs, Function.comp_def]

theorem getElem?_split (is : List Instr) (u : Nat) :
    (split is)[u]? = (cut none [] is)[u]?.map fun s => .ofInstrs u s.ending s.label s.instrs :=
  List.getElem?_mapIdx

theorem map_segment_split (is : List Instr) : (split is).map Block.segment = cut none [] is := by
  apply List.ext_getElem?
  intro u
  rw [List.getElem?_map, getElem?_split, Option.map_map]
  cases (cut none [] is)[u]? with
  | none => rfl
  | some s => exact congrArg some (segment_ofInstrs u s)

theorem id_of_split (h : (split is)[u]? = some b) : b.id = u := by
  rw [getElem?_split] at h
  obtain ⟨s, -, rfl⟩ := Option.map_eq_some_iff.1 h
  rfl

theorem formed_of_mem_split (hb : b ∈ split is) : Formed b.instrs b.ending := by
  have hm : b.segment ∈ cut none [] is := map_segment_split is ▸ List.mem_map_of_mem hb
  exact (mem_cut (by simp) hm).1

/-! ### Edges -/

theorem locate_eq_ok {bs : List Block} {l : Label} {v : Nat} (h : locate bs l = .ok v) :
    ∃ c, bs[v]? = some c ∧ c.label = some l := by
  unfold locate at h
  split at h
  · rename_i w hw
    cases Except.ok.inj h
    obtain ⟨hv, hc, -⟩ := List.findIdx?_eq_some_iff_getElem.1 hw
    exact ⟨bs[v], List.getElem?_eq_getElem hv, by simpa using hc⟩
  · simp at h

theorem leaving_eq_ok {bs rest : List Block} {es : List (Nat × Nat)} (h : leaving bs rest = .ok es) (hb : b ∈ rest) :
    ∃ ids, exits bs b = .ok ids ∧ ∀ v ∈ ids, (b.id, v) ∈ es := by
  induction rest generalizing es with
  | nil => simp at hb
  | cons c rest ih =>
    rw [leaving] at h
    cases hx : exits bs c with
    | error e => simp [hx, bind, Except.bind] at h
    | ok ids =>
      cases hm : leaving bs rest with
      | error e => simp [hx, hm, bind, Except.bind] at h
      | ok more =>
        simp only [hx, hm, bind, Except.bind, pure, Except.pure, Except.ok.injEq] at h
        subst h
        rcases List.mem_cons.1 hb with rfl | hb
        · exact ⟨ids, hx, fun v hv => List.mem_append_left _ (List.mem_map_of_mem hv)⟩
        · obtain ⟨ids', hx', hv⟩ := ih hm hb
          exact ⟨ids', hx', fun v h => List.mem_append_right _ (hv v h)⟩

theorem next_mem_exits {bs : List Block} {ids : List Nat} (h : exits bs b = .ok ids)
    (he : b.ending = .fallsThrough ∨ b.ending = .branches) (hl : b.id + 1 < bs.length) : b.id + 1 ∈ ids := by
  unfold exits at h
  rcases he with he | he <;> simp only [he, if_pos hl] at h
  · cases Except.ok.inj h
    exact List.mem_singleton.2 rfl
  · split at h
    · rename_i l _
      cases hv : locate bs l with
      | error e => simp [hv, Except.map] at h
      | ok v =>
        simp only [hv, Except.map, Except.ok.injEq] at h
        rw [← h]
        simp
    · simp only [Except.map, Except.ok.injEq] at h
      rw [← h]
      simp

theorem target_mem_exits {bs : List Block} {ids : List Nat} {l : Label} (h : exits bs b = .ok ids)
    (ht : b.target? = some l) (he : b.ending = .jumps ∨ b.ending = .branches) : ∃ v ∈ ids, locate bs l = .ok v := by
  unfold exits at h
  rw [ht] at h
  cases hv : locate bs l with
  | error e => rcases he with he | he <;> simp [he, hv, Except.map] at h
  | ok v =>
    refine ⟨v, ?_, rfl⟩
    rcases he with he | he
    · simp only [he, hv, Except.map, Except.ok.injEq] at h
      rw [← h]
      simp
    · simp only [he, hv, Except.map, Except.ok.injEq] at h
      rw [← h]
      simp

/-! ### The graph of a function -/

/-- The blocks of `g` are those of `f`, and its edges follow the ways that control takes between them. -/
structure Describes (g : FlowGraph) (f : Func) : Prop where
  segments : g.segments = cut none [] f.instrs
  distinct : f.marks.Nodup
  next : ∀ {u b}, g.blocks[u]? = some b → b.ending = .fallsThrough ∨ b.ending = .branches →
    u + 1 < g.blocks.length → (u, u + 1) ∈ g.edges
  target : ∀ {u b i l}, g.blocks[u]? = some b → b.instrs.getLast? = some i → i.target? = some l →
    ∃ v c, g.blocks[v]? = some c ∧ c.label = some l ∧ (u, v) ∈ g.edges

namespace Describes

theorem formed (h : g.Describes f) (hb : b ∈ g.blocks) : Formed b.instrs b.ending := by
  have hm : b.segment ∈ g.segments := List.mem_map_of_mem hb
  rw [h.segments] at hm
  exact (mem_cut (by simp) hm).1

theorem flatMap_source (h : g.Describes f) : g.segments.flatMap Segment.source = f.instrs := by
  rw [h.segments, flatMap_source_cut]
  rfl

theorem labels (h : g.Describes f) : g.blocks.filterMap Block.label = f.marks := by
  rw [← labels_cut, ← h.segments, FlowGraph.segments, List.filterMap_map]
  rfl

/-- Only the segments and the edges matter. -/
theorem congr (h : g.Describes f) (hs : g'.segments = g.segments) (he : g'.edges = g.edges) : g'.Describes f := by
  have hget : ∀ {u : Nat} {b : Block}, g'.blocks[u]? = some b → ∃ c, g.blocks[u]? = some c ∧ c.segment = b.segment := by
    intro u b hb
    exact getElem?_segments_eq_some.1 (hs ▸ getElem?_segments_eq_some.2 ⟨b, hb, rfl⟩)
  have hget' : ∀ {u : Nat} {c : Block}, g.blocks[u]? = some c → ∃ b, g'.blocks[u]? = some b ∧ b.segment = c.segment := by
    intro u b hb
    exact getElem?_segments_eq_some.1 (hs.symm ▸ getElem?_segments_eq_some.2 ⟨b, hb, rfl⟩)
  have hlen : g'.blocks.length = g.blocks.length := length_of_segments hs
  refine ⟨hs.trans h.segments, h.distinct, fun hb hend hl => ?_, fun hb hi hl => ?_⟩
  · obtain ⟨c, hc, hseg⟩ := hget hb
    rw [he]
    exact h.next hc (by rw [show c.ending = _ from congrArg Segment.ending hseg]; exact hend) (hlen ▸ hl)
  · obtain ⟨c, hc, hseg⟩ := hget hb
    obtain ⟨v, d, hd, hdl, hv⟩ := h.target hc
      (by rw [show c.instrs = _ from congrArg Segment.instrs hseg]; exact hi) hl
    obtain ⟨d', hd', hseg'⟩ := hget' hd
    exact ⟨v, d', hd', (congrArg Segment.label hseg').trans hdl, he ▸ hv⟩

end Describes

theorem target?_of_getLast? {i : Instr} {l : Label} (hi : b.instrs.getLast? = some i) (ht : i.target? = some l)
    (he : b.ending = .jumps ∨ b.ending = .branches) : b.target? = some l := by
  rw [Block.instrs, List.getLast?_map] at hi
  obtain ⟨s, hs, rfl⟩ := Option.map_eq_some_iff.1 hi
  unfold Block.target? Block.last?
  rcases he with he | he <;> simp [he, hs, ht]

theorem ofFunc_eq_ok (h : ofFunc f = .ok g) :
    g.blocks = split f.instrs ∧ repeated? [] (g.blocks.filterMap Block.label) = none ∧
      leaving g.blocks g.blocks = .ok g.edges := by
  unfold ofFunc at h
  dsimp only at h
  split at h
  · simp at h
  · rename_i hr
    cases hl : leaving (split f.instrs) (split f.instrs) with
    | error e => simp [hl, bind, Except.bind] at h
    | ok es =>
      simp only [hl, bind, Except.bind, ofBlocks] at h
      split at h
      · simp at h
      · cases Except.ok.inj h
        exact ⟨rfl, hr, hl⟩

/-- **The graph of a function describes it.** -/
theorem describes_of_ofFunc (h : ofFunc f = .ok g) : g.Describes f := by
  obtain ⟨hblocks, hr, hl⟩ := ofFunc_eq_ok h
  have hseg : g.blocks.map Block.segment = cut none [] f.instrs := hblocks ▸ map_segment_split f.instrs
  have hid : ∀ {u : Nat} {b : Block}, g.blocks[u]? = some b → b.id = u := fun hb => id_of_split (hblocks ▸ hb)
  refine ⟨hseg, ?_, fun {u b} hb he hlen => ?_, fun {u b i l} hb hi ht => ?_⟩
  · rw [← labels_cut, ← hseg, List.filterMap_map]
    exact (nodup_of_repeated? hr).1
  · obtain ⟨ids, hx, hv⟩ := leaving_eq_ok hl (List.mem_of_getElem? hb)
    rw [hid hb] at hv
    exact hv _ (hid hb ▸ next_mem_exits hx he (by rw [hid hb]; exact hlen))
  · obtain ⟨ids, hx, hv⟩ := leaving_eq_ok hl (List.mem_of_getElem? hb)
    rw [hid hb] at hv
    have he := (formed_of_mem_split (hblocks ▸ List.mem_of_getElem? hb)).ending_of_target? hi ht
    obtain ⟨v, hvm, hloc⟩ := target_mem_exits hx (target?_of_getLast? hi ht he) he
    obtain ⟨c, hc, hcl⟩ := locate_eq_ok hloc
    exact ⟨v, c, hc, hcl, hv v hvm⟩

end FlowGraph

end ThreeAddress
