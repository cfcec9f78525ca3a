import ThreeAddress.Proofs.FlowGraph.Reach

/-!
Flow graphs against the positions of instructions.  Control passes from an instruction to the next one, unless it is a
jump or a return, and from a jump or branch to the mark with its label (`Func.Passes`).  The blocks of a function lie
one after the other in its instructions, so a position is a place in one block (`Lies`).  Control that passes from one
place to another either goes on in its block, or comes from the last place of a block to the first of one that an edge
joins it to (`passes_iff`).

Main statement: the edges are the ways between blocks, and the reachable blocks hold the positions that control can come
to (`FlowGraph.edges_follow_control`).
-/

namespace ThreeAddress

namespace FlowGraph

/-! ### Edges -/

/-- The label that control may go to from the end of a segment. -/
def Segment.target? (s : Segment) : Option Label := s.instrs.getLast?.bind Instr.target?

/-- From the end of the segment at `u`, control may pass to the segment at `v`: the next one, or the one with the label
that the segment at `u` goes to. -/
def Leads (ss : List Segment) (u v : Nat) : Prop :=
  ∃ s t, ss[u]? = some s ∧ ss[v]? = some t ∧
    ((s.ending = .fallsThrough ∨ s.ending = .branches) ∧ v = u + 1 ∨ ∃ l, s.target? = some l ∧ t.label = some l)

variable {f : Func} {g : FlowGraph} {bs rest : List Block} {b : Block} {ids : List Nat} {es : List (Nat × Nat)}
  {l : Label} {u v : Nat}

theorem exits_of_mem_leaving (h : leaving bs rest = .ok es) (he : (u, v) ∈ es) :
    ∃ b ∈ rest, b.id = u ∧ ∃ ids, exits bs b = .ok ids ∧ v ∈ ids := by
  induction rest generalizing es with
  | nil =>
    cases Except.ok.inj h
    simp at he
  | cons c rest ih =>
    rw [leaving] at h
    cases hx : exits bs c with
    | error e => simp [hx, bind, Except.bind] at h
    | ok ids =>
      cases hm : leaving bs rest with
      | error e => simp [hx, hm, bind, Except.bind] at h
      | ok more =>
        simp only [hx, hm, bind, Except.bind, pure, Except.pure, Except.ok.injEq] at h
        subst h
        rcases List.mem_append.1 he with he | he
        · obtain ⟨w, hw, heq⟩ := List.mem_map.1 he
          obtain ⟨rfl, rfl⟩ := Prod.mk.inj heq
          exact ⟨c, List.mem_cons_self, rfl, ids, hx, hw⟩
        · obtain ⟨d, hd, hid, hids⟩ := ih hm he
          exact ⟨d, List.mem_cons_of_mem c hd, hid, hids⟩

/-- An exit is the next block, if control can go on there, or the block with the label of the target. -/
theorem of_mem_exits (h : exits bs b = .ok ids) (hv : v ∈ ids) :
    (b.ending = .fallsThrough ∨ b.ending = .branches) ∧ v = b.id + 1 ∧ v < bs.length ∨
      ∃ l, b.target? = some l ∧ locate bs l = .ok v := by
  have hnext : v ∈ (if b.id + 1 < bs.length then [b.id + 1] else []) → v = b.id + 1 ∧ v < bs.length := by
    intro hv
    split at hv
    · rename_i hlt
      rw [List.mem_singleton.1 hv]
      exact ⟨rfl, hlt⟩
    · simp at hv
  -- The ways by the label of the target, apart from how the block ends.
  let target : Except LowerError (List Nat) := b.target?.elim (.ok []) fun l => (locate bs l).map fun id => [id]
  have htarget : ∀ ids, target = .ok ids → v ∈ ids → ∃ l, b.target? = some l ∧ locate bs l = .ok v := by
    intro ids hids hv
    cases hl : b.target? with
    | none =>
      simp only [target, hl, Option.elim_none] at hids
      cases Except.ok.inj hids
      simp at hv
    | some l =>
      simp only [target, hl, Option.elim_some] at hids
      cases hloc : locate bs l with
      | error e => simp [hloc, Except.map] at hids
      | ok w =>
        rw [hloc] at hids
        cases Except.ok.inj hids
        rw [List.mem_singleton.1 hv]
        exact ⟨l, rfl, hloc⟩
  unfold exits at h
  cases he : b.ending with
  | fallsThrough =>
    rw [he] at h
    cases Except.ok.inj h
    exact .inl ⟨.inl rfl, hnext hv⟩
  | jumps =>
    rw [he] at h
    refine .inr (htarget ids ?_ hv)
    rw [← h]
    cases ht : b.target? <;> simp only [target, ht] <;> rfl
  | branches =>
    rw [he] at h
    have hmap : (target.map fun ids => ids ++ if b.id + 1 < bs.length then [b.id + 1] else []) = .ok ids := by
      rw [← h]
      cases ht : b.target? <;> simp only [target, ht] <;> rfl
    cases hok : target with
    | error e => simp [hok, Except.map] at hmap
    | ok ts =>
      rw [hok] at hmap
      cases Except.ok.inj hmap
      rcases List.mem_append.1 hv with hv | hv
      · exact .inr (htarget ts hok hv)
      · exact .inl ⟨.inr rfl, hnext hv⟩
  | returns =>
    rw [he] at h
    cases Except.ok.inj h
    simp at hv

theorem target?_segment (h : b.target? = some l) : b.segment.target? = some l := by
  obtain ⟨s, hs, ht⟩ := Option.bind_eq_some_iff.1 h
  have hlast : b.steps.getLast? = some s := by
    unfold Block.last? at hs
    cases he : b.ending <;> simp only [he, reduceCtorEq] at hs
    all_goals exact hs
  have hinstr : b.instrs.getLast? = some s.instr := by
    rw [Block.instrs, List.getLast?_map, hlast]
    rfl
  rw [Segment.target?, show b.segment.instrs = b.instrs from rfl, hinstr]
  exact ht

/-- **The edges are the ways that control takes between segments.** -/
theorem mem_edges_iff (h : ofFunc f = .ok g) : (u, v) ∈ g.edges ↔ Leads g.segments u v := by
  obtain ⟨hblocks, -, hl⟩ := ofFunc_eq_ok h
  have hd := describes_of_ofFunc h
  constructor
  · intro he
    obtain ⟨b, hb, rfl, ids, hx, hv⟩ := exits_of_mem_leaving hl he
    obtain ⟨w, hw⟩ := List.getElem?_of_mem hb
    obtain rfl : b.id = w := id_of_split (hblocks ▸ hw)
    have hs : g.segments[b.id]? = some b.segment := getElem?_segments_eq_some.2 ⟨b, hw, rfl⟩
    rcases of_mem_exits hx hv with ⟨hend, rfl, hlt⟩ | ⟨l, ht, hloc⟩
    · have hnext := getElem?_segments_eq_some.2 ⟨_, List.getElem?_eq_getElem hlt, rfl⟩
      exact ⟨b.segment, _, hs, hnext, .inl ⟨hend, rfl⟩⟩
    · obtain ⟨c, hc, hcl⟩ := locate_eq_ok hloc
      have htarget := getElem?_segments_eq_some.2 ⟨c, hc, rfl⟩
      exact ⟨b.segment, c.segment, hs, htarget, .inr ⟨l, target?_segment ht, hcl⟩⟩
  · rintro ⟨s, t, hs, ht, hway⟩
    obtain ⟨b, hb, rfl⟩ := getElem?_segments_eq_some.1 hs
    obtain ⟨c, hc, rfl⟩ := getElem?_segments_eq_some.1 ht
    rcases hway with ⟨hend, rfl⟩ | ⟨l, htl, hcl⟩
    · exact hd.next hb hend (List.getElem?_eq_some_iff.1 hc).1
    · obtain ⟨i, hi, hil⟩ := Option.bind_eq_some_iff.1 htl
      obtain ⟨w, d, hw, hdl, he⟩ := hd.target hb hi hil
      have hn : (g.blocks.filterMap Block.label).Nodup := hd.labels ▸ hd.distinct
      obtain rfl : w = v := eq_of_nodup_filterMap hn hw hc hdl hcl
      exact he

end FlowGraph

/-! ### Positions -/

/-- Control may pass from the instruction at position `p` to the one at position `q`: to the next one, unless the
instruction is a jump or a return, and from a jump or branch to the mark with its label. -/
def Func.Passes (f : Func) (p q : Nat) : Prop :=
  ∃ i j, f.instrs[p]? = some i ∧ f.instrs[q]? = some j ∧
    ((i.flow ≠ .jump ∧ i.flow ≠ .ret) ∧ q = p + 1 ∨ ∃ l, i.target? = some l ∧ j = .mark l)

/-- The instructions that a block stands for: the mark of its label, if it has one, and its own. -/
def Block.source (b : Block) : List Instr := b.label.toList.map .mark ++ b.instrs

/-- The instructions of a block one by one: all but the last go on, and the last ends the block. -/
theorem Formed.of_getElem? {is : List Instr} {e : Ending} {i : Instr} {k : Nat} (h : Formed is e)
    (hi : is[k]? = some i) : (k + 1 < is.length → i.flow = .straight) ∧ (k + 1 = is.length → e = .ofFlow i.flow) := by
  cases h with
  | falls hs =>
    have hf := hs i (List.mem_of_getElem? hi)
    exact ⟨fun _ => hf, fun _ => by rw [hf]; rfl⟩
  | @leaves js j hs hj =>
    rw [List.length_append, List.length_singleton]
    refine ⟨fun hk => ?_, fun hk => ?_⟩
    · rw [List.getElem?_append_left (by omega)] at hi
      exact hs i (List.mem_of_getElem? hi)
    · obtain rfl : k = js.length := by omega
      rw [List.getElem?_concat_length] at hi
      rw [Option.some.inj hi]

namespace Block

variable {b : Block} {i : Instr} {l : Label} {k : Nat}

theorem length_source (b : Block) : b.source.length = b.label.toList.length + b.instrs.length := by
  rw [source, List.length_append, List.length_map]

theorem source_cases (hi : b.source[k]? = some i) :
    (k = 0 ∧ ∃ l, b.label = some l ∧ i = .mark l) ∨ ∃ m, k = b.label.toList.length + m ∧ b.instrs[m]? = some i := by
  unfold source at hi
  cases hl : b.label with
  | none =>
    rw [hl] at hi
    exact .inr ⟨k, (Nat.zero_add k).symm, hi⟩
  | some l =>
    rw [hl] at hi
    cases k with
    | zero => exact .inl ⟨rfl, l, rfl, (Option.some.inj hi).symm⟩
    | succ m => exact .inr ⟨m, Nat.add_comm m 1, hi⟩

/-- Before the last place of a block, control goes on to the next. -/
theorem passesOn_of_inner (hf : Formed b.instrs b.ending) (hi : b.source[k]? = some i) (hk : k + 1 < b.source.length) :
    i.leaves = false := by
  rw [length_source] at hk
  rcases source_cases hi with ⟨-, l, -, rfl⟩ | ⟨m, rfl, hm⟩
  · rfl
  · have hflow := (hf.of_getElem? hm).1 (by omega)
    simp [Instr.leaves, hflow]

/-- The last place of a block decides how the block ends and where it leads. -/
theorem ending_of_last (hf : Formed b.instrs b.ending) (hi : b.source[k]? = some i) (hk : k + 1 = b.source.length) :
    b.ending = .ofFlow i.flow ∧ b.segment.target? = i.target? := by
  rw [length_source] at hk
  have htarget : b.segment.target? = b.instrs.getLast?.bind Instr.target? := rfl
  rcases source_cases hi with ⟨rfl, l, hl, rfl⟩ | ⟨m, rfl, hm⟩
  · have hnil : b.instrs = [] := by
      apply List.eq_nil_of_length_eq_zero
      rw [hl] at hk
      simpa using hk
    rw [hnil] at hf htarget
    exact ⟨hf.ending_of_nil, htarget⟩
  · have hlen : m + 1 = b.instrs.length := by omega
    have hlast : b.instrs.getLast? = some i := by rw [List.getLast?_eq_getElem?, ← hlen]; exact hm
    rw [hlast] at htarget
    exact ⟨(hf.of_getElem? hm).2 hlen, htarget⟩

/-- A mark stands at the start of the block with its label, and nowhere else. -/
theorem getElem?_source_eq_mark (hf : Formed b.instrs b.ending) :
    b.source[k]? = some (.mark l) ↔ k = 0 ∧ b.label = some l := by
  constructor
  · intro hi
    rcases source_cases hi with ⟨hk, m, hm, heq⟩ | ⟨m, -, hm⟩
    · exact ⟨hk, by rw [hm, Instr.mark.inj heq]⟩
    · exact absurd rfl (hf.flow_ne_label (List.mem_of_getElem? hm))
  · rintro ⟨rfl, hl⟩
    rw [source, hl]
    rfl

end Block

namespace FlowGraph

def first (g : FlowGraph) (u : Nat) : Nat := ((g.blocks.take u).flatMap Block.source).length

def last (g : FlowGraph) (u : Nat) : Nat := g.first (u + 1) - 1

/-- Position `p` is place `k` of block `u`, which is `b`. -/
structure Lies (g : FlowGraph) (u : Nat) (b : Block) (k p : Nat) : Prop where
  block : g.blocks[u]? = some b
  inside : k < b.source.length
  eq : p = g.first u + k

variable {f : Func} {g : FlowGraph} {b c : Block} {k m p q u v : Nat}

theorem Describes.flatMap_source_blocks (h : g.Describes f) : g.blocks.flatMap Block.source = f.instrs := by
  rw [← h.flatMap_source, FlowGraph.segments, List.flatMap_map]
  rfl

theorem Describes.length_source_pos (h : g.Describes f) (hb : b ∈ g.blocks) : 0 < b.source.length := by
  have hm : b.segment ∈ g.segments := List.mem_map_of_mem hb
  rw [h.segments] at hm
  exact List.length_pos_iff.2 (mem_cut (by simp) hm).2

theorem first_succ (hb : g.blocks[u]? = some b) : g.first (u + 1) = g.first u + b.source.length := by
  unfold first
  rw [List.take_add_one, hb]
  simp

theorem first_mono (g : FlowGraph) (h : u ≤ v) : g.first u ≤ g.first v := by
  unfold first
  have htake : g.blocks.take u <+: g.blocks.take v := List.take_prefix_take_left h
  obtain ⟨bs, hbs⟩ := htake
  rw [← hbs, List.flatMap_append, List.length_append]
  omega

namespace Lies

theorem unique (h : g.Lies u b k p) (h' : g.Lies v c m p) : u = v ∧ k = m := by
  have hu := first_succ h.block
  have hv := first_succ h'.block
  have hk := h.inside
  have hm := h'.inside
  have hp := h.eq
  have hp' := h'.eq
  obtain rfl : u = v := by
    rcases Nat.lt_trichotomy u v with hlt | heq | hlt
    · have hle : g.first (u + 1) ≤ g.first v := g.first_mono hlt
      omega
    · exact heq
    · have hle : g.first (v + 1) ≤ g.first u := g.first_mono hlt
      omega
  exact ⟨rfl, by omega⟩

theorem getElem? (h : g.Lies u b k p) (hd : g.Describes f) : f.instrs[p]? = b.source[k]? := by
  obtain ⟨hu, hb⟩ := List.getElem?_eq_some_iff.1 h.block
  have hsplit : f.instrs =
      (g.blocks.take u).flatMap Block.source ++ (b.source ++ (g.blocks.drop (u + 1)).flatMap Block.source) := by
    rw [← hd.flatMap_source_blocks, ← List.flatMap_cons, ← List.flatMap_append, ← hb, List.getElem_cons_drop,
      List.take_append_drop]
  rw [hsplit, h.eq, first, List.getElem?_append_right (Nat.le_add_right _ _), Nat.add_sub_cancel_left,
    List.getElem?_append_left h.inside]

theorem next (h : g.Lies u b k p) (hk : k + 1 < b.source.length) : g.Lies u b (k + 1) (p + 1) :=
  ⟨h.block, hk, by rw [h.eq, Nat.add_assoc]⟩

end Lies

theorem lies_first (hb : g.blocks[u]? = some b) (hd : g.Describes f) : g.Lies u b 0 (g.first u) :=
  ⟨hb, hd.length_source_pos (List.mem_of_getElem? hb), rfl⟩

theorem lies_last (hb : g.blocks[u]? = some b) (hd : g.Describes f) :
    g.Lies u b (b.source.length - 1) (g.last u) := by
  have hpos := hd.length_source_pos (List.mem_of_getElem? hb)
  refine ⟨hb, by omega, ?_⟩
  rw [last, first_succ hb]
  omega

theorem exists_lies (hd : g.Describes f) (hp : p < f.instrs.length) : ∃ u b k, g.Lies u b k p := by
  have hbelow : ∀ n, p < g.first n → ∃ u b k, g.Lies u b k p := by
    intro n
    induction n with
    | zero => exact fun h => absurd h (Nat.not_lt_zero p)
    | succ n ih =>
      intro hn
      by_cases hlt : p < g.first n
      · exact ih hlt
      · cases hb : g.blocks[n]? with
        | none =>
          have hsame : g.first (n + 1) = g.first n := by simp [first, List.take_add_one, hb]
          omega
        | some b =>
          rw [first_succ hb] at hn
          exact ⟨n, b, p - g.first n, hb, by omega, by omega⟩
  apply hbelow g.blocks.length
  rw [first, List.take_length, hd.flatMap_source_blocks]
  exact hp

/-- After the last place of a block comes the first place of the next. -/
theorem Lies.after (hp : g.Lies u b k p) (hk : k + 1 = b.source.length) (hq : g.Lies v c m (p + 1))
    (hd : g.Describes f) : v = u + 1 ∧ m = 0 := by
  have hfirst : p + 1 = g.first (u + 1) := by rw [first_succ hp.block, hp.eq]; omega
  have hv := first_succ hq.block
  have hm := hq.inside
  have heq := hq.eq
  have huv : u < v := by
    by_contra hle
    have hmono : g.first (v + 1) ≤ g.first (u + 1) := g.first_mono (by omega)
    omega
  have hvlen := (List.getElem?_eq_some_iff.1 hq.block).1
  have hnext := lies_first (List.getElem?_eq_getElem (show u + 1 < g.blocks.length by omega)) hd
  rw [← hfirst] at hnext
  exact hq.unique hnext

/-- **Control goes on within a block, and between blocks it passes along an edge, from the last place to the first.** -/
theorem passes_iff (h : ofFunc f = .ok g) (hp : g.Lies u b k p) (hq : g.Lies v c m q) :
    f.Passes p q ↔ (u = v ∧ m = k + 1) ∨ (k + 1 = b.source.length ∧ m = 0 ∧ (u, v) ∈ g.edges) := by
  have hd := describes_of_ofFunc h
  have hfb := hd.formed (List.mem_of_getElem? hp.block)
  have hfc := hd.formed (List.mem_of_getElem? hq.block)
  have hsu : g.segments[u]? = some b.segment := getElem?_segments_eq_some.2 ⟨b, hp.block, rfl⟩
  have hsv : g.segments[v]? = some c.segment := getElem?_segments_eq_some.2 ⟨c, hq.block, rfl⟩
  have hi := hp.getElem? hd
  have hj := hq.getElem? hd
  rw [mem_edges_iff h]
  constructor
  · rintro ⟨i, j, hpi, hqj, hway⟩
    rw [hi] at hpi
    rw [hj] at hqj
    have hk := hp.inside
    rcases hway with ⟨⟨hnj, hnr⟩, rfl⟩ | ⟨l, hl, rfl⟩
    · by_cases hin : k + 1 < b.source.length
      · obtain ⟨huv, hkm⟩ := (hp.next hin).unique hq
        exact .inl ⟨huv, hkm.symm⟩
      · have hlast : k + 1 = b.source.length := by omega
        obtain ⟨rfl, rfl⟩ := hp.after hlast hq hd
        refine .inr ⟨hlast, rfl, b.segment, c.segment, hsu, hsv, .inl ⟨?_, rfl⟩⟩
        rw [show b.segment.ending = b.ending from rfl, (Block.ending_of_last hfb hpi hlast).1]
        cases hf : i.flow <;> simp_all [Ending.ofFlow]
    · have hlast : k + 1 = b.source.length := by
        by_contra hne
        have hstay := Block.passesOn_of_inner hfb hpi (by omega)
        cases i <;> simp [Instr.target?, Instr.leaves, Instr.flow] at hl hstay
      obtain ⟨rfl, hcl⟩ := (Block.getElem?_source_eq_mark hfc).1 hqj
      exact .inr ⟨hlast, rfl, b.segment, c.segment, hsu, hsv,
        .inr ⟨l, (Block.ending_of_last hfb hpi hlast).2.trans hl, hcl⟩⟩
  · have hpi := hi.trans (List.getElem?_eq_getElem hp.inside)
    have hqj := hj.trans (List.getElem?_eq_getElem hq.inside)
    rintro (⟨rfl, rfl⟩ | ⟨hlast, rfl, s, t, hs, ht, hway⟩)
    · cases Option.some.inj (hp.block.symm.trans hq.block)
      have hstay := Block.passesOn_of_inner hfb (List.getElem?_eq_getElem hp.inside) hq.inside
      refine ⟨_, _, hpi, hqj, .inl ⟨⟨?_, ?_⟩, by rw [hq.eq, hp.eq, Nat.add_assoc]⟩⟩
      all_goals
        intro hf
        simp [Instr.leaves, hf] at hstay
    · cases Option.some.inj (hsu.symm.trans hs)
      cases Option.some.inj (hsv.symm.trans ht)
      obtain ⟨hend, htarget⟩ := Block.ending_of_last hfb (List.getElem?_eq_getElem hp.inside) hlast
      rcases hway with ⟨hgo, rfl⟩ | ⟨l, hl, hcl⟩
      · rw [show b.segment.ending = b.ending from rfl, hend] at hgo
        refine ⟨_, _, hpi, hqj, .inl ⟨⟨?_, ?_⟩, ?_⟩⟩
        · intro hf
          simp [hf, Ending.ofFlow] at hgo
        · intro hf
          simp [hf, Ending.ofFlow] at hgo
        · rw [hq.eq, hp.eq, first_succ hp.block]
          omega
      · have hmark := (Block.getElem?_source_eq_mark hfc).2 ⟨rfl, hcl⟩
        exact ⟨_, _, hpi, hj.trans hmark, .inr ⟨l, htarget.symm.trans hl, rfl⟩⟩

/-! ### Control and reachable blocks -/

/-- An edge joins two blocks if control may pass from the end of the one to the start of the other. -/
theorem mem_edges_iff_passes (h : ofFunc f = .ok g) :
    (u, v) ∈ g.edges ↔ u < g.blocks.length ∧ v < g.blocks.length ∧ f.Passes (g.last u) (g.first v) := by
  have hd := describes_of_ofFunc h
  have hends : ∀ {b c : Block}, g.blocks[u]? = some b → g.blocks[v]? = some c →
      (f.Passes (g.last u) (g.first v) ↔ (u, v) ∈ g.edges) := by
    intro b c hb hc
    have hpos := hd.length_source_pos (List.mem_of_getElem? hb)
    refine (passes_iff h (lies_last hb hd) (lies_first hc hd)).trans ⟨?_, fun he => .inr ⟨by omega, rfl, he⟩⟩
    rintro (⟨-, hk⟩ | ⟨-, -, he⟩)
    · omega
    · exact he
  constructor
  · intro he
    obtain ⟨s, t, hs, ht, -⟩ := (mem_edges_iff h).1 he
    obtain ⟨b, hb, -⟩ := getElem?_segments_eq_some.1 hs
    obtain ⟨c, hc, -⟩ := getElem?_segments_eq_some.1 ht
    exact ⟨(List.getElem?_eq_some_iff.1 hb).1, (List.getElem?_eq_some_iff.1 hc).1, (hends hb hc).2 he⟩
  · rintro ⟨hu, hv, hpass⟩
    exact (hends (List.getElem?_eq_getElem hu) (List.getElem?_eq_getElem hv)).1 hpass

/-- From the start of a block control comes to every place of it. -/
theorem reaches_place (h : ofFunc f = .ok g) (hp : g.Lies u b k p) :
    Relation.ReflTransGen f.Passes (g.first u) p := by
  induction k generalizing p with
  | zero =>
    rw [hp.eq]
    exact .refl
  | succ k ih =>
    have hprev : g.Lies u b k (g.first u + k) := ⟨hp.block, Nat.lt_of_succ_lt hp.inside, rfl⟩
    exact (ih hprev).tail ((passes_iff h hprev hp).2 (.inl ⟨rfl, rfl⟩))

/-- Along a path of edges control comes to the start of a block. -/
theorem reaches_first (h : ofFunc f = .ok g) (hpath : Relation.ReflTransGen (fun v w => (v, w) ∈ g.edges) 0 u) :
    Relation.ReflTransGen f.Passes 0 (g.first u) := by
  have hd := describes_of_ofFunc h
  induction hpath with
  | refl => exact .refl
  | @tail v w _ he ih =>
    obtain ⟨hv, -, hpass⟩ := (mem_edges_iff_passes h).1 he
    have hlast := lies_last (List.getElem?_eq_getElem hv) hd
    exact (ih.trans (reaches_place h hlast)).tail hpass

/-- Control that starts at the entry stays in the reachable blocks. -/
theorem mem_reachable_of_reaches (h : ofFunc f = .ok g) (hp : g.Lies u b k p)
    (hpath : Relation.ReflTransGen f.Passes 0 p) : u ∈ g.reachable := by
  have hd := describes_of_ofFunc h
  induction hpath generalizing u b k with
  | refl =>
    have hne : g.blocks ≠ [] := List.ne_nil_of_mem (List.mem_of_getElem? hp.block)
    have hzero := lies_first (List.getElem?_eq_getElem (List.length_pos_iff.2 hne)) hd
    obtain ⟨rfl, -⟩ := hp.unique hzero
    exact zero_mem_reachable hne
  | @tail q p _ hpass ih =>
    obtain ⟨i, -, hi, -⟩ := id hpass
    obtain ⟨v, c, m, hq⟩ := exists_lies hd (List.getElem?_eq_some_iff.1 hi).1
    rcases (passes_iff h hq hp).1 hpass with ⟨rfl, -⟩ | ⟨-, -, he⟩
    · exact ih hq
    · exact reachable_closed (ih hq) he (List.getElem?_eq_some_iff.1 hp.block).1

/-- **The graph of a function agrees with its control flow.**  The blocks lie one after the other in the instructions;
an edge joins two blocks if control may pass from the last instruction of the one to the first of the other; and the
positions in reachable blocks are those that control can come to from the first. -/
theorem edges_follow_control (h : ofFunc f = .ok g) :
    g.blocks.flatMap Block.source = f.instrs ∧
      (∀ u v, (u, v) ∈ g.edges ↔
        u < g.blocks.length ∧ v < g.blocks.length ∧ f.Passes (g.last u) (g.first v)) ∧
      ∀ p, (∃ u ∈ g.reachable, g.first u ≤ p ∧ p ≤ g.last u) ↔
        p < f.instrs.length ∧ Relation.ReflTransGen f.Passes 0 p := by
  have hd := describes_of_ofFunc h
  refine ⟨hd.flatMap_source_blocks, fun _ _ => mem_edges_iff_passes h, fun p => ⟨?_, ?_⟩⟩
  · rintro ⟨u, hu, hfirst, hlast⟩
    obtain ⟨hlt, hpath⟩ := mem_reachable_iff.1 hu
    have hb := List.getElem?_eq_getElem hlt
    have hend := (lies_last hb hd).eq
    have hpos := hd.length_source_pos (List.mem_of_getElem? hb)
    have hp : g.Lies u g.blocks[u] (p - g.first u) p := ⟨hb, by omega, by omega⟩
    have hi := (hp.getElem? hd).trans (List.getElem?_eq_getElem hp.inside)
    exact ⟨(List.getElem?_eq_some_iff.1 hi).1, (reaches_first h hpath).trans (reaches_place h hp)⟩
  · rintro ⟨hlt, hpath⟩
    obtain ⟨u, b, k, hp⟩ := exists_lies hd hlt
    have hend := (lies_last hp.block hd).eq
    have hk := hp.inside
    have heq := hp.eq
    exact ⟨u, mem_reachable_of_reaches h hp hpath, by omega, by omega⟩

/-- Control jumps over the block at 2 and the empty block `A` at 3, to the block `E` at 4, which it may repeat before
it returns. -/
def skipping : Func := ⟨⟨"f"⟩, [⟨0⟩], [.const (.temp ⟨1⟩) 1, .jump ⟨"E"⟩, .move (.temp ⟨2⟩) (.temp ⟨1⟩),
  .mark ⟨"A"⟩, .mark ⟨"E"⟩, .branch .isNonzero (.temp ⟨0⟩) ⟨"E"⟩, .ret (some (.temp ⟨1⟩))]⟩

def skippingGraph : FlowGraph := ⟨split skipping.instrs, [(0, 3), (1, 2), (2, 3), (3, 3), (3, 4)]⟩

/-- Control passes from the empty block to the next, although it comes to the second only. -/
theorem edges_follow_control_skipping : ofFunc skipping = .ok skippingGraph ∧ skipping.Passes 3 4 ∧
    ¬ Relation.ReflTransGen skipping.Passes 0 3 ∧ Relation.ReflTransGen skipping.Passes 0 4 := by
  have hok : ofFunc skipping = .ok skippingGraph := rfl
  obtain ⟨-, hedges, hreach⟩ := edges_follow_control hok
  refine ⟨hok, ((hedges 2 3).1 (by decide)).2.2, fun hpath => ?_, ?_⟩
  · have hnone : ¬ ∃ u ∈ skippingGraph.reachable, skippingGraph.first u ≤ 3 ∧ 3 ≤ skippingGraph.last u := by decide
    exact hnone ((hreach 3).2 ⟨by decide, hpath⟩)
  · exact ((hreach 4).1 ⟨3, by decide, by decide, by decide⟩).2

end FlowGraph

end ThreeAddress
