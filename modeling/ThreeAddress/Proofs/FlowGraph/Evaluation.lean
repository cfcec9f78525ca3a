import ThreeAddress.Proofs.Evaluation
import ThreeAddress.Proofs.FlowGraph.Split

/-!
The meaning of a flow graph, and that the graph of a function means what the function means.  `FlowGraph.Evaluates`
runs over the instructions of a block and passes from block to block along edges.

Main statement: a run of the instructions of a function is a run of any graph that describes it
(`FlowGraph.Describes.evaluates`).
-/

namespace ThreeAddress

/-- The values after an instruction of a block, and the call it makes.  An instruction that leaves the block only reads
its operand. -/
inductive Instr.Advances (E : Env) : Instr → List Call → Env → Prop
  | effect {i : Instr} {E' : Env} : i.effect? E = some E' → Advances E i [] E'
  | call {dst : Option Operand} {l : Label} {args : List Operand} {ws : List Word} {x : Option Word} :
      E.readAll args = some ws → Advances E (.call dst l args) [⟨l, ws, x⟩] (E.receive dst x)
  | leaves {i : Instr} {ws : List Word} : i.leaves = true → E.readAll i.srcs = some ws → Advances E i [] E

theorem Instr.effect?_kind {E E' : Env} {i : Instr} (h : i.effect? E = some E') :
    i.isCall = false ∧ i.leaves = false := by
  cases i <;> first | exact ⟨rfl, rfl⟩ | simp [effect?] at h

namespace FlowGraph

def instrsAt (g : FlowGraph) (u : Nat) : List Instr := (g.blocks[u]?.map Block.instrs).getD []

/-- From the instructions `is` left of block `u` and the values `E`, the run ends, with calls `T` and value `v`.  Control
is after the last block when it has run through that. -/
inductive Evaluates (g : FlowGraph) : Nat → List Instr → Env → List Call → Option Word → Prop
  | advance {u : Nat} {i : Instr} {is : List Instr} {E E' : Env} {evs T : List Call} {v : Option Word} :
      i.flow = .straight → i.Advances E evs E' → Evaluates g u is E' T v → Evaluates g u (i :: is) E (evs ++ T) v
  | next {u : Nat} {b : Block} {E : Env} {T : List Call} {v : Option Word} : g.blocks[u]? = some b →
      b.ending = .fallsThrough → Evaluates g (u + 1) (g.instrsAt (u + 1)) E T v → Evaluates g u [] E T v
  | jump {u w : Nat} {c : Block} {l : Label} {E : Env} {T : List Call} {v : Option Word} :
      (u, w) ∈ g.edges → g.blocks[w]? = some c → c.label = some l → Evaluates g w c.instrs E T v →
      Evaluates g u [.jump l] E T v
  | taken {u w : Nat} {c : Block} {test : Test} {op : Operand} {l : Label} {x : Word} {E : Env} {T : List Call}
      {v : Option Word} : E.read op = some x → test.passes x = true →
      (u, w) ∈ g.edges → g.blocks[w]? = some c → c.label = some l → Evaluates g w c.instrs E T v →
      Evaluates g u [.branch test op l] E T v
  | passed {u : Nat} {test : Test} {op : Operand} {l : Label} {x : Word} {E : Env} {T : List Call} {v : Option Word} :
      E.read op = some x → test.passes x = false → Evaluates g (u + 1) (g.instrsAt (u + 1)) E T v →
      Evaluates g u [.branch test op l] E T v
  | ret {u : Nat} {E : Env} : Evaluates g u [.ret none] E [] none
  | value {u : Nat} {op : Operand} {x : Word} {E : Env} : E.read op = some x →
      Evaluates g u [.ret (some op)] E [] (some x)
  | done {E : Env} : Evaluates g g.blocks.length [] E [] none

/-! ### Where a block starts -/

section

variable {g : FlowGraph} {f : Func} {u : Nat} {b : Block}

theorem segments_drop (hb : g.blocks[u]? = some b) : g.segments.drop u = b.segment :: g.segments.drop (u + 1) := by
  have hs : g.segments[u]? = some b.segment := getElem?_segments_eq_some.2 ⟨b, hb, rfl⟩
  obtain ⟨hu, hs⟩ := List.getElem?_eq_some_iff.1 hs
  rw [List.drop_eq_getElem_cons hu, hs]

theorem Describes.source_ne_nil (h : g.Describes f) (hb : g.blocks[u]? = some b) : b.segment.source ≠ [] := by
  have hm : b.segment ∈ g.segments := List.mem_map_of_mem (List.mem_of_getElem? hb)
  rw [h.segments] at hm
  exact (mem_cut (by simp) hm).2

/-- A labelled block starts at the position of its mark. -/
theorem Describes.drop_place? (h : g.Describes f) (hb : g.blocks[u]? = some b) {l : Label} (hl : b.label = some l)
    {q : Nat} (hq : Instr.place? f.instrs l = some q) :
    f.instrs.drop q = (g.segments.drop u).flatMap Segment.source := by
  have hsplit : f.instrs = (g.segments.take u).flatMap Segment.source ++ (g.segments.drop u).flatMap Segment.source := by
    rw [← List.flatMap_append, List.take_append_drop, h.flatMap_source]
  have hstart : f.instrs[((g.segments.take u).flatMap Segment.source).length]? = some (.mark l) := by
    rw [hsplit, List.getElem?_append_right (Nat.le_refl _), Nat.sub_self, segments_drop hb, List.flatMap_cons]
    simp [Segment.source, Block.segment, hl]
  have hmark : f.instrs[q]? = some (.mark l) := by
    obtain ⟨hlt, hm, -⟩ := List.findIdx?_eq_some_iff_getElem.1 hq
    rw [List.getElem?_eq_getElem hlt]
    exact congrArg some (of_decide_eq_true hm)
  have hpos := eq_of_nodup_filterMap h.distinct hmark hstart rfl rfl
  rw [hsplit, hpos, List.drop_left]

/-! ### From instructions to blocks -/

/-- Position `p` is where block `u` starts, or after the last block. -/
structure Starts (g : FlowGraph) (f : Func) (p u : Nat) : Prop where
  le : u ≤ g.blocks.length
  drop : f.instrs.drop p = (g.segments.drop u).flatMap Segment.source

/-- Position `p` is in block `u`, of which `is` is left. -/
structure Within (g : FlowGraph) (f : Func) (p u : Nat) (is : List Instr) : Prop where
  block : ∃ b, g.blocks[u]? = some b ∧ Formed is b.ending ∧ is <:+ b.instrs
  drop : f.instrs.drop p = is ++ (g.segments.drop (u + 1)).flatMap Segment.source

variable {p : Nat} {i : Instr} {is : List Instr} {E : Env} {T : List Call} {v : Option Word}

theorem drop_eq_cons (h : f.instrs.drop p = i :: is) : f.instrs[p]? = some i ∧ f.instrs.drop (p + 1) = is := by
  constructor
  · rw [← List.head?_drop, h]
    rfl
  · rw [← List.tail_drop, h]
    rfl

theorem Within.cons (h : g.Within f p u (i :: is)) : f.instrs[p]? = some i ∧
    (i.flow = .straight ∧ g.Within f (p + 1) u is ∨ is = [] ∧ i.leaves = true ∧ g.Starts f (p + 1) (u + 1)) := by
  obtain ⟨⟨b, hb, hf, hsuf⟩, hdrop⟩ := h
  obtain ⟨hi, hrest⟩ := drop_eq_cons hdrop
  refine ⟨hi, ?_⟩
  rcases hf.of_cons with ⟨hs, hf'⟩ | ⟨rfl, hl, -⟩
  · exact .inl ⟨hs, ⟨b, hb, hf', (List.suffix_cons i is).trans hsuf⟩, hrest⟩
  · exact .inr ⟨rfl, hl, (List.getElem?_eq_some_iff.1 hb).1, hrest⟩

/-- Where a block starts, either its mark or its first instruction stands, and where a block is run through, the next
starts.  So it is enough to look at marks and at instructions. -/
theorem Describes.evaluates_of_parts (h : g.Describes f) (hend : f.instrs[p]? = none → T = [] ∧ v = none)
    (hmark : ∀ {l u is}, f.instrs[p]? = some (.mark l) → g.Within f (p + 1) u is → g.Evaluates u is E T v)
    (hwithin : ∀ {u i is}, g.Within f p u (i :: is) → g.Evaluates u (i :: is) E T v) :
    (∀ {u}, g.Starts f p u → g.Evaluates u (g.instrsAt u) E T v) ∧
      ∀ {u is}, g.Within f p u is → g.Evaluates u is E T v := by
  have hstart : ∀ {u}, g.Starts f p u → g.Evaluates u (g.instrsAt u) E T v := by
    rintro u ⟨hle, hdrop⟩
    cases hb : g.blocks[u]? with
    | none =>
      have hu : u = g.blocks.length := by
        have := List.getElem?_eq_none_iff.1 hb
        omega
      have hlen : g.segments.length = g.blocks.length := List.length_map _
      rw [hu, ← hlen, List.drop_length, List.flatMap_nil] at hdrop
      obtain ⟨rfl, rfl⟩ := hend (by rw [← List.head?_drop, hdrop]; rfl)
      subst hu
      rw [instrsAt, hb]
      exact .done
    | some b =>
      have hat : g.instrsAt u = b.instrs := by rw [instrsAt, hb]; rfl
      have hf := h.formed (List.mem_of_getElem? hb)
      have hne := h.source_ne_nil hb
      rw [segments_drop hb, List.flatMap_cons] at hdrop
      rw [hat]
      cases hl : b.label with
      | some l =>
        have hsrc : b.segment.source = .mark l :: b.instrs := by simp [Segment.source, Block.segment, hl]
        rw [hsrc, List.cons_append] at hdrop
        obtain ⟨hm, hrest⟩ := drop_eq_cons hdrop
        exact hmark hm ⟨⟨b, hb, hf, List.suffix_refl _⟩, hrest⟩
      | none =>
        have hsrc : b.segment.source = b.instrs := by simp [Segment.source, Block.segment, hl]
        rw [hsrc] at hdrop hne
        obtain ⟨i, is, his⟩ := List.exists_cons_of_ne_nil hne
        have hw : g.Within f p u b.instrs := ⟨⟨b, hb, hf, List.suffix_refl _⟩, hdrop⟩
        rw [his] at hw ⊢
        exact hwithin hw
  refine ⟨hstart, fun {u is} hw => ?_⟩
  cases is with
  | cons i is => exact hwithin hw
  | nil =>
    obtain ⟨⟨b, hb, hf, -⟩, hdrop⟩ := hw
    exact .next hb hf.ending_of_nil (hstart ⟨(List.getElem?_eq_some_iff.1 hb).1, hdrop⟩)

theorem Describes.exists_target (h : g.Describes f) {l : Label} {q : Nat} (hw : g.Within f p u [i])
    (ht : i.target? = some l) (hq : Instr.place? f.instrs l = some q) :
    ∃ w c, (u, w) ∈ g.edges ∧ g.blocks[w]? = some c ∧ c.label = some l ∧ g.instrsAt w = c.instrs ∧ g.Starts f q w := by
  obtain ⟨⟨b, hb, -, pre, hpre⟩, -⟩ := hw
  obtain ⟨w, c, hc, hcl, he⟩ := h.target hb (by rw [← hpre, List.getLast?_concat]) ht
  refine ⟨w, c, he, hc, hcl, by rw [instrsAt, hc]; rfl, ?_, h.drop_place? hc hcl hq⟩
  exact Nat.le_of_lt (List.getElem?_eq_some_iff.1 hc).1

theorem Within.eq_of_getElem? (h : g.Within f p u (i :: is)) {j : Instr} (hj : f.instrs[p]? = some j) : j = i :=
  Option.some.inj (hj.symm.trans h.cons.1)

theorem Within.of_leaves (h : g.Within f p u (i :: is)) (hl : i.leaves = true) :
    is = [] ∧ g.Starts f (p + 1) (u + 1) := by
  rcases h.cons.2 with ⟨hs, -⟩ | ⟨hnil, -, hst⟩
  · simp [Instr.leaves, hs] at hl
  · exact ⟨hnil, hst⟩

theorem Within.of_straight (h : g.Within f p u (i :: is)) (hl : i.leaves = false) :
    i.flow = .straight ∧ g.Within f (p + 1) u is := by
  rcases h.cons.2 with hs | ⟨-, hl', -⟩
  · exact hs
  · simp [hl] at hl'

/-- **A run of the instructions is a run of the graph.** -/
theorem Describes.evaluates (h : g.Describes f) (hev : ThreeAddress.Evaluates f.instrs p E T v) :
    (∀ {u}, g.Starts f p u → g.Evaluates u (g.instrsAt u) E T v) ∧
      ∀ {u is}, g.Within f p u is → g.Evaluates u is E T v := by
  induction hev with
  | done hp =>
    refine h.evaluates_of_parts (fun _ => ⟨rfl, rfl⟩) (fun hm => by simp [hp] at hm) fun hw => ?_
    have hi := hw.cons.1
    rw [hp] at hi
    simp at hi
  | @effect p i E E' T v hp he _ ih =>
    refine h.evaluates_of_parts (fun hn => by simp [hp] at hn) (fun hm hw => ?_) fun hw => ?_
    · cases Option.some.inj (hp.symm.trans hm)
      cases Option.some.inj he
      exact ih.2 hw
    · cases hw.eq_of_getElem? hp
      obtain ⟨hs, hw'⟩ := hw.of_straight (Instr.effect?_kind he).2
      exact .advance hs (.effect he) (ih.2 hw')
  | @call p dst l args E xs x T v hp hr _ ih =>
    refine h.evaluates_of_parts (fun hn => by simp [hp] at hn) (fun hm hw => by simp [hp] at hm) fun hw => ?_
    cases hw.eq_of_getElem? hp
    obtain ⟨hs, hw'⟩ := hw.of_straight rfl
    exact .advance hs (.call hr) (ih.2 hw')
  | @jump p q l E T v hp hq _ ih =>
    refine h.evaluates_of_parts (fun hn => by simp [hp] at hn) (fun hm hw => by simp [hp] at hm) fun hw => ?_
    cases hw.eq_of_getElem? hp
    obtain ⟨rfl, -⟩ := hw.of_leaves rfl
    obtain ⟨w, c, he, hc, hcl, hat, hst⟩ := h.exists_target hw rfl hq
    exact .jump he hc hcl (hat ▸ ih.1 hst)
  | @taken p q test op l x E T v hp hx hpass hq _ ih =>
    refine h.evaluates_of_parts (fun hn => by simp [hp] at hn) (fun hm hw => by simp [hp] at hm) fun hw => ?_
    cases hw.eq_of_getElem? hp
    obtain ⟨rfl, -⟩ := hw.of_leaves rfl
    obtain ⟨w, c, he, hc, hcl, hat, hst⟩ := h.exists_target hw rfl hq
    exact .taken hx hpass he hc hcl (hat ▸ ih.1 hst)
  | @passed p test op l x E T v hp hx hpass _ ih =>
    refine h.evaluates_of_parts (fun hn => by simp [hp] at hn) (fun hm hw => by simp [hp] at hm) fun hw => ?_
    cases hw.eq_of_getElem? hp
    obtain ⟨rfl, hst⟩ := hw.of_leaves rfl
    exact .passed hx hpass (ih.1 hst)
  | ret hp =>
    refine h.evaluates_of_parts (fun hn => by simp [hp] at hn) (fun hm hw => by simp [hp] at hm) fun hw => ?_
    cases hw.eq_of_getElem? hp
    obtain ⟨rfl, -⟩ := hw.of_leaves rfl
    exact .ret
  | value hp hx =>
    refine h.evaluates_of_parts (fun hn => by simp [hp] at hn) (fun hm hw => by simp [hp] at hm) fun hw => ?_
    cases hw.eq_of_getElem? hp
    obtain ⟨rfl, -⟩ := hw.of_leaves rfl
    exact .value hx

/-- A run from the first instruction is one from the first block. -/
theorem Describes.evaluates_entry (h : g.Describes f) (hev : ThreeAddress.Evaluates f.instrs 0 E T v) :
    g.Evaluates 0 (g.instrsAt 0) E T v :=
  (h.evaluates hev).1 ⟨Nat.zero_le _, by rw [List.drop_zero, List.drop_zero, h.flatMap_source]⟩

end

end FlowGraph

end ThreeAddress
