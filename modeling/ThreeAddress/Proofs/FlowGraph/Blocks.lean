import ThreeAddress.Proofs.FlowGraph.Prune

/-!
From a function to its graph, or to the fault that keeps it from having one.

A graph holds every instruction of the function once: the marks as labels of the blocks, all else in them
(`FlowGraph.blocks_exact`).  There is no graph if a mark repeats an earlier one, or if control may go to a label without
a mark.  Labels are compared block by block, and targets are looked up in a second pass over the blocks; since blocks
keep the order of the instructions, the fault reported is the first of its kind in the function
(`FlowGraph.ofFunc_exact`).
-/

namespace ThreeAddress

/-! ### Blocks -/

/-- What a block of a function is like: it has no mark inside, only its last instruction can send control elsewhere, how
the block ends is how that instruction does, and it stands for something. -/
structure Block.Proper (b : Block) : Prop where
  unmarked : ∀ l, .mark l ∉ b.instrs
  inner : ∀ i ∈ b.instrs.dropLast, i.leaves = false
  jumps : b.ending = .jumps ↔ ∃ l, b.instrs.getLast? = some (.jump l)
  branches : b.ending = .branches ↔ ∃ test cond l, b.instrs.getLast? = some (.branch test cond l)
  returns : b.ending = .returns ↔ ∃ value, b.instrs.getLast? = some (.ret value)
  filled : b.label ≠ none ∨ b.instrs ≠ []

/-- The last instruction of a block decides how it ends; with none, it falls through. -/
theorem Formed.ending_eq {is : List Instr} {e : Ending} (h : Formed is e) :
    e = is.getLast?.elim .fallsThrough fun i => .ofFlow i.flow := by
  cases h with
  | falls hs =>
    cases hl : is.getLast? with
    | none => rfl
    | some i =>
      rw [Option.elim_some, hs i (List.mem_of_getLast? hl)]
      rfl
  | leaves =>
    rw [List.getLast?_concat]
    rfl

theorem Block.proper {b : Block} (hf : Formed b.instrs b.ending) (hs : b.source ≠ []) : b.Proper := by
  refine ⟨fun l hl => absurd rfl (hf.flow_ne_label hl), fun i hi => hf.leaves_eq_false hi, ?_, ?_, ?_, ?filled⟩
  case filled =>
    by_contra hnone
    rw [not_or, not_not, not_not] at hnone
    exact hs (by rw [Block.source, hnone.1, hnone.2]; rfl)
  all_goals
    rw [hf.ending_eq]
    cases b.instrs.getLast? with
    | none => simp
    | some i => cases i <;> simp [Instr.flow, Ending.ofFlow]

namespace FlowGraph

/-- **Splitting into blocks loses nothing and repeats nothing.**  The blocks of a graph, each with the mark of its label
in front, give the instructions of the function in order.  They are numbered by position, every one is proper, and no
two have the same label. -/
theorem blocks_exact {f : Func} {g : FlowGraph} (h : ofFunc f = .ok g) :
    (g.blocks.flatMap fun b => b.label.toList.map .mark ++ b.instrs) = f.instrs ∧
    (∀ (u : Nat) (b : Block), g.blocks[u]? = some b → b.id = u) ∧
    (∀ b ∈ g.blocks, b.Proper) ∧
    g.blocks.Pairwise fun b c => ∀ l, b.label = some l → c.label ≠ some l := by
  have hd := describes_of_ofFunc h
  refine ⟨hd.flatMap_source_blocks, fun u b hb => ?_, fun b hb => ?_, ?_⟩
  · exact id_of_split ((ofFunc_eq_ok h).1 ▸ hb)
  · exact Block.proper (hd.formed hb) (List.ne_nil_of_length_pos (hd.length_source_pos hb))
  · have hn : (g.blocks.filterMap Block.label).Nodup := hd.labels ▸ hd.distinct
    rw [List.Nodup, List.pairwise_filterMap] at hn
    exact hn.imp fun hne l hb hc => hne l hb l hc rfl

/-- Two marks in a row, a mark after a jump, an instruction that nothing leads to, and a mark at the end. -/
def marking : Func := ⟨⟨"f"⟩, [⟨0⟩], [.mark ⟨"A"⟩, .mark ⟨"B"⟩, .move (.temp ⟨1⟩) (.temp ⟨0⟩), .jump ⟨"C"⟩, .mark ⟨"C"⟩,
  .ret (some (.temp ⟨1⟩)), .const (.temp ⟨2⟩) 5, .mark ⟨"D"⟩]⟩

def markingGraph : FlowGraph := ⟨split marking.instrs, [(0, 1), (1, 2), (3, 4)]⟩

/-- The blocks at both ends are empty, and the one that nothing leads to has no label. -/
theorem blocks_exact_marking : ofFunc marking = .ok markingGraph ∧
    markingGraph.blocks.map (fun b => (b.label, b.instrs.length, b.ending)) =
      [(some ⟨"A"⟩, 0, .fallsThrough), (some ⟨"B"⟩, 2, .jumps), (some ⟨"C"⟩, 1, .returns), (none, 1, .fallsThrough),
        (some ⟨"D"⟩, 0, .fallsThrough)] ∧
    (markingGraph.blocks.flatMap fun b => b.label.toList.map .mark ++ b.instrs) = marking.instrs ∧
    ∀ b ∈ markingGraph.blocks, b.Proper := by
  have hok : ofFunc marking = .ok markingGraph := rfl
  obtain ⟨hsource, -, hproper, -⟩ := blocks_exact hok
  exact ⟨hok, by decide, hsource, hproper⟩

end FlowGraph

/-! ### Faults -/

variable {f : Func} {i : Instr} {l : Label} {ls : List Label}

/-- A mark of `l` repeats an earlier one, and it is the first mark that repeats one. -/
def Func.Repeats (f : Func) (l : Label) : Prop :=
  ∃ before after, f.instrs = before ++ .mark l :: after ∧ .mark l ∈ before ∧ (before.filterMap Instr.mark?).Nodup

/-- A jump or branch goes to `l`, which has no mark, and it is the first that goes to such a label. -/
def Func.Strays (f : Func) (l : Label) : Prop :=
  ∃ before i after, f.instrs = before ++ i :: after ∧ i.target? = some l ∧ .mark l ∉ f.instrs ∧
    ∀ j ∈ before, ∀ m, j.target? = some m → .mark m ∈ f.instrs

theorem Instr.mark?_eq_some : i.mark? = some l ↔ i = .mark l := by
  cases i <;> simp [Instr.mark?]

theorem Func.mem_marks : l ∈ f.marks ↔ .mark l ∈ f.instrs := by
  rw [marks, List.mem_filterMap]
  constructor
  · rintro ⟨i, hi, hl⟩
    rwa [← Instr.mark?_eq_some.1 hl]
  · intro h
    exact ⟨_, h, rfl⟩

/-- The label that the instruction may send control to, unless it is in the list. -/
def Instr.stray? (ls : List Label) (i : Instr) : Option Label := i.target?.filter fun l => l ∉ ls

theorem Instr.stray?_eq_some : i.stray? ls = some l ↔ i.target? = some l ∧ l ∉ ls := by
  rw [stray?, Option.filter_eq_some_iff, decide_eq_true_iff]

theorem Instr.stray?_eq_none : i.stray? ls = none ↔ ∀ l, i.target? = some l → l ∈ ls := by
  rw [stray?, Option.filter_eq_none_iff]
  simp

theorem Instr.target?_eq_none (h : i.leaves = false) : i.target? = none := by
  cases i <;> first | rfl | simp [Instr.leaves, Instr.flow] at h

theorem Func.strays_iff : f.Strays l ↔ f.instrs.findSome? (Instr.stray? f.marks) = some l := by
  rw [List.findSome?_eq_some_iff]
  unfold Strays
  simp only [Instr.stray?_eq_some, Instr.stray?_eq_none, Func.mem_marks, and_assoc]

namespace FlowGraph

variable {g : FlowGraph} {bs rest : List Block} {b : Block}

/-! ### Marks that repeat -/

theorem repeated?_append (seen before rest : List Label) :
    repeated? seen (before ++ rest) = (repeated? seen before).or (repeated? (before.reverse ++ seen) rest) := by
  induction before generalizing seen with
  | nil => rfl
  | cons m before ih =>
    rw [List.cons_append, repeated?, repeated?]
    split
    · rfl
    · rw [ih, List.reverse_cons, List.append_assoc]
      rfl

theorem repeated?_eq_some {seen : List Label} : repeated? seen ls = some l ↔
    ∃ before after, ls = before ++ l :: after ∧ (l ∈ before ∨ l ∈ seen) ∧ repeated? seen before = none := by
  constructor
  · intro h
    induction ls generalizing seen with
    | nil => simp [repeated?] at h
    | cons m ls ih =>
      rw [repeated?] at h
      split at h
      · rename_i hm
        cases Option.some.inj h
        exact ⟨[], ls, rfl, .inr hm, rfl⟩
      · rename_i hm
        obtain ⟨before, after, rfl, hl, hb⟩ := ih h
        refine ⟨m :: before, after, rfl, ?_, by rw [repeated?, if_neg hm, hb]⟩
        rcases hl with hl | hl
        · exact .inl (List.mem_cons_of_mem m hl)
        · rcases List.mem_cons.1 hl with rfl | hl
          · exact .inl List.mem_cons_self
          · exact .inr hl
  · rintro ⟨before, after, rfl, hl, hb⟩
    have hmem : l ∈ before.reverse ++ seen := by simpa using hl
    rw [repeated?_append, hb, Option.none_or, repeated?, if_pos hmem]

theorem repeated?_nil_eq_none : repeated? [] ls = none ↔ ls.Nodup :=
  ⟨fun h => (nodup_of_repeated? h).1, fun h => repeated?_eq_none h fun _ _ => List.not_mem_nil⟩

theorem repeats_iff : f.Repeats l ↔ repeated? [] f.marks = some l := by
  rw [repeated?_eq_some]
  constructor
  · rintro ⟨before, after, hinstrs, hl, hn⟩
    refine ⟨before.filterMap Instr.mark?, after.filterMap Instr.mark?, ?_, .inl ?_, repeated?_nil_eq_none.2 hn⟩
    · rw [Func.marks, hinstrs, List.filterMap_append]
      rfl
    · exact List.mem_filterMap.2 ⟨_, hl, rfl⟩
  · rintro ⟨before, after, hmarks, hl, hn⟩
    obtain ⟨is, js, hinstrs, rfl, hjs⟩ := List.filterMap_eq_append_iff.1 hmarks
    obtain ⟨ks, i, rest, rfl, hks, hi, -⟩ := List.filterMap_eq_cons_iff.1 hjs
    cases Instr.mark?_eq_some.1 hi
    -- between the marks of `is` and this one there are other instructions only
    have hbefore : (is ++ ks).filterMap Instr.mark? = is.filterMap Instr.mark? := by
      rw [List.filterMap_append, List.filterMap_eq_nil_iff.2 hks, List.append_nil]
    refine ⟨is ++ ks, rest, by rw [hinstrs, List.append_assoc], ?_, hbefore ▸ repeated?_nil_eq_none.1 hn⟩
    obtain ⟨m, hm, hml⟩ := List.mem_filterMap.1 (hl.resolve_right List.not_mem_nil)
    rw [← Instr.mark?_eq_some.1 hml]
    exact List.mem_append_left ks hm

theorem ofFunc_of_repeats (h : f.Repeats l) : ofFunc f = .error (.duplicateLabel l) := by
  have hr := repeats_iff.1 h
  unfold ofFunc
  simp only [labels_split, hr]

/-! ### Targets without a mark -/

theorem target?_eq (hf : Formed b.instrs b.ending) : b.target? = b.instrs.getLast?.bind Instr.target? := by
  apply Option.ext
  intro l
  constructor
  · exact target?_segment
  · intro h
    obtain ⟨i, hi, ht⟩ := Option.bind_eq_some_iff.1 h
    exact target?_of_getLast? hi ht (hf.ending_of_target? hi ht)

/-- In what a block stands for, only the last instruction has a target. -/
theorem findSome?_source (hf : Formed b.instrs b.ending) (ls : List Label) :
    b.source.findSome? (Instr.stray? ls) = b.target?.filter fun l => l ∉ ls := by
  have hnone : ∀ {is : List Instr}, (∀ i ∈ is, i.leaves = false) → is.findSome? (Instr.stray? ls) = none := by
    intro is his
    refine List.findSome?_eq_none_iff.2 fun i hi => ?_
    rw [Instr.stray?, Instr.target?_eq_none (his i hi)]
    rfl
  have hlabel : (b.label.toList.map Instr.mark).findSome? (Instr.stray? ls) = none := by
    apply hnone
    intro i hi
    obtain ⟨l, -, rfl⟩ := List.mem_map.1 hi
    rfl
  rw [Block.source, List.findSome?_append, hlabel, Option.none_or, target?_eq hf]
  cases hl : b.instrs.getLast? with
  | none =>
    rw [List.getLast?_eq_none_iff.1 hl]
    rfl
  | some i =>
    have hsplit : b.instrs = b.instrs.dropLast ++ [i] := (List.dropLast_append_getLast? i hl).symm
    rw [hsplit, List.findSome?_append, hnone fun j hj => hf.leaves_eq_false hj]
    simp [Instr.stray?]

theorem exits_of_stray (hf : Formed b.instrs b.ending) (ht : b.target? = some l)
    (hl : l ∉ bs.filterMap Block.label) : exits bs b = .error (.unknownLabel l) := by
  have hfind : bs.findIdx? (fun b => b.label = some l) = none := by
    refine List.findIdx?_eq_none_iff.2 fun c hc => ?_
    rw [decide_eq_false_iff_not]
    exact fun hcl => hl (List.mem_filterMap.2 ⟨c, hc, hcl⟩)
  have hloc : locate bs l = .error (.unknownLabel l) := by rw [locate, hfind]
  have hlast := ht
  rw [target?_eq hf] at hlast
  obtain ⟨i, hi, hil⟩ := Option.bind_eq_some_iff.1 hlast
  unfold exits
  rcases hf.ending_of_target? hi hil with he | he <;> simp [he, ht, hloc, Except.map]

theorem leaving_of_stray (hf : ∀ b ∈ rest, Formed b.instrs b.ending)
    (h : (rest.flatMap Block.source).findSome? (Instr.stray? (bs.filterMap Block.label)) = some l) :
    leaving bs rest = .error (.unknownLabel l) := by
  induction rest with
  | nil => simp at h
  | cons b rest ih =>
    have hb := findSome?_source (hf b List.mem_cons_self) (bs.filterMap Block.label)
    rw [List.flatMap_cons, List.findSome?_append, hb] at h
    rw [leaving]
    cases hs : b.target?.filter fun l => l ∉ bs.filterMap Block.label with
    | some m =>
      rw [hs, Option.some_or] at h
      cases Option.some.inj h
      rw [Option.filter_eq_some_iff, decide_eq_true_iff] at hs
      rw [exits_of_stray (hf b List.mem_cons_self) hs.1 hs.2]
      rfl
    | none =>
      rw [hs, Option.none_or] at h
      have hmarked : ∀ m, b.target? = some m → m ∈ bs.filterMap Block.label := by
        simpa [Option.filter_eq_none_iff] using hs
      obtain ⟨ids, hids⟩ := exists_exits hmarked
      rw [hids, ih (fun c hc => hf c (List.mem_cons_of_mem b hc)) h]
      rfl

theorem ofFunc_of_strays (hn : f.marks.Nodup) (h : f.Strays l) : ofFunc f = .error (.unknownLabel l) := by
  have hsource : (split f.instrs).flatMap Block.source = f.instrs := by
    have hcut := flatMap_source_cut none [] f.instrs
    rw [← map_segment_split, List.flatMap_map] at hcut
    exact hcut
  have hleave : leaving (split f.instrs) (split f.instrs) = .error (.unknownLabel l) := by
    apply leaving_of_stray fun b hb => formed_of_mem_split hb
    rw [hsource, labels_split]
    exact Func.strays_iff.1 h
  unfold ofFunc
  simp only [labels_split, repeated?_nil_eq_none.2 hn, hleave, bind, Except.bind]

/-! ### Outcomes -/

/-- A function has a graph if no mark repeats one and every jump and branch goes to a mark. -/
theorem exists_ofFunc_of_marked (hn : f.marks.Nodup)
    (ht : ∀ i ∈ f.instrs, ∀ l, i.target? = some l → .mark l ∈ f.instrs) : ∃ g, ofFunc f = .ok g := by
  refine exists_ofFunc hn fun s hs l hl => ?_
  obtain ⟨i, hi, hil⟩ := Option.bind_eq_some_iff.1 hl
  have hsource : (cut none [] f.instrs).flatMap Segment.source = f.instrs := flatMap_source_cut none [] f.instrs
  have hmem : i ∈ f.instrs := by
    rw [← hsource]
    exact List.mem_flatMap.2 ⟨s, hs, List.mem_append_right _ (List.mem_of_getLast? hi)⟩
  exact Func.mem_marks.2 (ht i hmem l hil)

/-- One of three things becomes of a function. -/
theorem ofFunc_cases (f : Func) :
    (¬ f.marks.Nodup ∧ ∃ l, f.Repeats l ∧ ofFunc f = .error (.duplicateLabel l)) ∨
    (f.marks.Nodup ∧ ∃ l, f.Strays l ∧ ofFunc f = .error (.unknownLabel l)) ∨
    (f.marks.Nodup ∧ (∀ i ∈ f.instrs, ∀ l, i.target? = some l → .mark l ∈ f.instrs) ∧ ∃ g, ofFunc f = .ok g) := by
  by_cases hn : f.marks.Nodup
  · refine .inr ?_
    cases hs : f.instrs.findSome? (Instr.stray? f.marks) with
    | some l => exact .inl ⟨hn, l, Func.strays_iff.2 hs, ofFunc_of_strays hn (Func.strays_iff.2 hs)⟩
    | none =>
      have ht : ∀ i ∈ f.instrs, ∀ l, i.target? = some l → .mark l ∈ f.instrs := by
        intro i hi l hl
        exact Func.mem_marks.1 (Instr.stray?_eq_none.1 (List.findSome?_eq_none_iff.1 hs i hi) l hl)
      exact .inr ⟨hn, ht, exists_ofFunc_of_marked hn ht⟩
  · refine .inl ⟨hn, ?_⟩
    cases hr : repeated? [] f.marks with
    | some l => exact ⟨l, repeats_iff.2 hr, ofFunc_of_repeats (repeats_iff.2 hr)⟩
    | none => exact absurd (repeated?_nil_eq_none.1 hr) hn

/-- **A function has a graph unless it is faulty, and the first fault is the error.**  If a mark repeats an earlier one,
the error names the first that does so, whatever the jumps.  Otherwise, if a jump or branch goes to a label without a
mark, the error names the first such label, reachable or not.  Otherwise there is a graph.  No other error occurs; in
particular no edge ever leads out of the blocks. -/
theorem ofFunc_exact (f : Func) :
    (∀ l, ofFunc f = .error (.duplicateLabel l) ↔ f.Repeats l) ∧
    (∀ l, ofFunc f = .error (.unknownLabel l) ↔ f.marks.Nodup ∧ f.Strays l) ∧
    ((∃ g, ofFunc f = .ok g) ↔
      f.marks.Nodup ∧ ∀ i ∈ f.instrs, ∀ l, i.target? = some l → .mark l ∈ f.instrs) ∧
    ∀ e, ofFunc f = .error e → ∃ l, e = .duplicateLabel l ∨ e = .unknownLabel l := by
  refine ⟨fun l => ⟨fun h => ?_, ofFunc_of_repeats⟩, fun l => ⟨fun h => ?_, fun h => ofFunc_of_strays h.1 h.2⟩,
    ⟨fun h => ?_, fun h => exists_ofFunc_of_marked h.1 h.2⟩, fun e h => ?_⟩
  · have hcase : ¬ f.marks.Nodup ∧ f.Repeats l := by simpa [h] using ofFunc_cases f
    exact hcase.2
  · simpa [h] using ofFunc_cases f
  · obtain ⟨g, h⟩ := h
    simpa [h] using ofFunc_cases f
  · rcases ofFunc_cases f with ⟨-, m, -, hf⟩ | ⟨-, m, -, hf⟩ | ⟨-, -, g, hf⟩
    · exact ⟨m, .inl (Except.error.inj (h.symm.trans hf))⟩
    · exact ⟨m, .inr (Except.error.inj (h.symm.trans hf))⟩
    · cases h.symm.trans hf

/-- Labels are compared before any target is looked up. -/
example : ofFunc ⟨⟨"f"⟩, [], [.jump ⟨"A"⟩, .mark ⟨"B"⟩, .jump ⟨"C"⟩, .mark ⟨"B"⟩, .mark ⟨"B"⟩]⟩ =
    .error (.duplicateLabel ⟨"B"⟩) := rfl

end FlowGraph

end ThreeAddress
