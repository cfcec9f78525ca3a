import ThreeAddress.Proofs.Allocator.Points
import ThreeAddress.Proofs.Allocator.Stored
import ThreeAddress.Proofs.FlowGraph.Positions
import ThreeAddress.Proofs.FlowGraph.Prune

/-!
How control goes through the events of a block.  They have one line of code each.  Control enters at the first; a jump
or a branch can only be the last, and it goes to the exit or to the target of the block; control runs on from the last
only if the block falls through or branches.

Main statement: on its way, every load finds what was live where the block starts or has been stored in it since, and so
does the block that comes next (`Effects.crossed`).
-/

namespace ThreeAddress

/-- Whether control may pass from the line to the next one. -/
def Asm.passesOn : Asm → Bool
  | .j _ | .ret => false
  | _ => true

/-! ### The code of one instruction -/

namespace Instr

variable {i : Instr} {ds rs : List Reg}

/-- An instruction that does not leave its block has code, and control runs through all of it. -/
theorem select_straight (hl : i.leaves = false) (hd : ds.length = i.dsts.length) (hr : rs.length = i.srcs.length)
    (exit : Label) : i.select ds rs exit ≠ [] ∧ ∀ a ∈ i.select ds rs exit, a.target? = none := by
  cases i with
  | move | unary =>
    obtain ⟨d, rfl⟩ := List.length_eq_one_iff.1 hd
    obtain ⟨r, rfl⟩ := List.length_eq_one_iff.1 hr
    simp [select, Asm.target?]
  | const =>
    obtain ⟨d, rfl⟩ := List.length_eq_one_iff.1 hd
    simp [select, Asm.target?]
  | binary op =>
    obtain ⟨d, rfl⟩ := List.length_eq_one_iff.1 hd
    obtain ⟨p, q, rfl⟩ := List.length_eq_two.1 hr
    cases op <;> simp [select, BinaryOp.select, Asm.target?]
  | mark | memo | call => simp [select, Asm.target?]
  | jump | branch | ret => simp [leaves, flow] at hl

/-- The code of an instruction that leaves its block ends with the line that does it. -/
theorem select_leaves (hl : i.leaves = true) (hr : rs.length = i.srcs.length) (exit : Label) :
    ∃ pre x l, i.select [] rs exit = pre ++ [x] ∧ (∀ a ∈ pre, a.target? = none) ∧ x.target? = some l ∧
      (l = exit ∨ i.target? = some l) ∧ (x.passesOn = true → i.flow = .branch) := by
  cases i with
  | jump l => exact ⟨[], .j l, l, rfl, by simp, rfl, .inr rfl, by simp [Asm.passesOn]⟩
  | branch test cond l =>
    obtain ⟨r, rfl⟩ := List.length_eq_one_iff.1 hr
    exact ⟨[], .branch test r l, l, rfl, by simp, rfl, .inr rfl, fun _ => rfl⟩
  | ret value =>
    have hjump : ∀ pre, (∀ a ∈ pre, a.target? = none) → (ret value).select [] rs exit = pre ++ [.j exit] →
        ∃ pre x l, (ret value).select [] rs exit = pre ++ [x] ∧ (∀ a ∈ pre, a.target? = none) ∧ x.target? = some l ∧
          (l = exit ∨ (ret value).target? = some l) ∧ (x.passesOn = true → (ret value).flow = .branch) :=
      fun pre hpre hsel => ⟨pre, .j exit, exit, hsel, hpre, rfl, .inl rfl, by simp [Asm.passesOn]⟩
    cases value with
    | none => exact hjump [] (by simp) rfl
    | some v =>
      obtain ⟨r, rfl⟩ := List.length_eq_one_iff.1 hr
      by_cases hres : r = .result
      · exact hjump [] (by simp) (by simp [select, hres])
      · exact hjump [.unary .mv .result r] (by simp [Asm.target?]) (by simp [select, hres])
  | move | const | unary | binary | mark | memo | call => simp [leaves, flow] at hl

end Instr

namespace Alloc

variable {exit : Label} {s : Step} {ss : List Step} {b : Block} {f f' : RegisterFile} {τ xs ys : List Action}
  {τs : List (List Action)} {e : Action}

/-! ### The events of one step -/

theorem Claims.length_eq {ops : List Operand} {rs : List Reg} (h : Claims f ops rs f') : rs.length = ops.length := by
  cases h <;> rfl

theorem Moves.target? (h : Moves s f τ f') : ∀ α ∈ τ, α.target? = none := by
  intro α hα
  have hmove := h.isMove α hα
  cases α with
  | store | load | comment => rfl
  | native | label | note => simp [Action.isMove] at hmove

theorem target?_stores (f : RegisterFile) (live : TempSet) : ∀ α ∈ f.stores live, α.target? = none := by
  intro α hα
  obtain ⟨t, r, -, -, rfl⟩ := RegisterFile.mem_stores.1 hα
  rfl

/-- The events of a step that does not leave its block: there are some, and control runs through all of them. -/
theorem Effect.straight_target? (h : Effect exit s f τ f') (hl : s.instr.leaves = false) :
    τ ≠ [] ∧ ∀ α ∈ τ, α.target? = none := by
  cases h with
  | straight _ _ hm hsup hcl =>
    obtain ⟨hne, hsel⟩ := Instr.select_straight hl hcl.length_eq hsup.length_eq.symm exit
    refine ⟨by simp [hne], List.forall_mem_append.2 ⟨List.forall_mem_append.2 ⟨hm.target?, ?_⟩, target?_stores _ _⟩⟩
    intro α hα
    obtain ⟨x, hx, rfl⟩ := List.mem_map.1 hα
    exact hsel x hx
  | leaving hleaves => simp [hl] at hleaves
  | call hi _ hm₁ hm₂ _ =>
    refine ⟨by simp, List.forall_mem_append.2 ⟨(hm₁.trans hm₂).target?, List.forall_mem_cons.2 ⟨rfl, ?_⟩⟩⟩
    refine List.forall_mem_append.2 ⟨fun α hα => ?_, target?_stores _ _⟩
    obtain ⟨t, -, rfl⟩ := List.mem_map.1 hα
    rfl

/-- The events of a step that leaves its block: the last is the line that does it. -/
theorem Effect.leaving_target? (h : Effect exit s f τ f') (hl : s.instr.leaves = true) :
    ∃ pre x l, τ = pre ++ [.native x] ∧ (∀ α ∈ pre, α.target? = none) ∧ x.target? = some l ∧
      (l = exit ∨ s.instr.target? = some l) ∧ (x.passesOn = true → s.instr.flow = .branch) := by
  cases h with
  | straight _ hstraight => simp [hl] at hstraight
  | call hi => simp [hi, Instr.leaves, Instr.flow] at hl
  | leaving _ hm hsup =>
    obtain ⟨pre, x, l, hsel, hpre, hx, htarget, hflow⟩ := Instr.select_leaves hl hsup.length_eq.symm exit
    rw [hsel, List.map_append, ← List.append_assoc]
    refine ⟨_, x, l, rfl, ?_, hx, htarget, hflow⟩
    · refine List.forall_mem_append.2 ⟨List.forall_mem_append.2 ⟨hm.target?, target?_stores _ _⟩, fun α hα => ?_⟩
      obtain ⟨a, ha, rfl⟩ := List.mem_map.1 hα
      exact hpre a ha

theorem Effect.ne_nil (h : Effect exit s f τ f') : τ ≠ [] := by
  cases hl : s.instr.leaves with
  | false => exact (h.straight_target? hl).1
  | true =>
    obtain ⟨pre, x, l, rfl, -⟩ := h.leaving_target? hl
    simp

/-! ### The events of a block -/

theorem Effects.of_append {done todo : List Step} (h : Effects exit f (done ++ todo) τs f') :
    ∃ τs₁ τs₂ f₁, τs = τs₁ ++ τs₂ ∧ Effects exit f done τs₁ f₁ ∧ Effects exit f₁ todo τs₂ f' := by
  induction done generalizing f τs with
  | nil => exact ⟨[], τs, f, rfl, .nil f, h⟩
  | cons s done ih =>
    cases h with
    | cons he h =>
      obtain ⟨τs₁, τs₂, f₁, rfl, h₁, h₂⟩ := ih h
      exact ⟨_ :: τs₁, τs₂, f₁, rfl, .cons he h₁, h₂⟩

/-- An event of the steps is one of a step, and the others lie around it. -/
theorem Effects.cut (h : Effects exit f ss τs f') (hs : τs.flatten = xs ++ e :: ys) :
    ∃ done s todo τs₁ τ τs₂ f₁ f₂ xs' ys', ss = done ++ s :: todo ∧ Effects exit f done τs₁ f₁ ∧
      Effect exit s f₁ τ f₂ ∧ Effects exit f₂ todo τs₂ f' ∧ τ = xs' ++ e :: ys' ∧ xs = τs₁.flatten ++ xs' ∧
      ys = ys' ++ τs₂.flatten := by
  induction h generalizing xs with
  | nil => simp at hs
  | @cons f f₁ f' s ss τ τs he heffs ih =>
    rw [List.flatten_cons] at hs
    rcases split_append hs with ⟨ys', hτ, rfl⟩ | ⟨xs', hτs, rfl⟩
    · exact ⟨[], s, ss, [], τ, τs, f, f₁, xs, ys', rfl, .nil f, he, heffs, hτ, rfl, rfl⟩
    · obtain ⟨done, s', todo, τs₁, τ', τs₂, f₂, f₃, xs'', ys', rfl, h₁, he', h₂, hτ', rfl, rfl⟩ := ih hτs
      refine ⟨s :: done, s', todo, τ :: τs₁, τ', τs₂, f₂, f₃, xs'', ys', rfl, .cons he h₁, he', h₂, hτ', ?_, rfl⟩
      rw [List.flatten_cons, List.append_assoc]

/-- A load is of what is live before the steps or has been stored by them. -/
theorem Effects.load {after : TempSet} {r : Reg} {t : Temp} (h : Effects exit f ss τs f')
    (hch : Step.Chained after ss) (hs : τs.flatten = xs ++ .load r t :: ys) :
    t ∈ Step.before after ss ∨ Stored xs t := by
  obtain ⟨done, s, todo, τs₁, τ, τs₂, f₁, f₂, xs', ys', rfl, h₁, he, -, rfl, rfl, -⟩ := h.cut hs
  have hlive : t ∈ Step.before after (s :: todo) :=
    uses_subset_liveIn hch.of_append.1 t (he.load (List.mem_append_right _ List.mem_cons_self))
  rcases h₁.stored hch hlive with hin | ⟨-, hst⟩
  · exact .inl hin
  · exact .inr (hst.mono fun α hα => List.mem_append_left _ hα)

/-- Only the last event of a block sends control elsewhere. -/
theorem Effects.jump {e : Ending} {x : Asm} {l : Label} (h : Effects exit f ss τs f')
    (hf : Formed (ss.map Step.instr) e) (hs : τs.flatten = xs ++ .native x :: ys) (hx : x.target? = some l) :
    ys = [] ∧ (l = exit ∨ ∃ i, (ss.map Step.instr).getLast? = some i ∧ i.target? = some l) := by
  obtain ⟨done, s, todo, τs₁, τ, τs₂, f₁, f₂, xs', ys', rfl, -, he, h₂, hτ, -, rfl⟩ := h.cut hs
  have hmem : .native x ∈ τ := hτ ▸ List.mem_append_right _ List.mem_cons_self
  cases hl : s.instr.leaves with
  | false =>
    have hnone : x.target? = none := (he.straight_target? hl).2 _ hmem
    simp [hnone] at hx
  | true =>
    obtain ⟨pre, y, m, hpre, hno, hy, htarget, -⟩ := he.leaving_target? hl
    rw [List.map_append, List.map_cons] at hf
    -- nothing comes after a step that leaves
    obtain rfl : todo = [] := by
      rcases Formed.of_cons hf.of_append.2 with ⟨hflow, -⟩ | ⟨hnil, -⟩
      · simp [Instr.leaves, hflow] at hl
      · exact List.map_eq_nil_iff.1 hnil
    cases h₂
    rw [hτ] at hpre
    rcases split_append hpre.symm with ⟨zs, hzs, -⟩ | ⟨zs, hzs, -⟩
    · have hnone : x.target? = none := hno (.native x) (hzs ▸ List.mem_append_right _ List.mem_cons_self)
      simp [hnone] at hx
    · obtain ⟨rfl, rfl, rfl⟩ : zs = [] ∧ x = y ∧ ys' = [] := by
        cases zs with
        | nil => simpa [eq_comm] using hzs
        | cons => simp at hzs
      cases Option.some.inj (hx.symm.trans hy)
      exact ⟨rfl, htarget.imp_right fun hm => ⟨s.instr, by simp, hm⟩⟩

/-- A block that neither falls through nor branches ends with a jump. -/
theorem Effects.exists_last {e : Ending} (h : Effects exit f ss τs f') (hf : Formed (ss.map Step.instr) e)
    (hfalls : e ≠ .fallsThrough) (hbranches : e ≠ .branches) :
    ∃ ρ x, τs.flatten = ρ ++ [.native x] ∧ x.passesOn = false := by
  obtain ⟨is, i, his, -, hl, rfl⟩ := hf.exists_append hfalls
  obtain ⟨done, last, rfl, -, hlast⟩ := List.map_eq_append_iff.1 his
  obtain ⟨s, rest, rfl, rfl, hrest⟩ := List.map_eq_cons_iff.1 hlast
  cases List.map_eq_nil_iff.1 hrest
  obtain ⟨τs₁, τs₂, f₁, rfl, -, h₂⟩ := h.of_append
  cases h₂ with
  | cons he hnil =>
    cases hnil
    obtain ⟨pre, x, l, rfl, -, -, -, hflow⟩ := he.leaving_target? hl
    refine ⟨τs₁.flatten ++ pre, x, by simp, ?_⟩
    cases hx : x.passesOn with
    | false => rfl
    | true => exact absurd (by rw [hflow hx]; rfl) hbranches

/-- What control finds on its way through the events of a block. -/
structure Crossed (exit : Label) (b : Block) (υ : List Action) : Prop where
  ne_nil : υ ≠ []
  /-- The label of the block comes first. -/
  label : ∀ {l : Label}, b.label = some l → υ.head? = some (.label l)
  /-- A load is of what was live where the block starts or has been stored since. -/
  load : ∀ {xs ys : List Action} {r : Reg} {t : Temp}, υ = xs ++ .load r t :: ys → t ∈ b.liveIn ∨ Stored xs t
  /-- So is all that is live after the block. -/
  stored : ∀ {t : Temp}, t ∈ b.liveOut → t ∈ b.liveIn ∨ Stored υ t
  /-- Control can jump from the last event only. -/
  jump : ∀ {xs ys : List Action} {x : Asm} {l : Label}, υ = xs ++ .native x :: ys → x.target? = some l →
    ys = [] ∧ (l = exit ∨ ∃ i, b.instrs.getLast? = some i ∧ i.target? = some l)
  /-- Where control runs on from the last event, the block falls through or branches. -/
  pass : ∀ {xs : List Action} {α : Action}, υ = xs ++ [α] → (∀ x, α = .native x → x.passesOn = true) →
    b.ending = .fallsThrough ∨ b.ending = .branches

/-- **The events of a block**, as control goes through them. -/
theorem Effects.crossed (h : Effects exit f b.steps τs f') (hf : Formed b.instrs b.ending)
    (hpos : 0 < b.source.length) (hch : Step.Chained b.liveOut b.steps)
    (hbefore : Step.before b.liveOut b.steps = b.liveIn) :
    Crossed exit b (b.label.toList.map .label ++ τs.flatten) where
  ne_nil := by
    intro hnil
    obtain ⟨hlabel, hflat⟩ := List.append_eq_nil_iff.1 hnil
    rw [b.length_source, List.map_eq_nil_iff.1 hlabel] at hpos
    obtain ⟨s, ss, hss⟩ := List.exists_cons_of_length_pos (l := b.steps) (by simpa [Block.instrs] using hpos)
    rw [hss] at h
    cases h with
    | cons he => exact he.ne_nil (List.append_eq_nil_iff.1 hflat).1
  label := by
    intro l hl
    simp [hl]
  load := by
    intro xs ys r t hs
    rcases split_append hs with ⟨zs, hzs, -⟩ | ⟨xs', hxs', rfl⟩
    · have hm : .load r t ∈ b.label.toList.map Action.label := hzs ▸ List.mem_append_right _ List.mem_cons_self
      simp at hm
    · rw [← hbefore]
      exact (h.load hch hxs').imp_right fun hst => hst.mono fun α hα => List.mem_append_right _ hα
  stored := by
    intro t ht
    rw [← List.append_nil b.steps] at hch
    have hlive := h.stored hch ht
    rw [List.append_nil, hbefore] at hlive
    exact hlive.imp_right fun hst => hst.2.mono fun α hα => List.mem_append_right _ hα
  jump := by
    intro xs ys x l hs hx
    rcases split_append hs with ⟨zs, hzs, -⟩ | ⟨xs', hxs', -⟩
    · have hm : .native x ∈ b.label.toList.map Action.label := hzs ▸ List.mem_append_right _ List.mem_cons_self
      simp at hm
    · exact h.jump hf hxs' hx
  pass := by
    intro xs α hs hα
    by_contra hend
    obtain ⟨hfalls, hbranches⟩ := not_or.1 hend
    obtain ⟨ρ, x, hρ, hx⟩ := h.exists_last hf hfalls hbranches
    have hlast := congrArg List.getLast? hs
    rw [hρ, ← List.append_assoc, List.getLast?_concat, List.getLast?_concat] at hlast
    rw [hα x (Option.some.inj hlast).symm] at hx
    simp at hx

end Alloc

end ThreeAddress
