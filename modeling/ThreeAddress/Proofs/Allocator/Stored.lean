import ThreeAddress.Proofs.Allocator.Accesses

/-!
What is in memory where it is needed.  A step loads only what it reads, so only what is live before it; and what is live
after it was live before it, or is written by it and then stored.  By induction over the steps of a block, what is live
at any point of the block was live where the block starts or has been stored since.

Main statements: what is live after some steps of a block (`Effects.stored`), and what is stored where a function is
entered (`stored_takeParams`).
-/

namespace ThreeAddress

/-- The actions store some register to the home of the temporary. -/
def Stored (τ : List Action) (t : Temp) : Prop := ∃ r, .store r t ∈ τ

theorem Stored.mono {τ υ : List Action} {t : Temp} (h : Stored τ t) (hτ : ∀ α ∈ τ, α ∈ υ) : Stored υ t := by
  obtain ⟨r, hr⟩ := h
  exact ⟨r, hτ _ hr⟩

namespace Alloc

variable {exit : Label} {s : Step} {done todo : List Step} {f f' : RegisterFile} {τ : List Action}
  {τs : List (List Action)} {r : Reg} {t : Temp}

/-! ### One step -/

theorem Moves.load (h : Moves s f τ f') (hl : .load r t ∈ τ) : t ∈ s.instr.uses := by
  induction h with
  | done => simp at hl
  | free _ _ ih => exact ih hl
  | remark _ _ ih | save _ _ _ ih => exact ih (by simpa using hl)
  | fetch ht _ ih =>
    rcases List.mem_cons.1 hl with heq | hl
    · cases heq
      exact ht
    · exact ih hl

theorem Effect.load (h : Effect exit s f τ f') (hl : .load r t ∈ τ) : t ∈ s.instr.uses := by
  have hstores : ∀ {f : RegisterFile}, .load r t ∉ f.stores s.liveOut := by
    intro f hm
    obtain ⟨u, q, -, -, heq⟩ := RegisterFile.mem_stores.1 hm
    simp at heq
  cases h with
  | straight _ _ hmv =>
    simp only [List.mem_append, List.mem_map, reduceCtorEq, and_false, exists_false, or_false, hstores] at hl
    exact hmv.load hl
  | leaving _ hmv =>
    simp only [List.mem_append, List.mem_map, reduceCtorEq, and_false, exists_false, or_false, hstores] at hl
    exact hmv.load hl
  | call _ _ hmv hpass =>
    simp only [List.mem_append, List.mem_cons, List.mem_map, reduceCtorEq, and_false, exists_false, or_false,
      hstores] at hl
    exact (hmv.trans hpass).load (List.mem_append.2 hl)

/-- What a step writes is in a register after it. -/
theorem Effect.exists_binding? (h : Effect exit s f τ f') (ht : t ∈ s.instr.defs) : ∃ r, f'.binding? t = some r := by
  obtain ⟨op, hop, hot⟩ := List.mem_filterMap.1 ht
  cases h with
  | straight _ _ _ _ hcl =>
    generalize s.instr.dsts = ops at hop hcl
    cases hcl with
    | none => simp at hop
    | named r =>
      cases List.mem_singleton.1 hop
      simp [Operand.temp?] at hot
    | @kept u r hb =>
      cases List.mem_singleton.1 hop
      cases Option.some.inj hot
      exact ⟨r, hb⟩
    | taken u r =>
      cases List.mem_singleton.1 hop
      cases Option.some.inj hot
      exact ⟨r, by rw [RegisterFile.binding?_bind, if_pos rfl]⟩
  | leaving hl =>
    rw [Instr.dsts_of_leaves hl] at hop
    simp at hop
  | @call _ _ _ _ dst _ _ hi =>
    rw [hi] at hop
    cases dst with
    | none => simp [Instr.dsts] at hop
    | some u =>
      cases List.mem_singleton.1 hop
      cases Option.some.inj hot
      exact ⟨.result, by rw [received, RegisterFile.binding?_bind, if_pos rfl]⟩

/-- What is live after a step was live before it, or the step writes it and it is stored. -/
theorem Effect.stored (h : Effect exit s f τ f') (hlive : s.liveIn = s.instr.liveBefore s.liveOut)
    (ht : t ∈ s.liveOut) : t ∈ s.liveIn ∨ t ∈ s.instr.defs ∧ Stored τ t := by
  by_cases hd : t ∈ s.instr.defs
  · obtain ⟨r, hb⟩ := h.exists_binding? hd
    exact .inr ⟨hd, r, h.stores _ (RegisterFile.mem_stores.2 ⟨t, r, ht, hb, rfl⟩)⟩
  · left
    rw [hlive]
    exact Instr.mem_liveBefore.2 (.inl ⟨ht, hd⟩)

/-! ### The steps of a block -/

/-- **What is live after some steps of a block** was live before them, or one of them writes it and it is stored. -/
theorem Effects.stored {after : TempSet} (h : Effects exit f done τs f') (hch : Step.Chained after (done ++ todo))
    (ht : t ∈ Step.before after todo) :
    t ∈ Step.before after (done ++ todo) ∨ (∃ s ∈ done, t ∈ s.instr.defs) ∧ Stored τs.flatten t := by
  induction h with
  | nil => exact .inl ht
  | cons he _ ih =>
    obtain ⟨hin, hout, hch⟩ := hch
    rw [List.flatten_cons]
    rcases ih hch with hl | ⟨⟨s, hs, hd⟩, hst⟩
    · replace hl : t ∈ Step.liveOut _ := hout ▸ hl
      rcases he.stored hin hl with hl | ⟨hd, hst⟩
      · exact .inl hl
      · exact .inr ⟨⟨_, List.mem_cons_self, hd⟩, hst.mono fun α hα => List.mem_append_left _ hα⟩
    · exact .inr ⟨⟨s, List.mem_cons_of_mem _ hs, hd⟩, hst.mono fun α hα => List.mem_append_right _ hα⟩

/-! ### Where a function is entered -/

/-- Parameters that are put in different registers are all in registers. -/
theorem exists_binding?_forM_assign {ps : List (Temp × Reg)} {a : Allocator} (hc : a.regs.Consistent)
    (hd : (ps.map Prod.snd).Nodup) (hfree : ∀ u q, a.regs.binding? u = some q → q ∉ ps.map Prod.snd)
    (ht : (∃ q, a.regs.binding? t = some q) ∨ t ∈ ps.map Prod.fst) :
    ∃ q, (run (ps.forM fun p => assign p.1 p.2) a).state.regs.binding? t = some q := by
  induction ps generalizing a with
  | nil => exact ht.resolve_right (by simp)
  | cons p ps ih =>
    obtain ⟨hp, hd⟩ := List.nodup_cons.1 hd
    refine ih (a := { a with regs := a.regs.bind p.1 p.2 }) (hc.bind _ _) hd (fun u q hb => ?_) ?_
    · rcases RegisterFile.binding?_of_bind hb with ⟨-, rfl⟩ | hb
      · exact hp
      · exact fun hm => hfree u q hb (List.mem_cons_of_mem _ hm)
    · by_cases htp : t = p.1
      · exact .inl ⟨p.2, by simp only [RegisterFile.binding?_bind, if_pos htp]⟩
      · refine ht.imp (fun ⟨q, hq⟩ => ⟨q, ?_⟩) fun hm => (List.mem_cons.1 hm).resolve_left htp
        have ho : a.regs.occupant? p.2 ≠ some t := by
          intro ho
          exact hfree t p.2 ((hc t p.2).2 ho) List.mem_cons_self
        simp only [RegisterFile.binding?_bind, if_neg htp, if_neg ho, hq]

/-- **The parameters that come in registers and are needed are stored** where a function is entered. -/
theorem stored_takeParams {g : FlowGraph} {params : List Temp} {a : Allocator}
    (hv : (a.reset (g.tempCount params)).Valid) (ht : t ∈ entryLive g) (hp : t ∈ params) :
    t ∈ params.drop 8 ∨ Stored (run (takeParams g params) (a.reset (g.tempCount params))).trace t := by
  obtain ⟨i, hi⟩ := List.getElem?_of_mem hp
  by_cases h8 : 8 ≤ i
  · refine .inl (List.mem_of_getElem? (i := i - 8) ?_)
    rw [List.getElem?_drop, Nat.add_sub_cancel' h8, hi]
  have hlt : i < Reg.params.length := Nat.lt_of_not_le h8
  have hr : Reg.params[i]? = some Reg.params[i] := List.getElem?_eq_getElem hlt
  have hzip : (t, Reg.params[i]) ∈ params.zip Reg.params :=
    List.mem_of_getElem? (List.getElem?_zip_eq_some.2 ⟨hi, hr⟩)
  have hnodup : ((params.zip Reg.params).map Prod.snd).Nodup := by
    have hregs : Reg.params.Nodup := by decide
    rw [List.Nodup, List.pairwise_map, List.pairwise_iff_getElem]
    intro j k hj hk hjk
    rw [List.length_zip] at hj hk
    simp only [List.getElem_zip]
    exact List.pairwise_iff_getElem.1 hregs j k (by omega) (by omega) hjk
  obtain ⟨q, hq⟩ := exists_binding?_forM_assign (t := t) hv.consistent hnodup (by simp [Allocator.reset])
    (.inr (List.mem_map_of_mem hzip))
  refine .inr ⟨q, ?_⟩
  rw [takeParams, run_bind]
  refine List.mem_append_right _ ?_
  rw [trace_writeBack]
  exact List.mem_filterMap.2 ⟨t, OrdSet.mem_toList.2 ht, by rw [hq]; rfl⟩

end Alloc

end ThreeAddress
