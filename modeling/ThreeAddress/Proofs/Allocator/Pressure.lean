import Mathlib.Data.List.Nodup
import ThreeAddress.Proofs.Allocator.Operands

/-!
Evictions come from pressure on the registers.  Where no register of the pool is free, each of them holds a temporary
that is live, or an operand of the instruction, which is live too.  No temporary is in two registers, so these are as
many as the pool has registers, and the temporary that needs a register is one more.

Main statement: with live sets no larger than the pool nothing is evicted, and whatever is evicted is live and is stored
just before its register is written again (`spills_need_pressure`).
-/

namespace ThreeAddress

/-- Every live set around a step of a reachable block has at most `n` temporaries, those that the step writes
included. -/
def FlowGraph.Fits (g : FlowGraph) (n : Nat) : Prop :=
  ∀ b ∈ g.reachableBlocks, ∀ s ∈ b.steps, s.liveIn.size ≤ n ∧ (s.liveOut ∪ .ofList s.instr.defs).size ≤ n

instance (g : FlowGraph) (n : Nat) : Decidable (g.Fits n) :=
  inferInstanceAs (Decidable (∀ b ∈ g.reachableBlocks, ∀ s ∈ b.steps, _))

/-- The actions after `u` is evicted from register `r` for `t`, in a step that has `n` registers to choose from: `u` is
stored, and then `t` is loaded into the register, if the step reads it, or the code of the step writes it there.
Comments may stand between them. -/
inductive Forced (n : Nat) (s : Step) (r : Reg) (u t : Temp) (τ : List Action) : Prop
  | read {υ : List Action} : t ∈ s.instr.uses → u ∈ s.liveIn → n < s.liveIn.size →
      Action.essential τ = .store r u :: .load r t :: υ → Forced n s r u t τ
  | write {x : Asm} {υ : List Action} : t ∈ s.instr.defs → u ∈ s.liveOut →
      n < (s.liveOut ∪ .ofList s.instr.defs).size → x.dst? = some r →
      Action.essential τ = .store r u :: .native x :: υ → Forced n s r u t τ

theorem Forced.append {n : Nat} {s : Step} {r : Reg} {u t : Temp} {τ : List Action} (h : Forced n s r u t τ)
    (υ : List Action) : Forced n s r u t (τ ++ υ) := by
  cases h with
  | read ht hu hn hτ => exact .read ht hu hn (by rw [Action.essential_append, hτ]; rfl)
  | write ht hu hn hx hτ => exact .write ht hu hn hx (by rw [Action.essential_append, hτ]; rfl)

/-! ### Counting -/

/-- A pool whose registers all hold members of a set, with a member that is in no register: the set is the larger. -/
theorem RegisterFile.Consistent.length_lt_size {f : RegisterFile} (hc : f.Consistent) (hd : f.pool.Nodup)
    {live : TempSet} {t : Temp} (h : ∀ r ∈ f.pool, ∃ u, f.occupant? r = some u ∧ u ∈ live) (ht : t ∈ live)
    (hb : f.binding? t = none) : f.pool.length < live.size := by
  have hheld : ∀ u, u ∈ f.pool.filterMap f.occupant? ↔ ∃ r ∈ f.pool, f.occupant? r = some u := fun u =>
    List.mem_filterMap
  have hlen : (f.pool.filterMap f.occupant?).length = f.pool.length := by
    rw [List.filterMap_length_eq_length]
    intro r hr
    obtain ⟨u, hu, -⟩ := h r hr
    rw [hu]
    rfl
  have hnodup : (f.pool.filterMap f.occupant?).Nodup := by
    refine List.Nodup.filterMap (fun q r u hq hr => ?_) hd
    exact Option.some.inj (((hc u q).2 hq).symm.trans ((hc u r).2 hr))
  have hnew : t ∉ f.pool.filterMap f.occupant? := by
    intro hm
    obtain ⟨r, -, hr⟩ := (hheld t).1 hm
    rw [(hc t r).2 hr] at hb
    simp at hb
  have hsub : ∀ u ∈ t :: f.pool.filterMap f.occupant?, u ∈ live.toList := by
    intro u hu
    rcases List.mem_cons.1 hu with rfl | hu
    · exact ht
    · obtain ⟨r, hr, hru⟩ := (hheld u).1 hu
      obtain ⟨w, hw, hl⟩ := h r hr
      cases Option.some.inj (hru.symm.trans hw)
      exact hl
  have hle := ((List.nodup_cons.2 ⟨hnew, hnodup⟩).subperm hsub).length_le
  rw [List.length_cons, hlen] at hle
  exact hle

/-! ### The choice of a register -/

namespace Chosen

variable {a : Allocator} {t t' u : Temp} {read : Bool} {live : TempSet} {pinned : List Reg} {e : Emitted Reg} {r : Reg}
  {xs ys : List Action}

theorem pool (h : Chosen a t read live pinned e) : e.state.regs.pool = a.regs.pool := by
  cases h with
  | bound => rfl
  | free | evicted => simp

/-- What is reported as evicted was live, in a register of the pool where no other was free; it is stored, and the
temporary that gets the register is loaded if it is read. -/
theorem of_spilled (h : Chosen a t read live pinned e) (htrace : e.trace = xs ++ .note (.spilled r u t') :: ys) :
    t' = t ∧ a.regs.binding? t = none ∧ a.free? read live pinned = none ∧ u ∈ live ∧ e.value = r ∧
      Action.essential ys = .store r u :: if read then [.load r t] else [] := by
  have hroutine : ∀ {τ : List Action}, (∀ e ∈ τ, e.isRoutine = true) → .note (.spilled r u t') ∉ τ := by
    intro τ hτ hm
    simpa [Action.isRoutine] using hτ _ hm
  cases h with
  | bound => simp at htrace
  | free _ _ hτ =>
    dsimp only at htrace
    exact absurd (htrace ▸ List.mem_append_right _ List.mem_cons_self) (hroutine hτ)
  | evicted hb hf hr hn ho hτ hess =>
    cases xs with
    | nil =>
      obtain ⟨hnote, rfl⟩ := List.cons.inj htrace
      cases hnote
      obtain ⟨w, hw, hl⟩ := Allocator.free?_eq_none hf hr hn
      cases Option.some.inj (ho.symm.trans hw)
      exact ⟨rfl, hb, hf, hl, rfl, hess⟩
    | cons x xs =>
      obtain ⟨-, htail⟩ := List.cons.inj htrace
      exact absurd (htail ▸ List.mem_append_right _ List.mem_cons_self) (hroutine hτ)

/-- The temporary that gets the register of another is one too many for the pool. -/
theorem length_lt_size (ha : a.Sound) (h : Chosen a t read live pinned e)
    (htrace : e.trace = xs ++ .note (.spilled r u t') :: ys)
    (hpin : read = true → ∀ q ∈ pinned, ∃ w, a.regs.occupant? q = some w ∧ w ∈ live) {wide : TempSet}
    (hwide : ∀ w ∈ live, w ∈ wide) (ht : t ∈ wide) : a.regs.pool.length < wide.size := by
  obtain ⟨-, hb, hf, -⟩ := h.of_spilled htrace
  refine ha.consistent.length_lt_size ha.distinct (fun q hq => ?_) ht hb
  have hheld : ∃ w, a.regs.occupant? q = some w ∧ w ∈ live := by
    by_cases hpinned : read = true ∧ q ∈ pinned
    · exact hpin hpinned.1 q hpinned.2
    · exact Allocator.free?_eq_none hf hq fun hr hm => hpinned ⟨hr, hm⟩
  obtain ⟨w, hw, hl⟩ := hheld
  exact ⟨w, hw, hwide w hl⟩

end Chosen

/-! ### The operands of an instruction -/

theorem Instr.leaves_of_dsts {i : Instr} {dst : Operand} (hd : i.dsts = [dst]) : i.leaves = false := by
  cases i with
  | move | const | unary | binary | call => rfl
  | jump | branch | ret | mark | memo => simp [dsts] at hd

namespace Alloc

variable {a : Allocator} {s : Step} {live : TempSet} {pinned : List Reg} {r : Reg} {u t : Temp} {xs ys : List Action}

theorem readAll_spilled {ops : List Operand} (ha : a.Sound) (hops : ∀ op ∈ ops, ∃ t, op = .temp t ∧ t ∈ live)
    (hp : pinned.length + ops.length ≤ 2) (hpin : ∀ q ∈ pinned, ∃ w, a.regs.occupant? q = some w ∧ w ∈ live)
    (htrace : (run (readAll live pinned ops) a).trace = xs ++ .note (.spilled r u t) :: ys) :
    .temp t ∈ ops ∧ u ∈ live ∧ a.regs.pool.length < live.size ∧
      ∃ υ, Action.essential ys = .store r u :: .load r t :: υ := by
  induction ops generalizing a pinned xs with
  | nil => simp [readAll, run_pure] at htrace
  | cons op ops ih =>
    obtain ⟨⟨w, rfl, hw⟩, hrest⟩ := List.forall_mem_cons.1 hops
    rw [List.length_cons] at hp
    have hfree : true = true → ∃ q ∈ a.regs.pool, q ∉ pinned := fun _ =>
      Allocator.exists_unpinned ha.distinct ha.room (by omega)
    obtain ⟨e₁, e₂, h₁, h₂, hrun⟩ := run_readAll_cons live pinned w ops a
    have hch : Chosen a w true live pinned e₁ := h₁ ▸ hold_chosen ha.room hfree
    rw [hrun] at htrace
    rcases split_append htrace with ⟨zs, hfirst, rfl⟩ | ⟨xs', hlater, -⟩
    · obtain ⟨rfl, -, -, hu, -, hzs⟩ := hch.of_spilled hfirst
      refine ⟨List.mem_cons_self, hu, hch.length_lt_size ha hfirst (fun _ => hpin) (fun _ h => h) hw, ?_⟩
      rw [Action.essential_append, hzs]
      exact ⟨_, rfl⟩
    · -- the register just found is pinned now, and what it holds is live
      have hpin₁ : ∀ q ∈ e₁.value :: pinned, ∃ w, e₁.state.regs.occupant? q = some w ∧ w ∈ live := by
        intro q hq
        rcases List.mem_cons.1 hq with rfl | hq
        · exact ⟨w, (hch.sound ha).consistent w _ |>.1 hch.binding?, hw⟩
        · rw [hch.occupant? ha hq]
          exact hpin q hq
      rw [← h₂] at hlater
      obtain ⟨hmem, hu, hlt, hys⟩ := ih (hch.sound ha) hrest (by rw [List.length_cons]; omega) hpin₁ hlater
      rw [hch.pool] at hlt
      exact ⟨List.mem_cons_of_mem _ hmem, hu, hlt, hys⟩

/-- **An eviction in an instruction is forced.** -/
theorem instruction_forced {exit : Label} (ha : a.Sound) (hc : s.instr.isCall = false) (ht : s.instr.TempsOnly)
    (hlive : ∀ t ∈ s.instr.uses, t ∈ s.liveIn)
    (htrace : (run (instruction s exit !s.instr.leaves) a).trace = xs ++ .note (.spilled r u t) :: ys) :
    Forced a.regs.pool.length s r u t ys := by
  have hsrcs : ∀ op ∈ s.instr.srcs, ∃ t, op = .temp t ∧ t ∈ s.liveIn := by
    intro op hop
    obtain ⟨w, rfl⟩ := exists_temp (ht op (List.mem_append_left _ hop))
    exact ⟨w, rfl, hlive w (List.mem_filterMap.2 ⟨_, hop, rfl⟩)⟩
  have hlen : ([] : List Reg).length + s.instr.srcs.length ≤ 2 := by simpa using length_srcs_le hc
  obtain ⟨e₁, h₁, hcases⟩ := run_resolve hc ht a
  -- an eviction for an operand that is read, whatever follows the operands
  have hread : ∀ {zs : List Action}, e₁.trace = xs ++ .note (.spilled r u t) :: zs →
      Forced a.regs.pool.length s r u t zs := by
    intro zs hzs
    rw [← h₁] at hzs
    obtain ⟨hmem, hu, hlt, υ, hυ⟩ := readAll_spilled ha hsrcs hlen (by simp) hzs
    exact .read (List.mem_filterMap.2 ⟨_, hmem, rfl⟩) hu hlt hυ
  rw [trace_instruction] at htrace
  rcases split_append htrace with ⟨zs, hresolve, rfl⟩ | ⟨xs', hcode, -⟩
  · rcases hcases with ⟨-, hrun⟩ | ⟨w, e₂, hd, h₂, hrun⟩
    · rw [hrun] at hresolve
      exact (hread hresolve).append _
    · rw [hrun] at hresolve ⊢
      rcases split_append hresolve with ⟨zs', hfirst, rfl⟩ | ⟨xs', hlast, -⟩
      · exact ((hread hfirst).append _).append _
      · have hreads : Reads a [] s.instr.srcs e₁ :=
          h₁ ▸ readAll_reads ha (fun op hop => ht op (List.mem_append_left _ hop)) hlen
        have hch : Chosen e₁.state w false s.liveOut e₁.value e₂ := h₂ ▸ hold_chosen hreads.sound.room (by simp)
        have hdefs : w ∈ s.instr.defs := by
          rw [Instr.defs, hd]
          exact List.mem_cons_self
        have hlt := hch.length_lt_size hreads.sound hlast (by simp) (fun _ hu => OrdSet.mem_union.2 (.inl hu))
          (OrdSet.mem_union.2 (.inr (OrdSet.mem_ofList.2 hdefs)))
        obtain ⟨rfl, -, -, hu, rfl, hzs⟩ := hch.of_spilled hlast
        obtain ⟨x, υ, hselect, hx⟩ := Instr.select_eq_cons hd hc hreads.bound.length_eq.symm e₂.value exit
        refine .write hdefs hu ?_ hx (υ := υ.map .native) ?_
        · have hpool := (Tracks.readAll s.liveIn [] s.instr.srcs a).pool
          rw [h₁] at hpool
          rw [← hpool]
          exact hlt
        · rw [Action.essential_append, hzs, Instr.leaves_of_dsts hd, hselect]
          exact congrArg (_ :: ·) (List.filter_eq_self.2 (by simp [Action.isQuiet]))
  · have hm : .note (.spilled r u t) ∈ xs' ++ .note (.spilled r u t) :: ys :=
      List.mem_append_right _ List.mem_cons_self
    rw [← hcode] at hm
    split at hm <;> simp at hm

/-- An eviction that is reported in a run of allocation, whether it succeeds or not, is reported by the step of a point
that is reached, and is forced upon it. -/
theorem exists_forced {g : FlowGraph} {name : Label} {params : List Temp} {a₀ : Allocator}
    (hv : (a₀.reset (g.tempCount params)).Valid) (hplain : ∀ b ∈ g.reachableBlocks, Plain b) (hs : g.Settled)
    (h : (a₀.accept g name params).actions = xs ++ .note (.spilled r u t) :: ys) :
    ∃ (p : Point g) (pre : List Action) (a : Allocator) (xs' zs rest : List Action), p.Reached name params a₀ pre a ∧
      Emits (step p.step name.exit p.emitted) a xs' (.note (.spilled r u t)) zs ∧ xs = pre ++ xs' ∧ ys = zs ++ rest ∧
      Forced a₀.regs.pool.length p.step r u t zs := by
  have hf : ∀ b ∈ g.reachableBlocks, Formed b.instrs b.ending := fun b hb => (hplain b hb).formed
  obtain ⟨p, pre, a, xs', zs, rest, hp, hemits, rfl, rfl⟩ := exists_reached hf rfl h
  refine ⟨p, pre, a, xs', zs, rest, hp, hemits, rfl, rfl, ?_⟩
  obtain ⟨hc, ρ, xs₁, zs₁, rest₁, htrace, -, rfl⟩ := hemits.of_step rfl
  have ha : a.Sound := (hp.effects hv hf).1.sound
  have ht := (hplain p.block p.block_mem).temps _ p.instr_mem
  have hlive : ∀ t ∈ p.step.instr.uses, t ∈ p.step.liveIn := uses_subset_liveIn (p.chained hs).1
  rw [p.emitted_eq (hf p.block p.block_mem)] at htrace
  rw [← hp.pool]
  exact (instruction_forced ha hc ht hlive htrace).append _

end Alloc

open Alloc in
/-- **Registers are taken away only under pressure.**  Take a function of temporaries, and options that leave a pool of
some registers.  Whether allocation succeeds or fails:

* if no live set around a step is larger than the pool, nothing is evicted;
* the evictions that are counted are those that are reported;
* one that is reported is reported by the step that allocation has come to, and is forced upon it: the temporary that is
  evicted is live before the step, if the register is to be read, or after it, if the register is only written; there
  are more live temporaries than registers; and among the actions of the step, the store of the temporary comes just
  before its register is written. -/
theorem spills_need_pressure {f : Func} (ht : f.TempsOnly) {g : FlowGraph} (hg : FlowGraph.ofFunc f = .ok g)
    (o : Options) :
    (g.withLiveness.Fits (Allocator.ofOptions o).regs.pool.length →
      ((Allocator.ofOptions o).accept g.withLiveness f.name f.params).final.spills = 0) ∧
    ((Allocator.ofOptions o).accept g.withLiveness f.name f.params).final.spills =
      Action.evictions ((Allocator.ofOptions o).accept g.withLiveness f.name f.params).actions ∧
    ∀ (xs ys : List Action) (r : Reg) (u t : Temp),
      ((Allocator.ofOptions o).accept g.withLiveness f.name f.params).actions = xs ++ .note (.spilled r u t) :: ys →
      ∃ (p : Point g.withLiveness) (pre : List Action) (a : Allocator) (xs' zs rest : List Action),
        p.Reached f.name f.params (.ofOptions o) pre a ∧
        Emits (step p.step f.name.exit p.emitted) a xs' (.note (.spilled r u t)) zs ∧
        xs = pre ++ xs' ∧ ys = zs ++ rest ∧ Forced (Allocator.ofOptions o).regs.pool.length p.step r u t zs := by
  have hplain := plain_of_reachable ht (FlowGraph.describes_withLiveness hg)
  obtain ⟨-, -, hs⟩ := FlowGraph.settled_withLiveness (FlowGraph.bare_of_ofFunc hg)
  have hv := valid_reset_ofOptions o (g.withLiveness.tempCount f.params)
  have hcount : ((Allocator.ofOptions o).accept g.withLiveness f.name f.params).final.spills =
      Action.evictions ((Allocator.ofOptions o).accept g.withLiveness f.name f.params).actions := by
    rw [(tracked_accept (.ofOptions o) g.withLiveness f.name f.params).spills]
    exact Nat.zero_add _
  refine ⟨fun hfits => ?_, hcount, fun xs ys r u t h => exists_forced hv hplain hs h⟩
  rw [hcount, Action.evictions, List.countP_eq_zero]
  intro e he hevict
  obtain ⟨r, u, t, rfl⟩ : ∃ r u t, e = .note (.spilled r u t) := by
    cases e with
    | note n => cases n <;> first | exact ⟨_, _, _, rfl⟩ | simp [Action.isEviction] at hevict
    | store | load | native | label | comment => simp [Action.isEviction] at hevict
  obtain ⟨xs, ys, hsplit⟩ := List.append_of_mem he
  obtain ⟨p, -, -, -, zs, -, -, -, -, -, hf⟩ := exists_forced hv hplain hs hsplit
  obtain ⟨hin, hout⟩ := hfits p.block p.block_mem p.step p.step_mem
  cases hf with
  | read _ _ hlt => omega
  | write _ _ hlt => omega

/-- Three values that are live together. -/
def Func.threeLive : Func := ⟨⟨"f"⟩, [], [.const (.temp ⟨0⟩) 1, .const (.temp ⟨1⟩) 2, .const (.temp ⟨2⟩) 3,
  .binary .add (.temp ⟨3⟩) (.temp ⟨0⟩) (.temp ⟨1⟩), .binary .add (.temp ⟨4⟩) (.temp ⟨3⟩) (.temp ⟨2⟩),
  .ret (some (.temp ⟨4⟩))]⟩

def Func.threeLiveGraph : FlowGraph := ⟨[.ofInstrs 0 .returns none Func.threeLive.instrs], []⟩

open Alloc in
/-- With three registers nothing is evicted; with two the first value is. -/
theorem spills_need_pressure_threeLive : Func.threeLive.TempsOnly ∧
    FlowGraph.ofFunc .threeLive = .ok Func.threeLiveGraph ∧ Func.threeLiveGraph.withLiveness.Fits 3 ∧
    ((Allocator.ofOptions ⟨false, some 3⟩).accept Func.threeLiveGraph.withLiveness Func.threeLive.name
      Func.threeLive.params).final.spills = 0 ∧
    ¬ Func.threeLiveGraph.withLiveness.Fits 2 ∧
    ∃ (p : Point Func.threeLiveGraph.withLiveness) (pre : List Action) (a : Allocator) (xs zs rest : List Action),
      ((Allocator.ofOptions ⟨false, some 2⟩).accept Func.threeLiveGraph.withLiveness Func.threeLive.name
        Func.threeLive.params).actions = pre ++ xs ++ .note (.spilled .t0 ⟨0⟩ ⟨2⟩) :: (zs ++ rest) ∧
      p.Reached Func.threeLive.name Func.threeLive.params (.ofOptions ⟨false, some 2⟩) pre a ∧
      Emits (step p.step Func.threeLive.name.exit p.emitted) a xs (.note (.spilled .t0 ⟨0⟩ ⟨2⟩)) zs ∧
      Forced 2 p.step .t0 ⟨0⟩ ⟨2⟩ zs := by
  have ht : Func.threeLive.TempsOnly := by decide
  have hg : FlowGraph.ofFunc .threeLive = .ok Func.threeLiveGraph := rfl
  have hfits : Func.threeLiveGraph.withLiveness.Fits 3 := by decide
  have htwo : (Allocator.ofOptions ⟨false, some 2⟩).regs.pool.length = 2 := by decide
  have hthree : (Allocator.ofOptions ⟨false, some 3⟩).regs.pool.length = 3 := by decide
  obtain ⟨hnever, -, -⟩ := spills_need_pressure ht hg ⟨false, some 3⟩
  obtain ⟨-, -, hforced⟩ := spills_need_pressure ht hg ⟨false, some 2⟩
  rw [hthree] at hnever
  rw [htwo] at hforced
  have hnote : .note (.spilled .t0 ⟨0⟩ ⟨2⟩) ∈ ((Allocator.ofOptions ⟨false, some 2⟩).accept
      Func.threeLiveGraph.withLiveness Func.threeLive.name Func.threeLive.params).actions := by decide +kernel
  obtain ⟨_, _, hsplit⟩ := List.append_of_mem hnote
  obtain ⟨p, pre, a, xs, zs, rest, hp, hemits, rfl, rfl, hf⟩ := hforced _ _ _ _ _ hsplit
  exact ⟨ht, hg, hfits, hnever hfits, by decide, p, pre, a, xs, zs, rest, hsplit, hp, hemits, hf⟩

end ThreeAddress
