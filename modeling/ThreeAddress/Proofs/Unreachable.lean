import ThreeAddress.Lowering
import ThreeAddress.Proofs.Allocator.Emission
import ThreeAddress.Proofs.Allocator.InStep
import ThreeAddress.Proofs.FlowGraph.Prune

/-!
Code that is not reachable has no influence.  Without it, the reachable blocks stay as they are, with the live sets that
they have, and only their numbers change.  The numbers of blocks are in the notes of allocation and nowhere else, so
allocation without its notes (`Alloc.silent`) is the same for both, also where it fails.  There may be fewer
temporaries, and so a smaller table of them, whose size is never asked for (`Alloc.correspondence_alike`).

Main statement: a function and what is left of it without its unreachable blocks have the same code, or fail with the
same error (`unreachable_irrelevant`).
-/

namespace ThreeAddress

namespace Alloc

/-! ### Allocation without notes -/

section

variable {α β : Type}

/-- The computation without its notes. -/
def silent (x : Alloc α) : Alloc α := fun a => ⟨(run x a).value, (run x a).state, Action.events (run x a).trace⟩

theorem silent_report (n : Note) : silent (report n) = pure () := rfl

theorem silent_bind (x : Alloc α) (f : α → Alloc β) : silent (x >>= f) = silent x >>= fun v => silent (f v) := by
  funext a
  show Emitted.mk _ _ (Action.events ((run x a).trace ++ _)) = _
  rw [Action.events_append]
  rfl

def silentE (x : AllocE α) : AllocE α := ExceptT.mk (silent x.run)

theorem silentE_lift (x : Alloc α) : silentE (liftM x) = liftM (silent x) := by
  funext a
  show Emitted.mk _ _ (Action.events ((run x a).trace ++ [])) = Emitted.mk _ _ (Action.events (run x a).trace ++ [])
  rw [List.append_nil, List.append_nil]
  rfl

theorem silentE_bind (x : AllocE α) (f : α → AllocE β) :
    silentE (x >>= f) = silentE x >>= fun v => silentE (f v) := by
  refine congrArg ExceptT.mk ((silent_bind x.run _).trans (bind_congr fun r => ?_))
  cases r <;> rfl

end

theorem silentE_block (b : Block) (exit : Label) : silentE (block b.unnumbered exit) = silentE (block b exit) := by
  rw [block_eq, block_eq]
  simp only [silentE_bind, silentE_lift, silent_report]
  rfl

/-- The numbers of blocks are in notes only. -/
theorem silentE_blocks (exit : Label) (bs : List Block) :
    silentE (blocks exit (bs.map Block.unnumbered)) = silentE (blocks exit bs) := by
  induction bs with
  | nil => rfl
  | cons b bs ih =>
    rw [List.map_cons, blocks, blocks, silentE_bind, silentE_bind, silentE_block]
    exact congrArg _ (funext fun _ => ih)

theorem silentE_afterReset {g h : FlowGraph}
    (hb : h.reachableBlocks.map Block.unnumbered = g.reachableBlocks.map Block.unnumbered)
    (he : entryLive h = entryLive g) (name : Label) (params : List Temp) :
    silentE (afterReset h name params) = silentE (afterReset g name params) := by
  have hblocks : silentE (blocks name.exit h.reachableBlocks) = silentE (blocks name.exit g.reachableBlocks) := by
    rw [← silentE_blocks, hb, silentE_blocks]
  have hparams : takeParams h params = takeParams g params := by rw [takeParams, takeParams, he]
  unfold afterReset
  simp only [silentE_bind, silentE_lift, silent_report, hblocks, hparams]

end Alloc

/-- What two allocations have in common if they differ in notes and in the size of the table of temporaries. -/
structure Allocation.Similar (x y : Allocation) : Prop where
  outcome : x.outcome = y.outcome
  final : x.final.Alike y.final
  events : Action.events x.actions = Action.events y.actions

open Alloc in
theorem Allocator.accept_eq (a : Allocator) (g : FlowGraph) (name : Label) (params : List Temp) :
    a.accept g name params =
      let r := run (afterReset g name params).run (a.reset (g.tempCount params))
      ⟨r.value, r.state, .note (.allocating name (g.tempCount params) g.reachable.length) :: r.trace⟩ := by
  unfold Allocator.accept
  rw [function_eq_afterReset]
  rfl

open Alloc in
/-- **Allocation depends on the reachable blocks, without their numbers, and on what is live at the entry.** -/
theorem Allocator.similar_accept {g h : FlowGraph}
    (hb : h.reachableBlocks.map Block.unnumbered = g.reachableBlocks.map Block.unnumbered)
    (he : entryLive h = entryLive g) (a : Allocator) (name : Label) (params : List Temp) :
    (a.accept h name params).Similar (a.accept g name params) := by
  have hsame := congrFun (silentE_afterReset hb he name params) (a.reset (h.tempCount params))
  obtain ⟨houtcome, hfinal, hevents⟩ := Emitted.mk.inj hsame
  -- the same computation, from tables of different sizes
  have hstep := InStep.afterReset correspondence_alike g name params
  have hstart := a.alike_reset (h.tempCount params) (g.tempCount params)
  have hstate := hstep.state hstart
  rw [← hfinal] at hstate
  have htrace := hstep.trace hstart
  rw [List.filter_true, List.filter_true] at htrace
  rw [htrace] at hevents
  rw [accept_eq, accept_eq]
  exact ⟨houtcome.trans (hstep.value hstart), hstate, hevents⟩

/-! ### Lowering -/

theorem Subroutine.performAll_events (r : Subroutine) (τ : List Action) :
    r.performAll (Action.events τ) = r.performAll τ := by
  induction τ generalizing r with
  | nil => rfl
  | cons α τ ih =>
    cases α with
    | note n => exact ih r
    | store | load | native | label | comment => exact ih (r.perform _)

def Allocation.code (x : Allocation) (name : Label) (params : List Temp) : Except LowerError AsmFunc :=
  x.outcome.bind fun _ =>
    (((Subroutine.start name params).performAll x.actions).finish x.final.regs.usedCalleeSaved x.final.hasCalls).map
      fun code => ⟨name, code⟩

theorem Allocation.Similar.code {x y : Allocation} (h : x.Similar y) (name : Label) (params : List Temp) :
    x.code name params = y.code name params := by
  unfold Allocation.code
  rw [h.outcome, h.final.regs.usedCalleeSaved, h.final.hasCalls, ← Subroutine.performAll_events _ x.actions, h.events,
    Subroutine.performAll_events]

theorem FlowGraph.result_lower (g : FlowGraph) (f : Func) (o : Options) : (g.lower f o).result =
    ((Allocator.ofOptions o).accept g.withLiveness f.name f.params).code f.name f.params := by
  unfold FlowGraph.lower Allocation.code
  dsimp only
  rw [show g.analyze.graph = g.withLiveness from rfl]
  generalize (Allocator.ofOptions o).accept g.withLiveness f.name f.params = x
  obtain ⟨outcome, final, actions⟩ := x
  cases outcome with
  | error e => rfl
  | ok =>
    dsimp only
    generalize (Subroutine.start f.name f.params).performAll actions = body
    cases body.finish final.regs.usedCalleeSaved final.hasCalls <;> rfl

open FlowGraph in
/-- **Code that is not reachable has no influence.**  Without its unreachable blocks, marks included, a function still
has a graph, all blocks of it are reachable, and whatever the options, it has the same code or fails with the same
error. -/
theorem unreachable_irrelevant {f : Func} {g : FlowGraph} (h : ofFunc f = .ok g) :
    ∃ g', ofFunc (f.pruned g) = .ok g' ∧ g'.reachable = List.range g'.blocks.length ∧
      ∀ o, ((f.pruned g).lower o).result = (f.lower o).result := by
  obtain ⟨g', h'⟩ := exists_ofFunc_pruned h
  refine ⟨g', h', reachable_pruned h h', fun o => ?_⟩
  have hentry : Alloc.entryLive g'.withLiveness = Alloc.entryLive g.withLiveness := by
    have hmap := liveIn_entry_pruned h h'
    unfold Alloc.entryLive
    cases hg : g.withLiveness.blocks.head? <;> cases hg' : g'.withLiveness.blocks.head? <;> simp_all
  have hempty : g'.blocks.isEmpty = g.blocks.isEmpty := by
    rw [Bool.eq_iff_iff, List.isEmpty_iff, List.isEmpty_iff, blocks_pruned_eq_nil h h']
  unfold Func.lower
  simp only [h, h', hempty]
  split
  · rfl
  · rw [result_lower, result_lower]
    exact ((Allocator.ofOptions o).similar_accept (reachableBlocks_pruned h h') hentry f.name f.params).code f.name
      f.params

open FlowGraph in
/-- Two blocks that control jumps over make no difference. -/
theorem unreachable_irrelevant_skipping : ofFunc skipping = .ok skippingGraph ∧
    (skipping.pruned skippingGraph).instrs = skipping.instrs.take 2 ++ skipping.instrs.drop 4 ∧
    ∀ o, ((skipping.pruned skippingGraph).lower o).result = (skipping.lower o).result := by
  have hok : ofFunc skipping = .ok skippingGraph := rfl
  obtain ⟨-, -, -, hsame⟩ := unreachable_irrelevant hok
  exact ⟨hok, by decide, hsame⟩

end ThreeAddress
