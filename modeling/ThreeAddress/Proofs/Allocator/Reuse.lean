import ThreeAddress.Proofs.Allocator.InStep
import ThreeAddress.Proofs.Allocator.Reports

/-!
One allocator serves any number of functions.  A function, also one that fails midway, leaves behind bindings, registers
marked as written, a cursor and counts; but it changes neither the pool nor the switch for comments, and these two are
all that the start of the next function keeps.

Main statement: whatever functions came before, allocation is what it is with a new allocator (`accept_after`).
-/

namespace ThreeAddress

namespace Allocator

variable (a : Allocator) (g : FlowGraph) (name : Label) (params : List Temp)

/-- A function starts from the pool and the switch for comments, and from nothing else. -/
theorem reset_congr {a b : Allocator} (hpool : a.regs.pool = b.regs.pool) (hcomments : a.comments = b.comments)
    (n : Nat) : a.reset n = b.reset n := by
  rw [reset, reset, RegisterFile.resetFunction, RegisterFile.resetFunction, hpool, hcomments]

theorem accept_reset (n : Nat) : (a.reset n).accept g name params = a.accept g name params := by
  have hrun :
      Alloc.run (Alloc.function g name params).run (a.reset n) = Alloc.run (Alloc.function g name params).run a := by
    rw [Alloc.function_eq]
    rfl
  exact congrArg (fun r => Allocation.mk r.value r.state r.trace) hrun

/-- Allocation depends on the state before it by the pool and the switch for comments. -/
theorem accept_congr {a b : Allocator} (hpool : a.regs.pool = b.regs.pool) (hcomments : a.comments = b.comments) :
    a.accept g name params = b.accept g name params := by
  rw [← accept_reset a g name params 0, reset_congr hpool hcomments, accept_reset b]

/-! ### One function after another -/

theorem pool_accept : (a.accept g name params).final.regs.pool = a.regs.pool :=
  (Alloc.tracked_accept a g name params).pool

/-- A run with the switch as it stands is the run itself, so it ends with the switch as it stood. -/
theorem comments_accept : (a.accept g name params).final.comments = a.comments := by
  have hfinal : (a.accept g name params).final = (a.accept g name params).final.commenting a.comments :=
    (Alloc.inStep_function a.comments g name params).state rfl
  rw [hfinal]
  rfl

structure Job where
  graph : FlowGraph
  name : Label
  params : List Temp

/-- The allocator after functions in turn; one that fails leaves it as it was at the failure. -/
def after (a : Allocator) : List Job → Allocator
  | [] => a
  | j :: js => (a.accept j.graph j.name j.params).final.after js

theorem pool_after (js : List Job) : (a.after js).regs.pool = a.regs.pool := by
  induction js generalizing a with
  | nil => rfl
  | cons j js ih => exact (ih _).trans (pool_accept a j.graph j.name j.params)

theorem comments_after (js : List Job) : (a.after js).comments = a.comments := by
  induction js generalizing a with
  | nil => rfl
  | cons j js ih => exact (ih _).trans (comments_accept a j.graph j.name j.params)

/-- **No state leaks from one function to the next.**  After any functions, whether allocation for them succeeded or
failed midway, allocation for a further one has the same outcome as with a new allocator, takes the same actions, and
ends in the same state: registers, those among them known to be written, evictions, and calls made or not. -/
theorem accept_after (o : Options) (earlier : List Job) (g : FlowGraph) (name : Label) (params : List Temp) :
    ((ofOptions o).after earlier).accept g name params = (ofOptions o).accept g name params :=
  accept_congr g name params (pool_after _ earlier) (comments_after _ earlier)

end Allocator

end ThreeAddress
