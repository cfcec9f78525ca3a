import ThreeAddress.FlowGraph.Split
import ThreeAddress.Liveness

/-!
Flow graphs as text: each block with its successors, its instructions, and what is live around it.
-/

namespace ThreeAddress

/-- The report on a block, given its successors and whether it is reachable. -/
def Block.report (b : Block) (succ : OrdSet Nat) (reachable : Bool) : String :=
  "  block " ++ toString b.id ++
    (match b.label with
      | some l => " " ++ l.name
      | none => "") ++
    " " ++ b.ending.text ++ (if reachable then "" else " (unreachable)") ++ "\n" ++
  "    succ: " ++ succ.render (fun (n : Nat) => toString n) ++ "\n" ++
  "    live in: " ++ b.liveIn.text ++ "\n" ++
  String.join (b.instrs.map fun i => "      " ++ i.text ++ "\n") ++
  "    live out: " ++ b.liveOut.text ++ "\n"

def FlowGraph.report (g : FlowGraph) (name : Label) : String :=
  let reachable := g.reachable
  "FUNCTION<" ++ name.name ++ ">:\n" ++
    String.join (g.blocks.map fun b => b.report (g.succ b.id) (b.id ∈ reachable))

/-- The reports on functions, in order, until one of them has no graph. -/
def Program.graphReports : List Func → String × Option ProgramError
  | [] => ("", none)
  | f :: fs =>
    match FlowGraph.ofFunc f with
    | .error e => ("", some ⟨f.name, e⟩)
    | .ok g =>
      let (more, error) := graphReports fs
      (g.withLiveness.report f.name ++ more, error)

end ThreeAddress
