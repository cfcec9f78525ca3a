import ThreeAddress.Allocator.Walk
import ThreeAddress.FlowGraph.Split
import ThreeAddress.Liveness
import ThreeAddress.Subroutine

/-!
From three-address code to assembly: flow graph, liveness, register allocation, frame.  Beside each result stands the
log of how it came about; the log says as much of a failure as was done before it.
-/

namespace ThreeAddress

/-- A result or the cause of its failure, with the log. -/
structure Logged (ε α : Type) where
  result : Except ε α
  log : List Note

namespace FlowGraph

/-- What the making of a function's graph reports. -/
def notes (g : FlowGraph) (name : Label) : List Note :=
  [.blockCount name g.blocks.length, .graph g.blocks.length g.reachable.length g.edges]

def Analysis.notes (a : Analysis) : List Note :=
  .settled a.rounds :: a.graph.reachableBlocks.map fun b => .live b.id b.liveIn b.liveOut

end FlowGraph

/-- The code of a function whose graph is not empty, from the graph without live sets. -/
def FlowGraph.lower (g : FlowGraph) (f : Func) (o : Options) : Logged LowerError AsmFunc :=
  let analysis := g.analyze
  let allocation := (Allocator.ofOptions o).accept analysis.graph f.name f.params
  let start := Subroutine.start f.name f.params
  let log := analysis.notes ++ o.notes ++ start.performAllNotes allocation.actions
  match allocation.outcome with
  | .error e => ⟨.error e, log⟩
  | .ok () =>
    let body := start.performAll allocation.actions
    let saved := allocation.final.regs.usedCalleeSaved
    let log := log ++ body.finishNotes saved allocation.final.hasCalls
    match body.finish saved allocation.final.hasCalls with
    | .error e => ⟨.error e, log⟩
    | .ok code => ⟨.ok ⟨f.name, code⟩, log ++ [.instructions f.name (Asm.instructionCount code)]⟩

/-- The code of a function; a function without blocks has none. -/
def Func.lower (f : Func) (o : Options) : Logged LowerError AsmFunc :=
  match FlowGraph.ofFunc f with
  | .error e => ⟨.error e, []⟩
  | .ok g =>
    if g.blocks.isEmpty then ⟨.ok ⟨f.name, []⟩, g.notes f.name ++ [.noBlocks f.name]⟩
    else
      let lowered := g.lower f o
      ⟨lowered.result, g.notes f.name ++ lowered.log⟩

namespace Program

/-- The code of functions, in order; the first that fails is the error. -/
def lowerAll (o : Options) : List Func → Logged ProgramError (List AsmFunc)
  | [] => ⟨.ok [], []⟩
  | f :: fs =>
    let first := f.lower o
    match first.result with
    | .error e => ⟨.error ⟨f.name, e⟩, first.log⟩
    | .ok code =>
      let rest := lowerAll o fs
      ⟨rest.result.map (code :: ·), first.log ++ rest.log⟩

def lower (p : Program) (o : Options) : Logged ProgramError (List AsmFunc) :=
  let lowered := lowerAll o p.funcs
  ⟨lowered.result, .lowering p.funcs.length :: lowered.log⟩

def compile (p : Program) (o : Options) : Except ProgramError String := (p.lower o).result.map AsmFunc.program

end Program

end ThreeAddress
