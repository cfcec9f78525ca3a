import ThreeAddress.Allocator.Choice
import ThreeAddress.FlowGraph
import ThreeAddress.Selection

/-!
Register allocation for a function.  It works block by block: a block starts with empty registers, every value live
after an instruction is written back to its stack home, and values are loaded again on their first use in a block.
So registers carry nothing from one block to the next, and the caller-saved ones nothing across a call.
-/

namespace ThreeAddress

/-- A computation over the state of register allocation that may fail. -/
abbrev AllocE : Type → Type := ExceptT LowerError Alloc

namespace Alloc

/-! ### Calls -/

/-- The temporary of an operand of instruction `i`, which must not name a register. -/
def needTemp (i : Instr) : Operand → Except LowerError Temp
  | .temp t => .ok t
  | .reg r => .error (.physicalOperand r i.text)

/-- The temporaries of several operands; the first that names a register is the error. -/
def needTemps (i : Instr) : List Operand → Except LowerError (List Temp)
  | [] => .ok []
  | op :: ops => do
    let t ← needTemp i op
    let ts ← needTemps i ops
    return t :: ts

/-- The temporaries for the arguments and the result of call `i`. -/
def callTemps (i : Instr) (dst : Option Operand) (args : List Operand) :
    Except LowerError (List Temp × Option Temp) :=
  if Reg.maxParams < args.length then .error (.tooManyArguments args.length Reg.maxParams)
  else do
    let args ← needTemps i args
    match dst with
    | some op => do
      let t ← needTemp i op
      return (args, some t)
    | none => return (args, none)

/-- Stores a register that the call may overwrite, if its value is still needed, and empties it. -/
def vacate (live : TempSet) (r : Reg) : Alloc Unit := do
  match (← state).regs.occupant? r with
  | some t =>
    if t ∈ live then
      report (.savedForCall t r)
      emit (.store r t)
    forget t
  | none => pure ()

/-- Loads an argument into its register. -/
def pass (t : Temp) (r : Reg) : Alloc Unit := do
  forget t
  emit (.load r t)
  assign t r

/-- Empties a register that the call may have overwritten. -/
def drop (r : Reg) : Alloc Unit := do
  match (← state).regs.occupant? r with
  | some t => forget t
  | none => pure ()

/-- Takes the result of the call out of its register. -/
def receive (t : Temp) : Alloc Unit := do
  assign t .result
  emit (.store .result t)

/-- A call, with the temporaries of its arguments and its result. -/
def call (s : Step) (args : List Temp) (dst : Option Temp) (exit : Label) : Alloc Unit := do
  change fun s => { s with hasCalls := true }
  remark s.instr.text
  Reg.callerSaved.forM fun r => vacate s.liveIn r
  (args.zip Reg.params).forM fun p => pass p.1 p.2
  emitCode (s.instr.select (dst.toList.map fun _ => .result) (Reg.params.take args.length) exit)
  Reg.callerSaved.forM fun r => drop r
  match dst with
  | some t => receive t
  | none => pure ()

/-! ### Steps, blocks, functions -/

/-- Finds the registers of a step and, unless its code is to come later, emits it. -/
def instruction (s : Step) (exit : Label) (emitted : Bool) : Alloc Unit := do
  let (dsts, srcs) ← resolve s
  if emitted then emitCode (s.instr.select dsts srcs exit)

/-- One step of a block, and the write-backs after it.  The code of a step that ends the block has to come after the
write-backs and is left out here (`emitted` is false). -/
def step (s : Step) (exit : Label) (emitted : Bool) : AllocE Unit := do
  match s.instr with
  | .call dst _ args =>
    let (args, dst) ← (callTemps s.instr dst args : Except LowerError _)
    call s args dst exit
  | _ =>
    report (.instruction s.instr)
    remark s.instr.text
    instruction s exit emitted
  writeBack s.liveOut

/-- The steps of a block, in order; the last is left without code if it ends the block. -/
def steps (exit : Label) (leaves : Bool) : List Step → AllocE Unit
  | [] => pure ()
  | s :: rest => do
    step s exit (!(leaves && rest.isEmpty))
    steps exit leaves rest

/-- A block: its label, its steps, and last the code that leaves it. -/
def block (b : Block) (exit : Label) : AllocE Unit := do
  match b.label with
  | some l => emit (.label l)
  | none => pure ()
  change fun s => { s with regs := s.regs.resetBlock }
  report (.entering b.id b.ending b.liveIn)
  steps exit b.last?.isSome b.steps
  match b.last? with
  | some s => instruction s exit true
  | none => pure ()

def blocks (exit : Label) : List Block → AllocE Unit
  | [] => pure ()
  | b :: rest => do
    block b exit
    blocks exit rest

/-- A whole function.  On entry the parameters that come in registers are stored, if they are needed. -/
def function (g : FlowGraph) (name : Label) (params : List Temp) : AllocE Unit := do
  change fun s => s.reset (g.tempCount params)
  report (.allocating name (g.tempCount params) g.reachable.length)
  (params.zip Reg.params).forM fun p => (assign p.1 p.2 : Alloc Unit)
  match g.blocks.head? with
  | some entry => writeBack entry.liveIn
  | none => pure ()
  blocks name.exit g.reachableBlocks
  report (.spills name (← (state : Alloc Allocator)).spills)

end Alloc

/-- What allocation for a function came to: whether it failed, the state it ended in, and the actions until then. -/
structure Allocation where
  outcome : Except LowerError Unit
  final : Allocator
  actions : List Action

def Allocator.accept (s : Allocator) (g : FlowGraph) (name : Label) (params : List Temp) : Allocation :=
  let r := (Alloc.function g name params).run s
  ⟨r.value, r.state, r.trace⟩

end ThreeAddress
