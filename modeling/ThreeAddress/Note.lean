import ThreeAddress.Block
import ThreeAddress.FlowGraph

/-!
The log: what the passes report about their work, as data.  A note knows its level and its wording.
-/

namespace ThreeAddress

inductive Level where
  | warn | info | debug | trace
  deriving DecidableEq

/-- Something that a pass reports. -/
inductive Note where
  /-- A program of so many functions is about to be lowered. -/
  | lowering (functions : Nat)
  /-- A function has so many blocks. -/
  | blockCount (function : Label) (count : Nat)
  /-- A flow graph has been made. -/
  | graph (blocks reachable : Nat) (edges : List (Nat × Nat))
  /-- A function has no blocks, hence no code. -/
  | noBlocks (function : Label)
  /-- Liveness is settled after so many rounds. -/
  | settled (rounds : Nat)
  /-- What is live around a block. -/
  | live (block : Nat) (before after : TempSet)
  /-- The register limit is below the least that works. -/
  | limitTooSmall (limit used : Nat)
  /-- Allocation starts. -/
  | allocating (function : Label) (temps blocks : Nat)
  /-- Allocation enters a block. -/
  | entering (block : Nat) (ending : Ending) (before : TempSet)
  /-- Allocation comes to an instruction. -/
  | instruction (i : Instr)
  /-- A temporary is stored because a call may overwrite its register. -/
  | savedForCall (t : Temp) (r : Reg)
  /-- A register now holds a temporary. -/
  | bound (t : Temp) (r : Reg)
  /-- A register no longer holds a temporary. -/
  | unbound (t : Temp) (r : Reg)
  /-- A register is chosen for a temporary. -/
  | allocated (t : Temp) (r : Reg) (read : Bool)
  /-- A live temporary is evicted for another. -/
  | spilled (r : Reg) (victim : Temp) (t : Temp)
  /-- Every register of the pool holds an operand of the instruction, and one of them is evicted. -/
  | evictingOperand (r : Reg)
  /-- Allocation has ended, with so many evictions. -/
  | spills (function : Label) (count : Nat)
  /-- A temporary is loaded that was never stored. -/
  | unstoredRead (function : Label) (t : Temp)
  /-- The frame of a function. -/
  | frame (function : Label) (bytes : Int) (slots : Nat) (saved : List Reg)
  /-- A function has so many machine instructions. -/
  | instructions (function : Label) (count : Nat)
  deriving DecidableEq

def Level.text : Level → String
  | .warn => "WARN" | .info => "INFO" | .debug => "DEBUG" | .trace => "TRACE"

namespace Note

def level : Note → Level
  | limitTooSmall _ _ | evictingOperand _ | unstoredRead _ _ => .warn
  | lowering _ => .info
  | blockCount _ _ | noBlocks _ | settled _ | allocating _ _ _ | spills _ _ | frame _ _ _ _ | instructions _ _ => .debug
  | graph _ _ _ | live _ _ _ | entering _ _ _ | instruction _ | savedForCall _ _ | bound _ _ | unbound _ _
  | allocated _ _ _ | spilled _ _ _ => .trace

/-- The choice of a register, in the log and in comments. -/
def allocatedText (t : Temp) (r : Reg) (read : Bool) : String :=
  "allocate " ++ t.text ++ " to " ++ r.name ++ " (read: " ++ (if read then "true" else "false") ++ ")"

/-- An eviction, in the log and in comments. -/
def spilledText (r : Reg) (victim : Temp) : String := "spill " ++ r.name ++ " (" ++ victim.text ++ ")"

def text : Note → String
  | lowering functions => "lowering " ++ toString functions ++ " functions"
  | blockCount function count => function.name ++ ": " ++ toString count ++ " basic blocks"
  | graph blocks reachable edges =>
    "CFG: " ++ toString blocks ++ " blocks, " ++ toString reachable ++ " reachable, edges " ++ FlowGraph.edgesText edges
  | noBlocks function => function.name ++ ": no blocks, nothing to emit"
  | settled rounds => "liveness reached a fixpoint after " ++ toString rounds ++ " rounds"
  | live block before after =>
    "block " ++ toString block ++ ": live_in " ++ before.text ++ " live_out " ++ after.text
  | limitTooSmall limit used => "register limit " ++ toString limit ++ " is too small, using " ++ toString used
  | allocating function temps blocks =>
    "allocating " ++ function.name ++ ": " ++ toString temps ++ " temps, " ++ toString blocks ++ " reachable blocks"
  | entering block ending before =>
    "block " ++ toString block ++ " (" ++ ending.text ++ "), live in " ++ before.text
  | instruction i => i.text
  | savedForCall t r => "save " ++ t.text ++ " from " ++ r.name ++ " across call"
  | bound t r => "bind " ++ t.text ++ " -> " ++ r.name
  | unbound t r => "unbind " ++ t.text ++ " from " ++ r.name
  | allocated t r read => allocatedText t r read
  | spilled r victim t => spilledText r victim ++ " for " ++ t.text
  | evictingOperand r => "every register holds an operand, evicting " ++ r.name
  | spills function count => function.name ++ ": " ++ toString count ++ " spills"
  | unstoredRead function t => function.name ++ ": " ++ t.text ++ " is read before it is ever stored"
  | frame function bytes slots saved =>
    function.name ++ ": frame of " ++ toString bytes ++ " bytes, " ++ toString slots ++ " slots, saved [" ++
      ", ".intercalate (saved.map Reg.title) ++ "]"
  | instructions function count => function.name ++ ": " ++ toString count ++ " instructions"

def line (n : Note) : String := n.level.text ++ " " ++ n.text

/-- The texts of the warnings among the notes, in order. -/
def warnings (ns : List Note) : List String := (ns.filter fun n => n.level = .warn).map text

end Note

end ThreeAddress
