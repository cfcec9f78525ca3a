import ThreeAddress.Allocator

/-!
The choice of a register for an operand.  A temporary that is in a register stays there.  Otherwise the first register
of the pool is taken that is empty or holds a value no longer needed; if there is none, a register is evicted, the
pool being searched from a cursor that moves on with every eviction.
-/

namespace ThreeAddress

namespace Allocator

/-- The first register of the pool that `t` may take without an eviction.  `live` holds the temporaries that must
survive.  A register that holds an operand of the same instruction (`pinned`) is not taken for reading; for writing it
may be, since operands are read before the result is written. -/
def free? (s : Allocator) (read : Bool) (live : TempSet) (pinned : List Reg) : Option Reg :=
  s.regs.pool.find? fun r =>
    !(read && r ∈ pinned) &&
    match s.regs.occupant? r with
    | none => true
    | some t => ¬ t ∈ live

/-- The pool from the cursor on and around, each register with its position. -/
def fromCursor (s : Allocator) : List (Reg × Nat) :=
  let pool := s.regs.pool.zipIdx
  let start := s.cursor % pool.length
  pool.drop start ++ pool.take start

def advance (s : Allocator) (position : Nat) : Allocator :=
  { s with cursor := (position + 1) % s.regs.pool.length }

end Allocator

namespace Alloc

/-- Chooses the register to evict: from the cursor on, the first that holds no operand of the instruction.  If all of
them do, the one at the cursor goes; for a read this loses an operand, which is reported. -/
def victim (read : Bool) (pinned : List Reg) : Alloc Reg := do
  let order := (← state).fromCursor
  match order.find? fun p => ¬ p.1 ∈ pinned with
  | some (r, i) =>
    change fun s => s.advance i
    return r
  | none =>
    let (r, i) := order.headD (.t0, 0)
    if read then report (.evictingOperand r)
    change fun s => s.advance i
    return r

/-- Stores what register `r` holds and takes it out, to make room for `t`. -/
def evict (r : Reg) (t : Temp) : Alloc Unit := do
  match (← state).regs.occupant? r with
  | some u =>
    report (.spilled r u t)
    remark (Note.spilledText r u)
    emit (.store r u)
    forget u
    change fun s => { s with spills := s.spills + 1 }
  | none => pure ()

/-- Finds a register for `t`, and loads it if `t` is read.  `live` holds the temporaries that must survive: those live
before the instruction for a read, those live after it for a write. -/
def hold (t : Temp) (read : Bool) (live : TempSet) (pinned : List Reg) : Alloc Reg := do
  let s ← state
  match s.regs.binding? t with
  | some r => return r
  | none =>
    match s.free? read live pinned with
    | some r =>
      report (.allocated t r read)
      remark (Note.allocatedText t r read)
      if read then emit (.load r t)
      assign t r
      return r
    | none =>
      let r ← victim read pinned
      evict r t
      remark (Note.allocatedText t r read)
      assign t r
      if read then emit (.load r t)
      return r

/-- The registers of the operands read, in order; each is pinned for the operands after it. -/
def readAll (live : TempSet) : (pinned : List Reg) → List Operand → Alloc (List Reg)
  | _, [] => return []
  | pinned, op :: ops => do
    let r ← match op with
      | .reg r => pure r
      | .temp t => hold t true live pinned
    let rs ← readAll live (r :: pinned) ops
    return r :: rs

/-- The registers of the operands written, in order. -/
def writeAll (live : TempSet) (pinned : List Reg) : List Operand → Alloc (List Reg)
  | [] => return []
  | op :: ops => do
    let r ← match op with
      | .reg r => pure r
      | .temp t => hold t false live pinned
    let rs ← writeAll live pinned ops
    return r :: rs

/-- The registers of all operands of a step: those written, then those read.  Registers that the instruction names
are pinned throughout. -/
def resolve (s : Step) : Alloc (List Reg × List Reg) := do
  let named := (s.instr.srcs ++ s.instr.dsts).filterMap Operand.reg?
  let srcs ← readAll s.liveIn named s.instr.srcs
  let dsts ← writeAll s.liveOut (srcs ++ named) s.instr.dsts
  return (dsts, srcs)

end Alloc

end ThreeAddress
