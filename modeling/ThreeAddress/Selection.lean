import ThreeAddress.Asm

/-!
Instruction selection: the assembly for a three-address instruction whose operands have been given registers.
-/

namespace ThreeAddress

/-- The code for an operator with one operand. -/
def UnaryOp.select : UnaryOp → RegOp
  | .neg => .neg | .bitNot => .not | .logicNot => .seqz

/-- The code for an operator with two operands.  Every sequence reads `lhs` and `rhs` before it has changed them,
whichever of them `rd` is. -/
def BinaryOp.select (op : BinaryOp) (rd lhs rhs : Reg) : List Asm :=
  match op with
  | .add => [.alu .add rd lhs rhs]
  | .sub => [.alu .sub rd lhs rhs]
  | .mul => [.alu .mul rd lhs rhs]
  | .div => [.alu .div rd lhs rhs]
  | .mod => [.alu .rem rd lhs rhs]
  | .lt => [.alu .slt rd lhs rhs]
  | .gt => [.alu .sgt rd lhs rhs]
  | .eq => [.alu .sub rd lhs rhs, .unary .seqz rd rd]
  | .ne => [.alu .sub rd lhs rhs, .unary .snez rd rd]
  | .le => [.alu .sgt rd lhs rhs, .unary .seqz rd rd]
  | .ge => [.alu .slt rd lhs rhs, .unary .seqz rd rd]
  | .or => [.alu .or rd lhs rhs, .unary .snez rd rd]
  | .and =>
    -- `rd` is written before the second operand is read, so an operand in `rd` goes first
    let (first, second) := if rd = rhs then (rhs, lhs) else (lhs, rhs)
    [.unary .snez rd first, .unary .neg rd rd, .alu .and rd rd second, .unary .snez rd rd]

/-- The code for an instruction, given the registers of the operands it writes and reads, in order.  Returns go to
the label `exit`. -/
def Instr.select (i : Instr) (dsts srcs : List Reg) (exit : Label) : List Asm :=
  match i, dsts, srcs with
  | .move _ _, rd :: _, rs :: _ => [.unary .mv rd rs]
  | .const _ value, rd :: _, _ => [.li rd value]
  | .unary op _ _, rd :: _, rs :: _ => [.unary op.select rd rs]
  | .binary op _ _ _, rd :: _, lhs :: rhs :: _ => op.select rd lhs rhs
  | .jump target, _, _ => [.j target]
  | .branch test _ target, _, rs :: _ => [.branch test rs target]
  | .ret (some _), _, rs :: _ => if rs = .result then [.j exit] else [.unary .mv .result rs, .j exit]
  | .ret none, _, _ => [.j exit]
  | .mark label, _, _ => [.label label]
  | .memo text, _, _ => [.comment text]
  | .call _ callee _, _, _ => [.call callee]
  | _, _, _ => []

end ThreeAddress
