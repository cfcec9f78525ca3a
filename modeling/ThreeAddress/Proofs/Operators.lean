import Mathlib.Logic.Function.Basic
import ThreeAddress.Selection

/-!
The values of operators on words, and what the code selected for them computes.  Division goes toward zero; division
by zero yields `-1`, and the remainder is then the dividend.  Comparisons are signed; they and the logical operators
yield `0` or `1`.

Main statement: the code of an operator leaves its value in the register of the result and changes no other register,
whichever of the three registers coincide (`BinaryOp.run_select`).
-/

namespace ThreeAddress

namespace Word

def ofBool (b : Bool) : Word := if b then 1 else 0

def quotient (x y : Word) : Word := if y = 0 then -1 else x.sdiv y

def remainder (x y : Word) : Word := if y = 0 then x else x.srem y

theorem ofBool_eq_zero {b : Bool} : ofBool b = 0 ↔ b = false := by cases b <;> simp [ofBool]

theorem neg_ofBool_and (b : Bool) (y : Word) : -ofBool b &&& y = if b then y else 0 := by
  cases b
  · exact BitVec.zero_and
  · exact BitVec.allOnes_and

theorem sub_eq_zero_iff (x y : Word) : x - y = 0 ↔ x = y := by
  rw [BitVec.sub_eq_iff_eq_add]
  exact iff_of_eq (congrArg (x = ·) (BitVec.zero_add y))

theorem or_ne_zero_iff (x y : Word) : x ||| y ≠ 0 ↔ x ≠ 0 ∨ y ≠ 0 := by
  rw [← not_and_or, not_iff_not]
  exact BitVec.or_eq_zero_iff

theorem mask_ne_zero_iff (x y : Word) : -ofBool (x ≠ 0) &&& y ≠ 0 ↔ x ≠ 0 ∧ y ≠ 0 := by
  rw [neg_ofBool_and]
  by_cases hx : x = 0 <;> simp [hx]

end Word

/-! ### Operators of three-address code -/

def UnaryOp.eval : UnaryOp → Word → Word
  | .neg, x => -x
  | .bitNot, x => ~~~x
  | .logicNot, x => .ofBool (x = 0)

def BinaryOp.eval : BinaryOp → Word → Word → Word
  | .add, x, y => x + y
  | .sub, x, y => x - y
  | .mul, x, y => x * y
  | .div, x, y => x.quotient y
  | .mod, x, y => x.remainder y
  | .eq, x, y => .ofBool (x = y)
  | .ne, x, y => .ofBool (x ≠ y)
  | .lt, x, y => .ofBool (x.slt y)
  | .gt, x, y => .ofBool (y.slt x)
  | .le, x, y => .ofBool (x.sle y)
  | .ge, x, y => .ofBool (y.sle x)
  | .or, x, y => .ofBool (x ≠ 0 ∨ y ≠ 0)
  | .and, x, y => .ofBool (x ≠ 0 ∧ y ≠ 0)

def Test.passes : Test → Word → Bool
  | .isZero, x => x = 0
  | .isNonzero, x => x ≠ 0

/-! ### Operations of the target -/

def AluOp.eval : AluOp → Word → Word → Word
  | .add, x, y => x + y
  | .sub, x, y => x - y
  | .mul, x, y => x * y
  | .div, x, y => x.quotient y
  | .rem, x, y => x.remainder y
  | .and, x, y => x &&& y
  | .or, x, y => x ||| y
  | .slt, x, y => .ofBool (x.slt y)
  | .sgt, x, y => .ofBool (y.slt x)

def RegOp.eval : RegOp → Word → Word
  | .mv, x => x
  | .neg, x => -x
  | .not, x => ~~~x
  | .seqz, x => .ofBool (x = 0)
  | .snez, x => .ofBool (x ≠ 0)

namespace Reg

section

variable {α : Type} (ρ : Reg → α)

/-- The contents of the registers after a write; a write to `zero` has no effect. -/
def write (r : Reg) (x : α) : Reg → α := if r = .zero then ρ else Function.update ρ r x

@[simp] theorem write_zero (x : α) : write ρ .zero x = ρ := rfl

theorem write_self {r : Reg} (h : r ≠ .zero) (x : α) : write ρ r x r = x := by
  rw [write, if_neg h, Function.update_self]

theorem write_of_ne {r q : Reg} (h : q ≠ r) (x : α) : write ρ r x q = ρ q := by
  unfold write
  split
  · rfl
  · exact Function.update_of_ne h x ρ

@[simp] theorem write_write (r : Reg) (x y : α) : write (write ρ r x) r y = write ρ r y := by
  unfold write
  split
  · rfl
  · exact Function.update_idem x y ρ

end

end Reg

namespace Asm

/-- The register that a line of arithmetic writes, and the word it writes there. -/
def result? (ρ : Reg → Word) : Asm → Option (Reg × Word)
  | alu op rd rs rt => some (rd, op.eval (ρ rs) (ρ rt))
  | li rd imm => some (rd, imm)
  | unary op rd rs => some (rd, op.eval (ρ rs))
  | _ => none

/-- The contents of the registers after lines of arithmetic. -/
def compute (ρ : Reg → Word) : List Asm → Option (Reg → Word)
  | [] => some ρ
  | a :: code =>
    match a.result? ρ with
    | some p => compute (Reg.write ρ p.1 p.2) code
    | none => none

end Asm

/-! ### What the selected code computes -/

theorem UnaryOp.eval_select (op : UnaryOp) (x : Word) : op.select.eval x = op.eval x := by cases op <;> rfl

/-- **The code of an operator computes its value.** -/
theorem BinaryOp.run_select (op : BinaryOp) (rd lhs rhs : Reg) (ρ : Reg → Word) :
    Asm.compute ρ (op.select rd lhs rhs) = some (Reg.write ρ rd (op.eval (ρ lhs) (ρ rhs))) := by
  by_cases hz : rd = .zero
  · subst hz
    cases op <;> rfl
  · have hs := fun x => Reg.write_self ρ hz x
    cases op <;> simp only [BinaryOp.select, Asm.compute, Asm.result?, AluOp.eval, RegOp.eval, BinaryOp.eval,
      Reg.write_write, hs]
    case eq => simp only [Word.sub_eq_zero_iff]
    case ne => simp only [ne_eq, Word.sub_eq_zero_iff]
    case le => simp only [Word.ofBool_eq_zero, BitVec.sle_eq_not_slt, Bool.decide_eq_false]
    case ge => simp only [Word.ofBool_eq_zero, BitVec.sle_eq_not_slt, Bool.decide_eq_false]
    case or => simp only [Word.or_ne_zero_iff]
    case and =>
      -- the operand in `rd`, if there is one, is read first
      by_cases hr : rd = rhs
      · subst hr
        simp only [if_true, Word.mask_ne_zero_iff]
        by_cases hl : lhs = rd
        · subst hl
          have hm : -Word.ofBool (ρ lhs ≠ 0) ≠ 0 ↔ ρ lhs ≠ 0 := by
            by_cases hx : ρ lhs = 0 <;> simp [hx, Word.ofBool]
          simp only [hs, hm]
        · simp only [Reg.write_of_ne ρ hl, and_comm]
      · simp only [if_neg hr, Reg.write_of_ne ρ (Ne.symm hr), Word.mask_ne_zero_iff]

end ThreeAddress
