import Mathlib.Logic.Relation
import ThreeAddress.Frame
import ThreeAddress.Proofs.Evaluation

/-!
The target machine.  A register or a word of memory holds an integer.  Arithmetic sees the low 32 bits of its operands
and leaves a signed 32-bit value, so it wraps around; the stack and frame pointers are addresses, and memory is
addressed by all integers, so these two do not.

* `exec?`: one line of code that is neither a call nor a return.
* `Returns s x s'`: what a caller may count on when a call made in state `s` comes back with result `x` in `s'`; all
  that is not mentioned may have changed.
* `Step`, `Completes`: the code of one function, with its calls answered from outside.  `Completes code Q s T` says
  that from `s` the run arrives at `ret`, makes the calls `T` in this order and no others, and ends in a state with
  `Q`, whatever the callees do within `Returns`.
* `next?`, `Reaches`: code that holds the called functions as well.
-/

namespace ThreeAddress

/-- The state of the machine: the position in the code, the registers, and the memory. -/
structure Machine where
  pc : Nat
  regs : Reg → Int
  mem : Int → Int

def Reg.isPointer (r : Reg) : Bool := r = .stack || r = .frame

def Asm.place? (code : List Asm) (l : Label) : Option Nat := code.findIdx? fun a => a = .label l

namespace Machine

section

variable (s : Machine)

/-- The contents of a register; `zero` holds zero. -/
def get (r : Reg) : Int := if r = .zero then 0 else s.regs r

def word (r : Reg) : Word := BitVec.ofInt 32 (s.get r)

def wordAt (a : Int) : Word := BitVec.ofInt 32 (s.mem a)

def set (r : Reg) (x : Int) : Machine := { s with regs := Reg.write s.regs r x }

def store (a x : Int) : Machine := { s with mem := Function.update s.mem a x }

def next : Machine := { s with pc := s.pc + 1 }

/-- The state after a line of code that is neither a call nor a return. -/
def exec? (code : List Asm) : Asm → Option Machine
  | .alu op rd rs rt => some (s.set rd (op.eval (s.word rs) (s.word rt)).toInt).next
  | .li rd imm => some (s.set rd imm.toInt).next
  | .unary op rd rs => some (s.set rd (op.eval (s.word rs)).toInt).next
  | .addi rd rs imm =>
    some (s.set rd (if rd.isPointer then s.get rs + imm else (s.word rs + .ofInt 32 imm).toInt)).next
  | .lw rd offset base => some (s.set rd (s.mem (s.get base + offset))).next
  | .sw rs offset base => some (s.store (s.get base + offset) (s.get rs)).next
  | .j l => (Asm.place? code l).map fun q => { s with pc := q }
  | .branch test rs l =>
    if test.passes (s.word rs) then (Asm.place? code l).map fun q => { s with pc := q } else some s.next
  | .label _ | .comment _ => some s.next
  | .call _ | .ret => none

/-- The arguments are in the argument registers. -/
def Passes (args : List Word) : Prop := args = (Reg.params.take args.length).map s.word

/-- The arguments are where a function expects its parameters: eight in registers, the others on the stack. -/
structure Receives (args : List Word) : Prop where
  inRegs : ∀ {i : Nat} {r : Reg} {x : Word}, Reg.params[i]? = some r → args[i]? = some x → s.word r = x
  onStack : ∀ {i : Nat} {x : Word}, 8 ≤ i → args[i]? = some x → s.wordAt (s.get .sp + 4 * ((i : Int) - 8)) = x

/-- A call made in state `s` has come back in state `s'` with the result `x`. -/
structure Returns (x : Option Word) (s' : Machine) : Prop where
  pc : s'.pc = s.pc + 1
  sp : s'.get .sp = s.get .sp
  fp : s'.get .s0 = s.get .s0
  saved : ∀ r ∈ Reg.calleeSaved, s'.get r = s.get r
  mem : ∀ a, s.get .sp ≤ a → s'.mem a = s.mem a
  result : ∀ w, x = some w → s'.word .a0 = w

end

/-! ### The code of one function -/

/-- One step; a call is one step, named by what was called and what came back. -/
inductive Step (code : List Asm) : Machine → Option Call → Machine → Prop
  | exec {s s' : Machine} {a : Asm} : code[s.pc]? = some a → s.exec? code a = some s' → Step code s none s'
  | call {s s' : Machine} {c : Call} : code[s.pc]? = some (.call c.callee) → s.Passes c.args →
      s.Returns c.result s' → Step code s (some c) s'

def Steps (code : List Asm) : Machine → Machine → Prop :=
  Relation.ReflTransGen fun s s' => ∃ c, Step code s c s'

/-- The run from `s` arrives at `ret` in a state with `Q` after the calls `T`. -/
inductive Completes (code : List Asm) (Q : Machine → Prop) : Machine → List Call → Prop
  | ret {s : Machine} : code[s.pc]? = some .ret → Q s → Completes code Q s []
  | exec {s s' : Machine} {T : List Call} : Step code s none s' → Completes code Q s' T → Completes code Q s T
  | call {s : Machine} {c : Call} {T : List Call} : code[s.pc]? = some (.call c.callee) → s.Passes c.args →
      (∀ s', Step code s (some c) s' → Completes code Q s' T) → Completes code Q s (c :: T)

/-! ### The code of all functions -/

/-- One step of code that holds the functions it calls. -/
def next? (code : List Asm) (s : Machine) : Option Machine :=
  match code[s.pc]? with
  | some (.call l) => (Asm.place? code l).map fun q => { s.set .ra (s.pc + 1) with pc := q }
  | some .ret => some { s with pc := (s.get .ra).toNat }
  | some a => s.exec? code a
  | none => none

def Reaches (code : List Asm) : Machine → Machine → Prop :=
  Relation.ReflTransGen fun s s' => s.next? code = some s'

/-! ### Reading and writing -/

section

variable (s : Machine)

@[simp] theorem pc_set (r : Reg) (x : Int) : (s.set r x).pc = s.pc := rfl
@[simp] theorem mem_set (r : Reg) (x : Int) : (s.set r x).mem = s.mem := rfl
@[simp] theorem pc_store (a x : Int) : (s.store a x).pc = s.pc := rfl
@[simp] theorem get_store (a x : Int) (r : Reg) : (s.store a x).get r = s.get r := rfl
@[simp] theorem word_store (a x : Int) (r : Reg) : (s.store a x).word r = s.word r := rfl
@[simp] theorem pc_next : s.next.pc = s.pc + 1 := rfl
@[simp] theorem get_next (r : Reg) : s.next.get r = s.get r := rfl
@[simp] theorem word_next (r : Reg) : s.next.word r = s.word r := rfl
@[simp] theorem mem_next : s.next.mem = s.mem := rfl

theorem get_of_ne_zero {r : Reg} (h : r ≠ .zero) : s.get r = s.regs r := if_neg h

theorem get_set_self {r : Reg} (h : r ≠ .zero) (x : Int) : (s.set r x).get r = x := by
  rw [get_of_ne_zero _ h]
  exact Reg.write_self s.regs h x

theorem get_set_of_ne {r q : Reg} (h : q ≠ r) (x : Int) : (s.set r x).get q = s.get q := by
  unfold get
  split
  · rfl
  · exact Reg.write_of_ne s.regs h x

theorem mem_store_self (a x : Int) : (s.store a x).mem a = x := Function.update_self ..

theorem mem_store_of_ne {a b : Int} (h : b ≠ a) (x : Int) : (s.store a x).mem b = s.mem b :=
  Function.update_of_ne h ..

/-- Seen as words, the registers change as registers of words do. -/
theorem word_set (r : Reg) (x : Int) : (s.set r x).word = Reg.write s.word r (.ofInt 32 x) := by
  by_cases h : r = .zero
  · subst h
    rfl
  funext q
  unfold word
  by_cases hq : q = r
  · subst hq
    rw [get_set_self s h, Reg.write_self _ h]
  · rw [get_set_of_ne s hq, Reg.write_of_ne _ hq]

theorem exec?_of_result? {code : List Asm} {a : Asm} {r : Reg} {w : Word} (h : a.result? s.word = some (r, w)) :
    s.exec? code a = some (s.set r w.toInt).next := by
  cases a <;> simp only [Asm.result?, Option.some.injEq, Prod.mk.injEq, reduceCtorEq] at h
  all_goals
    obtain ⟨rfl, rfl⟩ := h
    rfl

end

theorem next?_of_exec? {P : List Asm} {s s' : Machine} {a : Asm} (ha : P[s.pc]? = some a)
    (hx : s.exec? P a = some s') : s.next? P = some s' := by
  unfold next?
  rw [ha]
  cases a with
  | call | ret => simp [exec?] at hx
  | _ => exact hx

end Machine

/-! ### Code in its place -/

/-- The code stands in the program from position `n` on. -/
def At (P : List Asm) (n : Nat) (code : List Asm) : Prop := code <+: P.drop n

namespace At

variable {P l m : List Asm} {n : Nat} {a : Asm}

theorem append (h : At P n (l ++ m)) : At P n l ∧ At P (n + l.length) m := by
  obtain ⟨rest, h⟩ := h
  refine ⟨⟨m ++ rest, by rw [← h, List.append_assoc]⟩, rest, ?_⟩
  rw [← List.drop_drop, ← h, List.append_assoc, List.drop_left]

theorem cons (h : At P n (a :: l)) : P[n]? = some a ∧ At P (n + 1) l := by
  refine ⟨?_, (append (l := [a]) h).2⟩
  obtain ⟨rest, h⟩ := h
  rw [← List.head?_drop, ← h]
  rfl

end At

end ThreeAddress
