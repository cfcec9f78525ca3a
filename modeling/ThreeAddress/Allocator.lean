import ThreeAddress.Action
import ThreeAddress.RegisterFile

/-!
The state of register allocation, and computations over it.  A computation reads and changes the state and emits
actions; what it emits is a value of its own, so that every statement about code can be read off the trace of a
computation.
-/

namespace ThreeAddress

/-- How a program is to be lowered. -/
structure Options where
  /-- Whether to explain the code in comments. -/
  comments : Bool
  /-- The number of registers to allocate, if not all. -/
  registerLimit : Option Nat
  deriving DecidableEq

/-- The state of register allocation. -/
structure Allocator where
  regs : RegisterFile
  /-- Where in the pool the next forced eviction starts looking. -/
  cursor : Nat
  comments : Bool
  /-- Whether the current function has made a call. -/
  hasCalls : Bool
  /-- The evictions of live temporaries in the current function. -/
  spills : Nat
  deriving DecidableEq

namespace Allocator

/-- The allocator before its first function. -/
def ofOptions (o : Options) : Allocator := ⟨.ofLimit o.registerLimit, 0, o.comments, false, 0⟩

/-- The allocator at the start of a function with the given number of temporaries. -/
def reset (s : Allocator) (tempCount : Nat) : Allocator := ⟨s.regs.resetFunction tempCount, 0, s.comments, false, 0⟩

end Allocator

/-- What the making of an allocator reports: a limit below the least pool. -/
def Options.notes (o : Options) : List Note :=
  match o.registerLimit with
  | some limit => if limit < RegisterFile.minPool then [.limitTooSmall limit RegisterFile.minPool] else []
  | none => []

/-- The result of a computation: its value, the state after it, and the actions emitted. -/
structure Emitted (α : Type) where
  value : α
  state : Allocator
  trace : List Action

/-- A computation over the state of register allocation. -/
def Alloc (α : Type) : Type := Allocator → Emitted α

namespace Alloc

instance : Monad Alloc where
  pure a := fun s => ⟨a, s, []⟩
  bind x f := fun s =>
    let r := x s
    let q := f r.value r.state
    ⟨q.value, q.state, r.trace ++ q.trace⟩

section

variable {α β : Type}

theorem pure_apply (a : α) (s : Allocator) : (pure a : Alloc α) s = ⟨a, s, []⟩ := rfl

theorem bind_apply (x : Alloc α) (f : α → Alloc β) (s : Allocator) :
    (x >>= f) s = ⟨(f (x s).value (x s).state).value, (f (x s).value (x s).state).state,
      (x s).trace ++ (f (x s).value (x s).state).trace⟩ := rfl

end

instance : LawfulMonad Alloc := LawfulMonad.mk' Alloc
  (fun x => funext fun s => by
    show Emitted.mk (x s).value (x s).state ((x s).trace ++ []) = x s
    rw [List.append_nil])
  (fun _ _ => rfl)
  (fun x f g => funext fun s => by simp only [bind_apply, List.append_assoc])

/-! ### Primitive computations -/

def state : Alloc Allocator := fun s => ⟨s, s, []⟩

def change (f : Allocator → Allocator) : Alloc Unit := fun s => ⟨(), f s, []⟩

def emit (a : Action) : Alloc Unit := fun s => ⟨(), s, [a]⟩

/-- Emits several instructions. -/
def emitCode (code : List Asm) : Alloc Unit := fun s => ⟨(), s, code.map .native⟩

def report (n : Note) : Alloc Unit := emit (.note n)

/-- Emits a comment, if comments are wanted. -/
def remark (text : String) : Alloc Unit := do
  if (← state).comments then emit (.comment text)

def assign (t : Temp) (r : Reg) : Alloc Unit := fun s =>
  ⟨(), { s with regs := s.regs.bind t r }, (s.regs.bindNotes t r).map .note⟩

def forget (t : Temp) : Alloc Unit := fun s =>
  ⟨(), { s with regs := s.regs.without t }, (s.regs.unbindNotes t).map .note⟩

/-- Stores those of the temporaries that are in registers. -/
def writeBack (ts : TempSet) : Alloc Unit :=
  ts.toList.forM fun t => do
    match (← state).regs.binding? t with
    | some r => emit (.store r t)
    | none => pure ()

end Alloc

end ThreeAddress
