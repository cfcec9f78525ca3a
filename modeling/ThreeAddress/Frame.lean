import ThreeAddress.Asm
import ThreeAddress.Error

/-!
Stack frames.  The frame pointer holds the stack pointer's value on entry, and the frame lies below it:

* one word each for the return address and the caller's frame pointer;
* one word for every callee-saved register, used or not;
* one word per slot.

The size is rounded up to a multiple of 16.  It is a word, computed in words: there is no frame for so many slots that
this overflows.  Frames above `Frame.maxSize` are refused, so that the offsets from either end fit in an instruction.
-/

namespace ThreeAddress

namespace Frame

def wordSize : Nat := 4

/-- The bytes above the slots. -/
def headerSize : Nat := wordSize * (2 + Reg.calleeSaved.length)

/-- The greatest size whose offsets fit in an instruction. -/
def maxSize : Int := 2032

/-- The size of a frame with the given number of slots, unless computing it overflows. -/
def totalSize? (slots : UInt32) : Option Word := do
  let bytes ← Word.mul? slots.toBitVec (.ofNat 32 wordSize)
  let raw ← Word.add? (.ofNat 32 headerSize) bytes
  let padded ← Word.add? raw 15#32
  return padded.align16

end Frame

/-- What the frame of a function has to hold, and its size. -/
structure Frame where
  slotCount : UInt32
  saved : List Reg
  hasCalls : Bool
  total : Word
  sized : Frame.totalSize? slotCount = some total
  deriving DecidableEq

namespace Frame

/-- A frame with the given number of slots that saves nothing. -/
def ofSlots? (slots : UInt32) : Option Frame :=
  (totalSize? slots).pmap (fun total h => ⟨slots, [], false, total, h⟩) fun _ h => h

def setHasCalls (f : Frame) (hasCalls : Bool) : Frame := { f with hasCalls }

/-- Asks for a register to be saved; only callee-saved registers are, and each of them once. -/
def save (f : Frame) (r : Reg) : Frame :=
  if r ∈ Reg.calleeSaved ∧ ¬ r ∈ f.saved then { f with saved := f.saved ++ [r] } else f

def slots (f : Frame) : Nat := f.slotCount.toNat

def size (f : Frame) : Int := f.total.toInt

/-- The bytes of a frame with `n` slots, were there no end to words: 52, and four for each slot, rounded up to a
multiple of 16. -/
def bytes (n : Nat) : Nat := (52 + 4 * n + 15) / 16 * 16

/-- The offset of the `k`-th slot from the frame pointer. -/
def slotOffset (k : Nat) : Int := -(headerSize + wordSize * (k + 1) : Nat)

/-- The number of slots whose offsets are words. -/
def slotLimit : Nat := 536870898

theorem lt_slotLimit {k : Nat} : k < slotLimit ↔ -Word.maxInt ≤ slotOffset k := by
  rw [slotOffset, show headerSize = 52 from rfl, wordSize, slotLimit, Word.maxInt]
  omega

/-- The offset from the frame pointer of the word that saves a callee-saved register. -/
def saveOffset? (r : Reg) : Option Int :=
  (Reg.calleeSaved.idxOf? r).map fun i => -(wordSize * (3 + i) : Nat)

/-- The offset from the frame pointer of the `i`-th parameter, if the caller passes it on the stack. -/
def paramOffset? (i : Nat) : Option Int :=
  if i < Reg.maxParams then none else some (wordSize * (i - Reg.maxParams) : Nat)

/-- The offsets of the parameters below the 536870920th are words. -/
theorem paramOffset?_le {i : Nat} : (∀ o ∈ paramOffset? i, o ≤ Word.maxInt) ↔ i < 536870920 := by
  rw [paramOffset?, show Reg.maxParams = 8 from rfl, wordSize, Word.maxInt]
  split
  · simp
    omega
  · simp
    omega

def prologue (f : Frame) : Except LowerError (List Asm) :=
  if maxSize < f.size then .error (.frameTooLarge f.size)
  else .ok <|
    [.addi .stack .stack (-f.size)] ++
    (if f.hasCalls then [.sw .ra (f.size - wordSize) .stack] else []) ++
    [.sw .frame (f.size - 2 * wordSize) .stack, .addi .frame .stack f.size] ++
    f.saved.filterMap fun r => (saveOffset? r).map fun offset => .sw r offset .frame

def epilogue (f : Frame) : Except LowerError (List Asm) :=
  if maxSize < f.size then .error (.frameTooLarge f.size)
  else .ok <|
    (f.saved.reverse.filterMap fun r => (saveOffset? r).map fun offset => .lw r offset .frame) ++
    (if f.hasCalls then [.lw .ra (f.size - wordSize) .stack] else []) ++
    [.lw .frame (f.size - 2 * wordSize) .stack, .addi .stack .stack f.size, .ret]

end Frame

end ThreeAddress
