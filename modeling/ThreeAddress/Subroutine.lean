import ThreeAddress.Action
import ThreeAddress.Frame
import ThreeAddress.OrdMap

/-!
The body of a function under construction, and where its temporaries live on the stack.  Parameters that the caller
passes on the stack live where they were passed; every other temporary gets a slot of the frame when it is first
stored or loaded.
-/

namespace ThreeAddress

/-- A function under construction. -/
structure Subroutine where
  name : Label
  /-- The offset of each temporary's home from the frame pointer. -/
  homes : OrdMap Temp Int
  /-- The number of slots handed out. -/
  slots : Nat
  /-- The code so far. -/
  body : Array Asm

namespace Subroutine

/-- The homes of the parameters from the `i`-th on that come on the stack.  Of a repeated parameter the last place
counts. -/
def paramHomes (homes : OrdMap Temp Int) : (i : Nat) → List Temp → OrdMap Temp Int
  | _, [] => homes
  | i, t :: ts =>
    match Frame.paramOffset? i with
    | some offset => paramHomes (homes.insert t offset) (i + 1) ts
    | none => paramHomes homes (i + 1) ts

/-- A function without code. -/
def start (name : Label) (params : List Temp) : Subroutine := ⟨name, paramHomes ∅ 0 params, 0, #[]⟩

section

variable (f : Subroutine)

def home? (t : Temp) : Option Int := f.homes.get? t

/-- Gives a temporary a home, if it has none. -/
def settle (t : Temp) : Subroutine :=
  match f.home? t with
  | some _ => f
  | none => { f with homes := f.homes.insert t (Frame.slotOffset f.slots), slots := f.slots + 1 }

def push (a : Asm) : Subroutine := { f with body := f.body.push a }

/-- Adds a line of code that gets at the home of a temporary. -/
def access (t : Temp) (line : Int → Asm) : Subroutine :=
  let f := f.settle t
  match f.home? t with
  | some offset => f.push (line offset)
  | none => f

def perform : Action → Subroutine
  | .store r t => f.access t fun offset => .sw r offset .frame
  | .load r t => f.access t fun offset => .lw r offset .frame
  | .native a => f.push a
  | .label l => f.push (.label l)
  | .comment text => f.push (.comment text)
  | .note _ => f

/-- What one action reports: a note itself, and a load from a home that was never stored to. -/
def performNotes : Action → List Note
  | .load _ t => if (f.home? t).isNone then [.unstoredRead f.name t] else []
  | .note n => [n]
  | _ => []

def performAll (as : List Action) : Subroutine := as.foldl perform f

/-- The frame for the slots handed out, if the offsets and the size are words. -/
def frame? (saved : List Reg) (hasCalls : Bool) : Option Frame :=
  if f.slots ≤ Frame.slotLimit then
    (Frame.ofSlots? (.ofNat f.slots)).map fun frame => saved.foldl Frame.save (frame.setHasCalls hasCalls)
  else none

/-- The finished code: the body between the code that enters the function and the code that leaves it.  A frame that
there is not would be too large. -/
def finish (saved : List Reg) (hasCalls : Bool) : Except LowerError (List Asm) :=
  match f.frame? saved hasCalls with
  | none => .error (.frameTooLarge (Frame.bytes f.slots))
  | some frame => do
    let prologue ← frame.prologue
    let epilogue ← frame.epilogue
    return prologue ++ f.body.toList ++ .label f.name.exit :: epilogue

def finishNotes (saved : List Reg) (hasCalls : Bool) : List Note :=
  (f.frame? saved hasCalls).toList.map fun frame => .frame f.name frame.size f.slots frame.saved

end

/-- What the actions report, in order. -/
def performAllNotes (f : Subroutine) : List Action → List Note
  | [] => []
  | a :: as => f.performNotes a ++ (f.perform a).performAllNotes as

end Subroutine

end ThreeAddress
