import ThreeAddress.Note

/-!
The register file: which temporary each register holds, which register each temporary is in, and which registers have
ever been written in the current function.  The two look-ups are tables of their own; the operations keep them
inverse to each other.  The table of temporaries is sized at the start of a function and grows when a temporary beyond
its end is put in a register.
-/

namespace ThreeAddress

/-- What is known of one register. -/
structure RegState where
  /-- Whether the register has been written in the current function. -/
  used : Bool
  /-- Whether it holds a temporary. -/
  occupied : Bool
  temp : Option Temp
  deriving DecidableEq

namespace RegState

/-- The state of a register in which nothing happened. -/
def fresh : RegState := ⟨false, false, none⟩

def emptied (s : RegState) : RegState := { s with occupied := false, temp := none }

/-- The temporary held; without the flag what is noted does not count. -/
def occupant? (s : RegState) : Option Temp := if s.occupied then s.temp else none

end RegState

structure RegisterFile where
  /-- The registers that may be chosen for temporaries, in order of preference. -/
  pool : List Reg
  /-- The state of each register, by hardware number. -/
  states : Vector RegState 32
  /-- The register of each temporary that is in one, by number.  The table may end before the greatest number. -/
  bindings : Array (Option Reg)
  deriving DecidableEq

namespace RegisterFile

/-- The least pool that can hold both operands of an instruction. -/
def minPool : Nat := 2

/-- The size of the pool under a limit. -/
def poolSize : Option Nat → Nat
  | none => Reg.allocatable.length
  | some limit => min (max limit minPool) Reg.allocatable.length

/-- An unused register file under the given limit. -/
def ofLimit (limit : Option Nat) : RegisterFile :=
  ⟨Reg.allocatable.take (poolSize limit), .replicate 32 .fresh, #[]⟩

section

variable (f : RegisterFile)

def state (r : Reg) : RegState := f.states.get r.index

def setState (r : Reg) (s : RegState) : RegisterFile := { f with states := f.states.set r.index s r.index.isLt }

def occupant? (r : Reg) : Option Temp := (f.state r).occupant?

/-- The register that a temporary is in; none if the table ends before it. -/
def binding? (t : Temp) : Option Reg := f.bindings[t.index]?.join

def release (r : Reg) : RegisterFile := f.setState r (f.state r).emptied

/-- Takes a temporary out of its register, and gives the register it was in. -/
def unbind (t : Temp) : Option Reg × RegisterFile :=
  match f.binding? t with
  | some r => (some r, { f.release r with bindings := f.bindings.setIfInBounds t.index none })
  | none => (none, f)

/-- The register file once a temporary is taken out. -/
def without (t : Temp) : RegisterFile := (f.unbind t).2

/-- The temporary that has to leave register `r` for `t`. -/
def displaced? (t : Temp) (r : Reg) : Option Temp := (f.occupant? r).filter fun u => u ≠ t

/-- Makes the table of temporaries reach up to `t`. -/
def reserve (t : Temp) : RegisterFile :=
  if f.bindings.size ≤ t.index then
    { f with bindings := f.bindings ++ Array.replicate (t.index + 1 - f.bindings.size) none }
  else f

/-- Puts a temporary in a register, after what the register held is taken out and the temporary's former register is
emptied. -/
def bind (t : Temp) (r : Reg) : RegisterFile :=
  let f := match f.displaced? t r with
    | some u => f.without u
    | none => f
  let f := match f.binding? t with
    | some q => if q = r then f else f.release q
    | none => f
  let f := f.reserve t
  { f.setState r ⟨true, true, some t⟩ with bindings := f.bindings.setIfInBounds t.index (some r) }

/-- Empties all registers; what was written stays known, and the table of temporaries keeps its size. -/
def resetBlock : RegisterFile :=
  { f with states := f.states.map RegState.emptied, bindings := .replicate f.bindings.size none }

/-- Starts a new function, with a table for the given number of temporaries. -/
def resetFunction (tempCount : Nat) : RegisterFile :=
  { f with states := .replicate 32 .fresh, bindings := .replicate tempCount none }

/-- The temporaries in registers, in the order of the table. -/
def bound : List (Temp × Reg) :=
  f.bindings.toList.zipIdx.filterMap fun e => e.1.map fun r => (Temp.ofIndex e.2, r)

/-- The callee-saved registers written in the current function. -/
def usedCalleeSaved : List Reg := Reg.calleeSaved.filter fun r => (f.state r).used

/-- Whether the two look-ups are inverse to each other. -/
def isConsistent : Bool :=
  (f.bound.all fun p => f.occupant? p.2 = some p.1) &&
  Reg.all.all fun r =>
    match f.occupant? r with
    | some t => f.binding? t = some r
    | none => true

/-- What taking a temporary out of its register reports. -/
def unbindNotes (t : Temp) : List Note :=
  match f.binding? t with
  | some r => [.unbound t r]
  | none => []

/-- What putting a temporary in a register reports. -/
def bindNotes (t : Temp) (r : Reg) : List Note :=
  (match f.displaced? t r with
    | some u => f.unbindNotes u
    | none => []) ++ [.bound t r]

end

/-! ### The table of states -/

theorem state_setState (f : RegisterFile) (r q : Reg) (s : RegState) :
    (f.setState r s).state q = if q = r then s else f.state q := by
  by_cases h : q = r
  · subst h
    rw [if_pos rfl]
    exact Vector.getElem_set_self q.index.isLt
  · rw [if_neg h]
    exact Vector.getElem_set_ne r.index.isLt q.index.isLt fun e => h (Reg.index_inj (Fin.ext e.symm))

end RegisterFile

end ThreeAddress
