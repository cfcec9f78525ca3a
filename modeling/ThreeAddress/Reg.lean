/-!
The integer registers of the target and the roles the calling convention gives them.
-/

namespace ThreeAddress

/-- An integer register, in hardware order. -/
inductive Reg where
  | zero | ra | sp | gp | tp | t0 | t1 | t2 | s0 | s1
  | a0 | a1 | a2 | a3 | a4 | a5 | a6 | a7
  | s2 | s3 | s4 | s5 | s6 | s7 | s8 | s9 | s10 | s11
  | t3 | t4 | t5 | t6
  deriving DecidableEq

namespace Reg

/-- The registers in hardware order. -/
def all : List Reg :=
  [zero, ra, sp, gp, tp, t0, t1, t2, s0, s1, a0, a1, a2, a3, a4, a5, a6, a7, s2, s3, s4, s5, s6, s7, s8, s9, s10, s11,
    t3, t4, t5, t6]

def index : Reg → Fin 32
  | zero => 0 | ra => 1 | sp => 2 | gp => 3 | tp => 4 | t0 => 5 | t1 => 6 | t2 => 7 | s0 => 8 | s1 => 9
  | a0 => 10 | a1 => 11 | a2 => 12 | a3 => 13 | a4 => 14 | a5 => 15 | a6 => 16 | a7 => 17
  | s2 => 18 | s3 => 19 | s4 => 20 | s5 => 21 | s6 => 22 | s7 => 23 | s8 => 24 | s9 => 25 | s10 => 26 | s11 => 27
  | t3 => 28 | t4 => 29 | t5 => 30 | t6 => 31

theorem all_get_index (r : Reg) : all[r.index.val]? = some r := by cases r <;> rfl

theorem index_inj {r q : Reg} (h : r.index = q.index) : r = q :=
  Option.some.inj ((all_get_index r).symm.trans ((congrArg (fun i : Fin 32 => all[i.val]?) h).trans (all_get_index q)))

def name : Reg → String
  | zero => "zero" | ra => "ra" | sp => "sp" | gp => "gp" | tp => "tp"
  | t0 => "t0" | t1 => "t1" | t2 => "t2" | s0 => "s0" | s1 => "s1"
  | a0 => "a0" | a1 => "a1" | a2 => "a2" | a3 => "a3" | a4 => "a4" | a5 => "a5" | a6 => "a6" | a7 => "a7"
  | s2 => "s2" | s3 => "s3" | s4 => "s4" | s5 => "s5" | s6 => "s6" | s7 => "s7" | s8 => "s8" | s9 => "s9"
  | s10 => "s10" | s11 => "s11"
  | t3 => "t3" | t4 => "t4" | t5 => "t5" | t6 => "t6"

/-- The name as reports show it, with a capital letter. -/
def title (r : Reg) : String := r.name.capitalize

def ofName? (s : String) : Option Reg := all.find? fun r => r.name = s

@[simp] theorem ofName?_name (r : Reg) : ofName? r.name = some r := by cases r <;> rfl

/-! ### Roles in the calling convention -/

/-- The registers that carry the first arguments. -/
def params : List Reg := [a0, a1, a2, a3, a4, a5, a6, a7]

/-- The registers that a callee gives back unchanged. -/
def calleeSaved : List Reg := [s1, s2, s3, s4, s5, s6, s7, s8, s9, s10, s11]

/-- The registers that a callee may overwrite. -/
def callerSaved : List Reg := [t0, t1, t2, t3, t4, t5, t6] ++ params

/-- The registers that may hold temporaries, in order of preference. -/
def allocatable : List Reg := callerSaved ++ calleeSaved

def result : Reg := a0

def stack : Reg := sp

def frame : Reg := s0

/-- The greatest number of arguments that registers carry. -/
def maxParams : Nat := 8

theorem length_params : params.length = maxParams := rfl

end Reg

end ThreeAddress
