import ThreeAddress.Func
import ThreeAddress.Proofs.Operators

/-!
The meaning of three-address code.  A function runs over its list of instructions by position, from `0`; a jump goes
to the position of the mark with its label.  It ends at a return or after the last instruction.  A temporary has no
value before it is assigned, and a run does not go on from a read of such a temporary.  Registers named by operands
are no part of the values: reading one gives nothing, writing one changes nothing.

* `Evaluates code p E T v`: from position `p` and the values `E`, the run ends, makes the calls `T` in order and
  returns `v`.  The results of the calls are part of `T`.
* `Program.run? p n l args`: the value of a call when calls within it run in the same way, with `n` as a bound on the
  depth of the evaluation.
-/

namespace ThreeAddress

/-- The values of the temporaries that have been assigned. -/
abbrev Env := Temp → Option Word

/-- A call: what is called, with which arguments, and the value it returns, if it returns one. -/
structure Call where
  callee : Label
  args : List Word
  result : Option Word
  deriving DecidableEq

namespace Env

/-- The values on entry: a parameter has the argument at its place. -/
def ofParams : List Temp → List Word → Env
  | t :: ts, x :: xs => Function.update (ofParams ts xs) t (some x)
  | _, _ => fun _ => none

theorem exists_of_ofParams {ts : List Temp} {xs : List Word} {t : Temp} {x : Word} (h : ofParams ts xs t = some x) :
    ∃ i : Nat, ts[i]? = some t ∧ xs[i]? = some x := by
  induction ts generalizing xs with
  | nil => simp [ofParams] at h
  | cons u ts ih =>
    cases xs with
    | nil => simp [ofParams] at h
    | cons y xs =>
      rw [ofParams, Function.update_apply] at h
      split at h
      · rename_i e
        exact ⟨0, by simp [e], h⟩
      · obtain ⟨i, ht, hx⟩ := ih h
        exact ⟨i + 1, ht, hx⟩

section

variable (E : Env)

def read : Operand → Option Word
  | .temp t => E t
  | .reg _ => none

def readAll : List Operand → Option (List Word)
  | [] => some []
  | op :: ops => do
    let x ← E.read op
    let xs ← readAll ops
    return x :: xs

theorem length_readAll {E : Env} {ops : List Operand} {xs : List Word} (h : E.readAll ops = some xs) :
    xs.length = ops.length := by
  induction ops generalizing xs with
  | nil =>
    cases Option.some.inj h
    rfl
  | cons op ops ih =>
    simp only [readAll, Option.bind_eq_bind, Option.bind_eq_some_iff, Option.pure_def, Option.some.injEq] at h
    obtain ⟨x, -, ys, hys, rfl⟩ := h
    rw [List.length_cons, List.length_cons, ih hys]

/-- Gives an operand a value, or takes its value away. -/
def write (dst : Operand) (x : Option Word) : Env :=
  match dst with
  | .temp t => Function.update E t x
  | .reg _ => E

/-- Gives the result of a call to its destination. -/
def receive (dst : Option Operand) (x : Option Word) : Env :=
  match dst with
  | some op => E.write op x
  | none => E

end

end Env

namespace Instr

/-- The values after an instruction from which control passes to the next one; calls are apart. -/
def effect? (E : Env) : Instr → Option Env
  | move dst src => (E.read src).map fun x => E.write dst (some x)
  | const dst value => some (E.write dst (some value))
  | unary op dst src => (E.read src).map fun x => E.write dst (some (op.eval x))
  | binary op dst lhs rhs => do
    let x ← E.read lhs
    let y ← E.read rhs
    return E.write dst (some (op.eval x y))
  | mark _ | memo _ => some E
  | jump _ | branch _ _ _ | ret _ | call _ _ _ => none

def place? (code : List Instr) (l : Label) : Option Nat := code.findIdx? fun i => i = .mark l

/-- No operand of the instruction names a register. -/
def TempsOnly (i : Instr) : Prop := ∀ op ∈ i.srcs ++ i.dsts, op.reg? = none

instance (i : Instr) : Decidable i.TempsOnly := inferInstanceAs (Decidable (∀ op ∈ i.srcs ++ i.dsts, op.reg? = none))

end Instr

def Func.TempsOnly (f : Func) : Prop := ∀ i ∈ f.instrs, i.TempsOnly

instance (f : Func) : Decidable f.TempsOnly := inferInstanceAs (Decidable (∀ i ∈ f.instrs, i.TempsOnly))

/-! ### Runs of a function -/

/-- From position `p` and the values `E`, the run of `code` ends, with calls `T` and value `v`. -/
inductive Evaluates (code : List Instr) : Nat → Env → List Call → Option Word → Prop
  | done {p : Nat} {E : Env} : code[p]? = none → Evaluates code p E [] none
  | effect {p : Nat} {i : Instr} {E E' : Env} {T : List Call} {v : Option Word} :
      code[p]? = some i → i.effect? E = some E' → Evaluates code (p + 1) E' T v → Evaluates code p E T v
  | call {p : Nat} {dst : Option Operand} {l : Label} {args : List Operand} {E : Env} {xs : List Word}
      {x : Option Word} {T : List Call} {v : Option Word} :
      code[p]? = some (.call dst l args) → E.readAll args = some xs →
      Evaluates code (p + 1) (E.receive dst x) T v → Evaluates code p E (⟨l, xs, x⟩ :: T) v
  | jump {p q : Nat} {l : Label} {E : Env} {T : List Call} {v : Option Word} :
      code[p]? = some (.jump l) → Instr.place? code l = some q → Evaluates code q E T v → Evaluates code p E T v
  | taken {p q : Nat} {test : Test} {c : Operand} {l : Label} {x : Word} {E : Env} {T : List Call} {v : Option Word} :
      code[p]? = some (.branch test c l) → E.read c = some x → test.passes x = true →
      Instr.place? code l = some q → Evaluates code q E T v → Evaluates code p E T v
  | passed {p : Nat} {test : Test} {c : Operand} {l : Label} {x : Word} {E : Env} {T : List Call} {v : Option Word} :
      code[p]? = some (.branch test c l) → E.read c = some x → test.passes x = false →
      Evaluates code (p + 1) E T v → Evaluates code p E T v
  | ret {p : Nat} {E : Env} : code[p]? = some (.ret none) → Evaluates code p E [] none
  | value {p : Nat} {op : Operand} {x : Word} {E : Env} :
      code[p]? = some (.ret (some op)) → E.read op = some x → Evaluates code p E [] (some x)

/-- What is asked of a callee: its name and its arguments. -/
def Call.request (c : Call) : Label × List Word := (c.callee, c.args)

/-- Every call returns the value that `answer` gives for the calls up to and including it. -/
def Answered (answer : List (Label × List Word) → Word) (T : List Call) : Prop :=
  ∀ n c, T[n]? = some c → c.result = some (answer ((T.take (n + 1)).map Call.request))

/-- A run of a function on arguments, with the calls answered by a function of what was called so far. -/
def Func.Run (f : Func) (answer : List (Label × List Word) → Word) (args : List Word) (T : List Call)
    (v : Option Word) : Prop :=
  Evaluates f.instrs 0 (Env.ofParams f.params args) T v ∧ Answered answer T

/-! ### Runs of a program -/

namespace Program

variable (p : Program)

def func? (l : Label) : Option Func := p.funcs.find? fun f => f.name = l

/-- The value of a run from a position, calls being run in the same way; `none` if the run does not end within the
bound or cannot go on. -/
def eval? : (bound : Nat) → (code : List Instr) → (pos : Nat) → Env → Option (Option Word)
  | 0, _, _, _ => none
  | n + 1, code, pos, E =>
    match code[pos]? with
    | none => some none
    | some (.jump l) => (Instr.place? code l).bind fun q => eval? n code q E
    | some (.branch test c l) =>
      (E.read c).bind fun x =>
        if test.passes x then (Instr.place? code l).bind fun q => eval? n code q E else eval? n code (pos + 1) E
    | some (.ret none) => some none
    | some (.ret (some op)) => (E.read op).map some
    | some (.call dst l args) =>
      (E.readAll args).bind fun xs =>
        (p.func? l).bind fun f =>
          (eval? n f.instrs 0 (Env.ofParams f.params xs)).bind fun x => eval? n code (pos + 1) (E.receive dst x)
    | some i => (i.effect? E).bind fun E' => eval? n code (pos + 1) E'

def run? (bound : Nat) (l : Label) (args : List Word) : Option (Option Word) :=
  (p.func? l).bind fun f => eval? p bound f.instrs 0 (Env.ofParams f.params args)

variable {p} {n : Nat} {code : List Instr} {pos : Nat} {E : Env} {v : Option Word}

/-- What is known of a call in a run with bound `n` of the given instructions. -/
structure Answers (p : Program) (n : Nat) (code : List Instr) (c : Call) : Prop where
  run : ∃ m < n, p.run? m c.callee c.args = some c.result
  instr : ∃ dst ops, .call dst c.callee ops ∈ code ∧ c.args.length = ops.length

theorem Answers.succ {c : Call} (h : p.Answers n code c) : p.Answers (n + 1) code c := by
  obtain ⟨⟨m, hm, hr⟩, hi⟩ := h
  exact ⟨⟨m, Nat.lt_succ_of_lt hm, hr⟩, hi⟩

/-- **A run of a program is a run of the function it starts with**, whose calls are runs of the program with a smaller
bound. -/
theorem exists_evaluates (h : p.eval? n code pos E = some v) :
    ∃ T, Evaluates code pos E T v ∧ ∀ c ∈ T, p.Answers n code c := by
  induction n generalizing pos E v with
  | zero => simp [eval?] at h
  | succ n ih =>
    have hnext : ∀ {pos E v}, p.eval? n code pos E = some v →
        ∃ T, Evaluates code pos E T v ∧ ∀ c ∈ T, p.Answers (n + 1) code c := by
      intro pos E v h
      obtain ⟨T, hT, hc⟩ := ih h
      exact ⟨T, hT, fun c hm => (hc c hm).succ⟩
    rw [eval?] at h
    split at h
    · rename_i hi
      cases Option.some.inj h
      exact ⟨[], .done hi, by simp⟩
    · rename_i l hi
      obtain ⟨q, hq, h⟩ := Option.bind_eq_some_iff.1 h
      obtain ⟨T, hT, hc⟩ := hnext h
      exact ⟨T, .jump hi hq hT, hc⟩
    · rename_i test c l hi
      obtain ⟨x, hx, h⟩ := Option.bind_eq_some_iff.1 h
      split at h
      · rename_i hpass
        obtain ⟨q, hq, h⟩ := Option.bind_eq_some_iff.1 h
        obtain ⟨T, hT, hc⟩ := hnext h
        exact ⟨T, .taken hi hx hpass hq hT, hc⟩
      · rename_i hpass
        obtain ⟨T, hT, hc⟩ := hnext h
        exact ⟨T, .passed hi hx (by simpa using hpass) hT, hc⟩
    · rename_i hi
      cases Option.some.inj h
      exact ⟨[], .ret hi, by simp⟩
    · rename_i op hi
      obtain ⟨x, hx, rfl⟩ := Option.map_eq_some_iff.1 h
      exact ⟨[], .value hi hx, by simp⟩
    · rename_i dst l ops hi
      obtain ⟨xs, hxs, h⟩ := Option.bind_eq_some_iff.1 h
      obtain ⟨f, hf, h⟩ := Option.bind_eq_some_iff.1 h
      obtain ⟨x, hx, h⟩ := Option.bind_eq_some_iff.1 h
      obtain ⟨T, hT, hc⟩ := hnext h
      refine ⟨⟨l, xs, x⟩ :: T, .call hi hxs hT, fun c hm => ?_⟩
      rcases List.mem_cons.1 hm with rfl | hm
      · refine ⟨⟨n, Nat.lt_succ_self n, ?_⟩, dst, ops, List.mem_of_getElem? hi, Env.length_readAll hxs⟩
        rw [run?, hf]
        exact hx
      · exact hc c hm
    · rename_i i _ _ _ _ _ hi
      obtain ⟨E', he, h⟩ := Option.bind_eq_some_iff.1 h
      obtain ⟨T, hT, hc⟩ := hnext h
      exact ⟨T, .effect hi he hT, hc⟩

end Program

end ThreeAddress
