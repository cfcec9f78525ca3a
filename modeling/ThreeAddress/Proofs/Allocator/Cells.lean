import ThreeAddress.Proofs.Allocator.Walk
import ThreeAddress.Proofs.Evaluation

/-!
A machine for the actions of allocation: registers, and one cell of memory for each temporary.  It knows no addresses
and no control flow.  A call may give every register a new value, the callee-saved ones apart; the result register
gets the result.

* `Cells.Exec τ σ xs σ'`: the actions `τ` take `σ` to `σ'`, with `xs` as the results of the calls among them.
* `Cells.Must Q τ σ T`: the calls among `τ` are the first of `T`, with the arguments that stand there, and whatever
  the callees do the actions end in a state with `Q`, which is also given the calls left over.
* `Alloc.Ensures x a σ T Q`: the same of the actions that a computation emits.
-/

namespace ThreeAddress

/-- Registers, and a cell for each temporary. -/
structure Cells where
  reg : Reg → Word
  cell : Temp → Word

namespace Cells

section

variable (σ : Cells)

def write (r : Reg) (x : Word) : Cells := { σ with reg := Reg.write σ.reg r x }

def store (r : Reg) (t : Temp) : Cells := { σ with cell := Function.update σ.cell t (σ.reg r) }

/-- The state after an action that is not a call; only arithmetic, loads and stores do anything. -/
def perform : Action → Cells
  | .store r t => σ.store r t
  | .load r t => σ.write r (σ.cell t)
  | .native a =>
    match a.result? σ.reg with
    | some p => σ.write p.1 p.2
    | none => σ
  | .label _ | .comment _ | .note _ => σ

def Passes (args : List Word) : Prop := args = (Reg.params.take args.length).map σ.reg

/-- A call has come back with the result `x`. -/
structure Returns (x : Option Word) (σ' : Cells) : Prop where
  saved : ∀ r ∈ Reg.calleeSaved, σ'.reg r = σ.reg r
  cell : σ'.cell = σ.cell
  result : ∀ w, x = some w → σ'.reg .a0 = w

@[simp] theorem reg_store (r : Reg) (t : Temp) : (σ.store r t).reg = σ.reg := rfl
@[simp] theorem cell_write (r : Reg) (x : Word) : (σ.write r x).cell = σ.cell := rfl

theorem reg_write_self {r : Reg} (h : r ≠ .zero) (x : Word) : (σ.write r x).reg r = x := Reg.write_self _ h x

theorem reg_write_of_ne {r q : Reg} (h : q ≠ r) (x : Word) : (σ.write r x).reg q = σ.reg q := Reg.write_of_ne _ h x

theorem cell_store_self (r : Reg) (t : Temp) : (σ.store r t).cell t = σ.reg r := Function.update_self ..

theorem cell_store_of_ne (r : Reg) {t u : Temp} (h : u ≠ t) : (σ.store r t).cell u = σ.cell u :=
  Function.update_of_ne h ..

theorem perform_of_isQuiet {α : Action} (h : α.isQuiet = true) : σ.perform α = σ := by
  cases α <;> first | rfl | simp [Action.isQuiet] at h

end

/-! ### Runs -/

/-- All runs of the actions make the calls at the front of `T` and end with `Q`. -/
def Must (Q : Cells → List Call → Prop) : List Action → Cells → List Call → Prop
  | [], σ, T => Q σ T
  | .native (.call l) :: τ, σ, T =>
    ∃ c T', T = c :: T' ∧ c.callee = l ∧ σ.Passes c.args ∧ ∀ σ', σ.Returns c.result σ' → Must Q τ σ' T'
  | α :: τ, σ, T => Must Q τ (σ.perform α) T

section

variable {Q Q' : Cells → List Call → Prop} {τ υ : List Action} {σ σ' : Cells} {T : List Call}

theorem must_nil : Must Q [] σ T ↔ Q σ T := Iff.rfl

theorem must_cons {α : Action} (h : ∀ l, α ≠ .native (.call l)) : Must Q (α :: τ) σ T ↔ Must Q τ (σ.perform α) T := by
  rw [Must]
  intro l hl
  exact absurd hl (h l)

theorem Must.mono (h : Must Q τ σ T) (hq : ∀ σ T, Q σ T → Q' σ T) : Must Q' τ σ T := by
  induction τ generalizing σ T with
  | nil => exact hq σ T h
  | cons α τ ih =>
    by_cases hc : ∃ l, α = .native (.call l)
    · obtain ⟨l, rfl⟩ := hc
      obtain ⟨c, T', hT, hl, hp, hr⟩ := h
      exact ⟨c, T', hT, hl, hp, fun σ' h' => ih (hr σ' h')⟩
    · have hn : ∀ l, α ≠ .native (.call l) := fun l hl => hc ⟨l, hl⟩
      rw [must_cons hn] at h ⊢
      exact ih h

theorem must_append : Must Q (τ ++ υ) σ T ↔ Must (Must Q υ) τ σ T := by
  induction τ generalizing σ T with
  | nil => exact Iff.rfl
  | cons α τ ih =>
    rw [List.cons_append]
    by_cases hc : ∃ l, α = .native (.call l)
    · obtain ⟨l, rfl⟩ := hc
      simp only [Must, ih]
    · have hn : ∀ l, α ≠ .native (.call l) := fun l hl => hc ⟨l, hl⟩
      rw [must_cons hn, must_cons hn, ih]

theorem must_essential : Must Q (Action.essential τ) σ T ↔ Must Q τ σ T := by
  induction τ generalizing σ T with
  | nil => exact Iff.rfl
  | cons α τ ih =>
    by_cases hq : α.isQuiet = true
    · have hn : ∀ l, α ≠ .native (.call l) := by
        rintro l rfl
        simp [Action.isQuiet] at hq
      have he : Action.essential (α :: τ) = Action.essential τ := by simp [Action.essential, hq]
      rw [he, ih, must_cons hn, perform_of_isQuiet σ hq]
    · have he : Action.essential (α :: τ) = α :: Action.essential τ := by simp [Action.essential, hq]
      rw [he]
      by_cases hc : ∃ l, α = .native (.call l)
      · obtain ⟨l, rfl⟩ := hc
        simp only [Must, ih]
      · have hn : ∀ l, α ≠ .native (.call l) := fun l hl => hc ⟨l, hl⟩
        rw [must_cons hn, must_cons hn, ih]

/-- Arithmetic computes what it computes. -/
theorem must_compute {code : List Asm} {ρ : Reg → Word} (h : Asm.compute σ.reg code = some ρ) :
    Must Q (code.map .native) σ T ↔ Q { σ with reg := ρ } T := by
  induction code generalizing σ with
  | nil =>
    cases Option.some.inj h
    exact Iff.rfl
  | cons a code ih =>
    rw [Asm.compute] at h
    split at h
    · rename_i p hp
      have hn : ∀ l, Action.native a ≠ .native (.call l) := by
        rintro l hl
        cases hl
        simp [Asm.result?] at hp
      have he : σ.perform (.native a) = σ.write p.1 p.2 := by simp only [perform, hp]
      rw [List.map_cons, must_cons hn, he, ih (σ := σ.write p.1 p.2) h]
      rfl
    · simp at h

end

end Cells

/-! ### Computations -/

namespace Alloc

/-- From state `a` the computation emits actions that, from `σ`, must end with `Q`. -/
def Ensures {α : Type} (x : Alloc α) (a : Allocator) (σ : Cells) (T : List Call)
    (Q : α → Allocator → Cells → List Call → Prop) : Prop :=
  Cells.Must (Q (run x a).value (run x a).state) (run x a).trace σ T

namespace Ensures

variable {α β : Type} {x : Alloc α} {f : α → Alloc β} {a : Allocator} {σ : Cells} {T : List Call}
  {Q Q' : α → Allocator → Cells → List Call → Prop} {R : β → Allocator → Cells → List Call → Prop}

theorem mono (hx : Ensures x a σ T Q) (h : ∀ v a' σ' T', Q v a' σ' T' → Q' v a' σ' T') : Ensures x a σ T Q' :=
  Cells.Must.mono hx fun σ' T' => h _ _ σ' T'

theorem pure {v : α} (h : Q v a σ T) : Ensures (Pure.pure v) a σ T Q := h

theorem bind (hx : Ensures x a σ T Q) (hf : ∀ v a' σ' T', Q v a' σ' T' → Ensures (f v) a' σ' T' R) :
    Ensures (x >>= f) a σ T R := by
  unfold Ensures
  rw [run_bind]
  exact Cells.must_append.2 (Cells.Must.mono hx fun σ' T' => hf _ _ σ' T')

theorem ofState {f : Allocator → Alloc β} (h : Ensures (f a) a σ T R) : Ensures (Alloc.state >>= f) a σ T R := h

theorem of_does {v : α} {a' : Allocator} {τ : List Action} (h : Does x a v a' τ)
    (hm : Cells.Must (Q v a') τ σ T) : Ensures x a σ T Q := by
  obtain ⟨rfl, rfl, rfl⟩ := h
  exact Cells.must_essential.1 hm

theorem of_does_bind {v : α} {a' : Allocator} {τ : List Action} (h : Does x a v a' τ)
    (hm : Cells.Must (fun σ' T' => Ensures (f v) a' σ' T' R) τ σ T) : Ensures (x >>= f) a σ T R := by
  obtain ⟨rfl, rfl, rfl⟩ := h
  unfold Ensures
  rw [run_bind]
  exact Cells.must_append.2 (Cells.must_essential.1 hm)

theorem quiet {v : α} {a' : Allocator} (h : Does x a v a' []) (hf : Ensures (f v) a' σ T R) :
    Ensures (x >>= f) a σ T R :=
  of_does_bind h hf

theorem store {f : Unit → Alloc β} {r : Reg} {t : Temp} (hf : Ensures (f ()) a (σ.store r t) T R) :
    Ensures (emit (.store r t) >>= f) a σ T R :=
  of_does_bind (Does.store a r t) hf

theorem load {f : Unit → Alloc β} {r : Reg} {t : Temp} (hf : Ensures (f ()) a (σ.write r (σ.cell t)) T R) :
    Ensures (emit (.load r t) >>= f) a σ T R :=
  of_does_bind (Does.load a r t) hf

theorem call {f : Unit → Alloc β} {c : Call} (hp : σ.Passes c.args)
    (hf : ∀ σ', σ.Returns c.result σ' → Ensures (f ()) a σ' T R) :
    Ensures (emitCode [.call c.callee] >>= f) a σ (c :: T) R :=
  of_does_bind (τ := [.native (.call c.callee)]) ⟨rfl, rfl, rfl⟩ ⟨c, T, rfl, rfl, hp, hf⟩

theorem emit_store {r : Reg} {t : Temp} {Q : Unit → Allocator → Cells → List Call → Prop}
    (h : Q () a (σ.store r t) T) : Ensures (emit (.store r t)) a σ T Q := h

theorem emitCode {code : List Asm} {Q : Unit → Allocator → Cells → List Call → Prop}
    (h : Cells.Must (Q () a) (code.map .native) σ T) : Ensures (Alloc.emitCode code) a σ T Q := h

/-- Repetition, with an invariant that knows what is still to come. -/
theorem forM {γ : Type} {f : γ → Alloc Unit} (I : List γ → Allocator → Cells → Prop) {l : List γ}
    (hf : ∀ x l a σ, I (x :: l) a σ → Ensures (f x) a σ T fun _ a' σ' T' => T' = T ∧ I l a' σ') (h : I l a σ) :
    Ensures (l.forM f) a σ T fun _ a' σ' T' => T' = T ∧ I [] a' σ' := by
  induction l generalizing a σ with
  | nil => exact pure ⟨rfl, h⟩
  | cons x l ih =>
    refine bind (hf x l a σ h) ?_
    rintro - a' σ' T' ⟨rfl, hi⟩
    exact ih hi

end Ensures

end Alloc

end ThreeAddress
