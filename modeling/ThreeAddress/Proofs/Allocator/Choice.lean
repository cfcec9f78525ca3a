import Mathlib.Data.List.Perm.Subperm
import ThreeAddress.Allocator.Choice
import ThreeAddress.Proofs.RegisterFile

/-!
What the choice of a register comes to.  Notes and comments apart, `Alloc.hold` does one of four things, and `Held`
lists them with all that is known in each case: the temporary is in a register already; a register is free for it; a
register is evicted, its occupant being stored first; or all registers of the pool are pinned, and one of them is taken
all the same.
-/

namespace ThreeAddress

/-- Whether the action has no part in what the code does. -/
def Action.isQuiet : Action → Bool
  | .comment _ | .note _ => true
  | _ => false

def Action.essential (τ : List Action) : List Action := τ.filter fun α => !α.isQuiet

namespace Action

@[simp] theorem essential_nil : essential [] = [] := rfl

@[simp] theorem essential_append (τ υ : List Action) : essential (τ ++ υ) = essential τ ++ essential υ :=
  List.filter_append τ υ

theorem essential_notes (ns : List Note) : essential (ns.map .note) = [] := by
  induction ns with
  | nil => rfl
  | cons n ns ih => exact ih

theorem essential_remark (b : Bool) (text : String) : essential (if b then [.comment text] else []) = [] := by
  cases b <;> rfl

end Action

/-! ### Running computations -/

namespace Alloc

section

variable {α β : Type}

def run (x : Alloc α) (a : Allocator) : Emitted α := x a

theorem run_pure (v : α) (a : Allocator) : run (pure v) a = ⟨v, a, []⟩ := rfl

theorem run_bind (x : Alloc α) (f : α → Alloc β) (a : Allocator) :
    run (x >>= f) a = ⟨(run (f (run x a).value) (run x a).state).value, (run (f (run x a).value) (run x a).state).state,
      (run x a).trace ++ (run (f (run x a).value) (run x a).state).trace⟩ := rfl

end

section

variable (a : Allocator)

theorem run_state : run state a = ⟨a, a, []⟩ := rfl

theorem run_change (f : Allocator → Allocator) : run (change f) a = ⟨(), f a, []⟩ := rfl

theorem run_emit (x : Action) : run (emit x) a = ⟨(), a, [x]⟩ := rfl

theorem run_report (n : Note) : run (report n) a = ⟨(), a, [.note n]⟩ := rfl

theorem run_emitCode (code : List Asm) : run (emitCode code) a = ⟨(), a, code.map .native⟩ := rfl

theorem run_assign (t : Temp) (r : Reg) :
    run (assign t r) a = ⟨(), { a with regs := a.regs.bind t r }, (a.regs.bindNotes t r).map .note⟩ := rfl

theorem run_forget (t : Temp) :
    run (forget t) a = ⟨(), { a with regs := a.regs.without t }, (a.regs.unbindNotes t).map .note⟩ := rfl

theorem run_remark (text : String) : run (remark text) a = ⟨(), a, if a.comments then [.comment text] else []⟩ := by
  unfold remark
  rw [run_bind, run_state]
  cases h : a.comments <;> rfl

end

/-- From state `a` the computation gives `v` and ends in `a'`; the actions `τ` are those that matter of what it
emits. -/
def Does {α : Type} (x : Alloc α) (a : Allocator) (v : α) (a' : Allocator) (τ : List Action) : Prop :=
  (run x a).value = v ∧ (run x a).state = a' ∧ Action.essential (run x a).trace = τ

namespace Does

section

variable {α β : Type} {x : Alloc α} {f : α → Alloc β} {a a' a'' : Allocator} {v : α} {w : β} {τ υ : List Action}

theorem pure (v : α) (a : Allocator) : Does (Pure.pure v) a v a [] := ⟨rfl, rfl, rfl⟩

theorem bind (hx : Does x a v a' τ) (hf : Does (f v) a' w a'' υ) : Does (x >>= f) a w a'' (τ ++ υ) := by
  obtain ⟨rfl, rfl, rfl⟩ := hx
  obtain ⟨rfl, rfl, rfl⟩ := hf
  exact ⟨rfl, rfl, by rw [run_bind, Action.essential_append]⟩

theorem andThen (hx : Does x a v a' []) (hf : Does (f v) a' w a'' υ) : Does (x >>= f) a w a'' υ := hx.bind hf

end

variable (a : Allocator)

theorem state : Does state a a a [] := ⟨rfl, rfl, rfl⟩

theorem change (f : Allocator → Allocator) : Does (change f) a () (f a) [] := ⟨rfl, rfl, rfl⟩

theorem report (n : Note) : Does (report n) a () a [] := ⟨rfl, rfl, rfl⟩

theorem remark (text : String) : Does (remark text) a () a [] := by
  unfold Does
  rw [run_remark]
  exact ⟨rfl, rfl, Action.essential_remark _ _⟩

theorem store (r : Reg) (t : Temp) : Does (emit (.store r t)) a () a [.store r t] := ⟨rfl, rfl, rfl⟩

theorem load (r : Reg) (t : Temp) : Does (emit (.load r t)) a () a [.load r t] := ⟨rfl, rfl, rfl⟩

theorem assign (t : Temp) (r : Reg) : Does (assign t r) a () { a with regs := a.regs.bind t r } [] :=
  ⟨rfl, rfl, Action.essential_notes _⟩

theorem forget (t : Temp) : Does (forget t) a () { a with regs := a.regs.without t } [] :=
  ⟨rfl, rfl, Action.essential_notes _⟩

end Does

end Alloc

/-! ### Valid states -/

/-- What holds of every state of allocation: the look-ups are inverse to each other, registers in use are allocatable
and known to be written, and the pool is made of at least two allocatable registers. -/
structure Allocator.Valid (a : Allocator) : Prop where
  consistent : a.regs.Consistent
  bound : ∀ {t r}, a.regs.binding? t = some r → r ∈ Reg.allocatable ∧ a.regs.used r = true
  pool : ∀ r ∈ a.regs.pool, r ∈ Reg.allocatable
  distinct : a.regs.pool.Nodup
  room : 2 ≤ a.regs.pool.length
  cursor : a.cursor < a.regs.pool.length

namespace Allocator

variable {a : Allocator}

theorem Valid.bind (h : a.Valid) (t : Temp) {r : Reg} (hr : r ∈ Reg.allocatable) :
    Valid { a with regs := a.regs.bind t r } where
  consistent := h.consistent.bind t r
  bound := by
    intro u q hq
    simp only [RegisterFile.binding?_bind] at hq
    simp only [RegisterFile.used_bind]
    split at hq
    · cases Option.some.inj hq
      exact ⟨hr, if_pos rfl⟩
    · split at hq
      · exact absurd hq (by simp)
      · obtain ⟨hm, hu⟩ := h.bound hq
        refine ⟨hm, ?_⟩
        split
        · rfl
        · exact hu
  pool := by simpa using h.pool
  distinct := by simpa using h.distinct
  room := by simpa using h.room
  cursor := by simpa using h.cursor

theorem Valid.without (h : a.Valid) (t : Temp) : Valid { a with regs := a.regs.without t } where
  consistent := h.consistent.without t
  bound := by
    intro u q hq
    simp only [RegisterFile.binding?_without] at hq
    split at hq
    · exact absurd hq (by simp)
    · simpa using h.bound hq
  pool := by simpa using h.pool
  distinct := by simpa using h.distinct
  room := by simpa using h.room
  cursor := by simpa using h.cursor

/-- A pool of two registers is larger than what one operand before another can pin. -/
theorem exists_unpinned (hd : a.regs.pool.Nodup) (hroom : 2 ≤ a.regs.pool.length) {pinned : List Reg}
    (hp : pinned.length < 2) : ∃ r ∈ a.regs.pool, r ∉ pinned := by
  by_contra hn
  have hs : a.regs.pool ⊆ pinned := fun r hr => by_contra fun hr' => hn ⟨r, hr, hr'⟩
  have hle := (hd.subperm hs).length_le
  omega

theorem Valid.exists_unpinned (h : a.Valid) {pinned : List Reg} (hp : pinned.length < 2) :
    ∃ r ∈ a.regs.pool, r ∉ pinned :=
  Allocator.exists_unpinned h.distinct h.room hp

theorem Valid.advance (h : a.Valid) (i : Nat) : (a.advance i).Valid :=
  { h with cursor := Nat.mod_lt _ (Nat.lt_of_lt_of_le (by decide) h.room) }

theorem mem_fromCursor {p : Reg × Nat} (h : p ∈ a.fromCursor) : p.1 ∈ a.regs.pool := by
  unfold fromCursor at h
  have hz : p ∈ a.regs.pool.zipIdx := by
    rcases List.mem_append.1 h with h | h
    · exact List.mem_of_mem_drop h
    · exact List.mem_of_mem_take h
  exact (List.mem_zipIdx' hz).2 ▸ List.getElem_mem _

theorem exists_mem_fromCursor {r : Reg} (h : r ∈ a.regs.pool) : ∃ i, (r, i) ∈ a.fromCursor := by
  obtain ⟨i, hi, rfl⟩ := List.mem_iff_getElem.1 h
  refine ⟨i, ?_⟩
  have hz : (a.regs.pool[i], i) ∈ a.regs.pool.zipIdx := by
    rw [List.mem_zipIdx_iff_getElem?]
    exact List.getElem?_eq_getElem hi
  unfold fromCursor
  rw [← List.take_append_drop (a.cursor % a.regs.pool.zipIdx.length) a.regs.pool.zipIdx] at hz
  exact List.mem_append.2 (List.mem_append.1 hz).symm

/-- A register that is free for a temporary is in the pool, is not pinned if it is to be read, and holds nothing that
must survive. -/
theorem free?_eq_some {read : Bool} {live : TempSet} {pinned : List Reg} {r : Reg}
    (h : a.free? read live pinned = some r) :
    r ∈ a.regs.pool ∧ (read = true → r ∉ pinned) ∧ ∀ u, a.regs.occupant? r = some u → u ∉ live := by
  have hp := List.find?_some h
  refine ⟨List.mem_of_find?_eq_some h, ?_, ?_⟩
  · rintro rfl hm
    simp [hm] at hp
  · intro u hu hl
    simp [hu, hl] at hp

/-- If no register is free, each of the pool holds something that must survive, unless it is pinned and to be read. -/
theorem free?_eq_none {read : Bool} {live : TempSet} {pinned : List Reg} (h : a.free? read live pinned = none)
    {r : Reg} (hr : r ∈ a.regs.pool) (hp : read = true → r ∉ pinned) : ∃ u, a.regs.occupant? r = some u ∧ u ∈ live := by
  have hf := List.find?_eq_none.1 h r hr
  cases ho : a.regs.occupant? r with
  | none => cases read <;> simp_all
  | some u =>
    refine ⟨u, rfl, ?_⟩
    by_contra hl
    cases read <;> simp_all

end Allocator

/-! ### What `hold` does -/

def Allocator.emptied (a : Allocator) (r : Reg) : Allocator :=
  match a.regs.occupant? r with
  | some u => { a with regs := a.regs.without u, spills := a.spills + 1 }
  | none => a

theorem Allocator.emptied_of_none {a : Allocator} {r : Reg} (h : a.regs.occupant? r = none) : a.emptied r = a := by
  rw [emptied, h]

theorem Allocator.emptied_of_some {a : Allocator} {r : Reg} {u : Temp} (h : a.regs.occupant? r = some u) :
    a.emptied r = { a with regs := a.regs.without u, spills := a.spills + 1 } := by
  rw [emptied, h]

/-- What the search for a register for `t` can come to: the register, the state after it, and the actions. -/
inductive Held (a : Allocator) (t : Temp) (read : Bool) (live : TempSet) (pinned : List Reg) :
    Reg → Allocator → List Action → Prop
  | bound {r : Reg} : a.regs.binding? t = some r → Held a t read live pinned r a []
  | free {r : Reg} : a.regs.binding? t = none → r ∈ a.regs.pool → (read = true → r ∉ pinned) →
      (∀ u, a.regs.occupant? r = some u → u ∉ live) →
      Held a t read live pinned r { a with regs := a.regs.bind t r } (if read then [.load r t] else [])
  | evicted {r : Reg} {u : Temp} {i : Nat} : a.regs.binding? t = none → r ∈ a.regs.pool →
      (read = true → r ∉ pinned) → a.regs.occupant? r = some u → u ∈ live →
      Held a t read live pinned r
        { a.advance i with regs := (a.regs.without u).bind t r, spills := a.spills + 1 }
        (.store r u :: if read then [.load r t] else [])
  | forced {r : Reg} {i : Nat} : a.regs.binding? t = none → r ∈ a.regs.pool → read = true →
      (∀ q ∈ a.regs.pool, q ∈ pinned) →
      Held a t read live pinned r
        { (a.advance i).emptied r with regs := ((a.advance i).emptied r).regs.bind t r }
        ((a.regs.occupant? r).toList.map (.store r) ++ [.load r t])

namespace Alloc

variable {a : Allocator} {read : Bool}

/-- The register to evict is one of the pool, and holds no operand if the pool has a register that holds none. -/
theorem does_victim (h : a.Valid) (read : Bool) (pinned : List Reg) :
    ∃ r i, Does (victim read pinned) a r (a.advance i) [] ∧ r ∈ a.regs.pool ∧
      ((∃ q ∈ a.regs.pool, q ∉ pinned) → r ∉ pinned) := by
  unfold victim
  cases hf : a.fromCursor.find? fun p => ¬ p.1 ∈ pinned with
  | some p =>
    obtain ⟨r, i⟩ := p
    refine ⟨r, i, ?_, Allocator.mem_fromCursor (List.mem_of_find?_eq_some hf), fun _ => by
      simpa using List.find?_some hf⟩
    refine (Does.state a).andThen ?_
    simp only [hf]
    exact (Does.change a _).andThen (Does.pure r _)
  | none =>
    have hpos : 0 < a.regs.pool.length := Nat.lt_of_lt_of_le (by decide) h.room
    obtain ⟨i, hi⟩ := Allocator.exists_mem_fromCursor (List.getElem_mem hpos)
    obtain ⟨p, l, hl⟩ := List.exists_cons_of_ne_nil (List.ne_nil_of_mem hi)
    obtain ⟨r, j⟩ := p
    refine ⟨r, j, ?_, Allocator.mem_fromCursor (hl ▸ List.mem_cons_self), ?_⟩
    · refine (Does.state a).andThen ?_
      simp only [hf]
      simp only [hl, List.headD_cons]
      cases read
      · exact (Does.change a _).andThen (Does.pure r _)
      · exact (Does.report a _).andThen ((Does.change a _).andThen (Does.pure r _))
    · rintro ⟨q, hq, hn⟩
      obtain ⟨k, hk⟩ := Allocator.exists_mem_fromCursor hq
      exact absurd hn (by simpa using List.find?_eq_none.1 hf _ hk)

theorem does_evict (a : Allocator) (r : Reg) (t : Temp) :
    Does (evict r t) a () (a.emptied r) ((a.regs.occupant? r).toList.map (.store r)) := by
  unfold evict Allocator.emptied
  refine (Does.state a).andThen ?_
  cases a.regs.occupant? r with
  | none => exact Does.pure () a
  | some u =>
    refine (Does.report a _).andThen ((Does.remark a _).andThen ?_)
    exact (Does.store a r u).bind ((Does.forget a u).andThen (Does.change _ _))

theorem does_load_if (read : Bool) (r : Reg) (t : Temp) (a : Allocator) :
    Does (if read then do emit (.load r t); pure r else pure r) a r a (if read then [.load r t] else []) := by
  cases read
  · exact Does.pure r a
  · exact (Does.load a r t).bind (Does.pure r a)

/-- **What the search for a register does.** -/
theorem hold_held (h : a.Valid) (t : Temp) (read : Bool) (live : TempSet) (pinned : List Reg) :
    ∃ r a' τ, Does (hold t read live pinned) a r a' τ ∧ Held a t read live pinned r a' τ := by
  unfold hold
  cases hb : a.regs.binding? t with
  | some r =>
    refine ⟨r, a, [], (Does.state a).andThen ?_, .bound hb⟩
    simp only [hb]
    exact Does.pure r a
  | none =>
    cases hf : a.free? read live pinned with
    | some r =>
      obtain ⟨hr, hn, hl⟩ := Allocator.free?_eq_some hf
      refine ⟨r, _, _, (Does.state a).andThen ?_, .free hb hr hn hl⟩
      simp only [hb, hf]
      refine (Does.report a _).andThen ((Does.remark a _).andThen ?_)
      cases read
      · exact (Does.assign a t r).andThen (Does.pure r _)
      · exact (Does.load a r t).bind ((Does.assign a t r).andThen (Does.pure r _))
    | none =>
      obtain ⟨r, i, hv, hr, hn⟩ := does_victim h read pinned
      have hev := does_evict (a.advance i) r t
      by_cases hp : read = true ∧ ∀ q ∈ a.regs.pool, q ∈ pinned
      · obtain ⟨rfl, hp⟩ := hp
        refine ⟨r, _, _, (Does.state a).andThen ?_, .forced hb hr rfl hp (i := i)⟩
        simp only [hb, hf]
        exact hv.andThen (hev.bind ((Does.remark _ _).andThen ((Does.assign _ t r).andThen (does_load_if true r t _))))
      · have hn' : read = true → r ∉ pinned := fun e => hn (by simpa [e] using hp)
        obtain ⟨u, hu, hl⟩ := Allocator.free?_eq_none hf hr hn'
        have hu' : (a.advance i).regs.occupant? r = some u := hu
        simp only [Allocator.emptied_of_some hu', hu', Option.toList_some, List.map_cons, List.map_nil] at hev
        refine ⟨r, _, _, (Does.state a).andThen ?_, .evicted hb hr hn' hu hl (i := i)⟩
        simp only [hb, hf]
        refine hv.andThen (hev.bind ((Does.remark _ _).andThen ((Does.assign _ t r).andThen ?_)))
        exact does_load_if read r t _

end Alloc

end ThreeAddress
