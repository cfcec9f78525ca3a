import ThreeAddress.Proofs.Machine

/-!
The code selected for an instruction, on the machine.  The registers of the operands are arbitrary: any of them may
coincide, and any of them may be `zero` or a register with a role of its own.

Code that computes a value is a list of lines of arithmetic into one register (`Asm.ComputesInto`).  Its run follows
`Asm.compute` and touches nothing but that register (`Machine.exists_computed`).  Branches and returns end in a line
that goes elsewhere.

Main statement: `Machine.selection_correct`.
-/

namespace ThreeAddress

/-- Lines of arithmetic that all write the register `rd`. -/
def Asm.ComputesInto (rd : Reg) (code : List Asm) : Prop := ∀ a ∈ code, ∀ ρ, ∃ w, a.result? ρ = some (rd, w)

theorem Asm.computesInto_line {a : Asm} {rd : Reg} (h : ∀ ρ, ∃ w, a.result? ρ = some (rd, w)) :
    ComputesInto rd [a] := by
  intro b hb
  rw [List.mem_singleton.1 hb]
  exact h

theorem BinaryOp.computesInto_select (op : BinaryOp) (rd lhs rhs : Reg) :
    Asm.ComputesInto rd (op.select rd lhs rhs) := by
  intro a ha ρ
  have hline : (∃ o p q, a = .alu o rd p q) ∨ ∃ o p, a = .unary o rd p := by
    cases op <;> simp only [select, List.mem_cons, List.not_mem_nil, or_false] at ha <;> grind
  obtain ⟨o, p, q, rfl⟩ | ⟨o, p, rfl⟩ := hline
  · exact ⟨_, rfl⟩
  · exact ⟨_, rfl⟩

namespace Machine

/-- The program takes the machine from `s` to `s'` at position `q`.  On the way it writes at most one word, into one
register; a write to `zero` has no effect. -/
structure Leads (P : List Asm) (s : Machine) (write : Option (Reg × Word)) (q : Nat) (s' : Machine) : Prop where
  reaches : s.Reaches P s'
  pc : s'.pc = q
  value : ∀ r w, write = some (r, w) → r ≠ .zero → s'.word r = w
  others : ∀ r, (∀ w, write ≠ some (r, w)) → s'.get r = s.get r
  mem : s'.mem = s.mem

/-- Wherever the code stands in a program, running it from `s` writes this word, and the run goes on at the label, or
behind the code if there is none. -/
def Does (P : List Asm) (s : Machine) (code : List Asm) (write : Option (Reg × Word)) (goal : Option Label) : Prop :=
  At P s.pc code → ∀ q, goal.elim (q = s.pc + code.length) (Asm.place? P · = some q) → ∃ s', s.Leads P write q s'

variable {P code : List Asm} {s : Machine}

/-- The run of lines of arithmetic: one step for each, and all of them keep what is not in `rd`. -/
theorem exists_computed {rd : Reg} (hc : Asm.ComputesInto rd code) (hat : At P s.pc code) :
    ∃ s', s.Reaches P s' ∧ s'.pc = s.pc + code.length ∧ Asm.compute s.word code = some s'.word ∧
      (∀ r, r ≠ rd → s'.get r = s.get r) ∧ s'.mem = s.mem := by
  induction code generalizing s with
  | nil => exact ⟨s, .refl, rfl, rfl, fun _ _ => rfl, rfl⟩
  | cons a code ih =>
    obtain ⟨ha, hat⟩ := hat.cons
    obtain ⟨w, hw⟩ := hc a List.mem_cons_self s.word
    let s₁ := (s.set rd w.toInt).next
    have hword : s₁.word = Reg.write s.word rd w := by
      rw [← BitVec.ofInt_toInt (x := w), ← s.word_set]
      rfl
    obtain ⟨s', hreach, hpc, hcomp, hget, hmem⟩ := ih (s := s₁) (fun b hb => hc b (List.mem_cons_of_mem a hb)) hat
    refine ⟨s', .head (next?_of_exec? ha (s.exec?_of_result? hw)) hreach, ?_, ?_, fun r hr => ?_, hmem⟩
    · rw [hpc, List.length_cons, Nat.add_comm code.length, ← Nat.add_assoc]
      rfl
    · rw [Asm.compute, hw, ← hcomp, hword]
    · exact (hget r hr).trans (s.get_set_of_ne hr _)

/-- Code that computes `w` into `rd` does so on the machine. -/
theorem does_of_compute {rd : Reg} {w : Word} (hc : Asm.ComputesInto rd code)
    (hw : Asm.compute s.word code = some (Reg.write s.word rd w)) : s.Does P code (some (rd, w)) none := by
  intro hat q hq
  obtain ⟨s', hreach, hpc, hcomp, hget, hmem⟩ := exists_computed hc hat
  have hword : s'.word = Reg.write s.word rd w := Option.some.inj (hcomp.symm.trans hw)
  refine ⟨s', hreach, hpc.trans hq.symm, ?_, fun r hr => hget r ?_, hmem⟩
  · rintro r x ⟨⟩ h0
    rw [hword, Reg.write_self _ h0]
  · rintro rfl
    exact hr w rfl

theorem does_nil {write : Option (Reg × Word)} (h : ∀ r w, write = some (r, w) → s.word r = w) :
    s.Does P [] write none :=
  fun _ _ hq => ⟨s, .refl, hq.symm, fun r w hw _ => h r w hw, fun _ _ => rfl, rfl⟩

/-- A jump behind code that runs to its end. -/
theorem Does.jump {write : Option (Reg × Word)} {l : Label} (h : s.Does P code write none) :
    s.Does P (code ++ [.j l]) write (some l) := by
  intro hat q hq
  obtain ⟨hcode, hjump⟩ := hat.append
  obtain ⟨s', hs'⟩ := h hcode _ rfl
  have hline : P[s'.pc]? = some (.j l) := by
    rw [hs'.pc]
    exact hjump.cons.1
  have hstep : s'.exec? P (.j l) = some { s' with pc := q } := congrArg (Option.map _) hq
  exact ⟨{ s' with pc := q }, hs'.reaches.tail (next?_of_exec? hline hstep), rfl, hs'.value, hs'.others, hs'.mem⟩

theorem does_branch (test : Test) (rs : Reg) (l : Label) :
    s.Does P [.branch test rs l] none (if test.passes (s.word rs) then some l else none) := by
  intro hat q hq
  have hstep : s.exec? P (.branch test rs l) = some { s with pc := q } := by
    rw [exec?]
    split at hq <;> rename_i ht
    · rw [if_pos ht]
      exact congrArg (Option.map _) hq
    · rw [if_neg ht, show q = s.pc + 1 from hq]
      rfl
  refine ⟨{ s with pc := q }, .single (next?_of_exec? hat.cons.1 hstep), rfl, ?_, fun _ _ => rfl, rfl⟩
  intro r w h
  cases h

/-- **Instruction selection is correct whichever registers coincide**, for every program in which the code stands and
every state of the machine: the register of the result gets the value of the operator on the words that the operands
had before, no other register and no word of memory changes, and the run goes on where the instruction says. -/
theorem selection_correct (P : List Asm) (s : Machine) (exit : Label) :
    (∀ dst src rd rs, s.Does P ((Instr.move dst src).select [rd] [rs] exit) (some (rd, s.word rs)) none) ∧
    (∀ dst value rd, s.Does P ((Instr.const dst value).select [rd] [] exit) (some (rd, value)) none) ∧
    (∀ op dst src rd rs,
      s.Does P ((Instr.unary op dst src).select [rd] [rs] exit) (some (rd, op.eval (s.word rs))) none) ∧
    (∀ op dst x y rd lhs rhs, s.Does P ((Instr.binary op dst x y).select [rd] [lhs, rhs] exit)
      (some (rd, op.eval (s.word lhs) (s.word rhs))) none) ∧
    (∀ test x l rs, s.Does P ((Instr.branch test x l).select [] [rs] exit) none
      (if test.passes (s.word rs) then some l else none)) ∧
    (∀ x rs, s.Does P ((Instr.ret (some x)).select [] [rs] exit) (some (.a0, s.word rs)) (some exit)) ∧
    s.Does P ((Instr.ret none).select [] [] exit) none (some exit) := by
  have hmove : ∀ rd rs, s.Does P [.unary .mv rd rs] (some (rd, s.word rs)) none :=
    fun rd rs => does_of_compute (Asm.computesInto_line fun _ => ⟨_, rfl⟩) rfl
  refine ⟨fun dst src => hmove, fun dst value rd => ?_, fun op dst src rd rs => ?_,
    fun op dst x y rd lhs rhs => ?_, fun test x l rs => ?_, fun x rs => ?_, ?_⟩
  · exact does_of_compute (Asm.computesInto_line fun _ => ⟨_, rfl⟩) rfl
  · rw [← op.eval_select]
    exact does_of_compute (Asm.computesInto_line fun _ => ⟨_, rfl⟩) rfl
  · exact does_of_compute (op.computesInto_select rd lhs rhs) (op.run_select rd lhs rhs s.word)
  · exact does_branch test rs l
  · rw [Instr.select]
    split
    · rename_i hr
      subst hr
      exact (does_nil (by rintro r w ⟨⟩; rfl)).jump
    · exact (hmove .result rs).jump
  · exact (does_nil (by rintro r w ⟨⟩)).jump

/-- The conjunction of `t0` and `t1`, which goes where its second operand is. -/
def overwriting : List Asm := BinaryOp.and.select .t1 .t0 .t1

/-- At the first line, with `2` in `t0` and `5` in `t1`. -/
def twoAndFive : Machine := ⟨0, Reg.write (fun _ => 2) .t1 5, fun _ => 0⟩

theorem selection_correct_overwriting :
    ∃ s', twoAndFive.Reaches overwriting s' ∧ s'.pc = 4 ∧ s'.word .t1 = 1 ∧ s'.get .t0 = 2 := by
  obtain ⟨-, -, -, h, -⟩ := selection_correct overwriting twoAndFive ⟨"f_exit"⟩
  obtain ⟨s', hs'⟩ := h .and (.temp ⟨2⟩) (.temp ⟨0⟩) (.temp ⟨1⟩) .t1 .t0 .t1 List.prefix_rfl 4 rfl
  refine ⟨s', hs'.reaches, hs'.pc, hs'.value _ _ rfl (by decide), (hs'.others .t0 ?_).trans rfl⟩
  intro w hw
  cases hw

end Machine

end ThreeAddress
