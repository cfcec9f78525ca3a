import ThreeAddress.Proofs.Allocator.UpToDate
import ThreeAddress.Proofs.Lowering

/-!
The code of a function keeps the calling convention.  A run is at every moment entering the function, in its body, or
leaving it (`Phase`); each step keeps this, since jumps go to labels and labels stand in the body only.  So a run that
arrives at `ret` has given back everything (`calling_convention_kept`).
-/

namespace ThreeAddress

namespace Lowered

variable {f : Func} {o : Options} (p : Lowered f o)

def exitPos : Nat := p.frame.opening.length + p.body.length

/-- How far a run that started in state `e` has come in state `s`. -/
inductive Phase (e s : Machine) : Prop
  | entering (done : List Asm) (a : Asm) (todo : List Asm) : p.frame.opening = done ++ a :: todo → s = e.lines done →
      s.pc = done.length → Phase e s
  | running : InFrame e p.frame f.params.length s → p.frame.opening.length ≤ s.pc → s.pc ≤ p.exitPos → Phase e s
  | leaving (s₀ : Machine) (done todo : List Asm) : InFrame e p.frame f.params.length s₀ →
      p.frame.closing = done ++ todo → s = s₀.lines done → s.pc = p.exitPos + 1 + done.length → Phase e s

theorem line_cases {i : Nat} {a : Asm} (h : p.code[i]? = some a) :
    (i < p.frame.opening.length ∧ p.frame.opening[i]? = some a) ∨
      (p.frame.opening.length ≤ i ∧ i < p.exitPos ∧ a ∈ p.body) ∨
      (i = p.exitPos ∧ a = .label f.name.exit) ∨
      ∃ k, i = p.exitPos + 1 + k ∧ (p.frame.closing ++ [.ret])[k]? = some a := by
  unfold exitPos
  rw [code, List.getElem?_append] at h
  split at h
  · exact .inl ⟨by assumption, h⟩
  rw [List.getElem?_append] at h
  split at h
  · exact .inr (.inl ⟨by omega, by omega, List.mem_of_getElem? h⟩)
  refine .inr (.inr ?_)
  obtain ⟨k, hk⟩ : ∃ k, i - p.frame.opening.length - p.body.length = k := ⟨_, rfl⟩
  rw [hk] at h
  cases k with
  | zero => exact .inl ⟨by omega, (Option.some.inj h).symm⟩
  | succ k => exact .inr ⟨k, by omega, h⟩

/-- Labels stand in the body, the exit label at its end. -/
theorem range_of_place? {l : Label} {q : Nat} (h : Asm.place? p.code l = some q) :
    p.frame.opening.length ≤ q ∧ q ≤ p.exitPos := by
  obtain ⟨hq, hl, -⟩ := List.findIdx?_eq_some_iff_getElem.1 h
  have hline : p.code[q]? = some (.label l) := by
    rw [List.getElem?_eq_getElem hq]
    exact congrArg some (of_decide_eq_true hl)
  rcases p.line_cases hline with ⟨-, h⟩ | ⟨h1, h2, -⟩ | ⟨h, -⟩ | ⟨k, -, h⟩
  · have := p.frame.isStraight_opening _ (List.mem_of_getElem? h)
    simp [Asm.isStraight] at this
  · exact ⟨h1, Nat.le_of_lt h2⟩
  · unfold exitPos at h ⊢
    omega
  · rcases List.mem_append.1 (List.mem_of_getElem? h) with h | h
    · have := p.frame.isStraight_closing _ h
      simp [Asm.isStraight] at this
    · simp at h

variable {p}

theorem line_entering {done todo : List Asm} {a x : Asm} {i : Nat} (hopen : p.frame.opening = done ++ a :: todo)
    (hi : i = done.length) (h : p.code[i]? = some x) : x = a := by
  have hlen : done.length < p.frame.opening.length := by
    rw [hopen, List.length_append, List.length_cons]
    omega
  rcases p.line_cases h with ⟨-, h⟩ | ⟨h, -⟩ | ⟨h, -⟩ | ⟨k, h, -⟩
  · rw [hopen, hi, List.getElem?_append_right (Nat.le_refl _), Nat.sub_self] at h
    exact (Option.some.inj h).symm
  all_goals
    unfold exitPos at *
    omega

theorem line_running {x : Asm} {i : Nat} (hlo : p.frame.opening.length ≤ i) (hhi : i ≤ p.exitPos)
    (h : p.code[i]? = some x) : (i < p.exitPos ∧ x ∈ p.body) ∨ (i = p.exitPos ∧ x = .label f.name.exit) := by
  rcases p.line_cases h with ⟨h, -⟩ | ⟨-, h, hb⟩ | h | ⟨k, h, -⟩
  · omega
  · exact .inl ⟨h, hb⟩
  · exact .inr h
  · omega

theorem line_leaving {done todo : List Asm} {x : Asm} {i : Nat} (hclose : p.frame.closing = done ++ todo)
    (hi : i = p.exitPos + 1 + done.length) (h : p.code[i]? = some x) : (todo ++ [Asm.ret]).head? = some x := by
  rcases p.line_cases h with ⟨h, -⟩ | ⟨-, h, -⟩ | ⟨h, -⟩ | ⟨k, hk, h⟩
  · unfold exitPos at hi
    omega
  · omega
  · omega
  · have hkd : k = done.length := by omega
    rw [hkd, hclose, List.append_assoc, List.getElem?_append_right (Nat.le_refl _), Nat.sub_self] at h
    rw [List.head?_eq_getElem?]
    exact h

theorem pc_of_exec? {code : List Asm} {s s' : Machine} {a : Asm} (h : s.exec? code a = some s') :
    s'.pc = s.pc + 1 ∨ ∃ l, Asm.place? code l = some s'.pc := by
  cases a with
  | j l =>
    obtain ⟨q, hq, rfl⟩ := Option.map_eq_some_iff.1 h
    exact .inr ⟨l, hq⟩
  | branch test rs l =>
    rw [Machine.exec?] at h
    split at h
    · obtain ⟨q, hq, rfl⟩ := Option.map_eq_some_iff.1 h
      exact .inr ⟨l, hq⟩
    · cases Option.some.inj h
      exact .inl rfl
  | call | ret => simp [Machine.exec?] at h
  | alu | li | unary | addi | lw | sw | label | comment =>
    cases Option.some.inj h
    exact .inl rfl

theorem Phase.entered {e s s' : Machine} {c : Option Call} {done todo : List Asm} {a : Asm}
    (hopen : p.frame.opening = done ++ a :: todo) (hs : s = e.lines done) (hpc : s.pc = done.length)
    (hstep : Machine.Step p.code s c s') : p.Phase e s' := by
  have ha : a.isStraight = true := p.frame.isStraight_opening a (by rw [hopen]; simp)
  cases hstep with
  | call hx =>
    rw [← line_entering hopen hpc hx] at ha
    simp [Asm.isStraight] at ha
  | exec hx hexec =>
    rw [line_entering hopen hpc hx, s.exec?_of_isStraight _ ha] at hexec
    cases Option.some.inj hexec
    have hnext : s.line a = e.lines (done ++ [a]) := by rw [Machine.lines_append, ← hs]; rfl
    have hpc' : (s.line a).pc = (done ++ [a]).length := by rw [s.pc_line ha, hpc]; simp
    cases todo with
    | cons b todo => exact .entering (done ++ [a]) b todo (by rw [hopen]; simp) hnext hpc'
    | nil =>
      rw [← hopen] at hnext hpc'
      have hin := (Frame.inFrame_opening (fun r hr => (p.mem_saved_frame.1 hr).1) f.params.length e).1
      rw [← hnext] at hin
      exact .running hin (Nat.le_of_eq hpc'.symm) (by unfold exitPos; omega)

theorem Phase.ran {e s s' : Machine} {c : Option Call} (ht : f.TempsOnly)
    (hin : InFrame e p.frame f.params.length s) (hlo : p.frame.opening.length ≤ s.pc) (hhi : s.pc ≤ p.exitPos)
    (hstep : Machine.Step p.code s c s') : p.Phase e s' := by
  cases hstep with
  | call hx _ hr =>
    rcases line_running hlo hhi hx with ⟨hlt, hb⟩ | ⟨-, hl⟩
    · have hpc := hr.pc
      exact .running (hin.returns p.slots_le (p.fits_body ht _ hb) hr) (by omega) (by omega)
    · simp at hl
  | exec hx hexec =>
    rcases line_running hlo hhi hx with ⟨hlt, hb⟩ | ⟨heq, rfl⟩
    · have hin' := hin.exec? (p.fits_body ht _ hb) hexec
      rcases pc_of_exec? hexec with hpc | ⟨l, hl⟩
      · exact .running hin' (by omega) (by omega)
      · obtain ⟨h1, h2⟩ := p.range_of_place? hl
        exact .running hin' h1 h2
    · cases Option.some.inj hexec
      refine .leaving s.next [] p.frame.closing (hin.jump _) rfl rfl ?_
      rw [Machine.pc_next, heq]
      rfl

theorem Phase.left {e s s₀ s' : Machine} {c : Option Call} {done todo : List Asm}
    (hin : InFrame e p.frame f.params.length s₀) (hclose : p.frame.closing = done ++ todo) (hs : s = s₀.lines done)
    (hpc : s.pc = p.exitPos + 1 + done.length) (hstep : Machine.Step p.code s c s') : p.Phase e s' := by
  cases todo with
  | nil =>
    cases hstep with
    | call hx => cases Option.some.inj (line_leaving hclose hpc hx)
    | exec hx hexec =>
      cases Option.some.inj (line_leaving hclose hpc hx)
      simp [Machine.exec?] at hexec
  | cons a todo =>
    have ha : a.isStraight = true := p.frame.isStraight_closing a (by rw [hclose]; simp)
    cases hstep with
    | call hx =>
      cases Option.some.inj (line_leaving hclose hpc hx)
      simp [Asm.isStraight] at ha
    | exec hx hexec =>
      cases Option.some.inj (line_leaving hclose hpc hx)
      rw [s.exec?_of_isStraight _ ha] at hexec
      cases Option.some.inj hexec
      refine .leaving s₀ (done ++ [a]) todo hin (by rw [hclose]; simp) ?_ ?_
      · rw [Machine.lines_append, ← hs]
        rfl
      · rw [s.pc_line ha, hpc]
        simp only [List.length_append, List.length_singleton]
        omega

/-- Each step keeps the phases. -/
theorem Phase.step {e s s' : Machine} {c : Option Call} (ht : f.TempsOnly) (h : p.Phase e s)
    (hstep : Machine.Step p.code s c s') : p.Phase e s' := by
  cases h with
  | entering done a todo hopen hs hpc => exact Phase.entered hopen hs hpc hstep
  | running hin hlo hhi => exact Phase.ran ht hin hlo hhi hstep
  | leaving s₀ done todo hin hclose hs hpc => exact Phase.left hin hclose hs hpc hstep

/-- Whatever the run, it has a phase. -/
theorem Phase.of_steps {e s : Machine} (ht : f.TempsOnly) (he : e.pc = 0) (hs : Machine.Steps p.code e s) :
    p.Phase e s := by
  induction hs with
  | refl => exact .entering [] _ _ rfl rfl he
  | tail _ hstep ih =>
    obtain ⟨c, hstep⟩ := hstep
    exact ih.step ht hstep

end Lowered

open Lowered in
/-- **The calling convention is kept.**  Take the code of a function that names no registers and run it from its first
line, from any state `e` and whatever its callees do, to `ret`.  Then the stack and frame pointers, the other
callee-saved registers and the return address are what they were on entry, and so is all memory from the stack pointer
up, but for the words of the function's own stack parameters. -/
theorem calling_convention_kept {f : Func} (ht : f.TempsOnly) {o : Options} {asm : AsmFunc}
    (h : (f.lower o).result = .ok asm) (hne : asm.code ≠ []) {e s : Machine} (he : e.pc = 0)
    (hs : Machine.Steps asm.code e s) (hret : asm.code[s.pc]? = some .ret) :
    s.get .sp = e.get .sp ∧ s.get .s0 = e.get .s0 ∧ (∀ r ∈ Reg.calleeSaved, s.get r = e.get r) ∧
      s.get .ra = e.get .ra ∧
      ∀ a, e.get .sp ≤ a → (∀ i : Nat, 8 ≤ i → i < f.params.length → a ≠ e.get .sp + 4 * ((i : Int) - 8)) →
        s.mem a = e.mem a := by
  obtain ⟨p, rfl⟩ := f.exists_lowered h |>.resolve_left fun hempty => hne hempty.2
  replace hret : p.code[s.pc]? = some .ret := hret
  cases Phase.of_steps ht he hs with
  | entering done a todo hopen hs hpc =>
    cases line_entering hopen hpc hret
    have := p.frame.isStraight_opening .ret (by rw [hopen]; simp)
    simp [Asm.isStraight] at this
  | running hin hlo hhi =>
    rcases line_running hlo hhi hret with ⟨-, hb⟩ | ⟨-, h⟩
    · exact absurd (p.fits_body ht _ hb) id
    · simp at h
  | leaving s₀ done todo hin hclose hs hpc =>
    have htodo : todo = [] := by
      have hline := line_leaving hclose hpc hret
      cases todo with
      | nil => rfl
      | cons a todo =>
        cases Option.some.inj hline
        have := p.frame.isStraight_closing .ret (by rw [hclose]; simp)
        simp [Asm.isStraight] at this
    rw [htodo, List.append_nil] at hclose
    rw [hs, ← hclose]
    have hback := (hin.closing fun r hr => (p.mem_saved_frame.1 hr).1).1
    refine ⟨hback.sp, hback.fp, hback.saved, hback.ra, fun a ha hn => hback.mem a ha ?_⟩
    rintro ⟨i, h8, hi, hai⟩
    exact hn i h8 hi (by omega)

def Func.callerCode : List Asm :=
  [.addi .sp .sp (-80), .sw .ra 76 .sp, .sw .s0 72 .sp, .addi .s0 .sp 80, .sw .a0 (-56) .s0, .sw .a1 (-60) .s0,
    .lw .t0 (-56) .s0, .lw .t1 (-60) .s0, .alu .add .t1 .t0 .t1, .sw .t0 (-56) .s0, .sw .t1 (-64) .s0,
    .sw .t0 (-56) .s0, .sw .t1 (-64) .s0, .lw .a0 (-64) .s0, .lw .a1 (-56) .s0, .call ⟨"g"⟩, .sw .a0 (-68) .s0,
    .sw .a0 (-68) .s0, .lw .t0 (-56) .s0, .alu .sub .t0 .a0 .t0, .sw .t0 (-72) .s0, .unary .mv .a0 .t0,
    .j ⟨"f_exit"⟩, .label ⟨"f_exit"⟩, .lw .ra 76 .sp, .lw .s0 72 .sp, .addi .sp .sp 80, .ret]

/-- A run of `Func.caller` in which the callee does nothing. -/
theorem calling_convention_kept_caller : ∃ s : Machine,
    Machine.Steps Func.callerCode ⟨0, fun _ => 1000, fun _ => 0⟩ s ∧ Func.callerCode[s.pc]? = some .ret ∧
      s.get .sp = 1000 ∧ s.get .s0 = 1000 ∧ s.get .ra = 1000 ∧ s.get .s11 = 1000 ∧ s.mem 1000 = 0 := by
  have h : (Func.caller.lower ⟨false, some 2⟩).result = .ok ⟨⟨"f"⟩, Func.callerCode⟩ := by decide +kernel
  have hcall : ∀ s : Machine, s.Returns none s.next := fun s =>
    ⟨rfl, rfl, rfl, fun _ _ => rfl, fun _ _ => rfl, by simp⟩
  obtain ⟨s, hs, hret⟩ : ∃ s : Machine, Machine.Steps Func.callerCode ⟨0, fun _ => 1000, fun _ => 0⟩ s ∧
      Func.callerCode[s.pc]? = some .ret := by
    refine ⟨?_, ?_, ?_⟩
    rotate_left
    · iterate 15 refine Relation.ReflTransGen.head ⟨none, .exec rfl rfl⟩ ?_
      refine Relation.ReflTransGen.head ⟨some ⟨⟨"g"⟩, [], none⟩, .call rfl rfl (hcall _)⟩ ?_
      iterate 11 refine Relation.ReflTransGen.head ⟨none, .exec rfl rfl⟩ ?_
      exact .refl
    · rfl
  obtain ⟨hsp, hfp, hsaved, hra, hmem⟩ := calling_convention_kept (by decide) h (by decide) rfl hs hret
  refine ⟨s, hs, hret, hsp, hfp, hra, hsaved .s11 (by decide), hmem 1000 (by decide) fun i h8 hi => ?_⟩
  have : i < 2 := hi
  omega

end ThreeAddress
