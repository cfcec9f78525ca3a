import ThreeAddress.Proofs.Simulation.Function

/-!
The code of a program does what the program does (`program_halts`).  The code of the functions stands in one piece, each
behind its name (`AsmFunc.image`), and calls are answered by that code: a function may call any function of the program,
itself included.

The bound on the run of the program carries the induction.  A call that a function makes is a run with a smaller bound,
so its code comes back in the way that the caller counts on, which is what the simulation of one function asks for.
-/

namespace ThreeAddress

/-! ### The functions in one piece -/

/-- The code of functions in one piece, each behind its name. -/
def AsmFunc.image (fs : List AsmFunc) : List Asm := fs.flatMap fun f => .label f.name :: f.code

/-- The labels that belong to a function: its name, its marks and its exit. -/
def Func.labels (f : Func) : List Label := f.name :: (f.marks ++ [f.name.exit])

namespace Program

/-- What is asked of a program: its functions have instructions and distinct parameters and name no registers, no two
labels are the same, and a call gives a function of the program as many arguments as it has parameters. -/
structure WellFormed (p : Program) : Prop where
  instrs : ∀ f ∈ p.funcs, f.instrs ≠ []
  tempsOnly : ∀ f ∈ p.funcs, f.TempsOnly
  params : ∀ f ∈ p.funcs, f.params.Nodup
  labels : (p.funcs.flatMap Func.labels).Nodup
  calls : ∀ f ∈ p.funcs, ∀ dst l ops, .call dst l ops ∈ f.instrs →
    ∃ g, p.func? l = some g ∧ ops.length = g.params.length

/-- The code of every function stands in the program's code behind its name, and no label is set twice. -/
structure Linked (p : Program) (o : Options) (P : List Asm) : Prop where
  labels : (P.filterMap Asm.label?).Nodup
  func : ∀ f ∈ p.funcs, ∃ (c : Lowered f o) (q : Nat), At P q (.label f.name :: c.code)

section

variable {p : Program} {o : Options} {fs : List Func} {asms : List AsmFunc}

theorem forall₂_of_lowerAll (h : (lowerAll o fs).result = .ok asms) :
    List.Forall₂ (fun f asm => (f.lower o).result = .ok asm) fs asms := by
  induction fs generalizing asms with
  | nil =>
    cases h
    exact .nil
  | cons f fs ih =>
    rw [lowerAll] at h
    split at h
    · cases h
    · rename_i code hcode
      cases hrest : (lowerAll o fs).result with
      | error e => simp [hrest, Except.map] at h
      | ok rest =>
        simp only [hrest, Except.map, Except.ok.injEq] at h
        subst h
        exact .cons hcode (ih hrest)

theorem exists_lowered_of_lowerAll (hne : ∀ f ∈ fs, f.instrs ≠ []) (h : (lowerAll o fs).result = .ok asms) :
    List.Forall₂ (fun f asm => ∃ c : Lowered f o, asm = ⟨f.name, c.code⟩) fs asms := by
  refine ((List.forall₂_and_left _ _).2 ⟨hne, forall₂_of_lowerAll h⟩).imp fun f asm hf => ?_
  exact (f.exists_lowered hf.2).resolve_left fun hempty => hf.1 hempty.1

theorem labels_image (h : List.Forall₂ (fun f asm => ∃ c : Lowered f o, asm = ⟨f.name, c.code⟩) fs asms) :
    ((AsmFunc.image asms).filterMap Asm.label?).Sublist (fs.flatMap Func.labels) := by
  induction h with
  | nil => exact List.Sublist.slnil
  | @cons f asm fs asms hf _ ih =>
    obtain ⟨c, rfl⟩ := hf
    have hname : (Asm.label f.name).label? = some f.name := rfl
    rw [AsmFunc.image, List.flatMap_cons, List.filterMap_append, List.filterMap_cons, hname, c.filterMap_label?_code,
      List.flatMap_cons]
    exact ((c.labels_sublist.append (List.Sublist.refl [f.name.exit])).cons_cons f.name).append ih

theorem at_image (h : List.Forall₂ (fun f asm => ∃ c : Lowered f o, asm = ⟨f.name, c.code⟩) fs asms) {f : Func}
    (hf : f ∈ fs) : ∃ (c : Lowered f o) (q : Nat), At (AsmFunc.image asms) q (.label f.name :: c.code) := by
  induction h with
  | nil => simp at hf
  | @cons g asm fs asms hg _ ih =>
    rw [AsmFunc.image, List.flatMap_cons]
    rcases List.mem_cons.1 hf with rfl | hf
    · obtain ⟨c, rfl⟩ := hg
      exact ⟨c, 0, List.prefix_append _ _⟩
    · obtain ⟨c, q, hat⟩ := ih hf
      refine ⟨c, (.label asm.name :: asm.code).length + q, ?_⟩
      rw [At, ← List.drop_drop, List.drop_left]
      exact hat

theorem WellFormed.linked (hp : p.WellFormed) (h : (p.lower o).result = .ok asms) :
    p.Linked o (AsmFunc.image asms) := by
  have hl := exists_lowered_of_lowerAll hp.instrs h
  exact ⟨(labels_image hl).nodup hp.labels, fun f hf => at_image hl hf⟩

end

end Program

/-! ### Calls answered by code -/

namespace Machine

variable {P : List Asm} {s s' : Machine}

/-- The state in which the function at `q` is entered by a call. -/
def enter (s : Machine) (q : Nat) : Machine := { s.set .ra (s.pc + 1) with pc := q }

theorem get_enter (q : Nat) {r : Reg} (h : r ≠ .ra) : (s.enter q).get r = s.get r := s.get_set_of_ne h _

theorem get_enter_ra (q : Nat) : (s.enter q).get .ra = s.pc + 1 := s.get_set_self (by decide) _

theorem next?_of_call {l : Label} {q : Nat} (ha : P[s.pc]? = some (.call l)) (hq : Asm.place? P l = some q) :
    s.next? P = some (s.enter q) := by
  unfold next?
  rw [ha]
  simp only [hq]
  rfl

theorem Passes.length_le {args : List Word} (h : s.Passes args) : args.length ≤ 8 := by
  have hlen := congrArg List.length h
  rw [List.length_map, List.length_take] at hlen
  have : Reg.params.length = 8 := rfl
  omega

theorem Passes.receives {args : List Word} (h : s.Passes args) (q : Nat) : (s.enter q).Receives args where
  inRegs := by
    intro i r x hr hx
    have hi : i < args.length := (List.getElem?_eq_some_iff.1 hx).1
    have hra : r ≠ .ra := by
      have hmem : r ∈ Reg.params := List.mem_of_getElem? hr
      rintro rfl
      exact absurd hmem (by decide)
    rw [h, List.getElem?_map, List.getElem?_take_of_lt hi, hr] at hx
    rw [← Option.some.inj hx, word, word, get_enter q hra]
  onStack := by
    intro i x h8 hx
    have hi : i < args.length := (List.getElem?_eq_some_iff.1 hx).1
    have := h.length_le
    omega

/-- A function with `k` parameters, entered in state `e`, has come back in state `s` with the result `v`. -/
structure ComesBack (P : List Asm) (e : Machine) (k : Nat) (v : Option Word) (s : Machine) : Prop where
  reaches : Reaches P e s
  pc : s.pc = (e.get .ra).toNat
  restored : Restored e k s
  result : ∀ x, v = some x → s.word .a0 = x

/-- A function without parameters on the stack comes back in the way its caller counts on. -/
theorem ComesBack.returns {q k : Nat} {v : Option Word} (h : ComesBack P (s.enter q) k v s') (hk : k ≤ 8) :
    s.Returns v s' where
  pc := by
    rw [h.pc, get_enter_ra]
    omega
  sp := by rw [h.restored.sp, get_enter q (by decide)]
  fp := by rw [h.restored.fp, get_enter q (by decide)]
  saved := by
    intro r hr
    have hra : r ≠ .ra := by
      rintro rfl
      exact absurd hr (by decide)
    rw [h.restored.saved r hr, get_enter q hra]
  mem := by
    intro a ha
    have hsp : (s.enter q).get .sp = s.get .sp := get_enter q (by decide)
    refine h.restored.mem a (by rw [hsp]; exact ha) ?_
    rintro ⟨i, h8, hi, -⟩
    omega
  result := h.result

/-- If the calls are good then the run arrives at a state with `Q`. -/
def Arrives (P : List Asm) (good : Call → Prop) (Q : Machine → Prop) (s : Machine) (T : List Call) : Prop :=
  (∀ c ∈ T, good c) → ∃ s', Reaches P s s' ∧ Q s'

/-- Where the code answers good calls, arriving is a property of runs that holds if it holds after the next line. -/
theorem closed_arrives {good : Call → Prop} (Q : Machine → Prop)
    (hgood : ∀ {s : Machine} {c : Call}, good c → P[s.pc]? = some (.call c.callee) → s.Passes c.args →
      ∃ s', Reaches P s s' ∧ s.Returns c.result s') : Closed P (Arrives P good Q) where
  exec := by
    intro s s' a T ha hx h hT
    obtain ⟨s'', hreach, hQ⟩ := h hT
    exact ⟨s'', hreach.head (next?_of_exec? ha hx), hQ⟩
  call := by
    intro s c T ha hp h hT
    obtain ⟨s', hcall, hret⟩ := hgood (hT c List.mem_cons_self) ha hp
    obtain ⟨s'', hreach, hQ⟩ := h s' hret fun d hd => hT d (List.mem_cons_of_mem c hd)
    exact ⟨s'', hcall.trans hreach, hQ⟩

end Machine

/-! ### Runs of the program -/

namespace Program

variable {p : Program} {o : Options} {P : List Asm}

theorem mem_of_func? {l : Label} {f : Func} (h : p.func? l = some f) : f ∈ p.funcs ∧ f.name = l := by
  have hname := List.find?_some h
  exact ⟨List.mem_of_find?_eq_some h, of_decide_eq_true hname⟩

theorem exists_func?_of_run? {n : Nat} {l : Label} {args : List Word} {v : Option Word} (h : p.run? n l args = some v) :
    ∃ f, p.func? l = some f ∧ p.eval? n f.instrs 0 (Env.ofParams f.params args) = some v :=
  Option.bind_eq_some_iff.1 h

theorem Linked.exists_place? (hP : p.Linked o P) {f : Func} (hf : f ∈ p.funcs) :
    ∃ (c : Lowered f o) (q : Nat), Asm.place? P f.name = some q ∧ P[q]? = some (.label f.name) ∧ c.Placed P (q + 1) := by
  obtain ⟨c, q, hat⟩ := hP.func f hf
  obtain ⟨hline, hcode⟩ := hat.cons
  exact ⟨c, q, Asm.place?_eq_some hP.labels hline, hline, hcode, hP.labels⟩

/-- The code answers the calls that a function makes, if functions run with the smaller bounds come back. -/
theorem Linked.answers (hp : p.WellFormed) (hP : p.Linked o P) {n : Nat} {f : Func} (hf : f ∈ p.funcs)
    (ih : ∀ m < n, ∀ {l : Label} {args : List Word} {v : Option Word} {e : Machine}, p.run? m l args = some v →
      Asm.place? P l = some e.pc → e.Receives args → ∃ g s, p.func? l = some g ∧ e.ComesBack P g.params.length v s)
    {c : Call} (hc : p.Answers n f.instrs c) {s : Machine} (ha : P[s.pc]? = some (.call c.callee))
    (hpass : s.Passes c.args) : ∃ s', s.Reaches P s' ∧ s.Returns c.result s' := by
  obtain ⟨⟨m, hm, hrun⟩, dst, ops, hcall, hlen⟩ := hc
  obtain ⟨g, hg, harity⟩ := hp.calls f hf dst c.callee ops hcall
  obtain ⟨hmem, hname⟩ := mem_of_func? hg
  obtain ⟨-, q, hq, -, -⟩ := hP.exists_place? hmem
  rw [hname] at hq
  obtain ⟨g', s', hg', hback⟩ := ih m hm (e := s.enter q) hrun hq (hpass.receives q)
  cases Option.some.inj (hg.symm.trans hg')
  have hk : g.params.length ≤ 8 := by
    have := hpass.length_le
    omega
  exact ⟨s', hback.reaches.head (Machine.next?_of_call ha hq), hback.returns hk⟩

/-- **The code of a function of the program comes back with the value of the run.** -/
theorem Linked.comesBack (hp : p.WellFormed) (hP : p.Linked o P) {n : Nat} {l : Label} {args : List Word}
    {v : Option Word} {e : Machine} (hrun : p.run? n l args = some v) (he : Asm.place? P l = some e.pc)
    (hargs : e.Receives args) : ∃ f s, p.func? l = some f ∧ e.ComesBack P f.params.length v s := by
  induction n using Nat.strongRecOn generalizing l args v e with
  | ind n ih =>
    obtain ⟨f, hf, heval⟩ := exists_func?_of_run? hrun
    obtain ⟨hmem, rfl⟩ := mem_of_func? hf
    obtain ⟨T, hev, hT⟩ := exists_evaluates heval
    obtain ⟨c, q, hq, hline, hplaced⟩ := hP.exists_place? hmem
    cases Option.some.inj (hq.symm.trans he)
    -- the line with the name is passed, then the code of the function runs up to its `ret`
    have hclosed := Machine.closed_arrives
      (fun s => P[s.pc]? = some .ret ∧ Restored e.next f.params.length s ∧ ∀ x, v = some x → s.word .a0 = x)
      (fun hc ha hpass => hP.answers hp hmem (fun m hm => ih m hm) hc ha hpass)
    have hW := c.simulates hclosed hplaced (hp.tempsOnly f hmem) (hp.params f hmem) (e := e.next) rfl
      ⟨hargs.inRegs, hargs.onStack⟩ hev fun s hret hrest hv _ => ⟨s, .refl, hret, hrest, hv⟩
    obtain ⟨s, hreach, hret, hrest, hv⟩ := hW hT
    have hname : e.next? P = some e.next := Machine.next?_of_exec? hline rfl
    have hback : s.next? P = some { s with pc := (s.get .ra).toNat } := by
      unfold Machine.next?
      rw [hret]
    refine ⟨f, { s with pc := (s.get .ra).toNat }, hf, ?_, ?_, ⟨hrest.sp, hrest.fp, hrest.ra, hrest.saved, hrest.mem⟩, hv⟩
    · have htoRet : e.Reaches P s := hreach.head hname
      exact htoRet.tail hback
    · exact congrArg Int.toNat hrest.ra

end Program

/-- **The code of a program does what the program does.**  Take a well-formed program that has code, and a function of it
that ends on some arguments with the value `v`, all calls being run in the same way.  Enter the code at the function's
name, with the arguments in place and a return address outside of the code: then the machine halts, with the value in the
result register if there is one, and with the stack pointer and the registers of the caller as they were. -/
theorem program_halts {p : Program} (hp : p.WellFormed) {o : Options} {asms : List AsmFunc}
    (h : (p.lower o).result = .ok asms) {n : Nat} {l : Label} {args : List Word} {v : Option Word}
    (hrun : p.run? n l args = some v) :
    ∃ entry, Asm.place? (AsmFunc.image asms) l = some entry ∧ ∀ e : Machine, e.pc = entry → e.Receives args →
      (AsmFunc.image asms).length ≤ (e.get .ra).toNat →
      ∃ s : Machine, e.Reaches (AsmFunc.image asms) s ∧ s.next? (AsmFunc.image asms) = none ∧
        (∀ x, v = some x → s.word .a0 = x) ∧ s.get .sp = e.get .sp ∧ s.get .s0 = e.get .s0 ∧
        ∀ r ∈ Reg.calleeSaved, s.get r = e.get r := by
  have hP := hp.linked h
  obtain ⟨f, hf, -⟩ := Program.exists_func?_of_run? hrun
  obtain ⟨hmem, rfl⟩ := Program.mem_of_func? hf
  obtain ⟨-, q, hq, -, -⟩ := hP.exists_place? hmem
  refine ⟨q, hq, fun e he hargs hra => ?_⟩
  obtain ⟨g, s, -, hback⟩ := hP.comesBack hp hrun (he ▸ hq) hargs
  refine ⟨s, hback.reaches, ?_, hback.result, hback.restored.sp, hback.restored.fp, hback.restored.saved⟩
  rw [← hback.pc] at hra
  unfold Machine.next?
  rw [List.getElem?_eq_none hra]

/-- The factorial of the parameter, by recursion. -/
def Program.factorial : Program := ⟨[⟨⟨"fact"⟩, [⟨0⟩],
  [.const (.temp ⟨1⟩) 1, .binary .le (.temp ⟨2⟩) (.temp ⟨0⟩) (.temp ⟨1⟩), .branch .isZero (.temp ⟨2⟩) ⟨"more"⟩,
    .ret (some (.temp ⟨1⟩)), .mark ⟨"more"⟩, .binary .sub (.temp ⟨3⟩) (.temp ⟨0⟩) (.temp ⟨1⟩),
    .call (some (.temp ⟨4⟩)) ⟨"fact"⟩ [.temp ⟨3⟩], .binary .mul (.temp ⟨5⟩) (.temp ⟨0⟩) (.temp ⟨4⟩),
    .ret (some (.temp ⟨5⟩))]⟩]⟩

theorem program_halts_factorial : ∃ asms, (Program.factorial.lower ⟨false, some 2⟩).result = .ok asms ∧
    ∃ entry, Asm.place? (AsmFunc.image asms) ⟨"fact"⟩ = some entry ∧
      ∃ s : Machine, Machine.Reaches (AsmFunc.image asms)
          ⟨entry, fun r => if r = .a0 then 3 else if r = .ra then (AsmFunc.image asms).length else 0, fun _ => 0⟩ s ∧
        s.next? (AsmFunc.image asms) = none ∧ s.word .a0 = 6 ∧ s.get .sp = 0 := by
  have hok : (Program.factorial.lower ⟨false, some 2⟩).result.isOk = true := by decide +kernel
  obtain ⟨asms, h⟩ : ∃ asms, (Program.factorial.lower ⟨false, some 2⟩).result = .ok asms := by
    cases h : (Program.factorial.lower ⟨false, some 2⟩).result with
    | error e =>
      rw [h] at hok
      cases hok
    | ok asms => exact ⟨asms, rfl⟩
  have hp : Program.factorial.WellFormed := by
    refine ⟨by decide, by decide, by decide, by decide, fun f hf dst l ops hcall => ?_⟩
    cases List.mem_singleton.1 hf
    simp only [List.mem_cons, reduceCtorEq, Instr.call.injEq, List.not_mem_nil, or_false, false_or] at hcall
    obtain ⟨rfl, rfl, rfl⟩ := hcall
    exact ⟨_, rfl, rfl⟩
  have hrun : Program.factorial.run? 30 ⟨"fact"⟩ [3] = some (some 6) := by decide +kernel
  obtain ⟨entry, hentry, hhalts⟩ := program_halts hp h hrun
  refine ⟨asms, h, entry, hentry, ?_⟩
  let e : Machine :=
    ⟨entry, fun r => if r = .a0 then 3 else if r = .ra then (AsmFunc.image asms).length else 0, fun _ => 0⟩
  have hargs : e.Receives [3] := by
    refine ⟨?_, ?_⟩
    · intro i r x hr hx
      match i, hr, hx with
      | 0, rfl, rfl => rfl
    · intro i x h8 hx
      have : i < 1 := (List.getElem?_eq_some_iff.1 hx).1
      omega
  obtain ⟨s, hreach, hnone, hv, hsp, -⟩ := hhalts e rfl hargs (Nat.le_of_eq rfl)
  exact ⟨s, hreach, hnone, hv 6 rfl, hsp⟩

end ThreeAddress
