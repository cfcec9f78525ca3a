import ThreeAddress.Proofs.Preservation

/-!
Functions whose instructions name registers to be written.  In the meaning of a function such a write changes no
temporary.  In its code it changes a register, and nothing keeps the allocator from having put a temporary there: if the
temporary is needed afterwards, the write-backs that follow store the wrong value in its home.

Main statement: if that does not happen (`Func.Spares`), the code returns what the function returns
(`named_destinations_preserve`).
-/

namespace ThreeAddress

theorem Func.Run.instrs_ne_nil {f : Func} {answer : List (Label × List Word) → Word} {args : List Word} {T : List Call}
    {v : Word} (h : f.Run answer args T (some v)) : f.instrs ≠ [] := by
  intro hnil
  have hev := h.1
  rw [hnil] at hev
  cases hev <;> simp_all

theorem RestoredBut.get_eq {named : List Reg} {e s : Machine} {n : Nat} (h : RestoredBut named e n s)
    (hn : ∀ r ∈ named, r ∈ Reg.allocatable) : s.get .sp = e.get .sp ∧ s.get .ra = e.get .ra := by
  obtain ⟨e', hsame, hback⟩ := h
  have hsp : Reg.sp ∉ named := fun hm => absurd (hn _ hm) (by decide)
  have hra : Reg.ra ∉ named := fun hm => absurd (hn _ hm) (by decide)
  exact ⟨hback.sp.trans (hsame.get hsp), hback.ra.trans (hsame.get hra)⟩

/-- **Destinations that name registers do no harm, if these hold nothing that is needed.**  Take a function whose
instructions read temporaries only and name allocatable registers only, whose parameters are distinct and whose marks
are not its exit label.  Let no register that an instruction names hold, after the instruction, a temporary that is live
then.  If the function returns `v`, calls being answered by a function of the calls so far, then its code makes the same
calls and arrives at `ret` with `v` in the result register, and with the stack pointer and the return address as they
were on entry. -/
theorem named_destinations_preserve {f : Func} (hsrc : ∀ i ∈ f.instrs, ∀ op ∈ i.srcs, op.reg? = none)
    (hn : ∀ r ∈ f.named, r ∈ Reg.allocatable) (hd : f.params.Nodup) (hm : f.name.exit ∉ f.marks) {o : Options}
    (hsp : f.Spares o) {asm : AsmFunc} (h : (f.lower o).result = .ok asm)
    {answer : List (Label × List Word) → Word} {args : List Word} {T : List Call} {v : Word}
    (hrun : f.Run answer args T (some v)) {e : Machine} (he : e.pc = 0) (hargs : e.Receives args) :
    Machine.Completes asm.code (fun s => s.word .a0 = v ∧ s.get .sp = e.get .sp ∧ s.get .ra = e.get .ra) e T := by
  obtain ⟨p, rfl⟩ := f.exists_lowered h |>.resolve_left fun hempty => hrun.instrs_ne_nil hempty.1
  refine p.simulates_sparing (Machine.closed_completes _ _) (p.placed hm) ⟨hsrc, hn, hsp⟩ hd he hargs hrun.1 ?_
  exact fun s hret hback hv => .ret hret ⟨hv v rfl, hback.get_eq hn⟩

/-- A function that adds 5 to its parameter.  It also writes the register of a temporary that is not needed any more,
and a register that its caller wants back. -/
def Func.scratching : Func := ⟨⟨"f"⟩, [⟨0⟩], [.const (.temp ⟨1⟩) 5, .binary .add (.temp ⟨2⟩) (.temp ⟨0⟩) (.temp ⟨1⟩),
  .const (.reg .t1) 9, .move (.reg .s1) (.temp ⟨2⟩), .ret (some (.temp ⟨2⟩))]⟩

def Func.scratchingCode : List Asm :=
  [.addi .sp .sp (-64), .sw .s0 56 .sp, .addi .s0 .sp 64, .sw .a0 (-56) .s0, .li .t0 5, .sw .t0 (-60) .s0,
    .lw .t1 (-56) .s0, .alu .add .t0 .t1 .t0, .sw .t0 (-64) .s0, .li .t1 9, .sw .t0 (-64) .s0, .unary .mv .s1 .t0,
    .sw .t0 (-64) .s0, .unary .mv .a0 .t0, .j ⟨"f_exit"⟩, .label ⟨"f_exit"⟩, .lw .s0 56 .sp, .addi .sp .sp 64, .ret]

/-- On the argument 3, `Func.scratching` returns 8. -/
theorem named_destinations_preserve_scratching :
    (Func.scratching.lower ⟨false, none⟩).result = .ok ⟨⟨"f"⟩, Func.scratchingCode⟩ ∧
      Func.scratching.named = [.t1, .s1] ∧ Func.scratching.Spares ⟨false, none⟩ ∧
      Machine.Completes Func.scratchingCode (fun s => s.word .a0 = 8 ∧ s.get .sp = 0 ∧ s.get .ra = 100)
        ⟨0, fun r => if r = .a0 then 3 else if r = .ra then 100 else 0, fun _ => 0⟩ [] := by
  have h : (Func.scratching.lower ⟨false, none⟩).result = .ok ⟨⟨"f"⟩, Func.scratchingCode⟩ := by decide +kernel
  have hsp : Func.scratching.Spares ⟨false, none⟩ := by decide +kernel
  have hrun : Func.scratching.Run (fun _ => 0) [3] [] (some 8) :=
    ⟨.effect rfl rfl (.effect rfl rfl (.effect rfl rfl (.effect rfl rfl (.value rfl rfl)))), by simp [Answered]⟩
  let e : Machine := ⟨0, fun r => if r = .a0 then 3 else if r = .ra then 100 else 0, fun _ => 0⟩
  have hargs : e.Receives [3] := by
    refine ⟨?_, ?_⟩
    · intro i r x hr hx
      match i, hr, hx with
      | 0, rfl, rfl => rfl
    · intro i x h8 hx
      have : i < 1 := (List.getElem?_eq_some_iff.1 hx).1
      omega
  refine ⟨h, rfl, hsp, ?_⟩
  exact named_destinations_preserve (by decide) (by decide) (by decide) (by decide) hsp h hrun (e := e) rfl hargs

/-- A function that returns 5, after it has written the register where the 5 is. -/
def Func.clobbering : Func := ⟨⟨"f"⟩, [], [.const (.temp ⟨0⟩) 5, .const (.reg .t0) 7, .ret (some (.temp ⟨0⟩))]⟩

-- It does not spare the 5: its home is overwritten with the 7, which is what the code returns.
example : ¬ Func.clobbering.Spares ⟨false, none⟩ ∧ (Func.clobbering.lower ⟨false, none⟩).result = .ok ⟨⟨"f"⟩,
    [.addi .sp .sp (-64), .sw .s0 56 .sp, .addi .s0 .sp 64, .li .t0 5, .sw .t0 (-56) .s0, .li .t0 7, .sw .t0 (-56) .s0,
      .unary .mv .a0 .t0, .j ⟨"f_exit"⟩, .label ⟨"f_exit"⟩, .lw .s0 56 .sp, .addi .sp .sp 64, .ret]⟩ := by
  decide +kernel

end ThreeAddress
