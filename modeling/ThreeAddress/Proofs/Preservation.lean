import ThreeAddress.Proofs.CallingConvention
import ThreeAddress.Proofs.Simulation.Function

/-!
The code of one function does what its instructions do (`code_completes`).  The calls it makes are answered from
outside: whatever the callees do within the calling convention, the code makes the calls that the instructions make, in
the same order and with the same arguments, and returns what they return.
-/

namespace ThreeAddress

/-- Arriving at `ret` in a state with `Q` is a property of runs that holds if it holds after the next line. -/
theorem Machine.closed_completes (code : List Asm) (Q : Machine → Prop) : Closed code (Completes code Q) where
  exec := fun ha hx h => .exec (.exec ha hx) h
  call := by
    intro s c T hc hp h
    refine .call hc hp fun s' hstep => ?_
    generalize hd : some c = d at hstep
    cases hstep with
    | exec => simp at hd
    | call _ _ hr =>
      cases Option.some.inj hd
      exact h s' hr

theorem Lowered.placed {f : Func} {o : Options} (p : Lowered f o) (hm : f.name.exit ∉ f.marks) : p.Placed p.code 0 :=
  ⟨List.prefix_refl _, p.nodup_labels hm⟩

/-- **The code of a function does what its instructions do.**  Take a function with instructions that names no
registers, whose parameters are distinct and whose marks are not its exit label, and any run of it in which calls are
answered by a function of the calls so far.  Enter its code with the arguments in place: then, whatever the callees do
to what they need not keep, the machine makes the calls of the run, in order and with the same arguments, arrives at
`ret`, and has the value in the result register if there is one. -/
theorem code_completes {f : Func} (hne : f.instrs ≠ []) (ht : f.TempsOnly) (hd : f.params.Nodup)
    (hm : f.name.exit ∉ f.marks) {o : Options} {asm : AsmFunc} (h : (f.lower o).result = .ok asm)
    {answer : List (Label × List Word) → Word} {args : List Word} {T : List Call} {v : Option Word}
    (hrun : f.Run answer args T v) {e : Machine} (he : e.pc = 0) (hargs : e.Receives args) :
    Machine.Completes asm.code (fun s => ∀ x, v = some x → s.word .a0 = x) e T := by
  obtain ⟨p, rfl⟩ := f.exists_lowered h |>.resolve_left fun hempty => hne hempty.1
  refine p.simulates (Machine.closed_completes _ _) (p.placed hm) ht hd he hargs hrun.1 ?_
  exact fun s hret _ hv => .ret hret hv

/-- On the arguments 3 and 4, with the call answered by 10, `Func.caller` returns 7. -/
theorem code_completes_caller :
    Machine.Completes Func.callerCode (fun s => ∀ x, some 7 = some x → s.word .a0 = x)
      ⟨0, fun r => if r = .a0 then 3 else if r = .a1 then 4 else 0, fun _ => 0⟩ [⟨⟨"g"⟩, [7, 3], some 10⟩] := by
  have h : (Func.caller.lower ⟨false, some 2⟩).result = .ok ⟨⟨"f"⟩, Func.callerCode⟩ := by decide +kernel
  have hrun : Func.caller.Run (fun _ => 10) [3, 4] [⟨⟨"g"⟩, [7, 3], some 10⟩] (some 7) := by
    refine ⟨.effect rfl rfl (.call rfl rfl (.effect rfl rfl (.value rfl rfl))), fun n c hc => ?_⟩
    match n, hc with
    | 0, rfl => rfl
  refine code_completes (by decide) (by decide) (by decide) (by decide) h hrun rfl ⟨?_, ?_⟩
  · intro i r x hr hx
    match i, hr, hx with
    | 0, rfl, rfl => rfl
    | 1, rfl, rfl => rfl
  · intro i x h8 hx
    have : i < 2 := (List.getElem?_eq_some_iff.1 hx).1
    omega

end ThreeAddress
