import Mathlib.Order.Bounds.Defs
import ThreeAddress.Proofs.Frame

/-!
The code that leaves a function undoes the code that enters it.  Whatever was asked of the frame (`Frame.Request`), the
registers it saves are callee-saved ones, so each of them has a word of its own among the thirteen below the frame
pointer.  What happens in between may change everything but these words and the two pointers: they are all that leaving
reads (`Frame.Holds.of_kept`).

Main statement: `Frame.epilogue_undoes_prologue`.
-/

namespace ThreeAddress

namespace Machine

theorem reaches_lines {P l : List Asm} (hl : ∀ a ∈ l, a.isStraight = true) {s : Machine} (hat : At P s.pc l) :
    s.Reaches P (s.lines l) := by
  induction l generalizing s with
  | nil => exact .refl
  | cons a l ih =>
    obtain ⟨ha, hat⟩ := hat.cons
    have hs := hl a List.mem_cons_self
    refine .head (next?_of_exec? ha (s.exec?_of_isStraight P hs)) (ih (fun b hb => hl b (List.mem_cons_of_mem a hb)) ?_)
    rw [s.pc_line hs]
    exact hat

end Machine

namespace Frame

variable {f : Frame}

/-! ### Requests -/

/-- What a frame may be asked for: to save a register, and to say whether the function makes calls. -/
inductive Request where
  | save (r : Reg)
  | calls (hasCalls : Bool)
  deriving DecidableEq

def request (f : Frame) : Request → Frame
  | .save r => f.save r
  | .calls hasCalls => f.setHasCalls hasCalls

theorem slots_request (f : Frame) (q : Request) : (f.request q).slots = f.slots := by
  cases q with
  | save r => exact (foldl_save_slots f [r]).1
  | calls => rfl

theorem slots_requests (f : Frame) (qs : List Request) : (qs.foldl request f).slots = f.slots := by
  induction qs generalizing f with
  | nil => rfl
  | cons q qs ih => exact (ih (f.request q)).trans (slots_request f q)

theorem mem_saved_request (f : Frame) (q : Request) (r : Reg) :
    r ∈ (f.request q).saved ↔ r ∈ f.saved ∨ r ∈ Reg.calleeSaved ∧ q = .save r := by
  cases q with
  | save p =>
    rw [request, mem_saved_save, Request.save.injEq, and_comm]
    grind
  | calls hasCalls =>
    rw [request, show (f.setHasCalls hasCalls).saved = f.saved from rfl]
    simp

/-- The registers saved are the callee-saved ones among those asked for. -/
theorem mem_saved_requests (f : Frame) (qs : List Request) (r : Reg) :
    r ∈ (qs.foldl request f).saved ↔ r ∈ f.saved ∨ r ∈ Reg.calleeSaved ∧ .save r ∈ qs := by
  induction qs generalizing f with
  | nil => simp
  | cons q qs ih =>
    rw [List.foldl_cons, ih, mem_saved_request, List.mem_cons]
    grind

/-! ### The size -/

theorem isLeast_size (h : f.slots ≤ slotLimit) : IsLeast {m : Int | 16 ∣ m ∧ 52 + 4 * f.slots ≤ m} f.size := by
  have hroom := room h
  have hsize := size_eq h
  unfold bytes at hsize
  refine ⟨⟨by omega, hroom⟩, ?_⟩
  rintro m ⟨⟨k, rfl⟩, hm⟩
  omega

/-! ### Between entering and leaving -/

/-- The code that enters a function leaves the frame filled, and writes nothing but its thirteen upper words. -/
theorem exists_entered (hs : ∀ r ∈ f.saved, r ∈ Reg.calleeSaved) {P : List Asm} {e : Machine}
    (hat : At P e.pc f.opening) : ∃ s, e.Reaches P s ∧ s.pc = e.pc + f.opening.length ∧ f.Holds e s ∧
      ∀ a, (∀ k : Nat, 1 ≤ k → k ≤ 13 → a ≠ s.get .s0 - 4 * k) → s.mem a = e.mem a := by
  have hholds : f.Holds e (e.lines f.opening) := (inFrame_opening hs 0 e).1.holds
  refine ⟨_, Machine.reaches_lines f.isStraight_opening hat, e.pc_lines f.isStraight_opening, hholds, fun a ha => ?_⟩
  refine mem_lines_opening hs fun r c hc => ?_
  obtain ⟨k, h1, h13, rfl⟩ := exists_of_cell? hc
  rw [← hholds.fp]
  exact ha k h1 h13

/-- What the frame holds depends on the pointers and the thirteen words below the frame pointer, and on the return
address if that is not among them. -/
theorem Holds.of_kept {e s t : Machine} (h : f.Holds e s) (hsp : t.get .sp = s.get .sp) (hfp : t.get .s0 = s.get .s0)
    (hra : f.hasCalls = false → t.get .ra = s.get .ra)
    (hmem : ∀ k : Nat, 1 ≤ k → k ≤ 13 → t.mem (s.get .s0 - 4 * k) = s.mem (s.get .s0 - 4 * k)) : f.Holds e t := by
  rw [h.fp] at hmem
  refine ⟨hsp.trans h.sp, hfp.trans h.fp, ?_, (hmem 2 (by omega) (by omega)).trans h.callerFrame, fun r hr o ho => ?_⟩
  · have hsaved := h.ra
    cases hc : f.hasCalls with
    | false =>
      rw [hc] at hsaved
      exact (hra hc).trans hsaved
    | true =>
      rw [hc] at hsaved
      exact (hmem 1 (by omega) (by omega)).trans hsaved
  · obtain ⟨k, h3, h13, rfl⟩ := exists_of_saveOffset? ho
    rw [← h.saved r hr _ ho]
    exact hmem k (by omega) h13

theorem Holds.exists_left {e t : Machine} (h : f.Holds e t) (hs : ∀ r ∈ f.saved, r ∈ Reg.calleeSaved) {P : List Asm}
    (hat : At P t.pc (f.closing ++ [.ret])) :
    ∃ t', t.Reaches P t' ∧ t'.pc = t.pc + f.closing.length ∧ P[t'.pc]? = some .ret ∧ f.Left e t t' := by
  obtain ⟨hclosing, hret⟩ := hat.append
  have hpc := t.pc_lines f.isStraight_closing
  refine ⟨_, Machine.reaches_lines f.isStraight_closing hclosing, hpc, ?_, h.closing hs⟩
  rw [hpc]
  exact hret.cons.1

/-- **Leaving a function undoes entering it.**  From 2^29 - 16 slots on computing the size overflows and there is no
frame, up to where the number of slots is taken for a negative one.  Take a frame with fewer slots and any requests.
Its size is the least multiple of 16 that has room for 13 words and the slots.  Above 2032 bytes there is neither code
to enter nor code to leave; up to there, both exist.  Run the code that enters from any state `e`: only the 13 words
below the new frame pointer are written.  Then let anything change but the two pointers and these words, and the return
address if the function makes no calls, and run the code that leaves up to its `ret`: the stack pointer, the frame
pointer, the return address and every register saved are as in `e`. -/
theorem epilogue_undoes_prologue (n : UInt32) (qs : List Request) :
    (ofSlots? n = none ↔ 536870896 ≤ n.toNat ∧ n.toNat < 3758096384) ∧
    (n.toNat < 536870896 → ∃ f₀, ofSlots? n = some f₀ ∧
      let f := qs.foldl request f₀
      IsLeast {m : Int | 16 ∣ m ∧ 52 + 4 * n.toNat ≤ m} f.size ∧
      (∀ r, r ∈ f.saved ↔ r ∈ Reg.calleeSaved ∧ .save r ∈ qs) ∧
      (2032 < f.size →
        f.prologue = .error (.frameTooLarge f.size) ∧ f.epilogue = .error (.frameTooLarge f.size)) ∧
      (f.size ≤ 2032 → ∃ opening closing, f.prologue = .ok opening ∧ f.epilogue = .ok (closing ++ [.ret]) ∧
        ∀ (P : List Asm) (e : Machine), At P e.pc opening →
          ∃ s, e.Reaches P s ∧ s.pc = e.pc + opening.length ∧
            (∀ a, (∀ k : Nat, 1 ≤ k → k ≤ 13 → a ≠ s.get .s0 - 4 * k) → s.mem a = e.mem a) ∧
            ∀ t : Machine, t.get .sp = s.get .sp → t.get .s0 = s.get .s0 →
              (f.hasCalls = false → t.get .ra = s.get .ra) →
              (∀ k : Nat, 1 ≤ k → k ≤ 13 → t.mem (s.get .s0 - 4 * k) = s.mem (s.get .s0 - 4 * k)) →
              At P t.pc (closing ++ [.ret]) →
              ∃ t', t.Reaches P t' ∧ t'.pc = t.pc + closing.length ∧ P[t'.pc]? = some .ret ∧
                t'.get .sp = e.get .sp ∧ t'.get .s0 = e.get .s0 ∧ t'.get .ra = e.get .ra ∧
                ∀ r ∈ f.saved, t'.get r = e.get r)) := by
  refine ⟨ofSlots?_eq_none, fun hn => ?_⟩
  obtain ⟨f₀, hf₀⟩ := exists_ofSlots? hn
  obtain ⟨hslots₀, hsaved₀, -⟩ := of_ofSlots? hf₀
  refine ⟨f₀, hf₀, ?_⟩
  intro f
  have hslots : f.slots = n.toNat := (slots_requests f₀ qs).trans hslots₀
  have hlimit : f.slots ≤ slotLimit := by
    unfold slotLimit
    omega
  have hsaved : ∀ r, r ∈ f.saved ↔ r ∈ Reg.calleeSaved ∧ .save r ∈ qs := by
    intro r
    rw [mem_saved_requests, hsaved₀]
    simp
  have hs : ∀ r ∈ f.saved, r ∈ Reg.calleeSaved := fun r hr => ((hsaved r).1 hr).1
  refine ⟨hslots ▸ isLeast_size hlimit, hsaved,
    fun hlt => ⟨f.prologue_eq.trans (if_pos hlt), f.epilogue_eq.trans (if_pos hlt)⟩,
    fun hle => ⟨f.opening, f.closing, f.prologue_eq.trans (if_neg (Int.not_lt.2 hle)),
      f.epilogue_eq.trans (if_neg (Int.not_lt.2 hle)), fun P e hat => ?_⟩⟩
  obtain ⟨s, hreach, hpc, hholds, hmem⟩ := exists_entered hs hat
  refine ⟨s, hreach, hpc, hmem, fun t hsp hfp hra hkept hat' => ?_⟩
  obtain ⟨t', hreach', hpc', hret, hleft⟩ := (hholds.of_kept hsp hfp hra hkept).exists_left hs hat'
  exact ⟨t', hreach', hpc', hret, hleft.sp, hleft.fp, hleft.ra, hleft.saved⟩

/-- The requests of a function that makes calls and writes `s2` and `t0`. -/
def calling : List Request := [.save .s2, .calls true, .save .s2, .save .t0]

/-- Below 2^29 slots the size may overflow.  With two slots it does not: take registers that hold their numbers; between
entering and leaving, `ra` and `s2` are overwritten. -/
theorem epilogue_undoes_prologue_calling : ofSlots? 536870896 = none ∧
    let e : Machine := ⟨0, fun r => r.index.val, fun _ => 0⟩
    ∃ (P : List Asm) (s t' : Machine), e.Reaches P s ∧ ((s.set .ra 0).set .s2 0).Reaches P t' ∧
      P[t'.pc]? = some .ret ∧ t'.get .sp = 2 ∧ t'.get .ra = 1 ∧ t'.get .s2 = 18 := by
  refine ⟨(epilogue_undoes_prologue 536870896 []).1.2 (by decide), ?_⟩
  intro e
  obtain ⟨f₀, hf₀, -, hsaved, -, hrun⟩ := (epilogue_undoes_prologue 2 calling).2 (by decide)
  have hframe : ∀ f ∈ ofSlots? 2,
      (calling.foldl request f).size ≤ 2032 ∧ (calling.foldl request f).hasCalls = true := by decide
  obtain ⟨hsize, hcalls⟩ := hframe f₀ hf₀
  obtain ⟨opening, closing, -, -, h⟩ := hrun hsize
  obtain ⟨s, hreach, hpc, -, hleave⟩ := h (opening ++ (closing ++ [.ret])) e ⟨_, rfl⟩
  have hat : At (opening ++ (closing ++ [.ret])) ((s.set .ra 0).set .s2 0).pc (closing ++ [.ret]) := by
    refine ⟨[], ?_⟩
    show _ = List.drop s.pc _
    rw [hpc, List.drop_left' (Nat.zero_add _).symm, List.append_nil]
  obtain ⟨t', hreach', -, hret, hsp, -, hra, hback⟩ :=
    hleave ((s.set .ra 0).set .s2 0) rfl rfl (fun h => absurd (hcalls.symm.trans h) (by decide)) (fun _ _ _ => rfl) hat
  exact ⟨_, s, t', hreach, hreach', hret, hsp, hra, hback .s2 ((hsaved .s2).2 (by decide))⟩

end Frame

end ThreeAddress
