import ThreeAddress.Proofs.Lowering

/-!
Immediates.  The offset of a load or a store and the summand of `addi` are signed numbers of twelve bits.  A frame of at
most `Frame.maxSize` bytes keeps all its words within reach of either end.  The words where the caller passed parameters
lie above the frame, and nothing bounds their number: those from the 521st parameter on are out of reach
(`Func.ReachesFar`).

Main statement: the lines that cannot be encoded are those that read or write such a word (`immediates_encodable`).
-/

namespace ThreeAddress

namespace Asm

/-- The number in the twelve bits of an instruction that has such a field. -/
def immediate? : Asm → Option Int
  | .addi _ _ imm => some imm
  | .lw _ offset _ | .sw _ offset _ => some offset
  | _ => none

/-- The immediate of the line, if it has one, is a signed number of twelve bits. -/
def Encodable (a : Asm) : Prop := ∀ n ∈ a.immediate?, -2048 ≤ n ∧ n ≤ 2047

instance (a : Asm) : Decidable a.Encodable :=
  inferInstanceAs (Decidable (∀ n ∈ a.immediate?, -2048 ≤ n ∧ n ≤ 2047))

variable {r q : Reg} {n : Int}

@[simp] theorem encodable_addi : (Asm.addi r q n).Encodable ↔ -2048 ≤ n ∧ n ≤ 2047 := by simp [Encodable, immediate?]

@[simp] theorem encodable_lw : (Asm.lw r n q).Encodable ↔ -2048 ≤ n ∧ n ≤ 2047 := by simp [Encodable, immediate?]

@[simp] theorem encodable_sw : (Asm.sw r n q).Encodable ↔ -2048 ≤ n ∧ n ≤ 2047 := by simp [Encodable, immediate?]

theorem encodable_of_immediate? {a : Asm} (h : a.immediate? = none) : a.Encodable := by simp [Encodable, h]

end Asm

/-! ### Entering and leaving -/

namespace Frame

variable {fr : Frame}

theorem encodable_saves (l : List Reg) : ∀ a ∈ saves l ++ restores l, a.Encodable := by
  intro a ha
  rcases List.mem_append.1 ha with ha | ha
  all_goals
    obtain ⟨r, -, hr⟩ := List.mem_filterMap.1 ha
    obtain ⟨o, ho, rfl⟩ := Option.map_eq_some_iff.1 hr
    have := saveOffset?_range ho
  · exact Asm.encodable_sw.2 (by omega)
  · exact Asm.encodable_lw.2 (by omega)

/-- The words of a frame that is not too large are within reach of either end. -/
theorem encodable_opening (hslots : fr.slots ≤ slotLimit) (h : fr.size ≤ maxSize) : ∀ a ∈ fr.opening, a.Encodable := by
  have hroom := room hslots
  have hsize : fr.size ≤ 2032 := h
  have hra : ∀ a ∈ (if fr.hasCalls then [Asm.sw .ra (fr.size - wordSize) .stack] else []), a.Encodable := by
    split
    · rw [List.forall_mem_singleton, Asm.encodable_sw, wordSize]
      omega
    · simp
  simp only [opening, List.forall_mem_append, List.forall_mem_cons, List.not_mem_nil, false_implies, implies_true,
    and_true, Asm.encodable_addi, Asm.encodable_sw]
  refine ⟨⟨⟨by omega, hra⟩, ?_, by omega⟩, fun a ha => encodable_saves _ a (List.mem_append_left _ ha)⟩
  rw [wordSize]
  omega

theorem encodable_closing (hslots : fr.slots ≤ slotLimit) (h : fr.size ≤ maxSize) : ∀ a ∈ fr.closing, a.Encodable := by
  have hroom := room hslots
  have hsize : fr.size ≤ 2032 := h
  have hra : ∀ a ∈ (if fr.hasCalls then [Asm.lw .ra (fr.size - wordSize) .stack] else []), a.Encodable := by
    split
    · rw [List.forall_mem_singleton, Asm.encodable_lw, wordSize]
      omega
    · simp
  simp only [closing, List.forall_mem_append, List.forall_mem_cons, List.not_mem_nil, false_implies, implies_true,
    and_true, Asm.encodable_addi, Asm.encodable_lw]
  refine ⟨⟨fun a ha => encodable_saves _ a (List.mem_append_right _ ha), hra⟩, ?_, by omega⟩
  rw [wordSize]
  omega

end Frame

/-! ### The body -/

/-- The line reads or writes, relative to the frame pointer, the word of a parameter that the caller passed 2048 bytes
above it or more. -/
def Func.ReachesFar (f : Func) (a : Asm) : Prop :=
  ∃ i : Nat, 520 ≤ i ∧ i < f.params.length ∧
    ∃ r, a = .lw r (4 * ((i : Int) - 8)) .frame ∨ a = .sw r (4 * ((i : Int) - 8)) .frame

theorem Func.ReachesFar.not_encodable {f : Func} {a : Asm} (h : f.ReachesFar a) : ¬ a.Encodable := by
  obtain ⟨i, hi, -, r, rfl | rfl⟩ := h
  · rw [Asm.encodable_lw]
    omega
  · rw [Asm.encodable_sw]
    omega

theorem Action.immediate?_code {named : List Reg} {targets : List Label} {a : Allocator} {home : Temp → Option Int}
    {α : Action} (h : a.Permits named α ∨ (∃ l ∈ targets, α.target? = some l) ∨ ∃ l, α = .label l) :
    ∀ x ∈ α.code home, x.immediate? = none ∨
      ∃ t o r, home t = some o ∧ (x = .lw r o .frame ∨ x = .sw r o .frame) := by
  intro x hx
  cases α with
  | store r t =>
    obtain ⟨o, ho, rfl⟩ := List.mem_map.1 hx
    exact .inr ⟨t, o, r, Option.mem_toList.1 ho, .inr rfl⟩
  | load r t =>
    obtain ⟨o, ho, rfl⟩ := List.mem_map.1 hx
    exact .inr ⟨t, o, r, Option.mem_toList.1 ho, .inl rfl⟩
  | native y =>
    cases List.mem_singleton.1 hx
    rcases h with h | ⟨l, -, h⟩ | ⟨l, h⟩
    · cases x <;> first | exact .inl rfl | exact absurd h id
    · cases x <;> first | exact .inl rfl | simp [Action.target?, Asm.target?] at h
    · simp at h
  | label | comment =>
    cases List.mem_singleton.1 hx
    exact .inl rfl
  | note => simp [Action.code] at hx

namespace Lowered

variable {f : Func} {o : Options} (p : Lowered f o)

/-- Slots lie within a frame that is not too large, so only homes above it are out of reach. -/
theorem encodable_body (hsize : p.frame.size ≤ Frame.maxSize) : ∀ a ∈ p.body, a.Encodable ∨ f.ReachesFar a := by
  have hroom := Frame.room p.slots_le
  replace hsize : p.frame.size ≤ 2032 := hsize
  intro a ha
  obtain ⟨α, hα, ha⟩ := List.mem_flatMap.1 ha
  rcases Action.immediate?_code (p.labelled.permits α hα) a ha with hnone | ⟨t, o', r, ho, hline⟩
  · exact .inl (Asm.encodable_of_immediate? hnone)
  have hreach : (-2048 ≤ o' ∧ o' ≤ 2047) ∨ ∃ i : Nat, 520 ≤ i ∧ i < f.params.length ∧ o' = 4 * ((i : Int) - 8) := by
    rcases p.isHome ho with ⟨i, h8, hi, rfl⟩ | ⟨k, hk, rfl⟩
    · by_cases h520 : 520 ≤ i
      · exact .inr ⟨i, h520, hi, rfl⟩
      · exact .inl (by omega)
    · rw [Subroutine.slotOffset_eq]
      exact .inl (by omega)
  rcases hreach with hnear | ⟨i, h520, hi, rfl⟩
  · rcases hline with rfl | rfl
    · exact .inl (Asm.encodable_lw.2 hnear)
    · exact .inl (Asm.encodable_sw.2 hnear)
  · exact .inr ⟨i, h520, hi, r, hline⟩

theorem encodable_code (hsize : p.frame.size ≤ Frame.maxSize) : ∀ a ∈ p.code, a.Encodable ∨ f.ReachesFar a := by
  intro a ha
  rcases List.mem_append.1 ha with ha | ha
  · exact .inl (Frame.encodable_opening p.slots_le hsize a ha)
  rcases List.mem_append.1 ha with ha | ha
  · exact p.encodable_body hsize a ha
  rcases List.mem_cons.1 ha with rfl | ha
  · exact .inl (Asm.encodable_of_immediate? rfl)
  rcases List.mem_append.1 ha with ha | ha
  · exact .inl (Frame.encodable_closing p.slots_le hsize a ha)
  · rw [List.mem_singleton.1 ha]
    exact .inl (Asm.encodable_of_immediate? rfl)

end Lowered

/-- **Every immediate is encodable but the offsets of far parameters.**  In the code of any function, the lines without
an encoding are those that address the word of the 521st or a later parameter; a function with fewer parameters has
none. -/
theorem immediates_encodable {f : Func} {o : Options} {asm : AsmFunc} (h : (f.lower o).result = .ok asm) :
    (∀ a ∈ asm.code, a.Encodable ↔ ¬ f.ReachesFar a) ∧
      (f.params.length ≤ 520 → ∀ a ∈ asm.code, a.Encodable) := by
  have hcode : ∀ a ∈ asm.code, a.Encodable ∨ f.ReachesFar a := by
    rcases f.exists_lowered_within h with ⟨-, hnil⟩ | ⟨p, rfl, hsize⟩
    · simp [hnil]
    · exact p.encodable_code hsize
  refine ⟨fun a ha => ⟨fun he hf => hf.not_encodable he, fun hn => (hcode a ha).resolve_right hn⟩, fun hn a ha => ?_⟩
  refine (hcode a ha).resolve_right fun ⟨i, h520, hi, _⟩ => ?_
  omega

/-- A function that returns the last of its `n` parameters. -/
def Func.last (n : Nat) : Func :=
  ⟨⟨"f"⟩, (List.range n).reverse.map fun i => ⟨.ofNat i⟩, [.ret (some (.temp ⟨0⟩))]⟩

/-- The code of `Func.last`, where the parameter is passed at the offset `o`. -/
def Func.lastCode (o : Int) : List Asm :=
  [.addi .sp .sp (-64), .sw .s0 56 .sp, .addi .s0 .sp 64, .lw .t0 o .s0, .unary .mv .a0 .t0, .j ⟨"f_exit"⟩,
    .label ⟨"f_exit"⟩, .lw .s0 56 .sp, .addi .sp .sp 64, .ret]

/-- The 520th parameter is within reach, and the 521st is not. -/
theorem immediates_encodable_last :
    ((Func.last 520).lower ⟨false, none⟩).result = .ok ⟨⟨"f"⟩, Func.lastCode 2044⟩ ∧
      (∀ a ∈ Func.lastCode 2044, a.Encodable) ∧
      ((Func.last 521).lower ⟨false, none⟩).result = .ok ⟨⟨"f"⟩, Func.lastCode 2048⟩ ∧
      ¬ (Asm.lw .t0 2048 .s0).Encodable ∧ (Func.last 521).ReachesFar (.lw .t0 2048 .s0) := by
  have h520 : ((Func.last 520).lower ⟨false, none⟩).result = .ok ⟨⟨"f"⟩, Func.lastCode 2044⟩ := by decide +kernel
  have h521 : ((Func.last 521).lower ⟨false, none⟩).result = .ok ⟨⟨"f"⟩, Func.lastCode 2048⟩ := by decide +kernel
  have hnear := (immediates_encodable h520).2 (by simp [Func.last])
  have hfar := (immediates_encodable h521).1 (.lw .t0 2048 .s0) (by decide)
  have hlast : ¬ (Asm.lw .t0 2048 .s0).Encodable := by decide
  exact ⟨h520, hnear, h521, hlast, not_not.1 (mt hfar.2 hlast)⟩

end ThreeAddress
