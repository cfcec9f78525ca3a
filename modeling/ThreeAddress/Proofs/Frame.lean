import ThreeAddress.Proofs.Machine
import ThreeAddress.Proofs.Subroutine

/-!
The frame of a function while the function runs.  `InFrame e fr n s` says of the state `s` of a function with frame `fr`
and `n` parameters, entered in state `e`: all that its caller wants back is either untouched or in its word of the
frame.

* Entering the function makes it true (`Frame.inFrame_opening`).
* Every line that fits the frame keeps it, and so do calls (`InFrame.exec?`, `InFrame.returns`).
* Leaving the function gives everything back (`InFrame.closing`).  It reads only what `Frame.Holds` speaks of
  (`Frame.Holds.closing`).
-/

namespace ThreeAddress

/-! ### Straight lines -/

/-- The line moves a word or a pointer, and the next line follows. -/
def Asm.isStraight : Asm → Bool
  | .addi _ _ _ | .lw _ _ _ | .sw _ _ _ => true
  | _ => false

namespace Machine

def line (s : Machine) (a : Asm) : Machine := (s.exec? [] a).getD s

def lines (s : Machine) (l : List Asm) : Machine := l.foldl line s

variable (s : Machine)

theorem exec?_of_isStraight (code : List Asm) {a : Asm} (h : a.isStraight = true) :
    s.exec? code a = some (s.line a) := by
  cases a <;> first | rfl | simp [Asm.isStraight] at h

theorem pc_line {a : Asm} (h : a.isStraight = true) : (s.line a).pc = s.pc + 1 := by
  cases a <;> first | rfl | simp [Asm.isStraight] at h

theorem lines_append (l m : List Asm) : s.lines (l ++ m) = (s.lines l).lines m := List.foldl_append

theorem pc_lines {l : List Asm} (h : ∀ a ∈ l, a.isStraight = true) : (s.lines l).pc = s.pc + l.length := by
  induction l generalizing s with
  | nil => rfl
  | cons a l ih =>
    show ((s.line a).lines l).pc = _
    rw [ih _ fun b hb => h b (List.mem_cons_of_mem a hb), pc_line s (h a List.mem_cons_self), List.length_cons]
    omega

end Machine

/-! ### The layout of a frame -/

namespace Frame

variable {f : Frame} {r q : Reg} {o : Int}

/-- The words that save registers are the third to the thirteenth below the frame pointer. -/
theorem exists_of_saveOffset? (h : saveOffset? r = some o) : ∃ k : Nat, 3 ≤ k ∧ k ≤ 13 ∧ o = -(4 * (k : Int)) := by
  obtain ⟨i, hi, rfl⟩ := Option.map_eq_some_iff.1 h
  obtain ⟨_, hi⟩ := List.findIdx?_eq_some_iff_getElem.1 hi
  have : i < 11 := by assumption
  refine ⟨3 + i, by omega, by omega, ?_⟩
  rw [wordSize]
  omega

/-- They lie below those of the return address and the frame pointer, and above the slots. -/
theorem saveOffset?_range (h : saveOffset? r = some o) : -52 ≤ o ∧ o ≤ -12 := by
  obtain ⟨k, h3, h13, rfl⟩ := exists_of_saveOffset? h
  omega

theorem exists_saveOffset? (h : r ∈ Reg.calleeSaved) : ∃ o, saveOffset? r = some o := by
  obtain ⟨i, hi⟩ := Option.isSome_iff_exists.1 (List.isSome_idxOf?.2 h)
  exact ⟨_, by rw [saveOffset?, hi]; rfl⟩

theorem saveOffset?_inj (hr : saveOffset? r = some o) (hq : saveOffset? q = some o) : r = q := by
  obtain ⟨i, hi, hio⟩ := Option.map_eq_some_iff.1 hr
  obtain ⟨k, hk, hko⟩ := Option.map_eq_some_iff.1 hq
  have hik : i = k := by
    have := hio.trans hko.symm
    rw [wordSize] at this
    omega
  obtain ⟨_, hr, -⟩ := List.findIdx?_eq_some_iff_getElem.1 hi
  obtain ⟨_, hq, -⟩ := List.findIdx?_eq_some_iff_getElem.1 hk
  subst hik
  exact (eq_of_beq hr).symm.trans (eq_of_beq hq)

/-- The offset from the frame pointer of the word for a register that is saved on entry. -/
def cell? (r : Reg) : Option Int :=
  if r = .ra then some (-4) else if r = .frame then some (-8) else saveOffset? r

theorem cell?_of_saveOffset? (h : saveOffset? r = some o) : cell? r = some o := by
  have hne : saveOffset? .ra = none ∧ saveOffset? .frame = none := by decide
  unfold cell?
  split
  · rename_i hr
    rw [hr, hne.1] at h
    simp at h
  split
  · rename_i hr
    rw [hr, hne.2] at h
    simp at h
  · exact h

/-- These words are the thirteen below the frame pointer. -/
theorem exists_of_cell? (h : cell? r = some o) : ∃ k : Nat, 1 ≤ k ∧ k ≤ 13 ∧ o = -(4 * (k : Int)) := by
  unfold cell? at h
  split at h
  · exact ⟨1, by omega, by omega, (Option.some.inj h).symm⟩
  split at h
  · exact ⟨2, by omega, by omega, (Option.some.inj h).symm⟩
  · obtain ⟨k, h3, h13, ho⟩ := exists_of_saveOffset? h
    exact ⟨k, by omega, h13, ho⟩

/-- The size is computed from the number of slots as a signed word. -/
theorem totalSize?_eq_some {n : UInt32} {w : Word} : totalSize? n = some w ↔
    Word.minInt ≤ 4 * n.toBitVec.toInt ∧ 4 * n.toBitVec.toInt + 67 ≤ Word.maxInt ∧
      w.toInt = (4 * n.toBitVec.toInt + 67) / 16 * 16 := by
  constructor
  · intro h
    obtain ⟨bytes, hbytes, h⟩ := Option.bind_eq_some_iff.1 h
    obtain ⟨raw, hraw, h⟩ := Option.bind_eq_some_iff.1 h
    obtain ⟨padded, hpadded, h⟩ := Option.bind_eq_some_iff.1 h
    cases Option.some.inj h
    have h4 : bytes.toInt = n.toBitVec.toInt * 4 := Word.ofInt?_eq_some.1 hbytes
    have h52 : raw.toInt = 52 + bytes.toInt := Word.ofInt?_eq_some.1 hraw
    have h15 : padded.toInt = raw.toInt + 15 := Word.ofInt?_eq_some.1 hpadded
    have hmin : -2147483648 ≤ bytes.toInt := BitVec.le_toInt bytes
    have hmax : padded.toInt < 2147483648 := BitVec.toInt_lt
    rw [Word.toInt_align16, Word.minInt, Word.maxInt]
    omega
  · rintro ⟨hmin, hmax, hw⟩
    obtain ⟨bytes, hbytes, h4⟩ := Word.exists_ofInt? (i := n.toBitVec.toInt * 4) (by omega) (by omega)
    obtain ⟨raw, hraw, h52⟩ := Word.exists_ofInt? (i := 52 + bytes.toInt) (by omega) (by omega)
    obtain ⟨padded, hpadded, h15⟩ := Word.exists_ofInt? (i := raw.toInt + 15) (by omega) (by omega)
    have hpad : padded.align16 = w := by
      apply BitVec.eq_of_toInt_eq
      rw [Word.toInt_align16, hw]
      omega
    refine Option.bind_eq_some_iff.2 ⟨bytes, hbytes, ?_⟩
    refine Option.bind_eq_some_iff.2 ⟨raw, hraw, ?_⟩
    exact Option.bind_eq_some_iff.2 ⟨padded, hpadded, congrArg some hpad⟩

/-- **The numbers of slots without a frame** are those that make the size overflow: as signed words, these are from
2^29 - 16 on, and below -2^29. -/
theorem totalSize?_eq_none {n : UInt32} :
    totalSize? n = none ↔ 536870896 ≤ n.toNat ∧ n.toNat < 3758096384 := by
  have hsigned := BitVec.toInt_eq_toNat_cond n.toBitVec
  have hlt := n.toNat_lt
  rw [UInt32.toNat_toBitVec] at hsigned
  constructor
  · intro hnone
    by_contra hin
    obtain ⟨w, -, hw⟩ := Word.exists_ofInt? (i := (4 * n.toBitVec.toInt + 67) / 16 * 16)
      (by unfold Word.minInt; omega) (by unfold Word.maxInt; omega)
    have hsome : totalSize? n = some w :=
      totalSize?_eq_some.2 ⟨by unfold Word.minInt; omega, by unfold Word.maxInt; omega, hw⟩
    simp [hnone] at hsome
  · rintro ⟨hlo, hhi⟩
    rw [Option.eq_none_iff_forall_ne_some]
    intro w hw
    obtain ⟨hmin, hmax, -⟩ := totalSize?_eq_some.1 hw
    unfold Word.minInt at hmin
    unfold Word.maxInt at hmax
    omega

theorem exists_ofSlots? {n : UInt32} (h : n.toNat < 536870896) : ∃ f, ofSlots? n = some f := by
  obtain ⟨w, hw⟩ := Option.ne_none_iff_exists'.1 (mt (totalSize?_eq_none (n := n)).1 (by omega))
  exact ⟨⟨n, [], false, w, hw⟩, Option.pmap_eq_some_iff.2 ⟨w, hw, hw, rfl⟩⟩

theorem of_ofSlots? {n : UInt32} (h : ofSlots? n = some f) : f.slots = n.toNat ∧ f.saved = [] ∧ f.hasCalls = false := by
  obtain ⟨w, hw, -, rfl⟩ := Option.pmap_eq_some_iff.1 h
  exact ⟨rfl, rfl, rfl⟩

theorem ofSlots?_eq_none {n : UInt32} : ofSlots? n = none ↔ 536870896 ≤ n.toNat ∧ n.toNat < 3758096384 :=
  Option.pmap_eq_none_iff.trans totalSize?_eq_none

theorem size_eq (h : f.slots ≤ slotLimit) : f.size = bytes f.slots := by
  have hsigned := BitVec.toInt_eq_toNat_cond f.slotCount.toBitVec
  have hslots : f.slotCount.toBitVec.toNat = f.slots := rfl
  obtain ⟨-, -, hsize⟩ := totalSize?_eq_some.1 f.sized
  unfold slotLimit at h
  rw [size, hsize, bytes]
  omega

/-- A frame has room for its slots and the words above them. -/
theorem room (h : f.slots ≤ slotLimit) : 52 + 4 * (f.slots : Int) ≤ f.size := by
  rw [size_eq h, bytes]
  omega

theorem mem_saved_save (f : Frame) (q r : Reg) :
    r ∈ (f.save q).saved ↔ r ∈ f.saved ∨ r = q ∧ q ∈ Reg.calleeSaved := by
  unfold save
  split
  · simp only [List.mem_append, List.mem_singleton]
    grind
  · grind

theorem mem_saved_foldl_save (f : Frame) (l : List Reg) :
    r ∈ (l.foldl save f).saved ↔ r ∈ f.saved ∨ r ∈ l ∧ r ∈ Reg.calleeSaved := by
  induction l generalizing f with
  | nil => simp
  | cons q l ih =>
    rw [List.foldl_cons, ih, mem_saved_save, List.mem_cons]
    grind

theorem foldl_save_slots (f : Frame) (l : List Reg) :
    (l.foldl save f).slots = f.slots ∧ (l.foldl save f).hasCalls = f.hasCalls := by
  induction l generalizing f with
  | nil => exact ⟨rfl, rfl⟩
  | cons q l ih =>
    have h : (f.save q).slots = f.slots ∧ (f.save q).hasCalls = f.hasCalls := by
      unfold save
      split <;> exact ⟨rfl, rfl⟩
    rw [List.foldl_cons, (ih _).1, (ih _).2]
    exact h

def saves (l : List Reg) : List Asm := l.filterMap fun r => (saveOffset? r).map fun o => .sw r o .frame

def restores (l : List Reg) : List Asm := l.filterMap fun r => (saveOffset? r).map fun o => .lw r o .frame

/-- The code that enters a function, if the frame is not too large. -/
def opening (f : Frame) : List Asm :=
  [.addi .stack .stack (-f.size)] ++ (if f.hasCalls then [.sw .ra (f.size - wordSize) .stack] else []) ++
    [.sw .frame (f.size - 2 * wordSize) .stack, .addi .frame .stack f.size] ++ saves f.saved

/-- The code that leaves a function, its last line apart. -/
def closing (f : Frame) : List Asm :=
  restores f.saved.reverse ++ (if f.hasCalls then [.lw .ra (f.size - wordSize) .stack] else []) ++
    [.lw .frame (f.size - 2 * wordSize) .stack, .addi .stack .stack f.size]

theorem prologue_eq (f : Frame) :
    f.prologue = if maxSize < f.size then .error (.frameTooLarge f.size) else .ok f.opening := rfl

theorem epilogue_eq (f : Frame) :
    f.epilogue = if maxSize < f.size then .error (.frameTooLarge f.size) else .ok (f.closing ++ [.ret]) := by
  rw [epilogue, closing, List.append_assoc _ _ [Asm.ret]]
  rfl

theorem isStraight_opening (f : Frame) : ∀ a ∈ f.opening, a.isStraight = true := by
  have hs : ∀ a ∈ saves f.saved, a.isStraight = true := by
    intro a ha
    obtain ⟨r, -, hr⟩ := List.mem_filterMap.1 ha
    obtain ⟨o, -, rfl⟩ := Option.map_eq_some_iff.1 hr
    rfl
  intro a ha
  unfold opening at ha
  cases hc : f.hasCalls <;> simp [hc] at ha <;> grind [Asm.isStraight]

theorem isStraight_closing (f : Frame) : ∀ a ∈ f.closing, a.isStraight = true := by
  have hs : ∀ a ∈ restores f.saved.reverse, a.isStraight = true := by
    intro a ha
    obtain ⟨r, -, hr⟩ := List.mem_filterMap.1 ha
    obtain ⟨o, -, rfl⟩ := Option.map_eq_some_iff.1 hr
    rfl
  intro a ha
  unfold closing at ha
  cases hc : f.hasCalls <;> simp [hc] at ha <;> grind [Asm.isStraight]

/-! ### Saving and restoring registers -/

section

variable (s : Machine)

theorem lines_saves_cons (l : List Reg) (ho : saveOffset? r = some o) :
    s.lines (saves (r :: l)) = ((s.store (s.get .s0 + o) (s.get r)).next).lines (saves l) := by
  have h : saves (r :: l) = .sw r o .frame :: saves l := by simp [saves, ho]
  rw [h]
  rfl

theorem get_lines_saves {l : List Reg} (hl : ∀ r ∈ l, r ∈ Reg.calleeSaved) (q : Reg) :
    (s.lines (saves l)).get q = s.get q := by
  induction l generalizing s with
  | nil => rfl
  | cons r l ih =>
    obtain ⟨o, ho⟩ := exists_saveOffset? (hl r List.mem_cons_self)
    rw [lines_saves_cons s l ho, ih _ fun p hp => hl p (List.mem_cons_of_mem r hp)]
    rfl

/-- Saving changes only the words for the registers saved. -/
theorem mem_lines_saves_of_ne {l : List Reg} (hl : ∀ r ∈ l, r ∈ Reg.calleeSaved) {a : Int}
    (ha : ∀ r ∈ l, ∀ o, saveOffset? r = some o → a ≠ s.get .s0 + o) : (s.lines (saves l)).mem a = s.mem a := by
  induction l generalizing s with
  | nil => rfl
  | cons r l ih =>
    obtain ⟨o, ho⟩ := exists_saveOffset? (hl r List.mem_cons_self)
    rw [lines_saves_cons s l ho, ih]
    · exact s.mem_store_of_ne (ha r List.mem_cons_self o ho) _
    · exact fun p hp => hl p (List.mem_cons_of_mem r hp)
    · exact fun p hp => ha p (List.mem_cons_of_mem r hp)

theorem mem_lines_saves {l : List Reg} (hl : ∀ r ∈ l, r ∈ Reg.calleeSaved) (hq : q ∈ l)
    (ho : saveOffset? q = some o) : (s.lines (saves l)).mem (s.get .s0 + o) = s.get q := by
  induction l generalizing s with
  | nil => simp at hq
  | cons r l ih =>
    obtain ⟨p, hp⟩ := exists_saveOffset? (hl r List.mem_cons_self)
    have hl' : ∀ u ∈ l, u ∈ Reg.calleeSaved := fun u hu => hl u (List.mem_cons_of_mem r hu)
    rw [lines_saves_cons s l hp]
    by_cases hql : q ∈ l
    · exact ih (s.store (s.get .s0 + p) (s.get r)).next hl' hql
    · have hqr : q = r := (List.mem_cons.1 hq).resolve_right hql
      subst hqr
      cases Option.some.inj (ho.symm.trans hp)
      rw [mem_lines_saves_of_ne _ hl']
      · exact s.mem_store_self _ _
      · intro u hu w hw he
        have how : w = o := by
          replace he : s.get .s0 + o = s.get .s0 + w := he
          omega
        exact hql (saveOffset?_inj ho (how ▸ hw) ▸ hu)

theorem lines_restores_cons (l : List Reg) (ho : saveOffset? r = some o) :
    s.lines (restores (r :: l)) = ((s.set r (s.mem (s.get .s0 + o))).next).lines (restores l) := by
  have h : restores (r :: l) = .lw r o .frame :: restores l := by simp [restores, ho]
  rw [h]
  rfl

theorem mem_lines_restores {l : List Reg} (hl : ∀ r ∈ l, r ∈ Reg.calleeSaved) :
    (s.lines (restores l)).mem = s.mem := by
  induction l generalizing s with
  | nil => rfl
  | cons r l ih =>
    obtain ⟨o, ho⟩ := exists_saveOffset? (hl r List.mem_cons_self)
    rw [lines_restores_cons s l ho, ih _ fun p hp => hl p (List.mem_cons_of_mem r hp)]
    rfl

theorem get_lines_restores_of_notMem {l : List Reg} (hl : ∀ r ∈ l, r ∈ Reg.calleeSaved) (hq : q ∉ l) :
    (s.lines (restores l)).get q = s.get q := by
  induction l generalizing s with
  | nil => rfl
  | cons r l ih =>
    obtain ⟨hqr, hql⟩ := not_or.1 (mt List.mem_cons.2 hq)
    obtain ⟨o, ho⟩ := exists_saveOffset? (hl r List.mem_cons_self)
    rw [lines_restores_cons s l ho, ih _ (fun p hp => hl p (List.mem_cons_of_mem r hp)) hql]
    exact s.get_set_of_ne hqr _

theorem get_lines_restores {l : List Reg} (hl : ∀ r ∈ l, r ∈ Reg.calleeSaved) (hq : q ∈ l)
    (ho : saveOffset? q = some o) : (s.lines (restores l)).get q = s.mem (s.get .s0 + o) := by
  have hne : ∀ r ∈ Reg.calleeSaved, r ≠ .s0 ∧ r ≠ .zero := by decide
  induction l generalizing s with
  | nil => simp at hq
  | cons r l ih =>
    have hr := hl r List.mem_cons_self
    have hl' : ∀ u ∈ l, u ∈ Reg.calleeSaved := fun u hu => hl u (List.mem_cons_of_mem r hu)
    obtain ⟨p, hp⟩ := exists_saveOffset? hr
    rw [lines_restores_cons s l hp]
    by_cases hql : q ∈ l
    · rw [ih _ hl' hql, Machine.mem_next, Machine.mem_set, Machine.get_next, s.get_set_of_ne (hne r hr).1.symm]
    · have hqr : q = r := (List.mem_cons.1 hq).resolve_right hql
      subst hqr
      cases Option.some.inj (ho.symm.trans hp)
      rw [get_lines_restores_of_notMem _ hl' hql]
      exact s.get_set_self (hne q hr).2 _

end

end Frame

/-! ### Leaving a function -/

/-- In state `s` of a function entered in state `e`, what is given back on leaving is in its word of the frame. -/
structure Frame.Holds (fr : Frame) (e s : Machine) : Prop where
  sp : s.get .sp = e.get .sp - fr.size
  fp : s.get .s0 = e.get .sp
  ra : if fr.hasCalls then s.mem (e.get .sp - 4) = e.get .ra else s.get .ra = e.get .ra
  callerFrame : s.mem (e.get .sp - 8) = e.get .s0
  saved : ∀ r ∈ fr.saved, ∀ o, saveOffset? r = some o → s.mem (e.get .sp + o) = e.get r

/-- In state `s'`, a function entered in state `e` has been left from state `s`: what the frame held is given back, and
all else is as in `s`. -/
structure Frame.Left (fr : Frame) (e s s' : Machine) : Prop where
  sp : s'.get .sp = e.get .sp
  fp : s'.get .s0 = e.get .s0
  ra : s'.get .ra = e.get .ra
  saved : ∀ r ∈ fr.saved, s'.get r = e.get r
  others : ∀ r, r ≠ .sp → r ≠ .s0 → r ≠ .ra → r ∉ fr.saved → s'.get r = s.get r
  mem : s'.mem = s.mem

namespace Frame.Holds

variable {e s : Machine} {fr : Frame}

theorem get_restores (h : fr.Holds e s) (hs : ∀ r ∈ fr.saved, r ∈ Reg.calleeSaved) {r : Reg} (hr : r ∈ fr.saved) :
    (s.lines (restores fr.saved.reverse)).get r = e.get r := by
  have hs' : ∀ r ∈ fr.saved.reverse, r ∈ Reg.calleeSaved := fun r hr => hs r (List.mem_reverse.1 hr)
  obtain ⟨o, ho⟩ := exists_saveOffset? (hs r hr)
  rw [get_lines_restores s hs' (List.mem_reverse.2 hr) ho, h.fp]
  exact h.saved r hr o ho

/-- The return address comes back, from its word if the function makes calls. -/
theorem reload_ra (h : fr.Holds e s) {s₁ : Machine} (hsp : s₁.get .sp = s.get .sp) (hra : s₁.get .ra = s.get .ra)
    (hmem : s₁.mem = s.mem) : ∃ s₂ : Machine,
      s₁.lines (if fr.hasCalls then [.lw .ra (fr.size - wordSize) .stack] else []) = s₂ ∧
      s₂.get .ra = e.get .ra ∧ (∀ r, r ≠ .ra → s₂.get r = s₁.get r) ∧ s₂.mem = s.mem := by
  have hsaved := h.ra
  cases hc : fr.hasCalls with
  | false =>
    rw [hc] at hsaved
    exact ⟨s₁, rfl, hra.trans hsaved, fun _ _ => rfl, hmem⟩
  | true =>
    rw [hc] at hsaved
    have haddr : s₁.get .sp + (fr.size - wordSize : Int) = e.get .sp - 4 := by
      rw [hsp, h.sp, wordSize]
      omega
    refine ⟨(s₁.set .ra (s₁.mem (s₁.get .sp + (fr.size - wordSize)))).next, rfl, ?_, ?_, hmem⟩
    · rw [Machine.get_next, s₁.get_set_self (by decide), haddr, hmem]
      exact hsaved
    · intro r hr
      rw [Machine.get_next, s₁.get_set_of_ne hr]

/-- **Leaving a function** gives back what its frame holds. -/
theorem closing (h : fr.Holds e s) (hs : ∀ r ∈ fr.saved, r ∈ Reg.calleeSaved) : fr.Left e s (s.lines fr.closing) := by
  have hs' : ∀ r ∈ fr.saved.reverse, r ∈ Reg.calleeSaved := fun r hr => hs r (List.mem_reverse.1 hr)
  let s₁ := s.lines (restores fr.saved.reverse)
  have hother : ∀ r, r ∉ fr.saved → s₁.get r = s.get r := fun r hr =>
    get_lines_restores_of_notMem s hs' fun hm => hr (List.mem_reverse.1 hm)
  have hptr : ∀ r ∈ [Reg.sp, .s0, .ra], r ∉ fr.saved := by
    have hne : ∀ r ∈ [Reg.sp, .s0, .ra], r ∉ Reg.calleeSaved := by decide
    exact fun r hr hm => hne r hr (hs r hm)
  obtain ⟨s₂, hs₂, hra₂, hget₂, hmem₂⟩ := h.reload_ra (hother .sp (hptr _ (by simp))) (hother .ra (hptr _ (by simp)))
    (mem_lines_restores s hs')
  let s₃ := (s₂.set .s0 (s₂.mem (s₂.get .sp + (fr.size - 2 * wordSize)))).next
  have hlines : s.lines fr.closing = (s₃.set .sp (s₃.get .sp + fr.size)).next := by
    rw [Frame.closing, Machine.lines_append, Machine.lines_append]
    show (s₁.lines _).lines _ = _
    rw [hs₂]
    rfl
  have hget : ∀ r, r ≠ .sp → r ≠ .s0 → (s.lines fr.closing).get r = s₂.get r := by
    intro r h1 h2
    rw [hlines, Machine.get_next, s₃.get_set_of_ne h1]
    exact s₂.get_set_of_ne h2 _
  have hsp₂ : s₂.get .sp = e.get .sp - fr.size := by
    rw [hget₂ .sp (by decide), hother .sp (hptr _ (by simp)), h.sp]
  refine ⟨?_, ?_, ?_, ?_, ?_, ?_⟩
  · have hsp₃ : s₃.get .sp = s₂.get .sp := rfl
    rw [hlines, Machine.get_next, s₃.get_set_self (by decide), hsp₃, hsp₂]
    omega
  · have haddr : s₂.get .sp + (fr.size - 2 * wordSize : Int) = e.get .sp - 8 := by
      rw [hsp₂, wordSize]
      omega
    rw [hlines, Machine.get_next, s₃.get_set_of_ne (by decide), ← h.callerFrame, ← haddr, ← hmem₂]
    exact s₂.get_set_self (by decide) _
  · rw [hget .ra (by decide) (by decide), hra₂]
  · intro r hr
    have hne : ∀ r ∈ Reg.calleeSaved, r ≠ .sp ∧ r ≠ .s0 ∧ r ≠ .ra := by decide
    obtain ⟨h1, h2, h3⟩ := hne r (hs r hr)
    rw [hget r h1 h2, hget₂ r h3]
    exact h.get_restores hs hr
  · intro r h1 h2 h3 hr
    rw [hget r h1 h2, hget₂ r h3, hother r hr]
  · rw [hlines]
    exact hmem₂

end Frame.Holds

/-! ### While the function runs -/

/-- In state `s` of a function entered in state `e`, what the caller wants back is untouched or in its word. -/
structure InFrame (e : Machine) (fr : Frame) (n : Nat) (s : Machine) : Prop where
  sp : s.get .sp = e.get .sp - fr.size
  fp : s.get .s0 = e.get .sp
  ra : if fr.hasCalls then s.mem (e.get .sp - 4) = e.get .ra else s.get .ra = e.get .ra
  callerFrame : s.mem (e.get .sp - 8) = e.get .s0
  saved : ∀ r ∈ fr.saved, ∀ o, Frame.saveOffset? r = some o → s.mem (e.get .sp + o) = e.get r
  kept : ∀ r ∈ Reg.calleeSaved, r ∉ fr.saved → s.get r = e.get r
  mem : ∀ a, e.get .sp ≤ a → ¬ Subroutine.IsParamHome n (a - e.get .sp) → s.mem a = e.mem a

/-- The state `s` in which a function returns that was entered in state `e`: the caller has everything back. -/
structure Restored (e : Machine) (n : Nat) (s : Machine) : Prop where
  sp : s.get .sp = e.get .sp
  fp : s.get .s0 = e.get .s0
  ra : s.get .ra = e.get .ra
  saved : ∀ r ∈ Reg.calleeSaved, s.get r = e.get r
  mem : ∀ a, e.get .sp ≤ a → ¬ Subroutine.IsParamHome n (a - e.get .sp) → s.mem a = e.mem a

namespace Frame

variable {fr : Frame}

private theorem opening_head (fr : Frame) (e : Machine) : ∃ s : Machine, e.lines fr.opening = s.lines (saves fr.saved) ∧
    s.get .sp = e.get .sp - fr.size ∧ s.get .s0 = e.get .sp ∧ (∀ r, r ≠ .sp → r ≠ .s0 → s.get r = e.get r) ∧
    (fr.hasCalls = true → s.mem (e.get .sp - 4) = e.get .ra) ∧ s.mem (e.get .sp - 8) = e.get .s0 ∧
    ∀ a, a ≠ e.get .sp - 4 → a ≠ e.get .sp - 8 → s.mem a = e.mem a := by
  let s₁ := (e.set .sp (e.get .sp + -fr.size)).next
  have hsp₁ : s₁.get .sp = e.get .sp - fr.size := by
    have h := e.get_set_self (show Reg.sp ≠ .zero by decide) (e.get .sp + -fr.size)
    show (e.set .sp (e.get .sp + -fr.size)).get .sp = _
    omega
  have hget₁ : ∀ r, r ≠ .sp → s₁.get r = e.get r := fun r hr => e.get_set_of_ne hr _
  -- the return address is stored only in a function that makes calls
  obtain ⟨s₂, hs₂, hget₂, hra₂, hmem₂⟩ : ∃ s₂ : Machine,
      s₁.lines (if fr.hasCalls then [.sw .ra (fr.size - wordSize) .stack] else []) = s₂ ∧
      (∀ r, s₂.get r = s₁.get r) ∧ (fr.hasCalls = true → s₂.mem (e.get .sp - 4) = e.get .ra) ∧
      ∀ a, a ≠ e.get .sp - 4 → s₂.mem a = e.mem a := by
    cases fr.hasCalls with
    | false => exact ⟨s₁, rfl, fun _ => rfl, by simp, fun _ _ => rfl⟩
    | true =>
      have haddr : s₁.get .sp + (fr.size - wordSize : Int) = e.get .sp - 4 := by
        rw [hsp₁, wordSize]
        omega
      refine ⟨(s₁.store (s₁.get .sp + (fr.size - wordSize)) (s₁.get .ra)).next, rfl, fun _ => rfl, fun _ => ?_, ?_⟩
      · rw [haddr, ← hget₁ .ra (by decide)]
        exact s₁.mem_store_self _ _
      · intro a ha
        rw [haddr]
        exact s₁.mem_store_of_ne ha _
  let s₃ := (s₂.store (s₂.get .sp + (fr.size - 2 * wordSize)) (s₂.get .s0)).next
  have haddr₃ : s₂.get .sp + (fr.size - 2 * wordSize : Int) = e.get .sp - 8 := by
    rw [hget₂, hsp₁, wordSize]
    omega
  have hget₃ : ∀ r, s₃.get r = s₁.get r := hget₂
  have hmem₃ : ∀ a, a ≠ e.get .sp - 8 → s₃.mem a = s₂.mem a := by
    intro a ha
    rw [← haddr₃] at ha
    exact s₂.mem_store_of_ne ha _
  refine ⟨(s₃.set .s0 (s₃.get .sp + fr.size)).next, ?_, ?_, ?_, ?_, ?_, ?_, ?_⟩
  · rw [opening, Machine.lines_append, Machine.lines_append, Machine.lines_append]
    show (Machine.lines (s₁.lines _) _).lines _ = _
    rw [hs₂]
    rfl
  · rw [Machine.get_next, s₃.get_set_of_ne (by decide), hget₃, hsp₁]
  · rw [Machine.get_next, s₃.get_set_self (by decide), hget₃, hsp₁]
    omega
  · intro r hsp hs0
    rw [Machine.get_next, s₃.get_set_of_ne hs0, hget₃, hget₁ r hsp]
  · intro hc
    rw [Machine.mem_next, Machine.mem_set, hmem₃ _ (by omega)]
    exact hra₂ hc
  · rw [Machine.mem_next, Machine.mem_set, ← hget₁ .s0 (by decide), ← hget₂, ← haddr₃]
    exact s₂.mem_store_self _ _
  · intro a h4 h8
    rw [Machine.mem_next, Machine.mem_set, hmem₃ a h8, hmem₂ a h4]

theorem mem_lines_opening (hs : ∀ r ∈ fr.saved, r ∈ Reg.calleeSaved) {e : Machine} {a : Int}
    (ha : ∀ r c, cell? r = some c → a ≠ e.get .sp + c) : (e.lines fr.opening).mem a = e.mem a := by
  obtain ⟨s, hlines, -, hfp, -, -, -, hmem⟩ := opening_head fr e
  rw [hlines, mem_lines_saves_of_ne s hs]
  · exact hmem a (ha .ra (-4) rfl) (ha .s0 (-8) rfl)
  · intro r _ o ho
    rw [hfp]
    exact ha r o (cell?_of_saveOffset? ho)

/-- **Entering a function** saves what the caller wants back, and changes no other register and no word of the
caller's. -/
theorem inFrame_opening (hs : ∀ r ∈ fr.saved, r ∈ Reg.calleeSaved) (n : Nat) (e : Machine) :
    InFrame e fr n (e.lines fr.opening) ∧ (∀ r, r ≠ .sp → r ≠ .s0 → (e.lines fr.opening).get r = e.get r) ∧
      ∀ a, e.get .sp ≤ a → (e.lines fr.opening).mem a = e.mem a := by
  obtain ⟨s, hlines, hsp, hfp, hget, hra, hcaller, hmem⟩ := opening_head fr e
  rw [hlines]
  have hsaved : ∀ r ∈ Reg.calleeSaved, r ≠ .sp ∧ r ≠ .s0 := by decide
  -- the words above and below those of the saved registers
  have hother : ∀ a, (∀ o : Int, -52 ≤ o → o ≤ -12 → a ≠ e.get .sp + o) →
      (s.lines (saves fr.saved)).mem a = s.mem a := by
    intro a ha
    refine mem_lines_saves_of_ne s hs fun r _ o ho => ?_
    obtain ⟨hlo, hhi⟩ := saveOffset?_range ho
    rw [hfp]
    exact ha o hlo hhi
  have habove : ∀ a, e.get .sp ≤ a → (s.lines (saves fr.saved)).mem a = e.mem a := by
    intro a ha
    rw [hother a fun o _ _ => by omega, hmem a (by omega) (by omega)]
  refine ⟨⟨?_, ?_, ?_, ?_, ?_, ?_, ?_⟩, ?_, habove⟩
  · rw [get_lines_saves s hs, hsp]
  · rw [get_lines_saves s hs, hfp]
  · split
    · rename_i hc
      rw [hother _ fun o _ _ => by omega]
      exact hra hc
    · rw [get_lines_saves s hs]
      exact hget .ra (by decide) (by decide)
  · rw [hother _ fun o _ _ => by omega]
    exact hcaller
  · intro r hr o ho
    have h := mem_lines_saves s hs hr ho
    obtain ⟨h1, h2⟩ := hsaved r (hs r hr)
    rw [hfp, hget r h1 h2] at h
    exact h
  · intro r hr _
    rw [get_lines_saves s hs]
    exact hget r (hsaved r hr).1 (hsaved r hr).2
  · exact fun a ha _ => habove a ha
  · intro r h1 h2
    rw [get_lines_saves s hs]
    exact hget r h1 h2

def MayWrite (fr : Frame) (r : Reg) : Prop := r ∈ Reg.allocatable ∧ (r ∈ Reg.calleeSaved → r ∈ fr.saved)

/-- The word at this offset from the frame pointer may be the home of a temporary. -/
def IsHome (fr : Frame) (n : Nat) (o : Int) : Prop :=
  Subroutine.IsParamHome n o ∨ ∃ k < fr.slots, o = slotOffset k

/-- The line may stand in the body of a function with this frame and `n` parameters. -/
def Fits (fr : Frame) (n : Nat) : Asm → Prop
  | .alu _ rd _ _ | .li rd _ | .unary _ rd _ | .lw rd _ _ => fr.MayWrite rd
  | .sw _ o base => base = .frame ∧ fr.IsHome n o
  | .call _ => fr.hasCalls = true
  | .j _ | .branch _ _ _ | .label _ | .comment _ => True
  | .addi _ _ _ | .ret => False

/-- Homes lie above or below the words that are saved on entry. -/
theorem IsHome.range {n : Nat} {o : Int} (h : fr.IsHome n o) : 0 ≤ o ∨ o ≤ -56 := by
  rcases h with ⟨i, h8, -, rfl⟩ | ⟨k, -, rfl⟩
  · exact .inl (by omega)
  · rw [Subroutine.slotOffset_eq]
    exact .inr (by omega)

end Frame

namespace InFrame

variable {e s s' : Machine} {fr : Frame} {n : Nat}

/-- What an allocatable register holds is none of the frame's business, unless it is callee-saved. -/
theorem set (h : InFrame e fr n s) {r : Reg} (hr : fr.MayWrite r) (x : Int) : InFrame e fr n (s.set r x) := by
  have hne : ∀ r ∈ Reg.allocatable, Reg.sp ≠ r ∧ Reg.s0 ≠ r ∧ Reg.ra ≠ r := by decide
  obtain ⟨hsp, hfp, hra⟩ := hne r hr.1
  refine ⟨?_, ?_, ?_, h.callerFrame, h.saved, ?_, h.mem⟩
  · rw [s.get_set_of_ne hsp, h.sp]
  · rw [s.get_set_of_ne hfp, h.fp]
  · rw [s.get_set_of_ne hra]
    exact h.ra
  · intro q hq hn
    have hqr : q ≠ r := by
      rintro rfl
      exact hn (hr.2 hq)
    rw [s.get_set_of_ne hqr, h.kept q hq hn]

/-- The homes of temporaries are apart from the words that are saved on entry. -/
theorem store (h : InFrame e fr n s) {o : Int} (ho : fr.IsHome n o) (x : Int) :
    InFrame e fr n (s.store (s.get .s0 + o) x) := by
  have hne : ∀ p : Int, -52 ≤ p → p ≤ -4 → (s.store (s.get .s0 + o) x).mem (e.get .sp + p) = s.mem (e.get .sp + p) := by
    intro p hlo hhi
    refine s.mem_store_of_ne ?_ x
    rw [h.fp]
    rcases ho.range with hr | hr <;> omega
  refine ⟨h.sp, h.fp, ?_, ?_, ?_, h.kept, ?_⟩
  · have hra := h.ra
    split at hra
    · rename_i hc
      rw [if_pos hc]
      rw [← hra]
      exact hne (-4) (by omega) (by omega)
    · rename_i hc
      rw [if_neg hc]
      exact hra
  · rw [← h.callerFrame]
    exact hne (-8) (by omega) (by omega)
  · intro r hr p hp
    obtain ⟨hlo, hhi⟩ := Frame.saveOffset?_range hp
    rw [hne p hlo (by omega)]
    exact h.saved r hr p hp
  · intro a ha hn
    rw [s.mem_store_of_ne, h.mem a ha hn]
    rw [h.fp]
    rintro rfl
    rcases ho with hp | ⟨k, -, hk⟩
    · exact hn (by rw [show e.get .sp + o - e.get .sp = o by omega]; exact hp)
    · rw [Subroutine.slotOffset_eq] at hk
      omega

theorem jump (h : InFrame e fr n s) (q : Nat) : InFrame e fr n { s with pc := q } := { h with }

/-- **Lines that fit keep the frame.** -/
theorem exec? (h : InFrame e fr n s) {code : List Asm} {a : Asm} (ha : fr.Fits n a) (hx : s.exec? code a = some s') :
    InFrame e fr n s' := by
  cases a with
  | alu op rd rs rt =>
    cases Option.some.inj hx
    exact (h.set ha _).jump _
  | li rd imm =>
    cases Option.some.inj hx
    exact (h.set ha _).jump _
  | unary op rd rs =>
    cases Option.some.inj hx
    exact (h.set ha _).jump _
  | lw rd o base =>
    cases Option.some.inj hx
    exact (h.set ha _).jump _
  | sw rs o base =>
    cases Option.some.inj hx
    obtain ⟨rfl, ho⟩ := ha
    exact (h.store ho _).jump _
  | j l =>
    obtain ⟨q, -, rfl⟩ := Option.map_eq_some_iff.1 hx
    exact h.jump q
  | branch test rs l =>
    rw [Machine.exec?] at hx
    split at hx
    · obtain ⟨q, -, rfl⟩ := Option.map_eq_some_iff.1 hx
      exact h.jump q
    · cases Option.some.inj hx
      exact h.jump _
  | label | comment =>
    cases Option.some.inj hx
    exact h.jump _
  | addi | ret => exact absurd ha id
  | call => simp [Machine.exec?] at hx

/-- **Calls keep the frame**, which lies above the stack pointer, if the return address is in it. -/
theorem returns (h : InFrame e fr n s) (hsize : fr.slots ≤ Frame.slotLimit) (hc : fr.hasCalls = true) {x : Option Word}
    (hr : s.Returns x s') : InFrame e fr n s' := by
  have hroom := Frame.room hsize
  have hmem : ∀ p : Int, -52 ≤ p → s'.mem (e.get .sp + p) = s.mem (e.get .sp + p) := by
    intro p hp
    refine hr.mem _ ?_
    rw [h.sp]
    omega
  refine ⟨hr.sp.trans h.sp, hr.fp.trans h.fp, ?_, ?_, ?_, ?_, ?_⟩
  · have hra := h.ra
    rw [if_pos hc] at hra ⊢
    rw [← hra]
    exact hmem (-4) (by omega)
  · rw [← h.callerFrame]
    exact hmem (-8) (by omega)
  · intro r hm o ho
    rw [hmem o (Frame.saveOffset?_range ho).1]
    exact h.saved r hm o ho
  · intro r hm hn
    rw [hr.saved r hm, h.kept r hm hn]
  · intro a ha hn
    rw [hr.mem a (by rw [h.sp]; omega), h.mem a ha hn]

theorem holds (h : InFrame e fr n s) : fr.Holds e s := ⟨h.sp, h.fp, h.ra, h.callerFrame, h.saved⟩

/-- **Leaving a function** gives the caller everything back, and changes no other register and no memory. -/
theorem closing (h : InFrame e fr n s) (hs : ∀ r ∈ fr.saved, r ∈ Reg.calleeSaved) :
    Restored e n (s.lines fr.closing) ∧ ∀ r ∈ Reg.callerSaved, (s.lines fr.closing).get r = s.get r := by
  have hleft := h.holds.closing hs
  refine ⟨⟨hleft.sp, hleft.fp, hleft.ra, fun r hr => ?_, fun a ha hn => ?_⟩, fun r hr => ?_⟩
  · by_cases hm : r ∈ fr.saved
    · exact hleft.saved r hm
    · have hne : ∀ r ∈ Reg.calleeSaved, r ≠ .sp ∧ r ≠ .s0 ∧ r ≠ .ra := by decide
      obtain ⟨hsp, hfp, hra⟩ := hne r hr
      rw [hleft.others r hsp hfp hra hm, h.kept r hr hm]
  · rw [hleft.mem, h.mem a ha hn]
  · have hne : ∀ r ∈ Reg.callerSaved, r ≠ .sp ∧ r ≠ .s0 ∧ r ≠ .ra ∧ r ∉ Reg.calleeSaved := by decide
    obtain ⟨hsp, hfp, hra, hcs⟩ := hne r hr
    exact hleft.others r hsp hfp hra fun hm => hcs (hs r hm)

end InFrame

/-! ### Registers that instructions name

A function whose instructions name registers writes them, and a callee-saved one may not be saved.  The rest of the
frame is as if these registers had held on entry what they hold now.
-/

/-- The states differ at most in the program counter and the registers `named`. -/
structure Machine.SameBut (named : List Reg) (e e' : Machine) : Prop where
  get : ∀ {r}, r ∉ named → e'.get r = e.get r
  mem : e'.mem = e.mem

/-- As `InFrame`, but for the registers `named`. -/
def InFrameBut (named : List Reg) (e : Machine) (fr : Frame) (n : Nat) (s : Machine) : Prop :=
  ∃ e', e.SameBut named e' ∧ InFrame e' fr n s

/-- As `Restored`, but for the registers `named`. -/
def RestoredBut (named : List Reg) (e : Machine) (n : Nat) (s : Machine) : Prop :=
  ∃ e', e.SameBut named e' ∧ Restored e' n s

section

variable {named : List Reg} {e e' s s' : Machine} {fr : Frame} {n : Nat} {r : Reg}

theorem Machine.SameBut.refl (named : List Reg) (e : Machine) : e.SameBut named e := ⟨fun _ => rfl, rfl⟩

theorem Machine.SameBut.set (h : e.SameBut named e') (hr : r ∈ named) (x : Int) : e.SameBut named (e'.set r x) where
  get := by
    intro q hq
    have hne : q ≠ r := by
      rintro rfl
      exact hq hr
    rw [e'.get_set_of_ne hne, h.get hq]
  mem := h.mem

/-- A register that is not saved may as well have been written before the function was entered. -/
theorem InFrame.set_both (h : InFrame e fr n s) (hr : r ∈ Reg.allocatable) (hs : r ∉ fr.saved) (x : Int) :
    InFrame (e.set r x) fr n (s.set r x) := by
  have hne : ∀ r ∈ Reg.allocatable, Reg.sp ≠ r ∧ Reg.s0 ≠ r ∧ Reg.ra ≠ r ∧ r ≠ .zero := by decide
  obtain ⟨hsp, hfp, hra, h0⟩ := hne r hr
  have he : (e.set r x).get .sp = e.get .sp := e.get_set_of_ne hsp x
  refine ⟨?_, ?_, ?_, ?_, ?_, ?_, ?_⟩
  · rw [he, s.get_set_of_ne hsp, h.sp]
  · rw [he, s.get_set_of_ne hfp, h.fp]
  · rw [he, s.get_set_of_ne hra, e.get_set_of_ne hra]
    exact h.ra
  · rw [he, e.get_set_of_ne hfp]
    exact h.callerFrame
  · intro q hq o ho
    have hqr : q ≠ r := by
      rintro rfl
      exact hs hq
    rw [he, e.get_set_of_ne hqr]
    exact h.saved q hq o ho
  · intro q hq hn
    by_cases hqr : q = r
    · rw [hqr, s.get_set_self h0, e.get_set_self h0]
    · rw [s.get_set_of_ne hqr, e.get_set_of_ne hqr, h.kept q hq hn]
  · rw [he]
    exact h.mem

namespace InFrameBut

theorem of_inFrame (h : InFrame e fr n s) : InFrameBut named e fr n s := ⟨e, .refl named e, h⟩

theorem jump (h : InFrameBut named e fr n s) (q : Nat) : InFrameBut named e fr n { s with pc := q } :=
  let ⟨e', hsame, hf⟩ := h
  ⟨e', hsame, hf.jump q⟩

theorem store (h : InFrameBut named e fr n s) {o : Int} (ho : fr.IsHome n o) (x : Int) :
    InFrameBut named e fr n (s.store (s.get .s0 + o) x) :=
  let ⟨e', hsame, hf⟩ := h
  ⟨e', hsame, hf.store ho x⟩

theorem returns (h : InFrameBut named e fr n s) (hsize : fr.slots ≤ Frame.slotLimit) (hc : fr.hasCalls = true)
    {x : Option Word} (hr : s.Returns x s') : InFrameBut named e fr n s' :=
  let ⟨e', hsame, hf⟩ := h
  ⟨e', hsame, hf.returns hsize hc hr⟩

theorem set (h : InFrameBut named e fr n s) (hr : r ∈ named ∧ r ∈ Reg.allocatable ∨ fr.MayWrite r) (x : Int) :
    InFrameBut named e fr n (s.set r x) := by
  obtain ⟨e', hsame, hf⟩ := h
  by_cases hw : fr.MayWrite r
  · exact ⟨e', hsame, hf.set hw x⟩
  · obtain ⟨hn, ha⟩ := hr.resolve_right hw
    exact ⟨e'.set r x, hsame.set hn x, hf.set_both ha (fun hm => hw ⟨ha, fun _ => hm⟩) x⟩

theorem sp (h : InFrameBut named e fr n s) : s.get .sp = s.get .s0 - fr.size := by
  obtain ⟨e', -, hf⟩ := h
  rw [hf.sp, hf.fp]

theorem closing (h : InFrameBut named e fr n s) (hs : ∀ r ∈ fr.saved, r ∈ Reg.calleeSaved) :
    RestoredBut named e n (s.lines fr.closing) ∧ ∀ r ∈ Reg.callerSaved, (s.lines fr.closing).get r = s.get r := by
  obtain ⟨e', hsame, hf⟩ := h
  obtain ⟨hback, hget⟩ := hf.closing hs
  exact ⟨⟨e', hsame, hback⟩, hget⟩

end InFrameBut

/-- With no register named, everything is given back. -/
theorem RestoredBut.restored (h : RestoredBut [] e n s) : Restored e n s := by
  obtain ⟨e', hsame, hback⟩ := h
  have hget : ∀ r, e'.get r = e.get r := fun r => hsame.get List.not_mem_nil
  refine ⟨?_, ?_, ?_, fun r hr => ?_, fun a ha hn => ?_⟩
  · rw [hback.sp, hget]
  · rw [hback.fp, hget]
  · rw [hback.ra, hget]
  · rw [hback.saved r hr, hget]
  · rw [← hsame.mem]
    exact hback.mem a (by rw [hget]; exact ha) (by rw [hget]; exact hn)

end

end ThreeAddress
