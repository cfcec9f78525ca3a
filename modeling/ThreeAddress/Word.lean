/-!
Machine words: 32 bits, and the text of a word is its signed value.  Code that runs adds and multiplies them modulo
2^32; where sizes are computed, a result that is no word is none (`Word.add?`, `Word.mul?`).
-/

namespace ThreeAddress

/-- A 32-bit machine word. -/
abbrev Word := BitVec 32

namespace Word

def minInt : Int := -2147483648

def maxInt : Int := 2147483647

/-- The word with the given signed value, if there is one. -/
def ofInt? (i : Int) : Option Word := if minInt ≤ i ∧ i ≤ maxInt then some (BitVec.ofInt 32 i) else none

@[simp] theorem ofInt?_toInt (w : Word) : ofInt? w.toInt = some w := by
  have hmin : -2147483648 ≤ w.toInt := BitVec.le_toInt w
  have hmax : w.toInt < 2147483648 := BitVec.toInt_lt
  rw [ofInt?, if_pos ⟨hmin, Int.le_of_lt_add_one hmax⟩, BitVec.ofInt_toInt]

theorem ofInt?_eq_some {i : Int} {w : Word} : ofInt? i = some w ↔ w.toInt = i := by
  constructor
  · intro h
    rw [ofInt?] at h
    split at h
    · rename_i hi
      unfold minInt maxInt at hi
      rw [← Option.some.inj h]
      exact BitVec.toInt_ofInt_eq_self (by decide) hi.1 (by omega)
    · simp at h
  · rintro rfl
    exact ofInt?_toInt w

theorem exists_ofInt? {i : Int} (hmin : minInt ≤ i) (hmax : i ≤ maxInt) : ∃ w, ofInt? i = some w ∧ w.toInt = i := by
  have h : ofInt? i = some (BitVec.ofInt 32 i) := if_pos ⟨hmin, hmax⟩
  exact ⟨_, h, ofInt?_eq_some.1 h⟩

/-- The sum, if it is a word. -/
def add? (x y : Word) : Option Word := ofInt? (x.toInt + y.toInt)

/-- The product, if it is a word. -/
def mul? (x y : Word) : Option Word := ofInt? (x.toInt * y.toInt)

/-- The word without its last four bits. -/
def align16 (w : Word) : Word := w &&& ~~~15#32

/-- Clearing the last four bits rounds down to a multiple of 16. -/
theorem toInt_align16 (w : Word) : w.align16.toInt = w.toInt / 16 * 16 := by
  have hmask : ∀ i : Fin 32, (~~~15#32).getLsbD i = decide (4 ≤ i.val) := by decide
  have hbits : w.align16 = (w >>> 4) <<< 4 := by
    refine BitVec.eq_of_getLsbD_eq fun i hi => ?_
    rw [align16, BitVec.getLsbD_and, hmask ⟨i, hi⟩, BitVec.getLsbD_shiftLeft, BitVec.getLsbD_ushiftRight]
    by_cases h : i < 4
    · simp [h, Nat.not_le_of_lt h]
    · simp [h, hi, Nat.le_of_not_lt h, Nat.add_sub_cancel' (Nat.le_of_not_lt h)]
  have hnat : w.align16.toNat = w.toNat / 16 * 16 := by
    rw [hbits, BitVec.toNat_shiftLeft, BitVec.toNat_ushiftRight, Nat.shiftRight_eq_div_pow, Nat.shiftLeft_eq]
    have := w.isLt
    omega
  have := w.isLt
  rw [BitVec.toInt_eq_toNat_cond, BitVec.toInt_eq_toNat_cond, hnat]
  split <;> split <;> omega

def text (w : Word) : String := toString w.toInt

end Word

end ThreeAddress
