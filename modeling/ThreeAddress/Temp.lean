import ThreeAddress.OrdSet

/-!
Temporaries: the variables of three-address code, numbered by 32-bit naturals and ordered by number.
-/

namespace ThreeAddress

structure Temp where
  id : UInt32
  deriving DecidableEq

namespace Temp

def index (t : Temp) : Nat := t.id.toNat

theorem index_inj {t u : Temp} : t.index = u.index ↔ t = u := by
  cases t; cases u
  rw [Temp.mk.injEq]
  exact UInt32.toNat_inj

instance : LT Temp := ⟨fun s t => s.id.toNat < t.id.toNat⟩

instance : DecidableLT Temp := fun s t => inferInstanceAs (Decidable (s.id.toNat < t.id.toNat))

instance : Ordered Temp where
  lt_irrefl t := Nat.lt_irrefl t.id.toNat
  lt_trans h h' := Nat.lt_trans h h'
  lt_connex s t := by
    rcases Nat.lt_trichotomy s.id.toNat t.id.toNat with h | h | h
    · exact Or.inl h
    · exact Or.inr (Or.inl (index_inj.1 h))
    · exact Or.inr (Or.inr h)

/-- The temporary at a place of a table, whose number is the place cut to 32 bits. -/
def ofIndex (i : Nat) : Temp := ⟨UInt32.ofNat i⟩

theorem index_lt (t : Temp) : t.index < 4294967296 := t.id.toNat_lt

@[simp] theorem ofIndex_index (t : Temp) : ofIndex t.index = t := by
  simp [ofIndex, index]

theorem index_ofIndex {i : Nat} (h : i < 4294967296) : (ofIndex i).index = i := UInt32.toNat_ofNat_of_lt' h

/-- The temporary with the given number, if the number has 32 bits. -/
def ofNat? (n : Nat) : Option Temp := if n < Nat.pow 2 32 then some ⟨UInt32.ofNat n⟩ else none

/-- The temporary as code shows it. -/
def text (t : Temp) : String := "_T" ++ toString t.index

/-- One more than the greatest number in the list: the size of a table that all of them index. -/
def tableSize (ts : List Temp) : Nat := ts.foldr (fun t n => max (t.index + 1) n) 0

end Temp

abbrev TempSet := OrdSet Temp

/-- The set as reports show it. -/
def TempSet.text (s : TempSet) : String := s.render fun t => "Temp(" ++ toString t.index ++ ")"

end ThreeAddress
