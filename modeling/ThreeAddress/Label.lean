/-!
Labels: the names of functions and of places in their code.  Any text is a label.
-/

namespace ThreeAddress

structure Label where
  name : String
  deriving DecidableEq

namespace Label

/-- The `n`-th generated block label. -/
def block (n : Nat) : Label := ⟨"_L" ++ toString n⟩

/-- The label of the code that leaves the function named `f`. -/
def exit (f : Label) : Label := ⟨f.name ++ "_exit"⟩

end Label

end ThreeAddress
