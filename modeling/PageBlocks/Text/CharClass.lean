/-!
# Classes of characters

A class of characters as ranges of code points, as the tables of Unicode give
its properties.
-/

namespace PageBlocks

/-- Ranges of code points, each by its first and its last. -/
abbrev CharClass := List (Nat × Nat)

/-- Whether a character is in a class. -/
def CharClass.contains (ranges : CharClass) (c : Char) : Bool :=
  ranges.any fun range => range.1 ≤ c.toNat && c.toNat ≤ range.2

end PageBlocks
