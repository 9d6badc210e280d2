/-!
# Transliteration to ASCII

A name made from a label is made of the ASCII text that stands for the label.
Which text stands for a character is left open here: it is a matter of tables,
and what is said of names holds over all of them. What every table has in common
is what `ofTable` adds to it.
-/

namespace PageBlocks

/-- The text that stands for each character. -/
abbrev Transliteration := Char → List Char

namespace Transliteration

/-- The transliteration by a table of code points. ASCII stands for itself, and a character that is
not in the table is a separator. -/
def ofTable (table : List (Nat × String)) : Transliteration := fun c =>
  if c.toNat < 0x80 then [c]
  else ((table.find? fun entry => entry.1 == c.toNat).map (·.2.toList)).getD ['-']

/-- ASCII stands for itself. -/
theorem ofTable_of_ascii (table : List (Nat × String)) {c : Char} (h : c.toNat < 0x80) :
    ofTable table c = [c] := by
  simp [ofTable, h]

end Transliteration

end PageBlocks
