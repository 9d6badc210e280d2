import PageBlocks.Registry.Build

/-!
# What the program registers definitions with

The generators and the length of chains are fixed here, and so are the texts for
characters outside ASCII. The table is a choice: letters and signs of Western
Europe, and a few of other scripts. Definitions with labels in other letters
need another one, and nothing else in the program depends on it.
-/

namespace PageBlocks

namespace Program

/-- Texts for characters outside ASCII, by code point. -/
def letterTable : List (Nat × String) := [
  (0x00A0, " "), (0x00A3, "PS"), (0x00A9, "(c)"), (0x00B2, "2"), (0x00BD, "1/2"), (0x00C0, "A"),
  (0x00C1, "A"), (0x00C2, "A"), (0x00C3, "A"), (0x00C4, "A"), (0x00C5, "A"), (0x00C6, "AE"),
  (0x00C7, "C"), (0x00C8, "E"), (0x00C9, "E"), (0x00CA, "E"), (0x00CB, "E"), (0x00CC, "I"),
  (0x00CD, "I"), (0x00CE, "I"), (0x00CF, "I"), (0x00D1, "N"), (0x00D2, "O"), (0x00D3, "O"),
  (0x00D4, "O"), (0x00D5, "O"), (0x00D6, "O"), (0x00D8, "O"), (0x00D9, "U"), (0x00DA, "U"),
  (0x00DB, "U"), (0x00DC, "U"), (0x00DD, "Y"), (0x00DE, "Th"), (0x00DF, "ss"), (0x00E0, "a"),
  (0x00E1, "a"), (0x00E2, "a"), (0x00E3, "a"), (0x00E4, "a"), (0x00E5, "a"), (0x00E7, "c"),
  (0x00E8, "e"), (0x00E9, "e"), (0x00EA, "e"), (0x00EB, "e"), (0x00EC, "i"), (0x00ED, "i"),
  (0x00EE, "i"), (0x00EF, "i"), (0x00F0, "d"), (0x00F1, "n"), (0x00F2, "o"), (0x00F3, "o"),
  (0x00F4, "o"), (0x00F5, "o"), (0x00F6, "o"), (0x00F8, "o"), (0x00F9, "u"), (0x00FA, "u"),
  (0x00FB, "u"), (0x00FC, "u"), (0x00FD, "y"), (0x00FF, "y"), (0x0107, "c"), (0x010C, "C"),
  (0x0110, "D"), (0x0111, "d"), (0x0130, "I"), (0x0131, "i"), (0x0141, "L"), (0x0152, "OE"),
  (0x0153, "oe"), (0x0160, "S"), (0x0178, "Y"), (0x017E, "z"), (0x01C5, "Dz"), (0x0301, ""),
  (0x03B1, "a"), (0x03B2, "b"), (0x03B3, "g"), (0x041F, "P"), (0x0432, "v"), (0x0435, "e"),
  (0x0438, "i"), (0x0440, "r"), (0x0442, "t"), (0x1E9E, "Ss"), (0x200B, " "), (0x2013, "-"),
  (0x2014, "--"), (0x2019, "'"), (0x201C, "\""), (0x201D, "\""), (0x20AC, "EUR"), (0x212A, "K"),
  (0x2167, "VIII"), (0x65E5, "Ri "), (0x672C, "Ben "), (0xFB01, "fi"), (0xFEFF, ""),
  (0xFF21, "A"), (0xFF22, "B"), (0xFF23, "C"), (0x1F600, "grinning ")
]

/-- The presets for backgrounds, the table, and chains of a length that definitions do not come
near. -/
def resources : Resources :=
  { Resources.builtin with letters := .ofTable letterTable, limit := 1000 }

end Program

end PageBlocks
