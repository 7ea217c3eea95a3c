/-!
# Blank characters

The characters that count as blank space around a word, and the removal of blanks at both ends.
-/

set_option autoImplicit false

namespace ProcessGraph.Text

/-- The code points of the blank characters: separators and line breaks of all scripts, and the
control characters that separate records. -/
def blanks : List Nat :=
  [0x9, 0xa, 0xb, 0xc, 0xd, 0x1c, 0x1d, 0x1e, 0x1f, 0x20, 0x85, 0xa0, 0x1680, 0x2000, 0x2001,
   0x2002, 0x2003, 0x2004, 0x2005, 0x2006, 0x2007, 0x2008, 0x2009, 0x200a, 0x2028, 0x2029,
   0x202f, 0x205f, 0x3000]

/-- Is `c` a blank character? -/
def isBlank (c : Char) : Bool := blanks.contains c.toNat

/-- Does `c` separate records (the four ASCII controls from file to unit separator)? -/
def isRecordSeparator (c : Char) : Bool := 0x1c ≤ c.toNat && c.toNat ≤ 0x1f

/-- Drops the characters of a class at both ends. -/
def trimBoth (p : Char → Bool) (cs : List Char) : List Char :=
  ((cs.dropWhile p).reverse.dropWhile p).reverse

/-- Drops blanks at both ends. -/
def strip (s : String) : String := String.ofList (trimBoth isBlank s.toList)

end ProcessGraph.Text
