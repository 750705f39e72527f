import EmbedScript.Text.Alphabetic

/-!
Character classes of script source: line terminators, blanks, and the characters that may
start or continue an identifier. ASCII is decided directly; beyond it the Alphabetic and
numeric tables decide, together with the two joiners and four blocks of combining marks.
-/

namespace EmbedScript.Text

/-- The code point lies in one of the closed ranges. -/
def inRanges (rs : Array (Nat × Nat)) (n : Nat) : Bool :=
  rs.any fun r => r.1 ≤ n && n ≤ r.2

/-- Line terminators: LF, CR, LS and PS. -/
def isLineEnd (c : Char) : Bool :=
  c == '\n' || c == '\r' || c.val == 0x2028 || c.val == 0x2029

/-- Blanks other than line terminators: tab, vertical tab, form feed, space, no-break space,
the byte order mark, and the space separators beyond ASCII. -/
def isBlank (c : Char) : Bool :=
  let n := c.val.toNat
  n == 0x9 || n == 0xB || n == 0xC || n == 0x20 || n == 0xA0 || n == 0xFEFF || n == 0x1680 ||
    (0x2000 ≤ n && n ≤ 0x200A) || n == 0x202F || n == 0x205F || n == 0x3000

/-- Letters: ASCII letters, and beyond ASCII the Alphabetic property. -/
def isAlphabetic (c : Char) : Bool :=
  if c.val < 0x80 then c.isAlpha else inRanges alphabeticRanges c.val.toNat

/-- Letters and numbers: ASCII letters and digits, and beyond ASCII the Alphabetic property or
a numeric category. -/
def isAlphanumeric (c : Char) : Bool :=
  if c.val < 0x80 then c.isAlphanum
  else inRanges alphabeticRanges c.val.toNat || inRanges numericRanges c.val.toNat

/-- Combining marks accepted inside identifiers: the four combining diacritical blocks. -/
def isCombiningMark (c : Char) : Bool :=
  inRanges #[(0x300, 0x36F), (0x1AB0, 0x1AFF), (0x20D0, 0x20FF), (0xFE20, 0xFE2F)] c.val.toNat

/-- Characters that may start an identifier: letters, underscore and dollar sign. -/
def isIdStart (c : Char) : Bool :=
  isAlphabetic c || c == '_' || c == '$'

/-- Characters that may continue an identifier: also digits and numbers, and beyond ASCII the
zero-width non-joiner and joiner and combining marks. -/
def isIdPart (c : Char) : Bool :=
  if c.val < 0x80 then c.isAlphanum || c == '_' || c == '$'
  else isAlphanumeric c || c.val == 0x200C || c.val == 0x200D || isCombiningMark c

end EmbedScript.Text
