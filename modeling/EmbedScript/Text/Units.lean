/-!
Strings seen as sequences of UTF-16 code units, the unit in which script strings are measured,
indexed and ordered: a character above U+FFFF counts as two units (a surrogate pair).
-/

namespace EmbedScript.Text

/-- Number of UTF-16 units that encode the character. -/
def unitWidth (c : Char) : Nat :=
  if c.val < 0x10000 then 1 else 2

/-- The UTF-16 units of a character. -/
def charUnits (c : Char) : List Nat :=
  let v := c.val.toNat
  if v < 0x10000 then [v]
  else [0xD800 + (v - 0x10000) / 0x400, 0xDC00 + (v - 0x10000) % 0x400]

/-- Length of a string in UTF-16 units. -/
def unitLength (s : String) : Nat :=
  s.foldl (fun n c => n + unitWidth c) 0

/-- The UTF-16 units of a string, in order. -/
def units (s : String) : List Nat :=
  s.toList.flatMap charUnits

/-- The character that starts at unit offset `i`; none when `i` falls on the second unit of
a pair or past the end. -/
def charAtUnit : List Char → Nat → Option Char
  | [], _ => none
  | c :: cs, i =>
    if i = 0 then some c
    else if i < unitWidth c then none
    else charAtUnit cs (i - unitWidth c)

/-- Lexicographic order of unit sequences: `.lt` when the first is a proper prefix. -/
def compareUnits : List Nat → List Nat → Ordering
  | [], [] => .eq
  | [], _ :: _ => .lt
  | _ :: _, [] => .gt
  | a :: as, b :: bs => if a < b then .lt else if b < a then .gt else compareUnits as bs

end EmbedScript.Text
