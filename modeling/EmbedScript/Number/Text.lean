import EmbedScript.Number.Shortest
import EmbedScript.Text.Classes

/-!
Numbers as text, both ways. Writing gives the shortest digits that read back, laid out as
script numbers are: positionally while the decimal point falls within 21 digits of the start
and no further than six zeros after it, else with one digit before the point and an exponent
with an explicit sign. Reading accepts an optional blank-trimmed decimal literal, a radix
literal with prefix `0x`, `0o` or `0b`, or a spelled-out infinity; anything else is NaN.
-/

namespace EmbedScript.Number

open EmbedScript.Text

/-- `n` zeros. -/
def zeros (n : Nat) : String :=
  String.ofList (List.replicate n '0')

/-- Lays out the digit string `ds` (no trailing zeros) of a positive value whose decimal point
stands `n` digits after the first digit. -/
def layout (ds : String) (n : Int) : String :=
  let k : Int := ds.length
  if k ≤ n ∧ n ≤ 21 then ds ++ zeros (n - k).toNat
  else if 0 < n ∧ n ≤ 21 then
    String.ofList (ds.toList.take n.toNat) ++ "." ++ String.ofList (ds.toList.drop n.toNat)
  else if -6 < n ∧ n ≤ 0 then "0." ++ zeros (-n).toNat ++ ds
  else
    let e := n - 1
    let sign := if e ≥ 0 then "+" else "-"
    let mant := match ds.toList with
      | d :: rest@(_ :: _) => String.ofList [d] ++ "." ++ String.ofList rest
      | _ => ds
    mant ++ "e" ++ sign ++ toString e.natAbs

/-- The text of a number: `NaN`, `Infinity`, `-Infinity`, `0` for both zeros, else a sign for
negative values and the layout of the shortest digits. -/
def toText (x : Float) : String :=
  match decode x with
  | .nan => "NaN"
  | .infinite neg => if neg then "-Infinity" else "Infinity"
  | .finite b =>
    if b.m = 0 then "0"
    else
      let d := b.shortest
      let ds := String.ofList (Nat.toDigits 10 d.digits)
      let body := layout ds (d.exp + ds.length)
      if b.neg then "-" ++ body else body

/-- The value of a list of decimal digits. -/
def digitsValue (ds : List Char) : Nat :=
  ds.foldl (fun n c => 10 * n + (c.toNat - '0'.toNat)) 0

/-- Splits off the leading decimal digits. -/
def spanDigits (cs : List Char) : List Char × List Char :=
  (cs.takeWhile Char.isDigit, cs.dropWhile Char.isDigit)

/-- An optional sign: whether it is a minus, and the rest. -/
def spanSign : List Char → Bool × List Char
  | '-' :: r => (true, r)
  | '+' :: r => (false, r)
  | r => (false, r)

/-- The exponent part after `e` or `E`: an optional sign and at least one digit, and nothing
after them. -/
def readExponent (cs : List Char) : Option Int :=
  let (neg, r) := spanSign cs
  let (ds, rest) := spanDigits r
  if ds.isEmpty || !rest.isEmpty then none
  else some (if neg then -(digitsValue ds : Int) else digitsValue ds)

/-- A whole decimal literal: optional sign, digits with an optional point (at least one digit
on either side), optional exponent; the nearest binary64 value. -/
def readDecimal (cs : List Char) : Option Float :=
  let (neg, r) := spanSign cs
  let (ip, r) := spanDigits r
  let (fp, r) := match r with
    | '.' :: r' => spanDigits r'
    | _ => ([], r)
  if ip.isEmpty && fp.isEmpty then none
  else
    let exp : Option Int := match r with
      | [] => some 0
      | c :: r' => if c == 'e' || c == 'E' then readExponent r' else none
    exp.map fun e => ofDecimal neg (digitsValue (ip ++ fp)) (e - fp.length)

/-- The digit value of a character in a radix up to 36. -/
def digitIn (radix : Nat) (c : Char) : Option Nat :=
  let v := if c.isDigit then c.toNat - '0'.toNat
    else if 'a' ≤ c && c ≤ 'z' then c.toNat - 'a'.toNat + 10
    else if 'A' ≤ c && c ≤ 'Z' then c.toNat - 'A'.toNat + 10
    else radix
  if v < radix then some v else none

theorem digitIn_lt {radix d : Nat} {c : Char} (digit : digitIn radix c = some d) : d < radix := by
  simp only [digitIn, Option.ite_none_right_eq_some, Option.some.injEq] at digit
  exact digit.2 ▸ digit.1

/-- Digits in a radix folded from the left in binary64 arithmetic, `acc * radix + d` rounded
at each step; none for an empty list or a character that is no digit. -/
def readRadix (radix : Nat) (cs : List Char) : Option Float :=
  if cs.isEmpty then none
  else cs.foldlM (fun acc c => (digitIn radix c).map fun d =>
    acc * Float.ofNat radix + Float.ofNat d) 0

/-- The lower-case ASCII form of a character. -/
def lowerAscii (c : Char) : Char :=
  if 'A' ≤ c && c ≤ 'Z' then Char.ofNat (c.toNat + 32) else c

/-- Characters that may appear in a decimal literal read by `ofText`. -/
def isDecimalChar (c : Char) : Bool :=
  c.isDigit || c == '.' || c == 'e' || c == 'E' || c == '+' || c == '-'

/-- Drops blanks and line terminators at both ends. -/
def trimBlank (cs : List Char) : List Char :=
  let skip := fun c => isBlank c || isLineEnd c
  ((cs.dropWhile skip).reverse.dropWhile skip).reverse

/-- The number a string denotes: zero when it is blank, the spelled infinities, a radix
literal after a prefix in either case, or a decimal literal; otherwise NaN. -/
def ofText (s : String) : Float :=
  let t := trimBlank s.toList
  if t.isEmpty then 0
  else if t == "Infinity".toList || t == "+Infinity".toList then infinity
  else if t == "-Infinity".toList then -infinity
  else
    match t.map lowerAscii with
    | '0' :: 'x' :: rest => (readRadix 16 rest).getD nan
    | '0' :: 'o' :: rest => (readRadix 8 rest).getD nan
    | '0' :: 'b' :: rest => (readRadix 2 rest).getD nan
    | _ => if t.all isDecimalChar then (readDecimal t).getD nan else nan

end EmbedScript.Number
