/-!
Binary64 values taken apart into a sign, an integer significand and a power of two, and the
exact operations built on that view: rounding a ratio of naturals to the nearest value,
truncation to an integer, and the remainder of truncating division. All of them work on
naturals and integers, so each result is the one the IEEE rules prescribe, not an estimate.
-/

namespace EmbedScript.Number

/-- A finite binary64 value `(-1)^neg * m * 2^q`. -/
structure Binary where
  neg : Bool
  m : Nat
  q : Int
  deriving Repr, DecidableEq

/-- What the 64 bits of a value stand for. -/
inductive Decoded where
  | nan
  | infinite (neg : Bool)
  | finite (b : Binary)
  deriving Repr, DecidableEq

/-- Splits the bits into sign, biased exponent and fraction. -/
def decode (x : Float) : Decoded :=
  let bits := x.toBits
  let neg := bits >>> 63 == 1
  let e := ((bits >>> 52) &&& 0x7FF).toNat
  let f := (bits &&& 0xFFFFFFFFFFFFF).toNat
  if e == 0x7FF then
    if f == 0 then .infinite neg else .nan
  else if e == 0 then .finite ⟨neg, f, -1074⟩
  else .finite ⟨neg, Nat.pow 2 52 + f, (e : Int) - 1075⟩

/-- The gap to the value below is half the gap to the value above: the significand is a power
of two and the value below is normal too. -/
def Binary.narrowBelow (b : Binary) : Bool :=
  b.m == Nat.pow 2 52 && decide (b.q > -1074)

/-- Quiet NaN. -/
def nan : Float := Float.ofBits 0x7FF8000000000000

/-- Positive infinity. -/
def infinity : Float := Float.ofBits 0x7FF0000000000000

/-- Zero with the given sign. -/
def signedZero (neg : Bool) : Float :=
  Float.ofBits (if neg then 0x8000000000000000 else 0)

/-- Infinity with the given sign. -/
def signedInfinity (neg : Bool) : Float :=
  Float.ofBits (if neg then 0xFFF0000000000000 else 0x7FF0000000000000)

/-- The value `(-1)^neg * m * 2^e` for a significand below `2^53` and an exponent that is
`-1074` whenever the significand is below `2^52`: exactly the representable values. -/
def ofSignificand (neg : Bool) (m : Nat) (e : Int) : Float :=
  let sign : UInt64 := if neg then 0x8000000000000000 else 0
  if m < Nat.pow 2 52 then Float.ofBits (sign ||| m.toUInt64)
  else Float.ofBits (sign ||| ((e + 1075).toNat.toUInt64 <<< 52) ||| (m - Nat.pow 2 52).toUInt64)

/-- `n * 2^(-e) / d` as quotient and remainder, with the divisor used. -/
def divScaled (n d : Nat) (e : Int) : Nat × Nat × Nat :=
  let num := if e < 0 then n * Nat.pow 2 (-e).toNat else n
  let den := if e < 0 then d else d * Nat.pow 2 e.toNat
  (num / den, num % den, den)

/-- The exponent a ratio is rounded at: the one that gives its quotient 53 bits, estimated
from the binary lengths and corrected once, but never below `-1074`. -/
def ratioExponent (n d : Nat) : Int :=
  let e0 : Int := (Nat.log2 n : Int) - (Nat.log2 d : Int) - 52
  let e1 := if (divScaled n d e0).1 < Nat.pow 2 52 then e0 - 1 else e0
  max e1 (-1074)

/-- `n * 2^(-e) / d` rounded to the nearest natural number, a tie going to the even one: one
rounding step on the exact remainder. -/
def roundedAt (n d : Nat) (e : Int) : Nat :=
  let (qt, r, den) := divScaled n d e
  if 2 * r > den || (2 * r == den && qt % 2 == 1) then qt + 1 else qt

/-- The binary64 value nearest to `(-1)^neg * n / d`, a tie going to the even significand;
beyond the largest finite value the result is infinite, and `n = 0` gives a zero of the sign.
A quotient that rounds up to `2^53` moves to the next exponent. -/
def roundRatio (neg : Bool) (n d : Nat) : Float :=
  if n = 0 ∨ d = 0 then signedZero neg
  else
    let e := ratioExponent n d
    let qt := roundedAt n d e
    let (qt, e) := if qt == Nat.pow 2 53 then (Nat.pow 2 52, e + 1) else (qt, e)
    if e > 971 then signedInfinity neg else ofSignificand neg qt e

/-- The binary64 value nearest to `(-1)^neg * digits * 10^exp`. Exponents far outside the
range are settled before any power is computed: at least `10^309` overflows and below
`10^-330` rounds to zero. -/
def ofDecimal (neg : Bool) (digits : Nat) (exp : Int) : Float :=
  if digits = 0 then signedZero neg
  else
    let width : Int := (Nat.toDigits 10 digits).length
    if exp + width > 309 then signedInfinity neg
    else if exp + width < -330 then signedZero neg
    else if exp < 0 then roundRatio neg digits (Nat.pow 10 (-exp).toNat)
    else roundRatio neg (digits * Nat.pow 10 exp.toNat) 1

/-- The magnitude of a finite value rounded toward zero. -/
def Binary.truncNat (b : Binary) : Nat :=
  if b.q < 0 then b.m / Nat.pow 2 (-b.q).toNat else b.m * Nat.pow 2 b.q.toNat

/-- A finite value rounded toward zero, with its sign. -/
def Binary.trunc (b : Binary) : Int :=
  if b.neg then -(b.truncNat : Int) else b.truncNat

/-- The remainder of truncating division: `x - y * trunc (x / y)`, computed exactly, with the
sign of `x`. NaN when `x` is infinite or `y` is zero; `x` itself when `y` is infinite. -/
def remainder (x y : Float) : Float :=
  match decode x, decode y with
  | .finite a, .finite b =>
    if b.m = 0 then nan
    else if a.m = 0 then x
    else
      let e := min a.q b.q
      let r := (a.m * Nat.pow 2 (a.q - e).toNat) % (b.m * Nat.pow 2 (b.q - e).toNat)
      if e < 0 then roundRatio a.neg r (Nat.pow 2 (-e).toNat) else roundRatio a.neg (r * Nat.pow 2 e.toNat) 1
  | .finite _, .infinite _ => x
  | _, _ => nan

end EmbedScript.Number
