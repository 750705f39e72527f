import EmbedScript.Number.Binary

/-!
Integer views of numbers. The modular conversions take the value rounded toward zero modulo
`2^32`, read as unsigned or as two's complement; NaN and the infinities give zero. The
saturating conversion rounds toward zero and clamps to the signed 32-bit range, NaN giving
zero. Bitwise operators work on the 32-bit patterns.
-/

namespace EmbedScript.Number

/-- The value rounded toward zero; NaN and the infinities give none. -/
def truncInt? (x : Float) : Option Int :=
  match decode x with
  | .finite b => some b.trunc
  | _ => none

/-- The unsigned 32-bit residue of the value rounded toward zero; zero for NaN and infinities. -/
def toUint32 (x : Float) : Nat :=
  match truncInt? x with
  | some i => (i % Nat.pow 2 32).toNat
  | none => 0

/-- The two's complement reading of a 32-bit pattern. -/
def ofPattern (u : Nat) : Int :=
  if u < Nat.pow 2 31 then u else (u : Int) - Nat.pow 2 32

/-- The signed 32-bit residue of the value rounded toward zero. -/
def toInt32 (x : Float) : Int :=
  ofPattern (toUint32 x)

/-- The value rounded toward zero and clamped to `[-2^31, 2^31 - 1]`; NaN gives zero. -/
def saturateInt32 (x : Float) : Int :=
  match decode x with
  | .nan => 0
  | .infinite neg => if neg then -Nat.pow 2 31 else Nat.pow 2 31 - 1
  | .finite b => max (-Nat.pow 2 31) (min (Nat.pow 2 31 - 1) b.trunc)

/-- Left shift of the signed pattern by a count taken modulo 32, wrapping to 32 bits. -/
def shiftLeft (a b : Float) : Int :=
  ofPattern ((toUint32 a * Nat.pow 2 (toUint32 b % 32)) % Nat.pow 2 32)

/-- Right shift of the signed value, copying the sign bit. -/
def shiftRight (a b : Float) : Int :=
  toInt32 a >>> (toUint32 b % 32)

/-- Right shift of the unsigned pattern, filling with zeros. -/
def shiftRightUnsigned (a b : Float) : Nat :=
  toUint32 a >>> (toUint32 b % 32)

/-- Bitwise and, or and exclusive or of the two patterns, read as signed. -/
def bitAnd (a b : Float) : Int := ofPattern (toUint32 a &&& toUint32 b)

def bitOr (a b : Float) : Int := ofPattern (toUint32 a ||| toUint32 b)

def bitXor (a b : Float) : Int := ofPattern (toUint32 a ^^^ toUint32 b)

/-- Bitwise complement of the pattern, read as signed. -/
def bitNot (a : Float) : Int := ofPattern (Nat.pow 2 32 - 1 - toUint32 a)

end EmbedScript.Number
