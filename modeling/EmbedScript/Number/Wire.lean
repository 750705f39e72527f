import EmbedScript.Number.Binary

/-!
How numbers travel in answers and requests. NaN, the infinities and negative zero go by name,
an integral value up to `2^53` in magnitude as that integer, and every other value as its
64 bits in hexadecimal, so that each value is written exactly.
-/

namespace EmbedScript.Number

/-- The written form of a number. -/
inductive Wire where
  | named (name : String)
  | integer (i : Int)
  | bits (hex : String)
  deriving Repr, DecidableEq

/-- Lowercase hexadecimal digits of a number, at least `width` of them. -/
def hexDigits (width n : Nat) : String :=
  let ds := Nat.toDigits 16 n
  String.ofList (List.replicate (width - ds.length) '0' ++ ds)

/-- The written form of a value. -/
def wire (x : Float) : Wire :=
  match decode x with
  | .nan => .named "NaN"
  | .infinite neg => .named (if neg then "-Infinity" else "Infinity")
  | .finite b =>
    if b.m == 0 then (if b.neg then .named "-0" else .integer 0)
    else
      let t := b.truncNat
      let integral := if b.q < 0 then b.m % Nat.pow 2 (-b.q).toNat == 0 else true
      if integral && t ≤ Nat.pow 2 53 then .integer (if b.neg then -(t : Int) else t)
      else .bits ("0x" ++ hexDigits 16 x.toBits.toNat)

/-- Reads a named or hexadecimal form back. -/
def ofWireText (s : String) : Option Float :=
  match s with
  | "NaN" => some nan
  | "Infinity" => some infinity
  | "-Infinity" => some (signedInfinity true)
  | "-0" => some (signedZero true)
  | _ =>
    match s.toList with
    | '0' :: 'x' :: hex =>
      if hex.length == 16 then
        (hex.foldlM (fun (acc : Nat) c =>
          if '0' ≤ c ∧ c ≤ '9' then some (acc * 16 + (c.toNat - '0'.toNat))
          else if 'a' ≤ c ∧ c ≤ 'f' then some (acc * 16 + (c.toNat - 'a'.toNat + 10))
          else if 'A' ≤ c ∧ c ≤ 'F' then some (acc * 16 + (c.toNat - 'A'.toNat + 10))
          else none) 0).map fun n => Float.ofBits n.toUInt64
      else none
    | _ => none

/-- The value nearest to `mantissa * 10^(-scale)`, as a decimal number in a request reads. -/
def ofScaled (mantissa : Int) (scale : Nat) : Float :=
  ofDecimal (mantissa < 0) mantissa.natAbs (-(scale : Int))

end EmbedScript.Number
