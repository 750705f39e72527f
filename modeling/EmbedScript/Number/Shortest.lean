import EmbedScript.Number.Binary

/-!
Shortest decimal digits of a binary64 value. A decimal reads back as the value when it lies in
the interval of reals that round to it: from halfway to the neighbour below to halfway to the
neighbour above, both ends included exactly when the significand is even. The digits chosen
are those of the first decimal grid `10^j` (coarsest first) on which one of the value's two
neighbours reads back; when both do, the nearer, and on an exact tie the upper one.
-/

namespace EmbedScript.Number

/-- The decimal `digits * 10^exp`. -/
structure Decimal where
  digits : Nat
  exp : Int
  deriving Repr, DecidableEq

/-- Compares `a * 10^i` with `n * 2^j`, exactly. -/
def cmpScaled (a : Nat) (i : Int) (n : Nat) (j : Int) : Ordering :=
  compare (a * Nat.pow 10 i.toNat * Nat.pow 2 (-j).toNat) (n * Nat.pow 2 j.toNat * Nat.pow 10 (-i).toNat)

/-- The decimal lies among the reals that round to the magnitude of `x`. -/
def Binary.readsBack (x : Binary) (d : Decimal) : Bool :=
  let lo := if x.narrowBelow then 4 * x.m - 1 else 4 * x.m - 2
  let hi := 4 * x.m + 2
  let incl := x.m % 2 == 0
  let cl := cmpScaled d.digits d.exp lo (x.q - 2)
  let ch := cmpScaled d.digits d.exp hi (x.q - 2)
  (cl == .gt || (incl && cl == .eq)) && (ch == .lt || (incl && ch == .eq))

/-- `⌊m * 2^q / 10^j⌋`. -/
def floorOnGrid (m : Nat) (q j : Int) : Nat :=
  (m * Nat.pow 2 q.toNat * Nat.pow 10 (-j).toNat) / (Nat.pow 2 (-q).toNat * Nat.pow 10 j.toNat)

/-- The least `k` with `m * 2^q < 10^k`, for `m > 0`: estimated from the binary length, then
corrected by one step either way. -/
def decimalScale (m : Nat) (q : Int) : Int :=
  let t : Int := (Nat.log2 m : Int) + q
  let k := Int.fdiv (t * 78913) 262144 + 1
  if cmpScaled 1 k m q != .gt then k + 1
  else if cmpScaled 1 (k - 1) m q == .gt then k - 1
  else k

/-- Moves trailing zeros of the digits into the exponent. -/
def Decimal.trim (d : Decimal) : Decimal :=
  if h : d.digits ≠ 0 ∧ d.digits % 10 = 0 then
    Decimal.trim ⟨d.digits / 10, d.exp + 1⟩
  else d
termination_by d.digits
decreasing_by exact Nat.div_lt_self (Nat.pos_of_ne_zero h.1) (by decide)

/-- The decimal chosen on the grid `10^j`, if one of the value's neighbours there reads back. -/
def Binary.onGrid (x : Binary) (j : Int) : Option Decimal :=
  let a := floorOnGrid x.m x.q j
  let low := x.readsBack ⟨a, j⟩
  let high := x.readsBack ⟨a + 1, j⟩
  if low && high then
    -- the lower one only when strictly nearer: twice the value below `(2a + 1) * 10^j`
    if cmpScaled (2 * a + 1) j (2 * x.m) x.q == .gt then some ⟨a, j⟩ else some ⟨a + 1, j⟩
  else if low then some ⟨a, j⟩
  else if high then some ⟨a + 1, j⟩
  else none

/-- The exact decimal value of the magnitude. -/
def Binary.exact (x : Binary) : Decimal :=
  if x.q < 0 then ⟨x.m * Nat.pow 5 (-x.q).toNat, x.q⟩ else ⟨x.m * Nat.pow 2 x.q.toNat, 0⟩

/-- Shortest digits of the magnitude of a non-zero finite value, without trailing zeros.
Seventeen digits always read back, so the search ends on one of its grids. -/
def Binary.shortest (x : Binary) : Decimal :=
  let k := decimalScale x.m x.q
  let found := (List.range' 1 17).findSome? fun (n : Nat) => x.onGrid (k - n)
  (found.getD x.exact).trim

end EmbedScript.Number
