import Mathlib
import EmbedScript.Number.Text
import EmbedScript.Proofs.Rounding

/-!
Reading a number never gives NaN. NaN arises in binary64 arithmetic only from a NaN operand, from
infinity times zero, and from infinities of opposite signs added; packing a result that is no
NaN gives a word that is no NaN. So digits folded as `acc * radix + d` stay clear of NaN while
the radix is a non-zero finite number and the digit a finite one. A decimal is rounded to a
significand of at most 53 bits at an exponent of the finite range, or settled as a zero or an
infinity, and none of these is NaN either.
-/

namespace EmbedScript.Number

open Float.Model (UnpackedFloat Format)
open Float.Model.UnpackedFloat

/-! ### NaN in the logical model -/

/-- A word is NaN when its exponent field is all ones and its fraction is not zero. -/
theorem isNaN_unpack (b : BitVec Format.binary64.numBits) :
    (unpack .binary64 b).isNaN = (unpackExponent b == -1#11 && unpackMantissa b != 0#52) := by
  unfold unpack
  dsimp only
  split_ifs <;> simp_all [UnpackedFloat.isNaN]

/-- Packing keeps a number clear of NaN: a normal number's biased exponent stays below the
all-ones field, and an exponent too large for it gives infinity. -/
theorem isNaN_unpack_pack (u : UnpackedFloat) :
    (unpack .binary64 (pack .binary64 u)).isNaN = u.isNaN := by
  rw [isNaN_unpack]
  fun_cases UnpackedFloat.pack with
  | case5 s m e positive bits biased inRange normal =>
    have below : biased < 2047 := by
      rw [show 2 ^ Format.binary64.exponentBits = 2048 from rfl] at inRange
      omega
    have notAllOnes : (BitVec.ofNat 11 biased == -1#11) = false := by
      rw [beq_eq_false_iff_ne]
      intro allOnes
      have field := congrArg BitVec.toNat allOnes
      rw [BitVec.toNat_ofNat, show (-1#11 : BitVec 11).toNat = 2047 from rfl] at field
      omega
    simp only [unpackExponent_packComponents, unpackMantissa_packComponents, UnpackedFloat.isNaN]
    rw [notAllOnes, Bool.false_and]
  | _ => simp [packedNaN, packedInfinity, packedZero, UnpackedFloat.isNaN]

theorem isNaN_pack (u : UnpackedFloat) : (Float.Model.pack u).isNaN = u.isNaN :=
  isNaN_unpack_pack u

theorem isNaN_roundWithAccuracy (spec : Format) (s : Sign) (m : Nat) (e : Int)
    (a : Accuracy) : (roundWithAccuracy spec s m e a).isNaN = false := by
  unfold roundWithAccuracy
  dsimp only
  split <;> rfl

theorem isNaN_normalize (spec : Format) (m e : Int) (s : Sign) :
    (UnpackedFloat.normalize spec m e s).isNaN = false := by
  unfold UnpackedFloat.normalize UnpackedFloat.round
  split
  · exact isNaN_roundWithAccuracy ..
  · rfl
  · exact isNaN_roundWithAccuracy ..

/-- A product is no NaN when the left factor is none and the right one is finite and not zero. -/
theorem isNaN_mul {x y : UnpackedFloat} (notNaN : x.isNaN = false)
    (nonzero : (y matches .finite ..) = true) : (mul .binary64 x y).isNaN = false := by
  cases x <;> cases y <;> simp_all [UnpackedFloat.mul, isNaN_roundWithAccuracy]
  case infinity.finite | zero.finite => rfl

/-- A sum is no NaN when the left term is none and the right one is finite. -/
theorem isNaN_add {x y : UnpackedFloat} (notNaN : x.isNaN = false)
    (finite : y.isFinite = true) : (add .binary64 x y).isNaN = false := by
  cases x <;> cases y <;> simp_all [UnpackedFloat.add, UnpackedFloat.isFinite, isNaN_normalize]
  case zero.zero => split <;> rfl
  case zero.finite => rfl

/-! ### Numbers written as words -/

/-- A number that does not decode as NaN is no NaN. -/
theorem isNaN_eq_false_of_decode {x : Float} (notNaN : decode x ≠ .nan) : x.isNaN = false := by
  rw [Bool.eq_false_iff]
  intro nan
  change (unpack .binary64 x.toBits.toBitVec).isNaN = true at nan
  simp only [isNaN_unpack, Bool.and_eq_true, beq_iff_eq, bne_iff_ne] at nan
  obtain ⟨allOnes, nonzero⟩ := nan
  have exponent : expField x.toBits = 2047 := by
    rw [← unpackExponent_toNat, allOnes]
    rfl
  have fraction : fracField x.toBits ≠ 0 := by
    intro zero
    apply nonzero
    apply BitVec.eq_of_toNat_eq
    rw [unpackMantissa_toNat, zero]
    rfl
  exact notNaN (by rw [decode_eq, if_pos exponent, if_neg fraction])

theorem decode_signedZero_ne_nan (neg : Bool) : decode (signedZero neg) ≠ .nan := by
  cases neg <;> decide +kernel

theorem decode_signedInfinity_ne_nan (neg : Bool) : decode (signedInfinity neg) ≠ .nan := by
  cases neg <;> decide +kernel

/-- A significand below `2^53` at an exponent of the finite range is written as a finite
number; below `2^52` it is a subnormal, whose exponent is not written. -/
theorem decode_ofSignificand_finite (neg : Bool) {m : Nat} {e : Int} (below : m < 2 ^ 53)
    (least : -1074 ≤ e) (most : e ≤ 971) : ∃ b, decode (ofSignificand neg m e) = .finite b := by
  by_cases small : m < 2 ^ 52
  · have subnormal : ofSignificand neg m e = ofSignificand neg m (-1074) := by
      simp only [ofSignificand, Nat.pow_eq, if_pos small]
    have canonical : Binary.Canonical ⟨neg, m, -1074⟩ :=
      ⟨below, fun _ => rfl, fun big => absurd (show 2 ^ 52 ≤ m from big) (by omega)⟩
    have written := decode_ofSignificand canonical
    rw [subnormal]
    exact ⟨_, written⟩
  · have canonical : Binary.Canonical ⟨neg, m, e⟩ :=
      ⟨below, fun lt => absurd lt small, fun _ => ⟨least, most⟩⟩
    have written := decode_ofSignificand canonical
    exact ⟨_, written⟩

/-- At the exponent a ratio is rounded at, its quotient rounds to at most `2^53`: the ratio is
below `2^(e + 53)` for the corrected estimate `e`, and the exponent is never below it. -/
theorem roundedAt_ratioExponent_le {n d : Nat} (hn : 0 < n) (hd : 0 < d) :
    roundedAt n d (ratioExponent n d) ≤ 2 ^ 53 := by
  obtain ⟨e1, chosen, -, high⟩ : ∃ e1, ratioExponent n d = max e1 (-1074) ∧
      (2 : ℚ) ^ (e1 + 52) ≤ n / d ∧ (n / d : ℚ) < 2 ^ (e1 + 53) :=
    ⟨_, rfl, corrected_scale hn hd _ rfl⟩
  generalize ratioExponent n d = e at chosen ⊢
  have scaled : (n / d : ℚ) / 2 ^ e < 2 ^ 53 := by
    rw [div_lt_iff₀ (by positivity), ← zpow_natCast, ← zpow_add₀ (by norm_num)]
    calc (n / d : ℚ) < 2 ^ (e1 + 53) := high
      _ ≤ 2 ^ (((53 : Nat) : Int) + e) := zpow_le_zpow_right₀ (by norm_num) (by push_cast; omega)
  obtain ⟨-, -, value⟩ := divScaled_spec n hd e
  have quotient : (divScaled n d e).1 < 2 ^ 53 := by
    have : (0 : ℚ) ≤ (divScaled n d e).2.1 / (divScaled n d e).2.2 := by positivity
    exact_mod_cast (show ((divScaled n d e).1 : ℚ) < 2 ^ 53 by linarith)
  unfold roundedAt
  generalize divScaled n d e = t at quotient ⊢
  obtain ⟨qt, r, den⟩ := t
  dsimp only at quotient ⊢
  split <;> omega

/-- A significand of at most 53 bits is written as a finite number up to the largest exponent and
as an infinity beyond it. -/
theorem decode_ofSignificand_ne_nan (neg : Bool) {m : Nat} {e : Int} (below : m < 2 ^ 53)
    (least : -1074 ≤ e) :
    decode (if e > 971 then signedInfinity neg else ofSignificand neg m e) ≠ .nan := by
  split
  · exact decode_signedInfinity_ne_nan neg
  · obtain ⟨b, finite⟩ := decode_ofSignificand_finite neg below least (by omega)
    rw [finite]
    exact Decoded.noConfusion

/-- Rounding a ratio never gives NaN. -/
theorem decode_roundRatio_ne_nan (neg : Bool) (n d : Nat) : decode (roundRatio neg n d) ≠ .nan := by
  unfold roundRatio
  split
  · exact decode_signedZero_ne_nan neg
  · rename_i nonzero
    have atMost := roundedAt_ratioExponent_le (n := n) (d := d) (by omega) (by omega)
    have least : -1074 ≤ ratioExponent n d := le_max_right _ _
    dsimp only
    generalize ratioExponent n d = e at least atMost ⊢
    generalize roundedAt n d e = qt at atMost ⊢
    split
    · -- a quotient of `2^53` carries into the next exponent
      exact decode_ofSignificand_ne_nan neg (by simp [Nat.pow_eq]) (by omega)
    · rename_i noCarry
      have below : qt < 2 ^ 53 := by
        simp only [Nat.pow_eq, beq_iff_eq] at noCarry
        omega
      exact decode_ofSignificand_ne_nan neg below least

/-- The nearest binary64 value to a decimal is never NaN. -/
theorem isNaN_ofDecimal (neg : Bool) (digits : Nat) (exp : Int) :
    (ofDecimal neg digits exp).isNaN = false := by
  apply isNaN_eq_false_of_decode
  unfold ofDecimal
  dsimp only
  split_ifs
  · exact decode_signedZero_ne_nan neg
  · exact decode_signedInfinity_ne_nan neg
  · exact decode_signedZero_ne_nan neg
  · exact decode_roundRatio_ne_nan _ _ _
  · exact decode_roundRatio_ne_nan _ _ _

/-! ### Digits in a radix -/

/-- One step of reading digits in a radix: the value so far times the radix, plus the digit. -/
def radixStep (radix : Nat) (acc : Float) (c : Char) : Option Float :=
  (digitIn radix c).map fun d => acc * Float.ofNat radix + Float.ofNat d

theorem readRadix_eq (radix : Nat) (cs : List Char) :
    readRadix radix cs = if cs.isEmpty then none else cs.foldlM (radixStep radix) 0 := rfl

/-- The radices of prefixed literals are finite and not zero, and every digit below sixteen is
finite. -/
theorem radix_finite : ∀ r ∈ [2, 8, 16], ((Float.ofNat r).toModel.unpack matches .finite ..) = true := by
  decide +kernel

theorem digit_finite : ∀ d < 16, (Float.ofNat d).toModel.unpack.isFinite = true := by
  decide +kernel

/-- A step of reading digits takes a value that is no NaN to one that is no NaN. -/
theorem isNaN_radixStep {radix : Nat} (valid : radix ∈ [2, 8, 16]) {acc next : Float}
    (notNaN : acc.isNaN = false) {c : Char} (step : radixStep radix acc c = some next) :
    next.isNaN = false := by
  obtain ⟨d, digit, rfl⟩ := Option.map_eq_some_iff.mp step
  have small : d < 16 := by
    have := digitIn_lt digit
    simp only [List.mem_cons, List.not_mem_nil, or_false] at valid
    omega
  have product : (Float.Model.pack (mul .binary64 acc.toModel.unpack
      (Float.ofNat radix).toModel.unpack)).isNaN = false :=
    (isNaN_pack _).trans (isNaN_mul notNaN (radix_finite radix valid))
  exact (isNaN_pack _).trans (isNaN_add product (digit_finite d small))

/-- Folding digits of a radix up to sixteen from a value that is no NaN gives a value, and no
NaN. -/
theorem foldlM_radixStep {radix : Nat} (valid : radix ∈ [2, 8, 16]) (cs : List Char) :
    ∀ {acc : Float}, acc.isNaN = false → (∀ c ∈ cs, (digitIn radix c).isSome) →
      ∃ x, cs.foldlM (radixStep radix) acc = some x ∧ x.isNaN = false := by
  induction cs with
  | nil => exact fun notNaN _ => ⟨_, rfl, notNaN⟩
  | cons c cs ih =>
    intro acc notNaN digits
    obtain ⟨d, digit⟩ := Option.isSome_iff_exists.mp (digits c List.mem_cons_self)
    obtain ⟨next, step⟩ : ∃ next, radixStep radix acc c = some next :=
      ⟨acc * Float.ofNat radix + Float.ofNat d, by simp [radixStep, digit]⟩
    rw [List.foldlM_cons, step]
    exact ih (isNaN_radixStep valid notNaN step) fun c' member => digits c' (List.mem_cons_of_mem c member)

/-- At least one digit of a radix up to sixteen is read as a number, and never as NaN. -/
theorem readRadix_eq_some {radix : Nat} (valid : radix ∈ [2, 8, 16]) {cs : List Char}
    (nonempty : cs ≠ []) (digits : ∀ c ∈ cs, (digitIn radix c).isSome) :
    ∃ x, readRadix radix cs = some x ∧ x.isNaN = false := by
  rw [readRadix_eq, if_neg (by simpa using nonempty)]
  exact foldlM_radixStep valid cs (by decide +kernel) digits

end EmbedScript.Number
