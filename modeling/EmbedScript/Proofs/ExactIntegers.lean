import EmbedScript.Proofs.NaNFree

/-!
Integers below 2^53 in binary64 arithmetic. Such an integer has one canonical unpacked form, a
53-bit significand with the exponent that scales it back (`integerForm`): rounding any
significand and exponent that spell the integer gives that form, and packing keeps it. So
products and sums of such integers are exact while they stay below 2^53, converting the integer
gives exactly its value, and reading digits in a radix as `acc * radix + d`, step after step,
gives the integer the digits spell.
-/

namespace EmbedScript.Number

open Float.Model UnpackedFloat

/-! ### Canonical forms of integers -/

/-- The canonical unpacked form of a natural number: positive zero, or a 53-bit significand at
the exponent that scales it back to the number. -/
def integerForm (n : Nat) : UnpackedFloat :=
  if h : n = 0 then .zero .positive
  else .finite .positive (n * 2 ^ (52 - n.log2)) (n.log2 - 52)
    (Nat.mul_pos (Nat.pos_of_ne_zero h) (Nat.two_pow_pos _))

theorem log2_mul_two_pow {n : Nat} (nonzero : n ≠ 0) (j : Nat) :
    (n * 2 ^ j).log2 = n.log2 + j := by
  rw [Nat.log2_eq_iff (Nat.mul_ne_zero nonzero (Nat.two_pow_pos j).ne')]
  constructor
  · rw [Nat.pow_add]
    exact Nat.mul_le_mul_right _ (Nat.log2_self_le nonzero)
  · rw [show n.log2 + j + 1 = n.log2 + 1 + j by omega, Nat.pow_add]
    exact Nat.mul_lt_mul_of_pos_right Nat.lt_log2_self (Nat.two_pow_pos j)

theorem log2_le_of_lt {n : Nat} (nonzero : n ≠ 0) (small : n < 2 ^ 53) : n.log2 ≤ 52 :=
  Nat.lt_succ_iff.mp ((Nat.log2_lt nonzero).mpr small)

/-- Shifting out zero bits loses nothing. -/
theorem shiftRight_exact (m d : Nat) :
    ExtendedMantissa.mk (m * 2 ^ d) false false >>> d = ExtendedMantissa.mk m false false := by
  induction d generalizing m with
  | zero => simp [HShiftRight.hShiftRight, Nat.repeat]
  | succ d ih =>
    -- the last of the shifts halves an even significand
    change ExtendedMantissa.shiftRightOne (ExtendedMantissa.mk (m * 2 ^ (d + 1)) false false >>> d) = _
    rw [show m * 2 ^ (d + 1) = m * 2 * 2 ^ d by rw [Nat.pow_succ]; ring, ih]
    simp [ExtendedMantissa.shiftRightOne]

/-- Every significand and exponent that spell a positive integer aim at the exponent of its
53-bit significand. -/
theorem targetExponent_integer {n : Nat} (nonzero : n ≠ 0) (j : Nat) :
    Format.binary64.targetExponent (totalExponent (n * 2 ^ j) (-j)) = (n.log2 : Int) - 52 := by
  simp only [Format.targetExponent, totalExponent, log2_mul_two_pow nonzero, Format.mantissaBits,
    Format.minExponent]
  omega

theorem shiftToTargetExponent_integer {n : Nat} (nonzero : n ≠ 0) (small : n < 2 ^ 53) {j : Nat}
    (enough : 52 - n.log2 ≤ j) :
    shiftToTargetExponent .binary64 (n * 2 ^ j) (-j) .exact =
      (ExtendedMantissa.mk (n * 2 ^ (52 - n.log2)) false false, (n.log2 : Int) - 52) := by
  have split : n * 2 ^ j = n * 2 ^ (52 - n.log2) * 2 ^ (j - (52 - n.log2)) := by
    rw [Nat.mul_assoc, ← Nat.pow_add]
    congr 2
    omega
  have bits := log2_le_of_lt nonzero small
  have shift : ((n.log2 : Int) - 52 - -(j : Int)).toNat = j - (52 - n.log2) := by omega
  unfold shiftToTargetExponent shiftToExponent
  rw [targetExponent_integer nonzero]
  dsimp only
  rw [shift]
  simp only [ExtendedMantissa.ofMantissaAndAccuracy]
  rw [split, shiftRight_exact]
  congr 1
  omega

/-- Rounding a positive integer below 2^53, spelled with at least 53 bits, loses nothing. -/
theorem roundWithAccuracy_integer {n : Nat} (nonzero : n ≠ 0) (small : n < 2 ^ 53) {j : Nat}
    (enough : 52 - n.log2 ≤ j) :
    roundWithAccuracy .binary64 .positive (n * 2 ^ j) (-j) .exact = integerForm n := by
  have bits := log2_le_of_lt nonzero small
  have again : shiftToTargetExponent .binary64 (n * 2 ^ (52 - n.log2)) (n.log2 - 52) .exact =
      (ExtendedMantissa.mk (n * 2 ^ (52 - n.log2)) false false, (n.log2 : Int) - 52) := by
    have exponent : (n.log2 : Int) - 52 = -((52 - n.log2 : Nat) : Int) := by omega
    rw [exponent, shiftToTargetExponent_integer nonzero small (le_refl _), ← exponent]
  unfold roundWithAccuracy
  rw [shiftToTargetExponent_integer nonzero small enough]
  dsimp only
  simp only [ExtendedMantissa.roundedMantissa, ExtendedMantissa.accuracy,
    Accuracy.roundToNearestEven, again]
  simp [integerForm, nonzero]

/-- Rounding a positive integer below 2^53, spelled with any number of bits, loses nothing. -/
theorem round_integer {n : Nat} (nonzero : n ≠ 0) (small : n < 2 ^ 53) (j : Nat) :
    UnpackedFloat.round .binary64 .positive (n * 2 ^ j) (-j) = integerForm n := by
  unfold UnpackedFloat.round
  rw [targetExponent_integer nonzero]
  simp only [decreaseExponent, Nat.shiftLeft_eq]
  -- a significand spelled with too few bits is widened to 53 first
  obtain ⟨k, hk⟩ : ∃ k, ((-(j : Int)) - ((n.log2 : Int) - 52)).toNat = k := ⟨_, rfl⟩
  rw [hk, Nat.mul_assoc, ← Nat.pow_add, show -(j : Int) - k = -((j + k : Nat) : Int) by omega]
  exact roundWithAccuracy_integer nonzero small (by omega)

/-! ### Packing -/

theorem unpackSign_packComponents (s : Sign) (e : BitVec 11) (m : BitVec 52) :
    Sign.ofBitVec (unpackSign (packComponents .binary64 s e m)) = s := by
  simp only [unpackSign, packComponents, BitVec.extractLsb]
  rw [BitVec.extractLsb'_append_eq_of_le (by decide), BitVec.extractLsb'_append_eq_of_le (by decide)]
  cases s <;> rfl

/-- A normal number survives packing: its significand has 53 bits and its exponent lies in the
normal range. -/
theorem unpack_pack_normal (s : Sign) {m : Nat} {e : Int} (positive : 0 < m) (low : 2 ^ 52 ≤ m)
    (high : m < 2 ^ 53) (least : -1074 ≤ e) (most : e ≤ 971) :
    unpack .binary64 (pack .binary64 (.finite s m e positive)) = .finite s m e positive := by
  have significand : m.log2 = 52 := (Nat.log2_eq_iff positive.ne').mpr ⟨low, high⟩
  have biased : (e + Format.binary64.exponentBias + Format.binary64.mantissaBitsWithoutImplicit).toNat
      = (e + 1075).toNat := by
    rw [bias64, show ((Format.binary64.mantissaBitsWithoutImplicit : Nat) : Int) = 52 from rfl]
    omega
  have notAllOnes : BitVec.ofNat 11 (e + 1075).toNat ≠ -1#11 := by
    intro same
    have := congrArg BitVec.toNat same
    rw [BitVec.toNat_ofNat, show (-1#11 : BitVec 11).toNat = 2047 from rfl] at this
    omega
  have notZero : BitVec.ofNat 11 (e + 1075).toNat ≠ 0#11 := by
    intro same
    have := congrArg BitVec.toNat same
    rw [BitVec.toNat_ofNat, BitVec.toNat_zero] at this
    omega
  have fraction : (1#1 ++ BitVec.ofNat 52 m).toNat = m := by
    rw [BitVec.toNat_append, ← Nat.shiftLeft_add_eq_or_of_lt (BitVec.ofNat 52 m).isLt,
      BitVec.toNat_ofNat, Nat.shiftLeft_eq]
    simp only [BitVec.toNat_ofNat]
    omega
  rw [UnpackedFloat.pack]
  simp only [significand, biased]
  rw [if_neg (show ¬2 ^ 11 ≤ (e + 1075).toNat + 1 by omega),
    if_pos (show 52 + 1 = Format.binary64.mantissaBits from rfl), UnpackedFloat.unpack]
  simp only [unpackMantissa_packComponents, unpackExponent_packComponents,
    unpackSign_packComponents, if_neg notAllOnes, if_neg notZero, fraction]
  have exponent : ((BitVec.ofNat 11 (e + 1075).toNat).toNat : Int) -
      ((Format.binary64.exponentBias : Nat) + (52 : Nat)) = e := by
    rw [BitVec.toNat_ofNat, bias64]
    omega
  simp only [exponent]

theorem unpack_pack_integerForm {n : Nat} (small : n < 2 ^ 53) :
    (Float.Model.pack (integerForm n)).unpack = integerForm n := by
  by_cases zero : n = 0
  · subst zero
    rfl
  · have bits := log2_le_of_lt zero small
    have significand := log2_mul_two_pow zero (52 - n.log2)
    have low : 2 ^ 52 ≤ n * 2 ^ (52 - n.log2) :=
      (Nat.le_log2 (Nat.mul_ne_zero zero (Nat.two_pow_pos _).ne')).mp (by omega)
    have high : n * 2 ^ (52 - n.log2) < 2 ^ 53 :=
      (Nat.log2_lt (Nat.mul_ne_zero zero (Nat.two_pow_pos _).ne')).mp (by omega)
    simp only [integerForm, dif_neg zero]
    exact unpack_pack_normal .positive _ low high (by omega) (by omega)

/-! ### Exact products and sums -/

theorem mul_integerForm {a b : Nat} (small : a * b < 2 ^ 53) :
    mul .binary64 (integerForm a) (integerForm b) = integerForm (a * b) := by
  by_cases left : a = 0
  · subst left
    by_cases right : b = 0
    · subst right
      rfl
    · simp [integerForm, right, UnpackedFloat.mul]
      rfl
  by_cases right : b = 0
  · subst right
    simp [integerForm, left, UnpackedFloat.mul]
    rfl
  -- two 53-bit significands multiply to a product spelled with more than 53 bits
  have product : a * b ≠ 0 := Nat.mul_ne_zero left right
  have bits : a.log2 + b.log2 ≤ (a * b).log2 :=
    (Nat.le_log2 product).mpr (by
      rw [Nat.pow_add]
      exact Nat.mul_le_mul (Nat.log2_self_le left) (Nat.log2_self_le right))
  have aBits := log2_le_of_lt left (by
    have := Nat.le_mul_of_pos_right a (Nat.pos_of_ne_zero right)
    omega)
  have bBits := log2_le_of_lt right (by
    have := Nat.le_mul_of_pos_left b (Nat.pos_of_ne_zero left)
    omega)
  have significand : a * 2 ^ (52 - a.log2) * (b * 2 ^ (52 - b.log2)) =
      a * b * 2 ^ ((52 - a.log2) + (52 - b.log2)) := by
    rw [Nat.pow_add]
    ring
  have exponent : ((a.log2 : Int) - 52) + ((b.log2 : Int) - 52) =
      -(((52 - a.log2) + (52 - b.log2) : Nat) : Int) := by
    omega
  simp only [integerForm, left, right, dif_neg, not_false_eq_true, UnpackedFloat.mul]
  rw [significand, exponent]
  exact roundWithAccuracy_integer product small (by omega)

theorem add_integerForm {a b : Nat} (small : a + b < 2 ^ 53) :
    add .binary64 (integerForm a) (integerForm b) = integerForm (a + b) := by
  by_cases left : a = 0
  · subst left
    by_cases right : b = 0
    · subst right
      rfl
    · simp [integerForm, right, UnpackedFloat.add]
  by_cases right : b = 0
  · subst right
    simp [integerForm, left, UnpackedFloat.add]
  have aBits := log2_le_of_lt left (by omega)
  have bBits := log2_le_of_lt right (by omega)
  -- both significands are brought to the smaller exponent, where they add as integers
  have aligned : ∀ x : Nat, x.log2 ≤ 52 → min a.log2 b.log2 ≤ x.log2 →
      (x * 2 ^ (52 - x.log2)) <<< ((x.log2 : Int) - 52 -
        min ((a.log2 : Int) - 52) ((b.log2 : Int) - 52)).toNat =
      x * 2 ^ (52 - min a.log2 b.log2) := by
    intro x bits above
    rw [Nat.shiftLeft_eq, Nat.mul_assoc, ← Nat.pow_add]
    congr 2
    omega
  have exponent : min ((a.log2 : Int) - 52) ((b.log2 : Int) - 52) =
      -((52 - min a.log2 b.log2 : Nat) : Int) := by
    omega
  have sum : Sign.positive.apply ((a * 2 ^ (52 - min a.log2 b.log2) : Nat) : Int) +
      Sign.positive.apply ((b * 2 ^ (52 - min a.log2 b.log2) : Nat) : Int) =
      (((a + b) * 2 ^ (52 - min a.log2 b.log2) : Nat) : Int) := by
    simp only [Sign.apply]
    push_cast
    ring
  have positive : 0 < (((a + b) * 2 ^ (52 - min a.log2 b.log2) : Nat) : Int) := by
    have := Nat.two_pow_pos (52 - min a.log2 b.log2)
    positivity
  have formA : integerForm a = .finite .positive (a * 2 ^ (52 - a.log2)) ((a.log2 : Int) - 52)
      (Nat.mul_pos (Nat.pos_of_ne_zero left) (Nat.two_pow_pos _)) := dif_neg left
  have formB : integerForm b = .finite .positive (b * 2 ^ (52 - b.log2)) ((b.log2 : Int) - 52)
      (Nat.mul_pos (Nat.pos_of_ne_zero right) (Nat.two_pow_pos _)) := dif_neg right
  rw [formA, formB]
  simp only [UnpackedFloat.add, decreaseExponent]
  rw [aligned a aBits (Nat.min_le_left _ _), aligned b bBits (Nat.min_le_right _ _), sum,
    exponent]
  unfold UnpackedFloat.normalize
  rw [(Int.compare_eq_gt).mpr positive, Int.toNat_natCast]
  exact round_integer (by omega) small _

/-! ### Numbers as words -/

/-- A number whose word unpacks to a finite value decodes to the same sign, significand and
exponent: normal numbers carry the implicit bit, subnormal ones the least exponent. -/
theorem decode_of_unpack {x : Float} {s : Sign} {m : Nat} {e : Int} {positive : 0 < m}
    (unpacked : x.toModel.unpack = .finite s m e positive) :
    decode x = .finite ⟨s == .negative, m, e⟩ := by
  have sign : decide (signField x.toBits = 1) =
      (Sign.ofBitVec (@unpackSign Format.binary64 x.toBits.toBitVec) == .negative) := by
    have bit := unpackSign_toNat x.toBits
    have below := signField_lt x.toBits
    unfold Sign.ofBitVec
    split
    · rename_i zero
      rw [zero, show (0#1 : BitVec 1).toNat = 0 from rfl] at bit
      show decide (signField x.toBits = 1) = false
      rw [decide_eq_false_iff_not]
      omega
    · rename_i nonzero
      have : (@unpackSign Format.binary64 x.toBits.toBitVec).toNat ≠ 0 :=
        fun z => nonzero (BitVec.eq_of_toNat_eq z)
      show decide (signField x.toBits = 1) = true
      rw [decide_eq_true_iff]
      omega
  have exponent := unpackExponent_toNat x.toBits
  have fraction := unpackMantissa_toNat x.toBits
  change unpack .binary64 x.toBits.toBitVec = _ at unpacked
  unfold UnpackedFloat.unpack at unpacked
  dsimp only at unpacked
  rw [decode_eq]
  by_cases allOnes : expField x.toBits = 2047
  -- an all-ones exponent is an infinity or NaN
  · have vec : @unpackExponent Format.binary64 x.toBits.toBitVec = -1#11 := by
      apply BitVec.eq_of_toNat_eq
      rw [exponent, allOnes]
      rfl
    rw [if_pos vec] at unpacked
    split at unpacked <;> cases unpacked
  have notOnes : @unpackExponent Format.binary64 x.toBits.toBitVec ≠ -1#11 := by
    intro vec
    apply allOnes
    rw [← exponent, vec]
    rfl
  rw [if_neg notOnes] at unpacked
  rw [if_neg allOnes]
  by_cases allZeros : expField x.toBits = 0
  -- a zero exponent field is a subnormal number
  · have vec : @unpackExponent Format.binary64 x.toBits.toBitVec = 0#11 := by
      apply BitVec.eq_of_toNat_eq
      rw [exponent, allZeros]
      rfl
    rw [if_pos vec] at unpacked
    split at unpacked
    · cases unpacked
    · simp only [UnpackedFloat.finite.injEq] at unpacked
      obtain ⟨rfl, rfl, rfl⟩ := unpacked
      rw [if_pos allZeros, fraction, exponent, allZeros, bias64]
      simp [sign]
  -- otherwise a normal number, with the implicit bit
  · have vec : @unpackExponent Format.binary64 x.toBits.toBitVec ≠ 0#11 := by
      intro vec
      apply allZeros
      rw [← exponent, vec]
      rfl
    rw [if_neg vec] at unpacked
    simp only [UnpackedFloat.finite.injEq] at unpacked
    obtain ⟨rfl, rfl, rfl⟩ := unpacked
    rw [if_neg allZeros, BitVec.toNat_append, ← Nat.shiftLeft_add_eq_or_of_lt (BitVec.isLt _),
      fraction, exponent, bias64]
    simp [sign, Nat.shiftLeft_eq]

/-- A word whose exponent field is all ones unpacks to an infinity or to NaN. -/
theorem unpack_of_allOnes {x : Float} (allOnes : expField x.toBits = 2047) :
    (∃ s, x.toModel.unpack = .infinity s) ∨ x.toModel.unpack = .notANumber := by
  have vec : @unpackExponent Format.binary64 x.toBits.toBitVec = -1#11 := by
    apply BitVec.eq_of_toNat_eq
    rw [unpackExponent_toNat, allOnes]
    rfl
  change (∃ s, unpack .binary64 x.toBits.toBitVec = .infinity s) ∨
    unpack .binary64 x.toBits.toBitVec = .notANumber
  unfold UnpackedFloat.unpack
  dsimp only
  rw [if_pos vec]
  split
  · exact Or.inl ⟨_, rfl⟩
  · exact Or.inr rfl

theorem expField_ne_of_integerForm {x : Float} {n : Nat} (form : x.toModel.unpack = integerForm n) :
    expField x.toBits ≠ 2047 := by
  intro allOnes
  rcases unpack_of_allOnes allOnes with ⟨s, special⟩ | special <;>
    rw [form] at special <;> unfold integerForm at special <;> split at special <;> cases special

/-- Two numbers with the form of one integer are the same number. -/
theorem eq_of_integerForm {x y : Float} {n : Nat} (left : x.toModel.unpack = integerForm n)
    (right : y.toModel.unpack = integerForm n) : x = y := by
  apply toBits_inj
  apply UInt64.toNat_inj.mp
  rw [← pack_unpack (expField_ne_of_integerForm left),
    ← pack_unpack (expField_ne_of_integerForm right)]
  change (pack .binary64 x.toModel.unpack).toNat = (pack .binary64 y.toModel.unpack).toNat
  rw [left, right]

/-! ### Converting and reading integers -/

theorem normalize_integer {n : Nat} (small : n < 2 ^ 53) :
    normalize .binary64 (n : Int) 0 .positive = integerForm n := by
  by_cases zero : n = 0
  · subst zero
    rfl
  · unfold UnpackedFloat.normalize
    rw [(Int.compare_eq_gt).mpr (by omega), Int.toNat_natCast]
    simpa using round_integer zero small 0

/-- Converting an integer below 2^53 is exact: the word conversion gives the integer's form, and
the conversion multiplies it by the exact power of ten `10^0`. -/
theorem unpack_ofNat {n : Nat} (small : n < 2 ^ 53) :
    (Float.ofNat n).toModel.unpack = integerForm n := by
  have converted : n.toUInt64.toFloat.toModel.unpack = integerForm n := by
    change (Float.Model.pack (UnpackedFloat.ofNat .binary64 n.toUInt64.toNat)).unpack = _
    rw [Nat.toUInt64_eq, UInt64.toNat_ofNat', Nat.mod_eq_of_lt (by omega)]
    unfold UnpackedFloat.ofNat UnpackedFloat.ofInt
    rw [normalize_integer small, unpack_pack_integerForm small]
  have one : Float.exactlyRepresentablePowersOfTen[0].toModel.unpack = integerForm 1 := rfl
  have fast : Float.ofNat n = n.toUInt64.toFloat * Float.exactlyRepresentablePowersOfTen[0] := by
    unfold Float.ofNat
    show Float.ofScientific n false 0 = _
    unfold Float.ofScientific
    rw [dif_pos ⟨small, by decide⟩]
    rfl
  rw [fast]
  change (Float.Model.pack (mul .binary64 _ _)).unpack = _
  rw [converted, one, mul_integerForm (by omega), Nat.mul_one, unpack_pack_integerForm small]

/-- An integer below 2^53 converts to a number whose value is exactly that integer. -/
theorem decode_ofNat {n : Nat} (small : n < 2 ^ 53) :
    ∃ b : Binary, decode (Float.ofNat n) = .finite b ∧ b.neg = false ∧ (b.m : ℚ) * 2 ^ b.q = n := by
  by_cases zero : n = 0
  · subst zero
    exact ⟨⟨false, 0, -1074⟩, by decide +kernel, rfl, by simp⟩
  · have form := unpack_ofNat small
    rw [integerForm, dif_neg zero] at form
    refine ⟨_, decode_of_unpack form, rfl, ?_⟩
    have bits := log2_le_of_lt zero small
    -- the significand's extra bits and the exponent cancel
    have cancel : (2 : ℚ) ^ (52 - n.log2) * 2 ^ ((n.log2 : Int) - 52) = 1 := by
      rw [← zpow_natCast, ← zpow_add₀ (by norm_num)]
      simp [Nat.cast_sub bits]
    push_cast
    rw [mul_assoc, cancel, mul_one]

/-- The integer that digits in a radix spell, read from the left after the integer `a`. -/
def radixValueFrom (radix a : Nat) (cs : List Char) : Nat :=
  cs.foldl (fun n c => n * radix + (digitIn radix c).getD 0) a

theorem le_radixValueFrom {radix : Nat} (positive : 0 < radix) (a : Nat) (cs : List Char) :
    a ≤ radixValueFrom radix a cs := by
  induction cs generalizing a with
  | nil => exact le_refl a
  | cons c cs ih =>
    have grows : a ≤ a * radix + (digitIn radix c).getD 0 :=
      le_trans (Nat.le_mul_of_pos_right a positive) (Nat.le_add_right _ _)
    exact le_trans grows (ih _)

/-- One step of reading digits keeps an integer's form while the integer stays below 2^53. -/
theorem unpack_radixStep {radix : Nat} (valid : radix ∈ [2, 8, 16]) {acc next : Float} {a : Nat}
    {c : Char} (form : acc.toModel.unpack = integerForm a) (step : radixStep radix acc c = some next)
    (small : a * radix + (digitIn radix c).getD 0 < 2 ^ 53) :
    next.toModel.unpack = integerForm (a * radix + (digitIn radix c).getD 0) := by
  obtain ⟨d, digit, rfl⟩ := Option.map_eq_some_iff.mp step
  have bounds : radix ≤ 16 ∧ d < 16 := by
    have := digitIn_lt digit
    simp only [List.mem_cons, List.not_mem_nil, or_false] at valid
    omega
  rw [digit, Option.getD_some] at small ⊢
  have product : (acc * Float.ofNat radix).toModel.unpack = integerForm (a * radix) := by
    change (Float.Model.pack (mul .binary64 acc.toModel.unpack (Float.ofNat radix).toModel.unpack)).unpack = _
    rw [form, unpack_ofNat (by omega), mul_integerForm (by omega), unpack_pack_integerForm (by omega)]
  change (Float.Model.pack (add .binary64 (acc * Float.ofNat radix).toModel.unpack
    (Float.ofNat d).toModel.unpack)).unpack = _
  rw [product, unpack_ofNat (by omega), add_integerForm small, unpack_pack_integerForm small]

theorem foldlM_radixStep_exact {radix : Nat} (valid : radix ∈ [2, 8, 16]) (cs : List Char) :
    ∀ {acc : Float} {a : Nat}, acc.toModel.unpack = integerForm a →
      (∀ c ∈ cs, (digitIn radix c).isSome) → radixValueFrom radix a cs < 2 ^ 53 →
      ∃ x, cs.foldlM (radixStep radix) acc = some x ∧
        x.toModel.unpack = integerForm (radixValueFrom radix a cs) := by
  have positive : 0 < radix := by
    simp only [List.mem_cons, List.not_mem_nil, or_false] at valid
    omega
  induction cs with
  | nil => exact fun form _ _ => ⟨_, rfl, form⟩
  | cons c cs ih =>
    intro acc a form digits small
    obtain ⟨d, digit⟩ := Option.isSome_iff_exists.mp (digits c List.mem_cons_self)
    obtain ⟨next, step⟩ : ∃ next, radixStep radix acc c = some next :=
      ⟨acc * Float.ofNat radix + Float.ofNat d, by simp [radixStep, digit]⟩
    -- every integer read on the way is at most the whole, so each step stays exact
    have below := lt_of_le_of_lt (le_radixValueFrom positive _ cs) small
    rw [List.foldlM_cons, step]
    exact ih (unpack_radixStep valid form step below)
      (fun c' member => digits c' (List.mem_cons_of_mem c member)) small

/-- The integer that digits in a radix spell. -/
def radixValue (radix : Nat) (cs : List Char) : Nat := radixValueFrom radix 0 cs

/-- Digits of a radix up to sixteen that spell an integer below 2^53 are read as exactly that
integer. -/
theorem readRadix_exact {radix : Nat} (valid : radix ∈ [2, 8, 16]) {cs : List Char}
    (nonempty : cs ≠ []) (digits : ∀ c ∈ cs, (digitIn radix c).isSome)
    (small : radixValue radix cs < 2 ^ 53) :
    readRadix radix cs = some (Float.ofNat (radixValue radix cs)) := by
  have start : (0 : Float).toModel.unpack = integerForm 0 := unpack_ofNat (by decide)
  obtain ⟨x, read, form⟩ := foldlM_radixStep_exact valid cs start digits small
  rw [readRadix_eq, if_neg (by simpa using nonempty), read,
    eq_of_integerForm form (unpack_ofNat small)]
  rfl

end EmbedScript.Number
