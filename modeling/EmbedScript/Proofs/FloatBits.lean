import Mathlib
import EmbedScript.Number.Binary

/-!
Numbers as 64-bit words. `Float` is, in Lean's logic, a valid word of the binary64 format,
where every NaN is the one canonical NaN. A word splits into a sign bit, an 11-bit biased
exponent and a 52-bit fraction; `decode` reads exactly these fields, and writing a canonical
significand and exponent back with `ofSignificand` gives the word they came from. So a number
is determined by what it decodes to (`eq_of_decode_eq`), and `ofSignificand` is the inverse of
`decode` on finite numbers (`ofSignificand_of_decode`).
-/

namespace EmbedScript.Number

open Float.Model UnpackedFloat

/-! ### The three fields of a word -/

/-- The sign bit of a word. -/
def signField (w : UInt64) : Nat := w.toNat / 2 ^ 63

/-- The biased exponent of a word. -/
def expField (w : UInt64) : Nat := w.toNat / 2 ^ 52 % 2 ^ 11

/-- The fraction of a word. -/
def fracField (w : UInt64) : Nat := w.toNat % 2 ^ 52

/-- The sign bit a sign is written with. -/
def signBit (neg : Bool) : Nat := if neg then 1 else 0

theorem signBit_lt (neg : Bool) : signBit neg < 2 := by
  cases neg <;> decide

theorem toNat_fields (w : UInt64) :
    w.toNat = signField w * 2 ^ 63 + expField w * 2 ^ 52 + fracField w := by
  have := w.toNat_lt
  simp only [signField, expField, fracField]
  omega

theorem signField_lt (w : UInt64) : signField w < 2 := by
  have := w.toNat_lt
  simp only [signField]
  omega

theorem expField_lt (w : UInt64) : expField w < 2048 := Nat.mod_lt _ (by decide)

theorem fracField_lt (w : UInt64) : fracField w < 2 ^ 52 := Nat.mod_lt _ (by decide)

/-- A word whose value is given by three fields has those fields. -/
theorem fields_of_toNat {w : UInt64} {s E F : Nat} (hE : E < 2048) (hF : F < 2 ^ 52)
    (word : w.toNat = s * 2 ^ 63 + E * 2 ^ 52 + F) :
    signField w = s ∧ expField w = E ∧ fracField w = F := by
  simp only [signField, expField, fracField, word]
  omega

/-- Or-ing bits below a multiple of `2^k` adds them. -/
theorem or_eq_add_of_dvd {a b k : Nat} (hb : b < 2 ^ k) (ha : 2 ^ k ∣ a) : a ||| b = a + b := by
  obtain ⟨c, rfl⟩ := ha
  rw [Nat.mul_comm, ← Nat.shiftLeft_eq, ← Nat.shiftLeft_add_eq_or_of_lt hb]

/-! ### Decoding -/

theorem shift_sign (w : UInt64) : (w >>> 63 == 1) = decide (signField w = 1) := by
  have := w.toNat_lt
  rw [Bool.eq_iff_iff, beq_iff_eq, decide_eq_true_iff, ← UInt64.toNat_inj]
  simp [signField, UInt64.toNat_shiftRight, Nat.shiftRight_eq_div_pow]

theorem mask_exp (w : UInt64) : ((w >>> 52) &&& 0x7FF).toNat = expField w := by
  rw [UInt64.toNat_and, UInt64.toNat_shiftRight, show (0x7FF : UInt64).toNat = 2 ^ 11 - 1 from rfl,
    Nat.and_two_pow_sub_one_eq_mod]
  simp [expField, Nat.shiftRight_eq_div_pow]

theorem mask_frac (w : UInt64) : (w &&& 0xFFFFFFFFFFFFF).toNat = fracField w := by
  rw [UInt64.toNat_and, show (0xFFFFFFFFFFFFF : UInt64).toNat = 2 ^ 52 - 1 from rfl,
    Nat.and_two_pow_sub_one_eq_mod]
  rfl

/-- `decode` reads the three fields of the word. -/
theorem decode_eq (x : Float) : decode x =
    if expField x.toBits = 2047 then
      (if fracField x.toBits = 0 then .infinite (signField x.toBits = 1) else .nan)
    else if expField x.toBits = 0 then .finite ⟨signField x.toBits = 1, fracField x.toBits, -1074⟩
    else .finite ⟨signField x.toBits = 1, Nat.pow 2 52 + fracField x.toBits,
      (expField x.toBits : Int) - 1075⟩ := by
  simp only [decode, shift_sign, mask_exp, mask_frac, beq_iff_eq]

/-! ### The logical model's packing -/

theorem unpackMantissa_toNat (w : UInt64) :
    (@unpackMantissa Format.binary64 w.toBitVec).toNat = fracField w := by
  simp [unpackMantissa, fracField, BitVec.extractLsb_toNat]

theorem unpackExponent_toNat (w : UInt64) :
    (@unpackExponent Format.binary64 w.toBitVec).toNat = expField w := by
  simp [unpackExponent, expField, BitVec.extractLsb_toNat, Nat.shiftRight_eq_div_pow]

theorem unpackSign_toNat (w : UInt64) :
    (@unpackSign Format.binary64 w.toBitVec).toNat = signField w := by
  have := w.toNat_lt
  simp [unpackSign, signField, BitVec.extractLsb_toNat, Nat.shiftRight_eq_div_pow]
  omega

theorem packComponents_toNat (s : Sign) (e : BitVec 11) (m : BitVec 52) :
    (packComponents Format.binary64 s e m).toNat =
      s.toBitVec.toNat * 2 ^ 63 + e.toNat * 2 ^ 52 + m.toNat := by
  simp only [packComponents, BitVec.toNat_append]
  rw [← Nat.shiftLeft_add_eq_or_of_lt e.isLt, ← Nat.shiftLeft_add_eq_or_of_lt m.isLt]
  simp only [Nat.shiftLeft_eq]
  ring

theorem toBitVec_ofBitVec (b : BitVec 1) : (Sign.ofBitVec b).toBitVec = b := by
  unfold Sign.ofBitVec
  split
  · rename_i zero
    rw [zero]
    rfl
  · rename_i nonzero
    have one : b = 1#1 := by
      have := b.isLt
      apply BitVec.eq_of_toNat_eq
      have : b.toNat ≠ 0 := fun z => nonzero (BitVec.eq_of_toNat_eq z)
      simp only [BitVec.toNat_ofNat]
      omega
    rw [one]
    rfl

theorem bias64 : ((Format.binary64.exponentBias : Nat) : Int) = 1023 := rfl

theorem mantissaBits64 : Format.binary64.mantissaBits = 53 := rfl

/-- Packing what unpacking read gives the word back, for every word that is no NaN or
infinity. -/
theorem pack_unpack {w : UInt64} (finite : expField w ≠ 2047) :
    (UnpackedFloat.pack Format.binary64 (UnpackedFloat.unpack Format.binary64 w.toBitVec)).toNat =
      w.toNat := by
  have fields := toNat_fields w
  have fracLt := fracField_lt w
  have expLt := expField_lt w
  have signBits := unpackSign_toNat w
  have expBits := unpackExponent_toNat w
  have fracBits := unpackMantissa_toNat w
  unfold UnpackedFloat.unpack
  simp only
  split
  · rename_i allOnes
    have := congrArg BitVec.toNat allOnes
    rw [expBits] at this
    exact absurd this (by simpa using finite)
  · split
    · rename_i zeroExp
      have e0 : expField w = 0 := by rw [← expBits, zeroExp]; rfl
      split
      · -- a zero
        rename_i zeroFrac
        have f0 : fracField w = 0 := by rw [← fracBits, zeroFrac]; rfl
        simp only [UnpackedFloat.pack, packedZero, packComponents_toNat, toBitVec_ofBitVec, signBits]
        simp
        omega
      · -- a subnormal: the biased exponent comes out as one, so the significand is written as is
        rename_i nonzeroFrac
        have f0 : fracField w ≠ 0 :=
          fun z => nonzeroFrac (BitVec.eq_of_toNat_eq (by simpa [fracBits] using z))
        have small : (@unpackMantissa Format.binary64 w.toBitVec).toNat.log2 < 52 := by
          rw [fracBits]
          exact (Nat.log2_lt f0).2 fracLt
        simp only [UnpackedFloat.pack, bias64, mantissaBits64, expBits, e0]
        rw [if_neg (by decide), if_neg (by omega), packComponents_toNat, toBitVec_ofBitVec, signBits]
        simp [fracBits]
        omega
    · -- a normal number: the leading bit is put back and taken off again
      rename_i notAllOnes nonzeroExp
      have e0 : expField w ≠ 0 :=
        fun z => nonzeroExp (BitVec.eq_of_toNat_eq (by simpa [expBits] using z))
      have lead : (1#1 ++ @unpackMantissa Format.binary64 w.toBitVec).toNat =
          2 ^ 52 + fracField w := by
        rw [BitVec.toNat_append, ← Nat.shiftLeft_add_eq_or_of_lt (BitVec.isLt _), fracBits]
        simp [Nat.shiftLeft_eq]
      have normal : (2 ^ 52 + fracField w).log2 = 52 := by
        rw [Nat.log2_eq_iff (by omega)]
        omega
      simp only [UnpackedFloat.pack, bias64, mantissaBits64, expBits, lead, normal]
      rw [if_neg (by omega), if_pos trivial, packComponents_toNat, toBitVec_ofBitVec, signBits]
      simp
      omega

theorem toBits_ofBits {w : UInt64} (finite : expField w ≠ 2047) : (Float.ofBits w).toBits = w :=
  UInt64.toNat_inj.mp (pack_unpack finite)

theorem toBits_inj {x y : Float} (same : x.toBits = y.toBits) : x = y := by
  rcases x with ⟨⟨bx, vx⟩⟩
  rcases y with ⟨⟨by', vy⟩⟩
  change bx = by' at same
  subst same
  rfl

/-! ### Canonical significands -/

/-- A significand and exponent as a finite number has them: below `2^53`, and either at least
`2^52` with an exponent in the normal range or a subnormal at the least exponent. -/
structure Binary.Canonical (b : Binary) : Prop where
  m_lt : b.m < 2 ^ 53
  least : b.m < 2 ^ 52 → b.q = -1074
  normal : 2 ^ 52 ≤ b.m → -1074 ≤ b.q ∧ b.q ≤ 971

theorem Binary.Canonical.q_le {b : Binary} (canonical : b.Canonical) : b.q ≤ 971 := by
  by_cases small : b.m < 2 ^ 52
  · rw [canonical.least small]
    decide
  · exact (canonical.normal (by omega)).2

theorem Binary.Canonical.le_q {b : Binary} (canonical : b.Canonical) : -1074 ≤ b.q := by
  by_cases small : b.m < 2 ^ 52
  · rw [canonical.least small]
  · exact (canonical.normal (by omega)).1

/-- The word of a finite number. -/
def Binary.word (b : Binary) : Nat :=
  signBit b.neg * 2 ^ 63 + if b.m < 2 ^ 52 then b.m else (b.q + 1075).toNat * 2 ^ 52 + (b.m - 2 ^ 52)

theorem signWord_toNat (neg : Bool) :
    (if neg then (0x8000000000000000 : UInt64) else 0).toNat = signBit neg * 2 ^ 63 := by
  cases neg <;> rfl

/-- `ofSignificand` writes the word of a canonical significand and exponent. -/
theorem decode_ofSignificand {b : Binary} (canonical : b.Canonical) :
    decode (ofSignificand b.neg b.m b.q) = .finite b := by
  obtain ⟨neg, m, e⟩ := b
  obtain ⟨below, least, range⟩ := canonical
  dsimp only at below least range ⊢
  have hs := signBit_lt neg
  unfold ofSignificand
  simp only [Nat.pow_eq]
  split
  · rename_i sub
    set w : UInt64 := (if neg then (0x8000000000000000 : UInt64) else 0) ||| m.toUInt64
    have word : w.toNat = signBit neg * 2 ^ 63 + 0 * 2 ^ 52 + m := by
      simp only [w, UInt64.toNat_or, signWord_toNat, UInt64.toNat_ofNat']
      rw [Nat.mod_eq_of_lt (by omega), or_eq_add_of_dvd (by omega) (Nat.dvd_mul_left _ _)]
      simp
    obtain ⟨sf, ef, ff⟩ := fields_of_toNat (by omega) sub word
    rw [decode_eq, toBits_ofBits (by omega), sf, ef, ff, least sub]
    cases neg <;> simp [signBit]
  · rename_i normal
    obtain ⟨lo, hi⟩ := range (by omega)
    set w : UInt64 := (if neg then (0x8000000000000000 : UInt64) else 0) |||
      ((e + 1075).toNat.toUInt64 <<< 52) ||| (m - 2 ^ 52).toUInt64
    have word : w.toNat = signBit neg * 2 ^ 63 + (e + 1075).toNat * 2 ^ 52 + (m - 2 ^ 52) := by
      simp only [w, UInt64.toNat_or, signWord_toNat, UInt64.toNat_ofNat', UInt64.toNat_shiftLeft]
      have exponent : ((e + 1075).toNat % 2 ^ 64) <<< ((52 : UInt64).toNat % 64) % 2 ^ 64 =
          (e + 1075).toNat * 2 ^ 52 := by
        rw [Nat.shiftLeft_eq, show (52 : UInt64).toNat % 64 = 52 from rfl,
          Nat.mod_eq_of_lt (by omega), Nat.mod_eq_of_lt (by omega)]
      rw [exponent, Nat.mod_eq_of_lt (by omega),
        or_eq_add_of_dvd (k := 63) (by omega) (Nat.dvd_mul_left _ _),
        or_eq_add_of_dvd (k := 52) (by omega)]
      exact Nat.dvd_add (Dvd.dvd.mul_left (Nat.pow_dvd_pow 2 (by omega)) _) (Nat.dvd_mul_left _ _)
    obtain ⟨sf, ef, ff⟩ := fields_of_toNat (by omega) (by omega) word
    rw [decode_eq, toBits_ofBits (by omega), sf, ef, ff, if_neg (by omega), if_neg (by omega)]
    have significand : Nat.pow 2 52 + (m - 2 ^ 52) = m := by
      rw [Nat.pow_eq]
      omega
    have exponent : ((e + 1075).toNat : Int) - 1075 = e := by omega
    rw [significand, exponent]
    cases neg <;> simp [signBit]

/-- What a finite number decodes to is canonical, and its word is that of the decoded value. -/
theorem decode_finite {x : Float} {b : Binary} (h : decode x = .finite b) :
    b.Canonical ∧ x.toBits.toNat = b.word := by
  have fields := toNat_fields x.toBits
  have fracLt := fracField_lt x.toBits
  have signLt := signField_lt x.toBits
  have signIs : signBit (decide (signField x.toBits = 1)) = signField x.toBits := by
    unfold signBit
    split <;> simp_all
    omega
  have expLt := expField_lt x.toBits
  rw [decode_eq] at h
  split_ifs at h with allOnes
  · -- a subnormal or zero: the fraction is the significand
    obtain rfl := Decoded.finite.inj h
    refine ⟨⟨show fracField x.toBits < 2 ^ 53 by omega, fun _ => rfl,
      fun big => absurd (show 2 ^ 52 ≤ fracField x.toBits from big) (by omega)⟩, ?_⟩
    simp only [Binary.word, signIs]
    rw [if_pos fracLt, fields, ‹expField x.toBits = 0›, Nat.zero_mul, Nat.add_zero]
  · -- a normal number: the leading bit is implicit
    obtain rfl := Decoded.finite.inj h
    have lead : Nat.pow 2 52 = 2 ^ 52 := Nat.pow_eq
    refine ⟨⟨show Nat.pow 2 52 + fracField x.toBits < 2 ^ 53 by omega,
      fun small => absurd (show Nat.pow 2 52 + fracField x.toBits < 2 ^ 52 from small) (by omega),
      fun _ => show -1074 ≤ (expField x.toBits : Int) - 1075 ∧ (expField x.toBits : Int) - 1075 ≤ 971
        by omega⟩, ?_⟩
    simp only [Binary.word, signIs, lead]
    rw [if_neg (by omega)]
    have exponent : ((expField x.toBits : Int) - 1075 + 1075).toNat = expField x.toBits := by
      omega
    rw [exponent, Nat.add_sub_cancel_left, fields, Nat.add_assoc]

theorem decode_infinite {x : Float} {neg : Bool} (h : decode x = .infinite neg) :
    x.toBits.toNat = signBit neg * 2 ^ 63 + 2047 * 2 ^ 52 := by
  have fields := toNat_fields x.toBits
  have signLt := signField_lt x.toBits
  rw [decode_eq] at h
  split_ifs at h with allOnes zeroFrac
  obtain rfl := Decoded.infinite.inj h
  unfold signBit
  split <;> simp_all
  omega

/-- Every NaN is the one canonical NaN word. -/
theorem toBits_of_decode_nan {x : Float} (nan : decode x = .nan) :
    x.toBits = 0x7FF8000000000000 := by
  rw [decode_eq] at nan
  split_ifs at nan with allOnes zeroFrac
  have expVec : @unpackExponent Format.binary64 x.toBits.toBitVec = -1#11 := by
    apply BitVec.eq_of_toNat_eq
    rw [unpackExponent_toNat, allOnes]
    rfl
  have fracVec : @unpackMantissa Format.binary64 x.toBits.toBitVec ≠ 0#52 := by
    intro zero
    have := congrArg BitVec.toNat zero
    rw [unpackMantissa_toNat] at this
    exact zeroFrac this
  exact UInt64.toBitVec_inj.mp (x.toModel.valid.eq_packedNaN expVec fracVec)

/-- A number is determined by what it decodes to. -/
theorem eq_of_decode_eq {x y : Float} (same : decode x = decode y) : x = y := by
  apply toBits_inj
  apply UInt64.toNat_inj.mp
  cases hx : decode x with
  | nan => rw [toBits_of_decode_nan hx, toBits_of_decode_nan (hx ▸ same).symm]
  | infinite neg => rw [decode_infinite hx, decode_infinite (hx ▸ same).symm]
  | finite b => rw [(decode_finite hx).2, (decode_finite (hx ▸ same).symm).2]

/-- Writing back what a finite number decodes to gives the number. -/
theorem ofSignificand_of_decode {x : Float} {b : Binary} (h : decode x = .finite b) :
    ofSignificand b.neg b.m b.q = x :=
  eq_of_decode_eq ((decode_ofSignificand (decode_finite h).1).trans h.symm)

end EmbedScript.Number
