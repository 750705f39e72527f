import Mathlib
import EmbedScript.Proofs.NumberText

/-!
Index keys. A key names an array element exactly when it is the decimal text of an index below
`2^32 - 1`, with no leading zero. A number whose value is an integer below `2^53` is written as
that integer in decimal: its shortest digits are the integer's digits without trailing zeros,
since no decimal on a coarser grid lies within half a unit of an integer, and the positional
layout puts the zeros back. So a number used as a key, the string of the same integer and the
key the stack interface builds from an index all address the same element or property.
-/

namespace EmbedScript.Number

/-! ### The decimal length of small values -/

/-- For every binary length below 53 bits, the decimal length estimated from it is at most one
off: `10^(E-2) ≤ 2^t` and `2^(t+1) ≤ 10^(E+1)`. -/
theorem scale_estimate_table :
    ∀ t < 53, 10 ^ (t * 78913 / 262144 + 1 - 2) ≤ 2 ^ t ∧
      2 ^ (t + 1) ≤ 10 ^ (t * 78913 / 262144 + 1 + 1) := by
  decide

/-- The value `m * 2^q` lies between the powers of two of its binary length. -/
theorem magnitude_log2_bounds {m : Nat} (positive : 0 < m) (q : Int) :
    (2 : ℚ) ^ ((Nat.log2 m : Int) + q) ≤ m * 2 ^ q ∧
    (m : ℚ) * 2 ^ q < 2 ^ ((Nat.log2 m : Int) + q + 1) := by
  have low : (2 : ℚ) ^ Nat.log2 m ≤ m := by exact_mod_cast Nat.log2_self_le positive.ne'
  have high : (m : ℚ) < 2 ^ (Nat.log2 m + 1) := by exact_mod_cast Nat.lt_log2_self
  have scale : (0 : ℚ) < 2 ^ q := by positivity
  constructor
  · rw [zpow_add₀ two_ne_zero, zpow_natCast]
    exact mul_le_mul_of_nonneg_right low scale.le
  · rw [add_right_comm, zpow_add₀ two_ne_zero,
      show (Nat.log2 m : Int) + 1 = ((Nat.log2 m + 1 : Nat) : Int) by push_cast; ring, zpow_natCast]
    exact mul_lt_mul_of_pos_right high scale

/-- For values of binary length up to 53 bits, at least one, `decimalScale` is their decimal
length: the least `K` with `m * 2^q < 10^K`. -/
theorem decimalScale_spec {m : Nat} (positive : 0 < m) {q : Int}
    (atLeastOne : 0 ≤ (Nat.log2 m : Int) + q) (below : (Nat.log2 m : Int) + q ≤ 52) :
    (10 : ℚ) ^ (decimalScale m q - 1) ≤ m * 2 ^ q ∧ (m : ℚ) * 2 ^ q < 10 ^ decimalScale m q := by
  obtain ⟨t, length⟩ : ∃ t : Nat, (Nat.log2 m : Int) + q = t := ⟨((Nat.log2 m : Int) + q).toNat, by omega⟩
  obtain ⟨low, high⟩ := magnitude_log2_bounds positive q
  rw [length, zpow_natCast] at low
  rw [length, show (t : Int) + 1 = ((t + 1 : Nat) : Int) by push_cast; ring, zpow_natCast] at high
  obtain ⟨tableLow, tableHigh⟩ := scale_estimate_table t (by omega)
  generalize estimate : t * 78913 / 262144 + 1 = E at tableLow tableHigh
  have estimated : Int.fdiv (((Nat.log2 m : Int) + q) * 78913) 262144 + 1 = E := by
    rw [length, Int.fdiv_eq_ediv_of_nonneg _ (by norm_num)]
    omega
  have ten : ∀ k : Nat, (10 : ℚ) ^ (k : Int) = 10 ^ k := fun k => zpow_natCast 10 k
  unfold decimalScale
  simp only [estimated, cmpScaled_eq, Nat.cast_one, one_mul, bne_iff_ne, ne_eq,
    compare_gt_iff_gt, beq_iff_eq, not_lt]
  have tableLow' : (10 : ℚ) ^ (E - 2 : Nat) ≤ 2 ^ t := by exact_mod_cast tableLow
  have tableHigh' : (2 : ℚ) ^ (t + 1) ≤ 10 ^ (E + 1) := by exact_mod_cast tableHigh
  have one : (1 : ℚ) ≤ m * 2 ^ q := (one_le_pow₀ (by norm_num)).trans low
  split_ifs with reached under
  · -- at least `10^E`: one more digit than estimated
    rw [add_sub_cancel_right, ← Nat.cast_one, ← Nat.cast_add, ten, ten]
    exact ⟨reached, high.trans_le tableHigh'⟩
  · -- below `10^(E-1)`: one digit fewer, and at least two digits were estimated
    have two : 2 ≤ E := by
      by_contra few
      have : (10 : ℚ) ^ ((E : Int) - 1) ≤ 1 := zpow_le_one_of_nonpos₀ (by norm_num) (by omega)
      linarith
    rw [show (E : Int) - 1 - 1 = ((E - 2 : Nat) : Int) by omega, ten]
    exact ⟨tableLow'.trans low, under⟩
  · exact ⟨not_lt.mp under, not_le.mp reached⟩

/-! ### Shortest digits of integers -/

/-- A value that rounds to `b` is within half a unit in the last place of it. -/
theorem Binary.Rounds.near {b : Binary} {v : ℚ} (rounds : b.Rounds v) :
    |v - b.m * 2 ^ b.q| ≤ 2 ^ b.q / 2 := by
  have scale : (0 : ℚ) < 2 ^ b.q := by positivity
  have below : (if b.narrowBelow then 1 / 4 else 1 / 2 : ℚ) ≤ 1 / 2 := by split <;> norm_num
  have low := rounds.lower_le
  have high := rounds.le_upper
  have scaled : |v / 2 ^ b.q - b.m| ≤ 1 / 2 := abs_le.mpr ⟨by linarith, by linarith⟩
  calc |v - b.m * 2 ^ b.q| = |v / 2 ^ b.q - b.m| * 2 ^ b.q := by
        rw [← abs_of_pos scale, ← abs_mul, abs_of_pos scale, sub_mul, div_mul_cancel₀ _ scale.ne']
    _ ≤ 1 / 2 * 2 ^ b.q := mul_le_mul_of_nonneg_right scaled scale.le
    _ = 2 ^ b.q / 2 := by ring

/-- A decimal at least one away from a value whose last place is a unit or finer does not read
back as it. -/
theorem Binary.readsBack_of_far {b : Binary} (positive : 0 < b.m) (fine : b.q ≤ 0) {d : Decimal}
    (far : 1 ≤ |d.value - b.m * 2 ^ b.q|) : b.readsBack d = false := by
  rw [Bool.eq_false_iff]
  intro readsBack
  have near := ((readsBack_iff positive d).mp readsBack).near
  have unit : (2 : ℚ) ^ b.q ≤ 1 := zpow_le_one_of_nonpos₀ (by norm_num) fine
  linarith

theorem one_le_abs_natCast_sub {a c : Nat} (apart : a ≠ c) : (1 : ℚ) ≤ |(a : ℚ) - c| := by
  have distinct : (1 : ℤ) ≤ |(a : ℤ) - c| := Int.one_le_abs (sub_ne_zero.mpr (by exact_mod_cast apart))
  exact_mod_cast distinct

theorem Decimal.exp_le_trim (d : Decimal) : d.exp ≤ d.trim.exp := by
  fun_induction Decimal.trim d with
  | case1 d strip ih =>
    have : d.exp + 1 ≤ _ := ih
    omega
  | case2 d keep => exact le_rfl

/-- A positive integer trimmed is its digits without trailing zeros and their count. -/
theorem Decimal.trim_integer {i : Nat} (positive : 0 < i) :
    ∃ D t : Nat, (⟨i, 0⟩ : Decimal).trim = ⟨D, t⟩ ∧ D * 10 ^ t = i ∧ D % 10 ≠ 0 := by
  have value := Decimal.value_trim ⟨i, 0⟩
  have grows := Decimal.exp_le_trim ⟨i, 0⟩
  have last := (Decimal.trim_digits ⟨i, 0⟩ positive.ne').2
  generalize (⟨i, 0⟩ : Decimal).trim = d at value grows last ⊢
  obtain ⟨D, e⟩ := d
  obtain ⟨t, rfl⟩ : ∃ t : Nat, e = t := ⟨e.toNat, by simp only at grows; omega⟩
  refine ⟨D, t, rfl, ?_, last⟩
  simp only [Decimal.value, zpow_natCast, zpow_zero, mul_one] at value
  exact_mod_cast value

theorem findSome?_range'_of_first {α : Type} {f : Nat → Option α} {v : α} {s len N : Nat}
    (lo : s ≤ N) (hi : N < s + len) (before : ∀ n, s ≤ n → n < N → f n = none)
    (found : f N = some v) : (List.range' s len).findSome? f = some v := by
  induction len generalizing s with
  | zero => omega
  | succ len ih =>
    rw [List.range'_succ, List.findSome?_cons]
    by_cases here : s = N
    · subst here
      rw [found]
    · rw [before s le_rfl (by omega)]
      exact ih (by omega) (by omega) fun n after below => before n (by omega) below

section Integers

variable {b : Binary} {i D t : Nat}

/-- On a grid coarser than the last non-zero digit of an integer no decimal reads back. -/
theorem Binary.onGrid_coarser (positive : 0 < b.m) (fine : b.q ≤ 0) (value : (b.m : ℚ) * 2 ^ b.q = i)
    (split : D * 10 ^ t = i) (last : D % 10 ≠ 0) {j : Int} (coarser : (t : Int) < j) :
    b.onGrid j = none := by
  obtain ⟨n, rfl⟩ : ∃ n : Nat, j = n := ⟨j.toNat, by omega⟩
  have noMultiple : ∀ c : Nat, c * 10 ^ n ≠ i := by
    intro c same
    have divides : 10 ^ t * 10 ∣ 10 ^ t * D := by
      rw [← pow_succ, Nat.mul_comm, split, ← same]
      exact Dvd.dvd.mul_left (pow_dvd_pow 10 (by omega)) c
    exact last (Nat.mod_eq_zero_of_dvd ((Nat.mul_dvd_mul_iff_left (by positivity)).mp divides))
  have far : ∀ c, b.readsBack ⟨c, n⟩ = false := by
    intro c
    apply b.readsBack_of_far positive fine
    rw [value, show (⟨c, n⟩ : Decimal).value = ((c * 10 ^ n : Nat) : ℚ) by
      rw [Decimal.value, zpow_natCast]
      push_cast
      rfl]
    exact one_le_abs_natCast_sub (noMultiple c)
  unfold Binary.onGrid
  simp [far]

/-- On the grid of its last non-zero digit an integer reads back as itself. -/
theorem Binary.onGrid_exact (positive : 0 < b.m) (fine : b.q ≤ 0) (value : (b.m : ℚ) * 2 ^ b.q = i)
    (split : D * 10 ^ t = i) : b.onGrid t = some ⟨D, t⟩ := by
  obtain ⟨k, hk⟩ : ∃ k : Nat, b.q = -(k : Int) := ⟨(-b.q).toNat, by omega⟩
  have significand : b.m = D * 10 ^ t * 2 ^ k := by
    rw [hk, zpow_neg, zpow_natCast, ← div_eq_mul_inv, div_eq_iff (by positivity)] at value
    rw [split]
    exact_mod_cast value
  have floor : floorOnGrid b.m b.q t = D := by
    unfold floorOnGrid
    rw [hk, significand]
    simp only [Int.toNat_neg_natCast, neg_neg, Int.toNat_natCast, Nat.pow_eq, pow_zero, mul_one]
    rw [Nat.mul_comm (2 ^ k), Nat.mul_assoc, Nat.mul_div_cancel _ (by positivity)]
  have exact : b.readsBack ⟨D, t⟩ = true := by
    rw [readsBack_iff positive, show (⟨D, t⟩ : Decimal).value = b.m * 2 ^ b.q by
      rw [value, ← split, Decimal.value, zpow_natCast]
      push_cast
      rfl]
    exact b.rounds_magnitude
  have above : b.readsBack ⟨D + 1, t⟩ = false := by
    apply b.readsBack_of_far positive fine
    rw [value, show (⟨D + 1, t⟩ : Decimal).value = ((i + 10 ^ t : Nat) : ℚ) by
      rw [Decimal.value, zpow_natCast, ← split]
      push_cast
      ring]
    exact one_le_abs_natCast_sub (Nat.ne_of_gt (Nat.lt_add_of_pos_right (by positivity)))
  unfold Binary.onGrid
  simp [floor, exact, above]

/-- The decimal length of an integer below `2^53` exceeds the count of its trailing zeros by
one to seventeen. -/
theorem Binary.decimalScale_of_integer (positive : 0 < b.m) (value : (b.m : ℚ) * 2 ^ b.q = i)
    (small : i < 2 ^ 53) (split : D * 10 ^ t = i) (last : D % 10 ≠ 0) :
    (t : Int) < decimalScale b.m b.q ∧ decimalScale b.m b.q ≤ t + 17 := by
  have dPositive : 0 < D := Nat.pos_of_ne_zero fun zero => last (by simp [zero])
  -- the binary length of the integer is between 0 and 52, where `decimalScale` is exact
  obtain ⟨low, high⟩ := magnitude_log2_bounds positive b.q
  rw [value] at low high
  have iOne : (1 : ℚ) ≤ i := by
    rw [← split]
    exact_mod_cast Nat.one_le_iff_ne_zero.mpr (Nat.mul_ne_zero dPositive.ne' (by positivity))
  have iSmall : (i : ℚ) < 2 ^ (53 : Int) := by exact_mod_cast small
  have atLeastOne : 0 ≤ (Nat.log2 b.m : Int) + b.q := by
    by_contra negative
    have : (2 : ℚ) ^ ((Nat.log2 b.m : Int) + b.q + 1) ≤ 1 :=
      zpow_le_one_of_nonpos₀ (by norm_num) (by omega)
    linarith
  have below : (Nat.log2 b.m : Int) + b.q ≤ 52 := by
    by_contra large
    have : (2 : ℚ) ^ (53 : Int) ≤ 2 ^ ((Nat.log2 b.m : Int) + b.q) :=
      zpow_le_zpow_right₀ (by norm_num) (by omega)
    linarith
  obtain ⟨scaleLow, scaleHigh⟩ := decimalScale_spec positive atLeastOne below
  rw [value] at scaleLow scaleHigh
  constructor
  · have digits : (10 : ℚ) ^ (t : Int) ≤ i := by
      rw [zpow_natCast, ← split]
      exact_mod_cast Nat.le_mul_of_pos_left _ dPositive
    exact (zpow_lt_zpow_iff_right₀ (by norm_num : (1 : ℚ) < 10)).mp (digits.trans_lt scaleHigh)
  · have bound : (2 : ℚ) ^ (53 : Int) < 10 ^ (16 : Int) := by
      show (2 : ℚ) ^ ((53 : Nat) : Int) < 10 ^ ((16 : Nat) : Int)
      rw [zpow_natCast, zpow_natCast]
      norm_num
    have : decimalScale b.m b.q - 1 < 16 := (zpow_lt_zpow_iff_right₀ (by norm_num : (1 : ℚ) < 10)).mp
      ((scaleLow.trans_lt iSmall).trans bound)
    omega

/-- The shortest digits of an integer below `2^53` are its digits without trailing zeros, at
the power of ten of those zeros: the search starts at most seventeen grids above that one, and
the grids in between hold no decimal that reads back. -/
theorem Binary.shortest_of_integer (positive : 0 < b.m) (fine : b.q ≤ 0)
    (value : (b.m : ℚ) * 2 ^ b.q = i) (small : i < 2 ^ 53) (split : D * 10 ^ t = i)
    (last : D % 10 ≠ 0) : b.shortest = ⟨D, t⟩ := by
  obtain ⟨tK, K17⟩ := b.decimalScale_of_integer positive value small split last
  generalize hK : decimalScale b.m b.q = K at tK K17
  have found : (List.range' 1 17).findSome? (fun (n : Nat) => b.onGrid (K - n)) = some ⟨D, t⟩ := by
    apply findSome?_range'_of_first (N := (K - t).toNat) (by omega) (by omega)
    · intro n _ before
      exact b.onGrid_coarser positive fine value split last (by omega)
    · rw [show K - ((K - t).toNat : Int) = t by omega]
      exact b.onGrid_exact positive fine value split
  show ((List.range' 1 17).findSome? (fun (n : Nat) => b.onGrid (decimalScale b.m b.q - n))
    |>.getD b.exact).trim = _
  rw [hK, found, Option.getD_some, Decimal.trim, dif_neg (fun strip => last strip.2)]

end Integers

/-! ### The text of integer values -/

theorem toDigits_mul_pow_ten {D : Nat} (positive : 0 < D) (t : Nat) :
    Nat.toDigits 10 (D * 10 ^ t) = Nat.toDigits 10 D ++ List.replicate t '0' := by
  induction t with
  | zero => simp
  | succ t ih =>
    have shifted : D * 10 ^ (t + 1) = 10 * (D * 10 ^ t) + 0 := by ring
    rw [shifted, ← Nat.toDigits_append_toDigits (by decide) (by positivity) (by decide), ih,
      Nat.toDigits_zero, List.replicate_succ', List.append_assoc]

theorem head_toDigits_ne_zero {n : Nat} (positive : 0 < n) :
    (Nat.toDigits 10 n).head? ≠ some '0' := by
  induction n using Nat.strong_induction_on with
  | _ n ih =>
    rw [Nat.toDigits_eq_if (by decide)]
    split
    · simpa using positive.ne'
    · rw [List.head?_append_of_ne_nil _ Nat.toDigits_ne_nil]
      exact ih (n / 10) (by omega) (by omega)

/-- The signed value of a finite number. -/
def Binary.value (b : Binary) : ℚ := (if b.neg then -1 else 1) * (b.m * 2 ^ b.q)

theorem Binary.value_of_positive {b : Binary} {i : Nat} (positive : 0 < b.m) (value : b.value = i) :
    b.neg = false ∧ (b.m : ℚ) * 2 ^ b.q = i := by
  have magnitude : (0 : ℚ) < b.m * 2 ^ b.q := by positivity
  cases sign : b.neg
  · simpa [Binary.value, sign] using value
  · have : (0 : ℚ) ≤ i := by positivity
    simp only [Binary.value, sign, if_true] at value
    linarith

/-- A positive exponent makes a number normal, so at least `2^53`. -/
theorem Binary.Canonical.q_nonpos_of_lt {b : Binary} (canonical : b.Canonical) {i : Nat}
    (value : (b.m : ℚ) * 2 ^ b.q = i) (small : i < 2 ^ 53) : b.q ≤ 0 := by
  by_contra coarse
  have normal : 2 ^ 52 ≤ b.m := by
    by_contra subnormal
    have := canonical.least (by omega)
    omega
  have large : (2 : ℚ) ^ 53 ≤ (b.m : ℚ) * (2 : ℚ) ^ b.q := calc
    (2 : ℚ) ^ 53 = (2 : ℚ) ^ 52 * (2 : ℚ) ^ (1 : Int) := by norm_num
    _ ≤ (b.m : ℚ) * (2 : ℚ) ^ b.q := by
      gcongr
      · exact_mod_cast normal
      · norm_num
      · omega
  have : (i : ℚ) < 2 ^ 53 := by exact_mod_cast small
  linarith

/-- A number whose value is an integer below `2^53` is written as that integer in decimal. -/
theorem toText_of_integer {x : Float} {b : Binary} {i : Nat} (decoded : decode x = .finite b)
    (value : b.value = i) (small : i < 2 ^ 53) : toText x = toString i := by
  have canonical := (decode_finite decoded).1
  unfold toText
  rw [decoded]
  by_cases zero : b.m = 0
  · obtain rfl : i = 0 := by
      simp only [Binary.value, zero, Nat.cast_zero, zero_mul, mul_zero] at value
      exact_mod_cast value.symm
    simp only [zero, if_true]
    rfl
  have positive : 0 < b.m := Nat.pos_of_ne_zero zero
  obtain ⟨sign, magnitude⟩ := b.value_of_positive positive value
  have fine := canonical.q_nonpos_of_lt magnitude small
  have iPositive : 0 < i := by
    have : (0 : ℚ) < i := magnitude ▸ by positivity
    exact_mod_cast this
  obtain ⟨D, t, -, split, last⟩ := Decimal.trim_integer iPositive
  have dPositive : 0 < D := by
    rcases Nat.eq_zero_or_pos D with rfl | pos
    · simp at last
    · exact pos
  -- `i < 10^16`, so the digits of `D` and the zeros after them fit the positional layout
  have digitsBound : (Nat.toDigits 10 D).length + t ≤ 16 := by
    have below : D * 10 ^ t < 10 ^ 16 := by omega
    have tSmall : t < 16 := by
      have : 10 ^ t < 10 ^ 16 := lt_of_le_of_lt (Nat.le_mul_of_pos_left _ dPositive) below
      exact (Nat.pow_lt_pow_iff_right (by decide)).mp this
    have : D < 10 ^ (16 - t) := by
      rw [← Nat.pow_sub_mul_pow 10 (show t ≤ 16 by omega)] at below
      exact Nat.lt_of_mul_lt_mul_right below
    have := (Nat.length_toDigits_le_iff (by decide) (by omega)).mpr this
    omega
  simp only [zero, if_false, b.shortest_of_integer positive fine magnitude small split last, sign,
    Bool.false_eq_true]
  unfold layout
  simp only [String.length_ofList]
  rw [if_pos (by omega), ← String.toList_inj]
  simp [toList_zeros, ← split, toDigits_mul_pow_ten dPositive]

end EmbedScript.Number

namespace EmbedScript

open Number

/-! ### Index keys -/

/-- An element index is below `2^32 - 1`. -/
theorem arrayIndex?_lt {key : String} {i : Nat} (found : arrayIndex? key = some i) :
    i < 2 ^ 32 - 1 := by
  unfold arrayIndex? at found
  simp only at found
  split at found
  · contradiction
  split at found
  · contradiction
  split at found
  · contradiction
  split at found
  · rename_i below
    obtain rfl := Option.some.inj found
    exact below
  · contradiction

/-- Every index below `2^32 - 1`, written in decimal, names itself. -/
theorem arrayIndex?_toString {i : Nat} (small : i < 2 ^ 32 - 1) :
    arrayIndex? (toString i) = some i := by
  have spelt : (toString i).toList = Nat.toDigits 10 i := Nat.toList_repr
  have short : (Nat.toDigits 10 i).length ≤ 10 :=
    (Nat.length_toDigits_le_iff (by decide) (by decide)).mpr (by omega)
  -- a leading zero only in `0` itself, whose text is one digit long
  have lead : ¬((Nat.toDigits 10 i).length > 1 ∧ (Nat.toDigits 10 i).head? = some '0') := by
    rintro ⟨long, zero⟩
    rcases Nat.eq_zero_or_pos i with rfl | positive
    · simp at long
    · exact head_toDigits_ne_zero positive zero
  have digits : (Nat.toDigits 10 i).all Char.isDigit = true :=
    List.all_eq_true.mpr fun _ member => isDigit_of_mem_toDigits member
  unfold arrayIndex?
  simp only [spelt, digitsValue_toDigits]
  rw [if_neg (by simp [Nat.toDigits_ne_nil]; omega), if_neg (by simpa using lead),
    if_neg (by simp [digits]),
    if_pos (by simpa using small)]

/-- Canonical index keys: a key names the element index `i` exactly when `i` is below
`2^32 - 1` and the key is `i` in decimal, so no two keys name one element; and for every `i`
below `2^32` the key of any number whose value is `i`, the key of the string of `i` and the key
the stack interface reads and writes for index `i` are the same text. -/
theorem canonical_index_keys :
    (∀ (key : String) (i : Nat), arrayIndex? key = some i ↔ i < 2 ^ 32 - 1 ∧ key = toString i) ∧
    (∀ (key key' : String) (i : Nat), arrayIndex? key = some i → arrayIndex? key' = some i →
      key = key') ∧
    (∀ (e : Engine) (x : Float) (b : Binary) (i : Nat), decode x = .finite b → b.value = i →
      i < 2 ^ 32 →
        toText x = toString i ∧
        e.propertyKey (.number x) = e.propertyKey (.string (toString i)) ∧
        ∀ idx : Int, Api.getPropIndex idx i = Api.getPropString idx (e.propertyKey (.number x)) ∧
          Api.putPropIndex idx i = Api.putPropString idx (e.propertyKey (.number x))) := by
  refine ⟨fun key i => ⟨fun found => ⟨arrayIndex?_lt found, arrayIndex?_eq_some found⟩, ?_⟩,
    fun key key' i found found' => arrayIndex?_inj found found', ?_⟩
  · rintro ⟨small, rfl⟩
    exact arrayIndex?_toString small
  · intro e x b i decoded value small
    have text : toText x = toString i := toText_of_integer decoded value (by omega)
    have key : e.propertyKey (.number x) = toString i := text
    exact ⟨text, key, fun idx => by simp only [key]; exact ⟨rfl, rfl⟩⟩

end EmbedScript
