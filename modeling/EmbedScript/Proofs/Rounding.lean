import Mathlib
import EmbedScript.Number.Shortest
import EmbedScript.Proofs.FloatBits

/-!
Correct rounding of ratios and decimals. A rational rounds to a finite binary64 value when it
lies between the midpoints to that value's neighbours (`Binary.Rounds`), the midpoints
belonging to it exactly when its significand is even. `readsBack` decides this membership
exactly; `roundRatio` returns the value for every ratio in its interval, whichever exponent its
estimate starts from, and so does `ofDecimal` for every decimal, its early range checks never
firing there.
-/

namespace EmbedScript.Number

/-! ### Exact comparisons -/

theorem zpow_eq_div {x : ℚ} (hx : x ≠ 0) (i : Int) : x ^ i = x ^ i.toNat / x ^ (-i).toNat := by
  conv_lhs => rw [← Int.toNat_sub_toNat_neg i]
  rw [zpow_sub₀ hx, zpow_natCast, zpow_natCast]

/-- `cmpScaled` compares `a * 10^i` with `n * 2^j`, as rationals. -/
theorem cmpScaled_eq (a : Nat) (i : Int) (n : Nat) (j : Int) :
    cmpScaled a i n j = compare ((a : ℚ) * 10 ^ i) (n * 2 ^ j) := by
  have scale : (0 : ℚ) < 10 ^ (-i).toNat * 2 ^ (-j).toNat := by positivity
  have left : ((a * Nat.pow 10 i.toNat * Nat.pow 2 (-j).toNat : Nat) : ℚ) =
      a * 10 ^ i * (10 ^ (-i).toNat * 2 ^ (-j).toNat) := by
    rw [zpow_eq_div (by norm_num) i]
    push_cast [Nat.pow_eq]
    field_simp
  have right : ((n * Nat.pow 2 j.toNat * Nat.pow 10 (-i).toNat : Nat) : ℚ) =
      n * 2 ^ j * (10 ^ (-i).toNat * 2 ^ (-j).toNat) := by
    rw [zpow_eq_div (by norm_num) j]
    push_cast [Nat.pow_eq]
    field_simp
  have cast := (Nat.strictMono_cast : StrictMono (Nat.cast : Nat → ℚ)).cmp_map_eq
  unfold cmpScaled
  rw [← cmp_eq_compare, ← cast, left, right, cmp_mul_pos_right scale, cmp_eq_compare]

theorem compare_scaled {v c k : ℚ} (hk : 0 < k) : compare v (c * k) = compare (v / k) c := by
  conv_lhs => rw [← div_mul_cancel₀ v hk.ne']
  rw [← cmp_eq_compare, cmp_mul_pos_right hk, cmp_eq_compare]

theorem scaled_quarter (k : Nat) (q : Int) : ((k : ℚ) * 2 ^ (q - 2)) = k / 4 * 2 ^ q := by
  rw [zpow_sub₀ (by norm_num)]
  ring

theorem two_zpow_add (e : Int) (k : Nat) : (2 : ℚ) ^ (e + k) = 2 ^ k * 2 ^ e := by
  rw [zpow_add₀ (by norm_num), zpow_natCast, mul_comm]

/-! ### Rounding intervals -/

/-- The value `digits * 10^exp`. -/
def Decimal.value (d : Decimal) : ℚ := d.digits * 10 ^ d.exp

/-- `s` lies between `m - below` and `m + 1/2`, both ends included exactly when `m` is even:
`s` rounds to `m` to nearest, ties to even, when the gap below `m` is `2 * below`. -/
def Nearest (s : ℚ) (m : Nat) (below : ℚ) : Prop :=
  ((m : ℚ) - below < s ∨ m % 2 = 0 ∧ s = m - below) ∧ (s < m + 1 / 2 ∨ m % 2 = 0 ∧ s = m + 1 / 2)

/-- `v` rounds to the magnitude of `b`: in units of `2^q` it lies between the midpoints to the
neighbours, the one below a quarter step down when the gap below is half the gap above. -/
def Binary.Rounds (b : Binary) (v : ℚ) : Prop :=
  Nearest (v / 2 ^ b.q) b.m (if b.narrowBelow then 1 / 4 else 1 / 2)

namespace Nearest

variable {s : ℚ} {m : Nat} {below : ℚ}

theorem lower_le (near : Nearest s m below) : (m : ℚ) - below ≤ s := by
  rcases near.1 with lower | ⟨-, lower⟩
  · exact lower.le
  · exact lower.ge

theorem le_upper (near : Nearest s m below) : s ≤ m + 1 / 2 := by
  rcases near.2 with upper | ⟨-, upper⟩
  · exact upper.le
  · exact upper.le

end Nearest

theorem readsBack_iff {b : Binary} (positive : 0 < b.m) (d : Decimal) :
    b.readsBack d = true ↔ b.Rounds d.value := by
  have lower : (((if b.narrowBelow then 4 * b.m - 1 else 4 * b.m - 2 : Nat) : ℚ)) * 2 ^ (b.q - 2) =
      (b.m - if b.narrowBelow then 1 / 4 else 1 / 2) * 2 ^ b.q := by
    rw [scaled_quarter]
    split
    · push_cast [Nat.cast_sub (by omega : 1 ≤ 4 * b.m)]
      ring
    · push_cast [Nat.cast_sub (by omega : 2 ≤ 4 * b.m)]
      ring
  have upper : ((4 * b.m + 2 : Nat) : ℚ) * 2 ^ (b.q - 2) = (b.m + 1 / 2) * 2 ^ b.q := by
    rw [scaled_quarter]
    push_cast
    ring
  have scale : (0 : ℚ) < 2 ^ b.q := by positivity
  unfold Binary.readsBack
  simp only [cmpScaled_eq, lower, upper]
  change ((compare d.value _ == _ || _) && _) = true ↔ _
  simp only [compare_scaled scale, Binary.Rounds, Nearest, Bool.and_eq_true, Bool.or_eq_true,
    beq_iff_eq, compare_gt_iff_gt, compare_eq_iff_eq, compare_lt_iff_lt]
  exact Iff.rfl

/-- Every value that rounds to a finite non-zero number lies between `2^-1075` and `2^1024`. -/
theorem Binary.Rounds.bounds {b : Binary} (canonical : b.Canonical) (positive : 0 < b.m) {v : ℚ}
    (rounds : b.Rounds v) : (2 : ℚ) ^ (-1075 : Int) ≤ v ∧ v < 2 ^ (1024 : Int) := by
  have scale : (0 : ℚ) < 2 ^ b.q := by positivity
  obtain ⟨s, rfl⟩ : ∃ s, v = s * 2 ^ b.q := ⟨v / 2 ^ b.q, (div_mul_cancel₀ v scale.ne').symm⟩
  unfold Binary.Rounds at rounds
  rw [mul_div_cancel_right₀ s scale.ne'] at rounds
  have one : (1 : ℚ) ≤ b.m := by exact_mod_cast positive
  have mLt : (b.m : ℚ) + 1 ≤ 2 ^ 53 := by exact_mod_cast canonical.m_lt
  have half : (if b.narrowBelow then 1 / 4 else 1 / 2 : ℚ) ≤ 1 / 2 := by split <;> norm_num
  have sLow : 1 / 2 ≤ s := by linarith [rounds.lower_le]
  have sHigh : s < 2 ^ 53 := by linarith [rounds.le_upper]
  have two : (1 : ℚ) ≤ 2 := by norm_num
  constructor
  · calc (2 : ℚ) ^ (-1075 : Int) = 1 / 2 * 2 ^ (-1074 : Int) := by
          rw [show (-1075 : Int) = -1 + -1074 by norm_num, zpow_add₀ (by norm_num)]
          norm_num
      _ ≤ s * 2 ^ b.q := mul_le_mul sLow (zpow_le_zpow_right₀ two canonical.le_q)
          (by positivity) (by linarith)
  · calc s * 2 ^ b.q ≤ s * 2 ^ (971 : Int) :=
          mul_le_mul_of_nonneg_left (zpow_le_zpow_right₀ two canonical.q_le) (by linarith)
      _ < 2 ^ 53 * 2 ^ (971 : Int) := mul_lt_mul_of_pos_right sHigh (by positivity)
      _ = 2 ^ (1024 : Int) := by
          rw [show (1024 : Int) = 971 + (53 : Nat) by norm_num, two_zpow_add]

/-! ### One rounding step -/

theorem div_add_mod_div (N : Nat) {D : Nat} (hD : 0 < D) :
    ((N / D : Nat) : ℚ) + (N % D : Nat) / D = N / D := by
  rw [eq_div_iff (by positivity), add_mul, div_mul_cancel₀ _ (by positivity)]
  exact_mod_cast (by rw [mul_comm]; exact Nat.div_add_mod N D)

/-- `divScaled` divides `n / d` by `2^e`: a quotient and a remainder below the divisor. -/
theorem divScaled_spec (n : Nat) {d : Nat} (hd : 0 < d) (e : Int) :
    0 < (divScaled n d e).2.2 ∧ (divScaled n d e).2.1 < (divScaled n d e).2.2 ∧
    ((divScaled n d e).1 : ℚ) + (divScaled n d e).2.1 / (divScaled n d e).2.2 = n / d / 2 ^ e := by
  unfold divScaled
  split
  · rename_i negative
    have exp : e = -(((-e).toNat : Nat) : ℤ) := by omega
    refine ⟨hd, Nat.mod_lt _ hd, ?_⟩
    rw [div_add_mod_div _ hd]
    conv_rhs => rw [exp, zpow_neg, zpow_natCast]
    push_cast [Nat.pow_eq]
    field_simp
  · rename_i nonnegative
    have exp : e = ((e.toNat : Nat) : ℤ) := by omega
    have positive : 0 < d * Nat.pow 2 e.toNat := Nat.mul_pos hd (Nat.pow_pos (by decide))
    refine ⟨positive, Nat.mod_lt _ positive, ?_⟩
    rw [div_add_mod_div _ positive]
    conv_rhs => rw [exp, zpow_natCast]
    push_cast [Nat.pow_eq]
    field_simp

theorem half_compare {R D : Nat} (hD : 0 < D) :
    compare (2 * R) D = compare ((R : ℚ) / D) (1 / 2) := by
  have cast := (Nat.strictMono_cast : StrictMono (Nat.cast : Nat → ℚ)).cmp_map_eq
  rw [← cmp_eq_compare, ← cast, ← cmp_eq_compare,
    ← cmp_mul_pos_right (show (0 : ℚ) < 2 * D by positivity) ((R : ℚ) / D) (1 / 2)]
  congr 1 <;> (push_cast; field_simp)

/-- Rounding `Q + R / D` to nearest, ties to even, as the code does it on the remainder, gives
every `m` whose rounding interval holds the value. -/
theorem roundHalfEven_eq {Q R D m : Nat} (hD : 0 < D) (hR : R < D) {x : ℚ}
    (value : (Q : ℚ) + R / D = x) (near : Nearest x m (1 / 2)) :
    (if 2 * R > D || (2 * R == D && Q % 2 == 1) then Q + 1 else Q) = m := by
  obtain ⟨lower, upper⟩ := near
  have frac_nonneg : (0 : ℚ) ≤ R / D := by positivity
  have frac_lt_one : (R : ℚ) / D < 1 := by
    rw [div_lt_one (by positivity)]
    exact_mod_cast hR
  have above : 2 * R > D ↔ 1 / 2 < (R : ℚ) / D :=
    calc 2 * R > D ↔ compare (2 * R) D = .gt := compare_gt_iff_gt.symm
      _ ↔ compare ((R : ℚ) / D) (1 / 2) = .gt := by rw [half_compare hD]
      _ ↔ 1 / 2 < (R : ℚ) / D := compare_gt_iff_gt
  have tie : 2 * R = D ↔ (R : ℚ) / D = 1 / 2 :=
    calc 2 * R = D ↔ compare (2 * R) D = .eq := compare_eq_iff_eq.symm
      _ ↔ compare ((R : ℚ) / D) (1 / 2) = .eq := by rw [half_compare hD]
      _ ↔ (R : ℚ) / D = 1 / 2 := compare_eq_iff_eq
  have within : (m : ℚ) - 1 / 2 ≤ x ∧ x ≤ m + 1 / 2 := by
    constructor
    · rcases lower with lower | ⟨-, lower⟩ <;> linarith
    · rcases upper with upper | ⟨-, upper⟩ <;> linarith
  -- the quotient is `m` or one below it
  have near : Q = m ∨ Q + 1 = m := by
    have below : Q < m + 1 := by exact_mod_cast (show (Q : ℚ) < m + 1 by linarith)
    have above : m < Q + 2 := by exact_mod_cast (show (m : ℚ) < Q + 2 by linarith)
    omega
  rcases near with rfl | rfl
  · have stay : ¬ 2 * R > D := by
      rw [above]
      linarith
    have even : 2 * R = D → Q % 2 = 0 := by
      intro half
      rw [tie] at half
      rcases upper with upper | ⟨even, -⟩
      · linarith
      · exact even
    by_cases half : 2 * R = D <;> simp [stay, half, even]
  · have reach : 1 / 2 ≤ (R : ℚ) / D := by
      have least := within.1
      push_cast at least
      linarith
    by_cases half : 2 * R = D
    · have odd : Q % 2 = 1 := by
        rw [tie] at half
        rcases lower with lower | ⟨even, -⟩
        · push_cast at lower
          linarith
        · omega
      simp [half, odd]
    · have up : 2 * R > D := by
        rw [above]
        rw [tie] at half
        exact lt_of_le_of_ne reach (Ne.symm half)
      simp [up]

theorem roundedAt_eq (n : Nat) {d : Nat} (hd : 0 < d) {e : Int} {m : Nat}
    (near : Nearest (n / d / 2 ^ e) m (1 / 2)) : roundedAt n d e = m := by
  have spec := divScaled_spec n hd e
  unfold roundedAt
  generalize divScaled n d e = t at spec ⊢
  obtain ⟨qt, r, den⟩ := t
  obtain ⟨positive, below, value⟩ := spec
  exact roundHalfEven_eq positive below value near

/-! ### The exponent a ratio is rounded at -/

/-- The ratio lies within a factor of two of `2^(log2 n - log2 d)`. -/
theorem ratio_log2_bounds {n d : Nat} (hn : 0 < n) (hd : 0 < d) :
    (2 : ℚ) ^ ((Nat.log2 n : Int) - Nat.log2 d - 1) < n / d ∧
    (n / d : ℚ) < 2 ^ ((Nat.log2 n : Int) - Nat.log2 d + 1) := by
  have lowN : (2 : ℚ) ^ Nat.log2 n ≤ n := by exact_mod_cast Nat.log2_self_le hn.ne'
  have highN : (n : ℚ) < 2 ^ (Nat.log2 n + 1) := by exact_mod_cast Nat.lt_log2_self
  have lowD : (2 : ℚ) ^ Nat.log2 d ≤ d := by exact_mod_cast Nat.log2_self_le hd.ne'
  have highD : (d : ℚ) < 2 ^ (Nat.log2 d + 1) := by exact_mod_cast Nat.lt_log2_self
  have dPos : (0 : ℚ) < d := by exact_mod_cast hd
  constructor
  · rw [lt_div_iff₀ dPos]
    calc (2 : ℚ) ^ ((Nat.log2 n : Int) - Nat.log2 d - 1) * d
        < 2 ^ ((Nat.log2 n : Int) - Nat.log2 d - 1) * 2 ^ (Nat.log2 d + 1) := by gcongr
      _ = 2 ^ Nat.log2 n := by
        rw [← zpow_natCast, ← zpow_natCast, ← zpow_add₀ (by norm_num)]
        congr 1
        push_cast
        ring
      _ ≤ n := lowN
  · rw [div_lt_iff₀ dPos]
    calc (n : ℚ) < 2 ^ (Nat.log2 n + 1) := highN
      _ = 2 ^ ((Nat.log2 n : Int) - Nat.log2 d + 1) * 2 ^ Nat.log2 d := by
        rw [← zpow_natCast, ← zpow_natCast, ← zpow_add₀ (by norm_num)]
        congr 1
        push_cast
        ring
      _ ≤ 2 ^ ((Nat.log2 n : Int) - Nat.log2 d + 1) * d := by gcongr

theorem exponent_lt_of_zpow {a b : Int} {r : ℚ} (low : (2 : ℚ) ^ a ≤ r) (high : r < 2 ^ b) :
    a < b :=
  (zpow_lt_zpow_iff_right₀ (by norm_num : (1 : ℚ) < 2)).mp (lt_of_le_of_lt low high)

/-- The estimate from the binary lengths, corrected once by the quotient, gives the exponent
at which the ratio has a 53-bit quotient. -/
theorem corrected_scale {n d : Nat} (hn : 0 < n) (hd : 0 < d) (e0 : Int)
    (estimate : e0 = (Nat.log2 n : Int) - Nat.log2 d - 52) :
    let e1 := if (divScaled n d e0).1 < Nat.pow 2 52 then e0 - 1 else e0
    (2 : ℚ) ^ (e1 + 52) ≤ n / d ∧ (n / d : ℚ) < 2 ^ (e1 + 53) := by
  obtain ⟨low, high⟩ := ratio_log2_bounds hn hd
  rw [show (Nat.log2 n : Int) - Nat.log2 d - 1 = e0 + 51 by omega] at low
  rw [show (Nat.log2 n : Int) - Nat.log2 d + 1 = e0 + 53 by omega] at high
  obtain ⟨-, below, value⟩ := divScaled_spec n hd e0
  have scalePos : (0 : ℚ) < 2 ^ e0 := by positivity
  have floorLow : ((divScaled n d e0).1 : ℚ) ≤ n / d / 2 ^ e0 := by
    rw [← value]
    have : (0 : ℚ) ≤ (divScaled n d e0).2.1 / (divScaled n d e0).2.2 := by positivity
    linarith
  have floorHigh : (n / d : ℚ) / 2 ^ e0 < (divScaled n d e0).1 + 1 := by
    rw [← value]
    have : ((divScaled n d e0).2.1 : ℚ) / (divScaled n d e0).2.2 < 1 := by
      rw [div_lt_one (by exact_mod_cast (Nat.zero_lt_of_lt below))]
      exact_mod_cast below
    linarith
  intro e1
  by_cases few : (divScaled n d e0).1 < Nat.pow 2 52
  · have shifted : e1 = e0 - 1 := if_pos few
    have few' : ((divScaled n d e0).1 : ℚ) + 1 ≤ 2 ^ 52 := by
      rw [Nat.pow_eq] at few
      exact_mod_cast few
    rw [shifted]
    constructor
    · rw [show e0 - 1 + 52 = e0 + 51 by ring]
      exact low.le
    · rw [show e0 - 1 + 53 = e0 + (52 : Nat) by push_cast; ring, two_zpow_add]
      rw [div_lt_iff₀ scalePos] at floorHigh
      calc (n / d : ℚ) < ((divScaled n d e0).1 + 1) * 2 ^ e0 := floorHigh
        _ ≤ 2 ^ 52 * 2 ^ e0 := by gcongr
  · have kept : e1 = e0 := if_neg few
    have many : (2 : ℚ) ^ 52 ≤ (divScaled n d e0).1 := by
      rw [Nat.pow_eq, not_lt] at few
      exact_mod_cast few
    rw [kept]
    refine ⟨?_, high⟩
    rw [show e0 + 52 = e0 + (52 : Nat) by push_cast; ring, two_zpow_add]
    rw [le_div_iff₀ scalePos] at floorLow
    calc (2 : ℚ) ^ 52 * 2 ^ e0 ≤ (divScaled n d e0).1 * 2 ^ e0 := by gcongr
      _ ≤ n / d := floorLow

/-- The exponent a ratio is rounded at is the one at which its quotient has 53 bits, or `-1074`
when the ratio is below `2^-1022`. -/
theorem ratioExponent_eq {n d : Nat} (hn : 0 < n) (hd : 0 < d) {e : Int} (least : -1074 ≤ e)
    (above : (2 : ℚ) ^ (e + 52) ≤ n / d ∨ e = -1074) (below : (n / d : ℚ) < 2 ^ (e + 53)) :
    ratioExponent n d = e := by
  obtain ⟨e1, chosen, low, high⟩ : ∃ e1, ratioExponent n d = max e1 (-1074) ∧
      (2 : ℚ) ^ (e1 + 52) ≤ n / d ∧ (n / d : ℚ) < 2 ^ (e1 + 53) :=
    ⟨_, rfl, corrected_scale hn hd _ rfl⟩
  rw [chosen]
  have notAbove : e1 + 52 < e + 53 := exponent_lt_of_zpow low below
  rcases above with above | least'
  · have notBelow : e + 52 < e1 + 53 := exponent_lt_of_zpow above high
    omega
  · omega

/-! ### Ratios and decimals -/

/-- Where rounding a value of `b`'s interval happens: at `b`'s own exponent, giving `b`'s
significand, or, just below a power of two whose gap below is narrower, one exponent lower,
giving `2^53`, which carries back to `2^52` at `b`'s exponent. -/
theorem rounding_target {b : Binary} (canonical : b.Canonical) {r : ℚ} (rounds : b.Rounds r) :
    ∃ e M, -1074 ≤ e ∧ ((2 : ℚ) ^ (e + 52) ≤ r ∨ e = -1074) ∧ r < 2 ^ (e + 53) ∧
      Nearest (r / 2 ^ e) M (1 / 2) ∧
      ((M < 2 ^ 53 ∧ M = b.m ∧ e = b.q) ∨ (M = 2 ^ 53 ∧ b.m = 2 ^ 52 ∧ e + 1 = b.q)) := by
  have scale : (0 : ℚ) < 2 ^ b.q := by positivity
  have value : r = r / 2 ^ b.q * 2 ^ b.q := (div_mul_cancel₀ r scale.ne').symm
  have mLt : (b.m : ℚ) + 1 ≤ 2 ^ 53 := by exact_mod_cast canonical.m_lt
  unfold Binary.Rounds at rounds
  by_cases narrow : b.narrowBelow = true
  · have top : b.m = 2 ^ 52 ∧ -1074 < b.q := by
      simpa [Binary.narrowBelow, Nat.pow_eq] using narrow
    rw [if_pos narrow] at rounds
    have topCast : (b.m : ℚ) = 2 ^ 52 := by exact_mod_cast top.1
    by_cases high : (2 : ℚ) ^ 52 ≤ r / 2 ^ b.q
    · refine ⟨b.q, b.m, canonical.le_q, Or.inl ?_, ?_, ⟨?_, rounds.2⟩, Or.inl ⟨by omega, rfl, rfl⟩⟩
      · rw [show b.q + 52 = b.q + (52 : Nat) by push_cast; ring, two_zpow_add, value]
        gcongr
      · rw [show b.q + 53 = b.q + (53 : Nat) by push_cast; ring, two_zpow_add, value]
        have := rounds.le_upper
        gcongr
        linarith
      · left
        linarith
    · have shifted : r / 2 ^ (b.q - 1) = 2 * (r / 2 ^ b.q) := by
        rw [zpow_sub₀ (by norm_num), zpow_one]
        field_simp
      refine ⟨b.q - 1, 2 ^ 53, by omega, Or.inl ?_, ?_, ?_, Or.inr ⟨rfl, top.1, by ring⟩⟩
      · rw [show b.q - 1 + 52 = b.q + (51 : Nat) by push_cast; ring, two_zpow_add, value]
        have := rounds.lower_le
        gcongr
        linarith
      · rw [show b.q - 1 + 53 = b.q + (52 : Nat) by push_cast; ring, two_zpow_add, value]
        gcongr
        exact not_le.mp high
      · rw [shifted]
        constructor
        · rcases rounds.1 with lower | ⟨-, lower⟩
          · left
            push_cast
            linarith
          · right
            exact ⟨by norm_num, by push_cast; linarith⟩
        · left
          push_cast
          linarith [not_le.mp high]
  · rw [if_neg narrow] at rounds
    refine ⟨b.q, b.m, canonical.le_q, ?_, ?_, rounds, Or.inl ⟨canonical.m_lt, rfl, rfl⟩⟩
    · by_cases least : b.q = -1074
      · exact Or.inr least
      · have normal : 2 ^ 52 + 1 ≤ b.m := by
          have := mt canonical.least least
          have := canonical.le_q
          simp [Binary.narrowBelow, Nat.pow_eq] at narrow
          omega
        have normalCast : (2 : ℚ) ^ 52 + 1 ≤ b.m := by exact_mod_cast normal
        left
        rw [show b.q + 52 = b.q + (52 : Nat) by push_cast; ring, two_zpow_add, value]
        have := rounds.lower_le
        gcongr
        linarith
    · rw [show b.q + 53 = b.q + (53 : Nat) by push_cast; ring, two_zpow_add, value]
      have := rounds.le_upper
      gcongr
      linarith

/-- A ratio in the rounding interval of a finite value rounds to that value. -/
theorem roundRatio_of_rounds (neg : Bool) {b : Binary} (canonical : b.Canonical) {n d : Nat}
    (hn : 0 < n) (hd : 0 < d) (rounds : b.Rounds (n / d)) :
    roundRatio neg n d = ofSignificand neg b.m b.q := by
  obtain ⟨e, M, least, above, below, near, target⟩ := rounding_target canonical rounds
  have exponent : ratioExponent n d = e := ratioExponent_eq hn hd least above below
  have rounded : roundedAt n d e = M := roundedAt_eq n hd near
  unfold roundRatio
  rw [if_neg (by omega)]
  simp only [exponent, rounded]
  rcases target with ⟨small, rfl, rfl⟩ | ⟨rfl, top, carried⟩
  · have noCarry : (b.m == Nat.pow 2 53) = false := by
      simp only [Nat.pow_eq, beq_eq_false_iff_ne]
      omega
    simp [noCarry, canonical.q_le]
  · have carry : (2 ^ 53 == Nat.pow 2 53) = true := by simp [Nat.pow_eq]
    simp only [carry, if_true, Nat.pow_eq, ← top, carried]
    exact if_neg (not_lt.mpr canonical.q_le)

/-- A positive number has as many decimal digits as its power of ten says. -/
theorem toDigits_length_bounds {n : Nat} (positive : 0 < n) :
    10 ^ ((Nat.toDigits 10 n).length - 1) ≤ n ∧ n < 10 ^ (Nat.toDigits 10 n).length := by
  have len := Nat.length_toDigits_pos (b := 10) (n := n)
  refine ⟨?_, (Nat.length_toDigits_le_iff (by decide) len).mp le_rfl⟩
  by_cases one : (Nat.toDigits 10 n).length = 1
  · rw [one]
    exact positive
  · have := (Nat.length_toDigits_le_iff (b := 10) (n := n) (by decide) (by omega :
      0 < (Nat.toDigits 10 n).length - 1)).not.mp (by omega)
    omega

/-- `2^1024`, where binary64 overflows, is below `10^309`: `2^93 < 10^28` taken eleven times. -/
theorem two_pow_lt_ten_pow_309 : (2 : ℚ) ^ 1024 < 10 ^ 309 := by
  have step : (2 : ℚ) ^ 93 < 10 ^ 28 := by norm_num
  calc (2 : ℚ) ^ 1024 = (2 ^ 93) ^ 11 * 2 := by rw [← pow_mul, ← pow_succ]
    _ < (10 ^ 28) ^ 11 * 10 := by gcongr; norm_num
    _ = 10 ^ 309 := by rw [← pow_mul, ← pow_succ]

/-- `2^-1075`, half the least subnormal, is above `10^-331`. -/
theorem two_pow_lt_ten_pow_331 : (2 : ℚ) ^ 1075 < 10 ^ 331 := by
  have step : (2 : ℚ) ^ 93 < 10 ^ 28 := by norm_num
  calc (2 : ℚ) ^ 1075 = (2 ^ 93) ^ 11 * 2 ^ 52 := by rw [← pow_mul, ← pow_add]
    _ < (10 ^ 28) ^ 11 * 10 ^ 23 := by gcongr; norm_num
    _ = 10 ^ 331 := by rw [← pow_mul, ← pow_add]

/-- A decimal in the rounding interval of a finite non-zero value reads as that value. The
range checks before the division never fire on such a decimal: it is at least `2^-1075` and
below `2^1024`. -/
theorem ofDecimal_of_rounds (neg : Bool) {b : Binary} (canonical : b.Canonical)
    (positive : 0 < b.m) {digits : Nat} {exp : Int} (nonzero : 0 < digits)
    (rounds : b.Rounds (digits * 10 ^ exp)) :
    ofDecimal neg digits exp = ofSignificand neg b.m b.q := by
  obtain ⟨low, high⟩ := rounds.bounds canonical positive
  obtain ⟨least, most⟩ := toDigits_length_bounds nonzero
  have wide : 0 < (Nat.toDigits 10 digits).length := Nat.length_toDigits_pos
  unfold ofDecimal
  rw [if_neg nonzero.ne']
  dsimp only
  generalize (Nat.toDigits 10 digits).length = w at least most wide ⊢
  have ten : (1 : ℚ) ≤ 10 := by norm_num
  have valueLow : (10 : ℚ) ^ (exp + w - 1) ≤ digits * 10 ^ exp := by
    rw [show exp + w - 1 = exp + ((w - 1 : Nat) : Int) by omega, zpow_add₀ (by norm_num),
      zpow_natCast, mul_comm]
    gcongr
    exact_mod_cast least
  have valueHigh : (digits : ℚ) * 10 ^ exp < 10 ^ (exp + w) := by
    rw [zpow_add₀ (by norm_num), zpow_natCast, mul_comm ((10 : ℚ) ^ exp)]
    exact mul_lt_mul_of_pos_right (by exact_mod_cast most) (by positivity)
  have notHuge : ¬ exp + w > 309 := by
    intro huge
    have above : (10 : ℚ) ^ (309 : Int) ≤ 10 ^ (exp + w - 1) := zpow_le_zpow_right₀ ten (by omega)
    have overflow : (2 : ℚ) ^ (1024 : Int) < 10 ^ (309 : Int) := by
      show (2 : ℚ) ^ ((1024 : Nat) : Int) < 10 ^ ((309 : Nat) : Int)
      rw [zpow_natCast, zpow_natCast]
      exact two_pow_lt_ten_pow_309
    exact lt_irrefl _ ((above.trans valueLow).trans_lt (high.trans overflow))
  have notTiny : ¬ exp + w < -330 := by
    intro tiny
    have below : (10 : ℚ) ^ (exp + w) ≤ 10 ^ (-331 : Int) := zpow_le_zpow_right₀ ten (by omega)
    have underflow : (10 : ℚ) ^ (-331 : Int) < 2 ^ (-1075 : Int) := by
      show (10 : ℚ) ^ (-((331 : Nat) : Int)) < 2 ^ (-((1075 : Nat) : Int))
      rw [zpow_neg, zpow_neg, zpow_natCast, zpow_natCast, inv_lt_inv₀ (by positivity) (by positivity)]
      exact two_pow_lt_ten_pow_331
    exact lt_irrefl _ ((valueHigh.trans_le below).trans_le (underflow.le.trans low))
  rw [if_neg notHuge, if_neg notTiny]
  split
  · rename_i negative
    apply roundRatio_of_rounds neg canonical nonzero (Nat.pos_of_ne_zero (by simp [Nat.pow_eq]))
    obtain ⟨k, rfl⟩ : ∃ k : Nat, exp = -(k : Int) := ⟨(-exp).toNat, by omega⟩
    convert rounds using 1
    rw [neg_neg, Int.toNat_natCast, zpow_neg, zpow_natCast, div_eq_mul_inv]
    push_cast [Nat.pow_eq]
    rfl
  · rename_i nonnegative
    apply roundRatio_of_rounds neg canonical
      (Nat.mul_pos nonzero (Nat.pos_of_ne_zero (by simp [Nat.pow_eq]))) Nat.one_pos
    obtain ⟨k, rfl⟩ : ∃ k : Nat, exp = (k : Int) := ⟨exp.toNat, by omega⟩
    convert rounds using 1
    rw [Int.toNat_natCast, zpow_natCast]
    push_cast [Nat.pow_eq]
    simp

end EmbedScript.Number
