import Mathlib
import EmbedScript.Number.Text
import EmbedScript.Proofs.Rounding
import EmbedScript.Proofs.Properties

/-!
Numbers as text and back. The digits a finite non-zero number is written with lie in its
rounding interval, and its text is a decimal literal (integer digits, a fraction after a point,
an exponent with a sign) worth exactly those digits. Reading that text gives the number back;
so does reading the text of every other number but negative zero, which is written `0` like
positive zero.
-/

namespace EmbedScript.Number

open EmbedScript.Text

/-! ### Shortest digits -/

/-- Moving trailing zeros into the exponent keeps the value. -/
theorem Decimal.value_trim (d : Decimal) : d.trim.value = d.value := by
  fun_induction Decimal.trim d with
  | case1 d strip ih =>
    rw [ih]
    obtain ⟨k, hk⟩ := Nat.dvd_of_mod_eq_zero strip.2
    simp only [Decimal.value, hk, Nat.mul_div_cancel_left k (by decide : 0 < 10)]
    rw [zpow_add₀ (by norm_num)]
    push_cast
    ring
  | case2 d keep => rfl

/-- Trimmed digits of a non-zero decimal end in a non-zero digit. -/
theorem Decimal.trim_digits (d : Decimal) (nonzero : d.digits ≠ 0) :
    d.trim.digits ≠ 0 ∧ d.trim.digits % 10 ≠ 0 := by
  fun_induction Decimal.trim d with
  | case1 d strip ih =>
    apply ih
    show d.digits / 10 ≠ 0
    omega
  | case2 d keep =>
    exact ⟨nonzero, fun zero => keep ⟨nonzero, zero⟩⟩

theorem Binary.readsBack_of_onGrid {x : Binary} {j : Int} {d : Decimal}
    (found : x.onGrid j = some d) : x.readsBack d = true := by
  unfold Binary.onGrid at found
  simp only at found
  split at found
  · rename_i both
    simp only [Bool.and_eq_true] at both
    split at found <;> (cases found; simp [both])
  · split at found
    · cases found
      assumption
    · split at found
      · cases found
        assumption
      · contradiction

/-- The exact decimal of a magnitude: `m * 5^k` at `10^-k` below the units, else an integer. -/
theorem Binary.exact_value (x : Binary) : x.exact.value = x.m * 2 ^ x.q := by
  unfold Binary.exact Decimal.value
  split
  · rename_i negative
    obtain ⟨k, hk⟩ : ∃ k : Nat, x.q = -(k : Int) := ⟨(-x.q).toNat, by omega⟩
    simp only [hk, neg_neg, Int.toNat_natCast, zpow_neg, zpow_natCast]
    push_cast [Nat.pow_eq]
    rw [show (10 : ℚ) ^ k = 2 ^ k * 5 ^ k by rw [← mul_pow]; norm_num]
    field_simp
  · rename_i nonnegative
    obtain ⟨k, hk⟩ : ∃ k : Nat, x.q = (k : Int) := ⟨x.q.toNat, by omega⟩
    simp only [hk, Int.toNat_natCast, zpow_natCast, zpow_zero, mul_one]
    push_cast [Nat.pow_eq]
    rfl

theorem Binary.rounds_magnitude (x : Binary) : x.Rounds (x.m * 2 ^ x.q) := by
  unfold Binary.Rounds Nearest
  rw [mul_div_cancel_right₀ _ (by positivity)]
  constructor
  · left
    split <;> linarith
  · left
    linarith

theorem Binary.Rounds.pos {b : Binary} (positive : 0 < b.m) {v : ℚ} (rounds : b.Rounds v) :
    0 < v := by
  have one : (1 : ℚ) ≤ b.m := by exact_mod_cast positive
  have below : (if b.narrowBelow then 1 / 4 else 1 / 2 : ℚ) ≤ 1 / 2 := by split <;> norm_num
  have scaled : 0 < v / 2 ^ b.q := by linarith [rounds.lower_le]
  exact (div_pos_iff_of_pos_right (by positivity)).mp scaled

theorem Decimal.digits_ne_zero_of_pos {d : Decimal} (positive : 0 < d.value) : d.digits ≠ 0 := by
  intro zero
  simp [Decimal.value, zero] at positive

/-- The shortest digits read back: they lie in the rounding interval of the value, whether the
search found them on one of its grids or fell back to the exact decimal; and they end in a
non-zero digit. -/
theorem Binary.shortest_rounds (x : Binary) (positive : 0 < x.m) :
    x.Rounds x.shortest.value ∧ x.shortest.digits % 10 ≠ 0 := by
  have found : x.Rounds ((List.range' 1 17).findSome?
      (fun (n : Nat) => x.onGrid (decimalScale x.m x.q - n)) |>.getD x.exact).value := by
    cases search : (List.range' 1 17).findSome? (fun (n : Nat) => x.onGrid (decimalScale x.m x.q - n)) with
    | none =>
      rw [Option.getD_none, Binary.exact_value]
      exact x.rounds_magnitude
    | some d =>
      obtain ⟨n, -, onGrid⟩ := List.exists_of_findSome?_eq_some search
      exact (readsBack_iff positive d).mp (Binary.readsBack_of_onGrid onGrid)
  unfold Binary.shortest
  refine ⟨by rwa [Decimal.value_trim], (Decimal.trim_digits _ ?_).2⟩
  exact Decimal.digits_ne_zero_of_pos (found.pos positive)

/-! ### Decimal digits -/

theorem digitsValue_eq (cs : List Char) : digitsValue cs = Nat.ofDigitChars 10 cs 0 := rfl

@[simp] theorem digitsValue_toDigits (n : Nat) : digitsValue (Nat.toDigits 10 n) = n :=
  Nat.ofDigitChars_ten_toDigits

theorem digitsValue_append (xs ys : List Char) :
    digitsValue (xs ++ ys) = digitsValue xs * 10 ^ ys.length + digitsValue ys := by
  rw [digitsValue_eq, Nat.ofDigitChars_append, Nat.ofDigitChars_eq_ofDigitChars_zero,
    ← digitsValue_eq, ← digitsValue_eq, Nat.mul_comm]

@[simp] theorem digitsValue_zeros (k : Nat) : digitsValue (List.replicate k '0') = 0 := by
  simp [digitsValue_eq]

theorem isDigit_of_mem_toDigits {n : Nat} {c : Char} (member : c ∈ Nat.toDigits 10 n) :
    c.isDigit = true := by
  induction n using Nat.strong_induction_on with
  | _ n ih =>
    rw [Nat.toDigits_eq_if (by decide)] at member
    split at member
    · rename_i small
      rw [List.mem_singleton.mp member, Nat.isDigit_digitChar]
      exact decide_eq_true small
    · rcases List.mem_append.mp member with front | last
      · exact ih (n / 10) (by omega) front
      · rw [List.mem_singleton.mp last, Nat.isDigit_digitChar]
        exact decide_eq_true (Nat.mod_lt n (by decide))

/-! ### Decimal literals -/

/-- A decimal literal as text writes it: the integer digits, the fraction digits after a point
when there are any, and an exponent with an explicit sign when there is one. -/
structure DecimalLiteral where
  whole : List Char
  fraction : List Char
  exponent : Option Int

namespace DecimalLiteral

/-- The exponent part: `e`, the sign, and the digits of the magnitude. -/
def exponentText : Option Int → List Char
  | none => []
  | some e => 'e' :: (if 0 ≤ e then '+' else '-') :: Nat.toDigits 10 e.natAbs

def text (l : DecimalLiteral) : List Char :=
  l.whole ++ (if l.fraction = [] then [] else '.' :: l.fraction) ++ exponentText l.exponent

/-- The significand and the power of ten the literal is read as. -/
def digits (l : DecimalLiteral) : Nat := digitsValue (l.whole ++ l.fraction)

def scale (l : DecimalLiteral) : Int := l.exponent.getD 0 - l.fraction.length

/-- Only digits, and at least one before the point. -/
structure WellFormed (l : DecimalLiteral) : Prop where
  whole_ne_nil : l.whole ≠ []
  isDigit : ∀ c ∈ l.whole ++ l.fraction, c.isDigit = true

end DecimalLiteral

theorem spanSign_of_isDigit {c : Char} (digit : c.isDigit = true) (rest : List Char) :
    spanSign (c :: rest) = (false, c :: rest) := by
  unfold spanSign
  split
  · rename_i minus
    cases minus
    contradiction
  · rename_i plus
    cases plus
    contradiction
  · rfl

theorem spanDigits_append {ds rest : List Char} (digits : ∀ c ∈ ds, c.isDigit = true)
    (stop : ∀ c ∈ rest.head?, c.isDigit = false) : spanDigits (ds ++ rest) = (ds, rest) := by
  unfold spanDigits
  have notDigit : rest.takeWhile Char.isDigit = [] := by
    cases rest with
    | nil => rfl
    | cons c tail => simp [stop c rfl]
  have kept : rest.dropWhile Char.isDigit = rest := by
    cases rest with
    | nil => rfl
    | cons c tail => simp [stop c rfl]
  rw [List.takeWhile_append_of_pos digits, notDigit, List.append_nil,
    List.dropWhile_append_of_pos digits, kept]

theorem spanDigits_toDigits (n : Nat) : spanDigits (Nat.toDigits 10 n) = (Nat.toDigits 10 n, []) := by
  simpa using @spanDigits_append (Nat.toDigits 10 n) []
    (fun _ member => isDigit_of_mem_toDigits member) (by simp)

/-- The exponent part after its `e` reads back as the exponent. -/
theorem readExponent_signed (e : Int) :
    readExponent ((if 0 ≤ e then '+' else '-') :: Nat.toDigits 10 e.natAbs) = some e := by
  unfold readExponent
  have digits : (Nat.toDigits 10 e.natAbs).isEmpty = false := by simp
  by_cases nonneg : 0 ≤ e
  · simp only [if_pos nonneg, spanSign, spanDigits_toDigits, digits, List.isEmpty_nil,
      Bool.not_true, Bool.or_false, digitsValue_toDigits]
    simp only [Bool.false_eq_true, if_false, Option.some.injEq]
    omega
  · simp only [if_neg nonneg, spanSign, spanDigits_toDigits, digits, List.isEmpty_nil,
      Bool.not_true, Bool.or_false, digitsValue_toDigits]
    simp only [Bool.false_eq_true, if_false, if_true, Option.some.injEq]
    omega


namespace DecimalLiteral

theorem text_head {l : DecimalLiteral} (wf : l.WellFormed) :
    ∃ c rest, l.text = c :: rest ∧ c.isDigit = true := by
  obtain ⟨c, rest, whole⟩ := List.exists_cons_of_ne_nil wf.whole_ne_nil
  exact ⟨c, _, by rw [text, whole]; rfl, wf.isDigit c (by simp [whole])⟩

/-- A well-formed literal reads as the nearest value to its digits and scale, after an optional
minus sign. -/
theorem readDecimal_text (neg : Bool) {l : DecimalLiteral} (wf : l.WellFormed) :
    readDecimal ((if neg then ['-'] else []) ++ l.text) = some (ofDecimal neg l.digits l.scale) := by
  have sign : spanSign ((if neg then ['-'] else []) ++ l.text) = (neg, l.text) := by
    cases neg
    · obtain ⟨c, rest, text, digit⟩ := text_head wf
      rw [if_neg Bool.false_ne_true, List.nil_append, text]
      exact spanSign_of_isDigit digit rest
    · rfl
  have wholeDigits : ∀ c ∈ l.whole, c.isDigit = true :=
    fun c member => wf.isDigit c (List.mem_append_left _ member)
  have fractionDigits : ∀ c ∈ l.fraction, c.isDigit = true :=
    fun c member => wf.isDigit c (List.mem_append_right _ member)
  have exponentStop : ∀ c ∈ (exponentText l.exponent).head?, c.isDigit = false := by
    cases l.exponent <;> simp [exponentText]
  unfold readDecimal
  rw [sign]
  simp only [text, List.append_assoc]
  rw [spanDigits_append wholeDigits (by split <;> simp_all)]
  have whole : l.whole.isEmpty = false := by simpa using wf.whole_ne_nil
  obtain ⟨w, fraction, exponent⟩ := l
  cases fraction with
  | nil =>
    cases exponent with
    | none => simp_all [exponentText, digits, scale]
    | some e => simp_all [exponentText, digits, scale, readExponent_signed]
  | cons f fs =>
    have split := spanDigits_append fractionDigits exponentStop
    cases exponent with
    | none => simp_all [exponentText, digits, scale]
    | some e => simp_all [exponentText, digits, scale, readExponent_signed]

end DecimalLiteral

theorem toList_zeros (k : Nat) : (zeros k).toList = List.replicate k '0' := String.toList_ofList

/-- Every layout of a digit string is a well-formed decimal literal, with the value of the
digits moved so that the point stands `n` digits after the first. -/
theorem layout_literal {ds : List Char} (digits : ∀ c ∈ ds, c.isDigit = true) (nonempty : ds ≠ [])
    (n : Int) : ∃ l : DecimalLiteral, l.WellFormed ∧ (layout (String.ofList ds) n).toList = l.text ∧
      (l.digits : ℚ) * 10 ^ l.scale = digitsValue ds * 10 ^ (n - ds.length) := by
  have zero : ('0').isDigit = true := rfl
  unfold layout
  simp only [String.length_ofList, String.toList_ofList]
  by_cases padded : ds.length ≤ n ∧ n ≤ 21
  · -- all digits, then zeros up to the point
    rw [if_pos padded]
    obtain ⟨j, hj⟩ : ∃ j : Nat, n - ds.length = j := ⟨(n - ds.length).toNat, by omega⟩
    refine ⟨⟨ds ++ List.replicate j '0', [], none⟩, ⟨by simp [nonempty], ?_⟩, ?_, ?_⟩
    · simp only [List.append_nil, List.mem_append, List.mem_replicate]
      rintro c (member | ⟨-, rfl⟩)
      · exact digits c member
      · exact zero
    · simp [DecimalLiteral.text, DecimalLiteral.exponentText, toList_zeros, hj]
    · simp [DecimalLiteral.digits, DecimalLiteral.scale, digitsValue_append, hj]
  rw [if_neg padded]
  by_cases inside : 0 < n ∧ n ≤ 21
  · -- a point after the first `n` digits
    rw [if_pos inside]
    obtain ⟨t, rfl⟩ : ∃ t : Nat, n = t := ⟨n.toNat, by omega⟩
    have before : t < ds.length := by omega
    have rest : ds.drop t ≠ [] := by simp [List.drop_eq_nil_iff]; omega
    refine ⟨⟨ds.take t, ds.drop t, none⟩, ⟨by simp [nonempty]; omega, ?_⟩, ?_, ?_⟩
    · intro c member
      rw [List.take_append_drop] at member
      exact digits c member
    · simp [DecimalLiteral.text, DecimalLiteral.exponentText, rest]
    · simp only [DecimalLiteral.digits, DecimalLiteral.scale, List.take_append_drop,
        Option.getD_none, List.length_drop]
      congr 1
      push_cast [Nat.cast_sub before.le]
      ring_nf
  rw [if_neg inside]
  by_cases small : -6 < n ∧ n ≤ 0
  · -- a point, zeros, and the digits
    rw [if_pos small]
    obtain ⟨j, hj⟩ : ∃ j : Nat, n = -(j : Int) := ⟨(-n).toNat, by omega⟩
    refine ⟨⟨['0'], List.replicate j '0' ++ ds, none⟩, ⟨by simp, ?_⟩, ?_, ?_⟩
    · simp only [List.cons_append, List.nil_append, List.mem_cons, List.mem_append,
        List.mem_replicate]
      rintro c (rfl | ⟨-, rfl⟩ | member)
      · exact zero
      · exact zero
      · exact digits c member
    · simp [DecimalLiteral.text, DecimalLiteral.exponentText, toList_zeros, hj, nonempty]
    · have lead : digitsValue (['0'] ++ (List.replicate j '0' ++ ds)) = digitsValue ds := by
        rw [← List.append_assoc, digitsValue_append, List.singleton_append, ← List.replicate_succ,
          digitsValue_zeros, Nat.zero_mul, Nat.zero_add]
      simp only [DecimalLiteral.digits, DecimalLiteral.scale, lead, Option.getD_none,
        List.length_append, List.length_replicate, hj]
      push_cast
      ring_nf
  -- one digit, the rest after a point, and the exponent
  rw [if_neg small]
  obtain ⟨d, rest, rfl⟩ := List.exists_cons_of_ne_nil nonempty
  have lead : d.isDigit = true := digits d (by simp)
  have tail : ∀ c ∈ rest, c.isDigit = true := fun c member => digits c (by simp [member])
  cases rest with
  | nil =>
    refine ⟨⟨[d], [], some (n - 1)⟩, ⟨by simp, by simpa using lead⟩, ?_, ?_⟩
    · by_cases nonneg : 1 ≤ n <;>
        simp [DecimalLiteral.text, DecimalLiteral.exponentText, nonneg]
    · simp only [DecimalLiteral.digits, DecimalLiteral.scale, List.append_nil, Option.getD_some,
        List.length_nil, List.length_singleton]
      push_cast
      ring_nf
  | cons d' rest =>
    refine ⟨⟨[d], d' :: rest, some (n - 1)⟩, ⟨by simp, ?_⟩, ?_, ?_⟩
    · simp only [List.singleton_append, List.mem_cons]
      rintro c (rfl | member)
      · exact lead
      · exact tail c (List.mem_cons.mpr member)
    · by_cases nonneg : 1 ≤ n <;>
        simp [DecimalLiteral.text, DecimalLiteral.exponentText, nonneg]
    · simp only [DecimalLiteral.digits, DecimalLiteral.scale, List.singleton_append,
        Option.getD_some, List.length_cons]
      push_cast
      ring_nf


/-! ### Reading text back -/

/-- The characters a written number uses: digits, the point, a lower-case `e` and signs. -/
def isLiteralChar (c : Char) : Prop := isDecimalChar c = true ∧ c ≠ 'E'

/-- They are no blanks, no line ends, and lower case. -/
theorem plain_of_isLiteralChar {c : Char} (literal : isLiteralChar c) :
    isBlank c = false ∧ isLineEnd c = false ∧ lowerAscii c = c := by
  obtain ⟨decimal, notUpper⟩ := literal
  unfold isDecimalChar at decimal
  simp only [Bool.or_eq_true, beq_iff_eq] at decimal
  rcases decimal with ((((digit | rfl) | rfl) | rfl) | rfl) | rfl
  · obtain ⟨spelt, below⟩ := digitChar_of_isDigit digit
    rw [← spelt]
    generalize c.toNat - '0'.toNat = k at below
    interval_cases k <;> decide
  · decide
  · decide
  · exact absurd rfl notUpper
  · decide
  · decide

theorem trimBlank_of_literal {cs : List Char} (literal : ∀ c ∈ cs, isLiteralChar c) :
    trimBlank cs = cs := by
  have kept : ∀ ds : List Char, (∀ c ∈ ds, isLiteralChar c) →
      ds.dropWhile (fun c => isBlank c || isLineEnd c) = ds := by
    intro ds plain
    cases ds with
    | nil => rfl
    | cons c rest =>
      obtain ⟨blank, lineEnd, -⟩ := plain_of_isLiteralChar (plain c (List.mem_cons_self ..))
      simp [blank, lineEnd]
  unfold trimBlank
  simp only
  rw [kept cs literal, kept cs.reverse (fun c member => literal c (List.mem_reverse.mp member)),
    List.reverse_reverse]

/-- A non-empty text of literal characters is read as a decimal literal: it is no infinity
and has no radix prefix, since `I`, `x`, `o` and `b` are not among its characters. -/
theorem ofText_of_literal {cs : List Char} (nonempty : cs ≠ [])
    (literal : ∀ c ∈ cs, isLiteralChar c) :
    ofText (String.ofList cs) = (readDecimal cs).getD nan := by
  have lower : cs.map lowerAscii = cs := by
    conv_rhs => rw [← List.map_id cs]
    exact List.map_congr_left fun c member => (plain_of_isLiteralChar (literal c member)).2.2
  have foreign : ∀ c, isDecimalChar c = false → c ∉ cs := by
    intro c outside member
    rw [(literal c member).1] at outside
    contradiction
  have notInfinity : ∀ s : String, 'I' ∈ s.toList → (cs == s.toList) = false := by
    intro s letter
    rw [beq_eq_false_iff_ne]
    rintro rfl
    exact foreign 'I' rfl letter
  unfold ofText
  simp only [String.toList_ofList, trimBlank_of_literal literal, lower]
  rw [if_neg (by simpa using nonempty), notInfinity _ (by decide), notInfinity _ (by decide),
    notInfinity _ (by decide)]
  simp only [Bool.or_false, Bool.false_eq_true, if_false]
  split
  · exact absurd (by simp_all) (foreign 'x' rfl)
  · exact absurd (by simp_all) (foreign 'o' rfl)
  · exact absurd (by simp_all) (foreign 'b' rfl)
  · rw [if_pos (List.all_eq_true.mpr fun c member => (literal c member).1)]

theorem isLiteralChar_of_isDigit {c : Char} (digit : c.isDigit = true) : isLiteralChar c := by
  refine ⟨by simp [isDecimalChar, digit], ?_⟩
  rintro rfl
  contradiction

theorem DecimalLiteral.isLiteralChar_text (neg : Bool) {l : DecimalLiteral} (wf : l.WellFormed) :
    ∀ c ∈ (if neg then ['-'] else []) ++ l.text, isLiteralChar c := by
  have digits : ∀ c ∈ l.whole ++ l.fraction, isLiteralChar c :=
    fun c member => isLiteralChar_of_isDigit (wf.isDigit c member)
  have sign : ∀ c ∈ (if neg then ['-'] else []), isLiteralChar c := by
    cases neg <;> simp [isLiteralChar, isDecimalChar]
  have exponent : ∀ c ∈ exponentText l.exponent, isLiteralChar c := by
    cases l.exponent with
    | none => simp [exponentText]
    | some e =>
      simp only [exponentText, List.mem_cons]
      rintro c (rfl | rfl | member)
      · exact ⟨rfl, by decide⟩
      · split <;> exact ⟨rfl, by decide⟩
      · exact isLiteralChar_of_isDigit (isDigit_of_mem_toDigits member)
  intro c member
  simp only [text, List.mem_append] at member
  rcases member with member | (member | member) | member
  · exact sign c member
  · exact digits c (List.mem_append_left _ member)
  · split at member
    · simp at member
    · rcases List.mem_cons.mp member with rfl | member
      · exact ⟨rfl, by decide⟩
      · exact digits c (List.mem_append_right _ member)
  · exact exponent c member

/-- A well-formed literal, after an optional minus sign, is read back as the nearest value to
what it writes. -/
theorem DecimalLiteral.ofText_text (neg : Bool) {l : DecimalLiteral} (wf : l.WellFormed) :
    ofText (String.ofList ((if neg then ['-'] else []) ++ l.text)) =
      ofDecimal neg l.digits l.scale := by
  have nonempty : (if neg then ['-'] else []) ++ l.text ≠ [] := by
    obtain ⟨c, rest, text, -⟩ := text_head wf
    simp [text]
  rw [ofText_of_literal nonempty (isLiteralChar_text neg wf), readDecimal_text neg wf,
    Option.getD_some]

/-! ### Writing and reading back -/

/-- The text of a finite non-zero number is its sign and a literal worth its shortest digits. -/
theorem toText_finite {x : Float} {b : Binary} (decoded : decode x = .finite b) (positive : 0 < b.m) :
    ∃ l : DecimalLiteral, l.WellFormed ∧
      (toText x).toList = (if b.neg then ['-'] else []) ++ l.text ∧
      (l.digits : ℚ) * 10 ^ l.scale = b.shortest.value := by
  obtain ⟨l, wf, text, value⟩ := @layout_literal (Nat.toDigits 10 b.shortest.digits)
    (fun _ member => isDigit_of_mem_toDigits member) Nat.toDigits_ne_nil
    (b.shortest.exp + (Nat.toDigits 10 b.shortest.digits).length)
  refine ⟨l, wf, ?_, ?_⟩
  · unfold toText
    rw [decoded]
    simp only [positive.ne', if_false, String.length_ofList]
    cases b.neg <;> simp [text]
  · rw [value, digitsValue_toDigits, Decimal.value]
    ring_nf

theorem ofText_toText_finite {x : Float} {b : Binary} (decoded : decode x = .finite b)
    (positive : 0 < b.m) : ofText (toText x) = x := by
  have canonical := (decode_finite decoded).1
  obtain ⟨rounds, -⟩ := b.shortest_rounds positive
  obtain ⟨l, wf, text, value⟩ := toText_finite decoded positive
  rw [← value] at rounds
  have digits : 0 < l.digits := by
    apply Nat.pos_of_ne_zero
    intro zero
    have := rounds.pos positive
    simp [zero] at this
  rw [← String.ofList_toList (s := toText x), text, DecimalLiteral.ofText_text b.neg wf,
    ofDecimal_of_rounds b.neg canonical positive digits rounds, ofSignificand_of_decode decoded]

/-- Number text round trip: reading the text of a number gives the number back, for every
number but negative zero; both zeros are written `0`; and the text of a finite non-zero number
is its sign and a decimal literal worth exactly its shortest digits, which lie in its rounding
interval and end in a non-zero digit. -/
theorem text_round_trip (x : Float) :
    (decode x ≠ .finite ⟨true, 0, -1074⟩ → ofText (toText x) = x) ∧
    (∀ b, decode x = .finite b → b.m = 0 → toText x = "0") ∧
    (∀ b, decode x = .finite b → 0 < b.m →
      b.Rounds b.shortest.value ∧ b.shortest.digits % 10 ≠ 0 ∧
      ∃ l : DecimalLiteral, l.WellFormed ∧
        (toText x).toList = (if b.neg then ['-'] else []) ++ l.text ∧
        (l.digits : ℚ) * 10 ^ l.scale = b.shortest.value) := by
  refine ⟨fun notNegativeZero => ?_, fun b decoded zero => by simp [toText, decoded, zero],
    fun b decoded positive => ⟨(b.shortest_rounds positive).1, (b.shortest_rounds positive).2,
      toText_finite decoded positive⟩⟩
  cases decoded : decode x with
  | nan =>
    rw [eq_of_decode_eq (decoded.trans (by decide : decode nan = .nan).symm)]
    rfl
  | infinite neg =>
    cases neg
    · rw [eq_of_decode_eq (decoded.trans (by decide : decode infinity = .infinite false).symm)]
      rfl
    · rw [eq_of_decode_eq (decoded.trans (by decide : decode (-infinity) = .infinite true).symm)]
      rfl
  | finite b =>
    by_cases zero : b.m = 0
    · -- a zero is `+0` here, so its text `0` reads back as itself
      have least := (decode_finite decoded).1.least (by omega)
      obtain ⟨neg, m, q⟩ := b
      simp only at zero least
      subst zero least
      cases neg
      · rw [← ofSignificand_of_decode decoded]
        rfl
      · exact absurd decoded notNegativeZero
    · exact ofText_toText_finite decoded (Nat.pos_of_ne_zero zero)

end EmbedScript.Number
