import Mathlib
import EmbedScript.Proofs.NaNFree
import EmbedScript.Proofs.NumberText
import EmbedScript.Proofs.Identifiers
import EmbedScript.Proofs.Equality
import EmbedScript.Proofs.Entry

/-!
Numeric literals read as text. A numeric literal is written either as decimal digits with an
optional point and fraction and an optional exponent (`DecimalNumeral`), or as `0`, a letter
naming the radix in either case, and digits of that radix (`RadixNumeral`). Every number token
the lexer reads is the text of such a numeral, with the numeral's value; and converting that
text as a string gives the same value, bit for bit, and never NaN. So a literal is loosely equal
to its own text, and converting its text to a number gives the literal's value.
-/

namespace EmbedScript.Number

open EmbedScript.Text

/-! ### Reading the characters of a literal -/

/-- The visible ASCII characters are no blanks and no line terminators. -/
theorem plain_of_visible {c : Char} (visible : 32 < c.toNat ∧ c.toNat < 127) :
    isBlank c = false ∧ isLineEnd c = false := by
  have value : c.val.toNat = c.toNat := rfl
  simp only [isBlank, isLineEnd, value, Bool.or_eq_false_iff, beq_eq_false_iff_ne, ne_eq,
    Bool.and_eq_false_iff, decide_eq_false_iff_not, Char.ext_iff, ← UInt32.toNat_inj,
    show '\n'.val.toNat = 10 from rfl, show '\r'.val.toNat = 13 from rfl, UInt32.reduceToNat]
  omega

theorem trimBlank_of_visible {cs : List Char} (visible : ∀ c ∈ cs, 32 < c.toNat ∧ c.toNat < 127) :
    trimBlank cs = cs := by
  have kept : ∀ ds : List Char, (∀ c ∈ ds, 32 < c.toNat ∧ c.toNat < 127) →
      ds.dropWhile (fun c => isBlank c || isLineEnd c) = ds := by
    intro ds plain
    cases ds with
    | nil => rfl
    | cons c rest =>
      obtain ⟨blank, lineEnd⟩ := plain_of_visible (plain c List.mem_cons_self)
      simp [blank, lineEnd]
  unfold trimBlank
  simp only
  rw [kept cs visible, kept cs.reverse (fun c member => visible c (List.mem_reverse.mp member)),
    List.reverse_reverse]

theorem visible_of_isDecimalChar {c : Char} (decimal : isDecimalChar c = true) :
    32 < c.toNat ∧ c.toNat < 127 := by
  simp only [isDecimalChar, Bool.or_eq_true, beq_iff_eq] at decimal
  rcases decimal with ((((digit | rfl) | rfl) | rfl) | rfl) | rfl
  · have bounds := Char.isDigit_iff_toNat.mp digit
    simp only [show '0'.toNat = 48 from rfl, show '9'.toNat = 57 from rfl] at bounds
    omega
  all_goals decide

theorem visible_of_digitIn {radix : Nat} {c : Char} (digit : (digitIn radix c).isSome) :
    32 < c.toNat ∧ c.toNat < 127 := by
  have value : c.val.toNat = c.toNat := rfl
  simp only [digitIn, Char.isDigit, Char.le_def, UInt32.le_iff_toNat_le, value,
    Bool.and_eq_true, decide_eq_true_eq, show '0'.val.toNat = 48 from rfl,
    show '9'.val.toNat = 57 from rfl, show 'a'.val.toNat = 97 from rfl,
    show 'z'.val.toNat = 122 from rfl, show 'A'.val.toNat = 65 from rfl,
    show 'Z'.val.toNat = 90 from rfl] at digit
  split_ifs at digit <;> simp_all <;> omega

/-- The capital letters are the code points 65 to 90. -/
theorem capital_of_upper {c : Char} (upper : ('A' ≤ c && c ≤ 'Z') = true) :
    65 ≤ c.toNat ∧ c.toNat ≤ 90 := by
  simpa [Char.le_def, UInt32.le_iff_toNat_le] using upper

/-- Lowering a capital letter moves it 32 code points on. -/
theorem toNat_lowered {c : Char} (capital : 65 ≤ c.toNat ∧ c.toNat ≤ 90) :
    (Char.ofNat (c.toNat + 32)).toNat = c.toNat + 32 := by
  have valid : (c.toNat + 32).isValidChar := by
    unfold Nat.isValidChar
    omega
  rw [Char.ofNat, dif_pos valid]
  rfl

/-- A capital letter and its lower case are the same digit. -/
theorem digitIn_lowerAscii (radix : Nat) (c : Char) :
    digitIn radix (lowerAscii c) = digitIn radix c := by
  unfold lowerAscii
  split
  · rename_i upper
    have capital := capital_of_upper upper
    have lower := toNat_lowered capital
    generalize Char.ofNat (c.toNat + 32) = l at lower
    have value : ∀ x : Char, x.val.toNat = x.toNat := fun _ => rfl
    simp only [digitIn, Char.isDigit, Char.le_def, UInt32.le_iff_toNat_le, Bool.and_eq_true,
      decide_eq_true_eq, value, lower, show '0'.toNat = 48 from rfl, show '9'.toNat = 57 from rfl,
      show 'a'.toNat = 97 from rfl, show 'z'.toNat = 122 from rfl, show 'A'.toNat = 65 from rfl,
      show 'Z'.toNat = 90 from rfl]
    -- both digit values count from ten at the letter
    congr 2 <;> split_ifs <;> omega
  · rfl

theorem readRadix_map_lowerAscii (radix : Nat) (cs : List Char) :
    readRadix radix (cs.map lowerAscii) = readRadix radix cs := by
  have step : (fun acc c => radixStep radix acc (lowerAscii c)) = radixStep radix := by
    funext acc c
    simp only [radixStep, digitIn_lowerAscii]
  rw [readRadix_eq, readRadix_eq, List.isEmpty_map, List.foldlM_map, step]

/-- A text of decimal characters, at least one, is read as a decimal literal: it is no
infinity, and lowering its case gives no radix prefix, since `I`, `x`, `o` and `b` are not
among its characters. -/
theorem ofText_of_decimalChars {cs : List Char} (nonempty : cs ≠ [])
    (decimal : ∀ c ∈ cs, isDecimalChar c = true) :
    ofText (String.ofList cs) = (readDecimal cs).getD nan := by
  have lowered : ∀ c ∈ cs.map lowerAscii, isDecimalChar c = true := by
    intro c member
    obtain ⟨d, original, rfl⟩ := List.mem_map.mp member
    have lower : lowerAscii d = d ∨ (d = 'E' ∧ lowerAscii d = 'e') := by
      simp only [isDecimalChar, Bool.or_eq_true, beq_iff_eq] at decimal
      rcases decimal d original with ((((digit | rfl) | rfl) | rfl) | rfl) | rfl
      · left
        have bounds := Char.isDigit_iff_toNat.mp digit
        simp only [show '0'.toNat = 48 from rfl, show '9'.toNat = 57 from rfl] at bounds
        simp only [lowerAscii, Char.le_def, UInt32.le_iff_toNat_le, Bool.and_eq_true,
          decide_eq_true_eq]
        have value : d.val.toNat = d.toNat := rfl
        rw [if_neg (by simp only [value, show 'A'.val.toNat = 65 from rfl]; omega)]
      all_goals decide
    rcases lower with same | ⟨-, capital⟩
    · rw [same]
      exact decimal d original
    · rw [capital]
      rfl
  have foreign : ∀ c, isDecimalChar c = false → c ∉ cs.map lowerAscii := by
    intro c outside member
    rw [lowered c member] at outside
    contradiction
  have notInfinity : ∀ s : String, 'I' ∈ s.toList → (cs == s.toList) = false := by
    intro s letter
    rw [beq_eq_false_iff_ne]
    rintro rfl
    exact absurd (decimal 'I' letter) (by decide)
  unfold ofText
  simp only [String.toList_ofList,
    trimBlank_of_visible fun c member => visible_of_isDecimalChar (decimal c member)]
  rw [if_neg (by simpa using nonempty), notInfinity _ (by decide), notInfinity _ (by decide),
    notInfinity _ (by decide)]
  simp only [Bool.or_false, Bool.false_eq_true, if_false]
  split
  · exact absurd (by simp_all) (foreign 'x' rfl)
  · exact absurd (by simp_all) (foreign 'o' rfl)
  · exact absurd (by simp_all) (foreign 'b' rfl)
  · rw [if_pos (List.all_eq_true.mpr decimal)]

end EmbedScript.Number

namespace EmbedScript.Syntax

open EmbedScript.Number EmbedScript.Text

/-! ### Numerals -/

/-- The exponent of a decimal literal as written: `e` or `E`, an optional sign, and digits. -/
structure ExponentPart where
  letter : Char
  sign : Option Char
  digits : List Char
  letter_mem : letter = 'e' ∨ letter = 'E'
  sign_mem : ∀ s ∈ sign, s = '+' ∨ s = '-'
  digits_ne_nil : digits ≠ []
  isDigit : ∀ c ∈ digits, c.isDigit = true

namespace ExponentPart

def text (x : ExponentPart) : List Char := x.letter :: (x.sign.toList ++ x.digits)

def value (x : ExponentPart) : Int :=
  if x.sign = some '-' then -(digitsValue x.digits : Int) else digitsValue x.digits

end ExponentPart

/-- A decimal literal as written: integer digits, then optionally a point and fraction digits,
then optionally an exponent, with a digit on one side of the point at least. -/
structure DecimalNumeral where
  whole : List Char
  fraction : Option (List Char)
  exponent : Option ExponentPart
  whole_digits : ∀ c ∈ whole, c.isDigit = true
  fraction_digits : ∀ f ∈ fraction, ∀ c ∈ f, c.isDigit = true
  some_digit : whole ≠ [] ∨ ∃ f ∈ fraction, f ≠ []

namespace DecimalNumeral

/-- The digits after the point, none when there is no point. -/
def fractionDigits (n : DecimalNumeral) : List Char := n.fraction.getD []

def text (n : DecimalNumeral) : List Char :=
  n.whole ++ ((n.fraction.map ('.' :: ·)).getD [] ++ (n.exponent.map ExponentPart.text).getD [])

/-- The nearest binary64 value to the digits on both sides of the point, scaled by the
exponent. -/
def value (n : DecimalNumeral) : Float :=
  ofDecimal false (digitsValue (n.whole ++ n.fractionDigits))
    ((n.exponent.map ExponentPart.value).getD 0 - n.fractionDigits.length)

/-- The nearest binary64 value to the numeral with a sign in front, negative or not. -/
def signedValue (neg : Bool) (n : DecimalNumeral) : Float :=
  ofDecimal neg (digitsValue (n.whole ++ n.fractionDigits))
    ((n.exponent.map ExponentPart.value).getD 0 - n.fractionDigits.length)

end DecimalNumeral

/-- A radix literal as written: `0`, a letter naming the radix in either case, and at least one
digit of that radix. -/
structure RadixNumeral where
  letter : Char
  radix : Nat
  digits : List Char
  radixOf_letter : radixOf letter = some radix
  digits_ne_nil : digits ≠ []
  isDigit : ∀ c ∈ digits, (digitIn radix c).isSome

namespace RadixNumeral

def text (n : RadixNumeral) : List Char := '0' :: n.letter :: n.digits

/-- The digits folded in binary64 arithmetic. -/
def value (n : RadixNumeral) : Float := (readRadix n.radix n.digits).getD 0

end RadixNumeral

/-- A numeric literal: decimal, or with a radix prefix. -/
inductive Numeral where
  | decimal (n : DecimalNumeral)
  | radix (n : RadixNumeral)

namespace Numeral

def text : Numeral → List Char
  | .decimal n => n.text
  | .radix n => n.text

def value : Numeral → Float
  | .decimal n => n.value
  | .radix n => n.value

end Numeral

/-! ### Reading a numeral's text back -/

theorem spanSign_unsigned {c : Char} (notMinus : c ≠ '-') (notPlus : c ≠ '+') (r : List Char) :
    spanSign (c :: r) = (false, c :: r) := by
  unfold spanSign
  split
  · rename_i minus
    cases minus
    contradiction
  · rename_i plus
    cases plus
    contradiction
  · rfl

theorem ExponentPart.readExponent_text (x : ExponentPart) :
    readExponent (x.sign.toList ++ x.digits) = some x.value := by
  obtain ⟨letter, sign, digits, -, signs, nonempty, isDigit⟩ := x
  obtain ⟨d, ds, rfl⟩ := List.exists_cons_of_ne_nil nonempty
  have unsigned : spanSign (d :: ds) = (false, d :: ds) :=
    spanSign_of_isDigit (isDigit d List.mem_cons_self) ds
  have span : spanDigits (d :: ds) = (d :: ds, []) := by
    simpa using @spanDigits_append (d :: ds) [] isDigit (by simp)
  unfold readExponent
  rcases sign with _ | s
  · simp [unsigned, span, value]
  · rcases signs s rfl with rfl | rfl <;> simp [spanSign, span, value]

namespace DecimalNumeral

/-- A decimal numeral starts with a digit or with its point, never with a sign. -/
theorem spanSign_text (n : DecimalNumeral) : spanSign n.text = (false, n.text) := by
  obtain ⟨whole, fraction, exponent, wholeDigits, -, someDigit⟩ := n
  cases whole with
  | cons d ds => exact spanSign_of_isDigit (wholeDigits d List.mem_cons_self) _
  | nil =>
    obtain ⟨f, member, -⟩ := someDigit.resolve_left (by simp)
    obtain rfl := Option.mem_def.mp member
    exact spanSign_unsigned (by decide) (by decide) _

/-- A sign in front of a decimal numeral is the one `spanSign` takes. -/
theorem spanSign_signed {sign : Option Char} (signs : ∀ s ∈ sign, s = '+' ∨ s = '-')
    (n : DecimalNumeral) : spanSign (sign.toList ++ n.text) = (sign == some '-', n.text) := by
  rcases sign with _ | s
  · exact n.spanSign_text
  · rcases signs s rfl with rfl | rfl <;> rfl

/-- A decimal numeral with an optional sign in front reads as its value with that sign. -/
theorem readDecimal_signed {sign : Option Char} (signs : ∀ s ∈ sign, s = '+' ∨ s = '-')
    (n : DecimalNumeral) :
    readDecimal (sign.toList ++ n.text) = some (n.signedValue (sign == some '-')) := by
  obtain ⟨whole, fraction, exponent, wholeDigits, fractionIsDigits, someDigit⟩ := n
  -- after the integer digits comes a point, an exponent letter, or nothing
  have exponentStop : ∀ c ∈ ((exponent.map ExponentPart.text).getD []).head?,
      c.isDigit = false := by
    cases exponent with
    | none => simp
    | some x => rcases x.letter_mem with letter | letter <;> simp [ExponentPart.text, letter]
  have tailStop : ∀ c ∈ ((fraction.map ('.' :: ·)).getD [] ++
      (exponent.map ExponentPart.text).getD []).head?, c.isDigit = false := by
    cases fraction with
    | none => simpa using exponentStop
    | some f => simp
  unfold readDecimal
  rw [spanSign_signed signs]
  simp only [text, spanDigits_append wholeDigits tailStop]
  cases fraction with
  | none =>
    have digits : whole.isEmpty = false := by simpa using someDigit
    cases exponent with
    | none => simp [digits, signedValue, fractionDigits]
    | some x =>
      rcases x.letter_mem with letter | letter <;>
        simp [digits, signedValue, fractionDigits, ExponentPart.text, letter, x.readExponent_text]
  | some f =>
    have fraction := spanDigits_append (fractionIsDigits f rfl) exponentStop
    have digits : (whole.isEmpty && f.isEmpty) = false := by
      simp only [Option.mem_def, Option.some.injEq, exists_eq_left'] at someDigit
      cases whole <;> cases f <;> simp_all
    cases exponent with
    | none => simp_all [signedValue, fractionDigits]
    | some x =>
      rcases x.letter_mem with letter | letter <;>
        simp_all [signedValue, fractionDigits, ExponentPart.text, x.readExponent_text]

theorem readDecimal_text (n : DecimalNumeral) : readDecimal n.text = some n.value :=
  @readDecimal_signed none (by simp) n

theorem text_ne_nil (n : DecimalNumeral) : n.text ≠ [] := by
  have read := n.readDecimal_text
  intro empty
  rw [empty] at read
  cases read

theorem isDecimalChar_text (n : DecimalNumeral) : ∀ c ∈ n.text, isDecimalChar c = true := by
  have digit : ∀ c : Char, c.isDigit = true → isDecimalChar c = true := by
    intro c digit
    simp [isDecimalChar, digit]
  intro c member
  simp only [text, List.mem_append] at member
  rcases member with whole | fraction | exponent
  · exact digit c (n.whole_digits c whole)
  · cases point : n.fraction with
    | none => simp [point] at fraction
    | some f =>
      simp only [point, Option.map_some, Option.getD_some, List.mem_cons] at fraction
      rcases fraction with rfl | member
      · rfl
      · exact digit c (n.fraction_digits f point c member)
  · cases written : n.exponent with
    | none => simp [written] at exponent
    | some x =>
      simp only [written, Option.map_some, Option.getD_some, ExponentPart.text, List.mem_cons,
        List.mem_append, Option.mem_toList] at exponent
      rcases exponent with rfl | sign | member
      · rcases x.letter_mem with letter | letter <;> simp [letter, isDecimalChar]
      · rcases x.sign_mem c sign with rfl | rfl <;> rfl
      · exact digit c (x.isDigit c member)

/-- The text of a decimal numeral converts to its value. -/
theorem ofText_text (n : DecimalNumeral) : ofText (String.ofList n.text) = n.value := by
  rw [ofText_of_decimalChars n.text_ne_nil n.isDecimalChar_text, n.readDecimal_text]
  rfl

end DecimalNumeral

/-- The prefix letters are `x`, `o` and `b` in either case, naming sixteen, eight and two. -/
theorem radixOf_eq_some {p : Char} {radix : Nat} (letter : radixOf p = some radix) :
    (32 < p.toNat ∧ p.toNat < 127) ∧ ((lowerAscii p = 'x' ∧ radix = 16) ∨
      (lowerAscii p = 'o' ∧ radix = 8) ∨ (lowerAscii p = 'b' ∧ radix = 2)) := by
  unfold radixOf at letter
  split at letter <;> simp only [Option.some.injEq, reduceCtorEq] at letter <;> subst letter <;>
    decide

theorem radixOf_mem {p : Char} {radix : Nat} (letter : radixOf p = some radix) :
    radix ∈ [2, 8, 16] := by
  rcases (radixOf_eq_some letter).2 with ⟨-, rfl⟩ | ⟨-, rfl⟩ | ⟨-, rfl⟩ <;> decide

namespace RadixNumeral

/-- The text of a radix numeral converts to its value: the prefix is found in lower case, and
lowering the case of the digits leaves each digit's value. -/
theorem ofText_text (n : RadixNumeral) : ofText (String.ofList n.text) = n.value := by
  obtain ⟨visibleLetter, lower⟩ := radixOf_eq_some n.radixOf_letter
  obtain ⟨v, read, -⟩ := readRadix_eq_some (radixOf_mem n.radixOf_letter) n.digits_ne_nil n.isDigit
  have visible : ∀ c ∈ n.text, 32 < c.toNat ∧ c.toNat < 127 := by
    intro c member
    simp only [text, List.mem_cons] at member
    rcases member with rfl | rfl | digit
    · decide
    · exact visibleLetter
    · exact visible_of_digitIn (n.isDigit c digit)
  have lowered : readRadix n.radix (n.digits.map lowerAscii) = some v := by
    rw [readRadix_map_lowerAscii, read]
  unfold ofText
  rw [String.toList_ofList, trimBlank_of_visible visible]
  -- a leading zero is neither blank nor an infinity, and stays a zero in lower case
  have zero : lowerAscii '0' = '0' := by decide
  simp only [text, List.isEmpty_cons, List.map_cons, zero]
  rcases lower with ⟨letter, radix⟩ | ⟨letter, radix⟩ | ⟨letter, radix⟩ <;>
    simp [letter, ← radix, lowered, value, read]

end RadixNumeral

namespace Numeral

theorem ofText_text (n : Numeral) : ofText (String.ofList n.text) = n.value := by
  cases n with
  | decimal n => exact n.ofText_text
  | radix n => exact n.ofText_text

/-- No numeral denotes NaN. -/
theorem isNaN_value (n : Numeral) : n.value.isNaN = false := by
  cases n with
  | decimal n => exact isNaN_ofDecimal _ _ _
  | radix n =>
    obtain ⟨v, read, notNaN⟩ := readRadix_eq_some (radixOf_mem n.radixOf_letter) n.digits_ne_nil n.isDigit
    simp only [value, RadixNumeral.value, read, Option.getD_some, notNaN]

end Numeral

/-! ### The lexer reads numerals -/

theorem finishNumber_eq_number {y x : Float} {r rest : List Char} {line l : Nat}
    (read : finishNumber y r line = .token (.number x) rest l) : x = y ∧ rest = r ∧ l = line := by
  unfold finishNumber at read
  split at read
  · split at read
    · cases read
    · cases read
      exact ⟨rfl, rfl, rfl⟩
  · cases read
    exact ⟨rfl, rfl, rfl⟩

theorem spanDigits_parts (cs : List Char) :
    (spanDigits cs).1 ++ (spanDigits cs).2 = cs ∧ ∀ c ∈ (spanDigits cs).1, c.isDigit = true :=
  ⟨List.takeWhile_append_dropWhile, fun _ member => List.mem_takeWhile_imp member⟩

/-- The sign taken: none, a plus or a minus, and negative exactly for the minus. -/
theorem spanSign_parts (cs : List Char) : ∃ sign : Option Char, (∀ s ∈ sign, s = '+' ∨ s = '-') ∧
    cs = sign.toList ++ (spanSign cs).2 ∧ ((spanSign cs).1 = true ↔ sign = some '-') := by
  unfold spanSign
  split
  · exact ⟨some '-', by simp, rfl, by simp⟩
  · exact ⟨some '+', by simp, rfl, by simp⟩
  · exact ⟨none, by simp, rfl, by simp⟩

/-- What the lexer takes after an exponent letter, when it finds digits, is an exponent part
with the value the lexer gives it. -/
theorem ExponentPart.exists_of_scan {e : Char} (letter : (e == 'e' || e == 'E') = true)
    {r : List Char} (digits : (spanDigits (spanSign r).2).1.isEmpty = false) :
    ∃ p : ExponentPart, e :: r = p.text ++ (spanDigits (spanSign r).2).2 ∧
      p.value = if (spanSign r).1 = true then -(digitsValue (spanDigits (spanSign r).2).1 : Int)
        else digitsValue (spanDigits (spanSign r).2).1 := by
  obtain ⟨sign, signs, signSplit, minus⟩ := spanSign_parts r
  obtain ⟨digitSplit, isDigit⟩ := spanDigits_parts (spanSign r).2
  refine ⟨⟨e, sign, (spanDigits (spanSign r).2).1, by simpa using letter, signs,
    by simpa using digits, isDigit⟩, ?_, ?_⟩
  · simp only [ExponentPart.text, List.cons_append, List.append_assoc, digitSplit]
    rw [← signSplit]
  · simp only [ExponentPart.value, minus]

/-- A number finished after digits, an optional fraction and an optional exponent is the value
of the numeral they form, and the lexer has read the numeral's text. -/
theorem DecimalNumeral.of_finishNumber {whole r rest : List Char} {fraction : Option (List Char)}
    {exponent : Option ExponentPart} {scale : Int} {x : Float} {line l : Nat}
    (wholeDigits : ∀ c ∈ whole, c.isDigit = true)
    (fractionDigits : ∀ f ∈ fraction, ∀ c ∈ f, c.isDigit = true)
    (someDigit : whole ≠ [] ∨ ∃ f ∈ fraction, f ≠ [])
    (scaled : scale = (exponent.map ExponentPart.value).getD 0 - (fraction.getD []).length)
    (read : finishNumber (ofDecimal false (digitsValue (whole ++ fraction.getD [])) scale) r line =
      .token (.number x) rest l) :
    ∃ n : DecimalNumeral, whole ++ ((fraction.map ('.' :: ·)).getD [] ++
      ((exponent.map ExponentPart.text).getD [] ++ r)) = n.text ++ rest ∧ x = n.value ∧ l = line := by
  obtain ⟨rfl, rfl, rfl⟩ := finishNumber_eq_number read
  refine ⟨⟨whole, fraction, exponent, wholeDigits, fractionDigits, someDigit⟩, ?_, ?_, rfl⟩
  · simp [DecimalNumeral.text]
  · rw [scaled]
    rfl

/-- A decimal literal the lexer reads as a number is a numeral's text followed by the rest. -/
theorem readDecimalLiteral_numeral {cs rest : List Char} {x : Float} {line l : Nat}
    (someDigit : (spanDigits cs).1 = [] → ∃ r, cs = '.' :: r ∧ (spanDigits r).1 ≠ [])
    (read : readDecimalLiteral cs line = .token (.number x) rest l) :
    ∃ n : DecimalNumeral, cs = n.text ++ rest ∧ x = n.value ∧ l = line := by
  obtain ⟨wholeSplit, wholeDigits⟩ := spanDigits_parts cs
  unfold readDecimalLiteral at read
  generalize spanDigits cs = ws at read wholeSplit wholeDigits someDigit
  obtain ⟨whole, r1⟩ := ws
  dsimp only at read wholeSplit wholeDigits someDigit
  subst wholeSplit
  -- an exponent letter with digits after it is an exponent part
  have exponent : ∀ {fraction : Option (List Char)} {e : Char} {r : List Char},
      (∀ f ∈ fraction, ∀ c ∈ f, c.isDigit = true) → (whole ≠ [] ∨ ∃ f ∈ fraction, f ≠ []) →
      (e == 'e' || e == 'E') = true →
      (if (spanDigits (spanSign r).2).1.isEmpty = true then Scan.error "missing exponent"
        else finishNumber (ofDecimal false (digitsValue (whole ++ fraction.getD []))
          ((if (spanSign r).1 = true then -(digitsValue (spanDigits (spanSign r).2).1 : Int)
            else digitsValue (spanDigits (spanSign r).2).1) - (fraction.getD []).length))
          (spanDigits (spanSign r).2).2 line) = .token (.number x) rest l →
      ∃ n : DecimalNumeral, whole ++ ((fraction.map ('.' :: ·)).getD [] ++ e :: r) =
        n.text ++ rest ∧ x = n.value ∧ l = line := by
    intro fraction e r fractionDigits someDigit letter read
    by_cases empty : (spanDigits (spanSign r).2).1.isEmpty = true
    · rw [if_pos empty] at read
      cases read
    · rw [if_neg empty] at read
      obtain ⟨p, written, value⟩ := ExponentPart.exists_of_scan letter (by simpa using empty)
      rw [written]
      exact @DecimalNumeral.of_finishNumber _ _ _ _ (some p) _ _ _ _ wholeDigits fractionDigits
        someDigit (by simp [value]) read
  cases r1 with
  | nil =>
    -- digits only
    have whole_ne : whole ≠ [] := by
      rintro rfl
      obtain ⟨r, point, -⟩ := someDigit rfl
      cases point
    exact @DecimalNumeral.of_finishNumber _ _ _ none none _ _ _ _ wholeDigits
      (by simp) (.inl whole_ne) (by simp) read
  | cons c r' =>
    by_cases point : c = '.'
    · -- a point, then the fraction digits
      subst point
      simp only at read
      have aroundPoint : whole ≠ [] ∨ (spanDigits r').1 ≠ [] := by
        by_cases empty : whole = []
        · subst empty
          obtain ⟨r, split, digits⟩ := someDigit rfl
          obtain rfl : r' = r := by simpa using split
          exact .inr digits
        · exact .inl empty
      obtain ⟨fractionSplit, fractionDigits⟩ := spanDigits_parts r'
      generalize spanDigits r' = fs at read fractionSplit fractionDigits aroundPoint
      obtain ⟨f, r2⟩ := fs
      dsimp only at read fractionSplit fractionDigits aroundPoint
      subst fractionSplit
      have fractionIsDigits : ∀ g ∈ some f, ∀ c ∈ g, c.isDigit = true := by
        simpa using fractionDigits
      have nonempty : whole ≠ [] ∨ ∃ g ∈ some f, g ≠ [] := by simpa using aroundPoint
      cases r2 with
      | nil =>
        exact @DecimalNumeral.of_finishNumber _ _ _ _ none _ _ _ _ wholeDigits fractionIsDigits
          nonempty (by simp) read
      | cons e r =>
        dsimp only at read
        by_cases letter : (e == 'e' || e == 'E') = true
        · rw [if_pos letter] at read
          exact exponent fractionIsDigits nonempty letter read
        · rw [if_neg letter] at read
          exact @DecimalNumeral.of_finishNumber _ _ _ _ none _ _ _ _ wholeDigits fractionIsDigits
            nonempty (by simp) read
    · -- no point: an exponent or the end of the literal
      have other : ∀ r'', c :: r' ≠ '.' :: r'' := by simp [point]
      simp only at read
      have whole_ne : whole ≠ [] := by
        rintro rfl
        obtain ⟨r, split, -⟩ := someDigit rfl
        simp only [List.nil_append, List.cons.injEq] at split
        exact point split.1
      by_cases letter : (c == 'e' || c == 'E') = true
      · rw [if_pos letter] at read
        exact @exponent none _ _ (by simp) (.inl whole_ne) letter read
      · rw [if_neg letter] at read
        exact @DecimalNumeral.of_finishNumber _ _ _ none none _ _ _ _ wholeDigits
          (by simp) (.inl whole_ne) (by simp) read

/-- A numeric literal the lexer reads as a number is a numeral's text followed by the rest: a
radix numeral after `0` and a prefix letter, a decimal numeral otherwise. -/
theorem readNumber_numeral {cs rest : List Char} {x : Float} {line l : Nat}
    (someDigit : (spanDigits cs).1 = [] → ∃ r, cs = '.' :: r ∧ (spanDigits r).1 ≠ [])
    (read : readNumber cs line = .token (.number x) rest l) :
    ∃ n : Numeral, cs = n.text ++ rest ∧ x = n.value ∧ l = line := by
  have decimal : readDecimalLiteral cs line = .token (.number x) rest l →
      ∃ n : Numeral, cs = n.text ++ rest ∧ x = n.value ∧ l = line := by
    intro read
    obtain ⟨n, split, value, sameLine⟩ := readDecimalLiteral_numeral someDigit read
    exact ⟨.decimal n, split, value, sameLine⟩
  unfold readNumber at read
  split at read
  · rename_i p r
    split at read
    · rename_i radix letter
      dsimp only at read
      by_cases empty : (r.takeWhile fun c => (digitIn radix c).isSome).isEmpty = true
      · rw [if_pos empty] at read
        cases read
      · rw [if_neg empty] at read
        obtain ⟨rfl, rfl, rfl⟩ := finishNumber_eq_number read
        refine ⟨.radix ⟨p, radix, r.takeWhile fun c => (digitIn radix c).isSome, letter,
            by simpa using empty, fun c member => by simpa using List.mem_takeWhile_imp member⟩,
            ?_, rfl, rfl⟩
        simp [Numeral.text, RadixNumeral.text]
    · exact decimal read
  · exact decimal read

theorem readIdent_ne_number (cs : List Char) (acc : String) (escaped : Bool) :
    readIdent cs line acc escaped ≠ .token (.number x) rest l := by
  have named : ∀ (r : List Char) (word : String) (escaped : Bool),
      readIdent.identToken r line word escaped ≠ .token (.number x) rest l := by
    intro r word escaped
    rw [identToken_eq]
    split <;> simp
  fun_induction readIdent cs line acc escaped <;> first | exact named _ _ _ | simp_all

theorem readString_ne_number (quote : Char) (cs : List Char) (acc : String) :
    readString quote cs line acc ≠ .token (.number x) rest l := by
  fun_induction readString quote cs line acc <;> simp_all

/-- Every number token is the text of a numeral, with the numeral's value, on the line where it
starts. -/
theorem scanToken_numeral {cs rest : List Char} {x : Float} {line l : Nat}
    (read : scanToken cs line = .token (.number x) rest l) :
    ∃ n : Numeral, cs = n.text ++ rest ∧ x = n.value ∧ l = line := by
  cases cs with
  | nil => cases read
  | cons c r =>
    dsimp only [scanToken] at read
    split_ifs at read with name number quote
    · exact absurd read (readIdent_ne_number _ _ _)
    · -- a number starts with a digit, or with a point and a digit
      apply readNumber_numeral _ read
      intro empty
      have notDigit : c.isDigit = false := by
        cases digit : c.isDigit
        · rfl
        · simp [spanDigits, digit] at empty
      simp only [notDigit, Bool.false_or, Bool.and_eq_true, beq_iff_eq] at number
      obtain ⟨rfl, next⟩ := number
      refine ⟨r, rfl, ?_⟩
      cases r with
      | nil => simp at next
      | cons d r => simp_all [spanDigits]
    · exact absurd read (readString_ne_number _ _ _)
    · split at read <;> simp at read

end EmbedScript.Syntax

namespace EmbedScript

open Std.Do

set_option mvcgen.warning false

/-- At an index that holds a value, the stack interface converts it with the engine's
conversion. -/
theorem Api.toNumberAt_of_some {i : Int} {v : Value} {e₀ : Engine} (found : e₀.get? i = some v) :
    ⦃fun e => ⌜e = e₀⌝⦄ Api.toNumberAt i
    ⦃post⟨fun y _ => ⌜y = e₀.toNumber v⌝, fun _ _ => ⌜False⌝⟩⦄ := by
  obtain ⟨abs, normal, -⟩ := Option.bind_eq_some_iff.mp found
  have value := fun e => Api.valueAt_of_some i (v := v) e
  mvcgen [Api.toNumberAt, Api.requireIndex, value, Api.replaceAt, EmbedScript.fail] with subst_vars
  | vc1 => exact ⟨trivial, found⟩
  | vc2 =>
    obtain ⟨-, rfl⟩ := ‹_ = _ ∧ _ = v›
    rfl
  | vc3 => simp [normal] at ‹_ = none›

open Syntax Number

/-- A numeric literal and its text agree. Whatever text the lexer reads as a number token,
converting that text as a string gives the token's value, the same binary64 value, and never
NaN; so the literal is loosely equal to its own text, and the stack interface converts the text
to the literal's value. -/
theorem numeric_literal_text_reads_as_value {t rest : List Char} {line l : Nat} {x : Float}
    (read : scanToken (t ++ rest) line = .token (.number x) rest l) :
    ofText (String.ofList t) = x ∧ x.isNaN = false ∧
      binaryOp .eq (.number x) (.string (String.ofList t)) = pure (.bool true) ∧
      ∀ (e₀ : Engine) (i : Int), e₀.get? i = some (.string (String.ofList t)) →
        ⦃fun e => ⌜e = e₀⌝⦄ Api.toNumberAt i ⦃post⟨fun y _ => ⌜y = x⌝, fun _ _ => ⌜False⌝⟩⦄ := by
  obtain ⟨n, split, rfl, -⟩ := scanToken_numeral read
  obtain rfl : t = n.text := List.append_cancel_right split
  have converted := n.ofText_text
  refine ⟨converted, n.isNaN_value, ?_, fun e₀ i found => ?_⟩
  · unfold binaryOp
    simp only [Engine.looseEquals, Engine.looseEqualsWith, Engine.toNumber, converted,
      beq_self n.isNaN_value]
    rfl
  · simpa only [Engine.toNumber, converted] using Api.toNumberAt_of_some found

theorem point_five_reads_as_value :
    ofText (String.ofList ['.', '5']) = 0.5 ∧ (0.5 : Float).isNaN = false ∧
      binaryOp .eq (.number 0.5) (.string (String.ofList ['.', '5'])) = pure (.bool true) ∧
      ∀ (e₀ : Engine) (i : Int), e₀.get? i = some (.string (String.ofList ['.', '5'])) →
        ⦃fun e => ⌜e = e₀⌝⦄ Api.toNumberAt i ⦃post⟨fun y _ => ⌜y = 0.5⌝, fun _ _ => ⌜False⌝⟩⦄ :=
  numeric_literal_text_reads_as_value
    (show scanToken (['.', '5'] ++ [';']) 1 = .token (.number 0.5) [';'] 1 by rfl)

end EmbedScript
