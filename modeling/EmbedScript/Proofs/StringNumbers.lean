import EmbedScript.Proofs.NumericLiterals
import EmbedScript.Proofs.ExactIntegers

/-!
Converting a string to a number. The string is trimmed of white space and line terminators at
both ends, and what remains converts to a number other than NaN exactly when it is a string
numeral: nothing at all (zero), `Infinity` with an optional sign, `0x`, `0o` or `0b` in either
case followed by digits of that radix, or a decimal literal with an optional sign. Each string
numeral converts to its value; that of a radix literal is the integer its digits spell, exactly
so below 2^53.
-/

namespace EmbedScript.Number

open EmbedScript.Text EmbedScript.Syntax

/-! ### The trimmed characters -/

/-- The space separators, the Unicode category Zs. -/
def spaceSeparators : List Nat :=
  [0x20, 0xA0, 0x1680] ++ List.range' 0x2000 11 ++ [0x202F, 0x205F, 0x3000]

/-- The code points trimmed before converting: tab, vertical tab, form feed, the byte order
mark and the space separators, which make the white space, and the four line terminators. -/
def trimmedCodePoints : List Nat :=
  [0x9, 0xB, 0xC, 0xFEFF] ++ spaceSeparators ++ [0xA, 0xD, 0x2028, 0x2029]

/-- Whether a conversion trims the character. -/
def trimmed (c : Char) : Bool := isBlank c || isLineEnd c

theorem trimmed_iff (c : Char) : trimmed c = true ↔ c.toNat ∈ trimmedCodePoints := by
  have value : c.val.toNat = c.toNat := rfl
  simp only [trimmed, isBlank, isLineEnd, trimmedCodePoints, spaceSeparators, value,
    Bool.or_eq_true, Bool.and_eq_true, beq_iff_eq, decide_eq_true_eq, Char.ext_iff,
    ← UInt32.toNat_inj, show '\n'.val.toNat = 10 from rfl, show '\r'.val.toNat = 13 from rfl,
    UInt32.reduceToNat, List.mem_append, List.mem_cons, List.mem_range'_1, List.not_mem_nil,
    or_false]
  constructor <;> intro member <;> omega

theorem trimBlank_eq (cs : List Char) :
    trimBlank cs = ((cs.dropWhile trimmed).reverse.dropWhile trimmed).reverse := rfl

theorem head?_dropWhile (p : Char → Bool) (cs : List Char) :
    ∀ c ∈ (cs.dropWhile p).head?, p c = false := by
  intro c member
  have kept := List.head?_dropWhile_not p cs
  rw [Option.mem_def.mp member] at kept
  exact kept

/-- Trimming removes the longest runs of trimmed characters at both ends: what it drops is
trimmed, and what it keeps neither starts nor ends with a trimmed character. -/
theorem trimBlank_spec (cs : List Char) :
    ∃ pre post, cs = pre ++ trimBlank cs ++ post ∧ (∀ c ∈ pre ++ post, trimmed c = true) ∧
      (∀ c ∈ (trimBlank cs).head?, trimmed c = false) ∧
      ∀ c ∈ (trimBlank cs).getLast?, trimmed c = false := by
  obtain ⟨r, rest⟩ : ∃ r, cs.dropWhile trimmed = r := ⟨_, rfl⟩
  have front : cs.takeWhile trimmed ++ r = cs := rest ▸ List.takeWhile_append_dropWhile
  have back : (r.reverse.dropWhile trimmed).reverse ++ (r.reverse.takeWhile trimmed).reverse = r := by
    rw [← List.reverse_append, List.takeWhile_append_dropWhile, List.reverse_reverse]
  refine ⟨cs.takeWhile trimmed, (r.reverse.takeWhile trimmed).reverse, ?_, ?_, ?_, ?_⟩
  · rw [trimBlank_eq, rest, List.append_assoc, back, front]
  · intro c member
    rcases List.mem_append.mp member with early | late
    · exact List.mem_takeWhile_imp early
    · exact List.mem_takeWhile_imp (List.mem_reverse.mp late)
  -- what is kept starts where the leading run ends
  · intro c first
    rw [trimBlank_eq, rest] at first
    apply head?_dropWhile trimmed cs
    rw [rest, ← back, List.head?_append, Option.mem_def.mp first]
    rfl
  -- and ends where the trailing run begins
  · intro c last
    rw [trimBlank_eq, rest, List.getLast?_reverse] at last
    exact head?_dropWhile trimmed _ c last

theorem dropWhile_of_head? {p : Char → Bool} {cs : List Char}
    (kept : ∀ c ∈ cs.head?, p c = false) : cs.dropWhile p = cs := by
  cases cs with
  | nil => rfl
  | cons c rest => simp [kept c rfl]

theorem trimBlank_trimBlank (cs : List Char) : trimBlank (trimBlank cs) = trimBlank cs := by
  obtain ⟨-, -, -, -, first, last⟩ := trimBlank_spec cs
  have reversed : ∀ c ∈ (trimBlank cs).reverse.head?, trimmed c = false := by
    rw [List.head?_reverse]
    exact last
  rw [trimBlank_eq (trimBlank cs), dropWhile_of_head? first, dropWhile_of_head? reversed,
    List.reverse_reverse]

/-- A string converts as its trimmed text does. -/
theorem ofText_trimBlank (s : String) :
    ofText s = ofText (String.ofList (trimBlank s.toList)) := by
  unfold ofText
  simp only [String.toList_ofList, trimBlank_trimBlank]

/-! ### String numerals -/

/-- The texts a trimmed string converts from, with the number each denotes: nothing (zero),
`Infinity` with an optional sign, a radix literal, or a decimal literal with an optional sign
(the nearest binary64 value to the signed decimal). -/
inductive StringNumeral : List Char → Float → Prop
  | empty : StringNumeral [] 0
  | infinity (sign : Option Char) (signs : ∀ s ∈ sign, s = '+' ∨ s = '-') :
      StringNumeral (sign.toList ++ "Infinity".toList)
        (if sign = some '-' then -infinity else infinity)
  | radix (n : RadixNumeral) : StringNumeral n.text n.value
  | decimal (sign : Option Char) (signs : ∀ s ∈ sign, s = '+' ∨ s = '-') (n : DecimalNumeral) :
      StringNumeral (sign.toList ++ n.text) (n.signedValue (sign == some '-'))

theorem isDecimalChar_signed {sign : Option Char} (signs : ∀ s ∈ sign, s = '+' ∨ s = '-')
    (n : DecimalNumeral) : ∀ c ∈ sign.toList ++ n.text, isDecimalChar c = true := by
  intro c member
  rcases List.mem_append.mp member with signed | digit
  · rcases signs c (Option.mem_toList.mp signed) with rfl | rfl <;> rfl
  · exact n.isDecimalChar_text c digit

/-- A string numeral converts to its value. -/
theorem StringNumeral.ofText_eq {t : List Char} {x : Float} (numeral : StringNumeral t x) :
    ofText (String.ofList t) = x := by
  cases numeral with
  | empty => rfl
  | infinity sign signs =>
    rcases sign with _ | s
    · rfl
    · rcases signs s rfl with rfl | rfl <;> rfl
  | radix n => exact n.ofText_text
  | decimal sign signs n =>
    have nonempty : sign.toList ++ n.text ≠ [] := by simp [n.text_ne_nil]
    rw [ofText_of_decimalChars nonempty (isDecimalChar_signed signs n),
      DecimalNumeral.readDecimal_signed signs n]
    rfl

/-! ### Reading a trimmed text back as a string numeral -/

/-- Lowering the case changes only capital letters, each into the letter 32 code points on. -/
theorem eq_of_lowerAscii {c d : Char} (lowered : lowerAscii c = d) :
    c = d ∨ c.toNat + 32 = d.toNat ∧ 65 ≤ c.toNat ∧ c.toNat ≤ 90 := by
  unfold lowerAscii at lowered
  split at lowered
  · rename_i upper
    have capital := capital_of_upper upper
    exact Or.inr ⟨toNat_lowered capital ▸ congrArg Char.toNat lowered, capital⟩
  · exact Or.inl lowered

/-- Lowering the case of a character keeps the radix it names, if any. -/
theorem radixOf_lowerAscii (c : Char) : radixOf (lowerAscii c) = radixOf c := by
  unfold lowerAscii
  split
  · rename_i upper
    have capital := capital_of_upper upper
    -- the capitals are few enough to check one by one
    have letters : ∀ k < 91, 65 ≤ k → radixOf (Char.ofNat (k + 32)) = radixOf (Char.ofNat k) := by
      decide +kernel
    have lowered := letters c.toNat (by omega) capital.1
    rwa [Char.ofNat_toNat] at lowered
  · rfl

theorem isNaN_nan : nan.isNaN = true := by decide +kernel

/-- A reading that falls back to NaN and gives no NaN has read a value. -/
theorem exists_of_getD_nan {o : Option Float} (notNaN : (o.getD nan).isNaN = false) :
    ∃ v, o = some v := by
  cases o with
  | none =>
    rw [Option.getD_none, isNaN_nan] at notNaN
    cases notNaN
  | some v => exact ⟨v, rfl⟩

/-- Digits are read only when every character is a digit of the radix. -/
theorem digits_of_foldlM_radixStep {radix : Nat} (cs : List Char) :
    ∀ {acc x : Float}, cs.foldlM (radixStep radix) acc = some x →
      ∀ c ∈ cs, (digitIn radix c).isSome := by
  induction cs with
  | nil => simp
  | cons c cs ih =>
    intro acc x read d member
    rw [List.foldlM_cons] at read
    obtain ⟨next, step, rest⟩ := Option.bind_eq_some_iff.mp read
    rcases List.mem_cons.mp member with rfl | later
    · obtain ⟨digit, found, -⟩ := Option.map_eq_some_iff.mp step
      exact Option.isSome_iff_exists.mpr ⟨digit, found⟩
    · exact ih rest d later

theorem digits_of_readRadix {radix : Nat} {cs : List Char} {x : Float}
    (read : readRadix radix cs = some x) : cs ≠ [] ∧ ∀ c ∈ cs, (digitIn radix c).isSome := by
  rw [readRadix_eq] at read
  by_cases empty : cs.isEmpty = true
  · rw [if_pos empty] at read
    cases read
  · rw [if_neg empty] at read
    exact ⟨by simpa using empty, digits_of_foldlM_radixStep cs read⟩

/-- A text whose lower case is `0`, a radix letter and text read as digits of that radix is a
radix numeral. -/
theorem StringNumeral.of_radix {t rest : List Char} {p : Char} {radix : Nat}
    (letter : radixOf p = some radix) (lowered : t.map lowerAscii = '0' :: p :: rest)
    (notNaN : ((readRadix radix rest).getD nan).isNaN = false) :
    StringNumeral t ((readRadix radix rest).getD nan) := by
  obtain ⟨v, read⟩ := exists_of_getD_nan notNaN
  obtain ⟨zero, t', first, lowerZero, lowered'⟩ := List.map_eq_cons_iff.mp lowered
  obtain ⟨c, digits, rfl, lowerLetter, rfl⟩ := List.map_eq_cons_iff.mp lowered'
  -- no capital letter lowers to a digit
  have isZero : zero = '0' := by
    rcases eq_of_lowerAscii lowerZero with same | ⟨shifted, capital, -⟩
    · exact same
    · have : '0'.toNat = 48 := rfl
      omega
  rw [readRadix_map_lowerAscii] at read
  obtain ⟨nonempty, isDigit⟩ := digits_of_readRadix read
  have named : radixOf c = some radix := by
    rw [← radixOf_lowerAscii, lowerLetter]
    exact letter
  let n : RadixNumeral := ⟨c, radix, digits, named, nonempty, isDigit⟩
  have value : n.value = (readRadix radix (digits.map lowerAscii)).getD nan := by
    simp only [n, RadixNumeral.value, readRadix_map_lowerAscii, read, Option.getD_some]
  rw [first, isZero, ← value]
  exact .radix n

/-! ### Reading a decimal text back -/

/-- What follows an exponent letter reads as an exponent only when it is an exponent part's
text after the letter. -/
theorem ExponentPart.of_readExponent {e : Char} (letter : (e == 'e' || e == 'E') = true)
    {r : List Char} (read : (readExponent r).isSome) : ∃ p : ExponentPart, e :: r = p.text := by
  obtain ⟨sign, signs, signSplit, -⟩ := spanSign_parts r
  obtain ⟨digitSplit, isDigit⟩ := spanDigits_parts (spanSign r).2
  unfold readExponent at read
  generalize spanSign r = sr at read signSplit digitSplit isDigit
  obtain ⟨neg, r'⟩ := sr
  dsimp only at read signSplit digitSplit isDigit
  generalize spanDigits r' = dr at read digitSplit isDigit
  obtain ⟨ds, rest⟩ := dr
  dsimp only at read digitSplit isDigit
  by_cases digits : ds = []
  · simp [digits] at read
  by_cases trailing : rest = []
  · subst trailing signSplit digitSplit
    exact ⟨⟨e, sign, ds, by simpa using letter, signs, digits, isDigit⟩, by simp [ExponentPart.text]⟩
  · simp [trailing] at read

/-- What follows the digits of a decimal text: nothing, or an exponent part. -/
theorem exponent_of_tail {r : List Char} {g : Int → Float}
    (read : (Option.map g (match r with
      | [] => some 0
      | c :: r' => if (c == 'e' || c == 'E') = true then readExponent r' else none)).isSome) :
    ∃ exponent : Option ExponentPart, r = (exponent.map ExponentPart.text).getD [] := by
  cases r with
  | nil => exact ⟨none, rfl⟩
  | cons c r' =>
    dsimp only at read
    by_cases letter : (c == 'e' || c == 'E') = true
    · rw [if_pos letter, Option.isSome_map] at read
      obtain ⟨p, written⟩ := ExponentPart.of_readExponent letter read
      exact ⟨some p, written⟩
    · rw [if_neg letter] at read
      cases read

/-- A text reads as a decimal only when it is a decimal numeral with an optional sign in front. -/
theorem exists_of_readDecimal {cs : List Char} (read : (readDecimal cs).isSome) :
    ∃ (sign : Option Char) (n : DecimalNumeral), (∀ s ∈ sign, s = '+' ∨ s = '-') ∧
      cs = sign.toList ++ n.text := by
  obtain ⟨sign, signs, signSplit, -⟩ := spanSign_parts cs
  obtain ⟨wholeSplit, wholeDigits⟩ := spanDigits_parts (spanSign cs).2
  unfold readDecimal at read
  generalize spanSign cs = sr at read signSplit wholeSplit wholeDigits
  obtain ⟨neg, r⟩ := sr
  dsimp only at read signSplit wholeSplit wholeDigits
  generalize spanDigits r = ws at read wholeSplit wholeDigits
  obtain ⟨whole, r1⟩ := ws
  dsimp only at read wholeSplit wholeDigits
  subst signSplit wholeSplit
  cases r1 with
  | nil =>
    -- digits only
    have someDigit : whole ≠ [] := by
      rintro rfl
      simp at read
    exact ⟨sign, ⟨whole, none, none, wholeDigits, by simp, .inl someDigit⟩, signs,
      by simp [DecimalNumeral.text]⟩
  | cons c r' =>
    by_cases point : c = '.'
    · -- a point, then the fraction digits and what follows them
      subst point
      obtain ⟨fractionSplit, fractionDigits⟩ := spanDigits_parts r'
      simp only at read
      split at read
      · cases read
      · rename_i someDigit
        obtain ⟨exponent, tail⟩ := exponent_of_tail read
        refine ⟨sign, ⟨whole, some (spanDigits r').1, exponent, wholeDigits,
          by simpa using fractionDigits, ?_⟩, signs, ?_⟩
        · simp only [Bool.and_eq_true, List.isEmpty_iff, not_and] at someDigit
          simpa using imp_iff_not_or.mp someDigit
        · conv_lhs => rw [← fractionSplit, tail]
          simp [DecimalNumeral.text]
    · -- no point: an exponent or nothing after the digits
      have other : ∀ r'', c :: r' ≠ '.' :: r'' := by simp [point]
      simp only at read
      split at read
      · cases read
      · rename_i someDigit
        obtain ⟨exponent, tail⟩ := exponent_of_tail (r := c :: r') read
        refine ⟨sign, ⟨whole, none, exponent, wholeDigits, by simp, .inl ?_⟩, signs, ?_⟩
        · simpa using someDigit
        · rw [tail]
          simp [DecimalNumeral.text]

/-- A text reads as a decimal only when it is a decimal numeral with an optional sign in front,
and then as the numeral's signed value. -/
theorem readDecimal_eq_some {cs : List Char} {v : Float} (read : readDecimal cs = some v) :
    ∃ (sign : Option Char) (n : DecimalNumeral), (∀ s ∈ sign, s = '+' ∨ s = '-') ∧
      cs = sign.toList ++ n.text ∧ v = n.signedValue (sign == some '-') := by
  obtain ⟨sign, n, signs, written⟩ :=
    exists_of_readDecimal (Option.isSome_iff_exists.mpr ⟨v, read⟩)
  refine ⟨sign, n, signs, written, ?_⟩
  rw [written, DecimalNumeral.readDecimal_signed signs] at read
  exact (Option.some.inj read).symm

/-! ### The conversion accepts exactly the string numerals -/

/-- No string numeral denotes NaN. -/
theorem StringNumeral.isNaN_eq_false {t : List Char} {x : Float} (numeral : StringNumeral t x) :
    x.isNaN = false := by
  cases numeral with
  | empty => decide +kernel
  | infinity sign signs => split <;> decide +kernel
  | radix n => exact Numeral.isNaN_value (.radix n)
  | decimal sign signs n => exact isNaN_ofDecimal _ _ _

/-- A string converting to a number other than NaN is a string numeral once trimmed, denoting
that number. -/
theorem StringNumeral.of_ofText {s : String} (notNaN : (ofText s).isNaN = false) :
    StringNumeral (trimBlank s.toList) (ofText s) := by
  unfold ofText at notNaN ⊢
  generalize trimBlank s.toList = t at notNaN ⊢
  dsimp only at notNaN ⊢
  by_cases empty : t.isEmpty = true
  · rw [if_pos empty, List.isEmpty_iff.mp empty]
    exact .empty
  rw [if_neg empty] at notNaN ⊢
  by_cases unsigned : (t == "Infinity".toList || t == "+Infinity".toList) = true
  · rw [if_pos unsigned]
    rcases Bool.or_eq_true_iff.mp unsigned with spelled | spelled <;> rw [beq_iff_eq.mp spelled]
    · exact .infinity none (by simp)
    · exact .infinity (some '+') (by simp)
  rw [if_neg unsigned] at notNaN ⊢
  by_cases negative : (t == "-Infinity".toList) = true
  · rw [if_pos negative, beq_iff_eq.mp negative]
    exact .infinity (some '-') (by simp)
  rw [if_neg negative] at notNaN ⊢
  revert notNaN
  -- after a prefix in lower case come radix digits; otherwise a decimal text or nothing valid
  split
  · next rest lowered => exact StringNumeral.of_radix rfl lowered
  · next rest lowered => exact StringNumeral.of_radix rfl lowered
  · next rest lowered => exact StringNumeral.of_radix rfl lowered
  · intro notNaN
    by_cases decimal : t.all isDecimalChar = true
    · rw [if_pos decimal] at notNaN ⊢
      obtain ⟨v, read⟩ := exists_of_getD_nan notNaN
      obtain ⟨sign, n, signs, rfl, rfl⟩ := readDecimal_eq_some read
      rw [read]
      exact .decimal sign signs n
    · rw [if_neg decimal, isNaN_nan] at notNaN
      cases notNaN

theorem RadixNumeral.value_eq_ofNat (n : RadixNumeral)
    (small : radixValue n.radix n.digits < 2 ^ 53) :
    n.value = Float.ofNat (radixValue n.radix n.digits) := by
  rw [RadixNumeral.value,
    readRadix_exact (radixOf_mem n.radixOf_letter) n.digits_ne_nil n.isDigit small]
  rfl

/-- Converting a string to a number. The characters trimmed at its ends are exactly the white
space and line terminators; what remains converts to a number other than NaN exactly when it is
a string numeral, and then to that numeral's value; and a radix numeral spelling an integer
below 2^53 converts to exactly that integer. -/
theorem ofText_accepts_string_numerals (s : String) :
    (∃ pre post, s.toList = pre ++ trimBlank s.toList ++ post ∧
      (∀ c ∈ pre ++ post, c.toNat ∈ trimmedCodePoints) ∧
      (∀ c ∈ (trimBlank s.toList).head?, c.toNat ∉ trimmedCodePoints) ∧
      ∀ c ∈ (trimBlank s.toList).getLast?, c.toNat ∉ trimmedCodePoints) ∧
    ((ofText s).isNaN = false ↔ ∃ x, StringNumeral (trimBlank s.toList) x) ∧
    (∀ x, StringNumeral (trimBlank s.toList) x → ofText s = x) ∧
    ∀ n : RadixNumeral, trimBlank s.toList = n.text → radixValue n.radix n.digits < 2 ^ 53 →
      ∃ b : Binary, decode (ofText s) = .finite b ∧ b.neg = false ∧
        (b.m : ℚ) * 2 ^ b.q = radixValue n.radix n.digits := by
  obtain ⟨pre, post, split, dropped, first, last⟩ := trimBlank_spec s.toList
  have kept : ∀ {c : Char}, trimmed c = false → c.toNat ∉ trimmedCodePoints := fun untrimmed =>
    (trimmed_iff _).not.mp (by simp [untrimmed])
  have converts : ∀ x, StringNumeral (trimBlank s.toList) x → ofText s = x :=
    fun x numeral => (ofText_trimBlank s).trans numeral.ofText_eq
  refine ⟨⟨pre, post, split, fun c member => (trimmed_iff c).mp (dropped c member),
    fun c member => kept (first c member), fun c member => kept (last c member)⟩,
    ⟨fun notNaN => ⟨_, StringNumeral.of_ofText notNaN⟩, ?_⟩, converts, ?_⟩
  · rintro ⟨x, numeral⟩
    rw [converts x numeral]
    exact numeral.isNaN_eq_false
  · intro n text small
    rw [converts n.value (text ▸ .radix n), RadixNumeral.value_eq_ofNat n small]
    exact decode_ofNat small

/-- `0X1F` between blanks converts to exactly thirty-one. -/
theorem hex_numeral_converts_exactly :
    ∃ b : Binary, decode (ofText " 0X1F\n") = .finite b ∧ b.neg = false ∧
      (b.m : ℚ) * 2 ^ b.q = 31 := by
  have exact := (ofText_accepts_string_numerals " 0X1F\n").2.2.2
    ⟨'X', 16, ['1', 'F'], rfl, by simp, by simp [digitIn]⟩ (by decide +kernel)
    (by simp [radixValue, radixValueFrom, digitIn])
  have value : radixValue 16 ['1', 'F'] = 31 := rfl
  simpa [value] using exact

end EmbedScript.Number
