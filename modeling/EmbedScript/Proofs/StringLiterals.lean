import Mathlib
import EmbedScript.Syntax.Lexer
import EmbedScript.Text.Units

/-!
String literals and the text they denote. The body of a literal is a sequence of pieces, as
the ES5 grammar splits it (7.8.4): characters standing for themselves, escape sequences and
line continuations. Its string value is a sequence of UTF-16 code units, each piece giving its
own, and as text a high surrogate followed by a low one is one character while every other
surrogate is U+FFFD.

The lexer decodes escapes one at a time and joins a surrogate pair only when both halves are
written `\uHHHH`, one right after the other. So it decodes a literal to the text of its string
value whenever every surrogate is written that way and no line continuation follows an escaped
high surrogate; on the way it advances the line once for each line-terminator character the
literal is written with. A pair written `\u{D83D}\u{DE00}` becomes two replacement characters
instead of one emoji.
-/

namespace EmbedScript.Syntax

open EmbedScript.Text EmbedScript.Number

/-! ### Code units as text -/

/-- A code unit that opens a surrogate pair. -/
def isHighSurrogate (u : Nat) : Bool := 0xD800 ≤ u && u < 0xDC00

/-- A code unit that closes a surrogate pair. -/
def isLowSurrogate (u : Nat) : Bool := 0xDC00 ≤ u && u < 0xE000

/-- The character of a code unit on its own: U+FFFD for a surrogate. -/
def unitChar (u : Nat) : Char :=
  if 0xD800 ≤ u ∧ u < 0xE000 then '�' else Char.ofNat u

/-- The character a surrogate pair encodes. -/
def pairChar (high low : Nat) : Char :=
  Char.ofNat (0x10000 + (high - 0xD800) * 0x400 + (low - 0xDC00))

/-- Code units read as text the way a lossy conversion to UTF-8 reads them: a high surrogate
with the low surrogate right after it is one character, and every other surrogate is U+FFFD. -/
def decodeUnits : List Nat → List Char
  | [] => []
  | [u] => [unitChar u]
  | u :: v :: r =>
    if isHighSurrogate u && isLowSurrogate v then pairChar u v :: decodeUnits r
    else unitChar u :: decodeUnits (v :: r)

/-- The UTF-16 code units of a code point: itself below U+10000, else a surrogate pair. -/
def codePointUnits (v : Nat) : List Nat :=
  if v < 0x10000 then [v] else [0xD800 + (v - 0x10000) / 0x400, 0xDC00 + (v - 0x10000) % 0x400]

theorem charUnits_eq (c : Char) : charUnits c = codePointUnits c.toNat := rfl

theorem decodeUnits_pair {u v : Nat} (pair : (isHighSurrogate u && isLowSurrogate v) = true)
    (r : List Nat) : decodeUnits (u :: v :: r) = pairChar u v :: decodeUnits r := by
  rw [decodeUnits, if_pos pair]

theorem decodeUnits_unit_cons {u : Nat} (notHigh : isHighSurrogate u = false) (r : List Nat) :
    decodeUnits (u :: r) = unitChar u :: decodeUnits r := by
  cases r with
  | nil => rfl
  | cons v r => simp [decodeUnits, notHigh]

/-- The units of a code point read back as its character. -/
theorem decodeUnits_codePoint_append {v : Nat} (notSurrogate : v < 0xD800 ∨ 0xDFFF < v)
    (inRange : v < 0x110000) (r : List Nat) :
    decodeUnits (codePointUnits v ++ r) = Char.ofNat v :: decodeUnits r := by
  unfold codePointUnits
  split
  · have notHigh : isHighSurrogate v = false := by simp [isHighSurrogate]; omega
    rw [List.singleton_append, decodeUnits_unit_cons notHigh, unitChar, if_neg (by omega)]
  · have pair : (isHighSurrogate (0xD800 + (v - 0x10000) / 0x400) &&
        isLowSurrogate (0xDC00 + (v - 0x10000) % 0x400)) = true := by
      simp only [isHighSurrogate, isLowSurrogate, Bool.and_eq_true, decide_eq_true_eq]
      omega
    have value : 0x10000 + (0xD800 + (v - 0x10000) / 0x400 - 0xD800) * 0x400 +
        (0xDC00 + (v - 0x10000) % 0x400 - 0xDC00) = v := by omega
    rw [List.cons_append, List.cons_append, List.nil_append, decodeUnits_pair pair, pairChar,
      value]

theorem decodeUnits_charUnits_append (c : Char) (r : List Nat) :
    decodeUnits (charUnits c ++ r) = c :: decodeUnits r := by
  have valid : c.toNat < 0xD800 ∨ (0xDFFF < c.toNat ∧ c.toNat < 0x110000) := by
    simpa [UInt32.isValidChar, Nat.isValidChar] using c.valid
  rw [charUnits_eq, decodeUnits_codePoint_append (by omega) (by omega), Char.ofNat_toNat]

/-- Decoding splits at every place that does not cut a surrogate pair. -/
theorem decodeUnits_append : ∀ (xs ys : List Nat),
    (∀ u ∈ xs.getLast?, ∀ v ∈ ys.head?, ¬ (isHighSurrogate u ∧ isLowSurrogate v)) →
    decodeUnits (xs ++ ys) = decodeUnits xs ++ decodeUnits ys
  | [], ys, _ => rfl
  | [u], [], _ => rfl
  | [u], v :: ys, apart => by
    have : ¬ (isHighSurrogate u = true ∧ isLowSurrogate v = true) := apart u rfl v rfl
    simp_all [decodeUnits]
  | u :: v :: xs, ys, apart => by
    have rest : ∀ w ∈ (v :: xs).getLast?, ∀ v' ∈ ys.head?,
        ¬ (isHighSurrogate w ∧ isLowSurrogate v') := by
      simpa [List.getLast?_cons_cons] using apart
    by_cases pair : (isHighSurrogate u && isLowSurrogate v) = true
    · -- the pair stays whole, and the cut falls after the rest of `xs`
      have tail : ∀ w ∈ xs.getLast?, ∀ v' ∈ ys.head?,
          ¬ (isHighSurrogate w ∧ isLowSurrogate v') := by
        intro w last
        apply rest w
        rw [List.getLast?_cons, Option.mem_def, last]
        rfl
      rw [List.cons_append, List.cons_append, decodeUnits_pair pair, decodeUnits_pair pair,
        decodeUnits_append xs ys tail, List.cons_append]
    · simp only [List.cons_append, decodeUnits, pair, Bool.false_eq_true, if_false]
      rw [← List.cons_append, decodeUnits_append (v :: xs) ys rest]

/-! ### Reading escapes -/

/-- One hexadecimal digit more: the value so far times sixteen plus the digit. -/
def hexStep (v : Nat) (c : Char) : Nat := v * 16 + (digitIn 16 c).getD 0

/-- The value of hexadecimal digits. -/
def hexValue (ds : List Char) : Nat := ds.foldl hexStep 0

/-- A hexadecimal digit, in either case. -/
def IsHexDigit (c : Char) : Prop := (digitIn 16 c).isSome

instance : DecidablePred IsHexDigit := fun c => inferInstanceAs (Decidable ((digitIn 16 c).isSome))

theorem readHex_digits {ds : List Char} (hex : ∀ c ∈ ds, IsHexDigit c) (r : List Char)
    (acc : Nat) : readHex ds.length (ds ++ r) acc = .ok (ds.foldl hexStep acc, r) := by
  induction ds generalizing acc with
  | nil => simp [readHex]
  | cons c ds ih =>
    obtain ⟨d, digit⟩ := Option.isSome_iff_exists.mp (hex c List.mem_cons_self)
    simp only [List.length_cons, List.cons_append, readHex, digit, List.foldl_cons, hexStep,
      Option.getD_some]
    exact ih (fun c' member => hex c' (List.mem_cons_of_mem c member)) _

theorem spanHex_digits {ds : List Char} (hex : ∀ c ∈ ds, IsHexDigit c) {r : List Char}
    (stop : ∀ c ∈ r.head?, digitIn 16 c = none) (v k : Nat) :
    spanHex (ds ++ r) v k = (ds.foldl hexStep v, k + ds.length, r) := by
  induction ds generalizing v k with
  | nil =>
    cases r with
    | nil => simp [spanHex]
    | cons c r => simp [spanHex, stop c rfl]
  | cons c ds ih =>
    obtain ⟨d, digit⟩ := Option.isSome_iff_exists.mp (hex c List.mem_cons_self)
    simp only [List.cons_append, spanHex, digit, List.foldl_cons, hexStep, Option.getD_some,
      List.length_cons]
    rw [ih (fun c' member => hex c' (List.mem_cons_of_mem c member)),
      Nat.add_right_comm k 1, Nat.add_assoc]

/-- `\u` and four digits of a low surrogate: what turns an escaped high surrogate before it
into one half of a pair. -/
def lowEscapeAhead : List Char → Bool
  | '\\' :: 'u' :: r =>
    match readHex 4 r 0 with
    | .ok (low, _) => isLowSurrogate low
    | .error _ => false
  | _ => false

/-- `\u{...}` with digits of a code point. -/
theorem readUnicodeEscape_braced {ds : List Char} (nonempty : ds ≠ [])
    (hex : ∀ c ∈ ds, IsHexDigit c) (codePoint : hexValue ds ≤ 0x10FFFF) (r : List Char) :
    readUnicodeEscape ('{' :: ds ++ '}' :: r) = .ok (scalarOr (hexValue ds), r) := by
  have span := @spanHex_digits ds hex ('}' :: r) (by simp [digitIn]) 0 0
  simp only [Nat.zero_add] at span
  simp only [hexValue] at codePoint
  simp only [readUnicodeEscape, List.cons_append, span]
  rw [if_neg (by simp [List.length_eq_zero_iff, nonempty]; omega)]
  rfl

/-- Four hexadecimal digits do not open a braced escape. -/
theorem head_ne_brace {c : Char} {cs : List Char} (hex : ∀ c' ∈ c :: cs, IsHexDigit c') :
    c ≠ '{' := by
  rintro rfl
  exact absurd (hex '{' List.mem_cons_self) (by simp [IsHexDigit, digitIn])

/-- Four digits that are not joined with a low surrogate after them. -/
theorem readUnicodeEscape_alone {ds : List Char} (four : ds.length = 4)
    (hex : ∀ c ∈ ds, IsHexDigit c) {r : List Char}
    (alone : isHighSurrogate (hexValue ds) = true → lowEscapeAhead r = false) :
    readUnicodeEscape (ds ++ r) = .ok (scalarOr (hexValue ds), r) := by
  obtain ⟨c, cs, rfl⟩ :=
    List.exists_cons_of_ne_nil (List.ne_nil_of_length_pos (show 0 < ds.length by omega))
  have digits : readHex 4 (c :: (cs ++ r)) 0 = .ok (hexValue (c :: cs), r) := by
    simpa [four, hexValue] using readHex_digits hex r 0
  unfold readUnicodeEscape
  simp only [List.cons_append]
  split
  · next brace => exact absurd (List.cons.inj brace).1 (head_ne_brace hex)
  · rw [digits]
    dsimp only
    by_cases high : 0xD800 ≤ hexValue (c :: cs) ∧ hexValue (c :: cs) < 0xDC00
    · rw [if_pos high]
      have ahead := alone (by simpa [isHighSurrogate] using high)
      split
      · -- an escape follows, but its digits are no low surrogate
        simp only [lowEscapeAhead] at ahead
        split
        · next low r'' read =>
          rw [read] at ahead
          rw [if_neg (by simpa [isLowSurrogate] using ahead)]
        · rfl
      · rfl
    · rw [if_neg high]

/-- A high surrogate and a low surrogate, each written `\uHHHH`, read as the pair. -/
theorem readUnicodeEscape_pair {ds ds' : List Char} (four : ds.length = 4) (four' : ds'.length = 4)
    (hex : ∀ c ∈ ds, IsHexDigit c) (hex' : ∀ c ∈ ds', IsHexDigit c)
    (high : isHighSurrogate (hexValue ds) = true) (low : isLowSurrogate (hexValue ds') = true)
    (r : List Char) :
    readUnicodeEscape (ds ++ '\\' :: 'u' :: (ds' ++ r)) =
      .ok (pairChar (hexValue ds) (hexValue ds'), r) := by
  obtain ⟨c, cs, rfl⟩ :=
    List.exists_cons_of_ne_nil (List.ne_nil_of_length_pos (show 0 < ds.length by omega))
  have digits : readHex 4 (c :: (cs ++ '\\' :: 'u' :: (ds' ++ r))) 0 =
      .ok (hexValue (c :: cs), '\\' :: 'u' :: (ds' ++ r)) := by
    simpa [four, hexValue] using readHex_digits hex ('\\' :: 'u' :: (ds' ++ r)) 0
  have digits' : readHex 4 (ds' ++ r) 0 = .ok (hexValue ds', r) := by
    simpa [four', hexValue] using readHex_digits hex' r 0
  simp only [isHighSurrogate, isLowSurrogate, Bool.and_eq_true, decide_eq_true_eq] at high low
  unfold readUnicodeEscape
  simp only [List.cons_append]
  split
  · next brace => exact absurd (List.cons.inj brace).1 (head_ne_brace hex)
  · rw [digits]
    simp only [if_pos high, digits', if_pos low, pairChar, scalarOr]
    rw [if_pos (by simp only [Bool.or_eq_true, Bool.and_eq_true, decide_eq_true_eq]; omega)]

/-! ### Pieces of a string literal -/

/-- The code unit of a control-character escape `\b`, `\t`, `\n`, `\v`, `\f` or `\r`
(ES5, Table 4). -/
def controlUnit : Char → Option Nat
  | 'b' => some 0x08
  | 't' => some 0x09
  | 'n' => some 0x0A
  | 'v' => some 0x0B
  | 'f' => some 0x0C
  | 'r' => some 0x0D
  | _ => none

/-- The line terminator sequences: LF, CR, CR LF, LS and PS. -/
def lineTerminatorSequences : List (List Char) :=
  [['\n'], ['\r'], ['\r', '\n'], ['\u2028'], ['\u2029']]

/-- One part of the body of a string literal that `quote` opens and closes: a character
standing for itself, an escape sequence of ES5 other than the octal ones, or a line
continuation. -/
inductive StringPiece (quote : Char) where
  /-- A character other than the quote, a backslash, a line feed or a carriage return. -/
  | plain (c : Char) (allowed : c ≠ quote ∧ c ≠ '\\' ∧ c ≠ '\n' ∧ c ≠ '\r')
  /-- `\b`, `\t`, `\n`, `\v`, `\f` or `\r`. -/
  | control (letter : Char) (known : (controlUnit letter).isSome)
  /-- `\0`, a null character when no digit follows. -/
  | nul
  /-- `\x` and two hexadecimal digits. -/
  | hex (digits : List Char) (two : digits.length = 2) (hexDigits : ∀ c ∈ digits, IsHexDigit c)
  /-- `\u` and four hexadecimal digits: one code unit. -/
  | unit (digits : List Char) (four : digits.length = 4) (hexDigits : ∀ c ∈ digits, IsHexDigit c)
  /-- `\u{...}`: the code units of a code point. -/
  | braced (digits : List Char) (nonempty : digits ≠ []) (hexDigits : ∀ c ∈ digits, IsHexDigit c)
      (codePoint : hexValue digits ≤ 0x10FFFF)
  /-- A backslash before a line terminator sequence, which stands for nothing. -/
  | continuation (ending : List Char) (terminator : ending ∈ lineTerminatorSequences)
  /-- A backslash before a character with no escape meaning of its own, which it stands for. -/
  | identity (c : Char)
      (plain : c.isDigit = false ∧ isLineEnd c = false ∧ controlUnit c = none ∧ c ≠ 'x' ∧ c ≠ 'u')

namespace StringPiece

variable {quote : Char}

/-- How the piece is written. -/
def spelling : StringPiece quote → List Char
  | .plain c _ => [c]
  | .control e _ => ['\\', e]
  | .nul => ['\\', '0']
  | .hex ds _ _ => '\\' :: 'x' :: ds
  | .unit ds _ _ => '\\' :: 'u' :: ds
  | .braced ds _ _ _ => '\\' :: 'u' :: '{' :: ds ++ ['}']
  | .continuation ending _ => '\\' :: ending
  | .identity c _ => ['\\', c]

/-- The code units the piece adds to the string value (ES5 7.8.4). -/
def units : StringPiece quote → List Nat
  | .plain c _ => charUnits c
  | .control e _ => [(controlUnit e).getD 0]
  | .nul => [0]
  | .hex ds _ _ => [hexValue ds]
  | .unit ds _ _ => [hexValue ds]
  | .braced ds _ _ _ => codePointUnits (hexValue ds)
  | .continuation _ _ => []
  | .identity c _ => charUnits c

def isNul : StringPiece quote → Bool
  | .nul => true
  | _ => false

/-- A digit written as itself, which would make a `\0` before it an octal escape. -/
def beginsWithDigit : StringPiece quote → Bool
  | .plain c _ => c.isDigit
  | _ => false

def isContinuation : StringPiece quote → Bool
  | .continuation .. => true
  | _ => false

/-- A high surrogate written `\uHHHH`. -/
def isHighUnit : StringPiece quote → Bool
  | .unit ds _ _ => isHighSurrogate (hexValue ds)
  | _ => false

/-- A low surrogate written `\uHHHH`. -/
def isLowUnit : StringPiece quote → Bool
  | .unit ds _ _ => isLowSurrogate (hexValue ds)
  | _ => false

/-- A surrogate written `\u{...}`. -/
def isBracedSurrogate : StringPiece quote → Bool
  | .braced ds _ _ _ => 0xD800 ≤ hexValue ds && hexValue ds < 0xE000
  | _ => false

end StringPiece

/-- How a literal's body is written. -/
def spellPieces {quote : Char} (ps : List (StringPiece quote)) : List Char :=
  ps.flatMap StringPiece.spelling

/-- The string value of a literal's body: its UTF-16 code units. -/
def stringValue {quote : Char} (ps : List (StringPiece quote)) : List Nat :=
  ps.flatMap StringPiece.units

@[simp] theorem spellPieces_cons {quote : Char} (p : StringPiece quote) (ps : List (StringPiece quote)) :
    spellPieces (p :: ps) = p.spelling ++ spellPieces ps := List.flatMap_cons

@[simp] theorem stringValue_cons {quote : Char} (p : StringPiece quote) (ps : List (StringPiece quote)) :
    stringValue (p :: ps) = p.units ++ stringValue ps := List.flatMap_cons

/-- No `\0` is followed by a digit: the body has no octal escape. -/
def NoOctalEscape {quote : Char} (ps : List (StringPiece quote)) : Prop :=
  ps.IsChain fun p p' => p.isNul = true → p'.beginsWithDigit = false

/-- The text the lexer makes of a body: each piece on its own, but an escaped high surrogate and
the escaped low surrogate right after it as their pair. -/
def lexerDecode {quote : Char} : List (StringPiece quote) → List Char
  | [] => []
  | [p] => decodeUnits p.units
  | p :: p' :: ps =>
    if p.isHighUnit && p'.isLowUnit then decodeUnits (p.units ++ p'.units) ++ lexerDecode ps
    else decodeUnits p.units ++ lexerDecode (p' :: ps)

instance {quote : Char} (ps : List (StringPiece quote)) : Decidable (NoOctalEscape ps) :=
  inferInstanceAs (Decidable (List.IsChain _ ps))

/-- Every surrogate is written `\uHHHH`, and no line continuation comes right after an escaped
high surrogate: the bodies in which the lexer sees every surrogate pair of the string value. -/
structure SurrogatesAsUnits {quote : Char} (ps : List (StringPiece quote)) : Prop where
  noBraced : ∀ p ∈ ps, p.isBracedSurrogate = false
  noBreak : ps.IsChain fun p p' => p.isHighUnit = true → p'.isContinuation = false

/-! ### The lexer's steps through a string -/

theorem escapeLetter_of_controlUnit {e : Char} {u : Nat} (known : controlUnit e = some u) :
    escapeLetter e = some (Char.ofNat u) ∧ isLineEnd e = false := by
  unfold controlUnit at known
  split at known <;> cases known <;> decide

theorem escapeLetter_of_controlUnit_none {e : Char} (unknown : controlUnit e = none) :
    escapeLetter e = none := by
  unfold controlUnit at unknown
  split at unknown
  any_goals cases unknown
  unfold escapeLetter
  split <;> simp_all

theorem isLineEnd_of_isHexDigit {c : Char} (hex : IsHexDigit c) : isLineEnd c = false := by
  by_contra lineEnd
  simp only [isLineEnd, Bool.not_eq_false, Bool.or_eq_true, beq_iff_eq] at lineEnd
  have terminator : c = '\n' ∨ c = '\r' ∨ c = ' ' ∨ c = ' ' := by
    rcases lineEnd with ((lf | cr) | ls) | ps
    · exact Or.inl lf
    · exact Or.inr (Or.inl cr)
    · exact Or.inr (Or.inr (Or.inl (Char.ext ls)))
    · exact Or.inr (Or.inr (Or.inr (Char.ext ps)))
  rcases terminator with rfl | rfl | rfl | rfl <;> simp [IsHexDigit, digitIn] at hex

section Steps

variable {quote : Char} {line : Nat} {acc : String}

theorem readString_close (r : List Char) :
    readString quote (quote :: r) line acc = .token (.string acc) r line := by
  rw [readString.eq_def]
  simp

theorem readString_plain {c : Char} (allowed : c ≠ quote ∧ c ≠ '\\' ∧ c ≠ '\n' ∧ c ≠ '\r')
    (r : List Char) :
    readString quote (c :: r) line acc = readString quote r (nextLine c line) (acc.push c) := by
  obtain ⟨notQuote, notBackslash, notLf, notCr⟩ := allowed
  rw [readString.eq_def]
  simp [notQuote, notBackslash, notLf, notCr]

variable (notQuote : '\\' ≠ quote)
include notQuote

theorem readString_control {e ch : Char} (letter : escapeLetter e = some ch) (r : List Char) :
    readString quote ('\\' :: e :: r) line acc = readString quote r line (acc.push ch) := by
  rw [readString.eq_def]
  simp [notQuote, letter]

theorem readString_nul {r : List Char} (noDigit : ∀ c ∈ r.head?, c.isDigit = false) :
    readString quote ('\\' :: '0' :: r) line acc = readString quote r line (acc.push '\x00') := by
  rw [readString.eq_def]
  cases r with
  | nil => simp [notQuote, escapeLetter]
  | cons c r => simp [notQuote, escapeLetter, noDigit c rfl]

theorem readString_hex {r r' : List Char} {v : Nat} (read : readHex 2 r 0 = .ok (v, r')) :
    readString quote ('\\' :: 'x' :: r) line acc = readString quote r' line (acc.push (scalarOr v)) := by
  rw [readString.eq_def]
  simp only [beq_iff_eq, notQuote, if_false, escapeLetter, Bool.or_eq_true]
  simp only [show ('\\' : Char) ≠ '\n' from by decide, show ('\\' : Char) ≠ '\r' from by decide,
    or_self, if_false, if_true]
  repeat' split
  all_goals simp_all

theorem readString_unicode {r r' : List Char} {ch : Char} (escape : readUnicodeEscape r = .ok (ch, r')) :
    readString quote ('\\' :: 'u' :: r) line acc = readString quote r' line (acc.push ch) := by
  rw [readString.eq_def]
  simp only [beq_iff_eq, notQuote, if_false, escapeLetter, Bool.or_eq_true]
  simp only [show ('\\' : Char) ≠ '\n' from by decide, show ('\\' : Char) ≠ '\r' from by decide,
    or_self, if_false, if_true]
  repeat' split
  all_goals simp_all

theorem readString_continuation {ending : List Char} (terminator : ending ∈ lineTerminatorSequences)
    (r : List Char) (noLf : ∀ c ∈ r.head?, c ≠ '\n') :
    readString quote ('\\' :: ending ++ r) line acc =
      readString quote r (line + ending.countP isLineEnd) acc := by
  simp only [lineTerminatorSequences, List.mem_cons, List.not_mem_nil, or_false] at terminator
  rcases terminator with rfl | rfl | rfl | rfl | rfl <;> rw [readString.eq_def]
  · simp [notQuote, escapeLetter, isLineEnd]
  · cases r with
    | nil => simp [notQuote, escapeLetter, isLineEnd]
    | cons c r => simp [notQuote, escapeLetter, isLineEnd, noLf c rfl]
  · simp [notQuote, escapeLetter, isLineEnd]
  · simp [notQuote, escapeLetter, isLineEnd]
  · simp [notQuote, escapeLetter, isLineEnd]

theorem readString_identity {c : Char}
    (plain : c.isDigit = false ∧ isLineEnd c = false ∧ controlUnit c = none ∧ c ≠ 'x' ∧ c ≠ 'u')
    (r : List Char) :
    readString quote ('\\' :: c :: r) line acc = readString quote r line (acc.push c) := by
  obtain ⟨notDigit, notLineEnd, unknown, notX, notU⟩ := plain
  have notZero : c ≠ '0' := by
    rintro rfl
    contradiction
  have notCr : c ≠ '\r' := by
    rintro rfl
    contradiction
  rw [readString.eq_def]
  simp [notQuote, escapeLetter_of_controlUnit_none unknown, notZero, notX, notU, notCr,
    notLineEnd]

end Steps

/-! ### Each piece as the lexer reads it -/

theorem foldl_hexStep_lt {ds : List Char} (hex : ∀ c ∈ ds, IsHexDigit c) (v : Nat) :
    ds.foldl hexStep v < (v + 1) * 16 ^ ds.length := by
  induction ds generalizing v with
  | nil => simp
  | cons c ds ih =>
    obtain ⟨d, digit⟩ := Option.isSome_iff_exists.mp (hex c List.mem_cons_self)
    have small := digitIn_lt digit
    have rest := ih (fun c' member => hex c' (List.mem_cons_of_mem c member)) (v * 16 + d)
    simp only [List.foldl_cons, hexStep, digit, Option.getD_some, List.length_cons] at rest ⊢
    calc ds.foldl hexStep (v * 16 + d) < (v * 16 + d + 1) * 16 ^ ds.length := rest
      _ ≤ (v + 1) * 16 * 16 ^ ds.length := Nat.mul_le_mul_right _ (by omega)
      _ = (v + 1) * 16 ^ (ds.length + 1) := by rw [Nat.pow_succ]; ring

theorem hexValue_lt {ds : List Char} (hex : ∀ c ∈ ds, IsHexDigit c) :
    hexValue ds < 16 ^ ds.length := by
  simpa [hexValue] using foldl_hexStep_lt hex 0

theorem scalarOr_of_lt {v : Nat} (unit : v < 0x10000) : scalarOr v = unitChar v := by
  unfold scalarOr unitChar
  by_cases surrogate : 0xD800 ≤ v ∧ v < 0xE000
  · rw [if_neg (by simp only [Bool.or_eq_true, Bool.and_eq_true, decide_eq_true_eq]; omega),
      if_pos surrogate]
  · rw [if_pos (by simp only [Bool.or_eq_true, Bool.and_eq_true, decide_eq_true_eq]; omega),
      if_neg surrogate]

theorem decodeUnits_codePointUnits {v : Nat} (codePoint : v ≤ 0x10FFFF) :
    decodeUnits (codePointUnits v) = [scalarOr v] := by
  by_cases surrogate : 0xD800 ≤ v ∧ v < 0xE000
  · have unit : codePointUnits v = [v] := if_pos (by omega)
    rw [unit, scalarOr_of_lt (by omega)]
    rfl
  · have decoded := @decodeUnits_codePoint_append v (by omega) (by omega) []
    have scalar : (v < 0xD800 || (0xDFFF < v && v < 0x110000)) = true := by
      simp only [Bool.or_eq_true, Bool.and_eq_true, decide_eq_true_eq]
      omega
    rw [List.append_nil] at decoded
    rw [decoded, scalarOr, if_pos scalar]
    rfl

theorem push_eq_append (acc : String) (c : Char) : acc.push c = acc ++ String.ofList [c] := by
  apply String.ext
  simp

theorem codePointUnits_last_not_high {v : Nat} (outside : v < 0xD800 ∨ 0xE000 ≤ v) :
    ∀ u ∈ (codePointUnits v).getLast?, isHighSurrogate u = false := by
  intro u last
  unfold codePointUnits at last
  split at last <;> simp at last <;> subst last <;> simp [isHighSurrogate]
  omega

theorem codePointUnits_head_not_low {v : Nat} (outside : v < 0xD800 ∨ 0xE000 ≤ v)
    (inRange : v < 0x110000) : ∀ u ∈ (codePointUnits v).head?, isLowSurrogate u = false := by
  intro u first
  unfold codePointUnits at first
  split at first <;> simp at first <;> subst first <;> simp [isLowSurrogate] <;> omega

theorem toNat_outside_surrogates (c : Char) :
    (c.toNat < 0xD800 ∨ 0xE000 ≤ c.toNat) ∧ c.toNat < 0x110000 := by
  have valid : c.toNat < 0xD800 ∨ (0xDFFF < c.toNat ∧ c.toNat < 0x110000) := by
    simpa [UInt32.isValidChar, Nat.isValidChar] using c.valid
  omega

theorem countP_isLineEnd_escape (cs : List Char) :
    ('\\' :: cs).countP isLineEnd = cs.countP isLineEnd :=
  List.countP_cons_of_neg (by decide)

theorem countP_isLineEnd_hexDigits {ds : List Char} (hex : ∀ c ∈ ds, IsHexDigit c) :
    ds.countP isLineEnd = 0 :=
  List.countP_eq_zero.mpr fun c member => by simp [isLineEnd_of_isHexDigit (hex c member)]

theorem countP_isLineEnd_unitEscape {ds : List Char} (hex : ∀ c ∈ ds, IsHexDigit c) :
    ('\\' :: 'u' :: ds).countP isLineEnd = 0 := by
  rw [countP_isLineEnd_escape, List.countP_cons_of_neg (by decide), countP_isLineEnd_hexDigits hex]

namespace StringPiece

variable {quote : Char}

theorem eq_unit_of_isHighUnit {p : StringPiece quote} (high : p.isHighUnit = true) :
    ∃ ds four hex, p = .unit ds four hex ∧ isHighSurrogate (hexValue ds) = true := by
  cases p <;> simp_all [isHighUnit]

theorem eq_unit_of_isLowUnit {p : StringPiece quote} (low : p.isLowUnit = true) :
    ∃ ds four hex, p = .unit ds four hex ∧ isLowSurrogate (hexValue ds) = true := by
  cases p <;> simp_all [isLowUnit]

theorem ne_u_of_controlUnit {e : Char} (known : (controlUnit e).isSome) : e ≠ 'u' := by
  rintro rfl
  contradiction

/-- Every piece but a plain character is written with a backslash first. -/
theorem spelling_eq (p : StringPiece quote) :
    (∃ c allowed, p = .plain c allowed) ∨ ∃ rest, p.spelling = '\\' :: rest := by
  cases p
  · exact Or.inl ⟨_, _, rfl⟩
  all_goals exact Or.inr ⟨_, rfl⟩

/-- No piece is written with a line feed first. -/
theorem head_spelling_ne_lf (p : StringPiece quote) : ∀ c ∈ p.spelling.head?, c ≠ '\n' := by
  rcases p.spelling_eq with ⟨c, allowed, rfl⟩ | ⟨rest, spelt⟩
  · simpa [spelling] using allowed.2.2.1
  · simp [spelt]

/-- After every piece but an escaped low surrogate, an escaped high surrogate stays alone. -/
theorem lowEscapeAhead_spelling (p : StringPiece quote) (notLow : p.isLowUnit = false)
    (r : List Char) : lowEscapeAhead (p.spelling ++ r) = false := by
  cases p with
  | plain c allowed => simp [spelling, lowEscapeAhead, allowed.2.1]
  | control e known => simp [spelling, lowEscapeAhead, ne_u_of_controlUnit known]
  | nul => simp [spelling, lowEscapeAhead]
  | hex ds _ _ => simp [spelling, lowEscapeAhead]
  | unit ds four hex =>
    have digits : readHex 4 (ds ++ r) 0 = .ok (hexValue ds, r) := by
      simpa [four, hexValue] using readHex_digits hex r 0
    simpa [spelling, lowEscapeAhead, digits, isLowUnit] using notLow
  | braced ds _ _ _ => simp [spelling, lowEscapeAhead, readHex, digitIn]
  | continuation ending terminator =>
    simp only [lineTerminatorSequences, List.mem_cons, List.not_mem_nil, or_false] at terminator
    rcases terminator with rfl | rfl | rfl | rfl | rfl <;> simp [spelling, lowEscapeAhead]
  | identity c plain => simp [spelling, lowEscapeAhead, plain.2.2.2.2]

theorem units_last_not_high (p : StringPiece quote) (notBraced : p.isBracedSurrogate = false)
    (notHigh : p.isHighUnit = false) : ∀ u ∈ p.units.getLast?, isHighSurrogate u = false := by
  cases p with
  | plain c _ => exact codePointUnits_last_not_high (toNat_outside_surrogates c).1
  | identity c _ => exact codePointUnits_last_not_high (toNat_outside_surrogates c).1
  | control e known =>
    obtain ⟨u, unit⟩ := Option.isSome_iff_exists.mp known
    unfold controlUnit at unit
    split at unit <;> cases unit <;> simp [units, controlUnit, isHighSurrogate]
  | nul => simp [units, isHighSurrogate]
  | hex ds two hex =>
    have := hexValue_lt hex
    rw [two] at this
    simp [units, isHighSurrogate]
    omega
  | unit ds _ _ => simpa [units, isHighUnit] using notHigh
  | braced ds _ _ _ =>
    apply codePointUnits_last_not_high
    simp [isBracedSurrogate] at notBraced
    omega
  | continuation _ _ => simp [units]

theorem units_head_not_low (p : StringPiece quote) (notBraced : p.isBracedSurrogate = false)
    (notLow : p.isLowUnit = false) : ∀ u ∈ p.units.head?, isLowSurrogate u = false := by
  cases p with
  | plain c _ =>
    exact codePointUnits_head_not_low (toNat_outside_surrogates c).1 (toNat_outside_surrogates c).2
  | identity c _ =>
    exact codePointUnits_head_not_low (toNat_outside_surrogates c).1 (toNat_outside_surrogates c).2
  | control e known =>
    obtain ⟨u, unit⟩ := Option.isSome_iff_exists.mp known
    unfold controlUnit at unit
    split at unit <;> cases unit <;> simp [units, controlUnit, isLowSurrogate]
  | nul => simp [units, isLowSurrogate]
  | hex ds two hex =>
    have := hexValue_lt hex
    rw [two] at this
    simp [units, isLowSurrogate]
    omega
  | unit ds _ _ => simpa [units, isLowUnit] using notLow
  | braced ds _ _ codePoint =>
    apply codePointUnits_head_not_low _ (by omega)
    simp [isBracedSurrogate] at notBraced
    omega
  | continuation _ _ => simp [units]

theorem units_ne_nil (p : StringPiece quote) (notContinuation : p.isContinuation = false) :
    p.units ≠ [] := by
  cases p <;> simp_all [units, isContinuation, charUnits, codePointUnits] <;> split <;> simp

theorem spelling_ne_nil (p : StringPiece quote) : p.spelling ≠ [] := by
  rcases p.spelling_eq with ⟨c, allowed, rfl⟩ | ⟨rest, spelt⟩
  · simp [spelling]
  · simp [spelt]

/-- A piece that does not begin with a digit is not written with one first. -/
theorem head_spelling_not_digit (p : StringPiece quote) (notDigit : p.beginsWithDigit = false) :
    ∀ c ∈ p.spelling.head?, c.isDigit = false := by
  rcases p.spelling_eq with ⟨c, allowed, rfl⟩ | ⟨rest, spelt⟩
  · simpa [spelling, beginsWithDigit] using notDigit
  · simp [spelt]

/-- What may follow a piece without changing how it is read: no line feed, which would join a
carriage return before it; no digit after a \0, which would make it octal; and no escaped low
surrogate after an escaped high one, which would join the two. -/
structure Follows (p : StringPiece quote) (r : List Char) : Prop where
  noLf : ∀ c ∈ r.head?, c ≠ '\n'
  noDigit : p.isNul = true → ∀ c ∈ r.head?, c.isDigit = false
  alone : p.isHighUnit = true → lowEscapeAhead r = false

/-- The closing quote may follow every piece. -/
theorem Follows.close (quoteMark : quote = '"' ∨ quote = '\'') (p : StringPiece quote)
    (rest : List Char) : p.Follows (quote :: rest) := by
  rcases quoteMark with rfl | rfl <;> exact ⟨by simp, by simp, by simp [lowEscapeAhead]⟩

/-- The next piece may follow a piece unless it makes an octal escape or a surrogate pair. -/
theorem Follows.next {p p' : StringPiece quote}
    (noOctal : p.isNul = true → p'.beginsWithDigit = false)
    (notPair : p.isHighUnit = true → p'.isLowUnit = false) (r : List Char) :
    p.Follows (p'.spelling ++ r) := by
  have first : (p'.spelling ++ r).head? = p'.spelling.head? :=
    List.head?_append_of_ne_nil _ p'.spelling_ne_nil
  refine ⟨?_, fun nul => ?_, fun high => ?_⟩
  · rw [first]
    exact p'.head_spelling_ne_lf
  · rw [first]
    exact p'.head_spelling_not_digit (noOctal nul)
  · exact p'.lowEscapeAhead_spelling (notPair high) r

end StringPiece

/-! ### A literal as the lexer reads it -/

section Reading

variable {quote : Char} {line : Nat} {acc : String} (notQuote : '\\' ≠ quote)
include notQuote

/-- One piece read on its own: the lexer appends the text of its code units and counts the
line terminators it is written with. -/
theorem readString_piece (p : StringPiece quote) {r : List Char} (follows : p.Follows r) :
    readString quote (p.spelling ++ r) line acc =
      readString quote r (line + p.spelling.countP isLineEnd)
        (acc ++ String.ofList (decodeUnits p.units)) := by
  cases p with
  | plain c allowed =>
    rw [StringPiece.spelling, List.singleton_append, readString_plain allowed, push_eq_append]
    congr 1
    · cases lineEnd : isLineEnd c <;> simp [nextLine, lineEnd]
    · rw [StringPiece.units, ← List.append_nil (charUnits c), decodeUnits_charUnits_append]
      rfl
  | control e known =>
    obtain ⟨u, unit⟩ := Option.isSome_iff_exists.mp known
    obtain ⟨letter, notLineEnd⟩ := escapeLetter_of_controlUnit unit
    have small : u < 0xD800 := by
      unfold controlUnit at unit
      split at unit <;> cases unit <;> decide
    rw [StringPiece.spelling, List.cons_append, List.cons_append, List.nil_append,
      readString_control notQuote letter, push_eq_append]
    congr 1
    · simp [countP_isLineEnd_escape, notLineEnd]
    · rw [StringPiece.units, unit, Option.getD_some, decodeUnits, unitChar, if_neg (by omega)]
  | nul =>
    rw [StringPiece.spelling, List.cons_append, List.cons_append, List.nil_append,
      readString_nul notQuote (follows.noDigit rfl), push_eq_append]
    rfl
  | hex ds two hex =>
    have read : readHex 2 (ds ++ r) 0 = .ok (hexValue ds, r) := by
      simpa [two, hexValue] using readHex_digits hex r 0
    have small := hexValue_lt hex
    rw [two] at small
    rw [StringPiece.spelling, List.cons_append, List.cons_append, readString_hex notQuote read,
      scalarOr_of_lt (by omega), push_eq_append]
    congr 1
    rw [countP_isLineEnd_escape, List.countP_cons_of_neg (by decide),
      countP_isLineEnd_hexDigits hex]
    rfl
  | unit ds four hex =>
    have small := hexValue_lt hex
    rw [four] at small
    rw [StringPiece.spelling, List.cons_append, List.cons_append,
      readString_unicode notQuote (readUnicodeEscape_alone four hex follows.alone),
      scalarOr_of_lt (by omega), push_eq_append]
    congr 1
    rw [countP_isLineEnd_escape, List.countP_cons_of_neg (by decide),
      countP_isLineEnd_hexDigits hex]
    rfl
  | braced ds nonempty hex codePoint =>
    have escape := readUnicodeEscape_braced nonempty hex codePoint r
    rw [List.cons_append] at escape
    simp only [StringPiece.spelling, List.cons_append, List.append_assoc, List.nil_append]
    rw [readString_unicode notQuote escape, push_eq_append]
    congr 1
    · rw [countP_isLineEnd_escape, List.countP_cons_of_neg (by decide),
        List.countP_cons_of_neg (by decide), List.countP_append, countP_isLineEnd_hexDigits hex,
        List.countP_cons_of_neg (by decide)]
      rfl
    · rw [StringPiece.units, decodeUnits_codePointUnits codePoint]
  | continuation ending terminator =>
    rw [StringPiece.spelling, readString_continuation notQuote terminator r follows.noLf,
      countP_isLineEnd_escape]
    simp [StringPiece.units, decodeUnits]
  | identity c plain =>
    rw [StringPiece.spelling, List.cons_append, List.cons_append, List.nil_append,
      readString_identity notQuote plain, push_eq_append]
    congr 1
    · rw [countP_isLineEnd_escape, List.countP_cons_of_neg (by simp [plain.2.1])]
      rfl
    · rw [StringPiece.units, ← List.append_nil (charUnits c), decodeUnits_charUnits_append]
      rfl

/-- An escaped high surrogate right before an escaped low surrogate: the lexer reads the two as
the pair. -/
theorem readString_pair {ds ds' : List Char} (four : ds.length = 4) (four' : ds'.length = 4)
    (hex : ∀ c ∈ ds, IsHexDigit c) (hex' : ∀ c ∈ ds', IsHexDigit c)
    (high : isHighSurrogate (hexValue ds) = true) (low : isLowSurrogate (hexValue ds') = true)
    (r : List Char) :
    readString quote (('\\' :: 'u' :: ds) ++ (('\\' :: 'u' :: ds') ++ r)) line acc =
      readString quote r line (acc ++ String.ofList [pairChar (hexValue ds) (hexValue ds')]) := by
  simp only [List.cons_append]
  rw [readString_unicode notQuote (readUnicodeEscape_pair four four' hex hex' high low r),
    push_eq_append]


/-- A whole body and the closing quote: the lexer returns the text of the body and stands after
the quote, on the line reached by the terminators the body is written with. -/
theorem readString_spellPieces (quoteMark : quote = '"' ∨ quote = '\'') :
    ∀ (ps : List (StringPiece quote)), NoOctalEscape ps → ∀ (rest : List Char) (line : Nat)
      (acc : String), readString quote (spellPieces ps ++ quote :: rest) line acc =
        .token (.string (acc ++ String.ofList (lexerDecode ps))) rest
          (line + (spellPieces ps).countP isLineEnd)
  | [], _, rest, line, acc => by
    simp [spellPieces, lexerDecode, readString_close]
  | [p], _, rest, line, acc => by
    rw [spellPieces_cons, List.append_assoc, show spellPieces ([] : List (StringPiece quote)) = []
      from rfl, List.nil_append, readString_piece notQuote p
      (StringPiece.Follows.close quoteMark p rest)]
    simp [lexerDecode, readString_close]
  | p :: p' :: ps, noOctal, rest, line, acc => by
    by_cases pair : p.isHighUnit = true ∧ p'.isLowUnit = true
    · -- an escaped surrogate pair is read as one character
      obtain ⟨ds, four, hex, rfl, high⟩ := StringPiece.eq_unit_of_isHighUnit pair.1
      obtain ⟨ds', four', hex', rfl, low⟩ := StringPiece.eq_unit_of_isLowUnit pair.2
      have value : decodeUnits ([hexValue ds] ++ [hexValue ds']) =
          [pairChar (hexValue ds) (hexValue ds')] :=
        decodeUnits_pair (by simp [high, low]) []
      simp only [spellPieces_cons, StringPiece.spelling, List.append_assoc]
      rw [readString_pair notQuote four four' hex hex' high low,
        readString_spellPieces quoteMark ps noOctal.tail.tail rest]
      simp only [lexerDecode, pair, Bool.and_self, if_true, StringPiece.units, value,
        String.ofList_append, String.append_assoc, List.countP_append,
        countP_isLineEnd_unitEscape hex, countP_isLineEnd_unitEscape hex', Nat.zero_add]
    · -- otherwise the first piece is read on its own and the next one follows it
      have follows : p.Follows (spellPieces (p' :: ps) ++ quote :: rest) := by
        rw [spellPieces_cons, List.append_assoc]
        exact StringPiece.Follows.next (List.rel_of_isChain_cons_cons noOctal)
          (fun high => by simpa [high] using pair) _
      rw [spellPieces_cons, List.append_assoc, readString_piece notQuote p follows,
        readString_spellPieces quoteMark (p' :: ps) noOctal.tail rest]
      simp only [lexerDecode, Bool.and_eq_true, pair, if_false, String.ofList_append,
        String.append_assoc, List.countP_append, Nat.add_assoc]

end Reading

/-! ### The lexer's text and the string value -/

section Value

variable {quote : Char}

theorem SurrogatesAsUnits.tail {p : StringPiece quote} {ps : List (StringPiece quote)}
    (asUnits : SurrogatesAsUnits (p :: ps)) : SurrogatesAsUnits ps :=
  ⟨fun q member => asUnits.noBraced q (List.mem_cons_of_mem p member), asUnits.noBreak.tail⟩

/-- The value of a body decodes piece by piece after a first piece that cannot begin a surrogate
pair: no escaped high surrogate, or one whose next piece adds a unit that is not low. -/
theorem decodeUnits_stringValue_cons {p : StringPiece quote} {ps : List (StringPiece quote)}
    (notBraced : p.isBracedSurrogate = false)
    (next : p.isHighUnit = true → ∀ p' ∈ ps.head?,
      p'.isLowUnit = false ∧ p'.isBracedSurrogate = false ∧ p'.isContinuation = false) :
    decodeUnits (stringValue (p :: ps)) = decodeUnits p.units ++ decodeUnits (stringValue ps) := by
  rw [stringValue_cons]
  apply decodeUnits_append
  rintro u last v first ⟨high, low⟩
  cases highUnit : p.isHighUnit
  · simp [p.units_last_not_high notBraced highUnit u last] at high
  · cases ps with
    | nil => simp [stringValue] at first
    | cons p' ps =>
      obtain ⟨notLow, notBraced', notContinuation⟩ := next highUnit p' rfl
      rw [stringValue_cons, List.head?_append_of_ne_nil _ (p'.units_ne_nil notContinuation)] at first
      simp [p'.units_head_not_low notBraced' notLow v first] at low

/-- When every surrogate is written as a four-digit escape and no line continuation splits an
escaped pair, the lexer's text of a body is its string value read as UTF-16, surrogate pairs
joined and lone surrogates replaced. -/
theorem lexerDecode_eq_decodeUnits :
    ∀ (ps : List (StringPiece quote)), SurrogatesAsUnits ps →
      lexerDecode ps = decodeUnits (stringValue ps)
  | [], _ => rfl
  | [p], _ => by simp [lexerDecode, stringValue]
  | p :: p' :: ps, asUnits => by
    by_cases pair : p.isHighUnit = true ∧ p'.isLowUnit = true
    · obtain ⟨ds, four, hex, rfl, high⟩ := StringPiece.eq_unit_of_isHighUnit pair.1
      obtain ⟨ds', four', hex', rfl, low⟩ := StringPiece.eq_unit_of_isLowUnit pair.2
      have joined : (isHighSurrogate (hexValue ds) && isLowSurrogate (hexValue ds')) = true := by
        simp [high, low]
      simp only [lexerDecode, pair, Bool.and_self, if_true, stringValue_cons, StringPiece.units,
        List.cons_append, List.nil_append, lexerDecode_eq_decodeUnits ps asUnits.tail.tail]
      rw [decodeUnits_pair joined, decodeUnits_pair joined]
      rfl
    · have next : p.isHighUnit = true → ∀ q ∈ (p' :: ps).head?,
          q.isLowUnit = false ∧ q.isBracedSurrogate = false ∧ q.isContinuation = false := by
        rintro high _ ⟨⟩
        exact ⟨by simpa [high] using pair, asUnits.noBraced p' (by simp),
          List.rel_of_isChain_cons_cons asUnits.noBreak high⟩
      rw [lexerDecode, if_neg (by simpa using pair), lexerDecode_eq_decodeUnits (p' :: ps) asUnits.tail,
        decodeUnits_stringValue_cons (asUnits.noBraced p List.mem_cons_self) next]

end Value

/-! ### String literal tokens -/

section Tokens

variable {quote : Char}

theorem scanToken_quote (quoteMark : quote = '"' ∨ quote = '\'') (r : List Char) (line : Nat) :
    scanToken (quote :: r) line = readString quote r line "" := by
  rcases quoteMark with rfl | rfl <;> simp [scanToken, show isIdStart '"' = false by decide,
    show isIdStart '\'' = false by decide]

/-- Every string literal without an octal escape is read as the lexer's text of its body. -/
theorem scanToken_string_literal (quoteMark : quote = '"' ∨ quote = '\'')
    (ps : List (StringPiece quote)) (noOctal : NoOctalEscape ps) (rest : List Char) (line : Nat) :
    scanToken (quote :: (spellPieces ps ++ quote :: rest)) line =
      .token (.string (String.ofList (lexerDecode ps))) rest
        (line + (spellPieces ps).countP isLineEnd) := by
  have notQuote : '\\' ≠ quote := by
    rcases quoteMark with rfl | rfl <;> decide
  rw [scanToken_quote quoteMark, readString_spellPieces notQuote quoteMark ps noOctal rest line "",
    String.empty_append]

/-- A string literal is read as its string value, the UTF-16 code units it denotes with every
surrogate pair joined and every lone surrogate replaced by U+FFFD, provided it has no octal
escape, writes every surrogate as a four-digit escape and has no line continuation right after
an escaped high surrogate. -/
theorem scanToken_string_literal_value (quoteMark : quote = '"' ∨ quote = '\'')
    (ps : List (StringPiece quote)) (noOctal : NoOctalEscape ps) (asUnits : SurrogatesAsUnits ps)
    (rest : List Char) (line : Nat) :
    scanToken (quote :: (spellPieces ps ++ quote :: rest)) line =
      .token (.string (String.ofList (decodeUnits (stringValue ps)))) rest
        (line + (spellPieces ps).countP isLineEnd) := by
  rw [scanToken_string_literal quoteMark ps noOctal rest line, lexerDecode_eq_decodeUnits ps asUnits]

/-- The body of the literal U+1F600 written as its escaped surrogate pair. -/
def escapedPairBody : List (StringPiece '\'') :=
  [.unit ['D', '8', '3', 'D'] rfl (by simp [IsHexDigit, digitIn]),
    .unit ['D', 'E', '0', '0'] rfl (by simp [IsHexDigit, digitIn])]

theorem scanToken_escaped_pair_value :
    ('\'' = '"' ∨ '\'' = '\'') ∧ NoOctalEscape escapedPairBody ∧
      SurrogatesAsUnits escapedPairBody ∧
      scanToken ('\'' :: (spellPieces escapedPairBody ++ ['\''])) 1 =
        .token (.string (String.ofList (decodeUnits (stringValue escapedPairBody)))) []
          (1 + (spellPieces escapedPairBody).countP isLineEnd) :=
  have asUnits : SurrogatesAsUnits escapedPairBody := ⟨by decide, by decide⟩
  ⟨Or.inr rfl, by decide, asUnits,
    scanToken_string_literal_value (Or.inr rfl) escapedPairBody (by decide) asUnits [] 1⟩

/-- The body of the literal U+1F600 written as two braced escapes of its surrogates. -/
def bracedPairBody : List (StringPiece '\'') :=
  [.braced ['D', '8', '3', 'D'] (by simp) (by simp [IsHexDigit, digitIn]) (by decide +kernel),
    .braced ['D', 'E', '0', '0'] (by simp) (by simp [IsHexDigit, digitIn]) (by decide +kernel)]

/-- The two surrogates of U+1F600 written as braced escapes are not joined: the lexer reads two
replacement characters where the string value is the one character. -/
theorem scanToken_braced_pair_not_joined :
    scanToken ('\'' :: (spellPieces bracedPairBody ++ ['\''])) 1 =
        .token (.string (String.ofList ['\uFFFD', '\uFFFD'])) [] 1 ∧
      decodeUnits (stringValue bracedPairBody) = [Char.ofNat 0x1F600] := by
  have text : lexerDecode bracedPairBody = ['\uFFFD', '\uFFFD'] := by decide +kernel
  have noLines : (spellPieces bracedPairBody).countP isLineEnd = 0 := by decide +kernel
  rw [scanToken_string_literal (Or.inr rfl) bracedPairBody (by decide) [] 1, text, noLines]
  exact ⟨rfl, by decide +kernel⟩

end Tokens

end EmbedScript.Syntax
