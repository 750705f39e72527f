import Mathlib
import EmbedScript.Proofs.Identifiers

/-!
Line numbers. ES5 (7.3) counts lines by line terminator sequences: LF, CR not followed by LF,
the pair CR LF as one, LS and PS. The lexer counts line terminator characters instead, in the
blanks and comments it skips and inside string literals alike, so a CR LF pair counts two.

Every reader of the lexer leaves a suffix of its input and reaches the line it began on plus the
terminators in what it read. From that, each lexeme stands on line one plus the line terminator
characters before its token, which is one plus the terminator sequences and the CR LF pairs
there; and it follows a line break exactly when a terminator lies in the blanks and comments
just before it. `\r\n@` puts the error at `@` on line 3.
-/

namespace EmbedScript.Syntax

open EmbedScript.Text EmbedScript.Number

/-! ### Line terminator sequences -/

/-- The line terminator sequences of a text (ES5 7.3), the pair CR LF counting once. -/
def terminatorSequences : List Char → Nat
  | [] => 0
  | '\r' :: '\n' :: r => terminatorSequences r + 1
  | c :: r => terminatorSequences r + if isLineEnd c then 1 else 0

/-- The CR LF pairs of a text. -/
def crLfPairs : List Char → Nat
  | [] => 0
  | '\r' :: '\n' :: r => crLfPairs r + 1
  | _ :: r => crLfPairs r

/-- The line terminator characters of a text are its sequences and once more each CR LF pair. -/
theorem countP_isLineEnd_eq (cs : List Char) :
    cs.countP isLineEnd = terminatorSequences cs + crLfPairs cs := by
  fun_induction terminatorSequences cs with
  | case1 => rfl
  | case2 r ih =>
    have cr : isLineEnd '\r' = true := by decide
    have lf : isLineEnd '\n' = true := by decide
    rw [crLfPairs, List.countP_cons_of_pos cr, List.countP_cons_of_pos lf, ih]
    omega
  | case3 c r notPair ih =>
    rw [crLfPairs.eq_3 c r notPair, List.countP_cons, ih]
    omega

/-! ### Reading and the line reached -/

/-- Reading `cs` from line `line` as far as `rest` ends on line `l`: `rest` is a suffix of `cs`,
and `l` is `line` plus the line terminators read. -/
structure Reaches (cs : List Char) (line : Nat) (rest : List Char) (l : Nat) : Prop where
  suffix : rest <:+ cs
  lines : l + rest.countP isLineEnd = line + cs.countP isLineEnd

namespace Reaches

variable {cs mid rest : List Char} {line lm l : Nat}

theorem refl (cs : List Char) (line : Nat) : Reaches cs line cs line :=
  ⟨List.suffix_refl cs, rfl⟩

theorem trans (first : Reaches cs line mid lm) (second : Reaches mid lm rest l) :
    Reaches cs line rest l :=
  ⟨second.suffix.trans first.suffix, by
    have firstLines := first.lines
    have secondLines := second.lines
    omega⟩

/-- Reading one character moves to the next line after a line terminator. -/
theorem step (c : Char) (cs : List Char) (line : Nat) : Reaches (c :: cs) line cs (nextLine c line) :=
  ⟨List.suffix_cons c cs, by
    unfold nextLine
    cases lineEnd : isLineEnd c <;> simp [lineEnd]
    omega⟩

theorem cons {c : Char} (reaches : Reaches cs (nextLine c line) rest l) :
    Reaches (c :: cs) line rest l :=
  (step c cs line).trans reaches

/-- A character that is no line terminator keeps the line. -/
theorem cons_quiet {c : Char} (notLineEnd : isLineEnd c = false) (reaches : Reaches cs line rest l) :
    Reaches (c :: cs) line rest l :=
  cons (by simpa [nextLine, notLineEnd] using reaches)

/-- Reading a text with no line terminator keeps the line. -/
theorem append_quiet (pre : List Char) (quiet : ∀ c ∈ pre, isLineEnd c = false) :
    Reaches (pre ++ cs) line cs line := by
  induction pre with
  | nil => exact refl cs line
  | cons c pre ih =>
    exact cons_quiet (quiet c List.mem_cons_self)
      (ih fun c' member => quiet c' (List.mem_cons_of_mem c member))

/-- What was read before `rest`, and the line it reaches. -/
theorem eq_append (reaches : Reaches cs line rest l) :
    ∃ pre, cs = pre ++ rest ∧ l = line + pre.countP isLineEnd := by
  obtain ⟨pre, rfl⟩ := reaches.suffix
  have lines := reaches.lines
  rw [List.countP_append] at lines
  exact ⟨pre, rfl, by omega⟩

end Reaches

/-- A scan reads its token off the front of its input and counts the line terminators it reads;
an error reaches nothing. -/
def Scan.CountsLines (cs : List Char) (line : Nat) : Scan → Prop
  | .token _ rest l => Reaches cs line rest l
  | .error _ => True

/-- Skipping blanks and comments reaches the start of a token, or, in a comment left open, the
end of input. -/
def SkipReaches (cs : List Char) (line : Nat) : Except Nat (List Char × Nat) → Prop
  | .ok (rest, l) => Reaches cs line rest l
  | .error l => Reaches cs line [] l

theorem Scan.CountsLines.after {cs mid : List Char} {line lm : Nat} {s : Scan}
    (reaches : Reaches cs line mid lm) (counts : s.CountsLines mid lm) : s.CountsLines cs line := by
  cases s with
  | token t rest l => exact reaches.trans counts
  | error m => trivial

theorem SkipReaches.after {cs mid : List Char} {line lm : Nat} {e : Except Nat (List Char × Nat)}
    (reaches : Reaches cs line mid lm) (skipped : SkipReaches mid lm e) : SkipReaches cs line e := by
  rcases e with l | ⟨rest, l⟩
  · exact reaches.trans skipped
  · exact reaches.trans skipped

/-- Skipping counts every line terminator it skips, in blanks and in both kinds of comment. -/
theorem skipGap_reaches (g : Gap) (cs : List Char) (line : Nat) :
    SkipReaches cs line (skipGap g cs line) := by
  have slash : isLineEnd '/' = false := by decide
  have star : isLineEnd '*' = false := by decide
  fun_induction skipGap g cs line with
  | case1 line => exact Reaches.refl [] line
  | case2 c r line _ ih => exact SkipReaches.after (Reaches.step c r line) ih
  | case3 line r' _ ih => exact SkipReaches.after (Reaches.append_quiet ['/', '/'] (by simp [slash])) ih
  | case4 line r' _ ih =>
    exact SkipReaches.after (Reaches.append_quiet ['/', '*'] (by simp [slash, star])) ih
  | case5 c r line _ _ _ => exact Reaches.refl _ line
  | case6 line => exact Reaches.refl [] line
  | case7 c r line lineEnd ih =>
    exact SkipReaches.after (Reaches.step c r line) (by simpa [nextLine, lineEnd] using ih)
  | case8 c r line notLineEnd ih =>
    exact SkipReaches.after (Reaches.step c r line) (by simpa [nextLine, notLineEnd] using ih)
  | case9 r line ih =>
    exact SkipReaches.after (Reaches.append_quiet ['*', '/'] (by simp [slash, star])) ih
  | case10 c r line _ ih => exact SkipReaches.after (Reaches.step c r line) ih
  | case11 line => exact Reaches.refl [] line

/-! ### Characters that are no line terminator -/

theorem eq_of_isLineEnd {c : Char} (lineEnd : isLineEnd c = true) :
    c = '\n' ∨ c = '\r' ∨ c = ' ' ∨ c = ' ' := by
  simp only [isLineEnd, Bool.or_eq_true, beq_iff_eq] at lineEnd
  rcases lineEnd with ((lf | cr) | ls) | ps
  · exact Or.inl lf
  · exact Or.inr (Or.inl cr)
  · exact Or.inr (Or.inr (Or.inl (Char.ext ls)))
  · exact Or.inr (Or.inr (Or.inr (Char.ext ps)))

/-- A digit in any radix is no line terminator. -/
theorem isLineEnd_of_digitIn {radix : Nat} {c : Char} (digit : (digitIn radix c).isSome) :
    isLineEnd c = false := by
  cases lineEnd : isLineEnd c
  · rfl
  · rcases eq_of_isLineEnd lineEnd with rfl | rfl | rfl | rfl <;> simp [digitIn] at digit

/-- Range tables read as lists, which the kernel evaluates far faster than the array loop. -/
theorem inRanges_eq_any (rs : Array (Nat × Nat)) (n : Nat) :
    inRanges rs n = rs.toList.any fun r => r.1 ≤ n && n ≤ r.2 := by
  simp only [inRanges, Array.any_toList]

/-- A character that may continue an identifier is no line terminator. -/
theorem isLineEnd_of_isIdPart {c : Char} (part : isIdPart c = true) : isLineEnd c = false := by
  cases lineEnd : isLineEnd c
  · rfl
  · rcases eq_of_isLineEnd lineEnd with rfl | rfl | rfl | rfl <;> revert part <;>
      simp only [isIdPart, isAlphanumeric, isCombiningMark, inRanges_eq_any] <;> decide +kernel

/-! ### Lines counted by each reader -/

section Readers

variable {line : Nat}

theorem readHex_reaches {n : Nat} {cs r : List Char} {acc v : Nat}
    (read : readHex n cs acc = .ok (v, r)) (line : Nat) : Reaches cs line r line := by
  fun_induction readHex n cs acc with
  | case1 cs acc =>
    simp only [Except.ok.injEq, Prod.mk.injEq] at read
    rw [← read.2]
    exact Reaches.refl cs line
  | case2 n c r acc d digit ih =>
    exact Reaches.cons_quiet (isLineEnd_of_digitIn (Option.isSome_iff_exists.mpr ⟨d, digit⟩))
      (ih read)
  | case3 | case4 => simp at read

theorem spanHex_reaches {cs r : List Char} {v k v' k' : Nat}
    (span : spanHex cs v k = (v', k', r)) (line : Nat) : Reaches cs line r line := by
  fun_induction spanHex cs v k with
  | case1 c r v k d digit ih =>
    exact Reaches.cons_quiet (isLineEnd_of_digitIn (Option.isSome_iff_exists.mpr ⟨d, digit⟩))
      (ih span)
  | case2 c r v k _ =>
    simp only [Prod.mk.injEq] at span
    rw [← span.2.2]
    exact Reaches.refl _ line
  | case3 v k =>
    simp only [Prod.mk.injEq] at span
    rw [← span.2.2]
    exact Reaches.refl [] line

/-- A `\u` escape, braced or of four digits or a pair of them, has no line terminator in it. -/
theorem readUnicodeEscape_reaches {cs r : List Char} {ch : Char}
    (escape : readUnicodeEscape cs = .ok (ch, r)) (line : Nat) : Reaches cs line r line := by
  have opening : isLineEnd '{' = false := by decide
  have closing : isLineEnd '}' = false := by decide
  have backslash : isLineEnd '\\' = false := by decide
  have letter : isLineEnd 'u' = false := by decide
  unfold readUnicodeEscape at escape
  split at escape
  · split at escape
    · rename_i v k r' span
      split_ifs at escape
      cases escape
      exact Reaches.cons_quiet opening
        ((spanHex_reaches span line).trans (Reaches.cons_quiet closing (Reaches.refl _ line)))
    · simp at escape
  · split at escape
    · simp at escape
    · rename_i high r1 high_read
      have first := readHex_reaches high_read line
      split_ifs at escape
      · split at escape
        · rename_i r' r''
          split at escape
          · rename_i low r2 low_read
            split_ifs at escape
            · simp only [Except.ok.injEq, Prod.mk.injEq] at escape
              obtain ⟨-, rfl⟩ := escape
              exact first.trans (Reaches.cons_quiet backslash (Reaches.cons_quiet letter
                (readHex_reaches low_read line)))
            · cases escape
              exact first
          · cases escape
            exact first
        · cases escape
          exact first
      · cases escape
        exact first

/-- A name is read on one line: it has no line terminator in it. -/
theorem readIdent_counts (cs : List Char) (line : Nat) (acc : String) (escaped : Bool) :
    (readIdent cs line acc escaped).CountsLines cs line := by
  have backslash : isLineEnd '\\' = false := by decide
  have letter : isLineEnd 'u' = false := by decide
  fun_induction readIdent cs line acc escaped with
  | case1 line acc escaped r' ch r'' escape ih =>
    exact Scan.CountsLines.after (Reaches.cons_quiet backslash (Reaches.cons_quiet letter
      (readUnicodeEscape_reaches escape line))) ih
  | case2 | case3 => trivial
  | case4 c r line acc escaped _ part ih =>
    exact Scan.CountsLines.after (Reaches.cons_quiet (isLineEnd_of_isIdPart part)
      (Reaches.refl r line)) ih
  | case5 c r line acc escaped _ _ =>
    rw [identToken_eq]
    exact Reaches.refl _ line
  | case6 line acc escaped =>
    rw [identToken_eq]
    exact Reaches.refl [] line

/-- Reading while a test holds that no line terminator passes keeps the line. -/
theorem dropWhile_reaches {p : Char → Bool} (quiet : ∀ c, p c = true → isLineEnd c = false)
    (cs : List Char) (line : Nat) : Reaches cs line (cs.dropWhile p) line := by
  have whole : cs.takeWhile p ++ cs.dropWhile p = cs := List.takeWhile_append_dropWhile
  have reaches : Reaches (cs.takeWhile p ++ cs.dropWhile p) line (cs.dropWhile p) line :=
    Reaches.append_quiet _ fun c member => quiet c (List.mem_takeWhile_imp member)
  rwa [whole] at reaches

theorem isLineEnd_of_isDigit {c : Char} (digit : c.isDigit = true) : isLineEnd c = false := by
  cases lineEnd : isLineEnd c
  · rfl
  · rcases eq_of_isLineEnd lineEnd with rfl | rfl | rfl | rfl <;> revert digit <;> decide

theorem finishNumber_counts {cs rest : List Char} (reaches : Reaches cs line rest line) (x : Float) :
    (finishNumber x rest line).CountsLines cs line := by
  unfold finishNumber
  split
  · split
    · trivial
    · exact reaches
  · exact reaches

theorem spanDigits_reaches (cs : List Char) (line : Nat) : Reaches cs line (spanDigits cs).2 line :=
  dropWhile_reaches (fun _ digit => isLineEnd_of_isDigit digit) cs line

theorem spanSign_reaches (cs : List Char) (line : Nat) : Reaches cs line (spanSign cs).2 line := by
  unfold spanSign
  split
  · exact Reaches.cons_quiet (by decide) (Reaches.refl _ line)
  · exact Reaches.cons_quiet (by decide) (Reaches.refl _ line)
  · exact Reaches.refl _ line

theorem readDecimalLiteral_counts (cs : List Char) (line : Nat) :
    (readDecimalLiteral cs line).CountsLines cs line := by
  have dot : isLineEnd '.' = false := by decide
  have integer := spanDigits_reaches cs line
  unfold readDecimalLiteral
  dsimp only
  split
  · rename_i e r afterFraction
    -- the integer digits, then a point and the fraction digits if there is a point
    have fraction : Reaches cs line (e :: r) line := by
      rw [← afterFraction]
      split
      · rename_i r' point
        rw [point] at integer
        exact integer.trans (Reaches.cons_quiet dot (spanDigits_reaches r' line))
      · exact integer
    split
    · rename_i exponent
      have letter : isLineEnd e = false := by
        simp only [Bool.or_eq_true, beq_iff_eq] at exponent
        rcases exponent with rfl | rfl <;> decide
      split
      · trivial
      · exact finishNumber_counts (fraction.trans (Reaches.cons_quiet letter
          ((spanSign_reaches r line).trans (spanDigits_reaches _ line)))) _
    · rw [afterFraction]
      exact finishNumber_counts fraction _
  · rename_i afterFraction
    apply finishNumber_counts
    rw [← afterFraction]
    split
    · rename_i r' point
      rw [point] at integer
      exact integer.trans (Reaches.cons_quiet dot (spanDigits_reaches r' line))
    · exact integer

/-- A number token is read on one line: it has no line terminator in it. -/
theorem readNumber_counts (cs : List Char) (line : Nat) :
    (readNumber cs line).CountsLines cs line := by
  unfold readNumber
  split
  · rename_i p r
    split
    · rename_i radix letter
      have zero : isLineEnd '0' = false := by decide
      have prefixLetter : isLineEnd p = false := by
        unfold radixOf at letter
        split at letter <;> first | decide | simp at letter
      dsimp only
      split
      · trivial
      · exact finishNumber_counts (Reaches.cons_quiet zero (Reaches.cons_quiet prefixLetter
          (dropWhile_reaches (fun _ digit => isLineEnd_of_digitIn digit) r line))) _
    · exact readDecimalLiteral_counts _ line
  · exact readDecimalLiteral_counts _ line

theorem isLineEnd_of_escapeLetter {e ch : Char} (letter : escapeLetter e = some ch) :
    isLineEnd e = false := by
  unfold escapeLetter at letter
  split at letter <;> first | decide | simp at letter

/-- A string literal counts every line terminator in it: those written as themselves, and a
line continuation one line for each of its characters, two for CR LF. -/
theorem Scan.CountsLines.escape {e : Char} {r : List Char} {s : Scan}
    (counts : s.CountsLines r (nextLine e line)) : s.CountsLines ('\\' :: e :: r) line :=
  Scan.CountsLines.after (Reaches.cons_quiet (by decide) (Reaches.step _ _ line)) counts

/-- A string literal counts every line terminator in it: those written as themselves, and a
line continuation one line for each of its characters, two for CR LF. -/
theorem readString_counts {quote : Char} (notLineEnd : isLineEnd quote = false) (cs : List Char)
    (line : Nat) (acc : String) : (readString quote cs line acc).CountsLines cs line := by
  fun_induction readString quote cs line acc with
  | case1 => trivial
  | case2 c r line acc same =>
    rw [beq_iff_eq] at same
    subst same
    exact Reaches.cons_quiet notLineEnd (Reaches.refl r line)
  | case3 | case4 => trivial
  | case5 c line acc _ _ isBackslash e r' ch letter ih =>
    rw [beq_iff_eq] at isBackslash
    subst isBackslash
    exact Scan.CountsLines.escape (by simpa [nextLine, isLineEnd_of_escapeLetter letter] using ih)
  | case6 c line acc _ _ isBackslash e r' _ zero _ ih
  | case7 c line acc _ _ isBackslash e r' _ zero _ ih =>
    rw [beq_iff_eq] at isBackslash zero
    subst isBackslash zero
    exact Scan.CountsLines.escape (by simpa [nextLine, show isLineEnd '0' = false by decide] using ih)
  | case8 c line acc _ _ isBackslash e r' _ _ hex v r'' read ih =>
    rw [beq_iff_eq] at isBackslash hex
    subst isBackslash hex
    have digits : Reaches r' (nextLine 'x' line) r'' line := by
      simpa [nextLine, show isLineEnd 'x' = false by decide] using readHex_reaches read line
    exact Scan.CountsLines.escape (Scan.CountsLines.after digits ih)
  | case9 => trivial
  | case10 c line acc _ _ isBackslash e r' _ _ _ unicode ch r'' read ih =>
    rw [beq_iff_eq] at isBackslash unicode
    subst isBackslash unicode
    have digits : Reaches r' (nextLine 'u' line) r'' line := by
      simpa [nextLine, show isLineEnd 'u' = false by decide] using readUnicodeEscape_reaches read line
    exact Scan.CountsLines.escape (Scan.CountsLines.after digits ih)
  | case11 => trivial
  | case12 c line acc _ _ isBackslash e r' _ _ _ _ cr lf ih =>
    rw [beq_iff_eq] at isBackslash cr
    subst isBackslash cr
    -- a line continuation CR LF: both characters are read, and each counts a line
    obtain ⟨t, rfl⟩ : ∃ t, r' = '\n' :: t := by
      cases r' with
      | nil => simp at lf
      | cons c t =>
        simp only [List.head?_cons, beq_iff_eq, Option.some.injEq] at lf
        exact ⟨t, by rw [lf]⟩
    have cr : isLineEnd '\r' = true := by decide
    have lf : isLineEnd '\n' = true := by decide
    exact Scan.CountsLines.escape (Scan.CountsLines.after (Reaches.step '\n' t _)
      (by simpa [nextLine, cr, lf] using ih))
  | case13 c line acc _ _ isBackslash e r' _ _ _ _ cr _ ih =>
    rw [beq_iff_eq] at isBackslash cr
    subst isBackslash cr
    exact Scan.CountsLines.escape (by simpa [nextLine, show isLineEnd '\r' = true by decide] using ih)
  | case14 c line acc _ _ isBackslash e r' _ _ _ _ _ lineEnd ih =>
    rw [beq_iff_eq] at isBackslash
    subst isBackslash
    exact Scan.CountsLines.escape (by simpa [nextLine, lineEnd] using ih)
  | case15 c line acc _ _ isBackslash e r' _ _ _ _ _ notLineEnd ih =>
    rw [beq_iff_eq] at isBackslash
    subst isBackslash
    exact Scan.CountsLines.escape (by simpa [nextLine, notLineEnd] using ih)
  | case16 c r line acc _ _ _ ih => exact Scan.CountsLines.after (Reaches.step c r line) ih

/-- A punctuator has no line terminator in it. -/
theorem scanPunct_reaches {cs rest : List Char} {p : Punct} (scan : scanPunct cs = some (p, rest))
    (line : Nat) : Reaches cs line rest line := by
  unfold scanPunct at scan
  split at scan
  all_goals first
    | (simp only [reduceCtorEq] at scan)
    | (simp only [Option.some.injEq, Prod.mk.injEq] at scan
       obtain ⟨-, rfl⟩ := scan
       repeat apply Reaches.cons_quiet (by decide)
       exact Reaches.refl _ line)

/-- Every token is read with the line terminators in it counted. -/
theorem scanToken_counts (cs : List Char) (line : Nat) : (scanToken cs line).CountsLines cs line := by
  unfold scanToken
  split
  · exact Reaches.refl [] line
  · rename_i c r
    split_ifs with name number quote
    · exact readIdent_counts _ line "" false
    · exact readNumber_counts _ line
    · -- the opening quote, then the body and the closing quote
      have notLineEnd : isLineEnd c = false := by
        simp only [Bool.or_eq_true, beq_iff_eq] at quote
        rcases quote with rfl | rfl <;> decide
      exact Scan.CountsLines.after (Reaches.cons_quiet notLineEnd (Reaches.refl r line))
        (readString_counts notLineEnd r line "")
    · split
      · rename_i p rest punct
        exact scanPunct_reaches punct line
      · trivial

end Readers

/-! ### The lines of the lexemes -/

/-- A line break before a lexeme is a line terminator in the blanks and comments before it. -/
theorem fresh_iff (line : Nat) (gap : List Char) :
    (line + gap.countP isLineEnd != line) = true ↔ ∃ c ∈ gap, isLineEnd c = true := by
  rw [bne_iff_ne, ne_eq, Nat.add_eq_left, ← ne_eq, ← Nat.pos_iff_ne_zero, List.countP_pos_iff]

/-- The first lexeme read from a text: after the blanks and comments `gap` it stands on the line
they reach, and it follows a line break exactly when one of them is a line terminator. The
lexemes after it are read from where its token ends, on the line reached there. -/
theorem lexemesFrom_step (cs : List Char) (line : Nat) :
    ∃ gap rest x, cs = gap ++ rest ∧ lexemesFrom cs line = x :: (lexemesFrom cs line).tail ∧
      x.line = line + gap.countP isLineEnd ∧
      (x.newlineBefore = true ↔ ∃ c ∈ gap, isLineEnd c = true) ∧
      (skipGap .code cs line = .ok (rest, x.line) ∨
        rest = [] ∧ skipGap .code cs line = .error x.line) ∧
      ((lexemesFrom cs line).tail = [] ∨ ∃ tok after, rest = tok ++ after ∧
        (lexemesFrom cs line).tail = lexemesFrom after (x.line + tok.countP isLineEnd)) := by
  have skipped := skipGap_reaches .code cs line
  rcases skip : skipGap .code cs line with l | ⟨rest, l⟩ <;> rw [skip] at skipped
  · -- a comment left open: one error lexeme at the end of input
    obtain ⟨gap, rfl, rfl⟩ := skipped.eq_append
    have lexed : lexemesFrom (gap ++ []) line =
        [⟨.error "unterminated comment", line + gap.countP isLineEnd,
          line + gap.countP isLineEnd != line⟩] := by
      rw [lexemesFrom.eq_def, skip]
    refine ⟨gap, [], _, rfl, by rw [lexed]; rfl, rfl, fresh_iff line gap, Or.inr ⟨rfl, rfl⟩, ?_⟩
    exact Or.inl (by rw [lexed]; rfl)
  · obtain ⟨gap, rfl, rfl⟩ := skipped.eq_append
    cases rest with
    | nil =>
      have lexed : lexemesFrom (gap ++ []) line =
          [⟨.eof, line + gap.countP isLineEnd, line + gap.countP isLineEnd != line⟩] := by
        rw [lexemesFrom.eq_def, skip]
      refine ⟨gap, [], _, rfl, by rw [lexed]; rfl, rfl, fresh_iff line gap, Or.inl rfl, ?_⟩
      exact Or.inl (by rw [lexed]; rfl)
    | cons c r =>
      have scanned := scanToken_counts (c :: r) (line + gap.countP isLineEnd)
      rcases scan : scanToken (c :: r) (line + gap.countP isLineEnd) with ⟨t, rest', l'⟩ | m
      · rw [scan] at scanned
        obtain ⟨tok, split, rfl⟩ := scanned.eq_append
        -- the lexer goes on after the token; its guard on the length never fails
        by_cases shorter : rest'.length < (gap ++ c :: r).length
        · have lexed : lexemesFrom (gap ++ c :: r) line =
              ⟨t, line + gap.countP isLineEnd, line + gap.countP isLineEnd != line⟩ ::
                lexemesFrom rest' (line + gap.countP isLineEnd + tok.countP isLineEnd) := by
            rw [lexemesFrom.eq_def, skip]
            simp only [scan, shorter, if_true]
          refine ⟨gap, c :: r, _, rfl, by rw [lexed]; rfl, rfl, fresh_iff line gap, Or.inl rfl, ?_⟩
          exact Or.inr ⟨tok, rest', split, by rw [lexed]; rfl⟩
        · have lexed : lexemesFrom (gap ++ c :: r) line =
              [⟨.eof, line + gap.countP isLineEnd, line + gap.countP isLineEnd != line⟩] := by
            rw [lexemesFrom.eq_def, skip]
            simp only [scan, shorter, if_false]
          refine ⟨gap, c :: r, _, rfl, by rw [lexed]; rfl, rfl, fresh_iff line gap, Or.inl rfl, ?_⟩
          exact Or.inl (by rw [lexed]; rfl)
      · have lexed : lexemesFrom (gap ++ c :: r) line =
            [⟨.error m, line + gap.countP isLineEnd, line + gap.countP isLineEnd != line⟩] := by
          rw [lexemesFrom.eq_def, skip]
          simp only [scan]
        refine ⟨gap, c :: r, _, rfl, by rw [lexed]; rfl, rfl, fresh_iff line gap, Or.inl rfl, ?_⟩
        exact Or.inl (by rw [lexed]; rfl)

theorem lexemesFrom_ne_nil (cs : List Char) (line : Nat) : lexemesFrom cs line ≠ [] := by
  obtain ⟨gap, rest, x, -, lexed, -⟩ := lexemesFrom_step cs line
  rw [lexed]
  exact List.cons_ne_nil x _

theorem lexemes_length_pos (source : String) : 0 < (lexemes source).length :=
  List.length_pos_of_ne_nil (lexemesFrom_ne_nil _ 1)

/-- The lexer can be resumed before every lexeme: after some text `before`, on the line that text
reaches, it reads exactly the lexemes from there on. -/
theorem lexemesFrom_resume (cs : List Char) (line : Nat) :
    ∀ i, i < (lexemesFrom cs line).length → ∃ before rest, cs = before ++ rest ∧
      lexemesFrom rest (line + before.countP isLineEnd) = (lexemesFrom cs line).drop i := by
  intro i
  induction i with
  | zero => exact fun _ => ⟨[], cs, rfl, by simp⟩
  | succ i ih =>
    intro within
    obtain ⟨before, rest, split, resumed⟩ := ih (by omega)
    obtain ⟨gap, rest', x, rfl, lexed, onLine, -, -, next⟩ :=
      lexemesFrom_step rest (line + before.countP isLineEnd)
    rw [← List.tail_drop, ← resumed]
    rcases next with done | ⟨tok, after, rfl, more⟩
    · -- lexeme i is the last one, so there is no lexeme i + 1
      have last : ((lexemesFrom cs line).drop i).tail = [] := by rw [← resumed, done]
      have length := congrArg List.length last
      simp only [List.length_tail, List.length_drop, List.length_nil] at length
      omega
    · refine ⟨before ++ gap ++ tok, after, by rw [split]; simp, ?_⟩
      rw [more, onLine, List.countP_append, List.countP_append]
      congr 1
      omega

/-- Every lexeme of a source stands on the line after the line terminator characters before
its token: one plus the terminator sequences there and once more each CR LF pair. It follows a
line break exactly when a line terminator lies in the blanks and comments just before it. The
text before it is where the lexer, resumed on that line, reads the same lexemes from there on,
and those blanks and comments are what it skips first. -/
theorem lexeme_line_numbers (source : String) (i : Nat) (within : i < (lexemes source).length) :
    ∃ before gap rest, source.toList = before ++ gap ++ rest ∧
      lexemesFrom (gap ++ rest) (1 + before.countP isLineEnd) = (lexemes source).drop i ∧
      (skipGap .code (gap ++ rest) (1 + before.countP isLineEnd) =
          .ok (rest, (lexemes source)[i].line) ∨
        rest = [] ∧ skipGap .code (gap ++ rest) (1 + before.countP isLineEnd) =
          .error (lexemes source)[i].line) ∧
      (lexemes source)[i].line = 1 + terminatorSequences (before ++ gap) + crLfPairs (before ++ gap) ∧
      ((lexemes source)[i].newlineBefore = true ↔ ∃ c ∈ gap, isLineEnd c = true) := by
  obtain ⟨before, suffix, split, resumed⟩ := lexemesFrom_resume source.toList 1 i within
  obtain ⟨gap, rest, x, rfl, lexed, onLine, fresh, skipped, -⟩ :=
    lexemesFrom_step suffix (1 + before.countP isLineEnd)
  have first : (lexemes source)[i] = x := by
    have head : ((lexemes source).drop i).head? = some x := by
      rw [lexemes, ← resumed, lexed]
      rfl
    rw [List.head?_drop, List.getElem?_eq_getElem within, Option.some.injEq] at head
    exact head
  refine ⟨before, gap, rest, by rw [split, List.append_assoc], resumed, ?_, ?_, ?_⟩
  · rw [first]
    exact skipped
  · have counted := countP_isLineEnd_eq (before ++ gap)
    rw [List.countP_append] at counted
    rw [first, onLine]
    omega
  · rw [first]
    exact fresh

theorem first_lexeme_line_number :
    ∃ within : 0 < (lexemes "\n\nx").length, ∃ before gap rest,
      "\n\nx".toList = before ++ gap ++ rest ∧
      lexemesFrom (gap ++ rest) (1 + before.countP isLineEnd) = (lexemes "\n\nx").drop 0 ∧
      (skipGap .code (gap ++ rest) (1 + before.countP isLineEnd) =
          .ok (rest, (lexemes "\n\nx")[0].line) ∨
        rest = [] ∧ skipGap .code (gap ++ rest) (1 + before.countP isLineEnd) =
          .error (lexemes "\n\nx")[0].line) ∧
      (lexemes "\n\nx")[0].line =
        1 + terminatorSequences (before ++ gap) + crLfPairs (before ++ gap) ∧
      ((lexemes "\n\nx")[0].newlineBefore = true ↔ ∃ c ∈ gap, isLineEnd c = true) :=
  ⟨lexemes_length_pos _, lexeme_line_numbers "\n\nx" 0 (lexemes_length_pos _)⟩

/-- After CR LF the lexer stands on line 3, where the line terminator sequences make it line 2. -/
theorem crlf_counts_two_lines :
    lexemes (String.ofList ['\r', '\n', '@']) = [⟨.error "unexpected character '@'", 3, true⟩] ∧
      1 + terminatorSequences ['\r', '\n'] = 2 := by
  have skipped : skipGap .code ['\r', '\n', '@'] 1 = .ok (['@'], 3) := rfl
  have scanned : scanToken ['@'] 3 = .error "unexpected character '@'" := rfl
  refine ⟨?_, rfl⟩
  rw [lexemes, String.toList_ofList, lexemesFrom.eq_def, skipped]
  simp only [scanned]
  rfl

end EmbedScript.Syntax
