import Mathlib
import EmbedScript.Proofs.StringLiterals

/-!
Identifiers. An IdentifierName (ES5 7.6) is a character that may start an identifier followed by
characters that may continue one. The lexer checks this of every character written as itself:
the first before it reads an identifier at all, the others as it reads them, stopping at the
first that may not continue one. A `\u` escape is read as the character it denotes and that
character is not checked. So an identifier token read without escapes is spelled as written and
is an IdentifierName, while `\u0031` is read as the name `1`.
-/

namespace EmbedScript.Syntax

open EmbedScript.Text

/-- An IdentifierName in the lexer's character classes: a first character that may start an
identifier, then characters that may continue one. -/
def isIdentifierName : List Char → Bool
  | [] => false
  | c :: cs => isIdStart c && cs.all isIdPart

/-- Every character that may start an identifier may continue one. -/
theorem isIdPart_of_isIdStart {c : Char} (start : isIdStart c = true) : isIdPart c = true := by
  unfold isIdStart isAlphabetic at start
  unfold isIdPart isAlphanumeric
  by_cases ascii : c.val < 0x80
  · simp only [ascii, if_true, Bool.or_eq_true, beq_iff_eq] at start ⊢
    rcases start with (alpha | underscore) | dollar
    · simp [Char.isAlphanum, alpha]
    · simp [underscore]
    · simp [dollar]
  · -- beyond ASCII only the Alphabetic table can have let the character start an identifier
    have notUnderscore : c ≠ '_' := by
      rintro rfl
      exact ascii (by decide)
    have notDollar : c ≠ '$' := by
      rintro rfl
      exact ascii (by decide)
    simp only [ascii, if_false, Bool.or_eq_true, beq_iff_eq, notUnderscore, notDollar,
      or_false] at start ⊢
    exact Or.inl (Or.inl (Or.inl (Or.inl start)))

/-! ### The lexer's steps through an identifier -/

section Steps

variable {line : Nat} {acc : String} {escaped : Bool}

theorem readIdent_escape {r r' : List Char} {ch : Char}
    (escape : readUnicodeEscape r = .ok (ch, r')) :
    readIdent ('\\' :: 'u' :: r) line acc escaped = readIdent r' line (acc.push ch) true := by
  rw [readIdent.eq_1]
  split <;> simp_all

theorem readIdent_part {c : Char} (notBackslash : c ≠ '\\') (part : isIdPart c = true)
    (r : List Char) : readIdent (c :: r) line acc escaped = readIdent r line (acc.push c) escaped := by
  rw [readIdent.eq_3 _ _ _ _ _ notBackslash, if_pos part]

theorem readIdent_stop {c : Char} (notBackslash : c ≠ '\\') (notPart : isIdPart c = false)
    (r : List Char) :
    readIdent (c :: r) line acc escaped = readIdent.identToken (c :: r) line acc escaped := by
  rw [readIdent.eq_3 _ _ _ _ _ notBackslash]
  simp [notPart]

theorem readIdent_nil : readIdent [] line acc escaped = readIdent.identToken [] line acc escaped := by
  rw [readIdent.eq_def]

/-- What reading a name ends with: the name as a keyword or an identifier, and the input at the
character that ended it. -/
theorem identToken_eq (rest : List Char) (word : String) :
    readIdent.identToken rest line word escaped =
      .token (if !escaped && keywords.contains word then .keyword word else .ident word) rest line := by
  unfold readIdent.identToken
  split <;> rfl

end Steps

/-! ### What a name consumes -/

section Consumes

variable {line l : Nat} {acc : String} {escaped : Bool} {t : Token}

/-- Reading a name never gives back more input than it was given. -/
theorem readIdent_rest_length {cs rest : List Char}
    (read : readIdent cs line acc escaped = .token t rest l) : rest.length ≤ cs.length := by
  fun_induction readIdent cs line acc escaped with
  | case1 line acc escaped r' ch r'' escape ih =>
    have shorter := readUnicodeEscape_rest_length escape
    have rest := ih read
    simp only [List.length_cons]
    omega
  | case2 | case3 => simp at read
  | case4 c r line acc escaped notBackslash part ih =>
    have rest := ih read
    simp only [List.length_cons]
    omega
  | case5 c r line acc escaped notBackslash notPart =>
    rw [identToken_eq] at read
    cases read
    rfl
  | case6 line acc escaped =>
    rw [identToken_eq] at read
    cases read
    rfl

/-- Reading a name from a backslash or from a character that may continue one consumes input. -/
theorem readIdent_consumes {c : Char} {r rest : List Char}
    (read : readIdent (c :: r) line acc escaped = .token t rest l)
    (reads : c = '\\' ∨ isIdPart c = true) : rest.length < r.length + 1 := by
  by_cases backslash : c = '\\'
  · subst backslash
    cases r with
    | nil => simp [readIdent.eq_2] at read
    | cons d r' =>
      by_cases u : d = 'u'
      · subst u
        rw [readIdent.eq_1] at read
        split at read
        · rename_i escape
          have shorter := readUnicodeEscape_rest_length escape
          have rest := readIdent_rest_length read
          simp only [List.length_cons]
          omega
        · simp at read
      · rw [readIdent.eq_2 _ _ _ _ (by simp [u])] at read
        simp at read
  · rw [readIdent_part backslash (reads.resolve_left backslash)] at read
    have rest := readIdent_rest_length read
    omega

end Consumes

/-! ### Which reader makes a name -/

section Readers

variable {line l : Nat} {s : String} {rest : List Char}

/-- A string literal is never read as a name. -/
theorem readString_ne_ident (quote : Char) (cs : List Char) (acc : String) :
    readString quote cs line acc ≠ .token (.ident s) rest l := by
  fun_induction readString quote cs line acc <;> simp_all

theorem finishNumber_ne_ident (x : Float) (cs : List Char) :
    finishNumber x cs line ≠ .token (.ident s) rest l := by
  unfold finishNumber
  split
  · split <;> simp
  · simp

/-- A numeric literal is never read as a name. -/
theorem readNumber_ne_ident (cs : List Char) : readNumber cs line ≠ .token (.ident s) rest l := by
  have decimal : ∀ cs, readDecimalLiteral cs line ≠ .token (.ident s) rest l := by
    intro cs
    unfold readDecimalLiteral
    dsimp only
    repeat' split
    all_goals first | exact finishNumber_ne_ident _ _ | simp
  unfold readNumber
  dsimp only
  repeat' split
  all_goals first | exact finishNumber_ne_ident _ _ | exact decimal _ | simp

/-- An identifier token is read as a name from a backslash or from a character that may start
an identifier. -/
theorem scanToken_ident {c : Char} {r : List Char}
    (read : scanToken (c :: r) line = .token (.ident s) rest l) :
    (c = '\\' ∨ isIdStart c = true) ∧ readIdent (c :: r) line "" false = .token (.ident s) rest l := by
  dsimp only [scanToken] at read
  split_ifs at read with name number quote
  · exact ⟨by simpa using name, read⟩
  · exact absurd read (readNumber_ne_ident _)
  · exact absurd read (readString_ne_ident _ _ _)
  · split at read <;> simp at read

end Readers

/-! ### Names written without escapes -/

section Unescaped

variable {line l : Nat} {escaped : Bool}

/-- Reading a name written without escapes up to a character that ends it: every character it
takes may continue an identifier, and the name is the characters taken. -/
theorem readIdent_unescaped : ∀ (pre : List Char) {rest : List Char} {acc : String} {t : Token},
    '\\' ∉ pre → readIdent (pre ++ rest) line acc escaped = .token t rest l →
      (∀ c ∈ pre, isIdPart c = true) ∧
        readIdent.identToken rest line (acc ++ String.ofList pre) escaped = .token t rest l
  | [], rest, acc, t, _, read => by
    refine ⟨by simp, ?_⟩
    rw [List.nil_append] at read
    cases rest with
    | nil =>
      rw [String.ofList_nil, String.append_empty]
      rwa [readIdent_nil] at read
    | cons c r =>
      -- a name that took nothing stopped at a character that cannot continue it
      by_cases stops : c ≠ '\\' ∧ isIdPart c = false
      · rw [String.ofList_nil, String.append_empty]
        rwa [readIdent_stop stops.1 stops.2] at read
      · have reads : c = '\\' ∨ isIdPart c = true := by
          by_cases backslash : c = '\\'
          · exact Or.inl backslash
          · simpa [backslash] using stops
        have shorter := readIdent_consumes read reads
        simp at shorter
  | c :: pre, rest, acc, t, unescaped, read => by
    have notBackslash : c ≠ '\\' := fun same => unescaped (same ▸ List.mem_cons_self)
    cases part : isIdPart c
    · -- the name stops before the first character, which is then left over
      rw [List.cons_append, readIdent_stop notBackslash part, identToken_eq] at read
      have same : c :: (pre ++ rest) = rest := by injection read
      have lengths := congrArg List.length same
      simp at lengths
      omega
    · rw [List.cons_append, readIdent_part notBackslash part] at read
      obtain ⟨parts, token⟩ :=
        readIdent_unescaped pre (fun member => unescaped (List.mem_cons_of_mem c member)) read
      refine ⟨List.forall_mem_cons.mpr ⟨part, parts⟩, ?_⟩
      rwa [push_eq_append, String.append_assoc, ← String.ofList_append] at token

/-- The converse: the lexer reads every name written without escapes as far as the character
that ends it. -/
theorem readIdent_literal : ∀ {pre : List Char} {acc : String},
    (∀ c ∈ pre, c ≠ '\\' ∧ isIdPart c = true) → ∀ {rest : List Char},
      (∀ c ∈ rest.head?, c ≠ '\\' ∧ isIdPart c = false) →
        readIdent (pre ++ rest) line acc escaped =
          readIdent.identToken rest line (acc ++ String.ofList pre) escaped
  | [], acc, _, [], _ => by simp [readIdent_nil]
  | [], acc, _, c :: r, stop => by
    obtain ⟨notBackslash, notPart⟩ := stop c rfl
    simp [readIdent_stop notBackslash notPart]
  | c :: pre, acc, parts, rest, stop => by
    obtain ⟨notBackslash, part⟩ := parts c List.mem_cons_self
    rw [List.cons_append, readIdent_part notBackslash part,
      readIdent_literal (fun c' member => parts c' (List.mem_cons_of_mem c member)) stop,
      push_eq_append, String.append_assoc, ← String.ofList_append]
    rfl

/-- An identifier token read without escapes is spelled as written, and that spelling is an
IdentifierName: a character that may start an identifier, then characters that may continue
one. -/
theorem unescaped_identifier_is_name {pre rest : List Char} {s : String}
    (read : scanToken (pre ++ rest) line = .token (.ident s) rest l) (unescaped : '\\' ∉ pre) :
    s.toList = pre ∧ isIdentifierName pre = true ∧ l = line := by
  cases pre with
  | nil =>
    -- a token is never read from no input at all
    cases rest with
    | nil => simp [scanToken] at read
    | cons c r =>
      obtain ⟨start, name⟩ := scanToken_ident read
      have shorter := readIdent_consumes name (start.imp_right isIdPart_of_isIdStart)
      simp at shorter
  | cons c pre =>
    have notBackslash : c ≠ '\\' := fun same => unescaped (same ▸ List.mem_cons_self)
    rw [List.cons_append] at read
    obtain ⟨start, name⟩ := scanToken_ident read
    have start : isIdStart c = true := start.resolve_left notBackslash
    rw [← List.cons_append] at name
    obtain ⟨parts, token⟩ := readIdent_unescaped (c :: pre) unescaped name
    rw [identToken_eq] at token
    have spelled : s = String.ofList (c :: pre) ∧ line = l := by
      split at token <;> simp_all
    obtain ⟨rfl, rfl⟩ := spelled
    refine ⟨String.toList_ofList, ?_, rfl⟩
    simp only [isIdentifierName, start, Bool.true_and, List.all_eq_true]
    exact fun c' member => parts c' (List.mem_cons_of_mem c member)

/-- A character that cannot continue a name ends one. -/
theorem stops_cons {c : Char} (notBackslash : c ≠ '\\') (notPart : isIdPart c = false)
    (r : List Char) : ∀ c' ∈ (c :: r).head?, c' ≠ '\\' ∧ isIdPart c' = false := by
  rintro c' ⟨⟩
  exact ⟨notBackslash, notPart⟩

/-- The converse: every IdentifierName that is no keyword, followed by a character that cannot
continue it, is read as an identifier token spelled as written. -/
theorem scanToken_identifier_name {pre rest : List Char} (name : isIdentifierName pre = true)
    (notKeyword : keywords.contains (String.ofList pre) = false)
    (stop : ∀ c ∈ rest.head?, c ≠ '\\' ∧ isIdPart c = false) :
    scanToken (pre ++ rest) line = .token (.ident (String.ofList pre)) rest line := by
  cases pre with
  | nil => simp [isIdentifierName] at name
  | cons c pre =>
    simp only [isIdentifierName, Bool.and_eq_true, List.all_eq_true] at name
    obtain ⟨start, parts⟩ := name
    have notBackslash : ∀ c', isIdPart c' = true → c' ≠ '\\' := by
      rintro c' part rfl
      simp [isIdPart] at part
    have literal : ∀ c' ∈ c :: pre, c' ≠ '\\' ∧ isIdPart c' = true := by
      intro c' member
      have part : isIdPart c' = true := by
        rcases List.mem_cons.mp member with rfl | later
        · exact isIdPart_of_isIdStart start
        · exact parts c' later
      exact ⟨notBackslash c' part, part⟩
    rw [List.cons_append]
    simp only [scanToken, start, Bool.or_true, if_true]
    rw [← List.cons_append, readIdent_literal literal stop, identToken_eq, String.empty_append]
    simp only [Bool.not_false, Bool.true_and, notKeyword, Bool.false_eq_true, if_false]

theorem plain_identifier_is_name :
    scanToken (['a', 'b'] ++ [' ']) 1 = .token (.ident (String.ofList ['a', 'b'])) [' '] 1 ∧
      '\\' ∉ ['a', 'b'] ∧ ((String.ofList ['a', 'b']).toList = ['a', 'b'] ∧
        isIdentifierName ['a', 'b'] = true ∧ 1 = 1) :=
  have read : scanToken (['a', 'b'] ++ [' ']) 1 = .token (.ident (String.ofList ['a', 'b'])) [' '] 1 :=
    scanToken_identifier_name (by decide) (by decide) (stops_cons (by decide) (by decide) [])
  ⟨read, by decide, unescaped_identifier_is_name read (by decide)⟩

end Unescaped

/-! ### Escaped characters -/

/-- A four-digit escape that is no high surrogate, followed by a character that cannot continue
a name, is read as the name of the one character it denotes, whatever its class. -/
theorem scanToken_escaped_name {ds rest : List Char} {line : Nat} (four : ds.length = 4)
    (hex : ∀ c ∈ ds, IsHexDigit c) (notHigh : isHighSurrogate (hexValue ds) = false)
    (stop : ∀ c ∈ rest.head?, c ≠ '\\' ∧ isIdPart c = false) :
    scanToken ('\\' :: 'u' :: (ds ++ rest)) line =
      .token (.ident (String.ofList [scalarOr (hexValue ds)])) rest line := by
  have escape : readUnicodeEscape (ds ++ rest) = .ok (scalarOr (hexValue ds), rest) :=
    readUnicodeEscape_alone four hex fun high => by simp [notHigh] at high
  simp only [scanToken, beq_self_eq_true, Bool.true_or, if_true]
  rw [readIdent_escape escape, ← List.nil_append rest, readIdent_literal (by simp) stop,
    identToken_eq]
  simp

/-- The escape `\u0031` is read as the name `1`, which is no IdentifierName. -/
theorem escaped_digit_read_as_name :
    scanToken ('\\' :: 'u' :: (['0', '0', '3', '1'] ++ [' '])) 1 = .token (.ident "1") [' '] 1 ∧
      isIdentifierName ['1'] = false := by
  have value : hexValue ['0', '0', '3', '1'] = 0x31 := by decide +kernel
  have digit : scalarOr 0x31 = '1' := by decide
  refine ⟨?_, by decide +kernel⟩
  rw [scanToken_escaped_name rfl (by simp [IsHexDigit, Number.digitIn]) (by rw [value]; decide)
    (stops_cons (by decide) (by decide) []), value, digit]

end EmbedScript.Syntax
