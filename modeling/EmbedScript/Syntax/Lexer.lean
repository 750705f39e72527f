import EmbedScript.Syntax.Token

/-!
Lexing: script source to lexemes. Blanks, line terminators and both comment forms separate
tokens; every line terminator counts one line, so CR LF counts two. Identifiers may contain
`\u` escapes, which make them plain names even when spelled as keywords. Numbers are decimal
or have a radix prefix, strings take the usual escapes and line continuations, and
punctuators are matched longest first. The list ends with the end of input or with the first
character sequence that is no token, as an error lexeme.

Each reader consumes input, and the token list is built by recursion on the length of what
is left.
-/

namespace EmbedScript.Syntax

open EmbedScript.Text EmbedScript.Number

/-- The line after a character has been consumed. -/
def nextLine (c : Char) (line : Nat) : Nat :=
  if isLineEnd c then line + 1 else line

/-- Where a scan over blanks and comments stands. -/
inductive Gap where
  | code
  | lineComment
  | blockComment

/-- Skips blanks, line terminators and comments, counting lines. A block comment that the
input ends in gives the line at the end of input. -/
def skipGap : Gap → List Char → Nat → Except Nat (List Char × Nat)
  | .code, [], line => .ok ([], line)
  | .code, c :: r, line =>
    if isBlank c || isLineEnd c then skipGap .code r (nextLine c line)
    else match c, r with
      | '/', '/' :: r' => skipGap .lineComment r' line
      | '/', '*' :: r' => skipGap .blockComment r' line
      | _, _ => .ok (c :: r, line)
  | .lineComment, [], line => .ok ([], line)
  | .lineComment, c :: r, line =>
    if isLineEnd c then skipGap .code r (line + 1) else skipGap .lineComment r line
  | .blockComment, '*' :: '/' :: r, line => skipGap .code r line
  | .blockComment, c :: r, line => skipGap .blockComment r (nextLine c line)
  | .blockComment, [], line => .error line

/-- The outcome of reading one token: the token with the rest of the input and the line
reached, or the message of an error lexeme. -/
inductive Scan where
  | token (t : Token) (rest : List Char) (line : Nat)
  | error (message : String)

/-- Reads `n` hexadecimal digits into `acc`. -/
def readHex : Nat → List Char → Nat → Except String (Nat × List Char)
  | 0, cs, acc => .ok (acc, cs)
  | n + 1, c :: r, acc =>
    match digitIn 16 c with
    | some d => readHex n r (acc * 16 + d)
    | none => .error "invalid hexadecimal escape"
  | _ + 1, [], _ => .error "invalid hexadecimal escape"

/-- Reads hexadecimal digits as long as there are any: value, count and rest. -/
def spanHex : List Char → Nat → Nat → Nat × Nat × List Char
  | c :: r, v, k =>
    match digitIn 16 c with
    | some d => spanHex r (v * 16 + d) (k + 1)
    | none => (v, k, c :: r)
  | [], v, k => (v, k, [])

/-- The character with this code point, or U+FFFD for a surrogate or a number beyond the
code space. -/
def scalarOr (code : Nat) : Char :=
  if code < 0xD800 || (0xDFFF < code && code < 0x110000) then Char.ofNat code else '\uFFFD'

/-- The escape after `\u`: braced digits up to U+10FFFF, or four digits; a high surrogate
followed by a four-digit `\u` low surrogate is read as the pair. -/
def readUnicodeEscape (cs : List Char) : Except String (Char × List Char) :=
  match cs with
  | '{' :: r =>
    match spanHex r 0 0 with
    | (v, k, '}' :: r') =>
      if k = 0 ∨ v > 0x10FFFF then .error "invalid unicode escape" else .ok (scalarOr v, r')
    | _ => .error "invalid unicode escape"
  | _ =>
    match readHex 4 cs 0 with
    | .error m => .error m
    | .ok (high, r) =>
      if 0xD800 ≤ high ∧ high < 0xDC00 then
        match r with
        | '\\' :: 'u' :: r' =>
          match readHex 4 r' 0 with
          | .ok (low, r'') =>
            if 0xDC00 ≤ low ∧ low < 0xE000 then
              .ok (scalarOr (0x10000 + (high - 0xD800) * 0x400 + (low - 0xDC00)), r'')
            else .ok (scalarOr high, r)
          | .error _ => .ok (scalarOr high, r)
        | _ => .ok (scalarOr high, r)
      else .ok (scalarOr high, r)

theorem readHex_rest_length :
    ∀ {n : Nat} {cs : List Char} {acc v : Nat} {r : List Char},
      readHex n cs acc = .ok (v, r) → r.length + n = cs.length
  | 0, cs, acc, v, r, h => by
    simp only [readHex, Except.ok.injEq, Prod.mk.injEq] at h
    obtain ⟨-, rfl⟩ := h
    simp
  | n + 1, [], acc, v, r, h => by simp [readHex] at h
  | n + 1, c :: cs, acc, v, r, h => by
    simp only [readHex] at h
    split at h
    · have := readHex_rest_length h
      simp only [List.length_cons]
      omega
    · simp at h

theorem spanHex_rest_length :
    ∀ (cs : List Char) (v k : Nat), (spanHex cs v k).2.2.length ≤ cs.length
  | [], v, k => by simp [spanHex]
  | c :: cs, v, k => by
    simp only [spanHex]
    split
    · exact Nat.le_succ_of_le (spanHex_rest_length cs _ _)
    · simp

theorem readUnicodeEscape_rest_length {cs r : List Char} {c : Char}
    (h : readUnicodeEscape cs = .ok (c, r)) : r.length < cs.length := by
  unfold readUnicodeEscape at h
  split at h
  · rename_i rb
    split at h
    · rename_i v k r' hs
      split at h
      · simp at h
      · simp only [Except.ok.injEq, Prod.mk.injEq] at h
        obtain ⟨-, rfl⟩ := h
        have := spanHex_rest_length rb 0 0
        rw [hs] at this
        simp only [List.length_cons] at this ⊢
        omega
    · simp at h
  · split at h
    · simp at h
    · rename_i high r0 hh
      have h4 := readHex_rest_length hh
      split at h
      · split at h
        · rename_i r' 
          split at h
          · rename_i low r'' hl
            have h5 := readHex_rest_length hl
            split at h
            · simp only [Except.ok.injEq, Prod.mk.injEq] at h
              obtain ⟨-, rfl⟩ := h
              simp only [List.length_cons] at h4
              omega
            · simp only [Except.ok.injEq, Prod.mk.injEq] at h
              obtain ⟨-, rfl⟩ := h
              omega
          · simp only [Except.ok.injEq, Prod.mk.injEq] at h
            obtain ⟨-, rfl⟩ := h
            omega
        · simp only [Except.ok.injEq, Prod.mk.injEq] at h
          obtain ⟨-, rfl⟩ := h
          omega
      · simp only [Except.ok.injEq, Prod.mk.injEq] at h
        obtain ⟨-, rfl⟩ := h
        omega

/-- The character an escape letter stands for in a string, for the letters with a meaning
of their own. -/
def escapeLetter : Char → Option Char
  | 'n' => some '\n'
  | 'r' => some '\r'
  | 't' => some '\t'
  | 'b' => some '\x08'
  | 'f' => some '\x0c'
  | 'v' => some '\x0b'
  | _ => none

set_option linter.unusedVariables false in
/-- Reads a string body up to the closing quote. -/
def readString (quote : Char) : List Char → Nat → String → Scan
  | [], _, _ => .error "unterminated string literal"
  | c :: r, line, acc =>
    if c == quote then .token (.string acc) r line
    else if c == '\n' || c == '\r' then .error "unterminated string literal"
    else if c == '\\' then
      match r with
      | [] => .error "unterminated string literal"
      | e :: r' =>
        match escapeLetter e with
        | some ch => readString quote r' line (acc.push ch)
        | none =>
          if e == '0' then
            if r'.head?.map Char.isDigit == some true then readString quote r' line (acc.push '0')
            else readString quote r' line (acc.push '\x00')
          else if e == 'x' then
            match h : readHex 2 r' 0 with
            | .ok (v, r'') => readString quote r'' line (acc.push (scalarOr v))
            | .error m => .error m
          else if e == 'u' then
            match h : readUnicodeEscape r' with
            | .ok (ch, r'') => readString quote r'' line (acc.push ch)
            | .error m => .error m
          else if e == '\r' then
            if r'.head? == some '\n' then readString quote r'.tail (line + 2) acc
            else readString quote r' (line + 1) acc
          else if isLineEnd e then readString quote r' (line + 1) acc
          else readString quote r' line (acc.push e)
    else readString quote r (nextLine c line) (acc.push c)
termination_by cs => cs.length
decreasing_by
  all_goals (try simp only [List.length_cons, List.length_tail] at *)
  all_goals first
    | omega
    | (have hr := readHex_rest_length h; omega)
    | (have hr := readUnicodeEscape_rest_length h; omega)

set_option linter.unusedVariables false in
/-- Reads an identifier; escapes make it a plain name whatever its spelling. -/
def readIdent : List Char → Nat → String → Bool → Scan
  | '\\' :: r, line, acc, _ =>
    match r with
    | 'u' :: r' =>
      match h : readUnicodeEscape r' with
      | .ok (ch, r'') => readIdent r'' line (acc.push ch) true
      | .error m => .error m
    | _ => .error "invalid escape in identifier"
  | c :: r, line, acc, escaped =>
    if isIdPart c then readIdent r line (acc.push c) escaped
    else identToken (c :: r) line acc escaped
  | [], line, acc, escaped => identToken [] line acc escaped
termination_by cs => cs.length
decreasing_by
  all_goals (try simp only [List.length_cons] at *)
  all_goals first
    | omega
    | (have hr := readUnicodeEscape_rest_length h; omega)
where
  /-- A keyword unless escaped or spelled otherwise. -/
  identToken (rest : List Char) (line : Nat) (word : String) (escaped : Bool) : Scan :=
    if !escaped && keywords.contains word then .token (.keyword word) rest line
    else .token (.ident word) rest line

/-- A number token, unless an identifier character or a digit follows right after it. -/
def finishNumber (x : Float) (rest : List Char) (line : Nat) : Scan :=
  match rest with
  | c :: _ =>
    if c == '\\' || isIdStart c || c.isDigit then
      .error "identifier starts immediately after numeric literal"
    else .token (.number x) rest line
  | [] => .token (.number x) rest line

/-- The radix a prefix letter after `0` selects. -/
def radixOf : Char → Option Nat
  | 'x' | 'X' => some 16
  | 'o' | 'O' => some 8
  | 'b' | 'B' => some 2
  | _ => none

/-- A decimal literal: digits, an optional point with digits, an optional exponent. -/
def readDecimalLiteral (cs : List Char) (line : Nat) : Scan :=
  let (ip, r) := spanDigits cs
  let (fp, r) := match r with
    | '.' :: r' => spanDigits r'
    | _ => ([], r)
  let mantissa := digitsValue (ip ++ fp)
  match r with
  | e :: r' =>
    if e == 'e' || e == 'E' then
      let (neg, r'') := spanSign r'
      let (ed, rest) := spanDigits r''
      if ed.isEmpty then .error "missing exponent"
      else
        let exp : Int := if neg then -(digitsValue ed : Int) else digitsValue ed
        finishNumber (ofDecimal false mantissa (exp - fp.length)) rest line
    else finishNumber (ofDecimal false mantissa (-(fp.length : Int))) r line
  | [] => finishNumber (ofDecimal false mantissa (-(fp.length : Int))) [] line

/-- A numeric literal, with or without a radix prefix. -/
def readNumber (cs : List Char) (line : Nat) : Scan :=
  match cs with
  | '0' :: p :: r =>
    match radixOf p with
    | some radix =>
      let isDigit := fun c => (digitIn radix c).isSome
      let ds := r.takeWhile isDigit
      if ds.isEmpty then .error "missing digits after radix prefix"
      else finishNumber ((readRadix radix ds).getD 0) (r.dropWhile isDigit) line
    | none => readDecimalLiteral cs line
  | _ => readDecimalLiteral cs line

/-- The longest punctuator at the front of the input. -/
def scanPunct : List Char → Option (Punct × List Char)
  | '+' :: '+' :: r => some (.plusPlus, r)
  | '+' :: '=' :: r => some (.plusEq, r)
  | '+' :: r => some (.plus, r)
  | '-' :: '-' :: r => some (.minusMinus, r)
  | '-' :: '=' :: r => some (.minusEq, r)
  | '-' :: r => some (.minus, r)
  | '*' :: '*' :: '=' :: r => some (.starStarEq, r)
  | '*' :: '*' :: r => some (.starStar, r)
  | '*' :: '=' :: r => some (.starEq, r)
  | '*' :: r => some (.star, r)
  | '/' :: '=' :: r => some (.slashEq, r)
  | '/' :: r => some (.slash, r)
  | '%' :: '=' :: r => some (.percentEq, r)
  | '%' :: r => some (.percent, r)
  | '=' :: '=' :: '=' :: r => some (.eqEqEq, r)
  | '=' :: '=' :: r => some (.eqEq, r)
  | '=' :: r => some (.eq, r)
  | '!' :: '=' :: '=' :: r => some (.bangEqEq, r)
  | '!' :: '=' :: r => some (.bangEq, r)
  | '!' :: r => some (.bang, r)
  | '<' :: '<' :: '=' :: r => some (.ltLtEq, r)
  | '<' :: '<' :: r => some (.ltLt, r)
  | '<' :: '=' :: r => some (.ltEq, r)
  | '<' :: r => some (.lt, r)
  | '>' :: '>' :: '>' :: '=' :: r => some (.gtGtGtEq, r)
  | '>' :: '>' :: '>' :: r => some (.gtGtGt, r)
  | '>' :: '>' :: '=' :: r => some (.gtGtEq, r)
  | '>' :: '>' :: r => some (.gtGt, r)
  | '>' :: '=' :: r => some (.gtEq, r)
  | '>' :: r => some (.gt, r)
  | '&' :: '&' :: r => some (.ampAmp, r)
  | '&' :: '=' :: r => some (.ampEq, r)
  | '&' :: r => some (.amp, r)
  | '|' :: '|' :: r => some (.pipePipe, r)
  | '|' :: '=' :: r => some (.pipeEq, r)
  | '|' :: r => some (.pipe, r)
  | '^' :: '=' :: r => some (.caretEq, r)
  | '^' :: r => some (.caret, r)
  | '~' :: r => some (.tilde, r)
  | '?' :: r => some (.question, r)
  | ':' :: r => some (.colon, r)
  | ';' :: r => some (.semicolon, r)
  | ',' :: r => some (.comma, r)
  | '.' :: r => some (.dot, r)
  | '(' :: r => some (.lParen, r)
  | ')' :: r => some (.rParen, r)
  | '[' :: r => some (.lBracket, r)
  | ']' :: r => some (.rBracket, r)
  | '{' :: r => some (.lBrace, r)
  | '}' :: r => some (.rBrace, r)
  | _ => none

/-- Reads the token at the front of the input, which starts with no blank or comment. -/
def scanToken (cs : List Char) (line : Nat) : Scan :=
  match cs with
  | [] => .token .eof [] line
  | c :: r =>
    if c == '\\' || isIdStart c then readIdent (c :: r) line "" false
    else if c.isDigit || (c == '.' && (r.head?.map Char.isDigit == some true)) then
      readNumber (c :: r) line
    else if c == '"' || c == '\'' then readString c r line ""
    else
      match scanPunct (c :: r) with
      | some (p, rest) => .token (.punct p) rest line
      | none => .error ("unexpected character '" ++ c.toString ++ "'")

/-- The lexemes of the input from the given line on. Each step consumes input; the guard on
the length states that for the well-founded recursion and never fails. -/
def lexemesFrom (cs : List Char) (line : Nat) : List Lexeme :=
  match skipGap .code cs line with
  | .error l => [⟨.error "unterminated comment", l, l != line⟩]
  | .ok (rest, l) =>
    let fresh := l != line
    match rest with
    | [] => [⟨.eof, l, fresh⟩]
    | c :: r =>
      match scanToken (c :: r) l with
      | .error m => [⟨.error m, l, fresh⟩]
      | .token t rest' l' =>
        if rest'.length < cs.length then ⟨t, l, fresh⟩ :: lexemesFrom rest' l'
        else [⟨.eof, l, fresh⟩]
termination_by cs.length

/-- The lexemes of a source text, starting on line 1. -/
def lexemes (source : String) : List Lexeme :=
  lexemesFrom source.toList 1

end EmbedScript.Syntax
