import Mathlib
import EmbedScript.Proofs.ParserExpressions

/-!
The parser's recursion is bounded by a constant. Every rule of a level calls the rules of the
level below it, and the levels are built up from one where every rule runs out at once; each
level keeps the contracts of its rules when the one below does. The parser is given a constant
number of levels, sixteen for each nesting level the limit of 128 allows, and as many rounds for
its loops as there are lexemes: from the start of a program this leaves room for every rule, so
the parser never runs out, whatever the length of its input. It ends with a program or with a
syntax error that one of its rules found, among them the nesting error of the limit.

A run that succeeds records, in the scope it ran in, the names its statements declare, each
once and in the order they first occur.
-/

namespace EmbedScript.Syntax.Parser.Rules

open Std.Do

set_option mvcgen.warning false

variable {r : Rules} {levels rounds : Nat} (h : r.Sound levels rounds)
include h

/-! ### The loops started afresh -/

theorem Sound.statementsLoop_start (stop : Token → Bool) (s₀ : ParseState) :
    ⦃fun s => ⌜s = s₀ ∧ Ready s₀⌝⦄ r.statementsLoop stop rounds #[]
    ⦃post⟨fun body s => ⌜Parsed s₀ (declaredNamesOf body) s⌝,
      fun f => ⌜Headroom 1 (levels + 1) rounds s₀ → f ≠ .exhausted⌝⟩⦄ := by
  have loop := h.statementsLoop_spec stop rounds #[] s₀
  mvcgen [loop]
  · rintro ⟨rest, rfl, parsed⟩
    simpa using parsed
  · intro sub room
    exact sub room room.2.2

theorem Sound.declarationsLoop_start :
    Keeps (r.declarationsLoop rounds #[]) (List.map Prod.fst) 1 (levels + 1) rounds := by
  intro s₀
  have loop := h.declarationsLoop_spec rounds #[] s₀
  mvcgen [loop]
  · rintro ⟨rest, rfl, parsed, consumed⟩
    simpa using And.intro parsed consumed
  · intro sub room
    exact sub room room.2.2

theorem Sound.switchCasesLoop_start :
    Keeps (r.switchCasesLoop rounds rounds false #[]) casesDeclaredNames 2 (levels + 1) rounds := by
  intro s₀
  have loop := h.switchCasesLoop_spec rounds false #[] s₀
  mvcgen [loop]
  · rintro ⟨rest, rfl, parsed, consumed⟩
    simpa using And.intro parsed consumed
  · intro sub room
    exact sub room room.2.2

/-! ### One level up -/

/-- The rules one level up keep their contracts when the rules they call do. A rule that
recurses into the rule it is part of, a statement in a statement or an assignment in an
assignment, goes one nesting level deeper to do so. -/
theorem Sound.next : (r.next rounds).Sound (levels + 1) rounds where
  statementsUntil := h.statementsLoop_start
  block := h.parseBlock_spec
  statement := h.statementKind.nested 0 (by decide)
  statementKind := h.parseStatementKind_spec
  declarations := h.declarationsLoop_start
  parenExpression := h.parseParenExpression_spec
  forStatement := h.parseForStatement_spec
  switchCases := h.switchCasesLoop_start
  tryStatement := h.parseTryStatement_spec
  functionRest := h.parseFunctionRest_spec
  expression := h.parseExpression_spec
  assignment := h.assignmentKind.nested 0 (by decide)
  assignmentKind := h.parseAssignmentKind_spec
  conditional := h.parseConditional_spec
  binary := h.parseBinary_spec
  unary := h.parseUnary_spec
  postfixExpr := h.parsePostfixExpr_spec
  arguments := h.parseArguments_spec
  memberSuffix := h.parseMemberSuffix_spec
  callMember := h.parseCallMember_spec
  newExpression := h.parseNewExpression_spec
  primary := h.parsePrimary_spec
  arrayLiteral := h.parseArrayLiteral_spec
  objectLiteral := h.parseObjectLiteral_spec

omit h

/-- The rules with any number of levels below them keep their contracts. -/
theorem sound_ofLevel (rounds : Nat) : ∀ levels, (ofLevel rounds levels).Sound levels rounds
  | 0 => sound_exhausted rounds
  | levels + 1 => (sound_ofLevel rounds levels).next

end EmbedScript.Syntax.Parser.Rules

namespace EmbedScript.Syntax

open Std.Do EmbedScript.Syntax.Parser EmbedScript.Syntax.Parser.Rules

/-! ### The parser never runs out -/

/-- The state the parser starts a program from. -/
theorem ready_start {toks : List Lexeme} (ending : Ending toks) :
    Ready ⟨toks, [{}], true, 0⟩ :=
  ⟨ending, by simp⟩

/-- From the start of a program every rule has room: the nesting depth is 0, the levels are
those of all 128 nesting levels and some, and the rounds are one more than the lexemes. -/
theorem headroom_start (toks : List Lexeme) :
    Headroom 1 nativeLevels (toks.length + 1) ⟨toks, [{}], true, 0⟩ := by
  simp [Headroom, nativeLevels, maxNesting]

/-- What a run of the parser over lexemes that end the input comes to: the statements it read
and the scope it leaves, which holds the names they declare; and no failure is the parser running
out of levels or rounds. -/
theorem parseLexemes_spec {toks : List Lexeme} (ending : Ending toks) :
    match parseLexemes toks with
    | .ok (body, s) => Parsed ⟨toks, [{}], true, 0⟩ (declaredNamesOf body) s
    | .error f => f ≠ .exhausted := by
  have sound := sound_ofLevel (toks.length + 1) nativeLevels
  have run := (triple_iff_run _ _ _ _).mp (sound.statementsUntil isEof ⟨toks, [{}], true, 0⟩)
    ⟨toks, [{}], true, 0⟩ ⟨rfl, ready_start ending⟩
  dsimp only [parseLexemes]
  split <;> rename_i found <;> rw [found] at run
  · exact run
  · exact run (headroom_start toks)

/-- The parser's recursion is bounded by a constant: given the levels of recursion of all 128
nesting levels, sixteen each, and a round for each lexeme, it never runs out, whatever the source
text and however long it is. Deep nesting ends in the nesting error of the limit instead. -/
theorem parser_recursion_bounded (source : String) :
    parseLexemes (lexemes source) ≠ .error .exhausted := by
  have spec := parseLexemes_spec (lexemes_ending source)
  intro exhausted
  rw [exhausted] at spec
  exact spec rfl

/-! ### The names a program declares -/

/-- A program the parser accepts records as its `var` names those its statements declare outside
the bodies of nested functions, each once, in the order they first occur. -/
theorem parseProgram_varNames {source : String} {prog : Program}
    (accepted : parseProgram source = .ok prog) :
    prog.varNames = (declaredNamesOf prog.body).eraseDups := by
  have spec := parseLexemes_spec (lexemes_ending source)
  unfold parseProgram at accepted
  split at accepted
  · rename_i body s found
    rw [found] at spec
    cases accepted
    have vars : s.top.varNames = addNames #[] (declaredNamesOf body) := spec.vars
    rw [← addNames_empty_toList, ← vars]
    rfl
  · cases accepted
  · cases accepted

/-- A function the parser's function rule accepts, at any level and from any state it can run
from, records as its `var` names those its body declares outside nested function bodies, each
once, in the order they first occur. -/
theorem functionRest_varNames {rounds levels : Nat} {name : Option String} {isExpression : Bool}
    {s s' : ParseState} {defn : FunctionDef} (ready : Ready s)
    (accepted : ((ofLevel rounds levels).functionRest name isExpression).run s = .ok (defn, s')) :
    defn.varNames = (declaredNamesOf defn.body).eraseDups := by
  have run := (triple_iff_run _ _ _ _).mp
    ((sound_ofLevel rounds levels).functionRest name isExpression s) s ⟨rfl, ready⟩
  rw [accepted] at run
  rw [run.2.2, addNames_empty_toList]

end EmbedScript.Syntax
