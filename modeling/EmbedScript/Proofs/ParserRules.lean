import Mathlib
import EmbedScript.Proofs.ParserState

/-!
The rules of the parser keep their contracts at every level of recursion. Run from a state
whose lexemes end the input, a rule that succeeds has read lexemes off the front only, is back
at the nesting depth it started from, and has recorded in the scope of the function it is in
exactly the `var` names its statements declare outside nested functions; most rules have read
at least one lexeme. So every round of a loop reads a lexeme, and a loop with a round for each
lexeme never runs out of rounds.

Each rule goes one nesting level deeper for a sub-statement, a sub-expression or a link of a
chain only after checking that the limit of 128 allows it, and between two such steps it calls
at most eleven other rules. With twelve levels of recursion for each nesting level the limit
leaves, and the rank of the rule on top, no rule runs out of levels.
-/

namespace EmbedScript.Syntax

open Std.Do

set_option mvcgen.warning false

/-- A rule run in a scope of its own, pushed on the scopes before it and dropped after: the scopes
end as they were, and the dropped scope holds the names the rule recorded. -/
theorem Parsed.popScope {s₀ s : ParseState} {sc : FunctionScope} {names : List String}
    {b b' : Bool} (parsed : Parsed ⟨s₀.tokens, sc :: s₀.scopes, b, s₀.depth⟩ names s) :
    Parsed s₀ [] ⟨s.tokens, s.scopes.drop 1, b', s.depth⟩ ∧
      s.top.varNames = addNames sc.varNames names := by
  obtain ⟨depth, shorter, ending, outer, length, vars⟩ := parsed
  simp only [List.tail_cons] at outer
  simp only [List.length_cons] at length
  refine ⟨⟨depth, shorter, ending, ?_, ?_, ?_⟩, vars⟩
  · simp [outer]
  · simp [length]
  · simp [ParseState.top, outer]

/-! ### The steps as rules

The steps the rules are made of, specified as rules: from a ready state, each leaves the state
`Parsed` and says when it read a lexeme. -/

theorem Token.endsInput_of_isPunct {p : Punct} {t : Token} (found : Parser.isPunct p t = true) :
    t.endsInput = false := by
  cases t <;> simp_all [Parser.isPunct, Token.endsInput]

theorem Token.endsInput_of_isKeyword {w : String} {t : Token}
    (found : Parser.isKeyword w t = true) : t.endsInput = false := by
  cases t <;> simp_all [Parser.isKeyword, Token.endsInput]

namespace Parser

variable (s₀ : ParseState)

theorem advance_parsed :
    ⦃fun s => ⌜s = s₀ ∧ Ready s₀⌝⦄ advance
    ⦃⇓ t s => ⌜t = s₀.front ∧ Parsed s₀ [] s ∧ (t.token.endsInput = false → Consumed s₀ s)⌝⦄ := by
  mvcgen [advance_spec]
  obtain ⟨rfl, ready⟩ := ‹_ ∧ _›
  rintro rfl rfl
  exact ⟨rfl, .next ready, Consumed.next ready⟩

theorem eat_parsed (test : Token → Bool) :
    ⦃fun s => ⌜s = s₀ ∧ Ready s₀⌝⦄ eat test
    ⦃⇓ b s => ⌜b = test s₀.front.token ∧ Parsed s₀ [] s ∧
      (b = true → s₀.front.token.endsInput = false → Consumed s₀ s)⌝⦄ := by
  mvcgen [eat_spec]
  obtain ⟨rfl, ready⟩ := ‹_ ∧ _›
  rintro rfl rfl
  split
  · exact ⟨rfl, .next ready, fun _ => Consumed.next ready⟩
  · exact ⟨rfl, .refl ready, by simp_all⟩

theorem eatPunct_parsed (p : Punct) :
    ⦃fun s => ⌜s = s₀ ∧ Ready s₀⌝⦄ eatPunct p
    ⦃⇓ b s => ⌜b = isPunct p s₀.front.token ∧ Parsed s₀ [] s ∧ (b = true → Consumed s₀ s)⌝⦄ := by
  mvcgen [eatPunct, eat_parsed]
  all_goals casesm* _ ∧ _
  all_goals subst_vars
  case vc1 ready => exact ⟨trivial, ready⟩
  case vc2 =>
    rintro rfl parsed reads
    exact ⟨rfl, parsed, fun found => reads found (Token.endsInput_of_isPunct found)⟩

theorem expect_parsed (test : Token → Bool) :
    ⦃fun s => ⌜s = s₀ ∧ Ready s₀⌝⦄ expect test
    ⦃post⟨fun _ s => ⌜test s₀.front.token = true ∧ Parsed s₀ [] s ∧
        (s₀.front.token.endsInput = false → Consumed s₀ s)⌝,
      fun f => ⌜f ≠ .exhausted⌝⟩⦄ := by
  mvcgen [expect_spec]
  obtain ⟨rfl, ready⟩ := ‹_ ∧ _›
  rintro found rfl
  exact ⟨found, .next ready, Consumed.next ready⟩

theorem expectPunct_parsed (p : Punct) :
    ⦃fun s => ⌜s = s₀ ∧ Ready s₀⌝⦄ expectPunct p
    ⦃post⟨fun _ s => ⌜isPunct p s₀.front.token = true ∧ Parsed s₀ [] s ∧ Consumed s₀ s⌝,
      fun f => ⌜f ≠ .exhausted⌝⟩⦄ := by
  mvcgen [expectPunct, expect_parsed]
  all_goals casesm* _ ∧ _
  all_goals subst_vars
  case vc1 ready => exact ⟨trivial, ready⟩
  case vc2 =>
    intro found parsed reads
    exact ⟨found, parsed, reads (Token.endsInput_of_isPunct found)⟩

theorem expectIdent_parsed :
    ⦃fun s => ⌜s = s₀ ∧ Ready s₀⌝⦄ expectIdent
    ⦃post⟨fun name s => ⌜s₀.front.token = .ident name ∧ Parsed s₀ [] s ∧ Consumed s₀ s⌝,
      fun f => ⌜f ≠ .exhausted⌝⟩⦄ := by
  mvcgen [expectIdent_spec]
  obtain ⟨rfl, ready⟩ := ‹_ ∧ _›
  rintro found rfl
  exact ⟨found, .next ready, Consumed.next ready (by simp [found, Token.endsInput])⟩

theorem expectPropertyName_parsed :
    ⦃fun s => ⌜s = s₀ ∧ Ready s₀⌝⦄ expectPropertyName
    ⦃post⟨fun _ s => ⌜Parsed s₀ [] s ∧ Consumed s₀ s⌝, fun f => ⌜f ≠ .exhausted⌝⟩⦄ := by
  mvcgen [expectPropertyName_spec]
  obtain ⟨rfl, ready⟩ := ‹_ ∧ _›
  rintro found rfl
  refine ⟨.next ready, Consumed.next ready ?_⟩
  rcases found with found | found <;> simp [found, Token.endsInput]

theorem consumeSemicolon_parsed :
    ⦃fun s => ⌜s = s₀ ∧ Ready s₀⌝⦄ consumeSemicolon
    ⦃post⟨fun _ s => ⌜Parsed s₀ [] s⌝, fun f => ⌜f ≠ .exhausted⌝⟩⦄ := by
  mvcgen [consumeSemicolon_spec]
  obtain ⟨rfl, ready⟩ := ‹_ ∧ _›
  rintro rfl
  split
  · exact .next ready
  · exact .refl ready

theorem declareVar_parsed (name : String) :
    ⦃fun s => ⌜s = s₀ ∧ Ready s₀⌝⦄ declareVar name ⦃⇓ _ s => ⌜Parsed s₀ [name] s⌝⦄ := by
  mvcgen [declareVar_spec]
  obtain ⟨rfl, ready⟩ := ‹_ ∧ _›
  rintro rfl
  exact .withTop ready (declaring_varNames name _)

/-- A change of the function scope that keeps its `var` names, such as entering a loop. -/
theorem modifyScope_keeping (f : FunctionScope → FunctionScope)
    (keeps : ∀ sc, (f sc).varNames = sc.varNames) :
    ⦃fun s => ⌜s = s₀ ∧ Ready s₀⌝⦄ modifyScope f
    ⦃⇓ _ s => ⌜Parsed s₀ [] s ∧ s.front = s₀.front⌝⦄ := by
  mvcgen [modifyScope_spec]
  obtain ⟨rfl, ready⟩ := ‹_ ∧ _›
  rintro rfl
  exact ⟨.withTop ready (by simp [keeps]), by simp [ParseState.front]⟩

end Parser

/-! ### The names a statement declares -/

/-- The names a `for` loop's start declares. -/
def ForInit.declaredNames : Option ForInit → List String
  | some (.var decls) => decls.map Prod.fst
  | _ => []

/-- The name a `for-in` loop declares for its keys. -/
def ForInTarget.declaredNames : ForInTarget → List String
  | .var name => [name]
  | .expr _ => []

mutual

/-- The names `var`, `let` and `const` declare in a statement, in order, outside the bodies of
nested functions. -/
def Stmt.declaredNames : Stmt → List String
  | .var decls => decls.map Prod.fst
  | .block body => declaredNamesOf body
  | .ifStmt _ yes no => yes.declaredNames ++ (match no with
    | some s => s.declaredNames
    | none => [])
  | .whileStmt _ body => body.declaredNames
  | .doWhile body _ => body.declaredNames
  | .forStmt init _ _ body => ForInit.declaredNames init ++ body.declaredNames
  | .forIn target _ body => target.declaredNames ++ body.declaredNames
  | .switch _ cases => casesDeclaredNames cases
  | .tryStmt block handler fin =>
    declaredNamesOf block ++ (match handler with
      | some (_, body) => declaredNamesOf body
      | none => []) ++ (match fin with
      | some body => declaredNamesOf body
      | none => [])
  | .empty | .expr _ | .breakStmt | .continueStmt | .returnStmt _ | .throwStmt _ => []

/-- The names a list of statements declares. -/
def declaredNamesOf : List Stmt → List String
  | [] => []
  | s :: rest => s.declaredNames ++ declaredNamesOf rest

/-- The names the bodies of switch cases declare. -/
def casesDeclaredNames : List (Option Expr × List Stmt) → List String
  | [] => []
  | (_, body) :: rest => declaredNamesOf body ++ casesDeclaredNames rest

end

@[simp] theorem declaredNamesOf_nil : declaredNamesOf [] = [] := rfl

@[simp] theorem declaredNamesOf_cons (s : Stmt) (rest : List Stmt) :
    declaredNamesOf (s :: rest) = s.declaredNames ++ declaredNamesOf rest := rfl

@[simp] theorem casesDeclaredNames_nil : casesDeclaredNames [] = [] := rfl

@[simp] theorem casesDeclaredNames_cons (case : Option Expr × List Stmt)
    (rest : List (Option Expr × List Stmt)) :
    casesDeclaredNames (case :: rest) = declaredNamesOf case.2 ++ casesDeclaredNames rest := rfl

theorem declaredNamesOf_append (ss ss' : List Stmt) :
    declaredNamesOf (ss ++ ss') = declaredNamesOf ss ++ declaredNamesOf ss' := by
  induction ss with
  | nil => rfl
  | cons s rest ih => simp [ih]

/-! ### Room to run -/

/-- Room for a rule of rank `rank` from `s`, with `levels` levels of recursion and `rounds` rounds
for each loop: the nesting depth is within the limit, the levels cover twelve for every nesting
level the limit leaves and the rank of the rule, and each loop has a round for every lexeme
left. -/
def Headroom (rank levels rounds : Nat) (s : ParseState) : Prop :=
  s.depth ≤ maxNesting ∧ 12 * (maxNesting - s.depth) + rank < levels ∧ s.tokens.length < rounds

namespace Headroom

variable {rank rank' levels rounds : Nat} {s₀ s : ParseState} {names : List String}

/-- A rule calls a rule of lower rank at the same depth one level down. -/
theorem lower (room : Headroom rank (levels + 1) rounds s₀) (ranked : rank' < rank)
    (parsed : Parsed s₀ names s) : Headroom rank' levels rounds s := by
  obtain ⟨inside, enough, counted⟩ := room
  have fewer := parsed.shorter
  refine ⟨parsed.depth ▸ inside, ?_, by omega⟩
  rw [parsed.depth]
  omega

/-- A rule calls a rule one nesting level deeper one level down, when the limit allows it. -/
theorem deeper (room : Headroom rank (levels + 1) rounds s₀) (ranked : rank' < rank + 12)
    (depth : s.depth = s₀.depth + 1) (allowed : s.depth ≤ maxNesting)
    (fewer : s.tokens.length ≤ s₀.tokens.length) : Headroom rank' levels rounds s := by
  obtain ⟨inside, enough, counted⟩ := room
  refine ⟨allowed, ?_, by omega⟩
  rw [depth]
  unfold maxNesting at *
  omega

@[simp] theorem withTop_iff {f : FunctionScope → FunctionScope} :
    Headroom rank levels rounds (s.withTop f) ↔ Headroom rank levels rounds s := by
  simp [Headroom]

/-- Room is kept by a rule that succeeded. -/
theorem after (room : Headroom rank levels rounds s₀) (parsed : Parsed s₀ names s) :
    Headroom rank levels rounds s := by
  obtain ⟨inside, enough, counted⟩ := room
  have fewer := parsed.shorter
  exact ⟨parsed.depth ▸ inside, parsed.depth ▸ enough, by omega⟩

end Headroom

/-! ### The contracts of one level -/

namespace Parser.Rules

/-- `p` keeps the contract of a rule of rank `rank`, with `levels` levels of recursion and
`rounds` rounds for each loop: run from a ready state, if it succeeds it leaves the state
`Parsed`, with the names its result declares recorded, having read at least one lexeme; with
room for its rank it never runs out. -/
abbrev Keeps {α : Type} (p : Parser α) (names : α → List String) (rank levels rounds : Nat) :
    Prop :=
  ∀ s₀, ⦃fun s => ⌜s = s₀ ∧ Ready s₀⌝⦄ p
    ⦃post⟨fun a s => ⌜Parsed s₀ (names a) s ∧ Consumed s₀ s⌝,
      fun f => ⌜Headroom rank levels rounds s₀ → f ≠ .exhausted⌝⟩⦄

theorem Keeps.triple {α : Type} {p : Parser α} {names : α → List String} {rank levels rounds : Nat}
    (keeps : Keeps p names rank levels rounds) (s₀ : ParseState) :
    ⦃fun s => ⌜s = s₀ ∧ Ready s₀⌝⦄ p
    ⦃post⟨fun a s => ⌜Parsed s₀ (names a) s ∧ Consumed s₀ s⌝,
      fun f => ⌜Headroom rank levels rounds s₀ → f ≠ .exhausted⌝⟩⦄ :=
  keeps s₀

/-- The contracts the rules of one level keep, with `levels` levels of recursion and `rounds`
rounds for each loop. The ranks count the rules a rule may call, one below the other, before one
of them goes a nesting level deeper. Expressions record no names: the names a function literal
declares belong to its own scope. -/
structure Sound (r : Rules) (levels rounds : Nat) : Prop where
  /-- A list of statements may be empty, so it need not read a lexeme. -/
  statementsUntil : ∀ stop s₀, ⦃fun s => ⌜s = s₀ ∧ Ready s₀⌝⦄ r.statementsUntil stop
    ⦃post⟨fun body s => ⌜Parsed s₀ (declaredNamesOf body) s⌝,
      fun f => ⌜Headroom 1 levels rounds s₀ → f ≠ .exhausted⌝⟩⦄
  block : Keeps r.block declaredNamesOf 2 levels rounds
  statement : Keeps r.statement Stmt.declaredNames 0 levels rounds
  statementKind : Keeps r.statementKind Stmt.declaredNames 4 levels rounds
  declarations : Keeps r.declarations (List.map Prod.fst) 1 levels rounds
  parenExpression : Keeps r.parenExpression (fun _ => []) 2 levels rounds
  forStatement : Keeps r.forStatement Stmt.declaredNames 2 levels rounds
  switchCases : Keeps r.switchCases casesDeclaredNames 2 levels rounds
  tryStatement : Keeps r.tryStatement Stmt.declaredNames 3 levels rounds
  /-- A function's body is parsed in a scope of its own, which collects the body's names. -/
  functionRest : ∀ name isExpression s₀, ⦃fun s => ⌜s = s₀ ∧ Ready s₀⌝⦄
    r.functionRest name isExpression
    ⦃post⟨fun defn s => ⌜Parsed s₀ [] s ∧ Consumed s₀ s ∧
        defn.varNames = (addNames #[] (declaredNamesOf defn.body)).toList⌝,
      fun f => ⌜Headroom 2 levels rounds s₀ → f ≠ .exhausted⌝⟩⦄
  expression : Keeps r.expression (fun _ => []) 1 levels rounds
  assignment : Keeps r.assignment (fun _ => []) 0 levels rounds
  assignmentKind : Keeps r.assignmentKind (fun _ => []) 10 levels rounds
  conditional : Keeps r.conditional (fun _ => []) 9 levels rounds
  binary : ∀ minPrec, Keeps (r.binary minPrec) (fun _ => []) 8 levels rounds
  unary : Keeps r.unary (fun _ => []) 7 levels rounds
  postfixExpr : Keeps r.postfixExpr (fun _ => []) 6 levels rounds
  arguments : Keeps r.arguments (fun _ => []) 1 levels rounds
  /-- A member access reads at least its dot or bracket; none leaves the state alone. -/
  memberSuffix : ∀ obj s₀, ⦃fun s => ⌜s = s₀ ∧ Ready s₀⌝⦄ r.memberSuffix obj
    ⦃post⟨fun found s => ⌜Parsed s₀ [] s ∧ (found.isOk → Consumed s₀ s)⌝,
      fun f => ⌜Headroom 2 levels rounds s₀ → f ≠ .exhausted⌝⟩⦄
  callMember : Keeps r.callMember (fun _ => []) 5 levels rounds
  newExpression : Keeps r.newExpression (fun _ => []) 4 levels rounds
  primary : Keeps r.primary (fun _ => []) 3 levels rounds
  arrayLiteral : Keeps r.arrayLiteral (fun _ => []) 1 levels rounds
  objectLiteral : Keeps r.objectLiteral (fun _ => []) 1 levels rounds

/-- A rule run one nesting level deeper, when the limit allows it, keeps its contract one level
of recursion up, where it may be called from twelve ranks higher. -/
theorem Keeps.nested {α : Type} {p : Parser α} {names : α → List String}
    {rank' levels rounds : Nat} (rank : Nat) (keeps : Keeps p names rank' levels rounds)
    (ranked : rank' < rank + 12) : Keeps (nested p) names rank (levels + 1) rounds := by
  intro s₀
  have inner := keeps.triple
  mvcgen [Parser.nested, checkDepth_spec, inner]
  all_goals clear inner keeps
  all_goals try simp +zetaDelta only [parsed_iff, ready_iff, Consumed, Headroom, ParseState.top_mk] at *
  all_goals (casesm* _ ∧ _; subst_vars)
  all_goals first
    | exact ⟨trivial, by assumption, by omega⟩
    | exact fun invalid _ => invalid
    | (intro sub room; exact sub (by unfold maxNesting at *; omega))
    | simp_all

/-- With no level left every rule runs out at once, and no rule has room. -/
theorem sound_exhausted (rounds : Nat) : exhausted.Sound 0 rounds := by
  constructor <;> (try simp only [Keeps]) <;> intros <;> mvcgen [exhausted, Parser.exhausted_spec] <;>
    simp_all [Headroom]

/-! ### The rules one level up -/

/-- The target of a `for-in` loop declares the names its start declared. -/
theorem forInTarget_spec (init : Option ForInit) (s₀ : ParseState) :
    ⦃fun s => ⌜s = s₀⌝⦄ forInTarget init
    ⦃post⟨fun target s => ⌜s = s₀ ∧ target.declaredNames = ForInit.declaredNames init⌝,
      fun f => ⌜f ≠ .exhausted⌝⟩⦄ := by
  mvcgen [forInTarget, error_spec] <;>
    simp_all [ForInTarget.declaredNames, ForInit.declaredNames]

/-- Parameter names up to the closing parenthesis, which it reads. -/
theorem parametersLoop_spec (n : Nat) (acc : Array String) (s₀ : ParseState) :
    ⦃fun s => ⌜s = s₀ ∧ Ready s₀⌝⦄ parametersLoop n acc
    ⦃post⟨fun _ s => ⌜Parsed s₀ [] s ∧ Consumed s₀ s⌝,
      fun f => ⌜s₀.tokens.length < n → f ≠ .exhausted⌝⟩⦄ := by
  induction n generalizing acc s₀ with
  | zero => mvcgen [parametersLoop, exhausted_spec] <;> simp_all
  | succ n ih =>
    mvcgen [parametersLoop, expectIdent_parsed, eatPunct_parsed, expectPunct_parsed, ih]
    all_goals clear ih
    all_goals try simp +zetaDelta only [parsed_iff, ready_iff, Consumed] at *
    all_goals (casesm* _ ∧ _; subst_vars; try simp only at *)
    all_goals first
      | exact ⟨trivial, by assumption, by omega⟩
      | exact fun invalid _ => invalid
      | (intro sub fuel; exact sub (by omega))
      | (simp_all +zetaDelta; omega)

section Next

variable {r : Rules} {levels rounds : Nat} (h : r.Sound levels rounds)
include h

theorem Sound.statementsLoop_spec (stop : Token → Bool) (n : Nat) (acc : Array Stmt)
    (s₀ : ParseState) :
    ⦃fun s => ⌜s = s₀ ∧ Ready s₀⌝⦄ r.statementsLoop stop n acc
    ⦃post⟨fun body s => ⌜∃ rest, body = acc.toList ++ rest ∧ Parsed s₀ (declaredNamesOf rest) s⌝,
      fun f => ⌜Headroom 1 (levels + 1) rounds s₀ → s₀.tokens.length < n → f ≠ .exhausted⌝⟩⦄ := by
  -- each round reads a statement, so the rounds left stay above the lexemes left
  induction n generalizing acc s₀ with
  | zero =>
    mvcgen [statementsLoop, exhausted_spec] <;> simp_all
  | succ n ih =>
    have statement := h.statement.triple
    mvcgen [statementsLoop, check_spec, unexpected_spec, statement, ih]
    all_goals casesm* _ ∧ _
    all_goals subst_vars
    case vc1 => exact ⟨[], by simp, .refl ‹_›⟩
    case vc7 => exact fun invalid _ _ => invalid
    case vc8 => exact ⟨trivial, ‹_›⟩
    case vc9 => exact ⟨trivial, ‹Parsed _ _ _›.ready ‹_›⟩
    case vc10 _ st _ _ _ first _ _ _ _ =>
      rintro ⟨rest, rfl, parsed⟩
      exact ⟨st :: rest, by simp, by simpa using first.trans parsed⟩
    case vc11 =>
      intro later room fuel
      have consumed : Consumed _ _ := ‹_›
      exact later (room.after ‹Parsed _ _ _›) (by unfold Consumed at consumed; omega)
    case vc12 =>
      intro sub room _
      exact sub (room.lower (by decide) (.refl ‹_›))

theorem Sound.parseBlock_spec : Keeps r.parseBlock declaredNamesOf 2 (levels + 1) rounds := by
  intro s₀
  have statementsUntil := h.statementsUntil
  mvcgen [parseBlock, expectPunct_parsed, statementsUntil]
  all_goals clear statementsUntil h
  all_goals try simp +zetaDelta only [parsed_iff, ready_iff, Consumed, Headroom] at *
  all_goals (casesm* _ ∧ _; subst_vars)
  all_goals first
    | exact ⟨trivial, by assumption, by omega⟩
    | exact fun invalid _ => invalid
    | (intro sub room; exact sub (by omega))
    | exact ⟨⟨by omega, by omega, by assumption, by simp only [*], by omega,
        by simp [*]⟩, by omega⟩

theorem Sound.declarationsLoop_spec (n : Nat) (acc : Array (String × Option Expr))
    (s₀ : ParseState) :
    ⦃fun s => ⌜s = s₀ ∧ Ready s₀⌝⦄ r.declarationsLoop n acc
    ⦃post⟨fun decls s => ⌜∃ rest, decls = acc.toList ++ rest ∧
        Parsed s₀ (rest.map Prod.fst) s ∧ Consumed s₀ s⌝,
      fun f => ⌜Headroom 1 (levels + 1) rounds s₀ → s₀.tokens.length < n → f ≠ .exhausted⌝⟩⦄ := by
  induction n generalizing acc s₀ with
  | zero => mvcgen [declarationsLoop, exhausted_spec] <;> simp_all
  | succ n ih =>
    have assignment := h.assignment.triple
    mvcgen [declarationsLoop, expectIdent_parsed, declareVar_parsed, eatPunct_parsed, assignment,
      ih]
    all_goals clear assignment ih h
    all_goals try simp +zetaDelta only [parsed_iff, ready_iff, Consumed, Headroom] at *
    all_goals (casesm* _ ∧ _, ∃ _, _; subst_vars)
    all_goals first
      | (intro sub room fuel; exact sub (by omega) (by omega))
      | (intro sub room _; exact sub (by omega))
      | (intros; (try casesm* _ ∧ _, ∃ _, _); subst_vars
         simp_all +zetaDelta <;> omega)

theorem Sound.parseParenExpression_spec :
    Keeps r.parseParenExpression (fun _ => []) 2 (levels + 1) rounds := by
  intro s₀
  have expression := h.expression.triple
  mvcgen [parseParenExpression, expectPunct_parsed, withIn, expression]
  all_goals clear expression h
  all_goals try simp +zetaDelta only [parsed_iff, ready_iff, Consumed, Headroom, ParseState.top_mk,
      ParseState.front_mk] at *
  all_goals (casesm* _ ∧ _; subst_vars)
  all_goals first
    | exact ⟨trivial, by assumption, by omega⟩
    | exact fun invalid _ => invalid
    | (intro sub room; exact sub (by omega))
    | exact ⟨⟨by omega, by omega, by assumption, by simp only [*], by omega,
        by simp [*]⟩, by omega⟩

theorem Sound.parseForInit_spec (s₀ : ParseState) :
    ⦃fun s => ⌜s = s₀ ∧ Ready s₀⌝⦄ r.parseForInit
    ⦃post⟨fun init s => ⌜Parsed s₀ (ForInit.declaredNames init) s⌝,
      fun f => ⌜Headroom 2 (levels + 1) rounds s₀ → f ≠ .exhausted⌝⟩⦄ := by
  have declarations := h.declarations.triple
  have expression := h.expression.triple
  mvcgen [parseForInit, checkPunct_spec, check_spec, advance_parsed, declarations, expression]
  all_goals clear declarations expression h
  all_goals try simp +zetaDelta only [parsed_iff, ready_iff, Consumed, Headroom] at *
  all_goals (casesm* _ ∧ _; subst_vars)
  all_goals first
    | exact ⟨trivial, by assumption, by omega⟩
    | exact fun invalid _ => invalid
    | (intro sub room; exact sub (by omega))
    | (simp_all +zetaDelta [ForInit.declaredNames] <;> omega)

theorem Sound.optionalExpression_spec (close : Punct) (s₀ : ParseState) :
    ⦃fun s => ⌜s = s₀ ∧ Ready s₀⌝⦄ r.optionalExpression close
    ⦃post⟨fun _ s => ⌜Parsed s₀ [] s⌝,
      fun f => ⌜Headroom 2 (levels + 1) rounds s₀ → f ≠ .exhausted⌝⟩⦄ := by
  have expression := h.expression.triple
  mvcgen [optionalExpression, checkPunct_spec, expression]
  all_goals clear expression h
  all_goals try simp +zetaDelta only [parsed_iff, ready_iff, Consumed, Headroom] at *
  all_goals (casesm* _ ∧ _; subst_vars)
  all_goals first
    | exact ⟨trivial, by assumption, by omega⟩
    | exact fun invalid _ => invalid
    | (intro sub room; exact sub (by omega))
    | simp_all +zetaDelta

theorem Sound.parseForStatement_spec :
    Keeps r.parseForStatement Stmt.declaredNames 2 (levels + 1) rounds := by
  intro s₀
  have forInit := h.parseForInit_spec
  have optionalExpression := h.optionalExpression_spec
  have expression := h.expression.triple
  have statement := h.statement.triple
  mvcgen [parseForStatement, advance_parsed, expectPunct_parsed, forInit, check_spec,
    forInTarget_spec, withIn, expression, inLoop, modifyScope_keeping, statement,
    optionalExpression]
  all_goals clear forInit optionalExpression expression statement h
  all_goals try simp +zetaDelta only [parsed_iff, ready_iff, Consumed, Headroom, ParseState.top_mk,
      ParseState.front_mk] at *
  all_goals (casesm* _ ∧ _; subst_vars; try simp only at *)
  all_goals first
    | exact ⟨trivial, by assumption, by omega⟩
    | exact fun invalid _ => invalid
    | (intro sub room; exact sub (by omega))
    | exact ⟨⟨by omega, by omega, by assumption, by simp only [*], by omega,
        by simp [*, addNames_append, Stmt.declaredNames, ForInit.declaredNames]⟩, by omega⟩
    | simp_all +zetaDelta [ForInit.declaredNames]

theorem Sound.caseBodyLoop_spec (n : Nat) (acc : Array Stmt) (s₀ : ParseState) :
    ⦃fun s => ⌜s = s₀ ∧ Ready s₀⌝⦄ r.caseBodyLoop n acc
    ⦃post⟨fun body s => ⌜∃ rest, body = acc.toList ++ rest ∧ Parsed s₀ (declaredNamesOf rest) s⌝,
      fun f => ⌜Headroom 2 (levels + 1) rounds s₀ → s₀.tokens.length < n → f ≠ .exhausted⌝⟩⦄ := by
  induction n generalizing acc s₀ with
  | zero => mvcgen [caseBodyLoop, exhausted_spec] <;> simp_all
  | succ n ih =>
    have statement := h.statement.triple
    mvcgen [caseBodyLoop, check_spec, statement, ih]
    all_goals clear statement ih h
    all_goals try simp +zetaDelta only [parsed_iff, ready_iff, Consumed, Headroom] at *
    all_goals (casesm* _ ∧ _; subst_vars; try simp only at *)
    all_goals first
      | exact ⟨trivial, by assumption, by omega⟩
      | exact fun invalid _ _ => invalid
      | (intro sub room fuel; exact sub (by omega) (by omega))
      | (intro sub room _; exact sub (by omega))
      | (intros; (try casesm* _ ∧ _, ∃ _, _); subst_vars
         simp_all +zetaDelta [addNames_append] <;> omega)

theorem Sound.switchCasesLoop_spec (n : Nat) (seenDefault : Bool)
    (acc : Array (Option Expr × List Stmt)) (s₀ : ParseState) :
    ⦃fun s => ⌜s = s₀ ∧ Ready s₀⌝⦄ r.switchCasesLoop rounds n seenDefault acc
    ⦃post⟨fun cases s => ⌜∃ rest, cases = acc.toList ++ rest ∧
        Parsed s₀ (casesDeclaredNames rest) s ∧ Consumed s₀ s⌝,
      fun f => ⌜Headroom 2 (levels + 1) rounds s₀ → s₀.tokens.length < n → f ≠ .exhausted⌝⟩⦄ := by
  induction n generalizing seenDefault acc s₀ with
  | zero => mvcgen [switchCasesLoop, exhausted_spec] <;> simp_all
  | succ n ih =>
    have expression := h.expression.triple
    have caseBody := h.caseBodyLoop_spec
    mvcgen [switchCasesLoop, eatPunct_parsed, eat_parsed, expression, check_spec, error_spec,
      advance_parsed, unexpected_spec, expectPunct_parsed, caseBody, ih]
    all_goals clear expression caseBody ih h
    all_goals try simp +zetaDelta only [parsed_iff, ready_iff, Consumed, Headroom] at *
    all_goals (casesm* _ ∧ _; subst_vars; try simp only at *)
    all_goals first
      | exact ⟨trivial, by assumption, by omega⟩
      | exact fun invalid _ _ => invalid
      | (intro sub room fuel; exact sub (by omega) (by omega))
      | (intro sub room _; exact sub (by omega))
      | (intros; (try casesm* _ ∧ _, ∃ _, _); subst_vars
         simp_all +zetaDelta [addNames_append] <;> omega)

theorem Sound.parseTryStatement_spec :
    Keeps r.parseTryStatement Stmt.declaredNames 3 (levels + 1) rounds := by
  intro s₀
  have block := h.block.triple
  mvcgen [parseTryStatement, advance_parsed, block, eat_parsed, eatPunct_parsed,
    expectIdent_parsed, expectPunct_parsed, error_spec]
  all_goals clear block h
  all_goals try simp +zetaDelta only [parsed_iff, ready_iff, Consumed, Headroom] at *
  all_goals (casesm* _ ∧ _; subst_vars; try simp only at *)
  all_goals first
    | exact ⟨trivial, by assumption, by omega⟩
    | exact fun invalid _ => invalid
    | (intro sub room; exact sub (by omega))
    | exact ⟨⟨by omega, by omega, by assumption, by simp only [*], by omega,
        by simp [*, addNames_append, Stmt.declaredNames]⟩, by omega⟩

theorem Sound.functionBody_spec (s₀ : ParseState) :
    ⦃fun s => ⌜s = s₀ ∧ Ready s₀⌝⦄ r.functionBody
    ⦃post⟨fun result s => ⌜Parsed s₀ [] s ∧
        result.2.varNames = addNames #[] (declaredNamesOf result.1)⌝,
      fun f => ⌜Headroom 2 (levels + 1) rounds s₀ → f ≠ .exhausted⌝⟩⦄ := by
  have statementsUntil := h.statementsUntil
  mvcgen [functionBody, withIn, statementsUntil, scope_spec]
  all_goals clear statementsUntil h
  all_goals (casesm* _ ∧ _; subst_vars; simp +zetaDelta only [ParseState.top_mk] at *)
  case vc1 ready => exact ⟨trivial, ready.ending, by simp⟩
  case vc2 => simpa using Parsed.popScope ‹Parsed _ _ _›
  case vc3 =>
    intro sub room
    exact sub (by simp only [Headroom] at *; omega)

/-- A function's parameters and body; the definition keeps the names its body declares. -/
theorem Sound.parseFunctionRest_spec (name : Option String) (isExpression : Bool)
    (s₀ : ParseState) :
    ⦃fun s => ⌜s = s₀ ∧ Ready s₀⌝⦄ r.parseFunctionRest rounds name isExpression
    ⦃post⟨fun defn s => ⌜Parsed s₀ [] s ∧ Consumed s₀ s ∧
        defn.varNames = (addNames #[] (declaredNamesOf defn.body)).toList⌝,
      fun f => ⌜Headroom 2 (levels + 1) rounds s₀ → f ≠ .exhausted⌝⟩⦄ := by
  have functionBody := h.functionBody_spec
  mvcgen [parseFunctionRest, expectPunct_parsed, eatPunct_parsed, parametersLoop_spec,
    functionBody]
  all_goals clear functionBody h
  all_goals try simp +zetaDelta only [parsed_iff, ready_iff, Consumed, Headroom] at *
  all_goals (casesm* _ ∧ _; subst_vars; try simp only at *)
  all_goals first
    | exact ⟨trivial, by assumption, by omega⟩
    | exact fun invalid _ => invalid
    | (intro sub room; exact sub (by omega))
    | exact ⟨⟨by omega, by omega, by assumption, by simp only [*], by omega, by simp [*]⟩, by omega,
        by simp [*, FunctionDef.varNames, FunctionDef.body]⟩

end Next

/-- A `break` or `continue` statement, from its keyword, which it reads. -/
theorem parseJump_spec (enclosing : FunctionScope → Nat) (message : String) (jump : Stmt)
    (s₀ : ParseState) :
    ⦃fun s => ⌜s = s₀ ∧ Ready s₀ ∧ s₀.front.token.endsInput = false⌝⦄
    parseJump enclosing message jump
    ⦃post⟨fun st s => ⌜st = jump ∧ Parsed s₀ [] s ∧ Consumed s₀ s⌝, fun f => ⌜f ≠ .exhausted⌝⟩⦄ := by
  mvcgen [parseJump, advance_parsed, scope_spec, error_spec, consumeSemicolon_parsed]
  all_goals try simp +zetaDelta only [parsed_iff, ready_iff, Consumed] at *
  all_goals (casesm* _ ∧ _; subst_vars)
  all_goals first
    | exact ⟨trivial, by assumption, by omega⟩
    | exact fun invalid _ => invalid
    | (simp_all; omega)

section Branches

variable {r : Rules} {levels rounds : Nat} (h : r.Sound levels rounds)
include h

theorem Sound.parseIfStatement_spec :
    Keeps r.parseIfStatement Stmt.declaredNames 4 (levels + 1) rounds := by
  intro s₀
  have parenExpression := h.parenExpression.triple
  have statement := h.statement.triple
  mvcgen [parseIfStatement, advance_parsed, parenExpression, statement, eat_parsed]
  all_goals clear parenExpression statement h
  all_goals try simp +zetaDelta only [parsed_iff, ready_iff, Consumed, Headroom] at *
  all_goals (casesm* _ ∧ _; subst_vars)
  all_goals first
    | exact ⟨trivial, by assumption, by omega⟩
    | exact fun invalid _ => invalid
    | (intro sub room; exact sub (by omega))
    | exact ⟨⟨by omega, by omega, by assumption, by simp only [*], by omega,
        by simp [*, addNames_append, Stmt.declaredNames]⟩, by omega⟩

theorem Sound.parseVarStatement_spec :
    Keeps r.parseVarStatement Stmt.declaredNames 4 (levels + 1) rounds := by
  intro s₀
  have declarations := h.declarations.triple
  mvcgen [parseVarStatement, advance_parsed, declarations, consumeSemicolon_parsed]
  all_goals clear declarations h
  all_goals try simp +zetaDelta only [parsed_iff, ready_iff, Consumed, Headroom] at *
  all_goals (casesm* _ ∧ _; subst_vars)
  all_goals first
    | exact ⟨trivial, by assumption, by omega⟩
    | exact fun invalid _ => invalid
    | (intro sub room; exact sub (by omega))
    | exact ⟨⟨by omega, by omega, by assumption, by simp only [*], by omega,
        by simp [*, Stmt.declaredNames]⟩, by omega⟩

theorem Sound.parseWhileStatement_spec :
    Keeps r.parseWhileStatement Stmt.declaredNames 4 (levels + 1) rounds := by
  intro s₀
  have parenExpression := h.parenExpression.triple
  have statement := h.statement.triple
  mvcgen [parseWhileStatement, advance_parsed, parenExpression, inLoop, modifyScope_keeping, statement]
  all_goals clear parenExpression statement h
  all_goals try simp +zetaDelta only [parsed_iff, ready_iff, Consumed, Headroom] at *
  all_goals (casesm* _ ∧ _; subst_vars)
  all_goals first
    | exact ⟨trivial, by assumption, by omega⟩
    | exact fun invalid _ => invalid
    | (intro sub room; exact sub (by omega))
    | exact ⟨⟨by omega, by omega, by assumption, by simp only [*], by omega,
        by simp [*, Stmt.declaredNames]⟩, by omega⟩
    | simp_all

theorem Sound.parseDoWhileStatement_spec :
    Keeps r.parseDoWhileStatement Stmt.declaredNames 4 (levels + 1) rounds := by
  intro s₀
  have parenExpression := h.parenExpression.triple
  have statement := h.statement.triple
  mvcgen [parseDoWhileStatement, advance_parsed, inLoop, modifyScope_keeping, statement, expect_parsed,
    parenExpression, eatPunct_parsed]
  all_goals clear parenExpression statement h
  all_goals try simp +zetaDelta only [parsed_iff, ready_iff, Consumed, Headroom] at *
  all_goals (casesm* _ ∧ _; subst_vars)
  all_goals first
    | exact ⟨trivial, by assumption, by omega⟩
    | exact fun invalid _ => invalid
    | (intro sub room; exact sub (by omega))
    | exact ⟨⟨by omega, by omega, by assumption, by simp only [*], by omega,
        by simp [*, Stmt.declaredNames]⟩, by omega⟩
    | simp_all

theorem Sound.parseSwitchStatement_spec :
    Keeps r.parseSwitchStatement Stmt.declaredNames 4 (levels + 1) rounds := by
  intro s₀
  have parenExpression := h.parenExpression.triple
  have switchCases := h.switchCases.triple
  mvcgen [parseSwitchStatement, advance_parsed, parenExpression, expectPunct_parsed,
    modifyScope_keeping, switchCases]
  all_goals clear parenExpression switchCases h
  all_goals try simp +zetaDelta only [parsed_iff, ready_iff, Consumed, Headroom] at *
  all_goals (casesm* _ ∧ _; subst_vars)
  all_goals first
    | exact ⟨trivial, by assumption, by omega⟩
    | exact fun invalid _ => invalid
    | (intro sub room; exact sub (by omega))
    | exact ⟨⟨by omega, by omega, by assumption, by simp only [*], by omega,
        by simp [*, Stmt.declaredNames]⟩, by omega⟩
    | simp_all

theorem Sound.parseThrowStatement_spec :
    Keeps r.parseThrowStatement Stmt.declaredNames 4 (levels + 1) rounds := by
  intro s₀
  have expression := h.expression.triple
  mvcgen [parseThrowStatement, advance_parsed, current_spec, error_spec, expression,
    consumeSemicolon_parsed]
  all_goals clear expression h
  all_goals try simp +zetaDelta only [parsed_iff, ready_iff, Consumed, Headroom] at *
  all_goals (casesm* _ ∧ _; subst_vars)
  all_goals first
    | exact ⟨trivial, by assumption, by omega⟩
    | exact fun invalid _ => invalid
    | (intro sub room; exact sub (by omega))
    | exact ⟨⟨by omega, by omega, by assumption, by simp only [*], by omega,
        by simp [*, Stmt.declaredNames]⟩, by omega⟩

theorem Sound.parseExpressionStatement_spec :
    Keeps r.parseExpressionStatement Stmt.declaredNames 4 (levels + 1) rounds := by
  intro s₀
  have expression := h.expression.triple
  mvcgen [parseExpressionStatement, expression, consumeSemicolon_parsed]
  all_goals clear expression h
  all_goals try simp +zetaDelta only [parsed_iff, ready_iff, Consumed, Headroom] at *
  all_goals (casesm* _ ∧ _; subst_vars)
  all_goals first
    | exact ⟨trivial, by assumption, by omega⟩
    | exact fun invalid _ => invalid
    | (intro sub room; exact sub (by omega))
    | exact ⟨⟨by omega, by omega, by assumption, by simp only [*], by omega,
        by simp [*, Stmt.declaredNames]⟩, by omega⟩

theorem Sound.parseFunctionDeclaration_spec :
    Keeps r.parseFunctionDeclaration Stmt.declaredNames 4 (levels + 1) rounds := by
  intro s₀
  have functionRest := h.functionRest
  mvcgen [parseFunctionDeclaration, advance_parsed, expectIdent_parsed, functionRest,
    modifyScope_keeping]
  all_goals clear functionRest h
  all_goals try simp +zetaDelta only [parsed_iff, ready_iff, Consumed, Headroom] at *
  all_goals (casesm* _ ∧ _; subst_vars)
  all_goals first
    | exact ⟨trivial, by assumption, by omega⟩
    | exact fun invalid _ => invalid
    | (intro sub room; exact sub (by omega))
    | exact ⟨⟨by omega, by omega, by assumption, by simp only [*], by omega,
        by simp [*, Stmt.declaredNames]⟩, by omega⟩
    | simp_all

/-- A `return` statement, from its keyword, which it reads. -/
theorem Sound.parseReturnStatement_spec (s₀ : ParseState) :
    ⦃fun s => ⌜s = s₀ ∧ Ready s₀ ∧ s₀.front.token.endsInput = false⌝⦄ r.parseReturnStatement
    ⦃post⟨fun st s => ⌜Parsed s₀ st.declaredNames s ∧ Consumed s₀ s⌝,
      fun f => ⌜Headroom 4 (levels + 1) rounds s₀ → f ≠ .exhausted⌝⟩⦄ := by
  have expression := h.expression.triple
  mvcgen [parseReturnStatement, error_spec, advance_parsed, current_spec, expression,
    consumeSemicolon_parsed]
  all_goals clear expression h
  all_goals try simp +zetaDelta only [parsed_iff, ready_iff, Consumed, Headroom] at *
  all_goals (casesm* _ ∧ _; subst_vars)
  all_goals first
    | exact ⟨trivial, by assumption, by omega⟩
    | exact fun invalid _ => invalid
    | (intro sub room; exact sub (by omega))
    | exact ⟨⟨by omega, by omega, by assumption, by simp only [*], by omega,
        by simp [*, Stmt.declaredNames]⟩, by omega⟩
    | (simp_all [Stmt.declaredNames]; omega)

theorem Sound.parseStatementKind_spec :
    Keeps r.parseStatementKind Stmt.declaredNames 4 (levels + 1) rounds := by
  intro s₀
  have block := h.block.triple
  have forStatement := h.forStatement.triple
  have tryStatement := h.tryStatement.triple
  have varStatement := h.parseVarStatement_spec.triple
  have functionDeclaration := h.parseFunctionDeclaration_spec.triple
  have ifStatement := h.parseIfStatement_spec.triple
  have whileStatement := h.parseWhileStatement_spec.triple
  have doWhileStatement := h.parseDoWhileStatement_spec.triple
  have switchStatement := h.parseSwitchStatement_spec.triple
  have returnStatement := h.parseReturnStatement_spec
  have throwStatement := h.parseThrowStatement_spec.triple
  have expressionStatement := h.parseExpressionStatement_spec.triple
  mvcgen [parseStatementKind, current_spec, block, advance_parsed, varStatement,
    functionDeclaration, ifStatement, whileStatement, doWhileStatement, forStatement,
    switchStatement, parseJump_spec, returnStatement, throwStatement, tryStatement,
    consumeSemicolon_parsed, expressionStatement]
  all_goals
    clear block forStatement tryStatement varStatement functionDeclaration ifStatement
      whileStatement doWhileStatement switchStatement returnStatement throwStatement
      expressionStatement h
  all_goals try simp +zetaDelta only [parsed_iff, ready_iff, Consumed, Headroom] at *
  all_goals (casesm* _ ∧ _; subst_vars)
  all_goals first
    | exact ⟨trivial, by assumption, by omega⟩
    | exact fun invalid _ => invalid
    | (intro sub room; exact sub (by omega))
    | exact ⟨⟨by omega, by omega, by assumption, by simp only [*], by omega,
        by simp [*, Stmt.declaredNames]⟩, by omega⟩
    | (simp_all [Stmt.declaredNames, Token.endsInput] <;> omega)

end Branches


end Parser.Rules

end EmbedScript.Syntax
