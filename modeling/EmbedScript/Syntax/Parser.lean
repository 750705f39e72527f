import EmbedScript.Syntax.Lexer
import EmbedScript.Syntax.Ast

/-!
Recursive-descent parsing of lexemes into a program. Statements end with a semicolon, or
without one before `}`, at the end of input or after a line break. Binary operators bind by
eleven levels of precedence, `**` to the right. Every statement and every assignment-level
expression counts one level of nesting, and chains of operators, calls and member accesses
count one more per link; past 128 levels the input is refused. `var` names and function
declarations are collected per function, as the evaluator hoists them.

The rules of the grammar are stacked in levels of native recursion: a rule calls the rules
of the level below it, and its loops run inside its own activation for a bounded number of
rounds. `parseProgram` gives a constant number of levels and one round more than the input has
lexemes; neither ever runs out.
-/

namespace EmbedScript.Syntax

/-- A syntax error: what was wrong and the line of the lexeme where it was found. -/
structure ParseError where
  message : String
  line : Nat
  deriving Repr, DecidableEq

/-- The text of a syntax error. -/
def ParseError.text (e : ParseError) : String :=
  e.message ++ " (line " ++ toString e.line ++ ")"

/-- The most levels of nesting a program may use. -/
def maxNesting : Nat := 128

/-- What the parser collects about the function whose body it is in. -/
structure FunctionScope where
  varNames : Array String := #[]
  functions : Array FunctionDef := #[]
  loopDepth : Nat := 0
  breakableDepth : Nat := 0
  usesArguments : Bool := false

/-- The parser's position and context. The lexeme list always ends with an end-of-input or
error lexeme, which is never consumed. -/
structure ParseState where
  tokens : List Lexeme
  scopes : List FunctionScope
  allowIn : Bool
  depth : Nat

/-- Why parsing stopped: a syntax error, or no level of recursion or round of a loop left. -/
inductive ParseFailure where
  | invalid (e : ParseError)
  | exhausted

abbrev Parser := StateT ParseState (Except ParseFailure)

namespace Parser

/-- The lexeme at the front. -/
def current : Parser Lexeme := do
  match (← get).tokens with
  | t :: _ => pure t
  | [] => pure ⟨.eof, 1, false⟩

/-- Moves past the current lexeme, keeping the last one. -/
def advance : Parser Lexeme := do
  let t ← current
  modify fun s => match s.tokens with
    | _ :: rest@(_ :: _) => { s with tokens := rest }
    | _ => s
  pure t

def isPunct (p : Punct) : Token → Bool
  | .punct q => q == p
  | _ => false

def isKeyword (w : String) : Token → Bool
  | .keyword v => v == w
  | _ => false

def isEof : Token → Bool
  | .eof => true
  | _ => false

/-- The current token satisfies the test. -/
def check (test : Token → Bool) : Parser Bool := do
  pure (test (← current).token)

/-- Consumes the current lexeme if its token satisfies the test. -/
def eat (test : Token → Bool) : Parser Bool := do
  if ← check test then
    let _ ← advance
    pure true
  else pure false

def errorAt {α : Type} (line : Nat) (message : String) : Parser α :=
  throw (.invalid ⟨message, line⟩)

/-- An error at the current lexeme. -/
def error {α : Type} (message : String) : Parser α := do
  errorAt (← current).line message

/-- The error for a lexeme the grammar does not allow here. -/
def unexpected {α : Type} : Parser α := do
  let t ← current
  match t.token with
  | .error message => errorAt t.line message
  | .eof => errorAt t.line "unexpected end of input"
  | tok => errorAt t.line ("unexpected token " ++ tok.describe)

def expect (test : Token → Bool) : Parser Unit := do
  unless ← eat test do unexpected

def expectPunct (p : Punct) : Parser Unit := expect (isPunct p)

def eatPunct (p : Punct) : Parser Bool := eat (isPunct p)

def checkPunct (p : Punct) : Parser Bool := check (isPunct p)

/-- An identifier, consumed. -/
def expectIdent : Parser String := do
  match (← current).token with
  | .ident name =>
    let _ ← advance
    pure name
  | _ => unexpected

/-- A property name after a dot or in an object literal: an identifier or a keyword. -/
def expectPropertyName : Parser String := do
  match (← current).token with
  | .ident name | .keyword name =>
    let _ ← advance
    pure name
  | _ => unexpected

/-- A statement ends here: a semicolon (consumed), a closing brace, the end of input, or a
line break before the current lexeme. -/
def consumeSemicolon : Parser Unit := do
  if ← eatPunct .semicolon then return
  let t ← current
  if isPunct .rBrace t.token || isEof t.token || t.newlineBefore then return
  unexpected

def modifyScope (f : FunctionScope → FunctionScope) : Parser Unit :=
  modify fun s => match s.scopes with
    | sc :: rest => { s with scopes := f sc :: rest }
    | [] => s

def scope : Parser FunctionScope := do
  match (← get).scopes with
  | sc :: _ => pure sc
  | [] => pure {}

/-- Records a `var` name in the current function, once. -/
def declareVar (name : String) : Parser Unit :=
  modifyScope fun sc =>
    if sc.varNames.contains name then sc else { sc with varNames := sc.varNames.push name }

/-- Runs a rule with `in` allowed as an operator, restoring the setting after. -/
def withIn {α : Type} (p : Parser α) : Parser α := do
  let saved := (← get).allowIn
  modify fun s => { s with allowIn := true }
  let r ← p
  modify fun s => { s with allowIn := saved }
  pure r

/-- Refuses to go `extra` levels deeper than the limit allows. -/
def checkDepth (extra : Nat) : Parser Unit := do
  if (← get).depth + extra > maxNesting then error "nesting too deep"

/-- Runs a rule one nesting level deeper. -/
def nested {α : Type} (p : Parser α) : Parser α := do
  checkDepth 1
  modify fun s => { s with depth := s.depth + 1 }
  let r ← p
  modify fun s => { s with depth := s.depth - 1 }
  pure r

/-- Runs a rule as the body of a loop, where `break` and `continue` are allowed. -/
def inLoop {α : Type} (p : Parser α) : Parser α := do
  modifyScope fun sc =>
    { sc with loopDepth := sc.loopDepth + 1, breakableDepth := sc.breakableDepth + 1 }
  let r ← p
  modifyScope fun sc =>
    { sc with loopDepth := sc.loopDepth - 1, breakableDepth := sc.breakableDepth - 1 }
  pure r

/-- What a rule does when it has no level of recursion or no round of a loop left;
`parseProgram` gives enough of both that it never happens. -/
def exhausted {α : Type} : Parser α := throw .exhausted

/-- The operator of a compound assignment token, or none for `=`; not an assignment at all
gives `none` on the outside. -/
def assignOp : Token → Option (Option BinaryOp)
  | .punct .eq => some none
  | .punct .plusEq => some (some .add)
  | .punct .minusEq => some (some .sub)
  | .punct .starEq => some (some .mul)
  | .punct .slashEq => some (some .div)
  | .punct .percentEq => some (some .mod)
  | .punct .starStarEq => some (some .exp)
  | .punct .ltLtEq => some (some .shl)
  | .punct .gtGtEq => some (some .shr)
  | .punct .gtGtGtEq => some (some .ushr)
  | .punct .ampEq => some (some .bitAnd)
  | .punct .pipeEq => some (some .bitOr)
  | .punct .caretEq => some (some .bitXor)
  | _ => none

/-- An infix operator: short-circuit or binary. -/
inductive InfixOp where
  | logical (op : LogicalOp)
  | binary (op : BinaryOp)

/-- Precedence and operator of an infix token; `in` only where it is allowed. -/
def infixOp (allowIn : Bool) : Token → Option (Nat × InfixOp)
  | .punct .pipePipe => some (1, .logical .or)
  | .punct .ampAmp => some (2, .logical .and)
  | .punct .pipe => some (3, .binary .bitOr)
  | .punct .caret => some (4, .binary .bitXor)
  | .punct .amp => some (5, .binary .bitAnd)
  | .punct .eqEq => some (6, .binary .eq)
  | .punct .bangEq => some (6, .binary .notEq)
  | .punct .eqEqEq => some (6, .binary .strictEq)
  | .punct .bangEqEq => some (6, .binary .strictNotEq)
  | .punct .lt => some (7, .binary .lt)
  | .punct .ltEq => some (7, .binary .ltEq)
  | .punct .gt => some (7, .binary .gt)
  | .punct .gtEq => some (7, .binary .gtEq)
  | .keyword "in" => if allowIn then some (7, .binary .hasKey) else none
  | .punct .ltLt => some (8, .binary .shl)
  | .punct .gtGt => some (8, .binary .shr)
  | .punct .gtGtGt => some (8, .binary .ushr)
  | .punct .plus => some (9, .binary .add)
  | .punct .minus => some (9, .binary .sub)
  | .punct .star => some (10, .binary .mul)
  | .punct .slash => some (10, .binary .div)
  | .punct .percent => some (10, .binary .mod)
  | .punct .starStar => some (11, .binary .exp)
  | _ => none

/-- The prefix operator of a token, other than `++` and `--`. -/
def unaryOp : Token → Option UnaryOp
  | .punct .bang => some .not
  | .punct .minus => some .neg
  | .punct .plus => some .plus
  | .punct .tilde => some .bitNot
  | .keyword "typeof" => some .typeOf
  | .keyword "void" => some .void
  | .keyword "delete" => some .delete
  | _ => none

/-- Tokens that end the statements of a switch case. -/
def endsCase (t : Token) : Bool :=
  isKeyword "case" t || isKeyword "default" t || isPunct .rBrace t || isEof t

/-- What a `for-in` loop assigns to: a single declared name without initialiser, or a
reference. -/
def forInTarget : Option ForInit → Parser ForInTarget
  | some (.var [(name, none)]) => pure (.var name)
  | some (.expr e) =>
    if e.isReference then pure (.expr e) else error "invalid left-hand side in for-in"
  | _ => error "invalid left-hand side in for-in"

def isDeclKeyword (t : Token) : Bool :=
  isKeyword "var" t || isKeyword "let" t || isKeyword "const" t

/-- The rules of the grammar at one level of native recursion. Each rule runs as an activation
of its own and calls the rules of the level below; the loops of a rule run inside its
activation, each for at most a given number of rounds. -/
structure Rules where
  /-- Statements up to a token satisfying the test, which is left in place. -/
  statementsUntil : (Token → Bool) → Parser (List Stmt)
  /-- A braced block. -/
  block : Parser (List Stmt)
  statement : Parser Stmt
  statementKind : Parser Stmt
  /-- Declarators separated by commas, each recorded as a `var` name. -/
  declarations : Parser (List (String × Option Expr))
  /-- A parenthesised expression, `in` allowed inside. -/
  parenExpression : Parser Expr
  /-- A `for` or `for-in` statement, from its keyword. -/
  forStatement : Parser Stmt
  /-- The cases of a switch up to its closing brace. -/
  switchCases : Parser (List (Option Expr × List Stmt))
  /-- A try statement, from its keyword; it needs a catch clause or a finally block. -/
  tryStatement : Parser Stmt
  /-- Parameters and body of a function, from its opening parenthesis. -/
  functionRest : Option String → Bool → Parser FunctionDef
  /-- Assignment expressions separated by commas. -/
  expression : Parser Expr
  assignment : Parser Expr
  assignmentKind : Parser Expr
  conditional : Parser Expr
  /-- Operators of precedence at least the one given, left to right except for `**`. -/
  binary : Nat → Parser Expr
  unary : Parser Expr
  postfixExpr : Parser Expr
  /-- Call arguments in parentheses. -/
  arguments : Parser (List Expr)
  /-- A member access after an expression, or the expression back when none follows. -/
  memberSuffix : Expr → Parser (Except Expr Expr)
  callMember : Parser Expr
  /-- A `new` expression: its callee without calls, then optional arguments. -/
  newExpression : Parser Expr
  primary : Parser Expr
  /-- An array literal, from its opening bracket; a comma alone leaves a hole. -/
  arrayLiteral : Parser Expr
  /-- An object literal, from its opening brace; keys are strings, numbers in their text
  form, identifiers or keywords. -/
  objectLiteral : Parser Expr

namespace Rules

/-- The rules with no level of recursion left. -/
def exhausted : Rules where
  statementsUntil _ := Parser.exhausted
  block := Parser.exhausted
  statement := Parser.exhausted
  statementKind := Parser.exhausted
  declarations := Parser.exhausted
  parenExpression := Parser.exhausted
  forStatement := Parser.exhausted
  switchCases := Parser.exhausted
  tryStatement := Parser.exhausted
  functionRest _ _ := Parser.exhausted
  expression := Parser.exhausted
  assignment := Parser.exhausted
  assignmentKind := Parser.exhausted
  conditional := Parser.exhausted
  binary _ := Parser.exhausted
  unary := Parser.exhausted
  postfixExpr := Parser.exhausted
  arguments := Parser.exhausted
  memberSuffix _ := Parser.exhausted
  callMember := Parser.exhausted
  newExpression := Parser.exhausted
  primary := Parser.exhausted
  arrayLiteral := Parser.exhausted
  objectLiteral := Parser.exhausted

/-! ### The rules one level up

Each rule below is written against the rules `r` of the level below it. -/

variable (r : Rules) (rounds : Nat)

def statementsLoop (stop : Token → Bool) : Nat → Array Stmt → Parser (List Stmt)
  | 0, _ => Parser.exhausted
  | n + 1, acc => do
    if ← check stop then return acc.toList
    if ← check isEof then unexpected
    let s ← r.statement
    statementsLoop stop n (acc.push s)

def parseBlock : Parser (List Stmt) := do
  expectPunct .lBrace
  let body ← r.statementsUntil (isPunct .rBrace)
  expectPunct .rBrace
  pure body

/-- A `var`, `let` or `const` statement, from its keyword. -/
def parseVarStatement : Parser Stmt := do
  let _ ← advance
  let decls ← r.declarations
  consumeSemicolon
  return .var decls

/-- A function declaration, from its keyword: the function is recorded in the scope and an
empty statement stands in its place. -/
def parseFunctionDeclaration : Parser Stmt := do
  let _ ← advance
  let name ← expectIdent
  let defn ← r.functionRest (some name) false
  modifyScope fun sc => { sc with functions := sc.functions.push defn }
  return .empty

def parseIfStatement : Parser Stmt := do
  let _ ← advance
  let test ← r.parenExpression
  let yes ← r.statement
  let no ← if ← eat (isKeyword "else") then some <$> r.statement else pure none
  return .ifStmt test yes no

def parseWhileStatement : Parser Stmt := do
  let _ ← advance
  let test ← r.parenExpression
  let body ← inLoop r.statement
  return .whileStmt test body

def parseDoWhileStatement : Parser Stmt := do
  let _ ← advance
  let body ← inLoop r.statement
  expect (isKeyword "while")
  let test ← r.parenExpression
  let _ ← eatPunct .semicolon
  return .doWhile body test

def parseSwitchStatement : Parser Stmt := do
  let _ ← advance
  let disc ← r.parenExpression
  expectPunct .lBrace
  modifyScope fun sc => { sc with breakableDepth := sc.breakableDepth + 1 }
  let cases ← r.switchCases
  modifyScope fun sc => { sc with breakableDepth := sc.breakableDepth - 1 }
  return .switch disc cases

/-- A `break` or `continue` statement, from its keyword: allowed only where the scope's count of
enclosing statements it can leave is not zero. -/
def parseJump (enclosing : FunctionScope → Nat) (message : String) (jump : Stmt) :
    Parser Stmt := do
  let _ ← advance
  if enclosing (← scope) == 0 then error message
  consumeSemicolon
  return jump

def parseReturnStatement : Parser Stmt := do
  if (← get).scopes.length == 1 then error "return not in function"
  let _ ← advance
  let c ← current
  let value ← if isPunct .semicolon c.token || isPunct .rBrace c.token || isEof c.token ||
      c.newlineBefore then pure none else some <$> r.expression
  consumeSemicolon
  return .returnStmt value

def parseThrowStatement : Parser Stmt := do
  let _ ← advance
  if (← current).newlineBefore then error "illegal newline after throw"
  let value ← r.expression
  consumeSemicolon
  return .throwStmt value

def parseExpressionStatement : Parser Stmt := do
  let e ← r.expression
  consumeSemicolon
  return .expr e

def parseStatementKind : Parser Stmt := do
  match (← current).token with
  | .punct .lBrace => return .block (← r.block)
  | .punct .semicolon =>
    let _ ← advance
    return .empty
  | .keyword "var" | .keyword "let" | .keyword "const" => r.parseVarStatement
  | .keyword "function" => r.parseFunctionDeclaration
  | .keyword "if" => r.parseIfStatement
  | .keyword "while" => r.parseWhileStatement
  | .keyword "do" => r.parseDoWhileStatement
  | .keyword "for" => r.forStatement
  | .keyword "switch" => r.parseSwitchStatement
  | .keyword "break" => parseJump (·.breakableDepth) "illegal break statement" .breakStmt
  | .keyword "continue" => parseJump (·.loopDepth) "illegal continue statement" .continueStmt
  | .keyword "return" => r.parseReturnStatement
  | .keyword "throw" => r.parseThrowStatement
  | .keyword "try" => r.tryStatement
  | .keyword "debugger" =>
    let _ ← advance
    consumeSemicolon
    return .empty
  | _ => r.parseExpressionStatement

def declarationsLoop : Nat → Array (String × Option Expr) → Parser (List (String × Option Expr))
  | 0, _ => Parser.exhausted
  | n + 1, acc => do
    let name ← expectIdent
    declareVar name
    let init ← if ← eatPunct .eq then some <$> r.assignment else pure none
    let acc := acc.push (name, init)
    if ← eatPunct .comma then declarationsLoop n acc else pure acc.toList

def parseParenExpression : Parser Expr := do
  expectPunct .lParen
  let e ← withIn r.expression
  expectPunct .rParen
  pure e

/-- What a `for` statement starts with: nothing, declarations or an expression. -/
def parseForInit : Parser (Option ForInit) := do
  if ← checkPunct .semicolon then return none
  if ← check isDeclKeyword then
    let _ ← advance
    return some (.var (← r.declarations))
  return some (.expr (← r.expression))

/-- An expression, or none when the given punctuator comes first. -/
def optionalExpression (close : Punct) : Parser (Option Expr) := do
  if ← checkPunct close then pure none else some <$> r.expression

def parseForStatement : Parser Stmt := do
  let _ ← advance
  expectPunct .lParen
  let saved := (← get).allowIn
  modify fun s => { s with allowIn := false }
  let init ← r.parseForInit
  modify fun s => { s with allowIn := saved }
  if ← check (isKeyword "in") then
    let target ← forInTarget init
    let _ ← advance
    let obj ← withIn r.expression
    expectPunct .rParen
    let body ← inLoop r.statement
    return .forIn target obj body
  expectPunct .semicolon
  let test ← r.optionalExpression .semicolon
  expectPunct .semicolon
  let update ← r.optionalExpression .rParen
  expectPunct .rParen
  let body ← inLoop r.statement
  return .forStmt init test update body

/-- The statements of one switch case. -/
def caseBodyLoop : Nat → Array Stmt → Parser (List Stmt)
  | 0, _ => Parser.exhausted
  | n + 1, acc => do
    if ← check endsCase then return acc.toList
    let s ← r.statement
    caseBodyLoop n (acc.push s)

def switchCasesLoop : Nat → Bool → Array (Option Expr × List Stmt) →
    Parser (List (Option Expr × List Stmt))
  | 0, _, _ => Parser.exhausted
  | n + 1, seenDefault, acc => do
    if ← eatPunct .rBrace then return acc.toList
    let (test, seenDefault) ← if ← eat (isKeyword "case") then
        pure (some (← r.expression), seenDefault)
      else if ← check (isKeyword "default") then do
        if seenDefault then error "more than one default clause in switch"
        let _ ← advance
        pure (none, true)
      else unexpected
    expectPunct .colon
    let body ← r.caseBodyLoop rounds #[]
    switchCasesLoop n seenDefault (acc.push (test, body))

def parseTryStatement : Parser Stmt := do
  let _ ← advance
  let body ← r.block
  let handler ← if ← eat (isKeyword "catch") then do
      let param ← if ← eatPunct .lParen then do
          let name ← expectIdent
          expectPunct .rParen
          pure (some name)
        else pure none
      pure (some (param, ← r.block))
    else pure none
  let finalizer ← if ← eat (isKeyword "finally") then some <$> r.block else pure none
  if handler.isNone && finalizer.isNone then error "missing catch or finally after try"
  return .tryStmt body handler finalizer

/-- Parameter names up to and including the closing parenthesis. -/
def parametersLoop : Nat → Array String → Parser (List String)
  | 0, _ => Parser.exhausted
  | n + 1, acc => do
    let acc := acc.push (← expectIdent)
    if ← eatPunct .comma then parametersLoop n acc
    else
      expectPunct .rParen
      pure acc.toList

/-- The statements of a function body up to its closing brace, parsed in a scope of their own,
and the scope they filled. -/
def functionBody : Parser (List Stmt × FunctionScope) := do
  modify fun s => { s with scopes := {} :: s.scopes }
  let body ← withIn (r.statementsUntil (isPunct .rBrace))
  let sc ← scope
  modify fun s => { s with scopes := s.scopes.drop 1 }
  pure (body, sc)

def parseFunctionRest (name : Option String) (isExpression : Bool) : Parser FunctionDef := do
  expectPunct .lParen
  let params ← if ← eatPunct .rParen then pure [] else parametersLoop rounds #[]
  expectPunct .lBrace
  let (body, sc) ← r.functionBody
  expectPunct .rBrace
  pure (.mk name params body sc.varNames.toList sc.functions.toList isExpression
    sc.usesArguments)

def sequenceLoop : Nat → Array Expr → Parser (List Expr)
  | 0, _ => Parser.exhausted
  | n + 1, acc => do
    if ← eatPunct .comma then sequenceLoop n (acc.push (← r.assignment))
    else pure acc.toList

def parseExpression : Parser Expr := do
  let first ← r.assignment
  if !(← checkPunct .comma) then return first
  let rest ← r.sequenceLoop rounds #[first]
  pure (.sequence rest)

def parseAssignmentKind : Parser Expr := do
  let start := (← current).line
  let target ← r.conditional
  match assignOp (← current).token with
  | none => pure target
  | some op =>
    if !target.isReference then errorAt start "invalid assignment target"
    let _ ← advance
    let value ← r.assignment
    pure (.assign op target value)

def parseConditional : Parser Expr := do
  let test ← r.binary 1
  if !(← eatPunct .question) then return test
  let yes ← withIn r.assignment
  expectPunct .colon
  let no ← r.assignment
  pure (.conditional test yes no)

def binaryLoop (minPrec : Nat) : Nat → Expr → Nat → Parser Expr
  | 0, _, _ => Parser.exhausted
  | n + 1, left, links => do
    if ← check (isKeyword "instanceof") then error "instanceof is not supported"
    match infixOp (← get).allowIn (← current).token with
    | none => pure left
    | some (prec, op) =>
      if prec < minPrec then return left
      let _ ← advance
      let nextPrec := match op with
        | .binary .exp => prec
        | _ => prec + 1
      checkDepth (links + 1)
      let right ← nested (r.binary nextPrec)
      let combined := match op with
        | .binary b => Expr.binary b left right
        | .logical l => Expr.logical l left right
      binaryLoop minPrec n combined (links + 1)

def parseBinary (minPrec : Nat) : Parser Expr := do
  let left ← r.unary
  r.binaryLoop minPrec rounds left 0

def parseUnary : Parser Expr := do
  let t := (← current).token
  if isPunct .plusPlus t || isPunct .minusMinus t then
    let _ ← advance
    let start := (← current).line
    let target ← nested r.unary
    if !target.isReference then errorAt start "invalid update target"
    return .update (isPunct .plusPlus t) true target
  match unaryOp t with
  | some op =>
    let _ ← advance
    let operand ← nested r.unary
    pure (.unary op operand)
  | none => r.postfixExpr

def parsePostfixExpr : Parser Expr := do
  let start := (← current).line
  let e ← r.callMember
  let c ← current
  let increment ← if isPunct .plusPlus c.token && !c.newlineBefore then pure true
    else if isPunct .minusMinus c.token && !c.newlineBefore then pure false
    else return e
  if !e.isReference then errorAt start "invalid update target"
  let _ ← advance
  pure (.update increment false e)

def argumentsLoop : Nat → Array Expr → Parser (List Expr)
  | 0, _ => Parser.exhausted
  | n + 1, acc => do
    let acc := acc.push (← r.assignment)
    if ← eatPunct .comma then argumentsLoop n acc
    else
      expectPunct .rParen
      pure acc.toList

def parseArguments : Parser (List Expr) := do
  expectPunct .lParen
  withIn do
    if ← eatPunct .rParen then return []
    r.argumentsLoop rounds #[]

def parseMemberSuffix (obj : Expr) : Parser (Except Expr Expr) := do
  if ← eatPunct .dot then
    return .ok (.member obj (← expectPropertyName))
  if ← eatPunct .lBracket then
    let key ← withIn r.expression
    expectPunct .rBracket
    return .ok (.index obj key)
  pure (.error obj)

def callMemberLoop : Nat → Expr → Nat → Parser Expr
  | 0, _, _ => Parser.exhausted
  | n + 1, e, links => do
    checkDepth links
    if ← checkPunct .lParen then
      let args ← r.arguments
      return ← callMemberLoop n (.call e args) (links + 1)
    match ← r.memberSuffix e with
    | .ok e' => callMemberLoop n e' (links + 1)
    | .error e' => pure e'

def parseCallMember : Parser Expr := do
  let e ← if ← check (isKeyword "new") then r.newExpression else r.primary
  r.callMemberLoop rounds e 1

def newCalleeLoop : Nat → Expr → Nat → Parser Expr
  | 0, _, _ => Parser.exhausted
  | n + 1, e, links => do
    checkDepth links
    match ← r.memberSuffix e with
    | .ok e' => newCalleeLoop n e' (links + 1)
    | .error e' => pure e'

def parseNewExpression : Parser Expr := do
  let _ ← advance
  let callee ← if ← check (isKeyword "new") then nested r.newExpression else r.primary
  let callee ← r.newCalleeLoop rounds callee 1
  let args ← if ← checkPunct .lParen then r.arguments else pure []
  pure (.new callee args)

def parsePrimary : Parser Expr := do
  let t := (← current).token
  match t with
  | .number x =>
    let _ ← advance
    pure (.number x)
  | .string s =>
    let _ ← advance
    pure (.string s)
  | .ident name =>
    if name == "arguments" then modifyScope fun sc => { sc with usesArguments := true }
    let _ ← advance
    pure (.ident name)
  | .keyword "true" =>
    let _ ← advance
    pure (.bool true)
  | .keyword "false" =>
    let _ ← advance
    pure (.bool false)
  | .keyword "null" =>
    let _ ← advance
    pure .null
  | .keyword "this" =>
    let _ ← advance
    pure .this
  | .punct .lParen => r.parenExpression
  | .punct .lBracket => r.arrayLiteral
  | .punct .lBrace => r.objectLiteral
  | .keyword "function" =>
    let _ ← advance
    let name ← match (← current).token with
      | .ident _ => some <$> expectIdent
      | _ => pure none
    pure (.function (← r.functionRest name true))
  | _ => unexpected

def arrayLoop : Nat → Array (Option Expr) → Parser Expr
  | 0, _ => Parser.exhausted
  | n + 1, acc => do
    if ← eatPunct .rBracket then return .array acc.toList
    if ← eatPunct .comma then return ← arrayLoop n (acc.push none)
    let acc := acc.push (some (← r.assignment))
    if ← eatPunct .comma then arrayLoop n acc
    else
      expectPunct .rBracket
      pure (.array acc.toList)

def parseArrayLiteral : Parser Expr := do
  let _ ← advance
  withIn (r.arrayLoop rounds #[])

def objectLoop : Nat → Array (String × Expr) → Parser Expr
  | 0, _ => Parser.exhausted
  | n + 1, acc => do
    if ← eatPunct .rBrace then return .object acc.toList
    let key ← match (← current).token with
      | .string s =>
        let _ ← advance
        pure s
      | .number x =>
        let _ ← advance
        pure (Number.toText x)
      | _ => expectPropertyName
    expectPunct .colon
    let acc := acc.push (key, ← r.assignment)
    if ← eatPunct .comma then objectLoop n acc
    else
      expectPunct .rBrace
      pure (.object acc.toList)

def parseObjectLiteral : Parser Expr := do
  let _ ← advance
  withIn (r.objectLoop rounds #[])

/-- The rules one level above `r`, whose loops run for at most `rounds` rounds. -/
def next : Rules where
  statementsUntil stop := r.statementsLoop stop rounds #[]
  block := r.parseBlock
  statement := nested r.statementKind
  statementKind := r.parseStatementKind
  declarations := r.declarationsLoop rounds #[]
  parenExpression := r.parseParenExpression
  forStatement := r.parseForStatement
  switchCases := r.switchCasesLoop rounds rounds false #[]
  tryStatement := r.parseTryStatement
  functionRest := r.parseFunctionRest rounds
  expression := r.parseExpression rounds
  assignment := nested r.assignmentKind
  assignmentKind := r.parseAssignmentKind
  conditional := r.parseConditional
  binary := r.parseBinary rounds
  unary := r.parseUnary
  postfixExpr := r.parsePostfixExpr
  arguments := r.parseArguments rounds
  memberSuffix := r.parseMemberSuffix
  callMember := r.parseCallMember rounds
  newExpression := r.parseNewExpression rounds
  primary := r.parsePrimary
  arrayLiteral := r.parseArrayLiteral rounds
  objectLiteral := r.parseObjectLiteral rounds

/-- The rules with `levels` levels of recursion below them, whose loops run for at most
`rounds` rounds. -/
def ofLevel : Nat → Rules
  | 0 => exhausted
  | levels + 1 => (ofLevel levels).next rounds

end Rules

end Parser

/-- The levels of native recursion the parser is given: a constant, enough for every rule at
every nesting depth the limit allows. -/
def nativeLevels : Nat := 16 * (maxNesting + 1)

/-- The rules run on lexemes from the global scope: the statements up to the end of input and
the state they leave. Loops run for at most one round more than there are lexemes, since every
round consumes one. -/
def parseLexemes (toks : List Lexeme) : Except ParseFailure (List Stmt × ParseState) :=
  let rules := Parser.Rules.ofLevel (toks.length + 1) nativeLevels
  (rules.statementsUntil Parser.isEof).run ⟨toks, [{}], true, 0⟩

/-- Parses a source text into a program. Running out of levels or rounds would be reported as
the nesting error it stands in for, but never happens. -/
def parseProgram (source : String) : Except ParseError Program :=
  match parseLexemes (lexemes source) with
  | .ok (body, s) =>
    let sc := s.scopes.headD {}
    .ok ⟨body, sc.varNames.toList, sc.functions.toList⟩
  | .error (.invalid e) => .error e
  | .error .exhausted => .error ⟨"nesting too deep", 0⟩

end EmbedScript.Syntax
