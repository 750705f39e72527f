import EmbedScript.Engine.Evaluator

/-!
One step of running a statement. A statement leaves the stack as it found it, except that a
`return` leaves its value on top. Loops run one round per step and hand the next round to the
level below; `for-in` and `switch` keep their object or discriminant in a hidden slot, which
they remove from under a pending return value.
-/

namespace EmbedScript

open EmbedScript.Syntax

namespace Evaluator

variable (d : Evaluator)

def execDeclarations : List (String × Option Expr) → Flow Unit
  | [] => pure ()
  | (name, init) :: rest => do
    if let some x := init then
      let v ← d.evalPop x
      modify (·.assignVar name v)
    execDeclarations rest

/-- Runs a loop body; gives the completion that ends the loop, if any. -/
def execLoopBody (body : Stmt) : Flow (Option Completion) := do
  match ← d.execStmt body with
  | .breaking => pure (some .normal)
  | .returning => pure (some .returning)
  | _ => pure none

/-- One round of a `while` loop: the test, then the body. -/
def whileRound (test : Expr) (body : Stmt) : Flow Completion := do
  let t ← d.evalPop test
  if !t.truthy then return .normal
  match ← d.execLoopBody body with
  | some exit => pure exit
  | none => d.execWhile test body

/-- One round of a `do-while` loop: the body, then the test. -/
def doWhileRound (body : Stmt) (test : Expr) : Flow Completion := do
  match ← d.execLoopBody body with
  | some exit => pure exit
  | none =>
    let t ← d.evalPop test
    if t.truthy then d.execDoWhile body test else pure .normal

/-- One round of a `for` loop: the test, the body, then the update. -/
def forRound (test update : Option Expr) (body : Stmt) : Flow Completion := do
  if let some x := test then
    let t ← d.evalPop x
    if !t.truthy then return .normal
  match ← d.execLoopBody body with
  | some exit => pure exit
  | none =>
    if let some u := update then discard (d.evalPop u)
    d.execFor test update body

/-- Visits the keys a `for-in` loop took at its start; a key the object lost meanwhile is
skipped. -/
def forInKeys (target : ForInTarget) (object : Value) (body : Stmt) :
    List String → Flow Completion
  | [] => pure .normal
  | key :: rest => do
    let e ← get
    if object.objectId?.any (fun id => !e.objectHas id key) then
      forInKeys target object body rest
    else
      match target with
      | .var name => modify (·.assignVar name (.string key))
      | .expr x => d.assignTo x (.string key)
      match ← d.execLoopBody body with
      | some exit => pure exit
      | none => forInKeys target object body rest

def execForIn (target : ForInTarget) (obj : Expr) (body : Stmt) : Flow Completion := do
  let slot ← stackSize
  d.evalExpr obj
  let object ← topValue
  let keys := (← get).ownKeys object
  let r ← attempt (d.forInKeys target object body keys)
  match r with
  | .ok .returning => modify (·.removeAbs slot)
  | .ok _ => modify (·.truncate slot)
  | .error _ => pure ()
  resume r

/-- The position of the first case whose test is strictly equal to the discriminant in the
stack slot; the tests are evaluated in order up to it. -/
def findCase (slot : Nat) : List (Option Expr × List Stmt) → Nat → Flow (Option Nat)
  | [], _ => pure none
  | (some test, _) :: rest, i => do
    let v ← d.evalPop test
    if strictEquals ((← get).getAbs slot) v then return some i
    findCase slot rest (i + 1)
  | (none, _) :: rest, i => findCase slot rest (i + 1)

/-- Runs case bodies in order, falling through while they finish normally. -/
def runCases : List (Option Expr × List Stmt) → Flow Completion
  | [] => pure .normal
  | (_, body) :: rest => do
    let c ← d.execBlock body
    if c != .normal then return c
    runCases rest

/-- A switch runs the bodies from the first matching case, else from the default clause. -/
def execSwitch (disc : Expr) (cases : List (Option Expr × List Stmt)) : Flow Completion := do
  let slot ← stackSize
  d.evalExpr disc
  let found ← d.findCase slot cases 0
  let start := found <|> cases.findIdx? (·.1.isNone)
  let c ← match start with
    | some s => d.runCases (cases.drop s)
    | none => pure .normal
  if c == .returning then modify (·.removeAbs slot) else modify (·.truncate slot)
  pure (if c == .breaking then .normal else c)

/-- Runs a catch clause in a scope that binds its parameter to the exception. -/
def catchWith (base : Nat) (exception : Value) (param : Option String) (body : List Stmt) :
    Flow (Except Value Completion) := do
  modify (·.truncate base)
  let e ← get
  let props : PropertyTable := match param with
    | some p => ({} : PropertyTable).set p exception
    | none => {}
  let scope ← allocObject { kind := .scope e.currentScope e.thisValue, properties := props }
  modify fun e => { e with scopes := e.scopes.push (some scope) }
  let r ← attempt (d.execBlock body)
  modify fun e => { e with scopes := e.scopes.pop }
  pure r

/-- Runs a try block and, if it throws, the catch clause; gives how they ended. -/
def tryCatch (base : Nat) (block : List Stmt) (handler : Option (Option String × List Stmt)) :
    Flow (Except Value Completion) := do
  let r ← attempt (d.execBlock block)
  match r, handler with
  | .error exception, some (param, body) => d.catchWith base exception param body
  | r, _ => pure r

/-- Runs a finally block. A pending return value or exception is kept in the slot where the
statement started; a finally block that does not finish normally discards it and wins. -/
def runFinally (base : Nat) (r : Except Value Completion) (finBody : List Stmt) :
    Flow Completion := do
  let pending ← match r with
    | .ok .returning => pure true
    | .error exception => do
      modify fun e => (e.truncate base).push exception
      pure true
    | .ok _ => pure false
  let c ← d.execBlock finBody
  if c != .normal then
    if pending then modify (·.removeAbs base)
    return c
  match r with
  | .error _ => throw (.thrown (← popValue))
  | .ok c => pure c

/-- A try statement: the block, the catch clause, then the finally block. -/
def execTry (block : List Stmt) (handler : Option (Option String × List Stmt))
    (fin : Option (List Stmt)) : Flow Completion := do
  let base ← stackSize
  let r ← d.tryCatch base block handler
  match fin with
  | none => resume r
  | some finBody => d.runFinally base r finBody

/-- One step of running a statement. The value of an expression statement goes to the
completion slot of global code, if there is one. -/
def execStmtKind : Stmt → Flow Completion
  | .empty => pure .normal
  | .expr x => do
    let v ← d.evalPop x
    if let some slot := (← get).completionSlot then modify (·.setAbs slot v)
    pure .normal
  | .var decls => do
    d.execDeclarations decls
    pure .normal
  | .block body => d.execBlock body
  | .ifStmt test yes no => do
    let t ← d.evalPop test
    if t.truthy then d.execStmt yes
    else
      match no with
      | some s => d.execStmt s
      | none => pure .normal
  | .whileStmt test body => d.execWhile test body
  | .doWhile body test => d.execDoWhile body test
  | .forStmt init test update body => do
    match init with
    | some (.var decls) => d.execDeclarations decls
    | some (.expr x) => discard (d.evalPop x)
    | none => pure ()
    d.execFor test update body
  | .forIn target obj body => d.execForIn target obj body
  | .switch disc cases => d.execSwitch disc cases
  | .breakStmt => pure .breaking
  | .continueStmt => pure .continuing
  | .returnStmt v => do
    match v with
    | some x => d.evalExpr x
    | none => pushValue .undefined
    pure .returning
  | .throwStmt x => do
    let v ← d.evalPop x
    throw (.thrown v)
  | .tryStmt block handler fin => d.execTry block handler fin

end Evaluator

end EmbedScript
