import EmbedScript.Engine.Control

/-!
Evaluation is written one level of nesting at a time. An `Evaluator` holds the operations
that a step may run one level deeper: statements, expressions, the next round of a loop, calls
and the next queued finalizer. Each step of evaluation is a function of the evaluator for the
level below, and `Evaluator.ofFuel` stacks the levels; so every step is an ordinary
definition, and all unbounded recursion passes through the one structural recursion on fuel.
-/

namespace EmbedScript

open EmbedScript.Syntax

/-- The operations evaluation may run one level deeper. -/
structure Evaluator where
  /-- Runs a statement. -/
  execStmt : Stmt → Flow Completion
  /-- Evaluates an expression, pushing exactly one value when it finishes. -/
  evalExpr : Expr → Flow Unit
  /-- The next round of a `while` loop. -/
  execWhile : Expr → Stmt → Flow Completion
  /-- The next round of a `do-while` loop. -/
  execDoWhile : Stmt → Expr → Flow Completion
  /-- The next round of a `for` loop. -/
  execFor : Option Expr → Option Expr → Stmt → Flow Completion
  /-- Calls the function below a receiver and so many arguments; a flag asks for a
  construction. -/
  invoke : Nat → Bool → Flow Unit
  /-- Runs the queued finalizers, given how many have run. -/
  finalizeQueued : Nat → Api Nat

namespace Evaluator

/-- The evaluator with no level left: everything is exhausted. -/
def exhausted : Evaluator where
  execStmt _ := throw .exhausted
  evalExpr _ := throw .exhausted
  execWhile _ _ := throw .exhausted
  execDoWhile _ _ := throw .exhausted
  execFor _ _ _ := throw .exhausted
  invoke _ _ := throw .exhausted
  finalizeQueued _ := throw .exhausted

variable (d : Evaluator)

/-- Evaluates an expression and takes its value off the stack. -/
def evalPop (x : Expr) : Flow Value := do
  d.evalExpr x
  popValue

/-- Evaluates an assignment target, leaving its object, if any, on the stack. -/
def evalRef : Expr → Flow Reference
  | .ident name => pure (.var name)
  | .member obj name => do
    let slot ← stackSize
    d.evalExpr obj
    pure (.property slot name)
  | .index obj key => do
    let slot ← stackSize
    d.evalExpr obj
    let k ← d.evalPop key
    pure (.property slot ((← get).propertyKey k))
  | _ => throwNew .referenceError "invalid assignment target"

/-- Assigns a value to a target expression, as a `for-in` loop does with each key. The value
is kept on the stack while the target is evaluated. -/
def assignTo (target : Expr) (v : Value) : Flow Unit := do
  let base ← stackSize
  pushValue v
  let ref ← d.evalRef target
  ref.write ((← get).getAbs base)
  modify (·.truncate base)

/-- Runs statements until one does not finish normally. -/
def execBlock : List Stmt → Flow Completion
  | [] => pure .normal
  | s :: rest => do
    let c ← d.execStmt s
    if c != .normal then return c
    execBlock rest

end Evaluator

end EmbedScript
