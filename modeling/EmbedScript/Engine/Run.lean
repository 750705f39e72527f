import EmbedScript.Engine.Statements
import EmbedScript.Engine.Expressions
import EmbedScript.Engine.Calls

/-!
The evaluator of an engine, and the operations of the stack interface that run code. The
evaluator stacks levels of evaluation on fuel: each operation runs one step on the evaluator
one level below. Every level but the last is used by a nested statement, expression or call,
a round of a loop or a finalizer, so the fuel given is far beyond what the depth limits and any
loop that ends in practice can use.
-/

namespace EmbedScript

namespace Evaluator

/-- The evaluator with `fuel` levels; with none left everything is exhausted. -/
def ofFuel : Nat → Evaluator
  | 0 => exhausted
  | n + 1 =>
    { execStmt := fun s => withNesting ((ofFuel n).execStmtKind s)
      evalExpr := fun x => withNesting ((ofFuel n).evalExprKind x)
      execWhile := fun t b => (ofFuel n).whileRound t b
      execDoWhile := fun b t => (ofFuel n).doWhileRound b t
      execFor := fun t u b => (ofFuel n).forRound t u b
      invoke := fun k c => (ofFuel n).invokeStep k c
      finalizeQueued := fun count => (ofFuel n).finalizeRound count }

/-- The fuel of every evaluation. -/
def standardFuel : Nat := Nat.pow 2 62

def standard : Evaluator := ofFuel standardFuel

end Evaluator

namespace Api

def evalString (src : String) : Api Unit := Evaluator.standard.evalString src

def pevalString (src : String) : Api Unit := Evaluator.standard.pevalString src

def call (nargs : Nat) : Api Unit := Evaluator.standard.call nargs

def pcall (nargs : Nat) : Api Unit := Evaluator.standard.pcall nargs

def callMethod (nargs : Nat) : Api Unit := Evaluator.standard.callMethod nargs

def pcallMethod (nargs : Nat) : Api Unit := Evaluator.standard.pcallMethod nargs

def callProp (i : Int) (key : String) (nargs : Nat) : Api Unit :=
  Evaluator.standard.callProp i key nargs

def pcallProp (i : Int) (key : String) (nargs : Nat) : Api Unit :=
  Evaluator.standard.pcallProp i key nargs

def gc : Api CollectStats := Evaluator.standard.collectGarbage

/-- Evaluates source text to a function of one parameter and calls it with a proxy for a
method suite. A value that is no such function is popped and reported as a mismatch. -/
def evalWith (src : String) (suite : MethodSuite) : Api Unit := do
  evalString src
  let e ← get
  let callee := e.stack.back?.getD .undefined
  let found : Option String := match (e.objectOf? callee).bind HeapObject.function? with
    | none => some (e.typeOf callee)
    | some (.closure defn _) =>
      if defn.params.length == 1 then none
      else some ("function of " ++ toString defn.params.length ++ " parameters")
    | some _ => none
  if let some found := found then
    discard popValue
    fail (.typeMismatch "function of one parameter" found)
  discard (pushMethodSuite suite)
  call 1

end Api

/-- Allocates the constructor of a kind of error and records it under the kind's name. -/
def Heap.allocConstructor (acc : List (String × Value) × Heap) (kind : ErrorKind) :
    List (String × Value) × Heap :=
  let (id, h) := acc.2.alloc { kind := .function (.host kind.name (.errorConstructor kind) (.fixed 1)) }
  (acc.1 ++ [(kind.name, Value.object id)], h)

/-- A fresh engine: a global object holding `undefined`, `NaN`, `Infinity` and a constructor
for each kind of error, and an empty stack. The tally of the counting host functions is kept
from outside. -/
def Engine.fresh (config : Config) (tally : Int) : Engine :=
  let (global, heap) := ({} : Heap).alloc { kind := .plain }
  let (constructors, heap) := ErrorKind.all.foldl Heap.allocConstructor ([], heap)
  let globals : List (String × Value) :=
    [("undefined", .undefined), ("NaN", .number Number.nan), ("Infinity", .number Number.infinity)]
  let table := (globals ++ constructors).foldl (fun t (kv : String × Value) => t.set kv.1 kv.2)
    ({} : PropertyTable)
  let heap := heap.modify global fun o => { o with properties := table }
  { heap, stack := #[], bottom := 0, registry := {}, global, scopes := #[], hostFrames := #[],
    finalizeQueue := #[], completionSlot := none, callDepth := 0, nesting := 0, config, tally }

end EmbedScript
