import EmbedScript.Engine.Interface
import EmbedScript.Syntax.Ast

/-!
Control of evaluation: how statements finish, what an assignment writes to, and how thrown
values are caught and passed on again. Every intermediate value of an expression is kept on
the value stack while code that can collect is running, so references name stack slots rather
than holding objects.
-/

namespace EmbedScript

open EmbedScript.Syntax

/-- How a statement finishes; a returned value is on top of the stack. -/
inductive Completion where
  | normal
  | returning
  | breaking
  | continuing
  deriving DecidableEq, Repr

/-- An assignment target: a variable, or a property of the object held in a stack slot. -/
inductive Reference where
  | var (name : String)
  | property (slot : Nat) (key : String)

/-- The message of every depth limit. -/
def stackExceeded : String := "maximum call stack size exceeded"

/-- Runs script code and gives what it throws as a result; exhaustion passes on. -/
def attempt {α : Type} (f : Flow α) : Flow (Except Value α) := ExceptT.mk do
  match ← f.run with
  | .ok a => pure (.ok (.ok a))
  | .error (.thrown v) => pure (.ok (.error v))
  | .error .exhausted => pure (.error .exhausted)

/-- Finishes with a caught outcome: its value, or its exception thrown again. -/
def resume {α : Type} : Except Value α → Flow α
  | .ok a => pure a
  | .error v => throw (.thrown v)

/-- Runs script code one native level deeper; at the nesting limit it throws a range error. -/
def withNesting {α : Type} (act : Flow α) : Flow α := do
  if (← get).nesting ≥ maxNesting then throwNew .rangeError stackExceeded
  modify fun e => { e with nesting := e.nesting + 1 }
  let r ← attempt act
  modify fun e => { e with nesting := e.nesting - 1 }
  resume r

/-- Runs script code for the stack interface and gives what it throws as a result. -/
def Flow.catchThrown {α : Type} (f : Flow α) : Api (Except Value α) := ExceptT.mk do
  match ← f.run with
  | .ok a => pure (.ok (.ok a))
  | .error (.thrown v) => pure (.ok (.error v))
  | .error .exhausted => pure (.error .exhausted)

/-- Runs an interface operation inside script code and gives its error as a result. -/
def Api.capture {α : Type} (act : Api α) : Flow (Except Error α) := ExceptT.mk do
  match ← act.run with
  | .ok a => pure (.ok (.ok a))
  | .error (.error err) => pure (.ok (.error err))
  | .error .exhausted => pure (.error .exhausted)

/-- Runs an interface operation and drops its error. -/
def Api.ignoreError (act : Api Unit) : Api Unit := ExceptT.mk do
  match ← act.run with
  | .error .exhausted => pure (.error .exhausted)
  | _ => pure (.ok ())

/-- Pushes a thrown value and fails with the script error it reports. -/
def Api.raise {α : Type} (exception : Value) : Api α := do
  let err := (← get).scriptErrorOf exception
  pushValue exception
  fail (.script err)

/-- The value a reference names. -/
def Reference.read : Reference → Flow Value
  | .var name => do
    match (← get).lookupVar name with
    | some v => pure v
    | none => throwNew .referenceError (name ++ " is not defined")
  | .property slot key => do getProperty ((← get).getAbs slot) key

/-- Writes through a reference. -/
def Reference.write : Reference → Value → Flow Unit
  | .var name, v => modify (·.assignVar name v)
  | .property slot key, v => do putProperty ((← get).getAbs slot) key v

/-- Deletes a property of a value and pushes whether it is gone; primitives always agree. -/
def deleteProperty (target : Value) (key : String) : Flow Unit := do
  match target with
  | .undefined | .null =>
    let what := (← get).display target
    throwNew .typeError ("cannot delete property '" ++ key ++ "' of " ++ what)
  | .object id =>
    let (gone, e) := (← get).objectDelete id key
    set e
    pushValue (.bool gone)
  | _ => pushValue (.bool true)

/-- How a call names its callee in a type error. -/
def Syntax.Expr.calleeName : Expr → String
  | .ident name => name
  | .member obj name => obj.calleeName ++ "." ++ name
  | .index obj _ => obj.calleeName ++ "[...]"
  | .this => "this"
  | _ => "expression"

/-- Closures and host functions can be called with `new`; suite methods cannot. -/
def Engine.isConstructor (e : Engine) (v : Value) : Bool :=
  match (e.objectOf? v).bind HeapObject.function? with
  | some (.closure ..) | some (.host ..) => true
  | _ => false

/-- Binds parameters to the stack slots from `slot` up; missing arguments are undefined. -/
def Engine.bindParams (e : Engine) (slot : Nat) : PropertyTable → List String → PropertyTable
  | t, [] => t
  | t, p :: ps => e.bindParams (slot + 1) (t.set p (e.getAbs slot)) ps

/-- Declares each name not yet bound, as undefined. -/
def PropertyTable.declare (t : PropertyTable) (names : List String) : PropertyTable :=
  names.foldl (fun t name => if t.contains name then t else t.set name .undefined) t

/-- Binds closures for function declarations on a scope object. -/
def hoistInto (scope : ObjectId) : List FunctionDef → Flow Unit
  | [] => pure ()
  | defn :: rest => do
    let c ← makeClosure defn
    if let some name := defn.name then
      modify fun e => e.modifyObject scope fun o =>
        { o with properties := o.properties.set name (.object c) }
    hoistInto scope rest

/-- Declares the `var` names of global code that the global object lacks. -/
def declareGlobals : List String → Flow Unit
  | [] => pure ()
  | name :: rest => do
    let e ← get
    if !(e.object? e.global).any (·.properties.contains name) then
      modify (·.assignVar name .undefined)
    declareGlobals rest

/-- Binds closures for the function declarations of global code. -/
def hoistGlobals : List FunctionDef → Flow Unit
  | [] => pure ()
  | defn :: rest => do
    let c ← makeClosure defn
    if let some name := defn.name then modify (·.assignVar name (.object c))
    hoistGlobals rest

/-- What one collection pass did. -/
structure CollectStats where
  freed : Nat
  liveObjects : Nat
  finalizersRun : Nat
  handlesReleased : Nat
  deriving Repr

/-- Releases the registry entries of swept proxies and counts those that were there. -/
def Registry.releaseAll (r : Registry) : List Nat → Nat × Registry
  | [] => (0, r)
  | h :: rest =>
    match r.release h with
    | .ok (_, r') => let (k, r'') := r'.releaseAll rest; (k + 1, r'')
    | .error _ => r.releaseAll rest

end EmbedScript
