import EmbedScript.Engine.Natives
import EmbedScript.Engine.Evaluator
import EmbedScript.Syntax.Parser

/-!
Calls, global code, and the operations of the stack interface that run code. A call replaces
its group of callee, receiver and arguments by the result, or removes it and throws. A closure
runs in a fresh scope under the one it closes over; a host function runs in a frame that holds
its arguments only, and its result is the top of that frame. Collection runs the finalizers
that are due, last queued first, each as a call.
-/

namespace EmbedScript

open EmbedScript.Syntax

/-- Enters the frame of a host function called with its group at `base`: the frame holds the
arguments, padded or cut to a fixed arity, and the slot of the receiver is recorded. -/
def Engine.enterHost (e : Engine) (base : Nat) (arity : Arity) : Engine :=
  let e := { e with bottom := base + 2, hostFrames := e.hostFrames.push (base + 1) }
  match arity with
  | .fixed k => e.resizeFrame k
  | .variadic => e

/-- What a call of a host function gives, from what its body reported and the frame it left:
undefined when it reports no values, the top of its frame when it reports some, and an error
when it reports more values than its frame holds or fails. -/
def hostResult (name : String) (e : Engine) : Except Error Nat → Except ScriptError Value
  | .ok 0 => .ok .undefined
  | .ok count =>
    if count ≤ e.top then .ok (e.stack.back?.getD .undefined)
    else .error ⟨ErrorKind.typeError.name,
      name ++ " returned " ++ toString count ++ " values but pushed " ++ toString e.top⟩
  | .error err => .error err.toScriptError

/-- Runs the body of a host function in the frame of the call group at `base`, then pushes its
result or throws its error as an error object. -/
def runHost (base : Nat) (name : String) (arity : Arity) (body : Api Nat) : Flow Unit := do
  let prevBottom := (← get).bottom
  modify (·.enterHost base arity)
  let r ← body.capture
  let result := hostResult name (← get) r
  modify fun e => { e with hostFrames := e.hostFrames.pop, bottom := prevBottom }
  match result with
  | .ok v => pushValue v
  | .error err => throwScriptError err

/-- A named function expression sees itself under its name. -/
def Syntax.FunctionDef.selfBinding (defn : FunctionDef) (callee : Value) : PropertyTable :=
  match defn.isExpression, defn.name with
  | true, some name => ({} : PropertyTable).set name callee
  | _, _ => {}

/-- The receiver a closure runs with: the global object in place of a nullish one. -/
def Engine.callReceiver (e : Engine) (abs : Nat) : Value :=
  let receiver := e.getAbs abs
  if receiver.isNullish then .object e.global else receiver

/-- Allocates the scope of a call of a closure whose group is at `base`, under the scope the
closure closes over. The scope binds, in this order, the function's own name for a named function
expression, `arguments` when the body mentions it, the parameters, and the `var` names still
unbound. -/
def allocCallScope (base : Nat) (defn : FunctionDef) (parent : Option ObjectId) :
    Flow ObjectId := do
  let e ← get
  let props ← if defn.usesArguments then do
      let argsStart := min (base + 2) e.stack.size
      let args ← allocObject { kind := .array (e.stack.extract argsStart e.stack.size) }
      pure ((defn.selfBinding (e.getAbs base)).set "arguments" (.object args))
    else pure (defn.selfBinding (e.getAbs base))
  let props := (e.bindParams (base + 2) props defn.params).declare defn.varNames
  allocObject { kind := .scope parent (e.callReceiver (base + 1)), properties := props }

/-- Enters a call of a closure whose group is at `base`: its scope, allocated under `parent`,
becomes the innermost one, and the functions its body declares are bound there. -/
def enterCall (base : Nat) (defn : FunctionDef) (parent : Option ObjectId) : Flow ObjectId := do
  let scope ← allocCallScope base defn parent
  modify fun e => { e with scopes := e.scopes.push (some scope) }
  hoistInto scope defn.functions
  pure scope

/-- Binds the declarations of global code before it runs: the `var` names the global object
lacks, as undefined, then the functions it declares. -/
def hoistProgram (prog : Program) : Flow Unit := do
  declareGlobals prog.varNames
  hoistGlobals prog.functions

namespace Evaluator

variable (d : Evaluator)

/-- Runs global code. Its completion value, that of the last expression statement run, is
left on the stack; after a throw nothing is. -/
def runProgram (prog : Program) : Flow Unit := do
  let slot ← stackSize
  pushValue .undefined
  let saved := (← get).completionSlot
  modify fun e => { e with completionSlot := some slot, scopes := e.scopes.push none }
  hoistProgram prog
  let r ← attempt (d.execBlock prog.body)
  modify fun e => { e with scopes := e.scopes.pop, completionSlot := saved }
  match r with
  | .ok _ => modify (·.truncate (slot + 1))
  | .error v =>
    modify (·.truncate slot)
    throw (.thrown v)

/-- Evaluates source text as global code; a syntax error or an exception is reported and
nothing is pushed. -/
def evalString (src : String) : Api Unit :=
  match parseProgram src with
  | .error pe => fail (.script ⟨ErrorKind.syntaxError.name, pe.text⟩)
  | .ok prog => (d.runProgram prog).toApi

/-- Evaluates source text as global code; on failure the exception, or a fresh syntax error
object, is pushed. -/
def pevalString (src : String) : Api Unit := do
  let r ← match parseProgram src with
    | .ok prog => (d.runProgram prog).catchThrown
    | .error pe => do
      let id ← allocError .syntaxError ErrorKind.syntaxError.name pe.text
      pure (.error (.object id))
  match r with
  | .ok () => pure ()
  | .error exception => Api.raise exception

/-- Calls a prepared call group; on failure the exception is pushed in place of the result. -/
def protectedInvoke (nargs : Nat) : Api Unit := do
  match ← (d.invoke nargs false).catchThrown with
  | .ok () => pure ()
  | .error exception => Api.raise exception

/-- Calls the function below `nargs` arguments with an undefined receiver. The size of the
group, `nargs + 1`, is formed in a machine word before it is checked: with `wordMax` arguments it
overflows and the call aborts. -/
def call (nargs : Nat) : Api Unit := do
  Api.requireGroup (nargs + 1)
  modify fun e => e.insertAbs (e.stack.size - nargs) .undefined
  (d.invoke nargs false).toApi

/-- Calls like `call`; on failure the exception is pushed in place of the result. -/
def pcall (nargs : Nat) : Api Unit := do
  Api.requireGroup (nargs + 1)
  modify fun e => e.insertAbs (e.stack.size - nargs) .undefined
  d.protectedInvoke nargs

/-- Calls the function below a receiver and `nargs` arguments. -/
def callMethod (nargs : Nat) : Api Unit := do
  Api.requireValues (nargs + 2)
  (d.invoke nargs false).toApi

def pcallMethod (nargs : Nat) : Api Unit := do
  Api.requireValues (nargs + 2)
  d.protectedInvoke nargs

/-- Puts the property `key` of the value at an index and that value below the top `nargs`
arguments, as callee and receiver. -/
def preparePropCall (i : Int) (key : String) (nargs : Nat) : Api Unit := do
  Api.requireValues nargs
  let target ← Api.valueAt i
  if target.isNullish then fail (.notObject i)
  let f ← (getProperty target key).toApi
  modify fun e =>
    let start := e.stack.size - nargs
    (e.insertAbs start target).insertAbs start f

def callProp (i : Int) (key : String) (nargs : Nat) : Api Unit := do
  preparePropCall i key nargs
  (d.invoke nargs false).toApi

def pcallProp (i : Int) (key : String) (nargs : Nat) : Api Unit := do
  preparePropCall i key nargs
  d.protectedInvoke nargs

/-- Runs the finalizer of the last queued object, if it still has one, and goes on with the
rest of the queue. A finalizer that throws still counts as run. -/
def finalizeRound (count : Nat) : Api Nat := do
  let e ← get
  match e.finalizeQueue.back? with
  | none => pure count
  | some id =>
    modify (·.dequeueFinalizable id)
    match (e.object? id).bind (·.finalizer) with
    | none => d.finalizeQueued count
    | some fin =>
      modify fun e => ((e.push (.object fin)).push .undefined).push (.object id)
      match ← (d.invoke 1 false).catchThrown with
      | .ok () => discard popValue
      | .error _ => pure ()
      d.finalizeQueued (count + 1)

/-- Runs the queued finalizers; at a depth limit they wait for a later pass. -/
def runFinalizers : Api Nat := do
  let e ← get
  if !e.finalizeQueue.isEmpty && !e.canCall then return 0
  d.finalizeQueued 0

/-- One collection pass: sweep from the roots, release the registry entries of swept
proxies, and run the finalizers that are due. -/
def collectGarbage : Api CollectStats := do
  let e ← get
  let (heap, sweep) := e.heap.collect e.roots
  let (released, registry) := e.registry.releaseAll sweep.released
  set { e with
    heap
    registry
    finalizeQueue := e.finalizeQueue ++ sweep.toFinalize.toArray
    finalizerLog := e.finalizerLog ++ (sweep.toFinalize.map FinalizerEvent.rescued).toArray }
  let ran ← d.runFinalizers
  pure ⟨sweep.freed, (← get).heap.live, ran, released⟩

/-- What host functions may run: evaluation, calls and collection. -/
def reentry : Reentry :=
  ⟨d.evalString, d.pevalString, d.call, d.pcall, d.collectGarbage⟩

/-- Runs a closure in a fresh scope under the one it closes over, with the functions its body
declares bound there. Without a return the result is undefined. -/
def callClosure (base : Nat) (defn : FunctionDef) (parent : Option ObjectId) : Flow Unit := do
  let _ ← enterCall base defn parent
  let saved := (← get).completionSlot
  modify fun e => { e with completionSlot := none }
  let r ← attempt (d.execBlock defn.body)
  modify fun e => { e with completionSlot := saved, scopes := e.scopes.pop }
  let c ← resume r
  if c != .returning then pushValue .undefined

/-- Runs a host function in a frame of its arguments, padded or cut to a fixed arity. Its
result is the top of its frame when it reports at least one pushed value; its error is thrown
as an error object. -/
def callHost (base : Nat) (name : String) (body : Native) (arity : Arity) : Flow Unit :=
  runHost base name arity (d.reentry.runNative body)

/-- Calls a method of a suite through the registry entry of the suite's proxy. -/
def callSuiteMethod (base : Nat) (suite : ObjectId) (name : String) : Flow Unit := do
  let e ← get
  match (e.object? suite).bind HeapObject.hostHandle? with
  | none => throwNew .typeError (name ++ " has no method suite")
  | some h =>
    match e.registry.lookupAs .suite h with
    | .error err => throwScriptError err.toScriptError
    | .ok v =>
      match v.suite?.bind (·.find? name) with
      | some body => d.callHost base name body .variadic
      | none => throwNew .typeError (name ++ " is not a function")

def dispatch (base : Nat) : Function → Flow Unit
  | .closure defn scope => d.callClosure base defn scope
  | .host name body arity => d.callHost base name body arity
  | .method suite name => d.callSuiteMethod base suite name

/-- Calls the function below a receiver and `nargs` arguments, replacing the group by the
result. A construction gets a fresh object as receiver, which is the result unless the
function gives an object. -/
def invokeStep (nargs : Nat) (construct : Bool) : Flow Unit := do
  let e ← get
  let base := e.stack.size - nargs - 2
  if !e.canCall then
    modify (·.truncate base)
    throwNew .rangeError stackExceeded
  if e.stack.size > e.config.maxStackValues then
    modify (·.truncate base)
    throwNew .rangeError "value stack limit exceeded"
  match (e.objectOf? (e.getAbs base)).bind HeapObject.function? with
  | none =>
    modify (·.truncate base)
    throwNew .typeError "not a function"
  | some f =>
    if construct then
      if let .method _ name := f then
        modify (·.truncate base)
        throwNew .typeError (name ++ " is not a constructor")
      let this ← allocObject { kind := .plain }
      modify (·.setAbs (base + 1) (.object this))
    modify fun e => { e with callDepth := e.callDepth + 1, nesting := e.nesting + 1 }
    let r ← attempt (d.dispatch base f)
    modify fun e => { e with callDepth := e.callDepth - 1, nesting := e.nesting - 1 }
    match r with
    | .ok () =>
      let v ← popValue
      let e ← get
      let v := if construct && v.objectId?.isNone then e.getAbs (base + 1) else v
      modify fun e => (e.truncate base).push v
    | .error exception =>
      modify (·.truncate base)
      throw (.thrown exception)

end Evaluator

end EmbedScript
