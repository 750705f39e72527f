import EmbedScript.Heap.Collect
import EmbedScript.Host.Registry
import EmbedScript.Error

/-!
The engine: heap, value stack, registry and the control state of evaluation. The value stack is
shared by script evaluation and the host; the host sees a frame of it, from `bottom` up, and
indices count from the frame's bottom (non-negative) or from the top (negative).

Script evaluation runs in `Flow`, where computations end early with a thrown value; the stack
interface runs in `Api`, where they end early with an `Error`. Both can also run out of fuel,
which never happens with the fuel the entry points give.
-/

namespace EmbedScript

/-- Limits of an engine. -/
structure Config where
  maxCallDepth : Nat := 100
  maxStackValues : Nat := 1000000
  deriving Repr

/-- Most native nesting of statements, expressions and calls. -/
def maxNesting : Nat := 200

/-- What happens to a finalizable object: the stack interface gives it a finalizer, a
collection rescues it, or its finalizer is run on it. -/
inductive FinalizerEvent where
  | armed (id : ObjectId)
  | rescued (id : ObjectId)
  | ran (id : ObjectId)
  deriving DecidableEq, Repr

/-- The state of an engine. -/
structure Engine where
  heap : Heap
  stack : Array Value
  bottom : Nat
  registry : Registry
  global : ObjectId
  /-- Scopes of running code, innermost last; none for global code. -/
  scopes : Array (Option ObjectId)
  /-- Stack slots of the receivers of running host functions, innermost last. -/
  hostFrames : Array Nat
  /-- Objects whose finalizers are due, run last first. -/
  finalizeQueue : Array ObjectId
  /-- The stack slot that receives the value of top-level expression statements. -/
  completionSlot : Option Nat
  callDepth : Nat
  nesting : Nat
  config : Config
  /-- The counter the `inc` and `dec` natives step. -/
  tally : Int
  /-- How many times the stack interface has set or cleared a finalizer; nothing reads it. -/
  finalizerSets : Nat := 0
  /-- The finalizer events so far, oldest first; nothing reads it. -/
  finalizerLog : Array FinalizerEvent := #[]

/-- How script evaluation ends early. -/
inductive Unwind where
  | thrown (v : Value)
  | exhausted

/-- How a stack-interface operation ends early. -/
inductive Failure where
  | error (e : Error)
  | exhausted

abbrev Flow := ExceptT Unwind (StateM Engine)

abbrev Api := ExceptT Failure (StateM Engine)

/-- Fails an interface operation with an error. -/
def fail {α : Type} (e : Error) : Api α := throw (.error e)

/-- The largest count a machine word holds. -/
def wordMax : Nat := Nat.pow 2 64 - 1

/-- Ends an interface operation that never comes back to its caller because a count it formed
overflowed a machine word; it ends as running out of fuel does. -/
def abort {α : Type} : Api α := throw .exhausted

namespace Engine

/-! ### The value stack -/

/-- Number of values in the current frame. -/
def top (e : Engine) : Nat := e.stack.size - e.bottom

/-- The absolute position of a frame index, if it lies in the frame. -/
def normalize (e : Engine) (i : Int) : Option Nat :=
  let abs : Int := if i ≥ 0 then e.bottom + i else e.stack.size + i
  if e.bottom ≤ abs ∧ abs < e.stack.size then some abs.toNat else none

def get? (e : Engine) (i : Int) : Option Value :=
  (e.normalize i).bind (e.stack[·]?)

def getAbs (e : Engine) (abs : Nat) : Value :=
  e.stack.getD abs .undefined

def push (e : Engine) (v : Value) : Engine := { e with stack := e.stack.push v }

/-- The top value of the frame, removed; none when the frame is empty. -/
def pop? (e : Engine) : Option (Value × Engine) :=
  if e.stack.size > e.bottom then some (e.stack.back?.getD .undefined, { e with stack := e.stack.pop })
  else none

def truncate (e : Engine) (n : Nat) : Engine := { e with stack := e.stack.take n }

def setAbs (e : Engine) (abs : Nat) (v : Value) : Engine := { e with stack := e.stack.setIfInBounds abs v }

def insertAbs (e : Engine) (abs : Nat) (v : Value) : Engine :=
  { e with stack := e.stack.insertIdxIfInBounds abs v }

def removeAbs (e : Engine) (abs : Nat) : Engine :=
  { e with stack := e.stack.eraseIdxIfInBounds abs }

/-- Resizes the frame to `n` values, padding with undefined. -/
def resizeFrame (e : Engine) (n : Nat) : Engine :=
  let size := e.bottom + n
  { e with stack := (e.stack.take size) ++ Array.replicate (size - e.stack.size) .undefined }

/-! ### Objects -/

def object? (e : Engine) (id : ObjectId) : Option HeapObject := e.heap.get? id

def alloc (e : Engine) (o : HeapObject) : ObjectId × Engine :=
  let (id, heap) := e.heap.alloc o
  (id, { e with heap })

def modifyObject (e : Engine) (id : ObjectId) (f : HeapObject → HeapObject) : Engine :=
  { e with heap := e.heap.modify id f }

/-- Takes `id` off the end of the finalizer queue, and records the run of its finalizer when it
has one. -/
def dequeueFinalizable (e : Engine) (id : ObjectId) : Engine :=
  { e with
    finalizeQueue := e.finalizeQueue.pop
    finalizerLog :=
      if ((e.object? id).bind (·.finalizer)).isSome then e.finalizerLog.push (.ran id)
      else e.finalizerLog }

/-- The object a value names, if it is live. -/
def objectOf? (e : Engine) (v : Value) : Option HeapObject :=
  v.objectId?.bind e.object?

def isCallable (e : Engine) (v : Value) : Bool :=
  (e.objectOf? v).any (·.isCallable)

/-- What a type mismatch reports for a value: an object's class, else its type. -/
def describeValue (e : Engine) (v : Value) : String :=
  match v with
  | .object id => ((e.object? id).map (·.className)).getD "object"
  | other => other.typeName

/-- Calls and native nesting may go one level deeper. -/
def canCall (e : Engine) : Bool :=
  e.callDepth < e.config.maxCallDepth && e.nesting < maxNesting

/-- The innermost scope of running code. -/
def currentScope (e : Engine) : Option ObjectId :=
  e.scopes.back?.bind id

/-- The roots of a collection: stack values, scopes, the finalizer queue and the global
object. -/
def roots (e : Engine) : List ObjectId :=
  e.stack.toList.filterMap Value.objectId? ++ e.scopes.toList.filterMap id ++
    e.finalizeQueue.toList ++ [e.global]

end Engine

/-! ### Monadic access -/

/-- Reads the engine. -/
def engine {m : Type → Type} [Monad m] [MonadStateOf Engine m] : m Engine := get

def pushValue {m : Type → Type} [Monad m] [MonadStateOf Engine m] (v : Value) : m Unit :=
  modify (·.push v)

/-- Pops the top value of the frame; undefined when the frame is empty. -/
def popValue {m : Type → Type} [Monad m] [MonadStateOf Engine m] : m Value := do
  match (← get).pop? with
  | some (v, e) => set e; pure v
  | none => pure .undefined

/-- The topmost value of the whole stack; undefined when it is empty. -/
def topValue {m : Type → Type} [Monad m] [MonadStateOf Engine m] : m Value := do
  pure ((← get).stack.back?.getD .undefined)

def stackSize {m : Type → Type} [Monad m] [MonadStateOf Engine m] : m Nat := do
  pure (← get).stack.size

def allocObject {m : Type → Type} [Monad m] [MonadStateOf Engine m] (o : HeapObject) :
    m ObjectId := do
  let (id, e) := (← get).alloc o
  set e
  pure id

/-- A fresh error object with the given name and message properties. -/
def allocError {m : Type → Type} [Monad m] [MonadStateOf Engine m] (kind : ErrorKind)
    (name message : String) : m ObjectId :=
  let props := ({} : PropertyTable).set "name" (.string name) |>.set "message" (.string message)
  allocObject { kind := .error kind, properties := props }

/-- Throws a fresh error of a built-in kind. -/
def throwNew {α : Type} (kind : ErrorKind) (message : String) : Flow α := do
  let id ← allocError kind kind.name message
  throw (.thrown (.object id))

/-- Throws an error object for a script error: its kind if the name is a built-in one, else a
plain error, with the name kept as given. -/
def throwScriptError {α : Type} (err : ScriptError) : Flow α := do
  let id ← allocError ((ErrorKind.ofName? err.name).getD .error) err.name err.message
  throw (.thrown (.object id))

end EmbedScript
