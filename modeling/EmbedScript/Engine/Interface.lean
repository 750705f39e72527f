import EmbedScript.Engine.Scope

/-!
The stack interface, apart from the operations that run script code. Every operation checks
its indices and counts before it changes anything: an index outside the frame is an invalid
index, a count beyond the frame an underflow, and a value of the wrong type a mismatch that
names the type expected and the class or type found.
-/

namespace EmbedScript

open EmbedScript.Number EmbedScript.Text

/-- Runs script code for the stack interface: a thrown value becomes the script error it
reports. -/
def Flow.toApi {α : Type} (f : Flow α) : Api α := ExceptT.mk do
  match ← f.run with
  | .ok a => pure (.ok a)
  | .error (.thrown v) => pure (.error (.error (.script ((← get).scriptErrorOf v))))
  | .error .exhausted => pure (.error .exhausted)

namespace Api

/-! ### Checks -/

def valueAt (i : Int) : Api Value := do
  match (← get).get? i with
  | some v => pure v
  | none => fail (.invalidIndex i)

def requireIndex (i : Int) : Api Nat := do
  match (← get).normalize i with
  | some abs => pure abs
  | none => fail (.invalidIndex i)

def requireObject (i : Int) : Api ObjectId := do
  match (← valueAt i) with
  | .object id => pure id
  | _ => fail (.notObject i)

/-- The frame holds at least `n` values. -/
def requireValues (n : Nat) : Api Unit := do
  let top := (← get).top
  if n > top then fail (.stackUnderflow n top)

/-- The frame holds a group of `n` values, `n` being formed in a machine word: a size that
overflows the word aborts the operation before anything is checked. -/
def requireGroup (n : Nat) : Api Unit := do
  if n > wordMax then abort
  requireValues n

/-- A type mismatch at a valid index, or the invalid index. -/
def mismatch {α : Type} (i : Int) (expected : String) : Api α := do
  let e ← get
  match e.get? i with
  | some v => fail (.typeMismatch expected (e.describeValue v))
  | none => fail (.invalidIndex i)

/-! ### Pushing -/

def push (v : Value) : Api Unit := pushValue v

/-- The frame index of the top value. -/
def topIndex : Api Int := do
  pure ((← get).top - 1 : Int)

def pushObject : Api Int := do
  let id ← allocObject { kind := .plain }
  push (.object id)
  topIndex

def pushArray : Api Int := do
  let id ← allocObject { kind := .array #[] }
  push (.object id)
  topIndex

def pushGlobalObject : Api Unit := do
  push (.object (← get).global)

/-- Pushes the receiver of the running host function; undefined outside one. -/
def pushThis : Api Unit := do
  let e ← get
  push ((e.hostFrames.back?.map e.getAbs).getD .undefined)

def pushHostFunction (body : Native) (arity : Arity) : Api Int := do
  let id ← allocObject { kind := .function (.host "" body arity) }
  push (.object id)
  topIndex

def pushErrorObject (kind : ErrorKind) (message : String) : Api Int := do
  let id ← allocError kind kind.name message
  push (.object id)
  topIndex

/-! ### Types -/

/-- The type at an index, `none` outside the frame. -/
def typeAt (e : Engine) (i : Int) : String :=
  ((e.get? i).map Value.typeName).getD "none"

/-- The kind of the live object at an index. -/
def kindAt (e : Engine) (i : Int) : Option ObjectKind :=
  ((e.get? i).bind e.objectOf?).map HeapObject.kind

def isArray (e : Engine) (i : Int) : Bool :=
  match kindAt e i with
  | some (.array _) => true
  | _ => false

def isError (e : Engine) (i : Int) : Bool :=
  match kindAt e i with
  | some (.error _) => true
  | _ => false

def isCallable (e : Engine) (i : Int) : Bool :=
  match kindAt e i with
  | some (.function _) => true
  | _ => false

def isHostObject (e : Engine) (i : Int) : Bool :=
  match kindAt e i with
  | some (.hostProxy _) => true
  | _ => false

/-! ### Reading -/

def getBoolean (i : Int) : Api Bool := do
  match ← valueAt i with
  | .bool b => pure b
  | _ => mismatch i "boolean"

def getNumber (i : Int) : Api Float := do
  match ← valueAt i with
  | .number x => pure x
  | _ => mismatch i "number"

/-- The number at an index rounded toward zero and clamped to 32 bits. -/
def getInt (i : Int) : Api Int := do
  pure (saturateInt32 (← getNumber i))

def getString (i : Int) : Api String := do
  match ← valueAt i with
  | .string s => pure s
  | _ => mismatch i "string"

/-- A string's length in UTF-16 units, an array's length, and zero for anything else. -/
def getLength (i : Int) : Api Nat := do
  let e ← get
  match ← valueAt i with
  | .string s => pure (unitLength s)
  | .object id => pure (e.arrayLength id)
  | _ => pure 0

/-! ### Converting in place -/

def replaceAt (abs : Nat) (v : Value) : Api Unit := modify (·.setAbs abs v)

def toBooleanAt (i : Int) : Api Bool := do
  let abs ← requireIndex i
  let b := (← valueAt i).truthy
  replaceAt abs (.bool b)
  pure b

def toNumberAt (i : Int) : Api Float := do
  let abs ← requireIndex i
  let x := (← get).toNumber (← valueAt i)
  replaceAt abs (.number x)
  pure x

def toIntAt (i : Int) : Api Int := do
  let abs ← requireIndex i
  let n := saturateInt32 ((← get).toNumber (← valueAt i))
  replaceAt abs (intValue n)
  pure n

def toStringAt (i : Int) : Api String := do
  let abs ← requireIndex i
  let s := (← get).display (← valueAt i)
  replaceAt abs (.string s)
  pure s

/-! ### Stack shape -/

def getTop : Api Nat := do pure (← get).top

/-- Sets the frame size; a negative index counts from the top. Growing past the stack limit
is refused. -/
def setTop (i : Int) : Api Unit := do
  let e ← get
  let count ← if i ≥ 0 then pure i.toNat
    else if i.natAbs ≤ e.top then pure (e.top - i.natAbs)
    else fail (.invalidIndex i)
  if count > e.top && e.bottom + count > e.config.maxStackValues then fail (.invalidIndex i)
  modify (·.resizeFrame count)

def normalizeIndex (i : Int) : Api Int := do
  let abs ← requireIndex i
  pure ((abs : Int) - (← get).bottom)

def popN (n : Nat) : Api Unit := do
  requireValues n
  modify fun e => e.truncate (e.stack.size - n)

def pop : Api Unit := popN 1

def dup (i : Int) : Api Unit := do
  let abs ← requireIndex i
  modify fun e => e.push (e.getAbs abs)

def dupTop : Api Unit := dup (-1)

def swap (a b : Int) : Api Unit := do
  let a ← requireIndex a
  let b ← requireIndex b
  modify fun e => { e with stack := e.stack.swapIfInBounds a b }

/-- Moves the top value to an index, shifting the values above it up. -/
def insert (i : Int) : Api Unit := do
  let abs ← requireIndex i
  modify fun e =>
    let v := e.getAbs (e.stack.size - 1)
    (e.removeAbs (e.stack.size - 1)).insertAbs abs v

def remove (i : Int) : Api Unit := do
  let abs ← requireIndex i
  modify (·.removeAbs abs)

/-- Pops the top value into an index; replacing the top itself just pops. -/
def replace (i : Int) : Api Unit := do
  let abs ← requireIndex i
  modify fun e =>
    let v := e.getAbs (e.stack.size - 1)
    let e := e.removeAbs (e.stack.size - 1)
    if abs < e.stack.size then e.setAbs abs v else e

/-! ### Properties -/

/-- Pushes a property of the value at an index and says whether it exists. -/
def getPropString (i : Int) (key : String) : Api Bool := do
  let target ← valueAt i
  if target.isNullish then fail (.notObject i)
  let v ← (getProperty target key).toApi
  let e ← get
  let exists_ := match target with
    | .object id => e.objectHas id key
    | _ => !v.isUndefined
  push v
  pure exists_

/-- Pops a value into a property of the object at an index. -/
def putPropString (i : Int) (key : String) : Api Unit := do
  let id ← requireObject i
  match (← get).pop? with
  | some (v, e) =>
    set e
    (objectPut id key v).toApi
  | none => fail (.stackUnderflow 1 0)

def hasPropString (i : Int) (key : String) : Api Bool := do
  let id ← requireObject i
  pure ((← get).objectHas id key)

def delPropString (i : Int) (key : String) : Api Bool := do
  let id ← requireObject i
  let (gone, e) := (← get).objectDelete id key
  set e
  pure gone

def getPropIndex (i : Int) (n : Nat) : Api Bool := getPropString i (toString n)

def putPropIndex (i : Int) (n : Nat) : Api Unit := putPropString i (toString n)

def getGlobalString (key : String) : Api Bool := do
  let e ← get
  push (e.objectGet e.global key)
  pure (e.objectHas e.global key)

def putGlobalString (key : String) : Api Unit := do
  match (← get).pop? with
  | some (v, e) =>
    set e
    (objectPut e.global key v).toApi
  | none => fail (.stackUnderflow 1 0)

/-- Pops a function, or undefined to clear, into the finalizer of the object at an index. -/
def setFinalizer (i : Int) : Api Unit := do
  let id ← requireObject i
  requireValues 1
  let e ← get
  let finalizer ← match ← valueAt (-1) with
    | .undefined => pure none
    | v =>
      if e.isCallable v then pure v.objectId? else fail (.typeMismatch "function" (e.describeValue v))
  let _ ← popValue
  modify fun e => { e.modifyObject id fun o => { o with finalizer, finalized := false } with
    finalizerSets := e.finalizerSets + 1
    finalizerLog := if finalizer.isSome then e.finalizerLog.push (.armed id) else e.finalizerLog }

def getFinalizer (i : Int) : Api Unit := do
  let id ← requireObject i
  let e ← get
  push ((((e.object? id).bind (·.finalizer)).map Value.object).getD .undefined)

/-! ### Host values -/

/-- Registers a host value and pushes a proxy for it. -/
def pushHostObject (v : HostValue) : Api Nat := do
  let (h, registry) := (← get).registry.register v
  modify fun e => { e with registry }
  let id ← allocObject { kind := .hostProxy h }
  push (.object id)
  pure h

def getHostHandle (i : Int) : Api Nat := do
  let v ← valueAt i
  let e ← get
  match (e.objectOf? v).bind HeapObject.hostHandle? with
  | some h => pure h
  | none => fail (.typeMismatch "host object" (e.describeValue v))

def getHostObject (i : Int) (kind : HostKind) : Api HostValue := do
  let h ← getHostHandle i
  match (← get).registry.lookupAs kind h with
  | .ok v => pure v
  | .error err => fail err

/-- Registers a method suite and pushes its proxy, with one method object per name. -/
def pushMethodSuite (suite : MethodSuite) : Api Nat := do
  let (h, registry) := (← get).registry.register (.suite suite)
  modify fun e => { e with registry }
  let proxy ← allocObject { kind := .hostProxy h }
  for name in suite.names do
    let m ← allocObject { kind := .function (.method proxy name) }
    modify fun e => e.modifyObject proxy fun o => { o with properties := o.properties.set name (.object m) }
  push (.object proxy)
  pure h

end Api

end EmbedScript
