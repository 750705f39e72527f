import EmbedScript.Engine.Run
import EmbedScript.Session.Describe

/-!
Sessions: an embedder driving one engine through a sequence of stack-interface operations.
Each step gives its result, or the error it failed with, and the session goes on in either
case. A session can destroy its engine and go on with a fresh one of the same limits; the
tally of the counting host functions outlives that, and so do the points the embedder keeps,
whose holders are counted by `SessionStep.rcCounts`.
-/

namespace EmbedScript

/-- The types the stack interface reports. -/
inductive ValueType where
  | none
  | undefined
  | null
  | boolean
  | number
  | string
  | object
  deriving Repr, DecidableEq

namespace ValueType

def name : ValueType → String
  | .none => "none"
  | .undefined => "undefined"
  | .null => "null"
  | .boolean => "boolean"
  | .number => "number"
  | .string => "string"
  | .object => "object"

def all : List ValueType := [.none, .undefined, .null, .boolean, .number, .string, .object]

def ofName? (s : String) : Option ValueType := all.find? (·.name == s)

end ValueType

/-- The yes-or-no questions about a stack index. -/
inductive Check where
  | validIndex
  | undefined
  | null
  | nullOrUndefined
  | boolean
  | number
  | string
  | object
  | array
  | error
  | callable
  | hostObject
  deriving Repr, DecidableEq

/-- The kinds of host value a lookup asks for; `any` takes every kind. -/
inductive LookupKind where
  | as (kind : HostKind)
  | any
  deriving Repr

/-- One operation of a session. -/
inductive Step where
  | pushUndefined
  | pushNull
  | pushGlobalObject
  | pushThis
  | pushBoolean (b : Bool)
  | pushInt (i : Int)
  | pushNumber (x : Float)
  | pushString (s : String)
  | pushObject
  | pushArray
  | pushHostFunction (body : Native) (arity : Arity)
  | pushErrorObject (kind : ErrorKind) (message : String)
  | pushHostObject (v : HostValue)
  | pushMethodSuite (suite : MethodSuite)
  | getType (i : Int)
  | checkType (i : Int) (t : ValueType)
  | check (c : Check) (i : Int)
  | getBoolean (i : Int)
  | getInt (i : Int)
  | getString (i : Int)
  | getLength (i : Int)
  | getNumber (i : Int)
  | toBoolean (i : Int)
  | toInt (i : Int)
  | toText (i : Int)
  | toNumber (i : Int)
  | getTop
  | setTop (i : Int)
  | normalizeIndex (i : Int)
  | pop
  | dupTop
  | popN (n : Nat)
  | dup (i : Int)
  | insert (i : Int)
  | remove (i : Int)
  | replace (i : Int)
  | swap (a b : Int)
  | getPropString (i : Int) (key : String)
  | putPropString (i : Int) (key : String)
  | hasPropString (i : Int) (key : String)
  | delPropString (i : Int) (key : String)
  | getPropIndex (i : Int) (n : Nat)
  | putPropIndex (i : Int) (n : Nat)
  | getGlobalString (key : String)
  | putGlobalString (key : String)
  | setFinalizer (i : Int)
  | getFinalizer (i : Int)
  | call (n : Nat)
  | pcall (n : Nat)
  | callMethod (n : Nat)
  | pcallMethod (n : Nat)
  | callProp (i : Int) (key : String) (n : Nat)
  | pcallProp (i : Int) (key : String) (n : Nat)
  | gc
  | evalString (src : String)
  | pevalString (src : String)
  | evalWith (src : String) (suite : MethodSuite)
  | getHostHandle (i : Int)
  | getHostObject (i : Int) (kind : HostKind)
  | objectCount
  | registryLen
  | registryHandles
  | registryContains (h : Nat)
  | registryTypeName (h : Nat)
  | registryLookup (h : Nat) (kind : LookupKind)
  | counter

/-- One step of a session: an operation on the engine, or one on the session itself. -/
inductive SessionStep where
  | engine (step : Step)
  /-- Pushes a point that the embedder holds as well as the registry. -/
  | pushKeptPoint (p : Point)
  /-- How many holders each kept point has. -/
  | rcCounts
  /-- Destroys the engine and goes on with a fresh one. -/
  | destroy

/-- What a step gives. -/
inductive Outcome where
  | unit
  | bool (b : Bool)
  | int (i : Int)
  | number (x : Float)
  | text (s : String)
  | names (l : List String)
  | naturals (l : List Nat)
  | point (x y : Int)
  | stats (s : CollectStats)

/-- A host value as a lookup reports it: a point's coordinates, a string, or the sorted
method names of a suite. -/
def HostValue.outcome : HostValue → Outcome
  | .point p => .point p.x p.y
  | .text s => .text s
  | .suite m => .names m.names

/-- The interface operation of a step that only touches the engine. -/
def Step.operation : Step → Api Outcome
  | .pushUndefined => do Api.push .undefined; pure .unit
  | .pushNull => do Api.push .null; pure .unit
  | .pushGlobalObject => do Api.pushGlobalObject; pure .unit
  | .pushThis => do Api.pushThis; pure .unit
  | .pushBoolean b => do Api.push (.bool b); pure .unit
  | .pushInt i => do Api.push (intValue i); pure .unit
  | .pushNumber x => do Api.push (.number x); pure .unit
  | .pushString s => do Api.push (.string s); pure .unit
  | .pushObject => do pure (.int (← Api.pushObject))
  | .pushArray => do pure (.int (← Api.pushArray))
  | .pushHostFunction body arity => do pure (.int (← Api.pushHostFunction body arity))
  | .pushErrorObject kind message => do pure (.int (← Api.pushErrorObject kind message))
  | .pushHostObject v => do pure (.int (← Api.pushHostObject v))
  | .pushMethodSuite suite => do pure (.int (← Api.pushMethodSuite suite))
  | .getType i => do pure (.text (Api.typeAt (← get) i))
  | .checkType i t => do pure (.bool (Api.typeAt (← get) i == t.name))
  | .check c i => do
    let e ← get
    let ty := Api.typeAt e i
    pure (.bool (match c with
      | .validIndex => (e.normalize i).isSome
      | .undefined => ty == "undefined"
      | .null => ty == "null"
      | .nullOrUndefined => ty == "null" || ty == "undefined"
      | .boolean => ty == "boolean"
      | .number => ty == "number"
      | .string => ty == "string"
      | .object => ty == "object"
      | .array => Api.isArray e i
      | .error => Api.isError e i
      | .callable => Api.isCallable e i
      | .hostObject => Api.isHostObject e i))
  | .getBoolean i => do pure (.bool (← Api.getBoolean i))
  | .getInt i => do pure (.int (← Api.getInt i))
  | .getString i => do pure (.text (← Api.getString i))
  | .getLength i => do pure (.int (← Api.getLength i))
  | .getNumber i => do pure (.number (← Api.getNumber i))
  | .toBoolean i => do pure (.bool (← Api.toBooleanAt i))
  | .toInt i => do pure (.int (← Api.toIntAt i))
  | .toText i => do pure (.text (← Api.toStringAt i))
  | .toNumber i => do pure (.number (← Api.toNumberAt i))
  | .getTop => do pure (.int (← Api.getTop))
  | .setTop i => do Api.setTop i; pure .unit
  | .normalizeIndex i => do pure (.int (← Api.normalizeIndex i))
  | .pop => do Api.pop; pure .unit
  | .dupTop => do Api.dupTop; pure .unit
  | .popN n => do Api.popN n; pure .unit
  | .dup i => do Api.dup i; pure .unit
  | .insert i => do Api.insert i; pure .unit
  | .remove i => do Api.remove i; pure .unit
  | .replace i => do Api.replace i; pure .unit
  | .swap a b => do Api.swap a b; pure .unit
  | .getPropString i key => do pure (.bool (← Api.getPropString i key))
  | .putPropString i key => do Api.putPropString i key; pure .unit
  | .hasPropString i key => do pure (.bool (← Api.hasPropString i key))
  | .delPropString i key => do pure (.bool (← Api.delPropString i key))
  | .getPropIndex i n => do pure (.bool (← Api.getPropIndex i n))
  | .putPropIndex i n => do Api.putPropIndex i n; pure .unit
  | .getGlobalString key => do pure (.bool (← Api.getGlobalString key))
  | .putGlobalString key => do Api.putGlobalString key; pure .unit
  | .setFinalizer i => do Api.setFinalizer i; pure .unit
  | .getFinalizer i => do Api.getFinalizer i; pure .unit
  | .call n => do Api.call n; pure .unit
  | .pcall n => do Api.pcall n; pure .unit
  | .callMethod n => do Api.callMethod n; pure .unit
  | .pcallMethod n => do Api.pcallMethod n; pure .unit
  | .callProp i key n => do Api.callProp i key n; pure .unit
  | .pcallProp i key n => do Api.pcallProp i key n; pure .unit
  | .gc => do pure (.stats (← Api.gc))
  | .evalString src => do Api.evalString src; pure .unit
  | .pevalString src => do Api.pevalString src; pure .unit
  | .evalWith src suite => do Api.evalWith src suite; pure .unit
  | .getHostHandle i => do pure (.int (← Api.getHostHandle i))
  | .getHostObject i kind => do pure (← Api.getHostObject i kind).outcome
  | .objectCount => do pure (.int (← get).heap.live)
  | .registryLen => do pure (.int (← get).registry.size)
  | .registryHandles => do pure (.naturals ((← get).registry.handles.mergeSort (· ≤ ·)))
  | .registryContains h => do pure (.bool ((← get).registry.contains h))
  | .registryTypeName h => do
    match (← get).registry.typeName h with
    | .ok name => pure (.text name)
    | .error err => fail err
  | .registryLookup h kind => do
    let r := (← get).registry
    let found := match kind with
      | .as k => r.lookupAs k h
      | .any => r.lookup h
    match found, kind with
    | .ok _, .any => pure (.bool true)
    | .ok v, .as _ => pure v.outcome
    | .error err, _ => fail err
  | .counter => do pure (.int (← get).tally)

/-- A session: its engine, its limits, how many engines it has destroyed, and the points the
embedder keeps, by the engine life and handle they were pushed with. -/
structure Session where
  engine : Engine
  config : Config
  life : Nat := 0
  kept : List (Nat × Nat) := []

/-- A step's answer: its outcome and the frame after it. -/
structure StepAnswer where
  result : Except Failure Outcome
  top : Nat
  stack : List Description

namespace Session

def start (config : Config) : Session := { engine := Engine.fresh config 0, config }

/-- Runs an interface operation on the session's engine. -/
def exec {α : Type} (s : Session) (act : Api α) : Except Failure α × Session :=
  let (r, engine) := act.run.run s.engine
  (r, { s with engine })

/-- How many holders each kept point has: the embedder, and the registry of the engine it was
pushed to while that engine lives and holds it. -/
def rcCounts (s : Session) : List Nat :=
  s.kept.map fun (life, h) => if life == s.life && s.engine.registry.contains h then 2 else 1

/-- The answer of a step, with the frame seen after it. -/
def answer (s : Session) (result : Except Failure Outcome) : StepAnswer × Session :=
  let (stack, s) := s.exec Api.describeTop
  let stack := match stack with
    | .ok l => l
    | .error _ => []
  ({ result, top := s.engine.top, stack }, s)

/-- Runs a step and answers it. -/
def run (s : Session) : SessionStep → StepAnswer × Session
  | .engine step =>
    let (r, s) := s.exec step.operation
    s.answer r
  | .pushKeptPoint p =>
    let (r, s) := s.exec (Api.pushHostObject (.point p))
    let s := match r with
      | .ok h => { s with kept := s.kept ++ [(s.life, h)] }
      | .error _ => s
    s.answer (r.map fun h => .int h)
  | .rcCounts => s.answer (.ok (.naturals s.rcCounts))
  | .destroy =>
    let s := { s with engine := Engine.fresh s.config s.engine.tally, life := s.life + 1 }
    s.answer (.ok .unit)

/-- Answers a step that could not be read, with the frame as it stands. -/
def observe (s : Session) : Nat × List Description × Session :=
  let (a, s) := s.answer (.ok .unit)
  (a.top, a.stack, s)

end Session

/-- A standalone registry operation. -/
inductive RegistryStep where
  | register (v : HostValue)
  | release (h : Nat)
  | lookup (h : Nat) (kind : LookupKind)
  | contains (h : Nat)
  | typeName (h : Nat)
  | len
  | isEmpty
  | handles

/-- Runs a registry operation: its outcome, and the registry after it. -/
def RegistryStep.run (r : Registry) : RegistryStep → Except Error Outcome × Registry
  | .register v => let (h, r) := r.register v; (.ok (.int h), r)
  | .release h =>
    match r.release h with
    | .ok (v, r) => (.ok v.outcome, r)
    | .error err => (.error err, r)
  | .lookup h kind =>
    match kind with
    | .any => ((r.lookup h).map fun _ => .bool true, r)
    | .as k => ((r.lookupAs k h).map HostValue.outcome, r)
  | .contains h => (.ok (.bool (r.contains h)), r)
  | .typeName h => ((r.typeName h).map Outcome.text, r)
  | .len => (.ok (.int r.size), r)
  | .isEmpty => (.ok (.bool (r.size == 0)), r)
  | .handles => (.ok (.naturals (r.handles.mergeSort (· ≤ ·))), r)

/-- The outcome of evaluating source text in a fresh engine: the value on top, or the error
with the exception pushed when the evaluation is protected. -/
structure EvalAnswer where
  result : Except Failure Description
  thrown : Option Description
  top : Nat

/-- Evaluates source text in a fresh engine, protected or not. -/
def evalFresh (config : Config) (src : String) (guarded : Bool) : EvalAnswer :=
  let s := Session.start config
  let act := if guarded then Api.pevalString src else Api.evalString src
  let (r, s) := s.exec act
  match r with
  | .ok () =>
    let (d, s) := s.exec (Api.describe (-1))
    { result := d, thrown := none, top := s.engine.top }
  | .error f =>
    if guarded then
      let (d, s) := s.exec (Api.describe (-1))
      { result := .error f, thrown := d.toOption, top := s.engine.top }
    else { result := .error f, thrown := none, top := s.engine.top }

end EmbedScript
