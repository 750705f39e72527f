import EmbedScript.Value
import EmbedScript.Syntax.Ast
import EmbedScript.Host.Native

/-!
Heap objects. Every object has a property table kept in insertion order (the order `for-in`
enumerates), an optional finalizer, and a flag that its finalizer has been queued; its kind
carries the rest. The references of an object are what the collector follows from it.
-/

namespace EmbedScript

/-- Properties in insertion order, each key once. -/
structure PropertyTable where
  entries : Array (String × Value) := #[]
  deriving Inhabited

namespace PropertyTable

def get? (t : PropertyTable) (key : String) : Option Value :=
  (t.entries.find? (·.1 == key)).map (·.2)

def contains (t : PropertyTable) (key : String) : Bool :=
  t.entries.any (·.1 == key)

/-- Defines or overwrites a property; a new key goes last. -/
def set (t : PropertyTable) (key : String) (v : Value) : PropertyTable :=
  match t.entries.findIdx? (·.1 == key) with
  | some i => ⟨t.entries.setIfInBounds i (key, v)⟩
  | none => ⟨t.entries.push (key, v)⟩

def erase (t : PropertyTable) (key : String) : PropertyTable :=
  ⟨t.entries.filter (·.1 != key)⟩

def keys (t : PropertyTable) : List String :=
  t.entries.toList.map (·.1)

def values (t : PropertyTable) : List Value :=
  t.entries.toList.map (·.2)

end PropertyTable

/-- How many arguments a host function sees: exactly `n`, padded or cut, or all given. -/
inductive Arity where
  | fixed (n : Nat)
  | variadic
  deriving DecidableEq, Repr

/-- Callable objects. -/
inductive Function where
  /-- A script function closing over the scope it was created in (none: the global scope). -/
  | closure (defn : Syntax.FunctionDef) (scope : Option ObjectId)
  | host (name : String) (body : Native) (arity : Arity)
  /-- A method of the suite held by the host proxy `suite`. -/
  | method (suite : ObjectId) (name : String)

namespace Function

def name : Function → String
  | .closure defn _ => defn.name.getD ""
  | .host name .. => name
  | .method _ name => name

/-- The declared number of parameters. -/
def length : Function → Nat
  | .closure defn _ => defn.params.length
  | .host _ _ (.fixed n) => n
  | .host _ _ .variadic => 0
  | .method .. => 0

end Function

/-- The class of an object and what belongs to it. -/
inductive ObjectKind where
  | plain
  | array (elems : Array Value)
  /-- An error instance; its name and message are properties. -/
  | error (kind : ErrorKind)
  | function (f : Function)
  /-- The script side of a registry entry. -/
  | hostProxy (handle : Nat)
  /-- The variables of a function call or catch clause, with the enclosing scope and the
  receiver. -/
  | scope (parent : Option ObjectId) (this : Value)

/-- An object in the heap. -/
structure HeapObject where
  kind : ObjectKind
  properties : PropertyTable := {}
  finalizer : Option ObjectId := none
  finalized : Bool := false

namespace HeapObject

/-- The objects this one refers to: property values, the finalizer, then elements, the
closure scope, the suite proxy, or the parent scope and receiver. -/
def references (o : HeapObject) : List ObjectId :=
  let kindRefs := match o.kind with
    | .array elems => elems.toList.filterMap Value.objectId?
    | .function (.closure _ scope) => scope.toList
    | .function (.method suite _) => [suite]
    | .scope parent this => parent.toList ++ this.objectId?.toList
    | _ => []
  o.properties.values.filterMap Value.objectId? ++ o.finalizer.toList ++ kindRefs

/-- The class name objects print with. -/
def className (o : HeapObject) : String :=
  match o.kind with
  | .plain | .scope .. => "Object"
  | .array _ => "Array"
  | .error _ => "Error"
  | .function _ => "Function"
  | .hostProxy _ => "HostObject"

def isCallable (o : HeapObject) : Bool :=
  match o.kind with
  | .function _ => true
  | _ => false

def function? (o : HeapObject) : Option Function :=
  match o.kind with
  | .function f => some f
  | _ => none

def hostHandle? (o : HeapObject) : Option Nat :=
  match o.kind with
  | .hostProxy h => some h
  | _ => none

end HeapObject

end EmbedScript
