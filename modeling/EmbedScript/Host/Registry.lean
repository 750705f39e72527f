import EmbedScript.Host.Native

/-!
Host values and the registry that holds them. The registry hands out handles from a counter
that starts at 1 and never goes back, so a released handle stays unknown for the registry's
whole life. A method suite maps method names to natives; binding a name twice keeps the last
binding, and names are kept in increasing order.
-/

namespace EmbedScript

/-- A suite of methods, sorted by name, each name once. -/
structure MethodSuite where
  methods : List (String × Native)
  deriving DecidableEq, Repr

namespace MethodSuite

/-- Binds a name, replacing an earlier binding and keeping the order. -/
def bind : List (String × Native) → String → Native → List (String × Native)
  | [], name, f => [(name, f)]
  | (k, g) :: rest, name, f =>
    if name == k then (name, f) :: rest
    else if name < k then (name, f) :: (k, g) :: rest
    else (k, g) :: bind rest name f

/-- The suite of the bindings in order, later ones winning. -/
def ofList (entries : List (String × Native)) : MethodSuite :=
  ⟨entries.foldl (fun ms e => bind ms e.1 e.2) []⟩

def find? (s : MethodSuite) (name : String) : Option Native :=
  (s.methods.find? (·.1 == name)).map (·.2)

def names (s : MethodSuite) : List String :=
  s.methods.map (·.1)

end MethodSuite

/-- A point of the embedder: two 32-bit coordinates. -/
structure Point where
  x : Int
  y : Int
  deriving DecidableEq, Repr

/-- Values the embedder keeps in the registry. -/
inductive HostValue where
  | point (p : Point)
  | text (s : String)
  | suite (m : MethodSuite)
  deriving DecidableEq, Repr

/-- The types of host values. -/
inductive HostKind where
  | point
  | text
  | suite
  deriving DecidableEq, Repr

/-- The type names that type mismatches report. -/
def HostKind.typeName : HostKind → String
  | .point => "oracle_driver::Point"
  | .text => "alloc::string::String"
  | .suite => "jsbridge::suite::MethodSuite"

def HostValue.kind : HostValue → HostKind
  | .point _ => .point
  | .text _ => .text
  | .suite _ => .suite

/-- The method suite a host value is, if it is one. -/
def HostValue.suite? : HostValue → Option MethodSuite
  | .suite m => some m
  | _ => none

/-- Host values by handle, in increasing handle order, and the next handle to issue. -/
structure Registry where
  entries : List (Nat × HostValue) := []
  next : Nat := 1
  deriving Repr

namespace Registry

/-- Stores a value under a fresh handle. -/
def register (r : Registry) (v : HostValue) : Nat × Registry :=
  (r.next, { entries := r.entries ++ [(r.next, v)], next := r.next + 1 })

def find? (r : Registry) (h : Nat) : Option HostValue :=
  (r.entries.find? (·.1 == h)).map (·.2)

def lookup (r : Registry) (h : Nat) : Except Error HostValue :=
  match r.find? h with
  | some v => .ok v
  | none => .error (.notFound h)

/-- The value under a handle, if it has the kind asked for. -/
def lookupAs (r : Registry) (kind : HostKind) (h : Nat) : Except Error HostValue :=
  match r.find? h with
  | none => .error (.notFound h)
  | some v =>
    if v.kind == kind then .ok v else .error (.typeMismatch kind.typeName v.kind.typeName)

def contains (r : Registry) (h : Nat) : Bool :=
  (r.find? h).isSome

def typeName (r : Registry) (h : Nat) : Except Error String :=
  (r.lookup h).map (·.kind.typeName)

/-- Removes a handle, giving back its value. -/
def release (r : Registry) (h : Nat) : Except Error (HostValue × Registry) :=
  match r.find? h with
  | none => .error (.notFound h)
  | some v => .ok (v, { r with entries := r.entries.filter (·.1 != h) })

def size (r : Registry) : Nat := r.entries.length

def handles (r : Registry) : List Nat := r.entries.map (·.1)

end Registry

end EmbedScript
