/-!
Errors. Scripts see exceptions of five built-in kinds; the stack interface reports its own
faults by cause, each with one message text, and turns them into script exceptions of a fixed
kind when they cross into script code.
-/

namespace EmbedScript

/-- The built-in error kinds. -/
inductive ErrorKind where
  | error
  | typeError
  | rangeError
  | referenceError
  | syntaxError
  deriving DecidableEq, Repr

namespace ErrorKind

def name : ErrorKind → String
  | .error => "Error"
  | .typeError => "TypeError"
  | .rangeError => "RangeError"
  | .referenceError => "ReferenceError"
  | .syntaxError => "SyntaxError"

def all : List ErrorKind := [.error, .typeError, .rangeError, .referenceError, .syntaxError]

/-- The kind with this name. -/
def ofName? (s : String) : Option ErrorKind :=
  all.find? (·.name == s)

end ErrorKind

/-- An exception as the embedder sees it: a name and a message. -/
structure ScriptError where
  name : String
  message : String
  deriving DecidableEq, Repr

/-- Outcomes of stack-interface operations that did not succeed. -/
inductive Error where
  /-- A script exception, or a syntax error. -/
  | script (e : ScriptError)
  /-- A value of another type than the operation needs. -/
  | typeMismatch (expected found : String)
  /-- No host value under this handle. -/
  | notFound (handle : Nat)
  /-- A host function failed with this message. -/
  | hostFunction (message : String)
  /-- A stack index outside the current frame. -/
  | invalidIndex (index : Int)
  /-- Fewer values in the frame than the operation takes. -/
  | stackUnderflow (needed available : Nat)
  /-- The value at this index is no object. -/
  | notObject (index : Int)
  deriving DecidableEq, Repr

namespace Error

/-- The name of an error's kind, as the embedder reports it. -/
def label : Error → String
  | .script _ => "Script"
  | .typeMismatch .. => "TypeMismatch"
  | .notFound _ => "NotFound"
  | .hostFunction _ => "HostFunction"
  | .invalidIndex _ => "InvalidIndex"
  | .stackUnderflow .. => "StackUnderflow"
  | .notObject _ => "NotObject"

/-- The message text of each error. -/
def message : Error → String
  | .script e => e.name ++ ": " ++ e.message
  | .typeMismatch expected found => "type mismatch: expected " ++ expected ++ ", found " ++ found
  | .notFound h => "host object #" ++ toString h ++ " not found"
  | .hostFunction m => "host function failed: " ++ m
  | .invalidIndex i => "invalid stack index " ++ toString i
  | .stackUnderflow needed available =>
    "stack underflow: need " ++ toString needed ++ " values, frame has " ++ toString available
  | .notObject i => "value at index " ++ toString i ++ " is not an object"

/-- The exception a script sees for an error raised by host code: type faults are type
errors, index and count faults range errors, missing host values reference errors, and a
host failure a plain error with the host's own message. -/
def toScriptError : Error → ScriptError
  | .script e => e
  | e@(.typeMismatch ..) | e@(.notObject _) => ⟨ErrorKind.typeError.name, e.message⟩
  | e@(.invalidIndex _) | e@(.stackUnderflow ..) => ⟨ErrorKind.rangeError.name, e.message⟩
  | e@(.notFound _) => ⟨ErrorKind.referenceError.name, e.message⟩
  | .hostFunction m => ⟨ErrorKind.error.name, m⟩

end Error

end EmbedScript
