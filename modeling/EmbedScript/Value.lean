/-!
Script values. Objects live in the heap and are named by an `ObjectId`: a slot index and the
generation of the slot when the object was placed there, so that an id kept after its object
was freed never names the slot's next occupant.
-/

namespace EmbedScript

/-- A heap slot and the generation it had when the object was allocated. -/
structure ObjectId where
  index : Nat
  generation : Nat
  deriving DecidableEq, Repr

/-- Values of the script language. -/
inductive Value where
  | undefined
  | null
  | bool (b : Bool)
  | number (x : Float)
  | string (s : String)
  | object (id : ObjectId)
  deriving Inhabited

namespace Value

/-- The object a value names, if it is one. -/
def objectId? : Value → Option ObjectId
  | .object id => some id
  | _ => none

def isNullish : Value → Bool
  | .undefined | .null => true
  | _ => false

def isUndefined : Value → Bool
  | .undefined => true
  | _ => false

/-- The kind of a value as the stack interface names it. -/
def typeName : Value → String
  | .undefined => "undefined"
  | .null => "null"
  | .bool _ => "boolean"
  | .number _ => "number"
  | .string _ => "string"
  | .object _ => "object"

end Value

end EmbedScript
