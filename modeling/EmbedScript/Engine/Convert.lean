import EmbedScript.Engine.State
import EmbedScript.Number.Text
import EmbedScript.Number.Int32
import EmbedScript.Text.Units

/-!
Conversions between values, and equality and order. The text of an object is its
elements joined by commas for an array (an array already being printed gives nothing), the
name and message for an error, a stub for a function and `[object Class]` otherwise. Objects
convert to numbers and primitives through their text. Loose equality converts booleans to
numbers and objects to text before comparing; relational operators compare two strings by
their UTF-16 units and everything else as numbers.
-/

namespace EmbedScript

open EmbedScript.Number EmbedScript.Text

/-- Truthiness: false for undefined, null, false, zero, NaN and the empty string. -/
def Value.truthy : Value → Bool
  | .undefined | .null => false
  | .bool b => b
  | .number x => !(x.isNaN || x == 0)
  | .string s => !s.isEmpty
  | .object _ => true

/-- How an error shows its name and message: joined by a colon, or the one that is not empty. -/
def errorText (name message : String) : String :=
  if message.isEmpty then name
  else if name.isEmpty then message
  else name ++ ": " ++ message

/-- The text of an error's name or message: the field's own text when it is there and not
undefined, the fallback otherwise. -/
def fieldText (fallback : String) (text : Value → String) : Option Value → String
  | none | some .undefined => fallback
  | some v => text v

/-- How a function shows: its name and a stub for its body. -/
def Function.sourceText (f : Function) : String :=
  let body := match f with
    | .closure .. => "[ecmascript code]"
    | _ => "[native code]"
  "function " ++ f.name ++ "() \x7b " ++ body ++ " \x7d"

namespace Engine

/-- The text of a value. `seen` holds the arrays being printed on the current path; the fuel
bounds the depth. An error's name and message are printed afresh, with nothing seen. -/
def displayWith (e : Engine) : Nat → List ObjectId → Value → String
  | 0, _, _ => ""
  | fuel + 1, seen, v =>
    match v with
    | .undefined => "undefined"
    | .null => "null"
    | .bool b => if b then "true" else "false"
    | .number x => Number.toText x
    | .string s => s
    | .object id =>
      match e.object? id with
      | none => "[object Object]"
      | some o =>
        match o.kind with
        | .array elems =>
          if seen.contains id then ""
          else String.intercalate "," (elems.toList.map fun el =>
            if el.isNullish then "" else e.displayWith fuel (id :: seen) el)
        | .error kind =>
          errorText (fieldText kind.name (e.displayWith fuel []) (o.properties.get? "name"))
            (fieldText "" (e.displayWith fuel []) (o.properties.get? "message"))
        | .function f => f.sourceText
        | _ => "[object " ++ o.className ++ "]"

/-- The text of a value. Every display that finishes visits each object at most once on a
path, apart from a last visit to an array being printed, so the slot count bounds the depth. -/
def display (e : Engine) (v : Value) : String :=
  e.displayWith (e.heap.slots.size + 2) [] v

def toNumber (e : Engine) : Value → Float
  | .undefined => Number.nan
  | .null => 0
  | .bool b => if b then 1 else 0
  | .number x => x
  | .string s => Number.ofText s
  | v@(.object _) => Number.ofText (e.display v)

/-- Objects become their text; primitives stay. -/
def toPrimitive (e : Engine) : Value → Value
  | v@(.object _) => .string (e.display v)
  | v => v

/-- The property key a value names. -/
def propertyKey (e : Engine) : Value → String
  | .string s => s
  | v => e.display v

def typeOf (e : Engine) : Value → String
  | .undefined => "undefined"
  | .null => "object"
  | .bool _ => "boolean"
  | .number _ => "number"
  | .string _ => "string"
  | v@(.object _) => if e.isCallable v then "function" else "object"

end Engine

/-- Identity for objects, IEEE equality for numbers, equality of the rest by kind. -/
def strictEquals : Value → Value → Bool
  | .undefined, .undefined | .null, .null => true
  | .bool x, .bool y => x == y
  | .number x, .number y => x == y
  | .string x, .string y => x == y
  | .object x, .object y => x == y
  | _, _ => false

namespace Engine

/-- Loose equality with at most `fuel` conversions; three always suffice. -/
def looseEqualsWith (e : Engine) : Nat → Value → Value → Bool
  | 0, _, _ => false
  | n + 1, a, b =>
    match a, b with
    | .undefined, .undefined | .undefined, .null | .null, .undefined | .null, .null => true
    | .undefined, _ | .null, _ | _, .undefined | _, .null => false
    | .number x, .string _ => x == e.toNumber b
    | .string _, .number y => e.toNumber a == y
    | .bool _, _ => e.looseEqualsWith n (.number (e.toNumber a)) b
    | _, .bool _ => e.looseEqualsWith n a (.number (e.toNumber b))
    | .object _, .number _ | .object _, .string _ => e.looseEqualsWith n (e.toPrimitive a) b
    | .number _, .object _ | .string _, .object _ => e.looseEqualsWith n a (e.toPrimitive b)
    | _, _ => strictEquals a b

def looseEquals (e : Engine) (a b : Value) : Bool :=
  e.looseEqualsWith 4 a b

/-- The order of two values: strings by UTF-16 units, else numbers, none with NaN. -/
def compareValues (e : Engine) (a b : Value) : Option Ordering :=
  match e.toPrimitive a, e.toPrimitive b with
  | .string x, .string y => some (compareUnits (units x) (units y))
  | pa, pb =>
    let x := e.toNumber pa
    let y := e.toNumber pb
    if x < y then some .lt else if x == y then some .eq else if y < x then some .gt else none

end Engine

end EmbedScript
