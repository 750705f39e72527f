import EmbedScript.Engine.Interface

/-!
Descriptions of stack values, read through the stack interface alone. An object is described
by its class, its text (cut to a thousand characters), and by what its class shows: an array
its length and, while depth remains, its first twenty elements; an error its name and message;
a function its name and length; a host object its handle.
-/

namespace EmbedScript

/-- The first thousand characters of a text, and its full length when it is longer. -/
structure Excerpt where
  text : String
  total : Option Nat
  deriving Repr

def Excerpt.ofString (s : String) : Excerpt :=
  if s.length > 1000 then ⟨String.ofList (s.toList.take 1000), some s.length⟩ else ⟨s, none⟩

/-- What a description shows of a value. -/
inductive Description where
  | none
  | undefined
  | null
  | boolean (b : Bool)
  | number (x : Float)
  | string (s : String)
  | array (text : Excerpt) (length : Nat) (items : Option (List Description))
  | error (text : Excerpt) (name message : Description)
  | function (text : Excerpt) (name length : Description)
  | hostObject (text : Excerpt) (handle : Nat)
  | plain (text : Excerpt)
  deriving Repr, Inhabited

/-- How deep values on the stack are described. -/
def describeDepth : Int := 3

/-- How many elements of an array are described. -/
def describedItems : Nat := 20

/-- How many values from the top of the stack an answer describes. -/
def describedValues : Nat := 32

namespace Api

/-- The text of the value at an index, through a copy on top. -/
def textAt (i : Int) : Api String := do
  dup i
  let s ← toStringAt (-1)
  pop
  pure s

/-- Describes the value at an index. Deeper values are described one level less deep; the
fuel bounds the nesting of error and function properties, which depth does not. -/
def describeWith : Nat → Int → Int → Api Description
  | 0, _, _ => pure .none
  | fuel + 1, depth, i => do
    let e ← get
    match e.normalize i with
    | none => pure .none
    | some abs =>
      let idx : Int := (abs : Int) - e.bottom
      match e.getAbs abs with
      | .undefined => pure .undefined
      | .null => pure .null
      | .bool b => pure (.boolean b)
      | .number x => pure (.number x)
      | .string s => pure (.string s)
      | .object _ =>
        let text := Excerpt.ofString (← textAt idx)
        let below := fun (read : Api Bool) => do
          let _ ← read
          let d ← describeWith fuel (depth - 1) (-1)
          pop
          pure d
        if isArray e idx then
          let length ← getLength idx
          if depth > 0 then
            let items ← (List.range (min length describedItems)).mapM fun k =>
              below (getPropIndex idx k)
            pure (.array text length (some items))
          else pure (.array text length none)
        else if isError e idx then
          let name ← below (getPropString idx "name")
          let message ← below (getPropString idx "message")
          pure (.error text name message)
        else if isCallable e idx then
          let name ← below (getPropString idx "name")
          let length ← below (getPropString idx "length")
          pure (.function text name length)
        else if isHostObject e idx then
          pure (.hostObject text (← getHostHandle idx))
        else pure (.plain text)

/-- Describes the value at an index at the depth of stack values. Error and function properties
are described however deeply they nest; a chain of them without a cycle passes through distinct
objects, each in its own heap slot, so one level of fuel per slot and one for the last value
describe every such chain in full. -/
def describe (i : Int) : Api Description := do
  describeWith ((← get).heap.slots.size + 1) describeDepth i

/-- Describes the topmost values of the frame, bottom to top. -/
def describeTop : Api (List Description) := do
  let top ← getTop
  let shown := min top describedValues
  (List.range shown).mapM fun k => describe ((top - shown + k : Nat) : Int)

end Api

end EmbedScript
