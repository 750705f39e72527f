import EmbedScript.Engine.Convert

/-!
Property access. Arrays keep their elements apart from their property table: `length` and
canonical index keys address the elements, and an array grows by at most `2^24` elements at a
time. Functions answer `name` and `length` from what they are unless a property of that name
was set. Strings have a `length` in UTF-16 units and single-character index properties;
other primitives have no properties, and null and undefined refuse access.
-/

namespace EmbedScript

open EmbedScript.Number EmbedScript.Text

/-- The element index a key names: decimal digits without a leading zero, below `2^32 - 1`. -/
def arrayIndex? (key : String) : Option Nat :=
  let cs := key.toList
  if cs.isEmpty || cs.length > 10 then none
  else if cs.length > 1 && cs.head? == some '0' then none
  else if !cs.all Char.isDigit then none
  else
    let n := digitsValue cs
    if n < Nat.pow 2 32 - 1 then some n else none

/-- The array cut or padded with undefined to `n` elements. -/
def resizeArray (a : Array Value) (n : Nat) : Array Value :=
  a.take n ++ Array.replicate (n - a.size) .undefined

/-- How much an array may grow by one write. -/
def maxArrayGrowth : Nat := Nat.pow 2 24

namespace Engine

/-- The value of an own property; undefined when absent or when the object is gone. -/
def objectGet (e : Engine) (id : ObjectId) (key : String) : Value :=
  match e.object? id with
  | none => .undefined
  | some o =>
    let fromTable := (o.properties.get? key).getD .undefined
    match o.kind with
    | .array elems =>
      if key == "length" then .number (Float.ofNat elems.size)
      else match (arrayIndex? key).bind (elems[·]?) with
        | some v => v
        | none => fromTable
    | .function f =>
      if o.properties.contains key then fromTable
      else if key == "name" then .string f.name
      else if key == "length" then .number (Float.ofNat f.length)
      else fromTable
    | _ => fromTable

/-- Whether an object has an own property. -/
def objectHas (e : Engine) (id : ObjectId) (key : String) : Bool :=
  match e.object? id with
  | none => false
  | some o =>
    match o.kind with
    | .array elems =>
      key == "length" || ((arrayIndex? key).any (· < elems.size)) || o.properties.contains key
    | .function _ => key == "name" || key == "length" || o.properties.contains key
    | _ => o.properties.contains key

/-- The length of an array; zero for anything else. -/
def arrayLength (e : Engine) (id : ObjectId) : Nat :=
  match (e.object? id).map HeapObject.kind with
  | some (.array elems) => elems.size
  | _ => 0

/-- Deletes an own property and says whether it is gone: an array's length cannot be
deleted, and deleting an element leaves undefined in its place. -/
def objectDelete (e : Engine) (id : ObjectId) (key : String) : Bool × Engine :=
  match e.object? id with
  | none => (true, e)
  | some o =>
    match o.kind with
    | .array elems =>
      if key == "length" then (false, e)
      else match arrayIndex? key with
        | some i =>
          (true, e.modifyObject id fun o => { o with kind := .array (elems.setIfInBounds i .undefined) })
        | none => (true, e.modifyObject id fun o => { o with properties := o.properties.erase key })
    | _ => (true, e.modifyObject id fun o => { o with properties := o.properties.erase key })

/-- Keys a `for-in` loop visits: the indices of a string, or an object's element indices then
its property keys in insertion order. -/
def ownKeys (e : Engine) : Value → List String
  | .string s => (List.range (unitLength s)).map toString
  | .object id =>
    match e.object? id with
    | none => []
    | some o =>
      let indices := match o.kind with
        | .array elems => (List.range elems.size).map toString
        | _ => []
      indices ++ o.properties.keys
  | _ => []

end Engine

/-- Writes an own property. Arrays route `length` and index keys to their elements and refuse
a length that is no array length or grows the array by more than `2^24`. -/
def objectPut (id : ObjectId) (key : String) (v : Value) : Flow Unit := do
  let e ← get
  match (e.object? id).map HeapObject.kind with
  | some (.array elems) =>
    if key == "length" then
      let n := e.toNumber v
      let len := toUint32 n
      if Float.ofNat len != n || elems.size + maxArrayGrowth < len then
        throwNew .rangeError "invalid array length"
      set (e.modifyObject id fun o => { o with kind := .array (resizeArray elems len) })
    else match arrayIndex? key with
      | some i =>
        if i > elems.size + maxArrayGrowth then throwNew .rangeError "invalid array length"
        let grown := if i ≥ elems.size then resizeArray elems (i + 1) else elems
        set (e.modifyObject id fun o => { o with kind := .array (grown.setIfInBounds i v) })
      | none => set (e.modifyObject id fun o => { o with properties := o.properties.set key v })
  | _ => set (e.modifyObject id fun o => { o with properties := o.properties.set key v })

/-- Reads a property of any value. -/
def getProperty (target : Value) (key : String) : Flow Value := do
  let e ← get
  match target with
  | .undefined | .null =>
    throwNew .typeError ("cannot read property '" ++ key ++ "' of " ++ e.display target)
  | .string s =>
    if key == "length" then return .number (Float.ofNat (unitLength s))
    match (arrayIndex? key).bind (charAtUnit s.toList) with
    | some c => pure (.string c.toString)
    | none => pure .undefined
  | .bool _ | .number _ => pure .undefined
  | .object id => pure (e.objectGet id key)

/-- Writes a property of any value; writes to primitives other than null and undefined are
dropped. -/
def putProperty (target : Value) (key : String) (v : Value) : Flow Unit := do
  match target with
  | .undefined | .null =>
    throwNew .typeError ("cannot set property '" ++ key ++ "' of " ++ (← get).display target)
  | .object id => objectPut id key v
  | _ => pure ()

/-- A 32-bit integer result as a number. -/
def intValue (i : Int) : Value := .number (Float.ofInt i)

/-- The value of a binary operator; only `in` can fail, on a right side that is no object. -/
def binaryOp (op : Syntax.BinaryOp) (a b : Value) : Flow Value := do
  let e ← get
  let num := e.toNumber
  match op with
  | .add =>
    let pa := e.toPrimitive a
    let pb := e.toPrimitive b
    match pa, pb with
    | .string _, _ | _, .string _ => pure (.string (e.display pa ++ e.display pb))
    | _, _ => pure (.number (num pa + num pb))
  | .sub => pure (.number (num a - num b))
  | .mul => pure (.number (num a * num b))
  | .div => pure (.number (num a / num b))
  | .mod => pure (.number (remainder (num a) (num b)))
  | .exp =>
    let base := num a
    let ex := num b
    if ex.isNaN || (base.abs == 1 && ex.isInf) then pure (.number nan)
    else pure (.number (base.pow ex))
  | .shl => pure (intValue (shiftLeft (num a) (num b)))
  | .shr => pure (intValue (shiftRight (num a) (num b)))
  | .ushr => pure (.number (Float.ofNat (shiftRightUnsigned (num a) (num b))))
  | .bitAnd => pure (intValue (bitAnd (num a) (num b)))
  | .bitOr => pure (intValue (bitOr (num a) (num b)))
  | .bitXor => pure (intValue (bitXor (num a) (num b)))
  | .eq => pure (.bool (e.looseEquals a b))
  | .notEq => pure (.bool !(e.looseEquals a b))
  | .strictEq => pure (.bool (strictEquals a b))
  | .strictNotEq => pure (.bool !(strictEquals a b))
  | .lt => pure (.bool (e.compareValues a b == some .lt))
  | .ltEq => pure (.bool (e.compareValues a b == some .lt || e.compareValues a b == some .eq))
  | .gt => pure (.bool (e.compareValues a b == some .gt))
  | .gtEq => pure (.bool (e.compareValues a b == some .gt || e.compareValues a b == some .eq))
  | .hasKey =>
    match b with
    | .object id => pure (.bool (e.objectHas id (e.propertyKey a)))
    | _ => throwNew .typeError ("cannot use 'in' operator to search a " ++ e.typeOf b)

end EmbedScript
