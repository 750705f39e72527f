import EmbedScript.Engine.Evaluator

/-!
One step of evaluating an expression. An expression pushes exactly one value and leaves the
stack below it as it found it; its operands are evaluated left to right, each once, and kept
on the stack while later operands run. A call pushes the callee, the receiver and the
arguments and hands the group to `invoke`.
-/

namespace EmbedScript

open EmbedScript.Syntax

namespace Evaluator

variable (d : Evaluator)

/-- Appends the values of array literal elements to an array; a hole is undefined. -/
def evalElements (id : ObjectId) : List (Option Expr) → Flow Unit
  | [] => pure ()
  | el :: rest => do
    let v ← match el with
      | some x => d.evalPop x
      | none => pure .undefined
    modify fun e => e.modifyObject id fun o =>
      match o.kind with
      | .array items => { o with kind := .array (items.push v) }
      | _ => o
    evalElements id rest

/-- Writes the properties of an object literal, in order. -/
def evalProperties (id : ObjectId) : List (String × Expr) → Flow Unit
  | [] => pure ()
  | (key, x) :: rest => do
    let v ← d.evalPop x
    objectPut id key v
    evalProperties id rest

/-- `delete`: a property of a member or index expression; a variable is never deleted, and
anything else is evaluated and counts as deleted. -/
def evalDelete : Expr → Flow Unit
  | .member obj name => do
    let target ← d.evalPop obj
    deleteProperty target name
  | .index obj key => do
    d.evalExpr obj
    let k ← d.evalPop key
    let target ← popValue
    deleteProperty target ((← get).propertyKey k)
  | .ident _ => pushValue (.bool false)
  | other => do
    discard (d.evalPop other)
    pushValue (.bool true)

/-- Prefix operators; `typeof` of an unbound variable is `undefined`, not an error. -/
def evalUnary (op : UnaryOp) (operand : Expr) : Flow Unit := do
  match op with
  | .typeOf =>
    let v ← match operand with
      | .ident name => do pure (((← get).lookupVar name).getD .undefined)
      | _ => d.evalPop operand
    pushValue (.string ((← get).typeOf v))
  | .delete => d.evalDelete operand
  | .void =>
    discard (d.evalPop operand)
    pushValue .undefined
  | .not =>
    let v ← d.evalPop operand
    pushValue (.bool !v.truthy)
  | .neg =>
    let v ← d.evalPop operand
    pushValue (.number (-(← get).toNumber v))
  | .plus =>
    let v ← d.evalPop operand
    pushValue (.number ((← get).toNumber v))
  | .bitNot =>
    let v ← d.evalPop operand
    pushValue (intValue (Number.bitNot ((← get).toNumber v)))

/-- The value a compound assignment stores: the operator applied to the target's current value,
read first, and the right side. -/
def evalCompound (ref : Reference) (op : BinaryOp) (value : Expr) : Flow Unit := do
  let current ← ref.read
  pushValue current
  d.evalExpr value
  let right ← popValue
  let left ← popValue
  pushValue (← binaryOp op left right)

/-- Writes the value on top to the target and leaves it alone above the stack as it was at
`base`. -/
def storeTop (base : Nat) (ref : Reference) : Flow Unit := do
  let result ← topValue
  ref.write result
  modify (·.truncate base)
  pushValue result

/-- Assignment: the target first, then the value; a compound one reads the target before
evaluating the value. -/
def evalAssign (op : Option BinaryOp) (target value : Expr) : Flow Unit := do
  let base ← stackSize
  let ref ← d.evalRef target
  match op with
  | none => d.evalExpr value
  | some op => d.evalCompound ref op value
  storeTop base ref

/-- Increment and decrement, giving the new value before or the old one after. -/
def evalUpdate (inc pre : Bool) (target : Expr) : Flow Unit := do
  let base ← stackSize
  let ref ← d.evalRef target
  let oldValue ← ref.read
  let old := (← get).toNumber oldValue
  let new := if inc then old + 1 else old - 1
  ref.write (.number new)
  modify (·.truncate base)
  pushValue (.number (if pre then new else old))

/-- Pushes the callee and the receiver of a call: the object for a property access, else
undefined. -/
def evalCallee : Expr → Flow Unit
  | .member obj name => do
    let base ← stackSize
    d.evalExpr obj
    let target ← topValue
    let f ← getProperty target name
    modify (·.insertAbs base f)
  | .index obj key => do
    let base ← stackSize
    d.evalExpr obj
    let k ← d.evalPop key
    let key := (← get).propertyKey k
    let target ← topValue
    let f ← getProperty target key
    modify (·.insertAbs base f)
  | other => do
    d.evalExpr other
    pushValue .undefined

def evalArgs : List Expr → Flow Unit
  | [] => pure ()
  | x :: rest => do
    d.evalExpr x
    evalArgs rest

def evalCall (callee : Expr) (args : List Expr) : Flow Unit := do
  let base ← stackSize
  d.evalCallee callee
  d.evalArgs args
  let e ← get
  if !e.isCallable (e.getAbs base) then
    modify (·.truncate base)
    throwNew .typeError (callee.calleeName ++ " is not a function")
  d.invoke args.length false

def evalNew (callee : Expr) (args : List Expr) : Flow Unit := do
  let base ← stackSize
  d.evalExpr callee
  pushValue .undefined
  d.evalArgs args
  let e ← get
  if !e.isConstructor (e.getAbs base) then
    modify (·.truncate base)
    throwNew .typeError (callee.calleeName ++ " is not a constructor")
  d.invoke args.length true

/-- Evaluates two operands in order and takes their values back off the stack. -/
def evalOperands (first second : Expr) : Flow (Value × Value) := do
  d.evalExpr first
  d.evalExpr second
  let b ← popValue
  let a ← popValue
  pure (a, b)

/-- A comma expression; its value is the last one's. -/
def evalSequence : List Expr → Flow Unit
  | [] => pushValue .undefined
  | [x] => d.evalExpr x
  | x :: rest => do
    discard (d.evalPop x)
    evalSequence rest

/-- One step of evaluating an expression. -/
def evalExprKind : Expr → Flow Unit
  | .number v => pushValue (.number v)
  | .string s => pushValue (.string s)
  | .bool b => pushValue (.bool b)
  | .null => pushValue .null
  | .this => do pushValue (← get).thisValue
  | .ident name => do
    match (← get).lookupVar name with
    | some v => pushValue v
    | none => throwNew .referenceError (name ++ " is not defined")
  | .array elems => do
    let id ← allocObject { kind := .array #[] }
    pushValue (.object id)
    d.evalElements id elems
  | .object props => do
    let id ← allocObject { kind := .plain }
    pushValue (.object id)
    d.evalProperties id props
  | .function defn => do
    let c ← makeClosure defn
    pushValue (.object c)
  | .unary op operand => d.evalUnary op operand
  | .update inc pre target => d.evalUpdate inc pre target
  | .binary op l r => do
    let (left, right) ← d.evalOperands l r
    pushValue (← binaryOp op left right)
  | .logical op l r => do
    d.evalExpr l
    let truthy := (← topValue).truthy
    let decided := match op with
      | .and => !truthy
      | .or => truthy
    if !decided then
      discard popValue
      d.evalExpr r
  | .assign op target value => d.evalAssign op target value
  | .conditional test yes no => do
    let t ← d.evalPop test
    d.evalExpr (if t.truthy then yes else no)
  | .member obj name => do
    let target ← d.evalPop obj
    pushValue (← getProperty target name)
  | .index obj key => do
    let (target, k) ← d.evalOperands obj key
    let key := (← get).propertyKey k
    pushValue (← getProperty target key)
  | .call callee args => d.evalCall callee args
  | .new callee args => d.evalNew callee args
  | .sequence es => d.evalSequence es

end Evaluator

end EmbedScript
