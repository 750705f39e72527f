import EmbedScript.Engine.Control

/-!
The host functions an embedder can install, written against the stack interface alone. Each
sees the frame of its arguments and reports how many results it pushed; the result of a call
is then the top of that frame. The few that run script code or collect do so through a
`Reentry`, which the evaluator supplies, so that the catalogue stands apart from evaluation.
-/

namespace EmbedScript

namespace Api

/-- The text of the argument at an index, and the empty string if there is none. -/
def argText (k : Int) : Api String := do
  if ((← get).normalize k).isSome then
    dup k
    let s ← toStringAt (-1)
    pop
    pure s
  else pure ""

def getPoint (i : Int) : Api Point := do
  match ← getHostObject i .point with
  | .point p => pure p
  | v => fail (.typeMismatch HostKind.point.typeName v.kind.typeName)

def getText (i : Int) : Api String := do
  match ← getHostObject i .text with
  | .text s => pure s
  | v => fail (.typeMismatch HostKind.text.typeName v.kind.typeName)

/-- Copies the first `count` arguments into the array at index `arr`. -/
def copyArgs (arr : Int) (count : Nat) : Api Unit :=
  (List.range count).forM fun i => do
    dup i
    putPropIndex arr i

/-- Adds the numbers at the indices below `count`, from the first. -/
def sumNumbers (count : Nat) : Api Float :=
  (List.range count).foldlM (fun s (i : Nat) => do pure (s + (← getNumber i))) 0

/-- Pushes a number property onto the object at the top of the stack. -/
def putNumber (key : String) (x : Nat) : Api Unit := do
  push (.number x.toFloat)
  putPropString (-2) key

end Api

/-- The operations through which host functions run script code and collect. -/
structure Reentry where
  evalString : String → Api Unit
  pevalString : String → Api Unit
  call : Nat → Api Unit
  pcall : Nat → Api Unit
  collect : Api CollectStats

open Api in
/-- Runs a host function in the frame of its arguments and gives the number of results. -/
def Reentry.runNative (r : Reentry) : Native → Api Nat
  | .errorConstructor kind => do
    let message ← if ((← get).get? 0).any Value.isUndefined then pure "" else toStringAt 0
    let _ ← pushErrorObject kind message
    pure 1
  | .sum => do
    let s ← sumNumbers (← getTop)
    push (.number s)
    pure 1
  | .add2 => do
    let top : Int := (← getTop)
    let a ← getNumber (top - 2)
    let b ← getNumber (top - 1)
    push (.number (a + b))
    pure 1
  | .hi => do
    let x ← getInt (-2)
    push (.string ("hi! " ++ toString x))
    pure 1
  | .inc => do
    modify fun e => { e with tally := e.tally + 1 }
    push (.number (Float.ofInt (← get).tally))
    pure 1
  | .dec => do
    modify fun e => { e with tally := e.tally - 1 }
    push (.number (Float.ofInt (← get).tally))
    pure 1
  | .fail => do
    push (intValue 1)
    push (intValue 2)
    fail (.hostFunction "disk on fire")
  | .failMsg => do
    fail (.hostFunction (← argText 0))
  | .rethrow => do
    let name ← argText 0
    let message ← argText 1
    fail (.script ⟨name, message⟩)
  | .num0 => do
    let x ← getNumber 0
    push (.number x)
    pure 1
  | .int0 => do
    let x ← getInt 0
    push (intValue x)
    pure 1
  | .str0 => do
    let s ← getString 0
    push (.string s)
    pure 1
  | .bool0 => do
    let b ← getBoolean 0
    push (.bool !b)
    pure 1
  | .deep => do
    let _ ← getString 5
    pure 0
  | .underflow => do
    popN ((← getTop) + 1)
    pure 0
  | .notObject => do
    push (intValue 1)
    putPropString (-2) "x"
    pure 0
  | .retn => do
    pure (max (← getInt 0) 0).toNat
  | .argc => do
    push (intValue (← getTop))
    pure 1
  | .args => do
    let top ← getTop
    let arr ← pushArray
    copyArgs arr top
    pure 1
  | .this => do
    pushThis
    pure 1
  | .thisTag => do
    pushThis
    let _ ← getPropString (-1) "tag"
    pure 1
  | .collect => do
    let stats ← r.collect
    let _ ← pushObject
    putNumber "freed" stats.freed
    putNumber "finalizers" stats.finalizersRun
    putNumber "released" stats.handlesReleased
    putNumber "live" stats.liveObjects
    pure 1
  | .eval => do
    r.evalString (← argText 0)
    pure 1
  | .peval => do
    ignoreError (r.pevalString (← argText 0))
    pure 1
  | .call => do
    let top ← getTop
    if top == 0 then return 0
    r.call (top - 1)
    pure 1
  | .pcall => do
    let top ← getTop
    if top == 0 then return 0
    ignoreError (r.pcall (top - 1))
    pure 1
  | .makePoint => do
    let x ← toIntAt 0
    let y ← toIntAt 1
    let _ ← pushHostObject (.point ⟨x, y⟩)
    pure 1
  | .makeStr => do
    let _ ← pushHostObject (.text (← argText 0))
    pure 1
  | .pointSum => do
    let p ← getPoint 0
    push (.number (Float.ofInt (p.x + p.y)))
    pure 1
  | .strOf => do
    let s ← getText 0
    push (.string s)
    pure 1
  | .handle => do
    let h ← getHostHandle 0
    push (.number h.toFloat)
    pure 1
  | .registryLen => do
    push (.number (← get).registry.size.toFloat)
    pure 1
  | .setGlobal => do
    let key ← argText 0
    dup 1
    putGlobalString key
    pure 0
  | .getProp => do
    let key ← argText 1
    let _ ← getPropString 0 key
    pure 1
  | .errorObj => do
    let kind := (ErrorKind.ofName? (← argText 0)).getD .error
    let _ ← pushErrorObject kind (← argText 1)
    pure 1
  | .setTop => do
    setTop (← getInt 0)
    getTop
  | .finalize => do
    dup 1
    setFinalizer 0
    pure 0
  | .globalTag => do
    pushGlobalObject
    let _ ← getPropString (-1) "tag"
    pure 1
  | .toStr => do
    let s ← toStringAt 0
    push (.string s)
    pure 1
  | .toNum => do
    let x ← toNumberAt 0
    push (.number x)
    pure 1
  | .length0 => do
    let k ← getLength 0
    push (.number k.toFloat)
    pure 1
  | .lookupRaw => do
    let raw := max 1 (min (← getInt 0) 100000)
    match (← get).registry.lookup raw.toNat with
    | .ok _ =>
      push (.bool true)
      pure 1
    | .error err => fail err
  | .noop => pure 0

end EmbedScript
