import Mathlib
import EmbedScript.Proofs.NestingLimit

/-!
The order in which evaluation runs the parts of an expression. A step of evaluation is a function
of the evaluator one level down, so it can be run over a stand-in for that level: a `Probe`,
which on each operand edits the heap, stamps the tally and pushes or throws a value of its
choosing, and on each call stamps the tally. The tally is the counter scripts step through the
counting natives, so the stamps are what a script sees. Over every probe, a step stamps the
schedule of its expression: each operand once, in the order of ES5, only the branch that `&&`,
`||` and `?:` take, and the whole schedule when the step completes, which the control
expressions always do when their operands do.

Compound assignment and increment of a property are compared with the ES5 algorithms written
over the probe (11.13.2, 11.3, 11.4.4): the target's object and key are evaluated once, the old
value is read through them before the right side, and the result is stored back through them.
The two runs end alike, with the same outcome and heap; after a throw they differ only in the
values left on the stack.
-/

namespace EmbedScript

open Syntax

/-- What the evaluation of one expression shows of its work: an operand evaluated, or a call
made with so many arguments, as a construction or not. -/
inductive Event where
  | eval (x : Expr)
  | invoke (argc : Nat) (construct : Bool)

/-- A stand-in for the evaluator one level down that shows when it runs. Evaluating an operand
applies its stamp to the tally and its edit to the heap, then pushes its value or throws it;
a call applies its stamp. -/
structure Probe where
  stamp : Event → Int → Int
  value : Expr → Value
  edit : Expr → Heap → Heap
  throws : Expr → Bool

namespace Syntax

/-- Whether a short-circuit operator stops at a left side of this truthiness: `&&` at a falsy
one, `||` at a truthy one. -/
def LogicalOp.stopsAt : LogicalOp → Bool → Bool
  | .and, truthy => !truthy
  | .or, truthy => truthy

namespace Expr

/-- The operands an assignment or update target evaluates: the object of a property access,
then its key. -/
def referenceParts : Expr → List Expr
  | .member obj _ => [obj]
  | .index obj key => [obj, key]
  | _ => []

/-- What a call evaluates before its arguments: for a method call the object (which becomes the
receiver) and the key, else the callee itself. -/
def calleeParts : Expr → List Expr
  | .member obj _ => [obj]
  | .index obj key => [obj, key]
  | callee => [callee]

/-- What `delete` evaluates: the object and key of a property access, nothing of a variable,
and any other operand itself. -/
def deleteParts : Expr → List Expr
  | .member obj _ => [obj]
  | .index obj key => [obj, key]
  | .ident _ => []
  | operand => [operand]

/-- What a prefix operator evaluates; `typeof` of a variable only looks it up. -/
def unaryParts : UnaryOp → Expr → List Expr
  | .typeOf, .ident _ => []
  | .delete, operand => operand.deleteParts
  | _, operand => [operand]

/-- The events of evaluating an expression in the order of ES5, given the values its operands
take: each operand once, left before right, an object before its key, a callee and receiver
before the arguments and the call last, an assignment target before the value assigned, and of
`&&`, `||` and `?:` only the branch taken. -/
def schedule (value : Expr → Value) : Expr → List Event
  | .array elems => (elems.filterMap id).map .eval
  | .object props => props.map fun prop => .eval prop.2
  | .unary op operand => (unaryParts op operand).map .eval
  | .update _ _ target => target.referenceParts.map .eval
  | .binary _ l r => [.eval l, .eval r]
  | .logical op l r => .eval l :: if op.stopsAt (value l).truthy then [] else [.eval r]
  | .assign _ target v => target.referenceParts.map .eval ++ [.eval v]
  | .conditional test yes no => [.eval test, .eval (if (value test).truthy then yes else no)]
  | .member obj _ => [.eval obj]
  | .index obj key => [.eval obj, .eval key]
  | .call callee args => (callee.calleeParts ++ args).map .eval ++ [.invoke args.length false]
  | .new callee args => (callee :: args).map .eval ++ [.invoke args.length true]
  | .sequence es => es.map .eval
  | _ => []

/-- The expressions that choose or sequence their operands and raise no error of their own:
`&&`, `||`, `?:` and the comma. -/
def isControl : Expr → Bool
  | .logical .. | .conditional .. | .sequence _ => true
  | _ => false

end Expr

end Syntax

/-- Code that leaves the tally as it found it, whether it completes or throws. -/
def KeepsTally {α : Type} (f : Flow α) : Prop := ∀ e, (f.run.run e).2.tally = e.tally

namespace KeepsTally

variable {α β : Type}

theorem bind {f : Flow α} {g : α → Flow β} (first : KeepsTally f) (rest : ∀ a, KeepsTally (g a)) :
    KeepsTally (f >>= g) := by
  intro e
  rw [run_bind]
  rcases ran : f.run.run e with ⟨_ | a, e'⟩
  · simpa [ran] using first e
  · have kept : e'.tally = e.tally := by simpa [ran] using first e
    simpa [kept] using rest a e'

theorem pure (a : α) : KeepsTally (Pure.pure a : Flow α) := fun _ => rfl

theorem modify {f : Engine → Engine} (kept : ∀ e, (f e).tally = e.tally) :
    KeepsTally (modify f : Flow PUnit) := kept

theorem get : KeepsTally (get : Flow Engine) := fun _ => rfl

theorem pushValue (v : Value) : KeepsTally (pushValue v : Flow Unit) := fun _ => rfl

theorem popValue : KeepsTally (popValue : Flow Value) := by
  intro e
  rw [run_popValue]
  split <;> rename_i popped
  · simp only [Engine.pop?] at popped
    split at popped
    · cases popped
      rfl
    · contradiction
  · rfl

theorem topValue : KeepsTally (topValue : Flow Value) := fun _ => rfl

theorem stackSize : KeepsTally (stackSize : Flow Nat) := fun _ => rfl

theorem throwNew (kind : ErrorKind) (message : String) : KeepsTally (throwNew kind message : Flow α) :=
  fun _ => rfl

theorem allocObject (o : HeapObject) : KeepsTally (allocObject o : Flow ObjectId) := fun _ => rfl

theorem makeClosure (defn : FunctionDef) : KeepsTally (makeClosure defn) := fun _ => rfl

theorem objectPut (id : ObjectId) (key : String) (v : Value) : KeepsTally (objectPut id key v) := by
  intro e
  simp only [EmbedScript.objectPut, run_bind, run_get]
  split
  · split
    · split <;> rfl
    · split
      · split <;> rfl
      · rfl
  · rfl

theorem binaryOp (op : BinaryOp) (a b : Value) : KeepsTally (binaryOp op a b) := by
  intro e
  cases op <;> simp only [EmbedScript.binaryOp, run_bind, run_get] <;> (try split) <;> rfl

theorem getProperty (target : Value) (key : String) : KeepsTally (getProperty target key) := by
  intro e
  cases target <;> simp only [EmbedScript.getProperty, run_bind, run_get] <;> (try split) <;>
    (try split) <;> rfl

theorem putProperty (target : Value) (key : String) (v : Value) :
    KeepsTally (putProperty target key v) := by
  intro e
  cases target
  case object id => exact objectPut id key v e
  all_goals rfl

theorem deleteProperty (target : Value) (key : String) : KeepsTally (deleteProperty target key) := by
  intro e
  cases target
  case object id =>
    have deleted : (e.objectDelete id key).2.tally = e.tally := by
      unfold Engine.objectDelete
      split
      · rfl
      · split
        · split
          · rfl
          · split <;> rfl
        · rfl
    show ((e.objectDelete id key).2.push (.bool (e.objectDelete id key).1)).tally = e.tally
    exact deleted
  all_goals rfl

theorem read (ref : Reference) : KeepsTally ref.read := by
  intro e
  cases ref with
  | var name =>
    simp only [Reference.read, run_bind, run_get]
    split
    · rfl
    · exact throwNew _ _ e
  | property slot key =>
    simp only [Reference.read, run_bind, run_get]
    exact getProperty _ key e

theorem write (ref : Reference) (v : Value) : KeepsTally (ref.write v) := by
  intro e
  cases ref with
  | var name =>
    simp only [Reference.write, run_modify]
    rfl
  | property slot key =>
    simp only [Reference.write, run_bind, run_get]
    exact putProperty _ key v e

end KeepsTally

/-- Code that completes from every engine. -/
def NeverFails {α : Type} (f : Flow α) : Prop := ∀ e, ∃ a, (f.run.run e).1 = .ok a

namespace NeverFails

variable {α β : Type}

theorem bind {f : Flow α} {g : α → Flow β} (first : NeverFails f) (rest : ∀ a, NeverFails (g a)) :
    NeverFails (f >>= g) := by
  intro e
  obtain ⟨a, ran⟩ := first e
  rw [run_bind]
  rcases out : f.run.run e with ⟨_ | a', e'⟩
  · rw [out] at ran
    nomatch ran
  · exact rest a' e'

theorem pure (a : α) : NeverFails (Pure.pure a : Flow α) := fun _ => ⟨a, rfl⟩

theorem pushValue (v : Value) : NeverFails (pushValue v : Flow Unit) := fun _ => ⟨(), rfl⟩

theorem topValue : NeverFails (topValue : Flow Value) := fun _ => ⟨_, rfl⟩

/-- Popping an empty frame reads `undefined`, so popping never fails. -/
theorem popValue : NeverFails (popValue : Flow Value) := by
  intro e
  rw [run_popValue]
  rcases e.pop? with _ | ⟨v, e'⟩
  · exact ⟨_, rfl⟩
  · exact ⟨v, rfl⟩

theorem ite {f g : Flow α} (c : Prop) [Decidable c] (yes : NeverFails f) (no : NeverFails g) :
    NeverFails (if c then f else g) := by
  split
  · exact yes
  · exact no

theorem discard {f : Flow α} (first : NeverFails f) : NeverFails (Functor.discard f) := by
  rw [← bind_pure (Functor.discard f), discard_bind]
  exact first.bind fun _ => pure _

end NeverFails

namespace Probe

variable (p : Probe)

/-- The engine after an operand ran, before its value is pushed. -/
def visit (y : Expr) (e : Engine) : Engine :=
  { e with heap := p.edit y e.heap, tally := p.stamp (.eval y) e.tally }

def evaluator : Evaluator :=
  { Evaluator.exhausted with
    evalExpr := fun y => do
      modify (p.visit y)
      if p.throws y then throw (.thrown (p.value y)) else pushValue (p.value y)
    invoke := fun argc construct =>
      modify fun e => { e with tally := p.stamp (.invoke argc construct) e.tally } }

/-- The stamps of events applied in order. -/
def applyAll (events : List Event) (t : Int) : Int :=
  events.foldl (fun t ev => p.stamp ev t) t

/-- Run from `e`, `f` applies to the tally the stamps of a prefix of `events`, and all of them
when it completes normally. -/
def StampsFrom {α : Type} (f : Flow α) (events : List Event) (e : Engine) : Prop :=
  ∃ n ≤ events.length, (f.run.run e).2.tally = p.applyAll (events.take n) e.tally ∧
    ∀ a, (f.run.run e).1 = .ok a → n = events.length

/-! ### Composing stamps -/

variable {p} {α β : Type}

@[simp] theorem applyAll_nil (t : Int) : p.applyAll [] t = t := rfl

theorem applyAll_append (xs ys : List Event) (t : Int) :
    p.applyAll (xs ++ ys) t = p.applyAll ys (p.applyAll xs t) :=
  List.foldl_append

theorem StampsFrom.of_keeps {f : Flow α} (keeps : KeepsTally f) (e : Engine) :
    p.StampsFrom f [] e :=
  ⟨0, le_rfl, by simpa using keeps e, fun _ _ => rfl⟩

/-- Stamps compose along a sequence: what the first part stamps, then what the rest stamps from
where the first part completed. -/
theorem StampsFrom.bind {f : Flow α} {g : α → Flow β} {ev₁ ev₂ : List Event} {e : Engine}
    (first : p.StampsFrom f ev₁ e)
    (rest : ∀ a e', f.run.run e = (.ok a, e') → p.StampsFrom (g a) ev₂ e') :
    p.StampsFrom (f >>= g) (ev₁ ++ ev₂) e := by
  obtain ⟨n, le, tally, complete⟩ := first
  unfold StampsFrom
  rw [run_bind]
  rcases ran : f.run.run e with ⟨_ | a, e'⟩
  · -- the first part threw: its prefix is one of the whole
    rw [ran] at tally
    refine ⟨n, by simp; omega, ?_, fun _ threw => nomatch threw⟩
    rw [List.take_append_of_le_length le]
    exact tally
  · rw [ran] at tally complete
    obtain ⟨m, le', tally', complete'⟩ := rest a e' ran
    obtain rfl := complete a rfl
    refine ⟨ev₁.length + m, by simp; omega, ?_, fun b ok => by rw [complete' b ok]; simp⟩
    rw [List.take_length_add_append, applyAll_append, tally', tally, List.take_length]

/-- The usual case of `bind`: the first part stamps one event. -/
theorem StampsFrom.cons {f : Flow α} {g : α → Flow β} {ev : Event} {ev₂ : List Event} {e : Engine}
    (first : p.StampsFrom f [ev] e)
    (rest : ∀ a e', f.run.run e = (.ok a, e') → p.StampsFrom (g a) ev₂ e') :
    p.StampsFrom (f >>= g) (ev :: ev₂) e :=
  StampsFrom.bind first rest

theorem StampsFrom.keeps_then {f : Flow α} {g : α → Flow β} {ev : List Event} {e : Engine}
    (first : KeepsTally f) (rest : ∀ a e', f.run.run e = (.ok a, e') → p.StampsFrom (g a) ev e') :
    p.StampsFrom (f >>= g) ev e :=
  StampsFrom.bind (StampsFrom.of_keeps first e) rest

theorem StampsFrom.then_keeps {f : Flow α} {g : α → Flow β} {ev : List Event} {e : Engine}
    (first : p.StampsFrom f ev e) (rest : ∀ a, KeepsTally (g a)) : p.StampsFrom (f >>= g) ev e := by
  simpa using StampsFrom.bind first fun a e' _ => StampsFrom.of_keeps (rest a) e'

theorem StampsFrom.discard {f : Flow α} {ev : List Event} {e : Engine} (first : p.StampsFrom f ev e) :
    p.StampsFrom (Functor.discard f) ev e := by
  rw [← bind_pure (Functor.discard f), discard_bind]
  exact StampsFrom.then_keeps first fun _ => KeepsTally.pure _

/-- A thrown error stops the code after it: nothing more is stamped. -/
theorem StampsFrom.throwNew_bind (kind : ErrorKind) (message : String) (g : α → Flow β)
    (ev : List Event) (e : Engine) : p.StampsFrom (throwNew kind message >>= g) ev e := by
  refine ⟨0, Nat.zero_le _, by rw [run_bind, throwNew_run]; rfl, fun a ran => ?_⟩
  rw [run_bind, throwNew_run] at ran
  nomatch ran

/-! ### The stand-in one level down -/

variable (p)

theorem evalExpr_run (y : Expr) (e : Engine) : (p.evaluator.evalExpr y).run.run e =
    if p.throws y then (.error (.thrown (p.value y)), p.visit y e)
    else (.ok (), (p.visit y e).push (p.value y)) := by
  rw [show p.evaluator.evalExpr y = (modify (p.visit y) >>= fun _ =>
    if p.throws y then throw (.thrown (p.value y)) else pushValue (p.value y)) from rfl,
    run_bind, run_modify]
  cases p.throws y <;> rfl

theorem stamps_evalExpr (y : Expr) (e : Engine) :
    p.StampsFrom (p.evaluator.evalExpr y) [.eval y] e := by
  refine ⟨1, le_rfl, ?_, fun _ _ => rfl⟩
  rw [evalExpr_run]
  split <;> rfl

/-- Within a frame, an operand that completes is popped again as its value, leaving the stack
as it was. -/
theorem evalPop_run (y : Expr) (e : Engine) (framed : e.bottom ≤ e.stack.size) :
    (p.evaluator.evalPop y).run.run e =
      if p.throws y then (.error (.thrown (p.value y)), p.visit y e)
      else (.ok (p.value y), p.visit y e) := by
  simp only [Evaluator.evalPop, run_bind, evalExpr_run]
  by_cases thrown : p.throws y
  · simp [thrown]
  · simp only [thrown, Bool.false_eq_true, if_false]
    rw [run_popValue]
    have popped : ((p.visit y e).push (p.value y)).pop? = some (p.value y, p.visit y e) := by
      simp only [Engine.pop?, Engine.push, Array.size_push, Array.back?_push, Option.getD_some,
        Array.pop_push]
      rw [if_pos (by simp only [visit]; omega)]
    rw [popped]

theorem stamps_evalPop (y : Expr) (e : Engine) :
    p.StampsFrom (p.evaluator.evalPop y) [.eval y] e :=
  StampsFrom.then_keeps (p.stamps_evalExpr y e) fun _ => KeepsTally.popValue

theorem stamps_invoke (argc : Nat) (construct : Bool) (e : Engine) :
    p.StampsFrom (p.evaluator.invoke argc construct) [.invoke argc construct] e :=
  ⟨1, le_rfl, rfl, fun _ _ => rfl⟩

/-! ### Each kind of expression -/

theorem stamps_evalRef (target : Expr) (e : Engine) :
    p.StampsFrom (p.evaluator.evalRef target) (target.referenceParts.map .eval) e := by
  cases target
  case ident name => exact StampsFrom.of_keeps (KeepsTally.pure _) e
  case member obj name =>
    exact StampsFrom.keeps_then KeepsTally.stackSize fun slot e' _ =>
      StampsFrom.then_keeps (p.stamps_evalExpr obj e') fun _ => KeepsTally.pure _
  case index obj key =>
    refine StampsFrom.keeps_then KeepsTally.stackSize fun slot e₁ _ =>
      StampsFrom.cons (p.stamps_evalExpr obj e₁) fun _ e₂ _ => ?_
    exact StampsFrom.then_keeps (p.stamps_evalPop key e₂) fun k =>
      KeepsTally.bind KeepsTally.get fun _ => KeepsTally.pure _
  all_goals exact StampsFrom.of_keeps (KeepsTally.throwNew _ _) e

theorem stamps_evalOperands (l r : Expr) (e : Engine) :
    p.StampsFrom (p.evaluator.evalOperands l r) [.eval l, .eval r] e :=
  StampsFrom.cons (p.stamps_evalExpr l e) fun _ e₁ _ =>
    StampsFrom.then_keeps (p.stamps_evalExpr r e₁) fun _ =>
      KeepsTally.bind KeepsTally.popValue fun _ => KeepsTally.bind KeepsTally.popValue fun _ =>
        KeepsTally.pure _

theorem stamps_evalElements (array : ObjectId) (elems : List (Option Expr)) (e : Engine) :
    p.StampsFrom (p.evaluator.evalElements array elems) ((elems.filterMap id).map .eval) e := by
  induction elems generalizing e with
  | nil => exact StampsFrom.of_keeps (KeepsTally.pure _) e
  | cons el rest ih =>
    cases el with
    | none =>
      exact StampsFrom.keeps_then (KeepsTally.pure _) fun _ e₁ _ =>
        StampsFrom.keeps_then (KeepsTally.modify fun _ => rfl) fun _ e₂ _ => ih e₂
    | some x =>
      exact StampsFrom.bind (p.stamps_evalPop x e) fun _ e₁ _ =>
        StampsFrom.keeps_then (KeepsTally.modify fun _ => rfl) fun _ e₂ _ => ih e₂

theorem stamps_evalProperties (obj : ObjectId) (props : List (String × Expr)) (e : Engine) :
    p.StampsFrom (p.evaluator.evalProperties obj props) (props.map fun prop => .eval prop.2) e := by
  induction props generalizing e with
  | nil => exact StampsFrom.of_keeps (KeepsTally.pure _) e
  | cons prop rest ih =>
    exact StampsFrom.bind (p.stamps_evalPop prop.2 e) fun v e₁ _ =>
      StampsFrom.keeps_then (KeepsTally.objectPut obj prop.1 v) fun _ e₂ _ => ih e₂

theorem stamps_evalArgs (args : List Expr) (e : Engine) :
    p.StampsFrom (p.evaluator.evalArgs args) (args.map .eval) e := by
  induction args generalizing e with
  | nil => exact StampsFrom.of_keeps (KeepsTally.pure _) e
  | cons x rest ih => exact StampsFrom.bind (p.stamps_evalExpr x e) fun _ e₁ _ => ih e₁

theorem stamps_evalSequence (es : List Expr) (e : Engine) :
    p.StampsFrom (p.evaluator.evalSequence es) (es.map .eval) e := by
  induction es generalizing e with
  | nil => exact StampsFrom.of_keeps (KeepsTally.pushValue _) e
  | cons x rest ih =>
    cases rest with
    | nil => exact p.stamps_evalExpr x e
    | cons y rest =>
      exact StampsFrom.cons (StampsFrom.discard (p.stamps_evalPop x e))
        fun _ e₁ _ => ih e₁

theorem stamps_evalDelete (operand : Expr) (e : Engine) :
    p.StampsFrom (p.evaluator.evalDelete operand) (operand.deleteParts.map .eval) e := by
  cases operand
  case member obj name =>
    exact StampsFrom.then_keeps (p.stamps_evalPop obj e) fun target =>
      KeepsTally.deleteProperty target name
  case index obj key =>
    exact StampsFrom.cons (p.stamps_evalExpr obj e) fun _ e₁ _ =>
      StampsFrom.then_keeps (p.stamps_evalPop key e₁) fun _ =>
        KeepsTally.bind KeepsTally.popValue fun target =>
          KeepsTally.bind KeepsTally.get fun _ => KeepsTally.deleteProperty target _
  case ident name => exact StampsFrom.of_keeps (KeepsTally.pushValue _) e
  all_goals exact StampsFrom.then_keeps (StampsFrom.discard (p.stamps_evalPop _ e)) fun _ =>
    KeepsTally.pushValue _

theorem stamps_evalUnary (op : UnaryOp) (operand : Expr) (e : Engine) :
    p.StampsFrom (p.evaluator.evalUnary op operand) ((Expr.unaryParts op operand).map .eval) e := by
  -- the operators that push something computed from the engine and the operand's value
  have computed : ∀ push : Engine → Value → Value, p.StampsFrom (do
      let v ← p.evaluator.evalPop operand
      pushValue (push (← get) v)) [.eval operand] e := fun push =>
    StampsFrom.then_keeps (p.stamps_evalPop operand e) fun _ =>
      KeepsTally.bind KeepsTally.get fun _ => KeepsTally.pushValue _
  cases op
  case typeOf =>
    cases operand
    case ident name =>
      exact StampsFrom.of_keeps (KeepsTally.bind (KeepsTally.bind KeepsTally.get fun _ =>
        KeepsTally.pure _) fun _ => KeepsTally.bind KeepsTally.get fun _ => KeepsTally.pushValue _) e
    all_goals exact computed fun e v => .string (e.typeOf v)
  case delete => exact p.stamps_evalDelete operand e
  case void =>
    exact StampsFrom.then_keeps (StampsFrom.discard (p.stamps_evalPop operand e)) fun _ =>
      KeepsTally.pushValue _
  case not =>
    exact StampsFrom.then_keeps (p.stamps_evalPop operand e) fun _ => KeepsTally.pushValue _
  case neg => exact computed fun e v => .number (-e.toNumber v)
  case plus => exact computed fun e v => .number (e.toNumber v)
  case bitNot => exact computed fun e v => intValue (Number.bitNot (e.toNumber v))

theorem storeTop_keepsTally (base : Nat) (ref : Reference) :
    KeepsTally (Evaluator.storeTop base ref) :=
  KeepsTally.bind KeepsTally.topValue fun result => KeepsTally.bind (KeepsTally.write ref result)
    fun _ => KeepsTally.bind (KeepsTally.modify fun _ => rfl) fun _ => KeepsTally.pushValue _

theorem stamps_evalAssign (op : Option BinaryOp) (target v : Expr) (e : Engine) :
    p.StampsFrom (p.evaluator.evalAssign op target v)
      (target.referenceParts.map .eval ++ [.eval v]) e := by
  refine StampsFrom.keeps_then KeepsTally.stackSize fun base e₁ _ =>
    StampsFrom.bind (p.stamps_evalRef target e₁) fun ref e₂ _ => ?_
  cases op with
  | none =>
    exact StampsFrom.then_keeps (p.stamps_evalExpr v e₂) fun _ => storeTop_keepsTally base ref
  | some op =>
    -- the target's current value is read and kept on the stack while the value runs
    refine StampsFrom.then_keeps ?_ fun _ => storeTop_keepsTally base ref
    exact StampsFrom.keeps_then (KeepsTally.read ref) fun current e₃ _ =>
      StampsFrom.keeps_then (KeepsTally.pushValue current) fun _ e₄ _ =>
        StampsFrom.then_keeps (p.stamps_evalExpr v e₄) fun _ =>
          KeepsTally.bind KeepsTally.popValue fun right => KeepsTally.bind KeepsTally.popValue
            fun left => KeepsTally.bind (KeepsTally.binaryOp op left right) KeepsTally.pushValue

theorem stamps_evalUpdate (inc pre : Bool) (target : Expr) (e : Engine) :
    p.StampsFrom (p.evaluator.evalUpdate inc pre target) (target.referenceParts.map .eval) e :=
  StampsFrom.keeps_then KeepsTally.stackSize fun _ e₁ _ =>
    StampsFrom.then_keeps (p.stamps_evalRef target e₁) fun ref =>
      KeepsTally.bind (KeepsTally.read ref) fun _ => KeepsTally.bind KeepsTally.get fun _ =>
        KeepsTally.bind (KeepsTally.write ref _) fun _ =>
          KeepsTally.bind (KeepsTally.modify fun _ => rfl) fun _ => KeepsTally.pushValue _

theorem stamps_evalCallee (callee : Expr) (e : Engine) :
    p.StampsFrom (p.evaluator.evalCallee callee) (callee.calleeParts.map .eval) e := by
  cases callee
  case member obj name =>
    exact StampsFrom.keeps_then KeepsTally.stackSize fun base e₁ _ =>
      StampsFrom.then_keeps (p.stamps_evalExpr obj e₁) fun _ =>
        KeepsTally.bind KeepsTally.topValue fun target =>
          KeepsTally.bind (KeepsTally.getProperty target name) fun _ => KeepsTally.modify fun _ => rfl
  case index obj key =>
    exact StampsFrom.keeps_then KeepsTally.stackSize fun base e₁ _ =>
      StampsFrom.cons (p.stamps_evalExpr obj e₁) fun _ e₂ _ =>
        StampsFrom.then_keeps (p.stamps_evalPop key e₂) fun _ =>
          KeepsTally.bind KeepsTally.get fun _ => KeepsTally.bind KeepsTally.topValue fun target =>
            KeepsTally.bind (KeepsTally.getProperty target _) fun _ => KeepsTally.modify fun _ => rfl
  all_goals exact StampsFrom.then_keeps (p.stamps_evalExpr _ e) fun _ => KeepsTally.pushValue _

theorem stamps_evalCall (callee : Expr) (args : List Expr) (e : Engine) :
    p.StampsFrom (p.evaluator.evalCall callee args)
      ((callee.calleeParts ++ args).map .eval ++ [.invoke args.length false]) e := by
  rw [List.map_append, List.append_assoc]
  refine StampsFrom.keeps_then KeepsTally.stackSize fun base e₁ _ =>
    StampsFrom.bind (p.stamps_evalCallee callee e₁) fun _ e₂ _ =>
      StampsFrom.bind (p.stamps_evalArgs args e₂) fun _ e₃ _ =>
        StampsFrom.keeps_then KeepsTally.get fun _ e₄ _ => ?_
  -- a callee that is no function throws before anything is invoked
  split
  · exact StampsFrom.keeps_then (KeepsTally.modify fun _ => rfl) fun _ e₅ _ =>
      StampsFrom.throwNew_bind _ _ _ _ e₅
  · exact p.stamps_invoke _ _ e₄

theorem stamps_evalNew (callee : Expr) (args : List Expr) (e : Engine) :
    p.StampsFrom (p.evaluator.evalNew callee args)
      ((callee :: args).map .eval ++ [.invoke args.length true]) e := by
  rw [List.map_cons, List.cons_append]
  refine StampsFrom.keeps_then KeepsTally.stackSize fun base e₁ _ =>
    StampsFrom.cons (p.stamps_evalExpr callee e₁) fun _ e₂ _ =>
      StampsFrom.keeps_then (KeepsTally.pushValue _) fun _ e₃ _ =>
        StampsFrom.bind (p.stamps_evalArgs args e₃) fun _ e₄ _ =>
          StampsFrom.keeps_then KeepsTally.get fun _ e₅ _ => ?_
  split
  · exact StampsFrom.keeps_then (KeepsTally.modify fun _ => rfl) fun _ e₆ _ =>
      StampsFrom.throwNew_bind _ _ _ _ e₆
  · exact p.stamps_invoke _ _ e₅

/-- An operand that completed left its value on top. -/
theorem topValue_after_evalExpr {y : Expr} {e e' : Engine} {u : Unit}
    (ran : (p.evaluator.evalExpr y).run.run e = (.ok u, e')) :
    (topValue : Flow Value).run.run e' = (.ok (p.value y), e') := by
  rw [evalExpr_run] at ran
  by_cases thrown : p.throws y
  · simp only [thrown, if_true] at ran
    cases ran
  · simp only [thrown, Bool.false_eq_true, if_false] at ran
    cases ran
    show (Except.ok (((p.visit y e).push (p.value y)).stack.back?.getD .undefined), _) = _
    simp [Engine.push]

/-- `&&` and `||` run the right operand only when the left one does not decide. -/
theorem stamps_logical (op : LogicalOp) (l r : Expr) (e : Engine) :
    p.StampsFrom (p.evaluator.evalExprKind (.logical op l r))
      (.eval l :: if op.stopsAt (p.value l).truthy then [] else [.eval r]) e := by
  refine StampsFrom.cons (p.stamps_evalExpr l e) fun _ e₁ ran => ?_
  refine StampsFrom.keeps_then KeepsTally.topValue fun v e₂ read => ?_
  -- the left value, read back off the stack, decides whether the right operand runs
  rw [p.topValue_after_evalExpr ran] at read
  cases read
  have skip : p.StampsFrom (pure () : Flow Unit) [] e₁ := StampsFrom.of_keeps (KeepsTally.pure _) e₁
  have more : p.StampsFrom (do Functor.discard popValue; p.evaluator.evalExpr r) ([] ++ [.eval r])
      e₁ := StampsFrom.bind (StampsFrom.discard (StampsFrom.of_keeps KeepsTally.popValue e₁))
      fun _ e₂ _ => p.stamps_evalExpr r e₂
  cases op <;> cases truthy : (p.value l).truthy <;>
    simp only [LogicalOp.stopsAt, Bool.not_true, Bool.not_false, if_true, if_false,
      Bool.false_eq_true]
  case and.false | or.true => exact skip
  case and.true | or.false => exact more

/-- Within a frame, an operand that completed is popped as its value. -/
theorem value_of_evalPop {y : Expr} {e e' : Engine} {v : Value} (framed : e.bottom ≤ e.stack.size)
    (ran : (p.evaluator.evalPop y).run.run e = (.ok v, e')) : v = p.value y := by
  rw [p.evalPop_run y e framed] at ran
  by_cases thrown : p.throws y
  · simp only [thrown, if_true] at ran
    cases ran
  · simp only [thrown, Bool.false_eq_true, if_false] at ran
    cases ran
    rfl

/-- The evaluation order of every kind of expression: run over the stand-in for the level
below, from an engine whose frame lies in its stack, one step of evaluation stamps a prefix of
the expression's schedule, and all of it when it completes. -/
theorem stamps_evalExprKind (x : Expr) (e : Engine) (framed : e.bottom ≤ e.stack.size) :
    p.StampsFrom (p.evaluator.evalExprKind x) (x.schedule p.value) e := by
  cases x with
  | number | string | bool | null => exact StampsFrom.of_keeps (KeepsTally.pushValue _) e
  | this => exact StampsFrom.of_keeps (KeepsTally.bind KeepsTally.get fun _ => KeepsTally.pushValue _) e
  | ident name =>
    refine StampsFrom.of_keeps (KeepsTally.bind KeepsTally.get fun e' => ?_) e
    split
    · exact KeepsTally.pushValue _
    · exact KeepsTally.throwNew _ _
  | array elems =>
    exact StampsFrom.keeps_then (KeepsTally.allocObject _) fun arr e₁ _ =>
      StampsFrom.keeps_then (KeepsTally.pushValue _) fun _ e₂ _ => p.stamps_evalElements arr elems e₂
  | object props =>
    exact StampsFrom.keeps_then (KeepsTally.allocObject _) fun obj e₁ _ =>
      StampsFrom.keeps_then (KeepsTally.pushValue _) fun _ e₂ _ => p.stamps_evalProperties obj props e₂
  | function defn =>
    exact StampsFrom.of_keeps (KeepsTally.bind (KeepsTally.makeClosure defn) fun _ =>
      KeepsTally.pushValue _) e
  | unary op operand => exact p.stamps_evalUnary op operand e
  | update inc pre target => exact p.stamps_evalUpdate inc pre target e
  | binary op l r =>
    exact StampsFrom.then_keeps (p.stamps_evalOperands l r e) fun operands =>
      KeepsTally.bind (KeepsTally.binaryOp op operands.1 operands.2) KeepsTally.pushValue
  | logical op l r => exact p.stamps_logical op l r e
  | assign op target v => exact p.stamps_evalAssign op target v e
  | conditional test yes no =>
    refine StampsFrom.cons (p.stamps_evalPop test e) fun t e₁ ran => ?_
    obtain rfl := p.value_of_evalPop framed ran
    exact p.stamps_evalExpr _ e₁
  | member obj name =>
    exact StampsFrom.then_keeps (p.stamps_evalPop obj e) fun target =>
      KeepsTally.bind (KeepsTally.getProperty target name) KeepsTally.pushValue
  | index obj key =>
    exact StampsFrom.then_keeps (p.stamps_evalOperands obj key e) fun operands =>
      KeepsTally.bind KeepsTally.get fun _ =>
        KeepsTally.bind (KeepsTally.getProperty operands.1 _) KeepsTally.pushValue
  | call callee args => exact p.stamps_evalCall callee args e
  | new callee args => exact p.stamps_evalNew callee args e
  | sequence es => exact p.stamps_evalSequence es e

section Quiet

/-! ### Where no operand throws -/

variable (quiet : ∀ y, p.throws y = false)
include quiet

theorem evalExpr_neverFails (y : Expr) : NeverFails (p.evaluator.evalExpr y) :=
  fun e => ⟨(), by rw [evalExpr_run, quiet]; rfl⟩

theorem evalPop_neverFails (y : Expr) : NeverFails (p.evaluator.evalPop y) :=
  (p.evalExpr_neverFails quiet y).bind fun _ => NeverFails.popValue

theorem evalSequence_neverFails : ∀ es, NeverFails (p.evaluator.evalSequence es)
  | [] => NeverFails.pushValue _
  | [x] => p.evalExpr_neverFails quiet x
  | x :: y :: rest => (p.evalPop_neverFails quiet x).discard.bind fun _ =>
    evalSequence_neverFails (y :: rest)

/-- The control expressions complete whenever their operands do, so then they stamp the whole
of their schedule. -/
theorem control_neverFails {x : Expr} (control : x.isControl) :
    NeverFails (p.evaluator.evalExprKind x) := by
  cases x <;> simp only [Expr.isControl, Bool.false_eq_true] at control
  case logical op l r =>
    exact (p.evalExpr_neverFails quiet l).bind fun _ => NeverFails.topValue.bind fun _ =>
      NeverFails.ite _ (NeverFails.popValue.discard.bind fun _ => p.evalExpr_neverFails quiet r)
        (NeverFails.pure ())
  case conditional test yes no =>
    exact (p.evalPop_neverFails quiet test).bind fun _ => p.evalExpr_neverFails quiet _
  case sequence es => exact p.evalSequence_neverFails quiet es

end Quiet

end Probe

/-! ### What reads only the heap -/

namespace Engine

variable {e : Engine} {s : Array Value}

@[simp] theorem object?_withStack (id : ObjectId) : ({ e with stack := s }).object? id = e.object? id :=
  rfl

theorem displayWith_withStack (n : Nat) (seen : List ObjectId) (v : Value) :
    ({ e with stack := s }).displayWith n seen v = e.displayWith n seen v := by
  induction n generalizing seen v with
  | zero => rfl
  | succ n ih =>
    -- the text of an error's fields is built by the unapplied display one level down
    have below : ∀ seen, ({ e with stack := s }).displayWith n seen = e.displayWith n seen :=
      fun seen => funext (ih seen)
    cases v with
    | object id => simp only [displayWith, object?, below]
    | _ => rfl

@[simp] theorem display_withStack (v : Value) : ({ e with stack := s }).display v = e.display v :=
  displayWith_withStack _ _ v

@[simp] theorem toNumber_withStack (v : Value) : ({ e with stack := s }).toNumber v = e.toNumber v := by
  cases v <;> simp [toNumber]

@[simp] theorem toPrimitive_withStack (v : Value) :
    ({ e with stack := s }).toPrimitive v = e.toPrimitive v := by
  cases v <;> simp [toPrimitive]

@[simp] theorem propertyKey_withStack (v : Value) :
    ({ e with stack := s }).propertyKey v = e.propertyKey v := by
  cases v <;> simp [propertyKey]

theorem looseEqualsWith_withStack (n : Nat) (a b : Value) :
    ({ e with stack := s }).looseEqualsWith n a b = e.looseEqualsWith n a b := by
  induction n generalizing a b with
  | zero => rfl
  | succ n ih => cases a <;> cases b <;> simp [looseEqualsWith, ih]

@[simp] theorem looseEquals_withStack (a b : Value) :
    ({ e with stack := s }).looseEquals a b = e.looseEquals a b :=
  looseEqualsWith_withStack 4 a b

@[simp] theorem compareValues_withStack (a b : Value) :
    ({ e with stack := s }).compareValues a b = e.compareValues a b := by
  simp [compareValues]

end Engine

/-- Two runs end alike: with the same outcome, in engines that differ at most in the values a
thrown exception leaves on the stack. -/
def EndAlike {α : Type} (r₁ r₂ : Except Unwind α × Engine) : Prop :=
  r₁.1 = r₂.1 ∧ { r₁.2 with stack := r₂.2.stack } = r₂.2 ∧
    ∀ a, r₁.1 = .ok a → r₁.2.stack = r₂.2.stack

theorem endAlike_error {α : Type} (u : Unwind) (e : Engine) (s : Array Value) :
    EndAlike ((.error u, { e with stack := s }) : Except Unwind α × Engine) (.error u, e) :=
  ⟨rfl, rfl, fun _ threw => nomatch threw⟩

/-- Cutting the stack back to where it stood and pushing the result ends where pushing it onto
that stack does. -/
theorem endAlike_truncate_push (E : Engine) {S : Array Value} {n : Nat} (v : Value)
    (cut : S.take n = E.stack) :
    EndAlike ((pushValue v : Flow Unit).run.run ({ E with stack := S }.truncate n))
      ((pushValue v : Flow Unit).run.run E) := by
  have restored : { E with stack := S }.truncate n = E := by simp [Engine.truncate, cut]
  rw [restored]
  exact ⟨rfl, rfl, fun _ _ => rfl⟩

/-- Code that neither reads nor writes the stack: run over any other stack, it does the same
and leaves that stack alone. -/
def StackBlind {α : Type} (f : Flow α) : Prop :=
  ∀ e s, f.run.run { e with stack := s } = ((f.run.run e).1, { (f.run.run e).2 with stack := s })

namespace StackBlind

variable {α β : Type}

theorem throwNew (kind : ErrorKind) (message : String) : StackBlind (throwNew kind message : Flow α) :=
  fun _ _ => rfl

theorem getProperty (target : Value) (key : String) : StackBlind (getProperty target key) := by
  intro e s
  cases target
  case string text =>
    simp only [EmbedScript.getProperty, run_bind, run_get]
    split
    · rfl
    · split <;> rfl
  all_goals rfl

theorem binaryOp (op : BinaryOp) (a b : Value) : StackBlind (binaryOp op a b) := by
  intro e s
  cases op
  case add =>
    simp only [EmbedScript.binaryOp, run_bind, run_get, Engine.toPrimitive_withStack,
      Engine.display_withStack, Engine.toNumber_withStack]
    split <;> rfl
  case eq | notEq =>
    simp only [EmbedScript.binaryOp, run_bind, run_get, Engine.looseEquals_withStack]
    rfl
  case lt | ltEq | gt | gtEq =>
    simp only [EmbedScript.binaryOp, run_bind, run_get, Engine.compareValues_withStack]
    rfl
  case hasKey =>
    simp only [EmbedScript.binaryOp, run_bind, run_get, Engine.propertyKey_withStack]
    split <;> rfl
  case exp =>
    simp only [EmbedScript.binaryOp, run_bind, run_get, Engine.toNumber_withStack]
    split <;> rfl
  all_goals
    simp only [EmbedScript.binaryOp, run_bind, run_get, Engine.toNumber_withStack]
    rfl

theorem objectPut (id : ObjectId) (key : String) (v : Value) : StackBlind (objectPut id key v) := by
  intro e s
  simp only [EmbedScript.objectPut, run_bind, run_get, Engine.toNumber_withStack,
    Engine.object?_withStack]
  split
  · split
    · split <;> rfl
    · split
      · split <;> rfl
      · rfl
  · rfl

theorem bind {f : Flow α} {g : α → Flow β} (first : StackBlind f) (rest : ∀ a, StackBlind (g a)) :
    StackBlind (f >>= g) := by
  intro e s
  rw [run_bind, run_bind, first]
  rcases f.run.run e with ⟨_ | a, e'⟩
  · rfl
  · exact rest a e' s

theorem pure (a : α) : StackBlind (Pure.pure a : Flow α) := fun _ _ => rfl

/-- Code blind to the stack leaves it as it found it. -/
theorem stack_run {f : Flow α} (blind : StackBlind f) (e : Engine) : (f.run.run e).2.stack = e.stack := by
  have same := blind e e.stack
  simp only at same
  rw [same]

theorem stack_of_run {f : Flow α} (blind : StackBlind f) {e e' : Engine} {r : Except Unwind α}
    (ran : f.run.run e = (r, e')) : e'.stack = e.stack := by
  have same := blind.stack_run e
  rw [ran] at same
  exact same

theorem putProperty (target : Value) (key : String) (v : Value) :
    StackBlind (putProperty target key v) := by
  intro e s
  cases target
  case object id => exact objectPut id key v e s
  all_goals rfl

end StackBlind

/-! ### Compound assignment and update in the steps of ES5 -/

namespace Syntax.Expr

/-- Whether an expression names a property: `o.name` or `o[key]`. -/
def isProperty : Expr → Bool
  | .member _ _ | .index _ _ => true
  | _ => false

end Syntax.Expr

namespace Probe

variable (p : Probe)

/-- An operand run as the stand-in runs it, its value returned instead of pushed. -/
def operand (y : Expr) : Flow Value := do
  modify (p.visit y)
  if p.throws y then throw (.thrown (p.value y)) else pure (p.value y)

/-- The object and key a property target names, evaluated as ES5 evaluates a reference: the
object, then the key expression, whose value becomes a key. -/
def propertyRef : Expr → Flow (Value × String)
  | .member obj name => do
    let target ← p.operand obj
    pure (target, name)
  | .index obj key => do
    let target ← p.operand obj
    let k ← p.operand key
    pure (target, (← get).propertyKey k)
  | _ => throwNew .referenceError "invalid assignment target"

/-- Compound assignment to a property in the steps of ES5 (11.13.2): the reference, the value it
holds, the right side, the operator, and the result stored through the same reference. -/
def compoundAssign (op : BinaryOp) (target v : Expr) : Flow Value := do
  let (obj, key) ← p.propertyRef target
  let old ← getProperty obj key
  let w ← p.operand v
  let result ← binaryOp op old w
  putProperty obj key result
  pure result

/-- Increment and decrement of a property in the steps of ES5 (11.3, 11.4.4): the reference, its
value as a number, and the stepped number stored through the same reference; the result is the
new number before the target and the old one after it. -/
def updateProperty (inc pre : Bool) (target : Expr) : Flow Value := do
  let (obj, key) ← p.propertyRef target
  let old := (← get).toNumber (← getProperty obj key)
  let new := if inc then old + 1 else old - 1
  putProperty obj key (.number new)
  pure (.number (if pre then new else old))

theorem operand_run (y : Expr) (e : Engine) : (p.operand y).run.run e =
    if p.throws y then (.error (.thrown (p.value y)), p.visit y e) else (.ok (p.value y), p.visit y e) := by
  rw [operand, run_bind, run_modify]
  cases p.throws y <;> rfl

theorem operand_stackBlind (y : Expr) : StackBlind (p.operand y) := by
  intro e s
  rw [operand_run, operand_run]
  cases p.throws y <;> rfl

theorem propertyRef_stackBlind (target : Expr) : StackBlind (p.propertyRef target) := by
  cases target
  case member obj name => exact StackBlind.bind (p.operand_stackBlind obj) fun _ => StackBlind.pure _
  case index obj key =>
    refine StackBlind.bind (p.operand_stackBlind obj) fun _ =>
      StackBlind.bind (p.operand_stackBlind key) fun k => ?_
    intro e s
    simp only [run_bind, run_get, Engine.propertyKey_withStack]
    rfl
  all_goals exact StackBlind.throwNew _ _

@[simp] theorem visit_stack (y : Expr) (e : Engine) : (p.visit y e).stack = e.stack := rfl

@[simp] theorem visit_bottom (y : Expr) (e : Engine) : (p.visit y e).bottom = e.bottom := rfl

theorem visit_withStack (y : Expr) (e : Engine) (s : Array Value) :
    p.visit y { e with stack := s } = { p.visit y e with stack := s } := rfl

/-- Evaluating a property target leaves its object on the stack and names the slot it sits in;
the reference algorithm ends in the same engine but for that value, or throws alike. -/
theorem evalRef_property {target : Expr} (property : target.isProperty) (e : Engine)
    (framed : e.bottom ≤ e.stack.size) :
    match (p.propertyRef target).run.run e with
    | (.ok (obj, key), e') => (p.evaluator.evalRef target).run.run e =
        (.ok (.property e.stack.size key), { e' with stack := e.stack.push obj })
    | (.error u, e') => ∃ s, (p.evaluator.evalRef target).run.run e = (.error u, { e' with stack := s }) := by
  cases target
  case member obj name =>
    simp only [propertyRef, Evaluator.evalRef, run_bind, run_stackSize, operand_run, evalExpr_run]
    by_cases thrown : p.throws obj
    · simp only [thrown, if_true]
      exact ⟨e.stack, rfl⟩
    · simp only [thrown, Bool.false_eq_true, if_false]
      rfl
  case index obj key =>
    simp only [propertyRef, Evaluator.evalRef, run_bind, run_stackSize, operand_run, evalExpr_run]
    by_cases thrown : p.throws obj
    · simp only [thrown, if_true]
      exact ⟨e.stack, rfl⟩
    · have framed' : ((p.visit obj e).push (p.value obj)).bottom ≤
          ((p.visit obj e).push (p.value obj)).stack.size := by
        simp [Engine.push]
        omega
      simp only [thrown, Bool.false_eq_true, if_false, p.evalPop_run key _ framed']
      by_cases keyThrown : p.throws key
      · simp only [keyThrown, if_true]
        exact ⟨_, rfl⟩
      · simp only [keyThrown, Bool.false_eq_true, if_false, run_get, run_pure]
        -- the key is read off the heap, whatever the stack holds
        rw [show (p.visit obj e).push (p.value obj) =
            { p.visit obj e with stack := e.stack.push (p.value obj) } from rfl,
          visit_withStack, Engine.propertyKey_withStack]
  all_goals simp [Expr.isProperty] at property

/-- Reading a property changes nothing when it succeeds. -/
theorem getProperty_ok {target : Value} {key : String} {e e' : Engine} {v : Value}
    (ran : (getProperty target key).run.run e = (.ok v, e')) : e' = e := by
  cases target
  case string text =>
    simp only [EmbedScript.getProperty, run_bind, run_get] at ran
    split at ran
    · cases ran
      rfl
    · split at ran <;> (cases ran; rfl)
  case undefined | null => nomatch ran
  all_goals
    cases ran
    rfl

/-- Applying an operator changes nothing when it succeeds. -/
theorem binaryOp_ok {op : BinaryOp} {a b v : Value} {e e' : Engine}
    (ran : (binaryOp op a b).run.run e = (.ok v, e')) : e' = e := by
  cases op
  case add =>
    simp only [EmbedScript.binaryOp, run_bind, run_get] at ran
    split at ran <;> (cases ran; rfl)
  case exp =>
    simp only [EmbedScript.binaryOp, run_bind, run_get] at ran
    split at ran <;> (cases ran; rfl)
  case hasKey =>
    simp only [EmbedScript.binaryOp, run_bind, run_get] at ran
    split at ran <;> cases ran
    rfl
  all_goals
    cases ran
    rfl

theorem propertyRef_bottom (target : Expr) (e : Engine) :
    ((p.propertyRef target).run.run e).2.bottom = e.bottom := by
  cases target
  case member obj name =>
    simp only [propertyRef, run_bind, operand_run]
    cases p.throws obj <;> rfl
  case index obj key =>
    simp only [propertyRef, run_bind, operand_run]
    cases p.throws obj <;> cases p.throws key <;> rfl
  all_goals rfl

theorem run_popValue_pushed (E : Engine) (S : Array Value) (x : Value) (framed : E.bottom ≤ S.size) :
    (popValue : Flow Value).run.run { E with stack := S.push x } = (.ok x, { E with stack := S }) := by
  rw [run_popValue]
  have popped : ({ E with stack := S.push x } : Engine).pop? = some (x, { E with stack := S }) := by
    simp only [Engine.pop?, Array.size_push, Array.back?_push, Option.getD_some, Array.pop_push]
    rw [if_pos (by omega)]
  rw [popped]

theorem run_pushValue_withStack (E : Engine) (S : Array Value) (x : Value) :
    (pushValue x : Flow Unit).run.run { E with stack := S } = (.ok (), { E with stack := S.push x }) :=
  rfl

theorem evalExpr_run_withStack (y : Expr) (E : Engine) (S : Array Value) :
    (p.evaluator.evalExpr y).run.run { E with stack := S } =
      if p.throws y then (.error (.thrown (p.value y)), { p.visit y E with stack := S })
      else (.ok (), { p.visit y E with stack := S.push (p.value y) }) := by
  rw [evalExpr_run]
  rfl

theorem getAbs_push_push_size (e : Engine) (s : Array Value) (v w : Value) :
    ({ e with stack := (s.push v).push w }).getAbs s.size = v := by
  simp [Engine.getAbs, Array.getElem_push]

theorem getAbs_push_size (e : Engine) (s : Array Value) (v : Value) :
    ({ e with stack := s.push v }).getAbs s.size = v := by
  simp [Engine.getAbs]

/-- Both sides begin with the target: what follows it ends alike from the engines the two
reference steps leave, so the whole runs end alike. -/
theorem endAlike_after_reference {β : Type} {target : Expr} (property : target.isProperty)
    (e : Engine) (framed : e.bottom ≤ e.stack.size) (impl : Reference → Flow β)
    (spec : Value × String → Flow β)
    (rest : ∀ obj key e₁, (p.propertyRef target).run.run e = (.ok (obj, key), e₁) →
      EndAlike ((impl (.property e.stack.size key)).run.run { e₁ with stack := e.stack.push obj })
        ((spec (obj, key)).run.run e₁)) :
    EndAlike ((p.evaluator.evalRef target >>= impl).run.run e)
      ((p.propertyRef target >>= spec).run.run e) := by
  have reference := p.evalRef_property property e framed
  rw [run_bind, run_bind]
  rcases ran : (p.propertyRef target).run.run e with ⟨_ | ⟨obj, key⟩, e₁⟩
  · rw [ran] at reference
    obtain ⟨s, threw⟩ := reference
    rw [threw]
    exact endAlike_error _ _ _
  rw [ran] at reference
  rw [reference]
  exact rest obj key e₁ ran

/-- A compound assignment to a property runs as the ES5 algorithm over the same stand-in. -/
theorem compoundAssign_endAlike (op : BinaryOp) {target : Expr} (property : target.isProperty)
    (v : Expr) (e : Engine) (framed : e.bottom ≤ e.stack.size) :
    EndAlike ((p.evaluator.evalExprKind (.assign (some op) target v)).run.run e)
      ((p.compoundAssign op target v >>= pushValue).run.run e) := by
  simp only [Evaluator.evalExprKind, Evaluator.evalAssign]
  rw [run_bind, run_stackSize, compoundAssign, bind_assoc]
  refine p.endAlike_after_reference property e framed _ _ fun obj key e₁ ran => ?_
  have refStack := (p.propertyRef_stackBlind target).stack_of_run ran
  have bottom₁ : e₁.bottom = e.bottom := by rw [← p.propertyRef_bottom target e, ran]
  simp only [Evaluator.evalCompound, Reference.read, bind_assoc, run_bind, run_get,
    getAbs_push_size, StackBlind.getProperty obj key e₁ (e.stack.push obj)]
  rcases read : (getProperty obj key).run.run e₁ with ⟨_ | old, e₂⟩
  · exact endAlike_error _ _ _
  obtain rfl := getProperty_ok read
  simp only [run_pushValue_withStack, evalExpr_run_withStack, operand_run]
  by_cases thrown : p.throws v
  · simp only [thrown, if_true]
    exact endAlike_error _ _ _
  simp only [thrown, Bool.false_eq_true, if_false]
  rw [run_popValue_pushed _ _ _ (by simp [bottom₁]; omega)]
  dsimp only
  rw [run_popValue_pushed _ _ _ (by simp [bottom₁]; omega)]
  dsimp only
  rw [StackBlind.binaryOp op old (p.value v) (p.visit v e₂) (e.stack.push obj)]
  rcases combined : (binaryOp op old (p.value v)).run.run (p.visit v e₂) with ⟨_ | result, e₃⟩
  · exact endAlike_error _ _ _
  obtain rfl := binaryOp_ok combined
  simp only [run_pushValue_withStack, Evaluator.storeTop, run_bind, topValue, Reference.write,
    run_get, run_pure, Array.back?_push, Option.getD_some]
  rw [getAbs_push_push_size,
    StackBlind.putProperty obj key result (p.visit v e₂) ((e.stack.push obj).push result)]
  rcases stored : (putProperty obj key result).run.run (p.visit v e₂) with ⟨_ | _, e₄⟩
  · exact endAlike_error _ _ _
  -- the result is left alone where the target's object was
  have stack₄ : e₄.stack = e.stack :=
    ((StackBlind.putProperty obj key result).stack_of_run stored).trans refStack
  dsimp only
  simp only [run_modify]
  exact endAlike_truncate_push e₄ _ (by simp [Array.take_eq_extract, stack₄])

/-- An increment or decrement of a property runs as the ES5 algorithm over the same stand-in. -/
theorem updateProperty_endAlike (inc pre : Bool) {target : Expr} (property : target.isProperty)
    (e : Engine) (framed : e.bottom ≤ e.stack.size) :
    EndAlike ((p.evaluator.evalExprKind (.update inc pre target)).run.run e)
      ((p.updateProperty inc pre target >>= pushValue).run.run e) := by
  simp only [Evaluator.evalExprKind, Evaluator.evalUpdate]
  rw [run_bind, run_stackSize, updateProperty, bind_assoc]
  refine p.endAlike_after_reference property e framed _ _ fun obj key e₁ ran => ?_
  have refStack := (p.propertyRef_stackBlind target).stack_of_run ran
  simp only [Reference.read, bind_assoc, run_bind, run_get, getAbs_push_size,
    StackBlind.getProperty obj key e₁ (e.stack.push obj)]
  rcases read : (getProperty obj key).run.run e₁ with ⟨_ | old, e₂⟩
  · exact endAlike_error _ _ _
  obtain rfl := getProperty_ok read
  dsimp only
  simp only [Reference.write, run_bind, run_get, getAbs_push_size, Engine.toNumber_withStack,
    StackBlind.putProperty obj key _ e₂ (e.stack.push obj)]
  generalize (if inc then e₂.toNumber old + 1 else e₂.toNumber old - 1) = new
  rcases stored : (putProperty obj key (.number new)).run.run e₂ with ⟨_ | _, e₃⟩
  · exact endAlike_error _ _ _
  have stack₃ : e₃.stack = e.stack :=
    ((StackBlind.putProperty obj key (.number new)).stack_of_run stored).trans refStack
  dsimp only
  simp only [run_modify, run_pure]
  exact endAlike_truncate_push e₃ _ (by simp [Array.take_eq_extract, stack₃])

end Probe

/-- How one step of evaluation runs its operands, over any stand-in for the level below: from an
engine whose frame lies in its stack, it stamps the expression's ES5 schedule in order and each
event once, stopping early only when it fails; the control expressions fail only where an operand
does; and compound assignment and increment of a property read and write the object and key that
the target evaluated to, between the target and the right side, as the ES5 algorithms do. -/
theorem operands_evaluate_once_in_order (p : Probe) :
    (∀ (x : Expr) (e : Engine), e.bottom ≤ e.stack.size →
      p.StampsFrom (p.evaluator.evalExprKind x) (x.schedule p.value) e) ∧
    ((∀ y, p.throws y = false) → ∀ (x : Expr) (e : Engine), x.isControl →
      ((p.evaluator.evalExprKind x).run.run e).1 = .ok ()) ∧
    (∀ (op : BinaryOp) (target v : Expr) (e : Engine), target.isProperty →
      e.bottom ≤ e.stack.size →
      EndAlike ((p.evaluator.evalExprKind (.assign (some op) target v)).run.run e)
        ((p.compoundAssign op target v >>= pushValue).run.run e)) ∧
    (∀ (inc pre : Bool) (target : Expr) (e : Engine), target.isProperty →
      e.bottom ≤ e.stack.size →
      EndAlike ((p.evaluator.evalExprKind (.update inc pre target)).run.run e)
        ((p.updateProperty inc pre target >>= pushValue).run.run e)) := by
  refine ⟨fun x e framed => p.stamps_evalExprKind x e framed, fun quiet x e control => ?_,
    fun op _ v e property framed => p.compoundAssign_endAlike op property v e framed,
    fun inc pre _ e property framed => p.updateProperty_endAlike inc pre property e framed⟩
  obtain ⟨⟨⟩, completed⟩ := p.control_neverFails quiet control e
  exact completed

end EmbedScript
