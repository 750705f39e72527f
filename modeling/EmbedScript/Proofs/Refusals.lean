import Mathlib
import EmbedScript.Proofs.Atomicity
import EmbedScript.Proofs.Validation
import EmbedScript.Proofs.SessionSafety

/-!
Refusals leave no trace. The stack interface refuses an operation with a bad index or count, a
value of the wrong type or a missing host value, and every operation makes its checks before it
changes anything; past its checks it runs code that reports script errors only. So an operation
that is refused leaves the engine exactly as it was: its stack, its frame, its heap and its
registry. The one exception is evaluating a function to call it with a method suite, which checks
the value only after the script has run: refused, it has popped that value again, so the stack
and the frame are as they were, but what the script did to the heap and the registry stays.
Main statement: `refusals_leave_no_trace`.
-/

namespace EmbedScript

open Std.Do

set_option mvcgen.warning false

/-- The errors by which the stack interface refuses an operation. -/
def Error.Refusal : Error → Prop
  | .typeMismatch .. | .notFound _ | .invalidIndex _ | .stackUnderflow .. | .notObject _ => True
  | .script _ | .hostFunction _ => False

/-- A failure that refuses an operation; running out of fuel is none. -/
def Failure.Refusal : Failure → Prop
  | .error err => err.Refusal
  | .exhausted => False

/-- The error a run reports, if it reports one. -/
def reportedError {α : Type} : Except Failure α → Option Error
  | .error (.error err) => some err
  | _ => none

namespace Api

variable {α β : Type}

/-- A refusal of the operation leaves the engine as it was. -/
def Refuses (m : Api α) : Prop :=
  ∀ e₀, ⦃fun e => ⌜e = e₀⌝⦄ m ⦃post⟨fun _ _ => ⌜True⌝, fun x e => ⌜x.Refusal → e = e₀⌝⟩⦄

/-- What reports script errors only is never refused. -/
theorem unrefused_of_reportsScript {m : Api α} (reports : m.ReportsScript) (e₀ : Engine) :
    ⦃fun e => ⌜e = e₀⌝⦄ m ⦃post⟨fun _ _ => ⌜True⌝, fun x _ => ⌜¬ x.Refusal⌝⟩⦄ := by
  rw [triple_iff]
  rintro e rfl
  rcases ran : m.run.run e with ⟨(err | _) | _, e'⟩
  · obtain ⟨se, rfl⟩ := reports e err e' ran
    exact id
  · exact id
  · trivial

theorem Refuses.of_reportsScript {m : Api α} (reports : m.ReportsScript) : m.Refuses :=
  fun e₀ => triple_conseq (unrefused_of_reportsScript reports e₀) (fun _ same => same)
    (fun _ _ _ => trivial) fun _ _ never refused => (never refused).elim

namespace ReportsScript

theorem of_get : (get : Api Engine).ReportsScript := by
  intro e err e' ran
  cases ran

theorem of_fail_script (se : ScriptError) : (fail (.script se) : Api α).ReportsScript := by
  intro e err e' ran
  cases ran
  exact ⟨se, rfl⟩

/-- An operation that cannot fail with an error. -/
theorem of_triple {m : Api α} {Q : Engine → α → Engine → Prop}
    (spec : ∀ e₀, ⦃fun e => ⌜e = e₀⌝⦄ m ⦃post⟨fun a e => ⌜Q e₀ a e⌝, fun _ _ => ⌜False⌝⟩⦄) :
    m.ReportsScript := by
  intro e err e' ran
  have never := (triple_iff _ _ _ _).mp (spec e) e rfl
  rw [ran] at never
  exact never.elim

theorem evalString (d : Evaluator) (src : String) : (d.evalString src).ReportsScript := by
  unfold Evaluator.evalString
  split
  · exact of_fail_script _
  · exact of_toApi _

/-- Raising what was caught, as the protected entry points end. -/
theorem raiseCaught (r : Except Value Unit) :
    (match r with
      | .ok () => pure ()
      | .error exception => Api.raise exception : Api Unit).ReportsScript := by
  rcases r with exception | ⟨⟩
  · exact of_raise exception
  · exact of_pure ()

theorem pevalString (d : Evaluator) (src : String) : (d.pevalString src).ReportsScript := by
  unfold Evaluator.pevalString
  split
  · exact (of_catchThrown _).bind raiseCaught
  · -- a syntax error is allocated as an error object, which is then raised
    refine bind (fun e err e' ran => ?_) fun _ => (of_pure _).bind raiseCaught
    simp only [allocError, allocObject, run_bind, run_get, run_set, run_pure] at ran
    cases ran

end ReportsScript

/-! ### Code that is never refused -/

section Unrefused

variable (e₀ : Engine)

theorem toApi_unrefused (f : Flow α) :
    ⦃fun e => ⌜e = e₀⌝⦄ f.toApi ⦃post⟨fun _ _ => ⌜True⌝, fun x _ => ⌜¬ x.Refusal⌝⟩⦄ :=
  unrefused_of_reportsScript (.of_toApi f) e₀

theorem protectedInvoke_unrefused (d : Evaluator) (nargs : Nat) :
    ⦃fun e => ⌜e = e₀⌝⦄ d.protectedInvoke nargs
    ⦃post⟨fun _ _ => ⌜True⌝, fun x _ => ⌜¬ x.Refusal⌝⟩⦄ :=
  unrefused_of_reportsScript (.of_protectedInvoke d nargs) e₀

theorem evalString_unrefused (d : Evaluator) (src : String) :
    ⦃fun e => ⌜e = e₀⌝⦄ d.evalString src ⦃post⟨fun _ _ => ⌜True⌝, fun x _ => ⌜¬ x.Refusal⌝⟩⦄ :=
  unrefused_of_reportsScript (.evalString d src) e₀

theorem pevalString_unrefused (d : Evaluator) (src : String) :
    ⦃fun e => ⌜e = e₀⌝⦄ d.pevalString src ⦃post⟨fun _ _ => ⌜True⌝, fun x _ => ⌜¬ x.Refusal⌝⟩⦄ :=
  unrefused_of_reportsScript (.pevalString d src) e₀

theorem pushMethodSuite_unrefused (suite : MethodSuite) :
    ⦃fun e => ⌜e = e₀⌝⦄ pushMethodSuite suite ⦃post⟨fun _ _ => ⌜True⌝, fun x _ => ⌜¬ x.Refusal⌝⟩⦄ :=
  unrefused_of_reportsScript (.of_triple (pushMethodSuite_pushes suite)) e₀

theorem catchThrown_unrefused (f : Flow α) :
    ⦃fun e => ⌜e = e₀⌝⦄ f.catchThrown ⦃post⟨fun _ _ => ⌜True⌝, fun x _ => ⌜¬ x.Refusal⌝⟩⦄ :=
  unrefused_of_reportsScript (.of_catchThrown f) e₀

end Unrefused

/-- The finalizer rounds of every level are never refused: each finalizer is called with what it
throws caught. -/
theorem finalizeQueued_unrefused (n count : Nat) (e₀ : Engine) :
    ⦃fun e => ⌜e = e₀⌝⦄ (Evaluator.ofFuel n).finalizeQueued count
    ⦃post⟨fun _ _ => ⌜True⌝, fun x _ => ⌜¬ x.Refusal⌝⟩⦄ := by
  induction n generalizing count e₀ with
  | succ n rest =>
    mvcgen [Evaluator.ofFuel, Evaluator.finalizeRound, rest, catchThrown_unrefused, popValue]
  | zero => mvcgen [Evaluator.ofFuel, Evaluator.exhausted] with exact id

theorem gc_unrefused (e₀ : Engine) :
    ⦃fun e => ⌜e = e₀⌝⦄ Api.gc ⦃post⟨fun _ _ => ⌜True⌝, fun x _ => ⌜¬ x.Refusal⌝⟩⦄ := by
  mvcgen [Api.gc, Evaluator.collectGarbage, Evaluator.runFinalizers, Evaluator.standard,
    finalizeQueued_unrefused]

end Api

open Api in
/-- Every operation of the stack interface but evaluating a function to call it with a suite
makes its checks before it changes anything, and runs past them code that is never refused. -/
theorem Step.operation_refuses (step : Step) (other : ∀ src suite, step ≠ .evalWith src suite) :
    step.operation.Refuses := by
  intro e₀
  cases step
  case evalWith src suite => exact absurd rfl (other src suite)
  all_goals mvcgen [Step.operation, Api.push, pushValue, Api.pushGlobalObject, Api.pushThis,
    Api.pushObject, Api.pushArray, Api.pushHostFunction, Api.pushErrorObject, allocObject, allocError,
    Api.topIndex, Api.pushHostObject, pushMethodSuite_unrefused, Api.getBoolean, Api.getInt,
    Api.getString, Api.getLength, Api.getNumber, valueAt_spec, mismatch_spec, requireIndex_spec,
    requireObject_spec, requireValues_spec, requireGroup_spec, Api.toBooleanAt, Api.toIntAt,
    Api.toStringAt, Api.toNumberAt, Api.replaceAt, Api.getTop, Api.setTop, Api.normalizeIndex,
    Api.pop, Api.popN, Api.dupTop, Api.dup, Api.insert, Api.remove, Api.replace, Api.swap,
    Api.getPropString, Api.putPropString, Api.hasPropString, Api.delPropString, Api.getPropIndex,
    Api.putPropIndex, Api.getGlobalString, Api.putGlobalString, Api.setFinalizer, Api.getFinalizer,
    popValue, Api.call, Api.pcall, Api.callMethod, Api.pcallMethod, Api.callProp, Api.pcallProp,
    Evaluator.call, Evaluator.pcall, Evaluator.callMethod, Evaluator.pcallMethod, Evaluator.callProp,
    Evaluator.pcallProp, Evaluator.preparePropCall, toApi_unrefused, protectedInvoke_unrefused,
    gc_unrefused, Api.evalString, Api.pevalString, evalString_unrefused, pevalString_unrefused,
    Api.getHostHandle, Api.getHostObject, fail] with grind

/-- A refused operation leaves the stack and the frame as they were, and any operation but
evaluating a function for a method suite leaves the whole engine as it was. -/
theorem refusals_leave_no_trace (step : Step) {e₀ e : Engine} {err : Error} (sound : e₀.Sound)
    (refusal : err.Refusal) (ran : step.operation.run.run e₀ = (.error (.error err), e)) :
    e.stack = e₀.stack ∧ e.bottom = e₀.bottom ∧
      ((∀ src suite, step ≠ .evalWith src suite) → e = e₀) := by
  by_cases other : ∀ src suite, step ≠ .evalWith src suite
  · have same : e = e₀ := by
      have refused := (triple_iff _ _ _ _).mp (step.operation_refuses other e₀) e₀ rfl
      rw [ran] at refused
      exact refused refusal
    subst same
    exact ⟨rfl, rfl, fun _ => rfl⟩
  obtain ⟨src, suite, rfl⟩ : ∃ src suite, step = .evalWith src suite := by simpa using other
  -- the operation is the evaluation itself, answered by unit when it returns
  have evaluated : (Api.evalWith src suite).run.run e₀ = (.error (.error err), e) := by
    simp only [Step.operation, run_bind] at ran
    rcases found : (Api.evalWith src suite).run.run e₀ with ⟨_ | ⟨⟩, e'⟩ <;> rw [found] at ran
    · cases ran
      rfl
    · cases ran
  have restored := Engine.restores_of_triple (Api.evalWith_spec src suite e₀) ⟨rfl, sound⟩
  rw [evaluated] at restored
  obtain ⟨control, stack⟩ := restored
  refine ⟨by simpa using stack, congrArg Engine.Control.bottom control, fun other => ?_⟩
  exact absurd rfl (other src suite)

/-- Popping from a fresh engine is refused as an underflow, and leaves the engine as it was. -/
theorem fresh_engine_refuses_a_pop :
    Step.pop.operation.run.run (Engine.fresh {} 0) =
        (.error (.error (.stackUnderflow 1 0)), Engine.fresh {} 0) ∧
      (Engine.fresh {} 0).bottom = (Engine.fresh {} 0).bottom :=
  have ran : Step.pop.operation.run.run (Engine.fresh {} 0) =
      (.error (.error (.stackUnderflow 1 0)), Engine.fresh {} 0) := rfl
  ⟨ran, (refusals_leave_no_trace .pop (Engine.fresh_sound {} 0)
    (show (Error.stackUnderflow 1 0).Refusal from trivial) ran).2.1⟩

/-! ### A script that registers before its refusal -/

/-- A fresh engine whose global `f` is the host function that registers a host string and
returns its proxy. -/
def registeringEngine : Engine :=
  ((do let _ ← Api.pushHostFunction .makeStr .variadic; Api.putGlobalString "f" : Api Unit).run.run
    (Engine.fresh {} 0)).2

theorem registeringEngine_sound : registeringEngine.Sound :=
  (Api.Keeps.run_sound ((Api.Keeps.pushHostFunction .makeStr .variadic).bind fun _ =>
    Api.Keeps.putGlobalString "f") (Engine.fresh_sound {} 0)).2

/-- Evaluating a function for a method suite runs the script before its type check: the script
`f()` registers a host string, and the refusal of its result keeps the registration. -/
theorem script_before_refusal_keeps_its_registrations :
    registeringEngine.Sound ∧
      reportedError ((Step.evalWith "f()" ⟨[]⟩).operation.run.run registeringEngine).1 =
        some (.typeMismatch "function of one parameter" "object") ∧
      ((Step.evalWith "f()" ⟨[]⟩).operation.run.run registeringEngine).2.registry.size =
        registeringEngine.registry.size + 1 :=
  ⟨registeringEngine_sound, by decide +kernel, by decide +kernel⟩

end EmbedScript
