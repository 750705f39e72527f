import Mathlib
import EmbedScript.Proofs.Outcomes

/-!
The entry points of the stack interface that run code are atomic for the value stack. Evaluating
source text pushes its completion value, or fails with a script error and leaves the stack as it
was; a protected evaluation pushes one value either way, the thrown value after a failure.
Evaluating a function and calling it with a method suite pushes the call's result, or fails with
the stack as it was. A call replaces its group of callee, receiver and arguments by the result,
or fails with a script error and removes the group; a protected call puts the thrown value in
place of the result. Whichever way they return, the control state is the one they started from:
scopes, host frames, call depth, native nesting, completion slot and frame bottom. Main
statement: `entry_points_are_atomic`.
-/

namespace EmbedScript

open Std.Do Syntax

set_option mvcgen.warning false

namespace Engine

variable (e₀ : Engine)

/-- Where an entry point that replaces the values from `base` up leaves the engine when it
returns: one value in their place, or after an error none; the control state restored either
way. An entry point that ran out of fuel has not returned. -/
def Restores (base : Nat) : Except Failure Unit × Engine → Prop
  | (.ok (), e) => e₀.Replaced base e
  | (.error (.error _), e) => e.control = e₀.control ∧ e.stack = e₀.stack.take base
  | (.error .exhausted, _) => True

/-- Where a protected entry point leaves the engine when it returns: one value in place of those
from `base` up, the result or, after an error, the thrown value, whose script error is the one
reported. -/
def RestoresCaught (base : Nat) : Except Failure Unit × Engine → Prop
  | (.ok (), e) => e₀.Replaced base e
  | (.error (.error err), e) => e.control = e₀.control ∧
      ∃ v, e.stack = (e₀.stack.take base).push v ∧ err = .script (e.scriptErrorOf v)
  | (.error .exhausted, _) => True

variable {e₀ e : Engine} {base : Nat}

theorem Dropped.restores {x : Failure} (dropped : e₀.Dropped base x e) :
    e₀.Restores base (.error x, e) := by
  cases x with
  | error err => exact ⟨dropped.2.1, dropped.2.2⟩
  | exhausted => trivial

variable {e₁ e₂ : Engine}

/-- A call whose group is two values pushed over `e₀` replaces them as `e₀` sees it. -/
theorem Replaced.of_pushed_twice (first : e₀.Pushed e₁) (second : e₁.Pushed e₂)
    (replaced : e₂.Replaced (e₂.stack.size - 1 - 1) e) : e₀.Replaced e₀.stack.size e := by
  obtain ⟨control₁, v₁, stack₁⟩ := first
  obtain ⟨control₂, v₂, stack₂⟩ := second
  rw [show e₂.stack.size - 1 - 1 = e₀.stack.size by simp [stack₂, stack₁]] at replaced
  exact replaced.rebase (control₂.trans control₁) (by simp [stack₂, stack₁])

theorem Dropped.of_pushed_twice {x : Failure} (first : e₀.Pushed e₁) (second : e₁.Pushed e₂)
    (dropped : e₂.Dropped (e₂.stack.size - 1 - 1) x e) : e₀.Dropped e₀.stack.size x e := by
  obtain ⟨control₁, v₁, stack₁⟩ := first
  obtain ⟨control₂, v₂, stack₂⟩ := second
  rw [show e₂.stack.size - 1 - 1 = e₀.stack.size by simp [stack₂, stack₁]] at dropped
  exact dropped.rebase (control₂.trans control₁) (by simp [stack₂, stack₁])

end Engine

/-- A run that fails with an error fails with a script error. -/
def ScriptFailure {α : Type} : Except Failure α → Prop
  | .error (.error err) => ∃ se, err = .script se
  | _ => True

/-! ### Reading the entry points' triples -/

namespace Engine

variable {e e' : Engine}

/-- The text of a value depends on the heap alone. -/
theorem displayWith_of_heap (heap : e'.heap = e.heap) (fuel : Nat) :
    e'.displayWith fuel = e.displayWith fuel := by
  induction fuel with
  | zero => rfl
  | succ fuel ih =>
    funext seen v
    simp only [displayWith, object?, heap, ih]

/-- So does the script error a thrown value reports. -/
theorem scriptErrorOf_of_heap (heap : e'.heap = e.heap) (v : Value) :
    e'.scriptErrorOf v = e.scriptErrorOf v := by
  simp only [scriptErrorOf, objectGet, object?, display, displayWith_of_heap heap, heap]

end Engine

section Outcomes

variable {P : Engine → Prop} {e₀ : Engine} {base : Nat} {m : Api Unit}

/-- An entry point that replaces its values or drops them with a script error restores them. -/
theorem Engine.restores_of_dropped
    (spec : ⦃fun e => ⌜P e⌝⦄ m ⦃post⟨fun _ e => ⌜e₀.Steps e ∧ e₀.Replaced base e⌝,
      fun x e => ⌜e₀.Steps e ∧ e₀.Dropped base x e⌝⟩⦄) (start : P e₀) :
    e₀.Restores base (m.run.run e₀) ∧ ScriptFailure (m.run.run e₀).1 := by
  have ran := (triple_iff _ _ _ _).mp spec e₀ start
  revert ran
  rcases m.run.run e₀ with ⟨(err | _) | _, e⟩
  · rintro ⟨-, script, control, stack⟩
    exact ⟨⟨control, stack⟩, script⟩
  · exact fun _ => ⟨trivial, trivial⟩
  · exact fun ⟨_, replaced⟩ => ⟨replaced, trivial⟩

/-- An entry point whose result replaces its values and whose failure restores them. -/
theorem Engine.restores_of_triple
    (spec : ⦃fun e => ⌜P e⌝⦄ m ⦃post⟨fun _ e => ⌜e₀.Replaced base e⌝,
      fun x e => ⌜e₀.Restores base (.error x, e)⌝⟩⦄) (start : P e₀) :
    e₀.Restores base (m.run.run e₀) := by
  have ran := (triple_iff _ _ _ _).mp spec e₀ start
  revert ran
  rcases m.run.run e₀ with ⟨x | _, e⟩
  · exact id
  · exact id

end Outcomes

/-! ### Protected entry points push what they throw -/

namespace Api

/-- Every error a run from `e` fails with is the script error of the value it leaves on top of
the stack. -/
def RaisesTop {α : Type} (m : Api α) (e : Engine) : Prop :=
  ∀ err e', m.run.run e = (.error (.error err), e') →
    ∃ v, e'.stack.back? = some v ∧ err = .script (e'.scriptErrorOf v)

namespace RaisesTop

variable {α β : Type} {m : Api α} {e : Engine}

/-- A run that fails with no error raises nothing. -/
theorem of_no_error (none : ∀ err e', m.run.run e ≠ (.error (.error err), e')) : m.RaisesTop e :=
  fun err e' ran => absurd ran (none err e')

theorem raise (exception : Value) : (Api.raise exception : Api α).RaisesTop e := by
  intro err e' ran
  have raised := (triple_iff _ _ _ _).mp (raise_spec (α := α) exception e) e rfl
  rw [ran] at raised
  obtain ⟨reported, rfl⟩ := raised
  -- pushing the exception leaves the heap, and so the error it reports, as it was
  exact ⟨exception, by simp,
    by rw [Failure.error.inj reported, Engine.scriptErrorOf_of_heap Engine.heap_push]⟩

theorem bind {f : α → Api β} (first : m.RaisesTop e)
    (rest : ∀ a e₁, m.run.run e = (.ok a, e₁) → (f a).RaisesTop e₁) : (m >>= f).RaisesTop e := by
  intro err e' ran
  rw [run_bind] at ran
  rcases found : m.run.run e with ⟨x | a, e₁⟩ <;> rw [found] at ran
  · cases ran
    exact first err e' found
  · exact rest a e₁ found err e' ran

/-- Catching what script code throws fails with no error. -/
theorem catchThrown (f : Flow α) : f.catchThrown.RaisesTop e := by
  refine of_no_error fun err e' ran => ?_
  rw [catchThrown_run] at ran
  rcases found : f.run.run e with ⟨(_ | _) | _, e₁⟩ <;> rw [found] at ran <;> cases ran

/-- Raising what was caught, as the protected entry points end. -/
theorem raiseCaught (r : Except Value Unit) :
    (match r with
      | .ok () => pure ()
      | .error exception => Api.raise exception : Api Unit).RaisesTop e := by
  rcases r with exception | ⟨⟩
  · exact raise exception
  · exact of_no_error fun err e' ran => by cases ran

/-- Checking that the frame holds the group of a call raises nothing when it does. -/
theorem requireGroup {n : Nat} (enough : e.bottom + n ≤ e.stack.size) :
    (requireGroup n).RaisesTop e := by
  refine of_no_error fun err e' ran => ?_
  have checked := (triple_iff _ _ _ _).mp (requireGroup_of_le n e) e ⟨rfl, enough⟩
  rw [ran] at checked
  cases checked.1

theorem requireValues {n : Nat} (enough : e.bottom + n ≤ e.stack.size) :
    (requireValues n).RaisesTop e := by
  refine of_no_error fun err e' ran => ?_
  have checked := (triple_iff _ _ _ _).mp (requireValues_of_le n e) e ⟨rfl, enough⟩
  rw [ran] at checked
  exact checked

end RaisesTop

theorem protectedInvoke_raisesTop (d : Evaluator) (nargs : Nat) (e : Engine) :
    (d.protectedInvoke nargs).RaisesTop e :=
  (RaisesTop.catchThrown _).bind fun r _ _ => RaisesTop.raiseCaught r

theorem pevalString_raisesTop (d : Evaluator) (src : String) (e : Engine) :
    (d.pevalString src).RaisesTop e := by
  rw [Evaluator.pevalString]
  split
  · exact (RaisesTop.catchThrown _).bind fun r _ _ => RaisesTop.raiseCaught r
  · -- a syntax error is allocated as an error object, which is then raised
    refine RaisesTop.bind (RaisesTop.of_no_error fun err e' ran => ?_) fun _ _ _ =>
      RaisesTop.bind (RaisesTop.of_no_error fun err e' ran => by cases ran) fun r _ _ =>
        RaisesTop.raiseCaught r
    simp only [allocError, allocObject, run_bind, run_get, run_set, run_pure] at ran
    cases ran

end Api

/-- A protected entry point whose result replaces its values, and whose failure puts the thrown
value in their place, restores them as a protected entry point does. -/
theorem Engine.restoresCaught_of_caught {P : Engine → Prop} {e₀ : Engine} {base : Nat}
    {m : Api Unit}
    (spec : ⦃fun e => ⌜P e⌝⦄ m ⦃post⟨fun _ e => ⌜e₀.Steps e ∧ e₀.Replaced base e⌝,
      fun x e => ⌜e₀.Steps e ∧ e₀.Caught base x e⌝⟩⦄) (start : P e₀) (raises : m.RaisesTop e₀) :
    e₀.RestoresCaught base (m.run.run e₀) := by
  have ran := (triple_iff _ _ _ _).mp spec e₀ start
  rcases found : m.run.run e₀ with ⟨(err | _) | _, e⟩ <;> rw [found] at ran
  · obtain ⟨-, -, control, v, stack⟩ := ran
    obtain ⟨w, top, named⟩ := raises err e found
    rw [stack, Array.back?_push, Option.some.injEq] at top
    exact ⟨control, v, stack, top ▸ named⟩
  · trivial
  · exact ran.2

/-! ### Evaluating a function and calling it with a suite -/

/-- Pushing a method suite pushes its proxy and leaves the control state alone. -/
theorem Api.pushMethodSuite_pushes (suite : MethodSuite) (e₀ : Engine) :
    ⦃fun e => ⌜e = e₀⌝⦄ Api.pushMethodSuite suite
    ⦃post⟨fun _ e => ⌜e₀.Pushed e⌝, fun _ _ => ⌜False⌝⟩⦄ := by
  -- binding the methods works on the heap alone
  mvcgen [Api.pushMethodSuite, allocObject, Api.push, pushValue] invariants
  · ⇓_ e => ⌜e.control = e₀.control ∧ e.stack = e₀.stack⌝
  with subst_vars
  | vc2 => exact ⟨rfl, rfl⟩
  | vc3 =>
    obtain ⟨control, stack⟩ := ‹_ ∧ _›
    exact ⟨control, _, by rw [Engine.stack_push, stack]⟩

theorem Api.pushMethodSuite_spec (suite : MethodSuite) (e₀ : Engine) :
    ⦃fun e => ⌜e = e₀ ∧ e₀.Sound⌝⦄ Api.pushMethodSuite suite
    ⦃post⟨fun _ e => ⌜e₀.Steps e ∧ e.Sound ∧ e₀.Pushed e⌝, fun _ _ => ⌜False⌝⟩⦄ := by
  rw [triple_iff]
  rintro e ⟨rfl, sound⟩
  have moved := (triple_iff _ _ _ _).mp (Api.Keeps.pushMethodSuite suite e) e ⟨rfl, sound⟩
  have pushed := (triple_iff _ _ _ _).mp (Api.pushMethodSuite_pushes suite e) e rfl
  revert moved pushed
  rcases (Api.pushMethodSuite suite).run.run e with ⟨_ | _, e'⟩
  · exact fun _ no => no.elim
  · exact fun moved pushed => ⟨moved.steps, moved.sound sound, pushed⟩

/-- Evaluating a function and calling it with a suite leaves the call's result on top of the
stack it found; on any failure, a script error or a value that is no function of one parameter,
the stack is as it was. -/
theorem Api.evalWith_spec (src : String) (suite : MethodSuite) (e₀ : Engine) :
    ⦃fun e => ⌜e = e₀ ∧ e₀.Sound⌝⦄ Api.evalWith src suite
    ⦃post⟨fun _ e => ⌜e₀.Replaced e₀.stack.size e⌝,
      fun x e => ⌜e₀.Restores e₀.stack.size (.error x, e)⌝⟩⦄ := by
  have g := Evaluator.guarded_standard
  have evaluated := g.evalString_spec src e₀
  have called := fun e₁ => g.call_spec 1 e₁
  mvcgen [Api.evalWith, Api.evalString, Api.call, evaluated, popValue_spec, Api.pushMethodSuite_spec,
    called, EmbedScript.fail] with obtain ⟨rfl, sound⟩ := ‹_ = e₀ ∧ _›
  | vc2 => exact ⟨trivial, ‹Engine.Steps _ _ ∧ Engine.Pushed _ _›.2.nonempty sound⟩
  | vc3 =>
    -- a value that is no function of one parameter is popped again
    obtain ⟨-, control, v, stack⟩ := ‹Engine.Steps _ _ ∧ Engine.Pushed _ _›
    obtain ⟨-, rfl⟩ := ‹_ = _ ∧ _ = _›
    exact ⟨control, by simp [stack]⟩
  | vc4 =>
    obtain ⟨run, pushed⟩ := ‹Engine.Steps _ _ ∧ Engine.Pushed _ _›
    exact ⟨trivial, sound.of_above run pushed.above⟩
  | vc5 =>
    obtain ⟨-, control₁, v₁, stack₁⟩ := ‹Engine.Steps _ _ ∧ Engine.Pushed _ _›
    obtain ⟨-, sound₂, control₂, v₂, stack₂⟩ := ‹Engine.Steps _ _ ∧ Engine.Sound _ ∧ _›
    have bottom₁ := congrArg Engine.Control.bottom control₁
    have bottom₂ := congrArg Engine.Control.bottom control₂
    have framed := sound.framed
    simp only [Engine.control] at bottom₁ bottom₂
    exact ⟨trivial, sound₂, by simp [stack₂, stack₁]; omega⟩
  | vc6 =>
    -- the call's group is the function and the suite's proxy, pushed over the stack found
    exact fun _ replaced => .of_pushed_twice ‹Engine.Steps _ _ ∧ Engine.Pushed _ _›.2
      ‹Engine.Steps _ _ ∧ Engine.Sound _ ∧ _›.2.2 replaced
  | vc7 =>
    exact fun _ dropped => (Engine.Dropped.of_pushed_twice ‹Engine.Steps _ _ ∧ Engine.Pushed _ _›.2
      ‹Engine.Steps _ _ ∧ Engine.Sound _ ∧ _›.2.2 dropped).restores
  | vc8 => exact fun _ dropped => dropped.restores

/-! ### The entry points -/

namespace Api

variable {e₀ : Engine}

theorem pcall_raisesTop (nargs : Nat) (group : e₀.bottom + nargs + 1 ≤ e₀.stack.size) :
    (Api.pcall nargs).RaisesTop e₀ :=
  (RaisesTop.requireGroup group).bind fun _ _ _ =>
    (RaisesTop.of_no_error fun _ _ ran => by cases ran).bind fun _ _ _ =>
      protectedInvoke_raisesTop _ _ _

theorem pcallMethod_raisesTop (nargs : Nat) (group : e₀.bottom + (nargs + 2) ≤ e₀.stack.size) :
    (Api.pcallMethod nargs).RaisesTop e₀ :=
  (RaisesTop.requireValues group).bind fun _ _ _ => protectedInvoke_raisesTop _ _ _

theorem pcallProp_raisesTop (i : Int) (key : String) (nargs : Nat) {t : Value}
    (sound : e₀.Sound) (group : e₀.bottom + nargs ≤ e₀.stack.size) (found : e₀.get? i = some t)
    (present : t.isNullish = false) : (Api.pcallProp i key nargs).RaisesTop e₀ := by
  refine RaisesTop.bind (RaisesTop.of_no_error fun err e' ran => ?_) fun _ _ _ =>
    protectedInvoke_raisesTop _ _ _
  -- preparing the call cannot fail once the value holding the property is there
  have prepared := (triple_iff _ _ _ _).mp (Evaluator.preparePropCall_spec i key nargs t e₀) e₀
    ⟨rfl, sound, group, found, present⟩
  rw [ran] at prepared
  exact prepared

end Api

/-- The entry points that run code, from any sound engine, as every state a session reaches is.
Evaluating source text pushes one value, or fails with a script error and leaves the stack as it
was; a protected evaluation pushes one value either way, the thrown value after a failure;
evaluating a function and calling it with a method suite pushes one value, or fails with the stack
as it was. A call, a method call and a property call whose group the frame holds replace the group
by one value, or fail with a script error and remove it; their protected forms put the thrown value
in place of the result; the values below the group stay as they were. Each of them restores the
control state whichever way it returns. -/
theorem entry_points_are_atomic {e₀ : Engine} (sound : e₀.Sound) :
    (∀ src, e₀.Restores e₀.stack.size ((Api.evalString src).run.run e₀) ∧
        ScriptFailure ((Api.evalString src).run.run e₀).1) ∧
    (∀ src, e₀.RestoresCaught e₀.stack.size ((Api.pevalString src).run.run e₀)) ∧
    (∀ src suite, e₀.Restores e₀.stack.size ((Api.evalWith src suite).run.run e₀)) ∧
    (∀ nargs, e₀.bottom + nargs + 1 ≤ e₀.stack.size →
      (e₀.Restores (e₀.stack.size - nargs - 1) ((Api.call nargs).run.run e₀) ∧
        ScriptFailure ((Api.call nargs).run.run e₀).1) ∧
      e₀.RestoresCaught (e₀.stack.size - nargs - 1) ((Api.pcall nargs).run.run e₀)) ∧
    (∀ nargs, e₀.bottom + nargs + 2 ≤ e₀.stack.size →
      (e₀.Restores (e₀.stack.size - nargs - 2) ((Api.callMethod nargs).run.run e₀) ∧
        ScriptFailure ((Api.callMethod nargs).run.run e₀).1) ∧
      e₀.RestoresCaught (e₀.stack.size - nargs - 2) ((Api.pcallMethod nargs).run.run e₀)) ∧
    (∀ i key nargs t, e₀.bottom + nargs ≤ e₀.stack.size → e₀.get? i = some t →
      t.isNullish = false →
      (e₀.Restores (e₀.stack.size - nargs) ((Api.callProp i key nargs).run.run e₀) ∧
        ScriptFailure ((Api.callProp i key nargs).run.run e₀).1) ∧
      e₀.RestoresCaught (e₀.stack.size - nargs) ((Api.pcallProp i key nargs).run.run e₀)) := by
  have g := Evaluator.guarded_standard
  -- global code pushes one value: it replaces what lies above the whole stack
  have pushes : ∀ (_ : Unit) e, e₀.Steps e ∧ e₀.Pushed e → e₀.Steps e ∧ e₀.Replaced e₀.stack.size e :=
    fun _ _ done => ⟨done.1, done.2.replaced⟩
  refine ⟨fun src => ?_, fun src => ?_, fun src suite => ?_, fun nargs group => ⟨?_, ?_⟩,
    fun nargs group => ⟨?_, ?_⟩, fun i key nargs t group found present => ⟨?_, ?_⟩⟩
  · exact Engine.restores_of_dropped
      (triple_conseq (g.evalString_spec src e₀) (fun _ start => start) pushes fun _ _ => id)
      ⟨rfl, sound⟩
  · exact Engine.restoresCaught_of_caught
      (triple_conseq (g.pevalString_spec src e₀) (fun _ start => start) pushes fun _ _ => id)
      ⟨rfl, sound⟩ (Api.pevalString_raisesTop _ _ _)
  · exact Engine.restores_of_triple (Api.evalWith_spec src suite e₀) ⟨rfl, sound⟩
  · exact Engine.restores_of_dropped (g.call_spec nargs e₀) ⟨rfl, sound, group⟩
  · exact Engine.restoresCaught_of_caught (g.pcall_spec nargs e₀) ⟨rfl, sound, group⟩
      (Api.pcall_raisesTop nargs group)
  · exact Engine.restores_of_dropped (g.callMethod_spec nargs e₀) ⟨rfl, sound, group⟩
  · exact Engine.restoresCaught_of_caught (g.pcallMethod_spec nargs e₀) ⟨rfl, sound, group⟩
      (Api.pcallMethod_raisesTop nargs (by omega))
  · exact Engine.restores_of_dropped (g.callProp_spec i key nargs t e₀)
      ⟨rfl, sound, group, found, present⟩
  · exact Engine.restoresCaught_of_caught (g.pcallProp_spec i key nargs t e₀)
      ⟨rfl, sound, group, found, present⟩ (Api.pcallProp_raisesTop i key nargs sound group found present)

/-- In a fresh engine, evaluating `1` pushes one value or fails with a script error and the stack
as it was. -/
theorem fresh_engine_evaluates_atomically :
    (Engine.fresh {} 0).Sound ∧
      (Engine.fresh {} 0).Restores 0 ((Api.evalString "1").run.run (Engine.fresh {} 0)) ∧
      ScriptFailure ((Api.evalString "1").run.run (Engine.fresh {} 0)).1 :=
  ⟨Engine.fresh_sound {} 0, (entry_points_are_atomic (Engine.fresh_sound {} 0)).1 "1"⟩

end EmbedScript
