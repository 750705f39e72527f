import Mathlib
import EmbedScript.Proofs.Calls

/-!
The entry points of the stack interface that run code keep their contracts. Global code pushes
its completion value, or leaves the stack as it was when it throws; a call replaces its group by
the result or removes the group, and a protected call or evaluation pushes the exception in
place of the result. The finalizer round and a collection leave the stack alone. From these the
operations through which host functions reenter the engine keep to their frame.
-/

namespace EmbedScript

open Std.Do Syntax

set_option mvcgen.warning false

/-- A stack that is `s₀` with one more value, save at the slot of that value, is `s₀` with some
value pushed. -/
theorem Rewritten.top {s₀ s : Array Value} {w : Value}
    (rewritten : Rewritten (some s₀.size) (s₀.push w) s) : ∃ v, s = s₀.push v := by
  obtain ⟨size, kept⟩ := rewritten
  refine ⟨s.back?.getD .undefined, Array.ext_getElem? fun i => ?_⟩
  simp only [Array.size_push] at size
  rw [Array.getElem?_push]
  split
  · rename_i top
    subst top
    rw [Array.back?_eq_getElem?, size]
    simp [Array.getElem?_eq_getElem (show s₀.size < s.size by omega)]
  · rename_i other
    rw [kept i (by simpa [eq_comm] using other), Array.getElem?_push, if_neg other]

namespace Engine

variable {e₀ e₁ e : Engine} {k : Completion} {s : Option ObjectId} {c : Option Nat}

/-- Popping a pushed scope and restoring the completion slot gives back the control state. -/
theorem control_restored
    (control : e.control = { e₀ with scopes := e₀.scopes.push s, completionSlot := c }.control) :
    { e with scopes := e.scopes.pop, completionSlot := e₀.completionSlot }.control = e₀.control := by
  simp only [Engine.control, Control.mk.injEq] at control ⊢
  obtain ⟨scopes, frames, depth, nesting, -, bottom⟩ := control
  exact ⟨by simp [scopes], frames, depth, nesting, trivial, bottom⟩

/-- Global code starts with its completion slot pushed, in a scope of its own. -/
theorem Sound.enterGlobal (sound : e₀.Sound) :
    e₀.Step (e₀.push .undefined) ∧
      (e₀.push .undefined).Step { (e₀.push .undefined) with
        completionSlot := some e₀.stack.size, scopes := e₀.scopes.push none } ∧
      Sound { (e₀.push .undefined) with
        completionSlot := some e₀.stack.size, scopes := e₀.scopes.push none } := by
  have pushed := Step.push sound.safe Heap.live_undefined
  have entered : (e₀.push .undefined).Step { (e₀.push .undefined) with
      completionSlot := some e₀.stack.size, scopes := e₀.scopes.push none } :=
    .control (sound.safe.step pushed) rfl rfl rfl rfl rfl rfl rfl rfl
      fun _ member => .inl (by simpa [Engine.push] using member)
  have framed := sound.framed
  exact ⟨pushed, entered, ⟨(sound.safe.step pushed).step entered, by simp [Engine.push]; omega⟩⟩

/-- Global code runs its body from a sound engine, once its `var` names are declared and its
functions hoisted. -/
theorem Sound.inGlobal (sound : e₀.Sound)
    (declared : Engine.Kept { (e₀.push .undefined) with
      completionSlot := some e₀.stack.size, scopes := e₀.scopes.push none } e₁)
    (hoisted : e₁.Kept e) :
    e₀.Steps e ∧ e.Sound ∧
      e.control =
        { e₀ with scopes := e₀.scopes.push none, completionSlot := some e₀.stack.size }.control ∧
      e.stack = e₀.stack.push .undefined := by
  obtain ⟨pushed, entered, sound₁⟩ := sound.enterGlobal
  have kept := declared.trans hoisted
  exact ⟨(pushed.steps.tail entered).trans kept.1, sound₁.kept kept, kept.2.1, kept.2.2⟩

/-- Global code that finished leaves, once its scope is left and the stack cut above the
completion slot, the caller's stack with the completion value pushed. -/
theorem Completed.leftGlobal (done : e₁.Completed k e)
    (control : e₁.control =
      { e₀ with scopes := e₀.scopes.push none, completionSlot := some e₀.stack.size }.control)
    (stack : e₁.stack = e₀.stack.push .undefined) (safe : e.Safe) :
    e.Step { e with scopes := e.scopes.pop, completionSlot := e₀.completionSlot } ∧
      e₀.Pushed ({ e with scopes := e.scopes.pop, completionSlot := e₀.completionSlot }.truncate
        (e₀.stack.size + 1)) := by
  obtain ⟨control', s', rewritten, result⟩ := done
  have slot : e₁.completionSlot = some e₀.stack.size := congrArg Control.completionSlot control
  rw [stack, slot] at rewritten
  obtain ⟨v, rfl⟩ := rewritten.top
  have restored := control_restored (control'.trans control)
  refine ⟨.leaveCall safe _, restored, v, ?_⟩
  · -- a returned value above the completion value is cut off
    show e.stack.take (e₀.stack.size + 1) = e₀.stack.push v
    split at result
    · obtain ⟨w, result⟩ := result
      rw [result, show e₀.stack.size + 1 = (e₀.stack.push v).size by simp]
      simp
    · rw [result, show e₀.stack.size + 1 = (e₀.stack.push v).size by simp]
      simp

/-- Global code that threw leaves, once its scope is left and the stack cut below the completion
slot, the caller's engine as it was. -/
theorem Above.leftGlobal (above : e₁.Above e)
    (control : e₁.control =
      { e₀ with scopes := e₀.scopes.push none, completionSlot := some e₀.stack.size }.control)
    (stack : e₁.stack = e₀.stack.push .undefined) (safe : e.Safe) :
    e.Step { e with scopes := e.scopes.pop, completionSlot := e₀.completionSlot } ∧
    ({ e with scopes := e.scopes.pop, completionSlot := e₀.completionSlot }.truncate
        e₀.stack.size).control = e₀.control ∧
      ({ e with scopes := e.scopes.pop, completionSlot := e₀.completionSlot }.truncate
        e₀.stack.size).stack = e₀.stack := by
  obtain ⟨control', -, kept⟩ := above
  have slot : e₁.completionSlot = some e₀.stack.size := congrArg Control.completionSlot control
  refine ⟨.leaveCall safe _, control_restored (control'.trans control), ?_⟩
  show e.stack.take e₀.stack.size = e₀.stack
  -- below the completion slot the code left the caller's stack alone
  have below : ∀ i < e₀.stack.size, e.stack[i]? = e₀.stack[i]? := fun i inside => by
    have same := kept i (by simp [stack]; omega) (by simp [slot]; omega)
    simp only [stack] at same
    rw [same, Array.getElem?_push_lt inside, Array.getElem?_eq_getElem]
  rw [take_eq_take below]
  simp

/-! ### Where the entry points leave the engine -/

variable (e₀) in
/-- Where an entry point that failed leaves the engine: after a script error the control state
is restored and the stack cut back to `base`, under what the entry point was given; out of fuel
the frame lies inside the stack. -/
def Dropped (base : Nat) : Failure → Engine → Prop
  | .error err, e => (∃ se, err = .script se) ∧ e.control = e₀.control ∧ e.stack = e₀.stack.take base
  | .exhausted, e => e.bottom ≤ e.stack.size

variable (e₀) in
/-- Where a protected entry point that failed leaves the engine: after a script error the
exception stands in place of what the entry point was given from `base` up. -/
def Caught (base : Nat) : Failure → Engine → Prop
  | .error err, e => (∃ se, err = .script se) ∧ e₀.Replaced base e
  | .exhausted, e => e.bottom ≤ e.stack.size

variable {base : Nat} {x : Failure}

/-- An engine that keeps what lies under a point inside the frame keeps the frame. -/
theorem Below.framed (below : e₀.Below base e) (above : e₀.bottom ≤ base) : e₀.Framed e := by
  obtain ⟨control, inside, kept⟩ := below
  refine ⟨control, by omega, fun i under => ?_⟩
  have same := congrArg (·[i]?) kept
  simpa [getElem?_take_eq, show i < base by omega] using same

/-- Pushing one value replaces what lies above the whole stack. -/
theorem Pushed.replaced (pushed : e₀.Pushed e) : e₀.Replaced e₀.stack.size e := by
  obtain ⟨control, v, stack⟩ := pushed
  exact ⟨control, v, by simp [stack]⟩

theorem Replaced.below (replaced : e₀.Replaced base e) (inside : base ≤ e₀.stack.size) :
    e₀.Below base e := by
  obtain ⟨control, v, stack⟩ := replaced
  exact ⟨control, by simp [stack]; omega, by simp [stack, Array.take_eq_extract, inside]⟩

/-- A call whose group lies inside the frame moves the engine inside the frame. -/
theorem Replaced.moved (run : e₀.Steps e) (replaced : e₀.Replaced base e)
    (above : e₀.bottom ≤ base) (inside : base ≤ e₀.stack.size) : e₀.Moved e :=
  ⟨run, (replaced.below inside).framed above⟩

theorem Dropped.failed (dropped : e₀.Dropped base x e) (above : e₀.bottom ≤ base)
    (inside : base ≤ e₀.stack.size) : e₀.Failed x e := by
  cases x with
  | error err =>
    obtain ⟨-, control, stack⟩ := dropped
    exact Below.framed ⟨control, by simp [stack]; omega, by simp [stack, Array.take_eq_extract]⟩ above
  | exhausted => exact dropped

theorem Caught.failed (caught : e₀.Caught base x e) (above : e₀.bottom ≤ base)
    (inside : base ≤ e₀.stack.size) : e₀.Failed x e := by
  cases x with
  | error err => exact (caught.2.below inside).framed above
  | exhausted => exact caught

/-- Pushing onto an engine with the control state of `e₀` and its stack cut at `base` replaces
what lay from `base` up. -/
theorem Replaced.of_push (control : e₁.control = e₀.control)
    (stack : e₁.stack = e₀.stack.take base) (v : Value) : e₀.Replaced base (e₁.push v) :=
  ⟨control, v, by rw [stack_push, stack]⟩

/-- A call made on a stack that agrees with `e₀` under its group leaves, as far as `e₀` can
tell, what it leaves for that stack. -/
theorem Replaced.rebase (replaced : e₁.Replaced base e) (control : e₁.control = e₀.control)
    (below : e₁.stack.take base = e₀.stack.take base) : e₀.Replaced base e := by
  obtain ⟨control', v, stack⟩ := replaced
  exact ⟨control'.trans control, v, below ▸ stack⟩

theorem Caught.rebase (caught : e₁.Caught base x e) (control : e₁.control = e₀.control)
    (below : e₁.stack.take base = e₀.stack.take base) : e₀.Caught base x e := by
  cases x with
  | error err => exact ⟨caught.1, caught.2.rebase control below⟩
  | exhausted => exact caught

theorem Dropped.rebase (dropped : e₁.Dropped base x e) (control : e₁.control = e₀.control)
    (below : e₁.stack.take base = e₀.stack.take base) : e₀.Dropped base x e := by
  cases x with
  | error err => exact ⟨dropped.1, dropped.2.1.trans control, dropped.2.2.trans below⟩
  | exhausted => exact dropped

/-- A call whose exception is reported to the stack interface drops its group. -/
theorem Removed.reported
    (removed : match x with
      | .error err => ∃ v, err = .script (e.scriptErrorOf v) ∧ e₁.Steps e ∧
          e₁.Removed base (.thrown v) e
      | .exhausted => e₁.Steps e ∧ e₁.Removed base .exhausted e)
    (control : e₁.control = e₀.control) (below : e₁.stack.take base = e₀.stack.take base) :
    e₁.Steps e ∧ e₀.Dropped base x e := by
  cases x with
  | error err =>
    obtain ⟨v, rfl, run, -, control', stack⟩ := removed
    exact ⟨run, ⟨_, rfl⟩, control'.trans control, stack.trans below⟩
  | exhausted => exact removed

/-- Inserting at `abs` leaves the stack under `abs` in place. -/
theorem take_insertAbs {abs n : Nat} (v : Value) (le : n ≤ abs) :
    (e.insertAbs abs v).stack.take n = e.stack.take n := by
  unfold insertAbs Array.insertIdxIfInBounds
  split
  · exact take_eq_take fun i below => Array.getElem?_insertIdx_of_lt ‹_› (by omega)
  · rfl

theorem size_insertAbs {abs : Nat} (v : Value) (inside : abs ≤ e.stack.size) :
    (e.insertAbs abs v).stack.size = e.stack.size + 1 := by
  simp [insertAbs, Array.insertIdxIfInBounds, inside]

/-- An undefined receiver inserted under the arguments makes the group of a method call, one
value higher on the stack. -/
theorem Sound.insertReceiver {nargs : Nat} (sound : e₀.Sound)
    (group : e₀.bottom + nargs + 1 ≤ e₀.stack.size) :
    e₀.Steps (e₀.insertAbs (e₀.stack.size - nargs) .undefined) ∧
      (e₀.insertAbs (e₀.stack.size - nargs) .undefined).Sound ∧
      e₀.bottom + nargs + 2 ≤ (e₀.insertAbs (e₀.stack.size - nargs) .undefined).stack.size ∧
      (e₀.insertAbs (e₀.stack.size - nargs) .undefined).stack.size - nargs - 2 =
        e₀.stack.size - nargs - 1 ∧
      (e₀.insertAbs (e₀.stack.size - nargs) .undefined).stack.take (e₀.stack.size - nargs - 1) =
        e₀.stack.take (e₀.stack.size - nargs - 1) := by
  have above : e₀.bottom ≤ e₀.stack.size - nargs := by omega
  have moved := sound.moved_insertAbs above Heap.live_undefined
  have size := size_insertAbs (e := e₀) .undefined (show e₀.stack.size - nargs ≤ _ by omega)
  exact ⟨moved.steps, moved.sound sound, by omega, by omega, take_insertAbs _ (by omega)⟩

/-! ### Finalizer calls -/

/-- Taking the last object off the finalizer queue works on the queue and the record alone. -/
theorem dequeued {id : ObjectId} (last : e₀.finalizeQueue.back? = some id) :
    e₀.Kept (e₀.dequeueFinalizable id) :=
  ⟨(Step.dequeue id last).steps, rfl, rfl⟩

/-- The last queued object and its finalizer are live. -/
theorem Safe.live_queued {obj fin : ObjectId} (safe : e₀.Safe)
    (last : e₀.finalizeQueue.back? = some obj) (finalizer : (e₀.object? obj).bind (·.finalizer) = some fin) :
    e₀.heap.Valid obj ∧ e₀.heap.Valid fin := by
  have live := safe.live_finalizer obj
  rw [finalizer] at live
  exact ⟨safe.roots.queue obj (Array.mem_of_back? last), by simpa using live⟩

/-- A finalizer is called on a group of its own above the stack: the finalizer as callee, an
undefined receiver and the object as its argument. -/
theorem Sound.finalizerGroup {fin obj : ObjectId} (sound : e₀.Sound) (finalizer : e₀.heap.Valid fin)
    (object : e₀.heap.Valid obj) :
    e₀.Steps (((e₀.push (.object fin)).push .undefined).push (.object obj)) ∧
      (((e₀.push (.object fin)).push .undefined).push (.object obj)).Sound ∧
      e₀.bottom + 1 + 2 ≤ (((e₀.push (.object fin)).push .undefined).push (.object obj)).stack.size ∧
      (((e₀.push (.object fin)).push .undefined).push (.object obj)).stack.size - 1 - 2 =
        e₀.stack.size ∧
      (((e₀.push (.object fin)).push .undefined).push (.object obj)).control = e₀.control ∧
      (((e₀.push (.object fin)).push .undefined).push (.object obj)).stack.take e₀.stack.size =
        e₀.stack := by
  have callee := sound.moved_push (v := .object fin) (by simpa using finalizer)
  have receiver := (callee.sound sound).moved_push (v := .undefined) (by simp)
  have argument := (receiver.sound (callee.sound sound)).moved_push (v := .object obj)
    (by simpa using object)
  have moved := callee.trans (receiver.trans argument)
  have framed := sound.framed
  refine ⟨moved.steps, moved.sound sound, by simp; omega, by simp, rfl, ?_⟩
  simp only [stack_push, Array.take_eq_extract]
  rw [Array.extract_push_of_le (by simp; omega), Array.extract_push_of_le (by simp),
    Array.extract_push_of_le le_rfl]
  simp

/-- A collection pass is one atomic step, and it leaves the control state and the stack alone. -/
theorem collected : e₀.Kept { e₀ with
    heap := (e₀.heap.collect e₀.roots).1
    registry := (e₀.registry.releaseAll (e₀.heap.collect e₀.roots).2.released).2
    finalizeQueue := e₀.finalizeQueue ++ (e₀.heap.collect e₀.roots).2.toFinalize.toArray
    finalizerLog :=
      e₀.finalizerLog ++ ((e₀.heap.collect e₀.roots).2.toFinalize.map FinalizerEvent.rescued).toArray } :=
  ⟨Step.collect.steps, rfl, rfl⟩

/-- A call on a group pushed above the stack that returned leaves one value more. -/
theorem Replaced.pushed_above (replaced : e₁.Replaced base e) (control : e₁.control = e₀.control)
    (below : e₁.stack.take base = e₀.stack) : e₀.Pushed e := by
  obtain ⟨control', v, stack⟩ := replaced
  exact ⟨control'.trans control, v, by rw [stack, below]⟩

/-- A call on a group pushed above the stack that threw leaves the stack as it was. -/
theorem Removed.kept_above {v : Value} (run : e₀.Steps e) (removed : e₁.Removed base (.thrown v) e)
    (control : e₁.control = e₀.control) (below : e₁.stack.take base = e₀.stack) : e₀.Kept e :=
  ⟨run, removed.2.1.trans control, removed.2.2.trans below⟩

end Engine

/-- A triple with a stronger precondition and weaker postconditions. -/
theorem triple_conseq {ε α : Type} {m : ExceptT ε (StateM Engine) α} {P P' : Engine → Prop}
    {Q Q' : α → Engine → Prop} {E E' : ε → Engine → Prop}
    (spec : ⦃fun e => ⌜P' e⌝⦄ m ⦃post⟨fun a e => ⌜Q' a e⌝, fun x e => ⌜E' x e⌝⟩⦄)
    (pre : ∀ e, P e → P' e) (ok : ∀ a e, Q' a e → Q a e) (err : ∀ x e, E' x e → E x e) :
    ⦃fun e => ⌜P e⌝⦄ m ⦃post⟨fun a e => ⌜Q a e⌝, fun x e => ⌜E x e⌝⟩⦄ := by
  rw [triple_iff] at spec ⊢
  intro e start
  have ran := spec e (pre e start)
  revert ran
  rcases m.run.run e with ⟨x | a, e'⟩
  · exact err x e'
  · exact ok a e'

namespace Api.Keeps

variable {α : Type}

/-- Keeping to the frame needs to be shown from sound engines only. -/
theorem of_sound {m : Api α}
    (spec : ∀ e₀, e₀.Sound → ⦃fun e => ⌜e = e₀ ∧ e₀.Sound⌝⦄ m
      ⦃post⟨fun _ e => ⌜e₀.Moved e⌝, fun x e => ⌜e₀.Steps e ∧ e₀.Failed x e⌝⟩⦄) :
    m.Keeps := by
  intro e₀
  by_cases sound : e₀.Sound
  · exact spec e₀ sound
  · rw [triple_iff]
    rintro e ⟨rfl, sound'⟩
    exact absurd sound' sound

/-- An operation that first checks for `n` values keeps to its frame when it does so from every
sound engine that has them. -/
theorem of_requireValues {n : Nat} {rest : Unit → Api α}
    (enough : ∀ e₀, e₀.Sound → e₀.bottom + n ≤ e₀.stack.size →
      ⦃fun e => ⌜e = e₀ ∧ e₀.Sound⌝⦄ (Api.requireValues n >>= rest)
      ⦃post⟨fun _ e => ⌜e₀.Moved e⌝, fun x e => ⌜e₀.Steps e ∧ e₀.Failed x e⌝⟩⦄) :
    (Api.requireValues n >>= rest).Keeps := by
  refine of_sound fun e₀ sound => ?_
  by_cases group : e₀.bottom + n ≤ e₀.stack.size
  · exact enough e₀ sound group
  · -- without the values the check fails at once, where the engine stands
    rw [triple_iff]
    rintro e ⟨rfl, -⟩
    have checked := (triple_iff _ _ _ _).mp (Api.requireValues_spec n e) e rfl
    rw [run_bind]
    revert checked
    rcases (Api.requireValues n).run.run e with ⟨x | u, e₁⟩
    · rintro ⟨rfl, refused⟩
      exact sound.refused rfl refused
    · rintro ⟨-, enough⟩
      have framed := sound.framed
      simp only [Engine.top] at enough
      omega

/-- An operation that first checks for a group of `n` values, aborting when `n` overflows a
machine word, keeps to its frame when it does so from every sound engine that has them. -/
theorem of_requireGroup {n : Nat} {rest : Unit → Api α}
    (enough : ∀ e₀, e₀.Sound → e₀.bottom + n ≤ e₀.stack.size →
      ⦃fun e => ⌜e = e₀ ∧ e₀.Sound⌝⦄ (Api.requireGroup n >>= rest)
      ⦃post⟨fun _ e => ⌜e₀.Moved e⌝, fun x e => ⌜e₀.Steps e ∧ e₀.Failed x e⌝⟩⦄) :
    (Api.requireGroup n >>= rest).Keeps := by
  refine of_sound fun e₀ sound => ?_
  by_cases group : e₀.bottom + n ≤ e₀.stack.size
  · exact enough e₀ sound group
  · -- without the values the check aborts or refuses at once, where the engine stands
    rw [triple_iff]
    rintro e ⟨rfl, -⟩
    have checked := (triple_iff _ _ _ _).mp (Api.requireGroup_spec n e) e rfl
    rw [run_bind]
    revert checked
    rcases (Api.requireGroup n).run.run e with ⟨x | u, e₁⟩
    · rintro rfl
      cases x with
      | error err => exact ⟨.refl _, .refl sound⟩
      | exhausted => exact ⟨.refl _, sound.framed⟩
    · rintro ⟨-, enough⟩
      have framed := sound.framed
      simp only [Engine.top] at enough
      omega

end Api.Keeps

/-- With enough values in the frame the check passes and changes nothing. -/
theorem Api.requireValues_of_le (n : Nat) (e₀ : Engine) :
    ⦃fun e => ⌜e = e₀ ∧ e₀.bottom + n ≤ e₀.stack.size⌝⦄ Api.requireValues n
    ⦃post⟨fun _ e => ⌜e = e₀⌝, fun _ _ => ⌜False⌝⟩⦄ := by
  mvcgen [Api.requireValues] with obtain ⟨rfl, enough⟩ := ‹_ = e₀ ∧ _›
  | vc1 =>
    simp +zetaDelta only [Engine.top] at *
    omega
  | vc2 => rfl

/-- With the values there, checking for a group can only abort, when its size overflows a
machine word. -/
theorem Api.requireGroup_of_le (n : Nat) (e₀ : Engine) :
    ⦃fun e => ⌜e = e₀ ∧ e₀.bottom + n ≤ e₀.stack.size⌝⦄ Api.requireGroup n
    ⦃post⟨fun _ e => ⌜e = e₀⌝, fun x e => ⌜x = .exhausted ∧ e = e₀⌝⟩⦄ := by
  mvcgen [Api.requireGroup, abort, Api.requireValues_of_le] with
    obtain ⟨rfl, enough⟩ := ‹_ = e₀ ∧ _›
  | vc1 => exact ⟨trivial, rfl⟩
  | vc2 => exact ⟨trivial, enough⟩
  | vc3 => exact id

/-- What cannot fail cannot fail once reported to the stack interface. -/
theorem toApi_total {α : Type} {f : Flow α} {P : Engine → Prop} {Q : α → Engine → Prop}
    (spec : ⦃fun e => ⌜P e⌝⦄ f ⦃post⟨fun a e => ⌜Q a e⌝, fun _ _ => ⌜False⌝⟩⦄) :
    ⦃fun e => ⌜P e⌝⦄ f.toApi ⦃post⟨fun a e => ⌜Q a e⌝, fun _ _ => ⌜False⌝⟩⦄ := by
  rw [triple_iff] at spec ⊢
  intro e pre
  have ran := spec e pre
  rw [toApi_run]
  revert ran
  rcases f.run.run e with ⟨(_ | _) | _, e'⟩ <;> exact id

/-- Reading a property of a value that is neither undefined nor null never throws. -/
theorem getProperty_present_spec (target : Value) (key : String) (e₀ : Engine) :
    ⦃fun e => ⌜e = e₀ ∧ e₀.Safe ∧ target.isNullish = false⌝⦄ getProperty target key
    ⦃post⟨fun v e => ⌜e = e₀ ∧ e.heap.Live v⌝, fun _ _ => ⌜False⌝⟩⦄ := by
  mvcgen [getProperty] with obtain ⟨rfl, safe, present⟩ := ‹_ = e₀ ∧ _›
  | vc1 | vc2 => simp [‹target = _›, Value.isNullish] at present
  | vc3 | vc4 | vc5 | vc6 | vc7 => exact ⟨rfl, by simp⟩
  | vc8 => exact ⟨rfl, safe.live_objectGet _ _⟩

/-- The callee and the receiver inserted under the arguments make the group of a method call,
two values higher on the stack. -/
theorem Engine.Sound.insertCallee {e₀ : Engine} {nargs : Nat} {t f : Value} (sound : e₀.Sound)
    (group : e₀.bottom + nargs ≤ e₀.stack.size) (target : e₀.heap.Live t) (callee : e₀.heap.Live f) :
    e₀.Steps ((e₀.insertAbs (e₀.stack.size - nargs) t).insertAbs (e₀.stack.size - nargs) f) ∧
      ((e₀.insertAbs (e₀.stack.size - nargs) t).insertAbs (e₀.stack.size - nargs) f).Sound ∧
      e₀.bottom + nargs + 2 ≤
        ((e₀.insertAbs (e₀.stack.size - nargs) t).insertAbs (e₀.stack.size - nargs) f).stack.size ∧
      ((e₀.insertAbs (e₀.stack.size - nargs) t).insertAbs (e₀.stack.size - nargs) f).stack.size -
        nargs - 2 = e₀.stack.size - nargs ∧
      ((e₀.insertAbs (e₀.stack.size - nargs) t).insertAbs (e₀.stack.size - nargs) f).stack.take
        (e₀.stack.size - nargs) = e₀.stack.take (e₀.stack.size - nargs) := by
  have above : e₀.bottom ≤ e₀.stack.size - nargs := by omega
  have first := sound.moved_insertAbs above target
  have size₁ := Engine.size_insertAbs (e := e₀) t (show e₀.stack.size - nargs ≤ _ by omega)
  have second := (first.sound sound).moved_insertAbs (show e₀.bottom ≤ _ from above) callee
  have size₂ := Engine.size_insertAbs (e := e₀.insertAbs (e₀.stack.size - nargs) t) f
    (show e₀.stack.size - nargs ≤ _ by omega)
  refine ⟨first.steps.trans second.steps, second.sound (first.sound sound), by omega, by omega, ?_⟩
  rw [Engine.take_insertAbs _ le_rfl, Engine.take_insertAbs _ le_rfl]

/-- At a valid index the value is read and nothing changes. -/
theorem Api.valueAt_of_some (i : Int) {v : Value} (e₀ : Engine) :
    ⦃fun e => ⌜e = e₀ ∧ e₀.get? i = some v⌝⦄ Api.valueAt i
    ⦃post⟨fun w e => ⌜e = e₀ ∧ w = v⌝, fun _ _ => ⌜False⌝⟩⦄ := by
  mvcgen [Api.valueAt] with obtain ⟨rfl, found⟩ := ‹_ = e₀ ∧ _›
  | vc1 => exact ⟨rfl, Option.some.inj (‹_ = some _›.symm.trans found)⟩
  | vc2 => simp_all

namespace Evaluator

variable {d : Evaluator}

/-- Global code pushes its completion value; when it throws, the stack is as it was. -/
theorem Guarded.runProgram_spec (g : d.Guarded) (prog : Program) (e₀ : Engine) :
    ⦃fun e => ⌜e = e₀ ∧ e₀.Sound⌝⦄ d.runProgram prog
    ⦃post⟨fun _ e => ⌜e₀.Steps e ∧ e₀.Pushed e⌝,
      fun u e => ⌜e₀.Steps e ∧ e₀.Removed e₀.stack.size u e⌝⟩⦄ := by
  have tried := fun e₁ => attempt_settled (g.execBlock_spec prog.body e₁)
  mvcgen [runProgram, hoistProgram, stackSize, pushValue, declareGlobals_spec, hoistGlobals_spec,
    tried] with
    obtain ⟨rfl, sound⟩ := ‹_ = e₀ ∧ _›
  | vc1 => exact ⟨trivial, sound.enterGlobal.2.2.safe⟩
  | vc2 => exact ⟨trivial, (sound.enterGlobal.2.2.kept ‹_›).safe⟩
  | vc3 => exact ⟨trivial, (sound.inGlobal ‹_› ‹_›).2.1⟩
  | vc4 =>
    obtain ⟨entered, -, control, stack⟩ := sound.inGlobal ‹_› ‹_›
    obtain rfl := ‹_ = Except.ok _›
    obtain ⟨run, done⟩ := ‹Engine.Settled _ _ _›
    obtain ⟨left, pushed⟩ := done.leftGlobal control stack ((entered.trans run).safe' sound.safe)
    have reached := (entered.trans run).tail left
    exact ⟨reached.tail (.truncate (reached.safe' sound.safe) _), pushed⟩
  | vc5 =>
    obtain ⟨entered, -, control, stack⟩ := sound.inGlobal ‹_› ‹_›
    obtain rfl := ‹_ = Except.error _›
    obtain ⟨run, live, above⟩ := ‹Engine.Settled _ _ _›
    obtain ⟨left, control', stack'⟩ :=
      above.leftGlobal control stack ((entered.trans run).safe' sound.safe)
    have reached := (entered.trans run).tail left
    exact ⟨reached.tail (.truncate (reached.safe' sound.safe) _), live, control', stack'.trans (by simp)⟩
  | vc6 =>
    rintro rfl run unwound
    exact ⟨(sound.inGlobal ‹_› ‹_›).1.trans run, unwound⟩

/-- Evaluating source text pushes its completion value; a syntax error or an exception leaves
the stack and the control state as they were. -/
theorem Guarded.evalString_spec (g : d.Guarded) (src : String) (e₀ : Engine) :
    ⦃fun e => ⌜e = e₀ ∧ e₀.Sound⌝⦄ d.evalString src
    ⦃post⟨fun _ e => ⌜e₀.Steps e ∧ e₀.Pushed e⌝,
      fun x e => ⌜e₀.Steps e ∧ e₀.Dropped e₀.stack.size x e⌝⟩⦄ := by
  rw [evalString]
  split
  · -- a syntax error is refused before anything runs
    mvcgen [EmbedScript.fail] with obtain ⟨rfl, -⟩ := ‹_ = e₀ ∧ _›
    | vc1 => exact ⟨.refl _, ⟨_, rfl⟩, rfl, by simp⟩
  · exact triple_conseq (toApi_spec (g.runProgram_spec _ e₀)) (fun _ start => start)
      (fun _ _ ran => ran) fun _ _ reported => Engine.Removed.reported reported rfl rfl

/-- Protected evaluation pushes the completion value, or the exception in its place. -/
theorem Guarded.pevalString_spec (g : d.Guarded) (src : String) (e₀ : Engine) :
    ⦃fun e => ⌜e = e₀ ∧ e₀.Sound⌝⦄ d.pevalString src
    ⦃post⟨fun _ e => ⌜e₀.Steps e ∧ e₀.Pushed e⌝,
      fun x e => ⌜e₀.Steps e ∧ e₀.Caught e₀.stack.size x e⌝⟩⦄ := by
  have run := fun prog => catchThrown_spec (g.runProgram_spec prog e₀)
  rw [pevalString]
  mvcgen [run, allocError, allocObject, raise_spec] with
    obtain ⟨rfl, sound⟩ := ‹_ = e₀ ∧ _›
  | vc3 | vc6 => exact False.elim
  | vc4 =>
    rintro rfl rfl
    obtain ⟨run, live, control, stack⟩ := ‹Engine.Steps _ _ ∧ _›
    exact ⟨run.tail (.push (run.safe' sound.safe) live), ⟨_, rfl⟩, .of_push control stack _⟩
  | vc5 =>
    rintro rfl run removed
    exact ⟨run, removed⟩
  | vc7 =>
    -- a syntax error is reported by a fresh error object in place of the completion value
    rintro rfl rfl
    exact ⟨(sound.moved_alloc_push (allocatable_error _ _ _ _)).steps, ⟨_, rfl⟩,
      .of_push rfl (by simp) _⟩

/-- A call reported to the stack interface replaces its group by the result, or drops the group
and fails with the script error of the exception. -/
theorem Guarded.invoke_toApi_spec (g : d.Guarded) (nargs : Nat) (e₀ : Engine) :
    ⦃fun e => ⌜e = e₀ ∧ e₀.Sound ∧ e₀.bottom + nargs + 2 ≤ e₀.stack.size⌝⦄
    (d.invoke nargs false).toApi
    ⦃post⟨fun _ e => ⌜e₀.Steps e ∧ e₀.Replaced (e₀.stack.size - nargs - 2) e⌝,
      fun x e => ⌜e₀.Steps e ∧ e₀.Dropped (e₀.stack.size - nargs - 2) x e⌝⟩⦄ := by
  have call := toApi_spec (g.invoke nargs false e₀)
  mvcgen [call] with obtain ⟨rfl, -⟩ := ‹_ = e₀ ∧ _›
  | vc2 => exact And.intro
  | vc3 => exact fun reported => Engine.Removed.reported reported rfl rfl

/-- A protected call replaces its group by the result, or by the exception. -/
theorem Guarded.protectedInvoke_spec (g : d.Guarded) (nargs : Nat) (e₀ : Engine) :
    ⦃fun e => ⌜e = e₀ ∧ e₀.Sound ∧ e₀.bottom + nargs + 2 ≤ e₀.stack.size⌝⦄ d.protectedInvoke nargs
    ⦃post⟨fun _ e => ⌜e₀.Steps e ∧ e₀.Replaced (e₀.stack.size - nargs - 2) e⌝,
      fun x e => ⌜e₀.Steps e ∧ e₀.Caught (e₀.stack.size - nargs - 2) x e⌝⟩⦄ := by
  have call := catchThrown_spec (g.invoke nargs false e₀)
  mvcgen [protectedInvoke, call, raise_spec] with obtain ⟨rfl, sound, group⟩ := ‹_ = e₀ ∧ _›
  | vc3 => exact False.elim
  | vc4 =>
    rintro rfl rfl
    obtain ⟨run, live, control, stack⟩ := ‹Engine.Steps _ _ ∧ _›
    exact ⟨run.tail (.push (run.safe' sound.safe) live), ⟨_, rfl⟩, .of_push control stack _⟩
  | vc5 =>
    rintro rfl run removed
    exact ⟨run, removed⟩

/-- A call replaces the callee and its arguments by the result, or removes them and throws. -/
theorem Guarded.call_spec (g : d.Guarded) (nargs : Nat) (e₀ : Engine) :
    ⦃fun e => ⌜e = e₀ ∧ e₀.Sound ∧ e₀.bottom + nargs + 1 ≤ e₀.stack.size⌝⦄ d.call nargs
    ⦃post⟨fun _ e => ⌜e₀.Steps e ∧ e₀.Replaced (e₀.stack.size - nargs - 1) e⌝,
      fun x e => ⌜e₀.Steps e ∧ e₀.Dropped (e₀.stack.size - nargs - 1) x e⌝⟩⦄ := by
  have invoke := fun e₁ => g.invoke_toApi_spec nargs e₁
  mvcgen [call, Api.requireGroup_of_le, invoke] with
    (obtain ⟨rfl, sound, group⟩ := ‹_ = e₀ ∧ _›; subst_vars)
  | vc1 => exact ⟨trivial, by omega⟩
  | vc2 => exact ⟨trivial, (sound.insertReceiver group).2.1, (sound.insertReceiver group).2.2.1⟩
  | vc3 =>
    intro run replaced
    obtain ⟨steps, -, -, base, below⟩ := sound.insertReceiver group
    rw [base] at replaced
    exact ⟨steps.trans run, replaced.rebase rfl below⟩
  | vc4 =>
    intro run dropped
    obtain ⟨steps, -, -, base, below⟩ := sound.insertReceiver group
    rw [base] at dropped
    exact ⟨steps.trans run, dropped.rebase rfl below⟩
  -- a group too large for a machine word aborts the call where it stands
  | vc5 =>
    rintro rfl rfl
    exact ⟨.refl _, sound.framed⟩

/-- A protected call replaces the callee and its arguments by the result, or by the exception. -/
theorem Guarded.pcall_spec (g : d.Guarded) (nargs : Nat) (e₀ : Engine) :
    ⦃fun e => ⌜e = e₀ ∧ e₀.Sound ∧ e₀.bottom + nargs + 1 ≤ e₀.stack.size⌝⦄ d.pcall nargs
    ⦃post⟨fun _ e => ⌜e₀.Steps e ∧ e₀.Replaced (e₀.stack.size - nargs - 1) e⌝,
      fun x e => ⌜e₀.Steps e ∧ e₀.Caught (e₀.stack.size - nargs - 1) x e⌝⟩⦄ := by
  have invoke := fun e₁ => g.protectedInvoke_spec nargs e₁
  mvcgen [pcall, Api.requireGroup_of_le, invoke] with
    (obtain ⟨rfl, sound, group⟩ := ‹_ = e₀ ∧ _›; subst_vars)
  | vc1 => exact ⟨trivial, by omega⟩
  | vc2 => exact ⟨trivial, (sound.insertReceiver group).2.1, (sound.insertReceiver group).2.2.1⟩
  | vc3 =>
    intro run replaced
    obtain ⟨steps, -, -, base, below⟩ := sound.insertReceiver group
    rw [base] at replaced
    exact ⟨steps.trans run, replaced.rebase rfl below⟩
  | vc4 =>
    intro run caught
    obtain ⟨steps, -, -, base, below⟩ := sound.insertReceiver group
    rw [base] at caught
    exact ⟨steps.trans run, caught.rebase rfl below⟩
  | vc5 =>
    rintro rfl rfl
    exact ⟨.refl _, sound.framed⟩

/-- A method call replaces the callee, the receiver and the arguments by the result, or removes
them and throws. -/
theorem Guarded.callMethod_spec (g : d.Guarded) (nargs : Nat) (e₀ : Engine) :
    ⦃fun e => ⌜e = e₀ ∧ e₀.Sound ∧ e₀.bottom + nargs + 2 ≤ e₀.stack.size⌝⦄ d.callMethod nargs
    ⦃post⟨fun _ e => ⌜e₀.Steps e ∧ e₀.Replaced (e₀.stack.size - nargs - 2) e⌝,
      fun x e => ⌜e₀.Steps e ∧ e₀.Dropped (e₀.stack.size - nargs - 2) x e⌝⟩⦄ := by
  have invoke := g.invoke_toApi_spec nargs e₀
  mvcgen [callMethod, Api.requireValues_of_le, invoke] with
    (obtain ⟨rfl, sound, group⟩ := ‹_ = e₀ ∧ _›; subst_vars)
  | vc1 => exact ⟨trivial, by omega⟩
  | vc2 => exact ⟨rfl, sound, group⟩

theorem Guarded.pcallMethod_spec (g : d.Guarded) (nargs : Nat) (e₀ : Engine) :
    ⦃fun e => ⌜e = e₀ ∧ e₀.Sound ∧ e₀.bottom + nargs + 2 ≤ e₀.stack.size⌝⦄ d.pcallMethod nargs
    ⦃post⟨fun _ e => ⌜e₀.Steps e ∧ e₀.Replaced (e₀.stack.size - nargs - 2) e⌝,
      fun x e => ⌜e₀.Steps e ∧ e₀.Caught (e₀.stack.size - nargs - 2) x e⌝⟩⦄ := by
  have invoke := g.protectedInvoke_spec nargs e₀
  mvcgen [pcallMethod, Api.requireValues_of_le, invoke] with
    (obtain ⟨rfl, sound, group⟩ := ‹_ = e₀ ∧ _›; subst_vars)
  | vc1 => exact ⟨trivial, by omega⟩
  | vc2 => exact ⟨rfl, sound, group⟩

/-- Preparing a property call puts the property and the value that holds it under the
arguments, as callee and receiver. -/
theorem preparePropCall_spec (i : Int) (key : String) (nargs : Nat) (t : Value) (e₀ : Engine) :
    ⦃fun e => ⌜e = e₀ ∧ e₀.Sound ∧ e₀.bottom + nargs ≤ e₀.stack.size ∧ e₀.get? i = some t ∧
      t.isNullish = false⌝⦄ preparePropCall i key nargs
    ⦃post⟨fun _ e => ⌜e₀.Steps e ∧ e.Sound ∧ e₀.bottom + nargs + 2 ≤ e.stack.size ∧
        e.stack.size - nargs - 2 = e₀.stack.size - nargs ∧ e.control = e₀.control ∧
        e.stack.take (e₀.stack.size - nargs) = e₀.stack.take (e₀.stack.size - nargs)⌝,
      fun _ _ => ⌜False⌝⟩⦄ := by
  have value := fun e => Api.valueAt_of_some i (v := t) e
  have property := fun t e => toApi_total (getProperty_present_spec t key e)
  mvcgen [preparePropCall, Api.requireValues_of_le, value, property, EmbedScript.fail] with
    (obtain ⟨rfl, sound, group, found, present⟩ := ‹_ = e₀ ∧ _›; subst_vars)
  | vc1 => exact ⟨trivial, group⟩
  | vc2 => exact ⟨trivial, found⟩
  | vc3 =>
    obtain ⟨-, rfl⟩ := ‹_ = _ ∧ _ = t›
    simp [present] at ‹Value.isNullish _ = true›
  | vc4 =>
    obtain ⟨rfl, rfl⟩ := ‹_ = _ ∧ _ = t›
    exact ⟨trivial, sound.safe, present⟩
  | vc5 =>
    obtain ⟨rfl, rfl⟩ := ‹_ = _ ∧ _ = t›
    obtain ⟨rfl, live⟩ := ‹_ = _ ∧ Heap.Live _ _›
    obtain ⟨steps, sound', size, base, below⟩ :=
      sound.insertCallee group (sound.safe.live_of_mem (Engine.get?_mem found)) live
    exact ⟨steps, sound', size, base, rfl, below⟩

/-- A property call replaces its arguments by the result, or removes them and throws. -/
theorem Guarded.callProp_spec (g : d.Guarded) (i : Int) (key : String) (nargs : Nat) (t : Value)
    (e₀ : Engine) :
    ⦃fun e => ⌜e = e₀ ∧ e₀.Sound ∧ e₀.bottom + nargs ≤ e₀.stack.size ∧ e₀.get? i = some t ∧
      t.isNullish = false⌝⦄ d.callProp i key nargs
    ⦃post⟨fun _ e => ⌜e₀.Steps e ∧ e₀.Replaced (e₀.stack.size - nargs) e⌝,
      fun x e => ⌜e₀.Steps e ∧ e₀.Dropped (e₀.stack.size - nargs) x e⌝⟩⦄ := by
  have prepare := preparePropCall_spec i key nargs t e₀
  have invoke := fun e₁ => g.invoke_toApi_spec nargs e₁
  mvcgen [callProp, prepare, invoke] with
  | vc2 =>
    obtain ⟨-, sound, group, -, control, -⟩ := ‹e₀.Steps _ ∧ _›
    have bottom := congrArg Engine.Control.bottom control
    exact ⟨trivial, sound, by simp only [Engine.control] at bottom; omega⟩
  | vc3 =>
    intro run replaced
    obtain ⟨steps, -, -, base, control, below⟩ := ‹e₀.Steps _ ∧ _›
    rw [base] at replaced
    exact ⟨steps.trans run, replaced.rebase control below⟩
  | vc4 =>
    intro run dropped
    obtain ⟨steps, -, -, base, control, below⟩ := ‹e₀.Steps _ ∧ _›
    rw [base] at dropped
    exact ⟨steps.trans run, dropped.rebase control below⟩

/-- A protected property call replaces its arguments by the result, or by the exception. -/
theorem Guarded.pcallProp_spec (g : d.Guarded) (i : Int) (key : String) (nargs : Nat) (t : Value)
    (e₀ : Engine) :
    ⦃fun e => ⌜e = e₀ ∧ e₀.Sound ∧ e₀.bottom + nargs ≤ e₀.stack.size ∧ e₀.get? i = some t ∧
      t.isNullish = false⌝⦄ d.pcallProp i key nargs
    ⦃post⟨fun _ e => ⌜e₀.Steps e ∧ e₀.Replaced (e₀.stack.size - nargs) e⌝,
      fun x e => ⌜e₀.Steps e ∧ e₀.Caught (e₀.stack.size - nargs) x e⌝⟩⦄ := by
  have prepare := preparePropCall_spec i key nargs t e₀
  have invoke := fun e₁ => g.protectedInvoke_spec nargs e₁
  mvcgen [pcallProp, prepare, invoke] with
  | vc2 =>
    obtain ⟨-, sound, group, -, control, -⟩ := ‹e₀.Steps _ ∧ _›
    have bottom := congrArg Engine.Control.bottom control
    exact ⟨trivial, sound, by simp only [Engine.control] at bottom; omega⟩
  | vc3 =>
    intro run replaced
    obtain ⟨steps, -, -, base, control, below⟩ := ‹e₀.Steps _ ∧ _›
    rw [base] at replaced
    exact ⟨steps.trans run, replaced.rebase control below⟩
  | vc4 =>
    intro run caught
    obtain ⟨steps, -, -, base, control, below⟩ := ‹e₀.Steps _ ∧ _›
    rw [base] at caught
    exact ⟨steps.trans run, caught.rebase control below⟩

/-- The rest of the finalizer queue, run from where the engine was kept. -/
theorem Guarded.finalizeQueued_after (g : d.Guarded) (count : Nat) {e₀ e : Engine}
    (sound : e₀.Sound) (kept : e₀.Kept e) :
    (wp⟦d.finalizeQueued count⟧ (post⟨fun _ e' => ⌜e₀.Kept e'⌝,
      fun x e' => ⌜x = .exhausted ∧ e₀.Steps e' ∧ e'.bottom ≤ e'.stack.size⌝⟩) e).down :=
  wp_of_triple (g.finalizeQueued count e) ⟨rfl, sound.kept kept⟩ (fun _ _ rest => kept.trans rest)
    fun _ _ ⟨exhausted, run, framed⟩ => ⟨exhausted, kept.1.trans run, framed⟩

/-- A finalizer round runs the finalizer of the last queued object, if it still has one, on a
group of its own above the stack, and goes on with the rest of the queue; whatever the
finalizer does, the stack and the control state come back as they were. -/
theorem Guarded.finalizeRound_spec (g : d.Guarded) (count : Nat) (e₀ : Engine) :
    ⦃fun e => ⌜e = e₀ ∧ e₀.Sound⌝⦄ d.finalizeRound count
    ⦃post⟨fun _ e => ⌜e₀.Kept e⌝,
      fun x e => ⌜x = .exhausted ∧ e₀.Steps e ∧ e.bottom ≤ e.stack.size⌝⟩⦄ := by
  have invoke := fun e₁ => catchThrown_spec (g.invoke 1 false e₁)
  mvcgen [finalizeRound, invoke, popValue_spec] with obtain ⟨rfl, sound⟩ := ‹_ = e₀ ∧ _›
  | vc1 => exact .refl _
  | vc2 => exact g.finalizeQueued_after count sound (Engine.dequeued ‹_›)
  | vc3 =>
    obtain ⟨object, finalizer⟩ := sound.safe.live_queued ‹_› ‹_›
    obtain ⟨-, sound', group, -⟩ := (sound.kept (Engine.dequeued ‹_›)).finalizerGroup finalizer object
    exact ⟨trivial, sound', group⟩
  | vc4 =>
    obtain ⟨object, finalizer⟩ := sound.safe.live_queued ‹_› ‹_›
    have dequeued := sound.kept (Engine.dequeued ‹_›)
    obtain ⟨-, -, -, base, control, below⟩ := dequeued.finalizerGroup finalizer object
    obtain ⟨-, replaced⟩ := ‹Engine.Steps _ _ ∧ Engine.Replaced _ _ _›
    rw [base] at replaced
    exact ⟨trivial, (replaced.pushed_above control below).nonempty dequeued⟩
  | vc5 =>
    intro _ _ rfl
    obtain ⟨object, finalizer⟩ := sound.safe.live_queued ‹_› ‹_›
    have dequeued := sound.kept (Engine.dequeued ‹_›)
    obtain ⟨steps, -, -, base, control, below⟩ := dequeued.finalizerGroup finalizer object
    obtain ⟨run, replaced⟩ := ‹Engine.Steps _ _ ∧ Engine.Replaced _ _ _›
    rw [base] at replaced
    -- the finalizer's result is popped, which gives back the stack of the round
    have popped := (replaced.pushed_above control below).popped dequeued (steps.trans run)
    exact g.finalizeQueued_after _ sound ((Engine.dequeued ‹_›).trans popped.1)
  | vc6 =>
    intro _ run removed
    obtain ⟨object, finalizer⟩ := sound.safe.live_queued ‹_› ‹_›
    obtain ⟨steps, -, -, base, control, below⟩ :=
      (sound.kept (Engine.dequeued ‹_›)).finalizerGroup finalizer object
    rw [base] at removed
    exact g.finalizeQueued_after _ sound
      ((Engine.dequeued ‹_›).trans (removed.kept_above (steps.trans run) control below))
  | vc7 =>
    rintro rfl run removed
    obtain ⟨object, finalizer⟩ := sound.safe.live_queued ‹_› ‹_›
    obtain ⟨steps, -⟩ := (sound.kept (Engine.dequeued ‹_›)).finalizerGroup finalizer object
    exact ⟨rfl, (Engine.dequeued ‹_›).1.trans (steps.trans run), removed⟩

/-- Running the finalizers leaves the stack and the control state as they were; at the depth
limit the queue waits. -/
theorem Guarded.runFinalizers_spec (g : d.Guarded) (e₀ : Engine) :
    ⦃fun e => ⌜e = e₀ ∧ e₀.Sound⌝⦄ d.runFinalizers
    ⦃post⟨fun _ e => ⌜e₀.Kept e⌝,
      fun x e => ⌜x = .exhausted ∧ e₀.Steps e ∧ e.bottom ≤ e.stack.size⌝⟩⦄ := by
  have rest := g.finalizeQueued 0 e₀
  mvcgen [runFinalizers, rest] with obtain ⟨rfl, sound⟩ := ‹_ = e₀ ∧ _›
  | vc1 => exact .refl _

/-- A collection sweeps the heap, releases the registry entries of the proxies it frees and runs
the finalizers that are due, and leaves the stack and the control state as they were. -/
theorem Guarded.collectGarbage_spec (g : d.Guarded) (e₀ : Engine) :
    ⦃fun e => ⌜e = e₀ ∧ e₀.Sound⌝⦄ d.collectGarbage
    ⦃post⟨fun _ e => ⌜e₀.Kept e⌝,
      fun x e => ⌜x = .exhausted ∧ e₀.Steps e ∧ e.bottom ≤ e.stack.size⌝⟩⦄ := by
  have finalize := fun e₁ => g.runFinalizers_spec e₁
  mvcgen [collectGarbage, finalize] with obtain ⟨rfl, sound⟩ := ‹_ = e₀ ∧ _›
  | vc1 => exact ⟨trivial, sound.kept Engine.collected⟩
  | vc2 => exact Engine.collected.trans ‹_›
  | vc3 =>
    rintro rfl run framed
    exact ⟨rfl, Engine.collected.1.trans run, framed⟩

/-! ### Reentry -/

/-- Evaluation keeps to the frame it is started from. -/
theorem Guarded.keeps_evalString (g : d.Guarded) (src : String) : (d.evalString src).Keeps :=
  .of_sound fun e₀ sound => triple_conseq (g.evalString_spec src e₀) (fun _ start => start)
    (fun _ _ ⟨run, pushed⟩ => pushed.replaced.moved run sound.framed le_rfl)
    fun _ _ ⟨run, dropped⟩ => ⟨run, dropped.failed sound.framed le_rfl⟩

theorem Guarded.keeps_pevalString (g : d.Guarded) (src : String) : (d.pevalString src).Keeps :=
  .of_sound fun e₀ sound => triple_conseq (g.pevalString_spec src e₀) (fun _ start => start)
    (fun _ _ ⟨run, pushed⟩ => pushed.replaced.moved run sound.framed le_rfl)
    fun _ _ ⟨run, caught⟩ => ⟨run, caught.failed sound.framed le_rfl⟩

theorem Guarded.keeps_call (g : d.Guarded) (nargs : Nat) : (d.call nargs).Keeps :=
  .of_requireGroup fun e₀ sound group =>
    triple_conseq (g.call_spec nargs e₀) (fun _ ⟨same, _⟩ => ⟨same, sound, by omega⟩)
      (fun _ _ ⟨run, replaced⟩ => replaced.moved run (by omega) (by omega))
      fun _ _ ⟨run, dropped⟩ => ⟨run, dropped.failed (by omega) (by omega)⟩

theorem Guarded.keeps_pcall (g : d.Guarded) (nargs : Nat) : (d.pcall nargs).Keeps :=
  .of_requireGroup fun e₀ sound group =>
    triple_conseq (g.pcall_spec nargs e₀) (fun _ ⟨same, _⟩ => ⟨same, sound, by omega⟩)
      (fun _ _ ⟨run, replaced⟩ => replaced.moved run (by omega) (by omega))
      fun _ _ ⟨run, caught⟩ => ⟨run, caught.failed (by omega) (by omega)⟩

theorem Guarded.keeps_collectGarbage (g : d.Guarded) : d.collectGarbage.Keeps :=
  .of_sound fun e₀ sound => triple_conseq (g.collectGarbage_spec e₀) (fun _ start => start)
    (fun _ _ kept => kept.moved sound) fun _ _ ⟨exhausted, run, framed⟩ => ⟨run, exhausted ▸ framed⟩

/-- The operations through which host functions reenter a guarded evaluator keep to their
frame. -/
theorem Guarded.reentry_keeps (g : d.Guarded) : d.reentry.Keeps where
  evalString := g.keeps_evalString
  pevalString := g.keeps_pevalString
  call := g.keeps_call
  pcall := g.keeps_pcall
  collect := g.keeps_collectGarbage

end Evaluator

end EmbedScript