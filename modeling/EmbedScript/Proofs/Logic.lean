import Mathlib
import EmbedScript.Proofs.Steps

/-!
The program logic the evaluator's proofs are written in: Hoare triples of `Std.Do` over the
engine, read back as plain statements about a run, and the contracts that running code keeps.
Code runs from a sound engine (safe, with its frame inside the stack) and moves it by atomic
steps. Finished code leaves the control state as it found it and the stack below its start
untouched, save the completion slot; code that throws does the same and throws a live value;
code that runs out of fuel only keeps the frame inside the stack.
-/

namespace EmbedScript

open Std.Do

/-! ### Reading triples -/

section Triples

variable {ε α : Type}

theorem wp_run (m : ExceptT ε (StateM Engine) α) (Q : PostCond α (.except ε (.arg Engine .pure)))
    (e : Engine) :
    wp⟦m⟧ Q e = (match m.run.run e with
      | (.ok a, e') => Q.1 a e'
      | (.error x, e') => Q.2.1 x e') := by
  simp only [wp, PredTrans.pushExcept, PredTrans.pushArg, ExceptT.run, StateT.run]
  rcases found : m e with ⟨_ | _, e'⟩ <;> simp [PredTrans.apply, found] <;> rfl

theorem run_bind {β : Type} (x : ExceptT ε (StateM Engine) α) (f : α → ExceptT ε (StateM Engine) β)
    (e : Engine) :
    (x >>= f).run.run e = match x.run.run e with
      | (.ok a, e') => (f a).run.run e'
      | (.error err, e') => (.error err, e') := by
  simp only [ExceptT.run_bind, StateT.run_bind]
  rcases x.run.run e with ⟨_ | _, e'⟩ <;> rfl

/-- A triple says what every run from a state of the precondition ends in. -/
theorem triple_iff (m : ExceptT ε (StateM Engine) α) (P : Engine → Prop) (Q : α → Engine → Prop)
    (E : ε → Engine → Prop) :
    ⦃fun e => ⌜P e⌝⦄ m ⦃post⟨fun a e => ⌜Q a e⌝, fun x e => ⌜E x e⌝⟩⦄ ↔
      ∀ e, P e → match m.run.run e with
        | (.ok a, e') => Q a e'
        | (.error x, e') => E x e' := by
  simp only [Triple, SPred.entails_1, wp_run]
  refine forall_congr' fun e => ?_
  rcases m.run.run e with ⟨_ | _, e'⟩ <;> simp

/-- A triple applied at one state, with a weaker postcondition: how a recursive call that the
verification condition generator leaves open is closed. -/
theorem wp_of_triple {m : ExceptT ε (StateM Engine) α} {P : Engine → Prop}
    {Q Q' : α → Engine → Prop} {E E' : ε → Engine → Prop}
    (spec : ⦃fun e => ⌜P e⌝⦄ m ⦃post⟨fun a e => ⌜Q' a e⌝, fun x e => ⌜E' x e⌝⟩⦄)
    {s : Engine} (pre : P s) (ok : ∀ a e, Q' a e → Q a e) (err : ∀ x e, E' x e → E x e) :
    (wp⟦m⟧ (post⟨fun a e => ⌜Q a e⌝, fun x e => ⌜E x e⌝⟩) s).down := by
  rw [wp_run]
  have ran := (triple_iff m P Q' E').mp spec s pre
  revert ran
  rcases m.run.run s with ⟨_ | _, e'⟩
  · exact err _ _
  · exact ok _ _

end Triples

/-! ### Contracts -/

namespace Engine

/-- The control state that running code restores. -/
structure Control where
  scopes : Array (Option ObjectId)
  hostFrames : Array Nat
  callDepth : Nat
  nesting : Nat
  completionSlot : Option Nat
  bottom : Nat

def control (e : Engine) : Control :=
  ⟨e.scopes, e.hostFrames, e.callDepth, e.nesting, e.completionSlot, e.bottom⟩

/-- A safe engine whose frame lies inside its stack. -/
structure Sound (e : Engine) : Prop where
  safe : e.Safe
  framed : e.bottom ≤ e.stack.size

end Engine

/-- `s` is `s₀` again, save perhaps the value at the completion slot `c`. -/
def Rewritten (c : Option Nat) (s₀ s : Array Value) : Prop :=
  s.size = s₀.size ∧ ∀ i, c ≠ some i → s[i]? = s₀[i]?

namespace Engine

variable (e₀ : Engine)

/-- The engine `e` runs on top of `e₀`: the control state is the same and the stack holds that
of `e₀` below its top, save the completion slot. -/
def Above (e : Engine) : Prop :=
  e.control = e₀.control ∧ e₀.stack.size ≤ e.stack.size ∧
    ∀ i < e₀.stack.size, e₀.completionSlot ≠ some i → e.stack[i]? = e₀.stack[i]?

/-- Where an expression leaves the engine: one value pushed, the control state restored. -/
def Pushed (e : Engine) : Prop :=
  e.control = e₀.control ∧ ∃ v, e.stack = e₀.stack.push v

/-- Where a statement that finished with `k` leaves the engine: the control state restored, the
stack as it was save the completion slot, and a returned value on top. -/
def Completed (k : Completion) (e : Engine) : Prop :=
  e.control = e₀.control ∧ ∃ s, Rewritten e₀.completionSlot e₀.stack s ∧
    if k = .returning then ∃ v, e.stack = s.push v else e.stack = s

/-- Where code that works on the heap alone leaves the engine: moved by atomic steps, with the
control state and the stack as they were. -/
def Kept (e : Engine) : Prop :=
  e₀.Steps e ∧ e.control = e₀.control ∧ e.stack = e₀.stack

/-- Where code that stopped early leaves the engine: a thrown value is live and the engine runs
on top of where the code started; code that ran out of fuel keeps only its frame inside the
stack. -/
def Unwound : Unwind → Engine → Prop
  | .thrown v, e => e.heap.Live v ∧ e₀.Above e
  | .exhausted, e => e.bottom ≤ e.stack.size

/-- Where a call leaves the engine: the call group, from `base` up, replaced by one value. -/
def Replaced (base : Nat) (e : Engine) : Prop :=
  e.control = e₀.control ∧ ∃ v, e.stack = (e₀.stack.take base).push v

/-- Where a call that stopped early leaves the engine: a thrown value is live and the call group
is gone. -/
def Removed (base : Nat) : Unwind → Engine → Prop
  | .thrown v, e => e.heap.Live v ∧ e.control = e₀.control ∧ e.stack = e₀.stack.take base
  | .exhausted, e => e.bottom ≤ e.stack.size

/-- Where an operation of the stack interface leaves the engine: the control state restored and
the stack below the frame untouched, with the frame inside the stack. -/
def Framed (e : Engine) : Prop :=
  e.control = e₀.control ∧ e₀.bottom ≤ e.stack.size ∧ ∀ i < e₀.bottom, e.stack[i]? = e₀.stack[i]?

/-- Where a failed operation of the stack interface leaves the engine. -/
def Failed : Failure → Engine → Prop
  | .error _, e => e₀.Framed e
  | .exhausted, e => e.bottom ≤ e.stack.size

/-- Where code that stopped early without touching the stack leaves the engine. -/
def Raised (u : Unwind) (e : Engine) : Prop :=
  e₀.Steps e ∧ e₀.Unwound u e ∧ e.stack = e₀.stack

end Engine

namespace Rewritten

variable {c : Option Nat} {s₀ s s' : Array Value}

theorem refl (c : Option Nat) (s : Array Value) : Rewritten c s s := ⟨rfl, fun _ _ => rfl⟩

theorem trans (first : Rewritten c s₀ s) (second : Rewritten c s s') : Rewritten c s₀ s' :=
  ⟨second.1.trans first.1, fun i other => (second.2 i other).trans (first.2 i other)⟩

end Rewritten

namespace Engine

variable {e₀ e₁ e : Engine}

theorem Above.refl (e : Engine) : e.Above e :=
  ⟨rfl, Nat.le_refl _, fun _ _ _ => rfl⟩

theorem Above.trans (first : e₀.Above e₁) (second : e₁.Above e) : e₀.Above e := by
  obtain ⟨control₁, size₁, kept₁⟩ := first
  obtain ⟨control, size, kept⟩ := second
  have slot : e₁.completionSlot = e₀.completionSlot := congrArg Control.completionSlot control₁
  refine ⟨control.trans control₁, Nat.le_trans size₁ size, fun i below other => ?_⟩
  rw [kept i (Nat.lt_of_lt_of_le below size₁) (slot ▸ other), kept₁ i below other]

theorem Above.of_stack (control : e.control = e₀.control) (stack : e.stack = e₀.stack) :
    e₀.Above e :=
  ⟨control, by rw [stack], fun i _ _ => by rw [stack]⟩

/-- A stack that rewrites the old one, with more on top, runs on top of it. -/
theorem above_of_rewritten {s : Array Value} (control : e.control = e₀.control)
    (rewritten : Rewritten e₀.completionSlot e₀.stack s) (rest : Array Value)
    (stack : e.stack = s ++ rest) : e₀.Above e := by
  refine ⟨control, by simp [stack, rewritten.1], fun i below other => ?_⟩
  rw [stack, Array.getElem?_append_left (rewritten.1 ▸ below), rewritten.2 i other]

theorem Pushed.above (pushed : e₀.Pushed e) : e₀.Above e := by
  obtain ⟨control, v, stack⟩ := pushed
  exact above_of_rewritten control (Rewritten.refl _ _) #[v] (by simp [stack])

theorem Completed.above {k : Completion} (done : e₀.Completed k e) : e₀.Above e := by
  obtain ⟨control, s, rewritten, stack⟩ := done
  split at stack
  · obtain ⟨v, stack⟩ := stack
    exact above_of_rewritten control rewritten #[v] (by simp [stack])
  · exact above_of_rewritten control rewritten #[] (by simp [stack])

/-- Stopping early in code that runs on top of `e₀` is stopping early for `e₀`. -/
theorem Above.unwound {u : Unwind} (above : e₀.Above e₁) (unwound : e₁.Unwound u e) :
    e₀.Unwound u e := by
  cases u with
  | thrown v => exact ⟨unwound.1, above.trans unwound.2⟩
  | exhausted => exact unwound

/-- Code that runs on top of a sound engine finds its frame inside the stack. -/
theorem Above.framed (sound : e₀.Sound) (above : e₀.Above e) : e.bottom ≤ e.stack.size := by
  obtain ⟨control, size, -⟩ := above
  have bottom : e.bottom = e₀.bottom := congrArg Control.bottom control
  have := sound.framed
  omega

theorem Kept.refl (e : Engine) : e.Kept e := ⟨.refl e, rfl, rfl⟩

theorem Kept.trans (first : e₀.Kept e₁) (second : e₁.Kept e) : e₀.Kept e :=
  ⟨first.1.trans second.1, second.2.1.trans first.2.1, second.2.2.trans first.2.2⟩

theorem Kept.above (kept : e₀.Kept e) : e₀.Above e := .of_stack kept.2.1 kept.2.2

/-- Pushing a live value after heap work is what an expression does. -/
theorem Safe.push (safe : e₀.Safe) (kept : e₀.Kept e) {v : Value} (live : e.heap.Live v) :
    e₀.Steps (e.push v) ∧ e₀.Pushed (e.push v) :=
  ⟨kept.1.tail (Step.push (safe.steps kept.1) live), kept.2.1, v, by simp [Engine.push, kept.2.2]⟩

/-- Stopping early in code that started on top of `e₀` is stopping early for `e₀`. -/
theorem Unwound.after {u : Unwind} (run : e₀.Steps e₁) (above : e₀.Above e₁)
    (stopped : e₁.Steps e ∧ e₁.Unwound u e) : e₀.Steps e ∧ e₀.Unwound u e :=
  ⟨run.trans stopped.1, above.unwound stopped.2⟩

theorem Raised.unwinds {u : Unwind} (raised : e₀.Raised u e) : e₀.Steps e ∧ e₀.Unwound u e :=
  ⟨raised.1, raised.2.1⟩

theorem Raised.after {u : Unwind} (run : e₀.Steps e₁) (above : e₀.Above e₁)
    (raised : e₁.Raised u e) : e₀.Steps e ∧ e₀.Unwound u e :=
  Unwound.after run above ⟨raised.1, raised.2.1⟩

theorem Sound.of_steps (sound : e₀.Sound) (run : e₀.Steps e) (framed : e.bottom ≤ e.stack.size) :
    e.Sound :=
  ⟨sound.safe.steps run, framed⟩

theorem Sound.of_above (sound : e₀.Sound) (run : e₀.Steps e) (above : e₀.Above e) : e.Sound :=
  sound.of_steps run (above.framed sound)

/-- Soundness depends on the heap, the roots and the frame alone. -/
theorem Sound.of_roots (sound : e₀.Sound) (heap : e.heap = e₀.heap) (stack : e.stack = e₀.stack)
    (scopes : e.scopes = e₀.scopes) (queue : e.finalizeQueue = e₀.finalizeQueue)
    (global : e.global = e₀.global) (bottom : e.bottom = e₀.bottom) : e.Sound :=
  ⟨sound.safe.of_roots heap stack scopes queue global, by rw [stack, bottom]; exact sound.framed⟩

theorem Sound.kept (sound : e₀.Sound) (kept : e₀.Kept e) : e.Sound :=
  sound.of_above kept.1 kept.above

theorem Framed.refl (sound : e.Sound) : e.Framed e :=
  ⟨rfl, sound.framed, fun _ _ => rfl⟩

theorem Framed.trans (first : e₀.Framed e₁) (second : e₁.Framed e) : e₀.Framed e := by
  obtain ⟨control₁, size₁, kept₁⟩ := first
  obtain ⟨control, size, kept⟩ := second
  have bottom : e₁.bottom = e₀.bottom := congrArg Control.bottom control₁
  refine ⟨control.trans control₁, bottom ▸ size, fun i below => ?_⟩
  rw [kept i (bottom ▸ below), kept₁ i below]

theorem Framed.failed {x : Failure} (framed : e₀.Framed e) (failed : e.Failed x e') :
    e₀.Failed x e' := by
  cases x with
  | error err => exact framed.trans failed
  | exhausted => exact failed

theorem Sound.framed' (sound : e₀.Sound) (run : e₀.Steps e) (framed : e₀.Framed e) : e.Sound := by
  have bottom : e.bottom = e₀.bottom := congrArg Control.bottom framed.1
  exact sound.of_steps run (bottom ▸ framed.2.1)

theorem Kept.framed (sound : e₀.Sound) (kept : e₀.Kept e) : e₀.Framed e :=
  ⟨kept.2.1, kept.2.2 ▸ sound.framed, fun _ _ => by rw [kept.2.2]⟩

/-- Popping what an expression pushed gives back the stack it started from. -/
theorem Pushed.pop? (sound : e₀.Sound) (pushed : e₀.Pushed e) :
    ∃ v, e.pop? = some (v, { e with stack := e₀.stack }) := by
  obtain ⟨control, v, stack⟩ := pushed
  have bottom : e.bottom = e₀.bottom := congrArg Control.bottom control
  have framed := sound.framed
  refine ⟨v, ?_⟩
  simp [Engine.pop?, stack, bottom]
  omega

end Engine

end EmbedScript
