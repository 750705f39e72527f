import Mathlib
import EmbedScript.Proofs.Frames

/-!
The contracts of evaluation. An evaluator is guarded when each of its operations, run from a
sound engine, moves the engine by atomic steps and leaves it where its kind of code must: a
statement or a loop round completes with the stack as it found it (save the completion slot,
and a returned value on top), an expression pushes exactly one value, a call replaces its group
by the result, and the finalizer round leaves the stack alone. Code that throws throws a live
value; a call that throws has removed its group. The evaluator with no fuel is guarded, and each
level of `Evaluator.ofFuel` is guarded when the one below is.

This module states the contracts and proves those of the small pieces every later proof uses.
-/

namespace EmbedScript

open Std.Do Syntax

set_option mvcgen.warning false

/-! ### Composing completions -/

namespace Engine

variable {e₀ e₁ e : Engine} {k : Completion}

theorem Completed.of_kept (kept : e₀.Kept e) : e₀.Completed .normal e :=
  ⟨kept.2.1, e.stack, by rw [kept.2.2]; exact Rewritten.refl _ _, rfl⟩

/-- A statement that completed normally, then one that completed with `k`. -/
theorem Completed.then (first : e₀.Completed .normal e₁) (second : e₁.Completed k e) :
    e₀.Completed k e := by
  obtain ⟨control₁, s₁, rewritten₁, stack₁⟩ := first
  obtain ⟨control, s, rewritten, stack⟩ := second
  have slot : e₁.completionSlot = e₀.completionSlot := congrArg Control.completionSlot control₁
  simp only [if_neg (show Completion.normal ≠ .returning by decide)] at stack₁
  refine ⟨control.trans control₁, s, ?_, stack⟩
  rw [stack₁] at rewritten
  exact rewritten₁.trans (slot ▸ rewritten)

/-- What an expression pushed can be popped again. -/
theorem Pushed.nonempty (sound : e₀.Sound) (pushed : e₀.Pushed e) : e.bottom < e.stack.size := by
  obtain ⟨control, v, stack⟩ := pushed
  have bottom : e.bottom = e₀.bottom := congrArg Control.bottom control
  have := sound.framed
  rw [stack, bottom, Array.size_push]
  omega

/-- Popping what an expression pushed gives back the engine it started from, moved on the heap
only, and the value popped is live. -/
theorem Pushed.popped (sound : e₀.Sound) (run : e₀.Steps e) (pushed : e₀.Pushed e) :
    e₀.Kept { e with stack := e.stack.pop } ∧ e.heap.Live (e.stack.back?.getD .undefined) := by
  have safe := run.safe' sound.safe
  obtain ⟨control, v, stack⟩ := pushed
  exact ⟨⟨run.tail (Step.pop safe), control, by simp [stack]⟩, safe.live_back⟩

theorem pushed_push (e : Engine) (v : Value) : e.Pushed (e.push v) := ⟨rfl, v, rfl⟩

theorem Pushed.kept (pushed : e₀.Pushed e₁) (kept : e₁.Kept e) : e₀.Pushed e := by
  obtain ⟨control, v, stack⟩ := pushed
  exact ⟨kept.2.1.trans control, v, kept.2.2.trans stack⟩

/-- Breaking and continuing leave the stack as completing normally does. -/
theorem Completed.normal_of_ne (ne : k ≠ .returning) (done : e₀.Completed k e) :
    e₀.Completed .normal e := by
  obtain ⟨control, s, rewritten, stack⟩ := done
  exact ⟨control, s, rewritten, by simpa [ne] using stack⟩

end Engine

/-! ### Expressions leave the stack they found -/

namespace Engine

variable (e₀ : Engine)

/-- The engine `e` runs on top of `e₀` without touching its stack: the control state is the same
and the stack of `e₀` lies under whatever is on top of it. -/
def Atop (e : Engine) : Prop :=
  e.control = e₀.control ∧ ∃ rest : Array Value, e.stack = e₀.stack ++ rest

/-- Where an expression that stopped early leaves the engine: a thrown value is live and the
stack the expression found lies untouched under what it left on top; an expression that ran out
of fuel keeps only its frame inside the stack. Unlike a statement, an expression never writes
the completion slot. -/
def Stopped : Unwind → Engine → Prop
  | .thrown v, e => e.heap.Live v ∧ e₀.Atop e
  | .exhausted, e => e.bottom ≤ e.stack.size

variable {e₀} {e₁ e : Engine} {u : Unwind}

theorem Atop.trans (first : e₀.Atop e₁) (second : e₁.Atop e) : e₀.Atop e := by
  obtain ⟨control₁, rest₁, stack₁⟩ := first
  obtain ⟨control, rest, stack⟩ := second
  exact ⟨control.trans control₁, rest₁ ++ rest, by simp [stack, stack₁]⟩

theorem Atop.above (atop : e₀.Atop e) : e₀.Above e := by
  obtain ⟨control, rest, stack⟩ := atop
  exact above_of_rewritten control (Rewritten.refl _ _) rest stack

theorem Pushed.atop (pushed : e₀.Pushed e) : e₀.Atop e := by
  obtain ⟨control, v, stack⟩ := pushed
  exact ⟨control, #[v], by simp [stack]⟩

theorem Kept.atop (kept : e₀.Kept e) : e₀.Atop e := ⟨kept.2.1, #[], by simp [kept.2.2]⟩

/-- An expression stops early as code in general may. -/
theorem Stopped.unwound (stopped : e₀.Stopped u e) : e₀.Unwound u e := by
  cases u with
  | thrown v => exact ⟨stopped.1, stopped.2.above⟩
  | exhausted => exact stopped

/-- Stopping early in code that runs on top of `e₀`, leaving its stack alone, is stopping early
for `e₀`. -/
theorem Atop.stopped (atop : e₀.Atop e₁) (stopped : e₁.Stopped u e) : e₀.Stopped u e := by
  cases u with
  | thrown v => exact ⟨stopped.1, atop.trans stopped.2⟩
  | exhausted => exact stopped

theorem Stopped.after (run : e₀.Steps e₁) (atop : e₀.Atop e₁)
    (stopped : e₁.Steps e ∧ e₁.Stopped u e) : e₀.Steps e ∧ e₀.Stopped u e :=
  ⟨run.trans stopped.1, atop.stopped stopped.2⟩

/-- Throwing without touching the stack is stopping as an expression may. -/
theorem Raised.stops (raised : e₀.Raised u e) : e₀.Steps e ∧ e₀.Stopped u e := by
  obtain ⟨run, unwound, stack⟩ := raised
  cases u with
  | thrown v => exact ⟨run, unwound.1, unwound.2.1, #[], by simp [stack]⟩
  | exhausted => exact ⟨run, unwound⟩

theorem Raised.stops_after (run : e₀.Steps e₁) (atop : e₀.Atop e₁) (raised : e₁.Raised u e) :
    e₀.Steps e ∧ e₀.Stopped u e :=
  Stopped.after run atop raised.stops

end Engine

/-- What an expression's contract says of a stop early is more than code in general promises. -/
theorem unwinds_of_stops {α : Type} {m : Flow α} {P : Engine → Prop} {Q : α → Engine → Prop}
    {e₀ : Engine}
    (spec : ⦃fun e => ⌜P e⌝⦄ m
      ⦃post⟨fun a e => ⌜Q a e⌝, fun u e => ⌜e₀.Steps e ∧ e₀.Stopped u e⌝⟩⦄) :
    ⦃fun e => ⌜P e⌝⦄ m ⦃post⟨fun a e => ⌜Q a e⌝, fun u e => ⌜e₀.Steps e ∧ e₀.Unwound u e⌝⟩⦄ := by
  rw [triple_iff] at spec ⊢
  intro e pre
  have ran := spec e pre
  revert ran
  rcases m.run.run e with ⟨_ | _, e'⟩
  · exact fun stopped => ⟨stopped.1, stopped.2.unwound⟩
  · exact id

/-- Where evaluating an assignment target leaves the engine: a variable pushes nothing, and a
property pushes the value it belongs to, at the slot it names. -/
def Reference.Placed (e₀ : Engine) : Reference → Engine → Prop
  | .var _, e => e.control = e₀.control ∧ e.stack = e₀.stack
  | .property slot _, e => slot = e₀.stack.size ∧ e₀.Pushed e

namespace Reference.Placed

variable {ref : Reference} {e₀ e : Engine}

theorem control (placed : ref.Placed e₀ e) : e.control = e₀.control := by
  cases ref with
  | var => exact placed.1
  | property => exact placed.2.1

theorem above (placed : ref.Placed e₀ e) : e₀.Above e := by
  cases ref with
  | var => exact .of_stack placed.1 placed.2
  | property => exact placed.2.above

theorem atop (placed : ref.Placed e₀ e) : e₀.Atop e := by
  cases ref with
  | var => exact ⟨placed.1, #[], by simp [placed.2]⟩
  | property => exact placed.2.atop

/-- Below what it pushed, an assignment target leaves the stack as it was. -/
theorem take_pushed {v : Value} (placed : ref.Placed (e₀.push v) e) :
    e.stack.take e₀.stack.size = e₀.stack := by
  cases ref with
  | var => simp [placed.2]
  | property =>
    obtain ⟨-, w, stack⟩ := placed.2
    simp only [stack, Engine.stack_push, Array.take_eq_extract]
    rw [Array.extract_push_of_le (by simp), Array.extract_push_of_le (by simp)]
    simp

end Reference.Placed

namespace Evaluator

/-- The contracts an evaluator keeps at every level. -/
structure Guarded (d : Evaluator) : Prop where
  execStmt : ∀ s e₀, ⦃fun e => ⌜e = e₀ ∧ e₀.Sound⌝⦄ d.execStmt s
    ⦃post⟨fun k e => ⌜e₀.Steps e ∧ e₀.Completed k e⌝, fun u e => ⌜e₀.Steps e ∧ e₀.Unwound u e⌝⟩⦄
  evalExpr : ∀ x e₀, ⦃fun e => ⌜e = e₀ ∧ e₀.Sound⌝⦄ d.evalExpr x
    ⦃post⟨fun _ e => ⌜e₀.Steps e ∧ e₀.Pushed e⌝, fun u e => ⌜e₀.Steps e ∧ e₀.Stopped u e⌝⟩⦄
  execWhile : ∀ t b e₀, ⦃fun e => ⌜e = e₀ ∧ e₀.Sound⌝⦄ d.execWhile t b
    ⦃post⟨fun k e => ⌜e₀.Steps e ∧ e₀.Completed k e⌝, fun u e => ⌜e₀.Steps e ∧ e₀.Unwound u e⌝⟩⦄
  execDoWhile : ∀ b t e₀, ⦃fun e => ⌜e = e₀ ∧ e₀.Sound⌝⦄ d.execDoWhile b t
    ⦃post⟨fun k e => ⌜e₀.Steps e ∧ e₀.Completed k e⌝, fun u e => ⌜e₀.Steps e ∧ e₀.Unwound u e⌝⟩⦄
  execFor : ∀ t u b e₀, ⦃fun e => ⌜e = e₀ ∧ e₀.Sound⌝⦄ d.execFor t u b
    ⦃post⟨fun k e => ⌜e₀.Steps e ∧ e₀.Completed k e⌝, fun u e => ⌜e₀.Steps e ∧ e₀.Unwound u e⌝⟩⦄
  /-- A call needs its group of callee, receiver and arguments inside the frame. -/
  invoke : ∀ nargs construct e₀,
    ⦃fun e => ⌜e = e₀ ∧ e₀.Sound ∧ e₀.bottom + nargs + 2 ≤ e₀.stack.size⌝⦄ d.invoke nargs construct
    ⦃post⟨fun _ e => ⌜e₀.Steps e ∧ e₀.Replaced (e₀.stack.size - nargs - 2) e⌝,
      fun u e => ⌜e₀.Steps e ∧ e₀.Removed (e₀.stack.size - nargs - 2) u e⌝⟩⦄
  finalizeQueued : ∀ count e₀, ⦃fun e => ⌜e = e₀ ∧ e₀.Sound⌝⦄ d.finalizeQueued count
    ⦃post⟨fun _ e => ⌜e₀.Kept e⌝, fun x e => ⌜x = .exhausted ∧ e₀.Steps e ∧ e.bottom ≤ e.stack.size⌝⟩⦄

/-- With no fuel left every operation runs out at once, where it started. -/
theorem Guarded.exhausted : Guarded exhausted where
  execStmt _ e₀ := by
    mvcgen [Evaluator.exhausted] with obtain ⟨rfl, sound⟩ := ‹_ = e₀ ∧ _›
    | vc1 => exact ⟨.refl _, sound.framed⟩
  evalExpr _ e₀ := by
    mvcgen [Evaluator.exhausted] with obtain ⟨rfl, sound⟩ := ‹_ = e₀ ∧ _›
    | vc1 => exact ⟨.refl _, sound.framed⟩
  execWhile _ _ e₀ := by
    mvcgen [Evaluator.exhausted] with obtain ⟨rfl, sound⟩ := ‹_ = e₀ ∧ _›
    | vc1 => exact ⟨.refl _, sound.framed⟩
  execDoWhile _ _ e₀ := by
    mvcgen [Evaluator.exhausted] with obtain ⟨rfl, sound⟩ := ‹_ = e₀ ∧ _›
    | vc1 => exact ⟨.refl _, sound.framed⟩
  execFor _ _ _ e₀ := by
    mvcgen [Evaluator.exhausted] with obtain ⟨rfl, sound⟩ := ‹_ = e₀ ∧ _›
    | vc1 => exact ⟨.refl _, sound.framed⟩
  invoke _ _ e₀ := by
    mvcgen [Evaluator.exhausted] with obtain ⟨rfl, sound, -⟩ := ‹_ = e₀ ∧ _›
    | vc1 => exact ⟨.refl _, sound.framed⟩
  finalizeQueued _ e₀ := by
    mvcgen [Evaluator.exhausted] with obtain ⟨rfl, sound⟩ := ‹_ = e₀ ∧ _›
    | vc1 => exact ⟨trivial, .refl _, sound.framed⟩

variable {d : Evaluator}

/-! ### Small pieces -/

theorem Guarded.evalExpr_unwinds (g : d.Guarded) (x : Expr) (e₀ : Engine) :
    ⦃fun e => ⌜e = e₀ ∧ e₀.Sound⌝⦄ d.evalExpr x
    ⦃post⟨fun _ e => ⌜e₀.Steps e ∧ e₀.Pushed e⌝, fun u e => ⌜e₀.Steps e ∧ e₀.Unwound u e⌝⟩⦄ :=
  unwinds_of_stops (g.evalExpr x e₀)

/-- Evaluating an expression for its value takes the value back off the stack. -/
theorem Guarded.evalPop_spec (g : d.Guarded) (x : Expr) (e₀ : Engine) :
    ⦃fun e => ⌜e = e₀ ∧ e₀.Sound⌝⦄ d.evalPop x
    ⦃post⟨fun v e => ⌜e₀.Kept e ∧ e.heap.Live v⌝, fun u e => ⌜e₀.Steps e ∧ e₀.Stopped u e⌝⟩⦄ := by
  have eval := g.evalExpr
  mvcgen [evalPop, eval, popValue_spec] with obtain ⟨rfl, sound⟩ := ‹_ = e₀ ∧ _›
  | vc1 => exact ⟨trivial, sound⟩
  | vc2 => exact ⟨trivial, Engine.Pushed.nonempty sound (‹Engine.Steps _ _ ∧ _›).2⟩
  | vc3 =>
    rintro rfl rfl
    obtain ⟨run, pushed⟩ := ‹Engine.Steps _ _ ∧ _›
    exact pushed.popped sound run
  | vc4 => exact And.intro

/-- Statements run in order until one does not complete normally. -/
theorem Guarded.execBlock_spec (g : d.Guarded) (ss : List Stmt) (e₀ : Engine) :
    ⦃fun e => ⌜e = e₀ ∧ e₀.Sound⌝⦄ d.execBlock ss
    ⦃post⟨fun k e => ⌜e₀.Steps e ∧ e₀.Completed k e⌝, fun u e => ⌜e₀.Steps e ∧ e₀.Unwound u e⌝⟩⦄ := by
  induction ss generalizing e₀ with
  | nil =>
    mvcgen [execBlock] with obtain ⟨rfl, sound⟩ := ‹_ = e₀ ∧ _›
    | vc1 => exact ⟨.refl _, .of_kept (.refl _)⟩
  | cons s rest ih =>
    have exec := g.execStmt
    mvcgen [execBlock, exec] with obtain ⟨rfl, sound⟩ := ‹_ = e₀ ∧ _›
    | vc1 => exact ⟨trivial, sound⟩
    | vc2 => exact ‹Engine.Steps _ _ ∧ _›
    | vc3 =>
      rename_i k normal _
      obtain rfl : k = .normal := by simpa using normal
      -- the rest of the block runs from where the first statement completed
      intro e run done
      exact wp_of_triple (ih e) ⟨rfl, sound.of_above run done.above⟩
        (fun _ _ rest => ⟨run.trans rest.1, done.then rest.2⟩)
        fun _ _ stopped => Engine.Unwound.after run done.above stopped
    | vc4 => exact And.intro


theorem Guarded.evalPop_unwinds (g : d.Guarded) (x : Expr) (e₀ : Engine) :
    ⦃fun e => ⌜e = e₀ ∧ e₀.Sound⌝⦄ d.evalPop x
    ⦃post⟨fun v e => ⌜e₀.Kept e ∧ e.heap.Live v⌝, fun u e => ⌜e₀.Steps e ∧ e₀.Unwound u e⌝⟩⦄ :=
  unwinds_of_stops (g.evalPop_spec x e₀)

/-- Evaluating an assignment target. -/
theorem Guarded.evalRef_spec (g : d.Guarded) (target : Expr) (e₀ : Engine) :
    ⦃fun e => ⌜e = e₀ ∧ e₀.Sound⌝⦄ d.evalRef target
    ⦃post⟨fun ref e => ⌜e₀.Steps e ∧ ref.Placed e₀ e⌝,
      fun u e => ⌜e₀.Steps e ∧ e₀.Stopped u e⌝⟩⦄ := by
  have eval := g.evalExpr
  have pop := g.evalPop_spec
  cases target
  case ident name =>
    mvcgen [evalRef] with obtain ⟨rfl, sound⟩ := ‹_ = e₀ ∧ _›
    | vc1 => exact ⟨.refl _, rfl, rfl⟩
  case member obj name =>
    mvcgen [evalRef, stackSize, eval] with obtain ⟨rfl, sound⟩ := ‹_ = e₀ ∧ _›
    | vc1 => exact ⟨trivial, sound⟩
    | vc2 =>
      obtain ⟨run, pushed⟩ := ‹Engine.Steps _ _ ∧ _›
      exact ⟨run, rfl, pushed⟩
    | vc3 => exact And.intro
  case index obj key =>
    mvcgen [evalRef, stackSize, eval, pop] with obtain ⟨rfl, sound⟩ := ‹_ = e₀ ∧ _›
    | vc1 => exact ⟨trivial, sound⟩
    | vc2 =>
      obtain ⟨run, pushed⟩ := ‹Engine.Steps _ _ ∧ _›
      exact ⟨trivial, sound.of_above run pushed.above⟩
    | vc3 =>
      obtain ⟨run, pushed⟩ := ‹Engine.Steps _ _ ∧ _›
      obtain ⟨kept, -⟩ := ‹Engine.Kept _ _ ∧ _›
      exact ⟨run.trans kept.1, rfl, pushed.kept kept⟩
    | vc4 =>
      obtain ⟨run, pushed⟩ := ‹Engine.Steps _ _ ∧ _›
      exact fun run' stopped => Engine.Stopped.after run pushed.atop ⟨run', stopped⟩
    | vc5 => exact And.intro
  -- nothing else can be assigned to
  all_goals
    mvcgen [evalRef, throwNew_spec] with obtain ⟨rfl, sound⟩ := ‹_ = e₀ ∧ _›
    | vc1 => exact ⟨trivial, sound.safe⟩
    | vc2 => exact False.elim
    | vc3 => exact fun raised => raised.stops

theorem Guarded.evalRef_unwinds (g : d.Guarded) (target : Expr) (e₀ : Engine) :
    ⦃fun e => ⌜e = e₀ ∧ e₀.Sound⌝⦄ d.evalRef target
    ⦃post⟨fun ref e => ⌜e₀.Steps e ∧ ref.Placed e₀ e⌝,
      fun u e => ⌜e₀.Steps e ∧ e₀.Unwound u e⌝⟩⦄ :=
  unwinds_of_stops (g.evalRef_spec target e₀)

/-- Assigning a value to a target, as a `for-in` loop does with each key, works on the heap
only. -/
theorem Guarded.assignTo_spec (g : d.Guarded) (target : Expr) (v : Value) (e₀ : Engine) :
    ⦃fun e => ⌜e = e₀ ∧ e₀.Sound ∧ e₀.heap.Live v⌝⦄ d.assignTo target v
    ⦃post⟨fun _ e => ⌜e₀.Kept e⌝, fun u e => ⌜e₀.Steps e ∧ e₀.Unwound u e⌝⟩⦄ := by
  have ref := g.evalRef_unwinds
  mvcgen [assignTo, stackSize, pushValue, ref, Reference.write_spec] with
    obtain ⟨rfl, sound, live⟩ := ‹_ = e₀ ∧ _›
  | vc1 => exact ⟨trivial, (sound.moved_push live).sound sound⟩
  | vc2 =>
    obtain ⟨run, -⟩ := ‹Engine.Steps _ _ ∧ Reference.Placed _ _ _›
    have safe := ((Engine.Step.push sound.safe live).steps.trans run).safe' sound.safe
    exact ⟨trivial, safe, safe.live_getAbs _⟩
  | vc3 =>
    obtain ⟨run, placed⟩ := ‹Engine.Steps _ _ ∧ Reference.Placed _ _ _›
    have wrote := ‹Engine.Kept _ _›
    have reached := ((Engine.Step.push sound.safe live).steps.trans run).trans wrote.1
    refine ⟨reached.tail (.truncate (reached.safe' sound.safe) _), ?_, ?_⟩
    · exact wrote.2.1.trans placed.control
    · -- the value and the target's object, pushed above the old stack, are cut off
      rw [Engine.stack_truncate, wrote.2.2, placed.take_pushed]
  | vc4 =>
    obtain ⟨run, placed⟩ := ‹Engine.Steps _ _ ∧ Reference.Placed _ _ _›
    exact fun raised => Engine.Raised.after ((Engine.Step.push sound.safe live).steps.trans run)
      ((Engine.pushed_push _ v).above.trans placed.above) raised
  | vc5 =>
    exact fun run unwound => Engine.Unwound.after (Engine.Step.push sound.safe live).steps
      (Engine.pushed_push _ v).above ⟨run, unwound⟩

end Evaluator

end EmbedScript
