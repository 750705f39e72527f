import Mathlib
import EmbedScript.Proofs.Guarded

/-!
How statements complete. Given an evaluator that keeps its contracts one level down, every step
of running a statement keeps the statement contract: it completes with the stack as it found it,
save the completion slot and a returned value on top, or throws a live value from on top of where
it started. Loop rounds compose the test, the body and the next round; `for-in` and `switch`
remove their hidden slot from under a pending return value; `try` keeps a pending value in the
slot where it started while the finally block runs.
-/

namespace EmbedScript

open Std.Do Syntax

set_option mvcgen.warning false

namespace Engine

variable {e₀ e₁ e : Engine} {k : Completion} {u : Unwind}

/-- Heap work, then a statement that completed with `k`. -/
theorem Kept.completed (kept : e₀.Kept e₁) (run : e₁.Steps e) (done : e₁.Completed k e) :
    e₀.Steps e ∧ e₀.Completed k e :=
  ⟨kept.1.trans run, (Completed.of_kept kept).then done⟩

/-- Heap work, then code that stopped early. -/
theorem Kept.unwound (kept : e₀.Kept e₁) (run : e₁.Steps e) (unwound : e₁.Unwound u e) :
    e₀.Steps e ∧ e₀.Unwound u e :=
  Unwound.after kept.1 kept.above ⟨run, unwound⟩

/-- A statement that completed normally, then heap work. -/
theorem Completed.kept (run : e₀.Steps e₁) (done : e₀.Completed .normal e₁) (kept : e₁.Kept e) :
    e₀.Steps e ∧ e₀.Completed .normal e :=
  ⟨run.trans kept.1, done.then (.of_kept kept)⟩

/-- A statement that completed normally, then code that stopped early. -/
theorem Completed.unwound (run₁ : e₀.Steps e₁) (done : e₀.Completed k e₁) (run : e₁.Steps e)
    (unwound : e₁.Unwound u e) : e₀.Steps e ∧ e₀.Unwound u e :=
  Unwound.after run₁ done.above ⟨run, unwound⟩

end Engine

/-! ### Hidden slots

`for-in` and `switch` keep their object or discriminant in a slot pushed at their start, and
remove it when they finish: from under the returned value, or by cutting the stack back. -/

theorem eraseIdxIfInBounds_push_pop {s : Array Value} {w : Value} {n : Nat} (size : s.size = n + 1) :
    (s.push w).eraseIdxIfInBounds n = s.pop.push w := by
  apply Array.ext_getElem?
  intro i
  simp only [Array.eraseIdxIfInBounds, Array.size_push, size, Array.getElem?_push,
    Array.getElem?_pop, Array.size_pop]
  grind

theorem take_eq_pop {s : Array Value} {n : Nat} (size : s.size = n + 1) : s.take n = s.pop := by
  apply Array.ext_getElem?
  intro i
  simp [Array.getElem?_pop, size]

theorem Rewritten.pop {c : Option Nat} {s₀ s : Array Value} {v : Value}
    (rewritten : Rewritten c (s₀.push v) s) : Rewritten c s₀ s.pop := by
  obtain ⟨size, kept⟩ := rewritten
  refine ⟨by simp [size], fun i other => ?_⟩
  have below := kept i other
  simp only [Array.getElem?_pop, Array.getElem?_push, Array.size_push, size] at below ⊢
  grind

namespace Engine

variable {e₀ e₁ e : Engine} {k : Completion}

/-- A returned value, with the hidden slot under it removed. -/
theorem Completed.removeHidden (pushed : e₀.Pushed e₁) (done : e₁.Completed .returning e) :
    e₀.Completed .returning (e.removeAbs e₀.stack.size) := by
  obtain ⟨control₁, v, stack₁⟩ := pushed
  obtain ⟨control, s, rewritten, stack⟩ := done
  obtain ⟨w, stack⟩ := if_pos rfl ▸ stack
  have slot : e₁.completionSlot = e₀.completionSlot := congrArg Control.completionSlot control₁
  rw [stack₁, slot] at rewritten
  have size : s.size = e₀.stack.size + 1 := by simp [rewritten.1]
  refine ⟨control.trans control₁, s.pop, rewritten.pop, if_pos rfl ▸ ⟨w, ?_⟩⟩
  simp only [removeAbs, stack]
  exact eraseIdxIfInBounds_push_pop size

/-- Any other completion, with the stack cut back to below the hidden slot. -/
theorem Completed.truncateHidden (pushed : e₀.Pushed e₁) (done : e₁.Completed k e)
    (ne : k ≠ .returning) : e₀.Completed k (e.truncate e₀.stack.size) := by
  obtain ⟨control₁, v, stack₁⟩ := pushed
  obtain ⟨control, s, rewritten, stack⟩ := done
  have slot : e₁.completionSlot = e₀.completionSlot := congrArg Control.completionSlot control₁
  rw [stack₁, slot] at rewritten
  have size : s.size = e₀.stack.size + 1 := by simp [rewritten.1]
  refine ⟨control.trans control₁, s.pop, rewritten.pop, ?_⟩
  simp only [if_neg ne] at stack ⊢
  simp only [truncate, stack]
  exact take_eq_pop size

end Engine

/-! ### Scopes

A `catch` clause and a call run their code in a scope pushed for them, popped when the code is
done; the code's contract for the pushed state is then one for the state it started from. -/

namespace Engine

variable {e₀ e : Engine} {k : Completion} {u : Unwind} {s : Option ObjectId}

theorem Step.pushScope (safe : e.Safe) (valid : ∀ id ∈ s, e.heap.Valid id) :
    e.Step { e with scopes := e.scopes.push s } :=
  .control safe rfl rfl rfl rfl rfl rfl rfl rfl fun id member => by
    rcases Array.mem_push.mp member with old | rfl
    · exact .inl old
    · exact .inr (valid id rfl)

theorem Step.popScope (safe : e.Safe) : e.Step { e with scopes := e.scopes.pop } :=
  .control safe rfl rfl rfl rfl rfl rfl rfl rfl fun _ member =>
    .inl (mem_of_mem_pop member)

theorem control_scoped (control : e.control = { e₀ with scopes := e₀.scopes.push s }.control) :
    { e with scopes := e.scopes.pop }.control = e₀.control := by
  simp only [Engine.control, Engine.Control.mk.injEq] at control ⊢
  obtain ⟨scopes, frames, depth, nesting, slot, bottom⟩ := control
  exact ⟨by simp [scopes], frames, depth, nesting, slot, bottom⟩

theorem Above.scoped (above : { e₀ with scopes := e₀.scopes.push s }.Above e) :
    e₀.Above { e with scopes := e.scopes.pop } :=
  ⟨control_scoped above.1, above.2⟩

theorem Completed.scoped (done : { e₀ with scopes := e₀.scopes.push s }.Completed k e) :
    e₀.Completed k { e with scopes := e.scopes.pop } :=
  ⟨control_scoped done.1, done.2⟩

theorem Unwound.scoped (unwound : { e₀ with scopes := e₀.scopes.push s }.Unwound u e) :
    e₀.Unwound u { e with scopes := e.scopes.pop } := by
  cases u with
  | thrown v => exact ⟨unwound.1, unwound.2.scoped⟩
  | exhausted => exact unwound

/-- A scope for running code under the current one, binding live values. -/
theorem Safe.allocatable_scope (safe : e.Safe) {props : PropertyTable}
    (live : ∀ w ∈ props.values, e.heap.Live w) :
    ({ kind := .scope e.currentScope e.thisValue, properties := props } : HeapObject).Allocatable
      e.heap := by
  refine .of_live (by simp) (by simp) live fun r member => ?_
  simp only [HeapObject.references, List.mem_append, List.mem_filterMap, PropertyTable.values,
    Option.toList_none, List.not_mem_nil, or_false, Option.mem_toList] at member
  rcases member with ⟨_, none, -⟩ | current | this
  · simp at none
  · exact safe.live_currentScope current
  · exact safe.live_thisValue r (HeapObject.objectId?_eq_some.mp this)

/-- Cutting the stack back to where a statement started finishes it normally. -/
theorem Above.truncate (above : e₀.Above e) : e₀.Completed .normal (e.truncate e₀.stack.size) := by
  obtain ⟨control, size, kept⟩ := above
  refine ⟨control, e.stack.take e₀.stack.size, ⟨by simp [size], fun i other => ?_⟩, by simp⟩
  by_cases below : i < e₀.stack.size
  · rw [← kept i below other]
    simp [Array.getElem?_extract, below]
  · simp [below]

/-- Where a statement whose exceptions are caught leaves the engine: finished with a
completion, or stopped by a thrown value. -/
def Settled (e₀ : Engine) : Except Value Completion → Engine → Prop
  | .ok k, e => e₀.Steps e ∧ e₀.Completed k e
  | .error v, e => e₀.Steps e ∧ e₀.Unwound (.thrown v) e

/-- Code run in a pushed scope, once the scope is popped, settles from where it started. -/
theorem Settled.scoped {e₁ : Engine} {r : Except Value Completion}
    (settled : { e₁ with scopes := e₁.scopes.push s }.Settled r e) (sound : e₀.Sound)
    (before : e₀.Steps e₁ ∧ e₀.Completed .normal e₁) (valid : ∀ id ∈ s, e₁.heap.Valid id) :
    e₀.Settled r { e with scopes := e.scopes.pop } := by
  have sound₁ := sound.of_above before.1 before.2.above
  have pushed := before.1.tail (Step.pushScope sound₁.safe valid)
  cases r with
  | ok k =>
    obtain ⟨run, done⟩ := settled
    have reached := pushed.trans run
    exact ⟨reached.tail (.popScope (reached.safe' sound.safe)), before.2.then done.scoped⟩
  | error v =>
    obtain ⟨run, live, above⟩ := settled
    have reached := pushed.trans run
    exact ⟨reached.tail (.popScope (reached.safe' sound.safe)), live,
      before.2.above.trans above.scoped⟩

end Engine

/-- Catching what a statement throws. -/
theorem attempt_settled {m : Flow Completion} {e₀ : Engine}
    (spec : ⦃fun e => ⌜e = e₀ ∧ e₀.Sound⌝⦄ m
      ⦃post⟨fun k e => ⌜e₀.Steps e ∧ e₀.Completed k e⌝, fun u e => ⌜e₀.Steps e ∧ e₀.Unwound u e⌝⟩⦄) :
    ⦃fun e => ⌜e = e₀ ∧ e₀.Sound⌝⦄ attempt m
    ⦃post⟨fun r e => ⌜e₀.Settled r e⌝,
      fun u e => ⌜u = .exhausted ∧ e₀.Steps e ∧ e₀.Unwound u e⌝⟩⦄ := by
  have caught := (triple_iff _ _ _ _).mp (attempt_spec spec)
  rw [triple_iff]
  intro e pre
  have ran := caught e pre
  revert ran
  rcases (attempt m).run.run e with ⟨_ | _ | _, e'⟩ <;> exact id

/-- After a part that completed normally, code that keeps the statement contract completes the
whole. -/
theorem completes_after {m : Flow Completion} {e₀ e₁ : Engine} (sound : e₀.Sound)
    (before : e₀.Steps e₁ ∧ e₀.Completed .normal e₁)
    (spec : ⦃fun e => ⌜e = e₁ ∧ e₁.Sound⌝⦄ m
      ⦃post⟨fun k e => ⌜e₁.Steps e ∧ e₁.Completed k e⌝, fun u e => ⌜e₁.Steps e ∧ e₁.Unwound u e⌝⟩⦄) :
    (wp⟦m⟧ (post⟨fun k e => ⌜e₀.Steps e ∧ e₀.Completed k e⌝,
      fun u e => ⌜e₀.Steps e ∧ e₀.Unwound u e⌝⟩) e₁).down :=
  wp_of_triple spec ⟨rfl, sound.of_above before.1 before.2.above⟩
    (fun _ _ ⟨run, done⟩ => ⟨before.1.trans run, before.2.then done⟩)
    fun _ _ ⟨run, unwound⟩ => before.2.unwound before.1 run unwound

namespace Evaluator

variable {d : Evaluator}

theorem Guarded.execDeclarations_spec (g : d.Guarded) (decls : List (String × Option Expr))
    (e₀ : Engine) :
    ⦃fun e => ⌜e = e₀ ∧ e₀.Sound⌝⦄ d.execDeclarations decls
    ⦃post⟨fun _ e => ⌜e₀.Kept e⌝, fun u e => ⌜e₀.Steps e ∧ e₀.Unwound u e⌝⟩⦄ := by
  have pop := g.evalPop_unwinds
  induction decls generalizing e₀ with
  | nil =>
    mvcgen [execDeclarations] with obtain ⟨rfl, sound⟩ := ‹_ = e₀ ∧ _›
    | vc1 => exact .refl _
  | cons decl rest ih =>
    obtain ⟨name, init⟩ := decl
    cases init with
    | none =>
      -- a declaration without initializer does nothing when it runs
      mvcgen [execDeclarations]
      rintro e rfl sound
      exact wp_of_triple (ih e) ⟨rfl, sound⟩ (fun _ _ kept => kept) fun _ _ stopped => stopped
    | some x =>
      mvcgen [execDeclarations, pop] with obtain ⟨rfl, sound⟩ := ‹_ = e₀ ∧ _›
      | vc1 => exact ⟨trivial, sound⟩
      | vc2 =>
        obtain ⟨kept, live⟩ := ‹Engine.Kept _ _ ∧ _›
        have assigned : Engine.Kept _ _ :=
          kept.trans ⟨(Engine.Step.assignVar (kept.1.safe' sound.safe) name live).steps, rfl, rfl⟩
        exact wp_of_triple (ih _) ⟨rfl, sound.kept assigned⟩ (fun _ _ rest => assigned.trans rest)
          fun _ _ stopped => assigned.unwound stopped.1 stopped.2
      | vc3 => exact And.intro

/-- A loop body gives the completion that ends the loop, if any. -/
theorem Guarded.execLoopBody_spec (g : d.Guarded) (body : Stmt) (e₀ : Engine) :
    ⦃fun e => ⌜e = e₀ ∧ e₀.Sound⌝⦄ d.execLoopBody body
    ⦃post⟨fun exit e => ⌜e₀.Steps e ∧ e₀.Completed (exit.getD .normal) e⌝,
      fun u e => ⌜e₀.Steps e ∧ e₀.Unwound u e⌝⟩⦄ := by
  have exec := g.execStmt
  mvcgen [execLoopBody, exec] with obtain ⟨rfl, sound⟩ := ‹_ = e₀ ∧ _›
  | vc1 => exact ⟨trivial, sound⟩
  | vc2 =>
    obtain ⟨run, done⟩ := ‹Engine.Steps _ _ ∧ Engine.Completed _ _ _›
    exact ⟨run, done.normal_of_ne (by decide)⟩
  | vc3 => exact ‹Engine.Steps _ _ ∧ Engine.Completed _ _ _›
  | vc4 =>
    obtain ⟨run, done⟩ := ‹Engine.Steps _ _ ∧ Engine.Completed _ _ _›
    exact ⟨run, done.normal_of_ne ‹_ = Completion.returning → False›⟩
  | vc5 => exact And.intro

theorem Guarded.whileRound_spec (g : d.Guarded) (test : Expr) (body : Stmt) (e₀ : Engine) :
    ⦃fun e => ⌜e = e₀ ∧ e₀.Sound⌝⦄ d.whileRound test body
    ⦃post⟨fun k e => ⌜e₀.Steps e ∧ e₀.Completed k e⌝, fun u e => ⌜e₀.Steps e ∧ e₀.Unwound u e⌝⟩⦄ := by
  have pop := g.evalPop_unwinds
  have loopBody := g.execLoopBody_spec
  mvcgen [whileRound, pop, loopBody] with obtain ⟨rfl, sound⟩ := ‹_ = e₀ ∧ _›
  | vc1 => exact ⟨trivial, sound⟩
  | vc2 =>
    obtain ⟨kept, -⟩ := ‹Engine.Kept _ _ ∧ _›
    exact ⟨kept.1, .of_kept kept⟩
  | vc3 =>
    obtain ⟨kept, -⟩ := ‹Engine.Kept _ _ ∧ _›
    exact ⟨trivial, sound.kept kept⟩
  | vc4 =>
    obtain ⟨kept, -⟩ := ‹Engine.Kept _ _ ∧ _›
    obtain ⟨run, done⟩ := ‹Engine.Steps _ _ ∧ Engine.Completed _ _ _›
    exact kept.completed run done
  | vc5 =>
    obtain ⟨kept, -⟩ := ‹Engine.Kept _ _ ∧ _›
    -- the next round runs from where this one's body completed
    intro e run done
    exact completes_after sound (kept.completed run done) (g.execWhile test body _)
  | vc6 =>
    obtain ⟨kept, -⟩ := ‹Engine.Kept _ _ ∧ _›
    exact kept.unwound
  | vc7 => exact And.intro

theorem Guarded.doWhileRound_spec (g : d.Guarded) (body : Stmt) (test : Expr) (e₀ : Engine) :
    ⦃fun e => ⌜e = e₀ ∧ e₀.Sound⌝⦄ d.doWhileRound body test
    ⦃post⟨fun k e => ⌜e₀.Steps e ∧ e₀.Completed k e⌝, fun u e => ⌜e₀.Steps e ∧ e₀.Unwound u e⌝⟩⦄ := by
  have pop := g.evalPop_unwinds
  have loopBody := g.execLoopBody_spec
  mvcgen [doWhileRound, pop, loopBody] with obtain ⟨rfl, sound⟩ := ‹_ = e₀ ∧ _›
  | vc1 => exact ⟨trivial, sound⟩
  | vc2 => exact ‹Engine.Steps _ _ ∧ Engine.Completed _ _ _›
  | vc3 =>
    obtain ⟨run, done⟩ := ‹Engine.Steps _ _ ∧ Engine.Completed _ _ _›
    exact ⟨trivial, sound.of_above run done.above⟩
  | vc4 =>
    obtain ⟨run, done⟩ := ‹Engine.Steps _ _ ∧ Engine.Completed _ _ _›
    -- the next round runs after this round's body and test
    intro e kept _
    exact completes_after sound (done.kept run kept) (g.execDoWhile body test _)
  | vc5 =>
    obtain ⟨run, done⟩ := ‹Engine.Steps _ _ ∧ Engine.Completed _ _ _›
    obtain ⟨kept, -⟩ := ‹Engine.Kept _ _ ∧ _›
    exact done.kept run kept
  | vc6 =>
    obtain ⟨run, done⟩ := ‹Engine.Steps _ _ ∧ Engine.Completed _ _ _›
    exact done.unwound run
  | vc7 => exact And.intro

theorem Guarded.forRound_spec (g : d.Guarded) (test update : Option Expr) (body : Stmt)
    (e₀ : Engine) :
    ⦃fun e => ⌜e = e₀ ∧ e₀.Sound⌝⦄ d.forRound test update body
    ⦃post⟨fun k e => ⌜e₀.Steps e ∧ e₀.Completed k e⌝, fun u e => ⌜e₀.Steps e ∧ e₀.Unwound u e⌝⟩⦄ := by
  have pop := g.evalPop_unwinds
  have loopBody := g.execLoopBody_spec
  mvcgen [forRound, pop, loopBody] with obtain ⟨rfl, sound⟩ := ‹_ = e₀ ∧ _›
  -- rounds with a test: the test, the body, the update, then the next round
  | vc1 | vc11 => exact ⟨trivial, sound⟩
  | vc2 =>
    obtain ⟨kept, -⟩ := ‹Engine.Kept _ _ ∧ _›
    exact ⟨kept.1, .of_kept kept⟩
  | vc3 =>
    obtain ⟨kept, -⟩ := ‹Engine.Kept _ _ ∧ _›
    exact ⟨trivial, sound.kept kept⟩
  | vc4 =>
    obtain ⟨kept, -⟩ := ‹Engine.Kept _ _ ∧ _›
    obtain ⟨run, done⟩ := ‹Engine.Steps _ _ ∧ Engine.Completed _ _ _›
    exact kept.completed run done
  | vc5 =>
    obtain ⟨kept, -⟩ := ‹Engine.Kept _ _ ∧ _›
    obtain ⟨run, done⟩ := ‹Engine.Steps _ _ ∧ Engine.Completed _ _ _›
    obtain ⟨run, done⟩ := kept.completed run done
    exact ⟨trivial, sound.of_above run done.above⟩
  | vc6 =>
    obtain ⟨kept, -⟩ := ‹Engine.Kept _ _ ∧ _›
    obtain ⟨run, done⟩ := ‹Engine.Steps _ _ ∧ Engine.Completed _ _ _›
    obtain ⟨run, done⟩ := kept.completed run done
    intro e updated _
    exact completes_after sound (done.kept run updated) (g.execFor test update body _)
  | vc7 =>
    obtain ⟨kept, -⟩ := ‹Engine.Kept _ _ ∧ _›
    obtain ⟨run, done⟩ := ‹Engine.Steps _ _ ∧ Engine.Completed _ _ _›
    obtain ⟨run, done⟩ := kept.completed run done
    exact done.unwound run
  | vc8 =>
    obtain ⟨kept, -⟩ := ‹Engine.Kept _ _ ∧ _›
    intro e run done
    exact completes_after sound (kept.completed run done) (g.execFor test update body _)
  | vc9 =>
    obtain ⟨kept, -⟩ := ‹Engine.Kept _ _ ∧ _›
    exact kept.unwound
  -- rounds without a test: the body, the update, then the next round
  | vc12 => exact ‹Engine.Steps _ _ ∧ Engine.Completed _ _ _›
  | vc13 =>
    obtain ⟨run, done⟩ := ‹Engine.Steps _ _ ∧ Engine.Completed _ _ _›
    exact ⟨trivial, sound.of_above run done.above⟩
  | vc14 =>
    obtain ⟨run, done⟩ := ‹Engine.Steps _ _ ∧ Engine.Completed _ _ _›
    intro e updated _
    exact completes_after sound (done.kept run updated) (g.execFor test update body _)
  | vc15 =>
    obtain ⟨run, done⟩ := ‹Engine.Steps _ _ ∧ Engine.Completed _ _ _›
    exact done.unwound run
  | vc16 =>
    intro e run done
    exact completes_after sound ⟨run, done⟩ (g.execFor test update body _)
  | vc10 | vc17 => exact And.intro

theorem Guarded.forInKeys_spec (g : d.Guarded) (target : ForInTarget) (object : Value)
    (body : Stmt) (keys : List String) (e₀ : Engine) :
    ⦃fun e => ⌜e = e₀ ∧ e₀.Sound⌝⦄ d.forInKeys target object body keys
    ⦃post⟨fun k e => ⌜e₀.Steps e ∧ e₀.Completed k e⌝, fun u e => ⌜e₀.Steps e ∧ e₀.Unwound u e⌝⟩⦄ := by
  have assign := g.assignTo_spec
  have loopBody := g.execLoopBody_spec
  induction keys generalizing e₀ with
  | nil =>
    mvcgen [forInKeys] with obtain ⟨rfl, sound⟩ := ‹_ = e₀ ∧ _›
    | vc1 => exact ⟨.refl _, .of_kept (.refl _)⟩
  | cons key rest ih =>
    -- a key the object lost is skipped; otherwise it is assigned and the body runs
    cases target with
    | var name =>
      have assigned (e : Engine) (sound : e.Sound) : e.Kept (e.assignVar name (.string key)) :=
        ⟨(Engine.Step.assignVar sound.safe name Heap.live_string).steps, rfl, rfl⟩
      mvcgen [forInKeys, loopBody] with obtain ⟨rfl, sound⟩ := ‹_ = e₀ ∧ _›
      | vc1 => exact wp_of_triple (ih _) ⟨rfl, sound⟩ (fun _ _ done => done) fun _ _ stopped => stopped
      | vc2 => exact ⟨trivial, sound.kept (assigned _ sound)⟩
      | vc3 =>
        obtain ⟨run, done⟩ := ‹Engine.Steps _ _ ∧ Engine.Completed _ _ _›
        exact (assigned _ sound).completed run done
      | vc4 =>
        intro e run done
        exact completes_after sound ((assigned _ sound).completed run done) (ih _)
      | vc5 => exact (assigned _ sound).unwound
    | expr x =>
      mvcgen [forInKeys, assign, loopBody] with obtain ⟨rfl, sound⟩ := ‹_ = e₀ ∧ _›
      | vc1 => exact wp_of_triple (ih _) ⟨rfl, sound⟩ (fun _ _ done => done) fun _ _ stopped => stopped
      | vc2 => exact ⟨trivial, sound, Heap.live_string⟩
      | vc3 => exact ⟨trivial, sound.kept ‹_›⟩
      | vc4 =>
        obtain ⟨run, done⟩ := ‹Engine.Steps _ _ ∧ Engine.Completed _ _ _›
        exact Engine.Kept.completed ‹_› run done
      | vc5 =>
        have assigned : Engine.Kept _ _ := ‹_›
        intro e run done
        exact completes_after sound (assigned.completed run done) (ih _)
      | vc6 => exact Engine.Kept.unwound ‹_›
      | vc7 => exact And.intro

theorem Guarded.execForIn_spec (g : d.Guarded) (target : ForInTarget) (obj : Expr) (body : Stmt)
    (e₀ : Engine) :
    ⦃fun e => ⌜e = e₀ ∧ e₀.Sound⌝⦄ d.execForIn target obj body
    ⦃post⟨fun k e => ⌜e₀.Steps e ∧ e₀.Completed k e⌝, fun u e => ⌜e₀.Steps e ∧ e₀.Unwound u e⌝⟩⦄ := by
  have eval := g.evalExpr_unwinds
  have visit := fun object keys e₁ => attempt_spec (g.forInKeys_spec target object body keys e₁)
  mvcgen [execForIn, stackSize, topValue, eval, visit] with obtain ⟨rfl, sound⟩ := ‹_ = e₀ ∧ _›
  | vc1 => exact ⟨trivial, sound⟩
  | vc2 =>
    obtain ⟨run, pushed⟩ := ‹Engine.Steps _ _ ∧ Engine.Pushed _ _›
    exact ⟨trivial, sound.of_above run pushed.above⟩
  | vc3 =>
    obtain ⟨run₁, pushed⟩ := ‹Engine.Steps _ _ ∧ Engine.Pushed _ _›
    obtain ⟨run, done⟩ := ‹Engine.Steps _ _ ∧ Engine.Completed _ _ _›
    obtain rfl := ‹_ = Except.ok Completion.returning›
    have reached := run₁.trans run
    mvcgen [resume]
    exact ⟨reached.tail (.removeAbs (reached.safe' sound.safe) _), done.removeHidden pushed⟩
  | vc4 =>
    obtain ⟨run₁, pushed⟩ := ‹Engine.Steps _ _ ∧ Engine.Pushed _ _›
    obtain ⟨run, done⟩ := ‹Engine.Steps _ _ ∧ Engine.Completed _ _ _›
    obtain rfl := ‹_ = Except.ok _›
    have reached := run₁.trans run
    mvcgen [resume]
    exact ⟨reached.tail (.truncate (reached.safe' sound.safe) _), done.truncateHidden pushed ‹_›⟩
  | vc5 =>
    obtain ⟨run₁, pushed⟩ := ‹Engine.Steps _ _ ∧ Engine.Pushed _ _›
    obtain rfl := ‹_ = Except.error _›
    intro e run unwound
    mvcgen [resume]
    exact Engine.Unwound.after run₁ pushed.above ⟨run, unwound⟩
  | vc6 =>
    obtain ⟨run₁, pushed⟩ := ‹Engine.Steps _ _ ∧ Engine.Pushed _ _›
    exact fun _ run unwound => Engine.Unwound.after run₁ pushed.above ⟨run, unwound⟩
  | vc7 => exact And.intro

/-- Looking for the matching case evaluates tests only, each popped again. -/
theorem Guarded.findCase_spec (g : d.Guarded) (slot : Nat) (cases : List (Option Expr × List Stmt))
    (i : Nat) (e₀ : Engine) :
    ⦃fun e => ⌜e = e₀ ∧ e₀.Sound⌝⦄ d.findCase slot cases i
    ⦃post⟨fun _ e => ⌜e₀.Kept e⌝, fun u e => ⌜e₀.Steps e ∧ e₀.Unwound u e⌝⟩⦄ := by
  have pop := g.evalPop_unwinds
  induction cases generalizing i e₀ with
  | nil =>
    mvcgen [findCase] with obtain ⟨rfl, sound⟩ := ‹_ = e₀ ∧ _›
    | vc1 => exact .refl _
  | cons case rest ih =>
    obtain ⟨test, body⟩ := case
    cases test with
    | none =>
      -- the default clause has no test and is passed over
      mvcgen [findCase]
      rintro e rfl sound
      exact wp_of_triple (ih _ e) ⟨rfl, sound⟩ (fun _ _ kept => kept) fun _ _ stopped => stopped
    | some test =>
      mvcgen [findCase, pop] with obtain ⟨rfl, sound⟩ := ‹_ = e₀ ∧ _›
      | vc1 => exact ⟨trivial, sound⟩
      | vc2 => exact ‹Engine.Kept _ _ ∧ _›.1
      | vc3 =>
        obtain ⟨kept, -⟩ := ‹Engine.Kept _ _ ∧ _›
        exact wp_of_triple (ih _ _) ⟨rfl, sound.kept kept⟩ (fun _ _ rest => kept.trans rest)
          fun _ _ stopped => kept.unwound stopped.1 stopped.2
      | vc4 => exact And.intro

theorem Guarded.runCases_spec (g : d.Guarded) (cases : List (Option Expr × List Stmt)) (e₀ : Engine) :
    ⦃fun e => ⌜e = e₀ ∧ e₀.Sound⌝⦄ d.runCases cases
    ⦃post⟨fun k e => ⌜e₀.Steps e ∧ e₀.Completed k e⌝, fun u e => ⌜e₀.Steps e ∧ e₀.Unwound u e⌝⟩⦄ := by
  have block := g.execBlock_spec
  induction cases generalizing e₀ with
  | nil =>
    mvcgen [runCases] with obtain ⟨rfl, sound⟩ := ‹_ = e₀ ∧ _›
    | vc1 => exact ⟨.refl _, .of_kept (.refl _)⟩
  | cons case rest ih =>
    mvcgen [runCases, block] with obtain ⟨rfl, sound⟩ := ‹_ = e₀ ∧ _›
    | vc1 => exact ⟨trivial, sound⟩
    | vc2 => exact ‹Engine.Steps _ _ ∧ Engine.Completed _ _ _›
    | vc3 =>
      -- a body that completed normally falls through to the next one
      rename_i k continues _
      have normal : k = .normal := by simpa using continues
      intro e run done
      exact completes_after sound ⟨run, normal ▸ done⟩ (ih e)
    | vc4 => exact And.intro

theorem Guarded.execSwitch_spec (g : d.Guarded) (disc : Expr)
    (cases : List (Option Expr × List Stmt)) (e₀ : Engine) :
    ⦃fun e => ⌜e = e₀ ∧ e₀.Sound⌝⦄ d.execSwitch disc cases
    ⦃post⟨fun k e => ⌜e₀.Steps e ∧ e₀.Completed k e⌝, fun u e => ⌜e₀.Steps e ∧ e₀.Unwound u e⌝⟩⦄ := by
  have eval := g.evalExpr_unwinds
  have find := g.findCase_spec
  have run := g.runCases_spec
  mvcgen [execSwitch, stackSize, eval, find, run] with obtain ⟨rfl, sound⟩ := ‹_ = e₀ ∧ _›
  | vc1 => exact ⟨trivial, sound⟩
  | vc2 =>
    obtain ⟨run, pushed⟩ := ‹Engine.Steps _ _ ∧ Engine.Pushed _ _›
    exact ⟨trivial, sound.of_above run pushed.above⟩
  | vc3 =>
    obtain ⟨run, pushed⟩ := ‹Engine.Steps _ _ ∧ Engine.Pushed _ _›
    have found : Engine.Kept _ _ := ‹_›
    exact ⟨trivial, sound.of_above (run.trans found.1) (pushed.kept found).above⟩
  | vc4 =>
    obtain ⟨run₁, pushed⟩ := ‹Engine.Steps _ _ ∧ Engine.Pushed _ _›
    have found : Engine.Kept _ _ := ‹_›
    obtain ⟨run, done⟩ := ‹Engine.Steps _ _ ∧ Engine.Completed _ _ _›
    have returning : (_ == Completion.returning) = true := ‹_›
    simp only [beq_iff_eq] at returning
    subst returning
    have reached := (run₁.trans found.1).trans run
    exact ⟨reached.tail (.removeAbs (reached.safe' sound.safe) _),
      done.removeHidden (pushed.kept found)⟩
  | vc5 =>
    obtain ⟨run₁, pushed⟩ := ‹Engine.Steps _ _ ∧ Engine.Pushed _ _›
    have found : Engine.Kept _ _ := ‹_›
    obtain ⟨run, done⟩ := ‹Engine.Steps _ _ ∧ Engine.Completed _ _ _›
    have other : ¬(_ == Completion.returning) = true := ‹_›
    simp only [beq_iff_eq] at other
    have reached := (run₁.trans found.1).trans run
    have cut := done.truncateHidden (pushed.kept found) other
    refine ⟨reached.tail (.truncate (reached.safe' sound.safe) _), ?_⟩
    -- a `break` ends the switch itself
    split
    · exact cut.normal_of_ne other
    · exact cut
  | vc6 =>
    obtain ⟨run₁, pushed⟩ := ‹Engine.Steps _ _ ∧ Engine.Pushed _ _›
    have found : Engine.Kept _ _ := ‹_›
    exact fun run unwound =>
      Engine.Unwound.after (run₁.trans found.1) (pushed.kept found).above ⟨run, unwound⟩
  | vc8 =>
    obtain ⟨run₁, pushed⟩ := ‹Engine.Steps _ _ ∧ Engine.Pushed _ _›
    have found : Engine.Kept _ _ := ‹_›
    have reached := run₁.trans found.1
    exact ⟨reached.tail (.truncate (reached.safe' sound.safe) _),
      Engine.Completed.truncateHidden (pushed.kept found) (.of_kept (.refl _)) (by decide)⟩
  | vc9 =>
    obtain ⟨run₁, pushed⟩ := ‹Engine.Steps _ _ ∧ Engine.Pushed _ _›
    exact fun run unwound => Engine.Unwound.after run₁ pushed.above ⟨run, unwound⟩
  | vc10 => exact And.intro

/-- A `catch` clause runs from where the `try` block threw: the stack is cut back to where the
statement started, and the block runs in a scope that binds the exception. -/
theorem Guarded.catchWith_spec (g : d.Guarded) (exception : Value) (param : Option String)
    (body : List Stmt) (e₀ e₁ : Engine) :
    ⦃fun e => ⌜e = e₁ ∧ e₀.Sound ∧ e₀.Steps e₁ ∧ e₀.Unwound (.thrown exception) e₁⌝⦄
    d.catchWith e₀.stack.size exception param body
    ⦃post⟨fun r e => ⌜e₀.Settled r e⌝,
      fun u e => ⌜u = .exhausted ∧ e₀.Steps e ∧ e₀.Unwound u e⌝⟩⦄ := by
  have tried := fun e₁ => attempt_settled (g.execBlock_spec body e₁)
  mvcgen [catchWith, allocObject_spec, tried] with
    obtain ⟨rfl, sound, run, live, above⟩ := ‹_ = e₁ ∧ _›
  | vc1 =>
    have safe := (run.tail (.truncate (run.safe' sound.safe) e₀.stack.size)).safe' sound.safe
    refine ⟨trivial, safe, safe.allocatable_scope ?_⟩
    -- the scope binds the exception to the parameter, if there is one
    cases param with
    | some p => exact PropertyTable.live_values_set PropertyTable.live_values_empty live
    | none => exact PropertyTable.live_values_empty
  | vc2 =>
    obtain ⟨kept, valid⟩ := ‹Engine.Kept _ _ ∧ _›
    obtain ⟨reached, cut⟩ :=
      above.truncate.kept (run.tail (.truncate (run.safe' sound.safe) e₀.stack.size)) kept
    have sound₁ := sound.of_above reached cut.above
    exact ⟨trivial, sound₁.safe.step (.pushScope sound₁.safe (by simpa using valid)), sound₁.framed⟩
  | vc3 =>
    obtain ⟨kept, valid⟩ := ‹Engine.Kept _ _ ∧ _›
    have cut := above.truncate.kept (run.tail (.truncate (run.safe' sound.safe) e₀.stack.size)) kept
    have settled : Engine.Settled _ _ _ := ‹_›
    exact settled.scoped sound cut (by simpa using valid)
  | vc4 =>
    obtain ⟨kept, valid⟩ := ‹Engine.Kept _ _ ∧ _›
    obtain ⟨reached, cut⟩ :=
      above.truncate.kept (run.tail (.truncate (run.safe' sound.safe) e₀.stack.size)) kept
    have sound₁ := sound.of_above reached cut.above
    have pushed := reached.tail (.pushScope (s := some _) sound₁.safe (by simpa using valid))
    rintro rfl run framed
    exact ⟨rfl, pushed.trans run, framed⟩

end Evaluator

end EmbedScript
