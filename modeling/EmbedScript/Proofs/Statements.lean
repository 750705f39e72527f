import Mathlib
import EmbedScript.Proofs.Completion

/-!
`try` statements and the statement step. While a `finally` block runs, a pending return value or
exception waits on top of where the statement started, so the engine is where a returning
statement leaves it; the block then either keeps the pending value or discards it. With these,
every kind of statement keeps the statement contract when the evaluator one level down does.
-/

namespace EmbedScript

open Std.Do Syntax

set_option mvcgen.warning false

theorem eraseIdxIfInBounds_last {s : Array Value} {n : Nat} (size : s.size = n + 1) :
    s.eraseIdxIfInBounds n = s.pop := by
  apply Array.ext_getElem?
  intro i
  simp only [Array.eraseIdxIfInBounds, size, Array.getElem?_pop]
  grind

theorem pop_push_back {s : Array Value} {n : Nat} (size : s.size = n + 1) :
    s.pop.push (s.back?.getD .undefined) = s := by
  apply Array.ext_getElem?
  intro i
  simp only [Array.getElem?_push, Array.getElem?_pop, Array.size_pop, Array.back?_eq_getElem?, size]
  grind

theorem Completion.eq_normal_of_not_bne {c : Completion} (normal : ¬(c != .normal) = true) :
    c = .normal := by
  simpa using normal

namespace Engine

variable {e₀ e₁ e : Engine} {c k : Completion}

/-- Only a return leaves a value: every other completion reads as a normal one. -/
theorem Completed.of_normal (ne : k ≠ .returning) (done : e₀.Completed .normal e) :
    e₀.Completed k e := by
  obtain ⟨control, s, rewritten, stack⟩ := done
  exact ⟨control, s, rewritten, by simpa [ne] using stack⟩

/-- A value pushed after a statement that completed normally is a returned value. -/
theorem Completed.push (done : e₀.Completed .normal e) (v : Value) :
    e₀.Completed .returning (e.push v) := by
  obtain ⟨control, s, rewritten, stack⟩ := done
  have stack : e.stack = s := by simpa using stack
  exact ⟨control, s, rewritten, if_pos rfl ▸ ⟨v, by simp [stack]⟩⟩

/-- Taking the returned value off leaves a normal completion. -/
theorem Completed.pop_returned (done : e₀.Completed .returning e) :
    e₀.Completed .normal { e with stack := e.stack.pop } := by
  obtain ⟨control, s, rewritten, stack⟩ := done
  obtain ⟨v, stack⟩ := if_pos rfl ▸ stack
  exact ⟨control, s, rewritten, by simp [stack]⟩

/-- A block that completes normally above a returned value keeps a value returned. -/
theorem Completed.keep_returned (pending : e₀.Completed .returning e₁)
    (done : e₁.Completed .normal e) : e₀.Completed .returning e := by
  obtain ⟨control₁, s₁, rewritten₁, stack₁⟩ := pending
  obtain ⟨v, stack₁⟩ := if_pos rfl ▸ stack₁
  obtain ⟨control, s, rewritten, stack⟩ := done
  have slot : e₁.completionSlot = e₀.completionSlot := congrArg Control.completionSlot control₁
  have stack : e.stack = s := by simpa using stack
  rw [stack₁, slot] at rewritten
  have size : s.size = s₁.size + 1 := by simp [rewritten.1]
  refine ⟨control.trans control₁, s.pop, rewritten₁.trans rewritten.pop,
    if_pos rfl ▸ ⟨s.back?.getD .undefined, ?_⟩⟩
  rw [stack, pop_push_back size]

/-- A block that does not complete normally above a returned value discards the value and
wins. -/
theorem Completed.discard_returned (pending : e₀.Completed .returning e₁)
    (done : e₁.Completed c e) : e₀.Completed c (e.removeAbs e₀.stack.size) := by
  obtain ⟨control₁, s₁, rewritten₁, stack₁⟩ := pending
  obtain ⟨v, stack₁⟩ := if_pos rfl ▸ stack₁
  obtain ⟨control, s, rewritten, stack⟩ := done
  have slot : e₁.completionSlot = e₀.completionSlot := congrArg Control.completionSlot control₁
  rw [stack₁, slot] at rewritten
  have size : s.size = e₀.stack.size + 1 := by simp [rewritten.1, rewritten₁.1]
  refine ⟨control.trans control₁, s.pop, rewritten₁.trans rewritten.pop, ?_⟩
  -- the returned value sits in the slot where the statement started, the last one
  by_cases returning : c = .returning
  · rw [if_pos returning] at stack ⊢
    obtain ⟨w, stack⟩ := stack
    exact ⟨w, by simp only [removeAbs, stack, eraseIdxIfInBounds_push_pop size]⟩
  · rw [if_neg returning] at stack ⊢
    simp only [removeAbs, stack, eraseIdxIfInBounds_last size]

/-- What a returning statement leaves has a value above the frame. -/
theorem Completed.returned_nonempty (sound : e₀.Sound) (done : e₀.Completed .returning e) :
    e.bottom < e.stack.size := by
  obtain ⟨control, s, rewritten, stack⟩ := done
  obtain ⟨v, stack⟩ := if_pos rfl ▸ stack
  have bottom : e.bottom = e₀.bottom := congrArg Control.bottom control
  have framed := sound.framed
  rw [bottom, stack, Array.size_push, rewritten.1]
  omega

/-- An exception kept while a `finally` block runs: the stack is cut back to where the statement
started and the exception pushed, as a returned value would be. -/
theorem Unwound.keep (sound : e₀.Sound) (run : e₀.Steps e₁) (unwound : e₀.Unwound (.thrown v) e₁) :
    e₀.Steps ((e₁.truncate e₀.stack.size).push v) ∧
      e₀.Completed .returning ((e₁.truncate e₀.stack.size).push v) := by
  obtain ⟨live, above⟩ := unwound
  have cut := run.tail (.truncate (run.safe' sound.safe) e₀.stack.size)
  exact ⟨cut.tail (.push (cut.safe' sound.safe) live), above.truncate.push v⟩

/-- A value returned by an expression. -/
theorem Pushed.returned (pushed : e₀.Pushed e) : e₀.Completed .returning e :=
  ⟨pushed.1, e₀.stack, .refl _ _, if_pos rfl ▸ pushed.2⟩

/-- Writing the value of an expression statement to the completion slot of global code. -/
theorem Kept.setCompletion {n : Nat} (kept : e₀.Kept e) (sound : e₀.Sound)
    (slot : e.completionSlot = some n) (live : e.heap.Live v) :
    e₀.Steps (e.setAbs n v) ∧ e₀.Completed .normal (e.setAbs n v) := by
  have same : e₀.completionSlot = some n := (congrArg Control.completionSlot kept.2.1).symm.trans slot
  refine ⟨kept.1.tail (.setAbs (kept.1.safe' sound.safe) n live), kept.2.1, _,
    ⟨by simp [setAbs, kept.2.2], fun i other => ?_⟩, rfl⟩
  rw [same] at other
  have : n ≠ i := fun h => other (h ▸ rfl)
  simp [setAbs, kept.2.2, this]

end Engine

namespace Evaluator

variable {d : Evaluator}

/-- The `try` block and its `catch` clause settle from where the statement started. -/
theorem Guarded.tryCatch_spec (g : d.Guarded) (block : List Stmt)
    (handler : Option (Option String × List Stmt)) (e₀ : Engine) :
    ⦃fun e => ⌜e = e₀ ∧ e₀.Sound⌝⦄ d.tryCatch e₀.stack.size block handler
    ⦃post⟨fun r e => ⌜e₀.Settled r e⌝,
      fun u e => ⌜u = .exhausted ∧ e₀.Steps e ∧ e₀.Unwound u e⌝⟩⦄ := by
  have tried := attempt_settled (g.execBlock_spec block e₀)
  have caught := g.catchWith_spec
  mvcgen [tryCatch, tried, caught] with obtain ⟨rfl, sound⟩ := ‹_ = e₀ ∧ _›
  | vc2 =>
    obtain ⟨run, unwound⟩ := ‹Engine.Settled _ (.error _) _›
    exact ⟨trivial, sound, run, unwound⟩

/-- A `finally` block runs after the `try` and `catch` blocks settled. -/
theorem Guarded.runFinally_spec (g : d.Guarded) (r : Except Value Completion) (finBody : List Stmt)
    (e₀ e₁ : Engine) :
    ⦃fun e => ⌜e = e₁ ∧ e₀.Sound ∧ e₀.Settled r e₁⌝⦄ d.runFinally e₀.stack.size r finBody
    ⦃post⟨fun k e => ⌜e₀.Steps e ∧ e₀.Completed k e⌝, fun u e => ⌜e₀.Steps e ∧ e₀.Unwound u e⌝⟩⦄ := by
  have block := g.execBlock_spec
  -- a pending return value or exception waits on top; otherwise the finally block just follows
  cases r with
  | error v =>
    mvcgen [runFinally, block, popValue_spec] with
      obtain ⟨rfl, sound, run, unwound⟩ := ‹_ = e₁ ∧ _›
    | vc1 =>
      obtain ⟨kept, pending⟩ := Engine.Unwound.keep sound run unwound
      exact ⟨trivial, sound.of_above kept pending.above⟩
    | vc2 =>
      obtain ⟨kept, pending⟩ := Engine.Unwound.keep sound run unwound
      obtain ⟨run', done⟩ := ‹Engine.Steps _ _ ∧ Engine.Completed _ _ _›
      have reached := kept.trans run'
      exact ⟨reached.tail (.removeAbs (reached.safe' sound.safe) _), pending.discard_returned done⟩
    | vc4 =>
      obtain ⟨-, pending⟩ := Engine.Unwound.keep sound run unwound
      obtain ⟨-, done⟩ := ‹Engine.Steps _ _ ∧ Engine.Completed _ _ _›
      have normal := Completion.eq_normal_of_not_bne ‹_›
      exact ⟨trivial, (pending.keep_returned (normal ▸ done)).returned_nonempty sound⟩
    | vc5 =>
      -- the kept exception, or what the block left in its slot, is thrown again
      obtain ⟨kept, pending⟩ := Engine.Unwound.keep sound run unwound
      obtain ⟨run', done⟩ := ‹Engine.Steps _ _ ∧ Engine.Completed _ _ _›
      rename_i popped _
      obtain ⟨rfl, rfl⟩ := popped
      have normal := Completion.eq_normal_of_not_bne ‹_›
      have reached := kept.trans run'
      have safe := reached.safe' sound.safe
      exact ⟨reached.tail (.pop safe), safe.live_back,
        (pending.keep_returned (normal ▸ done)).pop_returned.above⟩
    | vc6 =>
      obtain ⟨kept, pending⟩ := Engine.Unwound.keep sound run unwound
      exact fun run' unwound' => Engine.Unwound.after kept pending.above ⟨run', unwound'⟩
  | ok k =>
    by_cases returning : k = .returning
    · subst returning
      mvcgen [runFinally, block] with obtain ⟨rfl, sound, run, pending⟩ := ‹_ = e₁ ∧ _›
      | vc1 => exact ⟨trivial, sound.of_above run pending.above⟩
      | vc2 =>
        obtain ⟨run', done⟩ := ‹Engine.Steps _ _ ∧ Engine.Completed _ _ _›
        have reached := run.trans run'
        exact ⟨reached.tail (.removeAbs (reached.safe' sound.safe) _), pending.discard_returned done⟩
      | vc4 =>
        obtain ⟨run', done⟩ := ‹Engine.Steps _ _ ∧ Engine.Completed _ _ _›
        have normal := Completion.eq_normal_of_not_bne ‹_›
        exact ⟨run.trans run', pending.keep_returned (normal ▸ done)⟩
      | vc5 => exact fun run' unwound => Engine.Unwound.after run pending.above ⟨run', unwound⟩
    · mvcgen [runFinally, block] with obtain ⟨rfl, sound, run, done⟩ := ‹_ = e₁ ∧ _›
      | vc1 | vc2 | vc4 | vc5 => exact absurd (Except.ok.inj ‹Except.ok k = Except.ok _›) returning
      | vc11 => exact ⟨trivial, sound.of_above run done.above⟩
      | vc13 =>
        obtain ⟨run', done'⟩ := ‹Engine.Steps _ _ ∧ Engine.Completed _ _ _›
        exact ⟨run.trans run', (done.normal_of_ne returning).then done'⟩
      | vc14 =>
        obtain ⟨run', done'⟩ := ‹Engine.Steps _ _ ∧ Engine.Completed _ _ _›
        have normal := Completion.eq_normal_of_not_bne ‹_›
        exact ⟨run.trans run', ((done.normal_of_ne returning).then (normal ▸ done')).of_normal returning⟩
      | vc15 => exact fun run' unwound => done.unwound run run' unwound

theorem Guarded.execTry_spec (g : d.Guarded) (block : List Stmt)
    (handler : Option (Option String × List Stmt)) (fin : Option (List Stmt)) (e₀ : Engine) :
    ⦃fun e => ⌜e = e₀ ∧ e₀.Sound⌝⦄ d.execTry block handler fin
    ⦃post⟨fun k e => ⌜e₀.Steps e ∧ e₀.Completed k e⌝, fun u e => ⌜e₀.Steps e ∧ e₀.Unwound u e⌝⟩⦄ := by
  have caught := g.tryCatch_spec block handler
  have finished := g.runFinally_spec
  mvcgen [execTry, stackSize, caught, finished, resume] with obtain ⟨rfl, sound⟩ := ‹_ = e₀ ∧ _›
  | vc1 => exact ⟨trivial, sound⟩
  -- without a finally block the settled outcome is the statement's
  | vc2 | vc3 => exact ‹Engine.Settled _ _ _›
  | vc4 => exact ⟨trivial, sound, ‹_›⟩
  | vc5 | vc6 => exact And.intro
  | vc7 => exact fun _ => And.intro

theorem Guarded.execStmtKind_spec (g : d.Guarded) (s : Stmt) (e₀ : Engine) :
    ⦃fun e => ⌜e = e₀ ∧ e₀.Sound⌝⦄ d.execStmtKind s
    ⦃post⟨fun k e => ⌜e₀.Steps e ∧ e₀.Completed k e⌝, fun u e => ⌜e₀.Steps e ∧ e₀.Unwound u e⌝⟩⦄ := by
  have pop := g.evalPop_unwinds
  have exec := g.execStmt
  have declare := g.execDeclarations_spec
  cases s with
  | empty =>
    mvcgen [execStmtKind] with obtain ⟨rfl, sound⟩ := ‹_ = e₀ ∧ _›
    | vc1 => exact ⟨.refl _, .of_kept (.refl _)⟩
  | expr x =>
    mvcgen [execStmtKind, pop] with obtain ⟨rfl, sound⟩ := ‹_ = e₀ ∧ _›
    | vc1 => exact ⟨trivial, sound⟩
    | vc2 =>
      -- the value of an expression statement of global code goes to the completion slot
      obtain ⟨kept, live⟩ := ‹Engine.Kept _ _ ∧ _›
      exact kept.setCompletion sound ‹_› live
    | vc3 =>
      obtain ⟨kept, -⟩ := ‹Engine.Kept _ _ ∧ _›
      exact ⟨kept.1, .of_kept kept⟩
    | vc4 => exact And.intro
  | var decls =>
    mvcgen [execStmtKind, declare] with obtain ⟨rfl, sound⟩ := ‹_ = e₀ ∧ _›
    | vc1 => exact ⟨trivial, sound⟩
    | vc2 => exact ⟨‹Engine.Kept _ _›.1, .of_kept ‹_›⟩
    | vc3 => exact And.intro
  | block body => exact g.execBlock_spec body e₀
  | ifStmt test yes no =>
    mvcgen [execStmtKind, pop] with obtain ⟨rfl, sound⟩ := ‹_ = e₀ ∧ _›
    | vc1 => exact ⟨trivial, sound⟩
    | vc2 | vc3 =>
      -- the branch taken runs from where the test left the engine
      intro e kept _
      exact completes_after sound ⟨kept.1, .of_kept kept⟩ (exec _ e)
    | vc4 =>
      obtain ⟨kept, -⟩ := ‹Engine.Kept _ _ ∧ _›
      exact ⟨kept.1, .of_kept kept⟩
    | vc5 => exact And.intro
  | whileStmt test body => exact g.execWhile test body e₀
  | doWhile body test => exact g.execDoWhile body test e₀
  | forStmt init test update body =>
    -- the initializer runs as a declaration or an expression, then the first round
    cases init with
    | none =>
      mvcgen [execStmtKind]
      rintro e rfl sound
      exact completes_after sound ⟨.refl _, .of_kept (.refl _)⟩ (g.execFor test update body e)
    | some init =>
      cases init with
      | var decls =>
        mvcgen [execStmtKind, declare] with obtain ⟨rfl, sound⟩ := ‹_ = e₀ ∧ _›
        | vc1 => exact ⟨trivial, sound⟩
        | vc2 =>
          intro e kept
          exact completes_after sound ⟨kept.1, .of_kept kept⟩ (g.execFor test update body e)
        | vc3 => exact And.intro
      | expr x =>
        mvcgen [execStmtKind, pop] with obtain ⟨rfl, sound⟩ := ‹_ = e₀ ∧ _›
        | vc1 => exact ⟨trivial, sound⟩
        | vc2 =>
          intro e kept _
          exact completes_after sound ⟨kept.1, .of_kept kept⟩ (g.execFor test update body e)
        | vc3 => exact And.intro
  | forIn target obj body => exact g.execForIn_spec target obj body e₀
  | switch disc cases => exact g.execSwitch_spec disc cases e₀
  | breakStmt =>
    mvcgen [execStmtKind] with obtain ⟨rfl, sound⟩ := ‹_ = e₀ ∧ _›
    | vc1 => exact ⟨.refl _, .of_normal (by decide) (.of_kept (.refl _))⟩
  | continueStmt =>
    mvcgen [execStmtKind] with obtain ⟨rfl, sound⟩ := ‹_ = e₀ ∧ _›
    | vc1 => exact ⟨.refl _, .of_normal (by decide) (.of_kept (.refl _))⟩
  | returnStmt value =>
    have eval := g.evalExpr_unwinds
    mvcgen [execStmtKind, eval, pushValue] with obtain ⟨rfl, sound⟩ := ‹_ = e₀ ∧ _›
    | vc1 => exact ⟨trivial, sound⟩
    | vc2 =>
      obtain ⟨run, pushed⟩ := ‹Engine.Steps _ _ ∧ Engine.Pushed _ _›
      exact ⟨run, pushed.returned⟩
    | vc3 => exact And.intro
    | vc4 => exact ⟨(Engine.Step.push sound.safe Heap.live_undefined).steps,
        (Engine.pushed_push _ _).returned⟩
  | throwStmt x =>
    mvcgen [execStmtKind, pop] with obtain ⟨rfl, sound⟩ := ‹_ = e₀ ∧ _›
    | vc1 => exact ⟨trivial, sound⟩
    | vc2 =>
      obtain ⟨kept, live⟩ := ‹Engine.Kept _ _ ∧ _›
      exact ⟨kept.1, live, kept.above⟩
    | vc3 => exact And.intro
  | tryStmt block handler fin => exact g.execTry_spec block handler fin e₀

end Evaluator

end EmbedScript
