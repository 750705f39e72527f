import Mathlib
import EmbedScript.Proofs.Statements

/-!
The expression step. An expression pushes one value over the stack it found; on the way its
operands sit on the stack above that point, and a call pushes a whole group of callee,
receiver and arguments, which `invoke` replaces by the result. The contract `Stacked n` tracks
such a group of `n` pushed values, so that the call's contract reads back as the expression's.
With these, every kind of expression keeps the expression contract when the evaluator one level
down does.
-/

namespace EmbedScript

open Std.Do Syntax

set_option mvcgen.warning false

theorem insertIdxIfInBounds_below_last {s : Array Value} {v w : Value} :
    (s.push w).insertIdxIfInBounds s.size v = (s.push v).push w := by
  apply Array.ext_getElem?
  intro i
  simp only [Array.insertIdxIfInBounds, Array.size_push, Nat.le_succ, dif_pos,
    Array.getElem?_insertIdx, Array.getElem?_push]
  grind

namespace Engine

variable {e₀ e₁ e₂ e : Engine} {k n : Nat} {v : Value}

/-- Where code that pushes `n` values leaves the engine: the control state restored and the
values on top of the stack it found. -/
def Stacked (e₀ : Engine) (n : Nat) (e : Engine) : Prop :=
  e.control = e₀.control ∧ ∃ vs : Array Value, vs.size = n ∧ e.stack = e₀.stack ++ vs

theorem Stacked.refl (e : Engine) : e.Stacked 0 e := ⟨rfl, #[], rfl, by simp⟩



theorem Pushed.stacked (pushed : e₀.Pushed e) : e₀.Stacked 1 e := by
  obtain ⟨control, v, stack⟩ := pushed
  exact ⟨control, #[v], rfl, by simp [stack]⟩



theorem Stacked.trans {m : Nat} (first : e₀.Stacked m e₁) (second : e₁.Stacked n e) :
    e₀.Stacked (m + n) e := by
  obtain ⟨control₁, vs₁, size₁, stack₁⟩ := first
  obtain ⟨control, vs, size, stack⟩ := second
  exact ⟨control.trans control₁, vs₁ ++ vs, by simp [size₁, size], by simp [stack, stack₁]⟩

/-- A group pushed in two parts, each by steps. -/
theorem Stacked.joined {m : Nat} (first : e₀.Steps e₁ ∧ e₀.Stacked m e₁)
    (second : e₁.Steps e ∧ e₁.Stacked n e) : e₀.Steps e ∧ e₀.Stacked (m + n) e :=
  ⟨first.1.trans second.1, first.2.trans second.2⟩

/-- One value pushed, then `n` more. -/
theorem Pushed.cons (first : e₀.Pushed e₁) (rest : e₁.Stacked n e) : e₀.Stacked (n + 1) e :=
  Nat.add_comm 1 n ▸ first.stacked.trans rest

/-- A callee pushed, an undefined receiver above it, then `n` arguments: the group of a
construction. -/
theorem Pushed.construction (sound : e₀.Sound) (callee : e₀.Steps e₁ ∧ e₀.Pushed e₁)
    (args : (e₁.push .undefined).Steps e ∧ (e₁.push .undefined).Stacked n e) :
    e₀.Steps e ∧ e₀.Stacked (n + 2) e := by
  have receiver := (Step.push (callee.1.safe' sound.safe) Heap.live_undefined).steps
  have group := Stacked.joined (Stacked.joined ⟨callee.1, callee.2.stacked⟩
    ⟨receiver, (pushed_push _ _).stacked⟩) args
  rwa [show 1 + 1 + n = n + 2 by omega] at group

theorem Kept.pushed (kept : e₀.Kept e₁) (pushed : e₁.Pushed e) : e₀.Pushed e := by
  obtain ⟨control, v, stack⟩ := pushed
  exact ⟨control.trans kept.2.1, v, by rw [stack, kept.2.2]⟩

theorem Stacked.kept (stacked : e₀.Stacked n e₁) (kept : e₁.Kept e) : e₀.Stacked n e := by
  obtain ⟨control, vs, size, stack⟩ := stacked
  exact ⟨kept.2.1.trans control, vs, size, kept.2.2.trans stack⟩

theorem Stacked.atop (stacked : e₀.Stacked n e) : e₀.Atop e := by
  obtain ⟨control, vs, -, stack⟩ := stacked
  exact ⟨control, vs, stack⟩

theorem Stacked.above (stacked : e₀.Stacked n e) : e₀.Above e := stacked.atop.above

theorem Stacked.size (stacked : e₀.Stacked n e) : e.stack.size = e₀.stack.size + n := by
  obtain ⟨-, vs, size, stack⟩ := stacked
  simp [stack, size]

/-- Cutting the stack back to where the pushing started restores the engine's stack. -/
theorem Stacked.cut (stacked : e₀.Stacked n e) : e₀.Atop (e.truncate e₀.stack.size) := by
  obtain ⟨control, vs, -, stack⟩ := stacked
  exact ⟨control, #[], by simp [stack]⟩

/-- Cutting a pushed group off again gives the engine it was pushed on, moved by steps. -/
theorem Stacked.cut_off (sound : e₀.Sound) (run : e₀.Steps e) (stacked : e₀.Stacked n e) :
    e₀.Steps (e.truncate e₀.stack.size) ∧ e₀.Atop (e.truncate e₀.stack.size) ∧
      (e.truncate e₀.stack.size).Safe := by
  have cut := run.tail (.truncate (run.safe' sound.safe) e₀.stack.size)
  exact ⟨cut, stacked.cut, cut.safe' sound.safe⟩

/-- A group of a callee, a receiver and `n` arguments pushed on a sound engine lies inside its
frame. -/
theorem Stacked.group (sound : e₀.Sound) (stacked : e₀.Stacked k e) (group : k = n + 2) :
    e.bottom + n + 2 ≤ e.stack.size := by
  have bottom : e.bottom = e₀.bottom := congrArg Control.bottom stacked.1
  have framed := sound.framed
  rw [stacked.size, bottom]
  omega

/-- A call that replaced the group pushed by an expression leaves what the expression pushes. -/
theorem Stacked.replaced (stacked : e₀.Stacked k e₁) (group : k = n + 2)
    (replaced : e₁.Replaced (e₁.stack.size - n - 2) e) : e₀.Pushed e := by
  obtain ⟨control, vs, size, stack⟩ := stacked
  obtain ⟨control', v, stack'⟩ := replaced
  have base : e₁.stack.size - n - 2 = e₀.stack.size := by
    rw [stack, Array.size_append]
    omega
  exact ⟨control'.trans control, v, by rw [stack', base, stack]; simp⟩

/-- A call that removed the group pushed by an expression stopped early for the expression. -/
theorem Stacked.removed {u : Unwind} (stacked : e₀.Stacked k e₁) (group : k = n + 2)
    (removed : e₁.Removed (e₁.stack.size - n - 2) u e) : e₀.Stopped u e := by
  obtain ⟨control, vs, size, stack⟩ := stacked
  have base : e₁.stack.size - n - 2 = e₀.stack.size := by
    rw [stack, Array.size_append]
    omega
  cases u with
  | thrown w =>
    obtain ⟨live, control', stack'⟩ := removed
    exact ⟨live, control'.trans control, #[], by rw [stack', base, stack]; simp⟩
  | exhausted => exact removed

/-- Appending a live value to an array is a step; the edit leaves any other object as it is. -/
theorem Step.appendElement (safe : e.Safe) (id : ObjectId) (live : e.heap.Live v) :
    e.Step { e with heap := e.heap.modify id fun o =>
      match o.kind with
      | .array items => { o with kind := .array (items.push v) }
      | _ => o } := by
  refine .edit id _ fun o found => ?_
  have closed := safe.closed _ _ o (Heap.get?_eq_some.mp found)
  split
  · rename_i items kind
    refine ⟨by simp [HeapObject.hostHandle?, kind], by simp [HeapObject.methodOf?, kind], rfl, rfl,
      fun r member => ?_⟩
    rcases HeapObject.references_setElements kind member with old | element
    · exact closed r old
    · rcases Array.mem_push.mp element with kept | rfl
      · apply closed r
        simp only [HeapObject.references, kind, List.mem_append, List.mem_filterMap]
        exact .inr ⟨_, Array.mem_toList_iff.mpr kept, rfl⟩
      · exact live r rfl
  · exact ⟨rfl, rfl, rfl, rfl, closed⟩

/-- An operand pushed, then heap work: the operand is still on top, and popping it gives back the
engine the operand was pushed on, moved on the heap only. -/
theorem Pushed.kept_pop (sound : e₀.Sound) (run : e₀.Steps e₁) (pushed : e₀.Pushed e₁)
    (kept : e₁.Kept e₂) :
    e₂.bottom < e₂.stack.size ∧ e₀.Kept { e₂ with stack := e₂.stack.pop } ∧
      e₂.heap.Live (e₂.stack.back?.getD .undefined) :=
  ⟨(pushed.kept kept).nonempty sound, (pushed.kept kept).popped sound (run.trans kept.1)⟩

/-- Two operands pushed one after the other come off the stack again, the second first: what is
left is the engine the first was pushed on, moved on the heap only. -/
theorem Pushed.popped_two (sound : e₀.Sound) (first : e₀.Steps e₁ ∧ e₀.Pushed e₁)
    (second : e₁.Steps e₂ ∧ e₁.Pushed e₂) :
    e₂.bottom < e₂.stack.size ∧ e₂.bottom < e₂.stack.pop.size ∧
      e₀.Kept { e₂ with stack := e₂.stack.pop.pop } := by
  obtain ⟨run₁, pushed₁⟩ := first
  obtain ⟨run₂, pushed₂⟩ := second
  have sound₁ := sound.of_above run₁ pushed₁.above
  obtain ⟨popped, -⟩ := pushed₂.popped sound₁ run₂
  obtain ⟨nonempty, kept, -⟩ := pushed₁.kept_pop sound run₁ popped
  exact ⟨pushed₂.nonempty sound₁, nonempty, kept⟩

/-- The current value of a compound assignment's target, pushed, and its right side come off
the stack again. -/
theorem Pushed.operands (sound : e₀.Sound) (live : e₀.heap.Live v) (run : (e₀.push v).Steps e₂)
    (pushed : (e₀.push v).Pushed e₂) :
    e₂.bottom < e₂.stack.size ∧ e₂.bottom < e₂.stack.pop.size ∧
      e₀.Kept { e₂ with stack := e₂.stack.pop.pop } :=
  Pushed.popped_two sound ⟨(Step.push sound.safe live).steps, pushed_push e₀ v⟩ ⟨run, pushed⟩

/-- Work that leaves the stack below where an expression started as it was, then the stack cut
back there and a live value pushed: what an expression does. -/
theorem Steps.cut_push (sound : e₀.Sound) (run : e₀.Steps e) (control : e.control = e₀.control)
    (below : e.stack.take e₀.stack.size = e₀.stack) (live : e.heap.Live v) :
    e₀.Steps ((e.truncate e₀.stack.size).push v) ∧ e₀.Pushed ((e.truncate e₀.stack.size).push v) := by
  have cut := run.tail (.truncate (run.safe' sound.safe) e₀.stack.size)
  exact ⟨cut.tail (.push (cut.safe' sound.safe) live), control, v, by simp [below]⟩

/-- Slipping a callee under the receiver an expression pushed makes the first two values of a
call group. -/
theorem Pushed.insertCallee (sound : e₀.Sound) (run : e₀.Steps e₁) (pushed : e₀.Pushed e₁)
    {f : Value} (live : e₁.heap.Live f) :
    e₀.Steps (e₁.insertAbs e₀.stack.size f) ∧ e₀.Stacked 2 (e₁.insertAbs e₀.stack.size f) := by
  obtain ⟨control, t, stack⟩ := pushed
  refine ⟨run.tail (.insertAbs (run.safe' sound.safe) _ live), control, #[f, t], rfl, ?_⟩
  simp only [insertAbs, stack, insertIdxIfInBounds_below_last]
  simp only [Array.push_eq_append, Array.append_assoc]
  rfl

theorem Kept.appendElement (sound : e₀.Sound) (kept : e₀.Kept e₁) (id : ObjectId)
    (live : e₁.heap.Live v) :
    e₀.Kept { e₁ with heap := e₁.heap.modify id fun o =>
      match o.kind with
      | .array items => { o with kind := .array (items.push v) }
      | _ => o } :=
  kept.trans ⟨(Step.appendElement (sound.kept kept).safe id live).steps, rfl, rfl⟩

end Engine

namespace Reference.Placed

variable {ref : Reference} {e₀ e₁ e₂ e₃ : Engine}

/-- Below a value pushed over it, an assignment target leaves the stack as it found it. -/
theorem take_under (placed : ref.Placed e₀ e₁) (pushed : e₁.Pushed e₂) :
    e₂.stack.take e₀.stack.size = e₀.stack := by
  obtain ⟨-, w, stack⟩ := pushed
  cases ref with
  | var => simp [stack, placed.2]
  | property =>
    obtain ⟨-, -, u, stack₁⟩ := placed
    simp [stack, stack₁]

theorem take (placed : ref.Placed e₀ e₁) : e₁.stack.take e₀.stack.size = e₀.stack := by
  cases ref with
  | var => simp [placed.2]
  | property =>
    obtain ⟨-, -, u, stack⟩ := placed
    simp [stack]

/-- The end of an assignment: the value on top, over the target, is written, the stack cut back
to where the assignment started and the value pushed there. -/
theorem stored (placed : ref.Placed e₀ e₁) (sound : e₀.Sound) (run : e₀.Steps e₁)
    (run' : e₁.Steps e₂) (pushed : e₁.Pushed e₂) (wrote : e₂.Kept e₃) :
    e₀.Steps ((e₃.truncate e₀.stack.size).push (e₂.stack.back?.getD .undefined)) ∧
      e₀.Pushed ((e₃.truncate e₀.stack.size).push (e₂.stack.back?.getD .undefined)) := by
  have reached := (run.trans run').trans wrote.1
  have live : e₃.heap.Live (e₂.stack.back?.getD .undefined) :=
    wrote.2.2 ▸ (reached.safe' sound.safe).live_back
  exact Engine.Steps.cut_push sound reached (wrote.2.1.trans (pushed.1.trans placed.control))
    (by rw [wrote.2.2, placed.take_under pushed]) live

end Reference.Placed

namespace Evaluator

variable {d : Evaluator}

/-! ### Running on from an intermediate state -/

section Continuations

variable {α : Type} {m : Flow α} {e₀ e₁ : Engine}

/-- Heap work followed by code that works on the heap alone. -/
theorem kept_after (sound : e₀.Sound) (kept : e₀.Kept e₁)
    (spec : ⦃fun e => ⌜e = e₁ ∧ e₁.Sound⌝⦄ m
      ⦃post⟨fun _ e => ⌜e₁.Kept e⌝, fun u e => ⌜e₁.Steps e ∧ e₁.Stopped u e⌝⟩⦄) :
    (wp⟦m⟧ (post⟨fun _ e => ⌜e₀.Kept e⌝, fun u e => ⌜e₀.Steps e ∧ e₀.Stopped u e⌝⟩) e₁).down :=
  wp_of_triple spec ⟨rfl, sound.kept kept⟩ (fun _ _ rest => kept.trans rest)
    fun _ _ stopped => Engine.Stopped.after kept.1 kept.atop stopped

/-- Heap work followed by an expression. -/
theorem pushes_after (sound : e₀.Sound) (kept : e₀.Kept e₁)
    (spec : ⦃fun e => ⌜e = e₁ ∧ e₁.Sound⌝⦄ m
      ⦃post⟨fun _ e => ⌜e₁.Steps e ∧ e₁.Pushed e⌝, fun u e => ⌜e₁.Steps e ∧ e₁.Stopped u e⌝⟩⦄) :
    (wp⟦m⟧ (post⟨fun _ e => ⌜e₀.Steps e ∧ e₀.Pushed e⌝,
      fun u e => ⌜e₀.Steps e ∧ e₀.Stopped u e⌝⟩) e₁).down :=
  wp_of_triple spec ⟨rfl, sound.kept kept⟩
    (fun _ _ ⟨run, pushed⟩ => ⟨kept.1.trans run, kept.pushed pushed⟩)
    fun _ _ stopped => Engine.Stopped.after kept.1 kept.atop stopped

end Continuations

/-- The elements of an array literal are evaluated and appended one by one; the array, on the
stack, is all that changes. -/
theorem Guarded.evalElements_spec (g : d.Guarded) (id : ObjectId) (elems : List (Option Expr))
    (e₀ : Engine) :
    ⦃fun e => ⌜e = e₀ ∧ e₀.Sound⌝⦄ d.evalElements id elems
    ⦃post⟨fun _ e => ⌜e₀.Kept e⌝, fun u e => ⌜e₀.Steps e ∧ e₀.Stopped u e⌝⟩⦄ := by
  induction elems generalizing e₀ with
  | nil =>
    mvcgen [evalElements] with obtain ⟨rfl, sound⟩ := ‹_ = e₀ ∧ _›
    | vc1 => exact .refl _
  | cons el rest ih =>
    have pop := g.evalPop_spec
    -- the rest of the list runs from where the element was appended
    mvcgen [evalElements, pop] with obtain ⟨rfl, sound⟩ := ‹_ = e₀ ∧ _›
    | vc1 => exact ⟨trivial, sound⟩
    | vc2 =>
      obtain ⟨kept, live⟩ := ‹Engine.Kept _ _ ∧ _›
      exact kept_after sound (kept.appendElement sound id live) (ih _)
    | vc3 => exact And.intro
    | vc4 => exact kept_after sound ((Engine.Kept.refl _).appendElement sound id (by simp)) (ih _)

/-- The properties of an object literal are evaluated and written one by one. -/
theorem Guarded.evalProperties_spec (g : d.Guarded) (id : ObjectId) (props : List (String × Expr))
    (e₀ : Engine) :
    ⦃fun e => ⌜e = e₀ ∧ e₀.Sound⌝⦄ d.evalProperties id props
    ⦃post⟨fun _ e => ⌜e₀.Kept e⌝, fun u e => ⌜e₀.Steps e ∧ e₀.Stopped u e⌝⟩⦄ := by
  induction props generalizing e₀ with
  | nil =>
    mvcgen [evalProperties] with obtain ⟨rfl, sound⟩ := ‹_ = e₀ ∧ _›
    | vc1 => exact .refl _
  | cons prop rest ih =>
    have pop := g.evalPop_spec
    mvcgen [evalProperties, pop, objectPut_spec] with obtain ⟨rfl, sound⟩ := ‹_ = e₀ ∧ _›
    | vc1 => exact ⟨trivial, sound⟩
    | vc2 =>
      obtain ⟨kept, live⟩ := ‹Engine.Kept _ _ ∧ _›
      exact ⟨trivial, (sound.kept kept).safe, live⟩
    | vc3 =>
      obtain ⟨kept, -⟩ := ‹Engine.Kept _ _ ∧ _›
      exact fun e put => kept_after sound (kept.trans put) (ih e)
    | vc4 =>
      obtain ⟨kept, -⟩ := ‹Engine.Kept _ _ ∧ _›
      exact fun raised => raised.stops_after kept.1 kept.atop
    | vc5 => exact And.intro

/-- The arguments of a call are pushed in order, one value each. -/
theorem Guarded.evalArgs_spec (g : d.Guarded) (args : List Expr) (e₀ : Engine) :
    ⦃fun e => ⌜e = e₀ ∧ e₀.Sound⌝⦄ d.evalArgs args
    ⦃post⟨fun _ e => ⌜e₀.Steps e ∧ e₀.Stacked args.length e⌝,
      fun u e => ⌜e₀.Steps e ∧ e₀.Stopped u e⌝⟩⦄ := by
  induction args generalizing e₀ with
  | nil =>
    mvcgen [evalArgs] with obtain ⟨rfl, sound⟩ := ‹_ = e₀ ∧ _›
    | vc1 => exact ⟨.refl _, .refl _⟩
  | cons x rest ih =>
    have eval := g.evalExpr
    mvcgen [evalArgs, eval] with obtain ⟨rfl, sound⟩ := ‹_ = e₀ ∧ _›
    | vc1 => exact ⟨trivial, sound⟩
    | vc2 =>
      -- the other arguments are pushed above the first
      intro e run pushed
      exact wp_of_triple (ih e) ⟨rfl, sound.of_above run pushed.above⟩
        (fun _ _ rest => ⟨run.trans rest.1, pushed.cons rest.2⟩)
        fun _ _ stopped => Engine.Stopped.after run pushed.atop stopped
    | vc3 => exact And.intro

/-- A comma expression keeps the value of its last operand only. -/
theorem Guarded.evalSequence_spec (g : d.Guarded) (es : List Expr) (e₀ : Engine) :
    ⦃fun e => ⌜e = e₀ ∧ e₀.Sound⌝⦄ d.evalSequence es
    ⦃post⟨fun _ e => ⌜e₀.Steps e ∧ e₀.Pushed e⌝, fun u e => ⌜e₀.Steps e ∧ e₀.Stopped u e⌝⟩⦄ := by
  induction es generalizing e₀ with
  | nil =>
    mvcgen [evalSequence, pushValue] with obtain ⟨rfl, sound⟩ := ‹_ = e₀ ∧ _›
    | vc1 => exact sound.safe.push (.refl _) (by simp)
  | cons x rest ih =>
    cases rest with
    | nil => exact g.evalExpr x e₀
    | cons y ys =>
      have pop := g.evalPop_spec
      mvcgen [evalSequence, pop] with obtain ⟨rfl, sound⟩ := ‹_ = e₀ ∧ _›
      | vc1 => exact ⟨trivial, sound⟩
      | vc2 => exact fun e kept _ => pushes_after sound kept (ih e)
      | vc3 => exact And.intro

/-- `delete` pushes whether the property is gone. -/
theorem Guarded.evalDelete_spec (g : d.Guarded) (target : Expr) (e₀ : Engine) :
    ⦃fun e => ⌜e = e₀ ∧ e₀.Sound⌝⦄ d.evalDelete target
    ⦃post⟨fun _ e => ⌜e₀.Steps e ∧ e₀.Pushed e⌝, fun u e => ⌜e₀.Steps e ∧ e₀.Stopped u e⌝⟩⦄ := by
  have eval := g.evalExpr
  have pop := g.evalPop_spec
  cases target
  case member obj name =>
    mvcgen [evalDelete, pop, deleteProperty_spec] with obtain ⟨rfl, sound⟩ := ‹_ = e₀ ∧ _›
    | vc1 => exact ⟨trivial, sound⟩
    | vc2 =>
      obtain ⟨kept, -⟩ := ‹Engine.Kept _ _ ∧ _›
      exact ⟨trivial, (sound.kept kept).safe⟩
    | vc3 =>
      obtain ⟨kept, -⟩ := ‹Engine.Kept _ _ ∧ _›
      exact fun run pushed => ⟨kept.1.trans run, kept.pushed pushed⟩
    | vc4 =>
      obtain ⟨kept, -⟩ := ‹Engine.Kept _ _ ∧ _›
      exact fun raised => raised.stops_after kept.1 kept.atop
    | vc5 => exact And.intro
  case index obj key =>
    mvcgen [evalDelete, eval, pop, popValue_spec, deleteProperty_spec] with
      obtain ⟨rfl, sound⟩ := ‹_ = e₀ ∧ _›
    | vc1 => exact ⟨trivial, sound⟩
    | vc2 =>
      obtain ⟨run, pushed⟩ := ‹Engine.Steps _ _ ∧ Engine.Pushed _ _›
      exact ⟨trivial, sound.of_above run pushed.above⟩
    | vc3 =>
      obtain ⟨run, pushed⟩ := ‹Engine.Steps _ _ ∧ Engine.Pushed _ _›
      obtain ⟨kept, -⟩ := ‹Engine.Kept _ _ ∧ _›
      exact ⟨trivial, (pushed.kept_pop sound run kept).1⟩
    | vc4 =>
      rename_i target _
      obtain ⟨-, rfl⟩ := target
      obtain ⟨run, pushed⟩ := ‹Engine.Steps _ _ ∧ Engine.Pushed _ _›
      obtain ⟨kept, -⟩ := ‹Engine.Kept _ _ ∧ _›
      exact ⟨trivial, (sound.kept (pushed.kept_pop sound run kept).2.1).safe⟩
    | vc5 =>
      rename_i target _ _ _
      obtain ⟨-, rfl⟩ := target
      obtain ⟨run, pushed⟩ := ‹Engine.Steps _ _ ∧ Engine.Pushed _ _›
      obtain ⟨kept, -⟩ := ‹Engine.Kept _ _ ∧ _›
      have popped := (pushed.kept_pop sound run kept).2.1
      exact fun run' pushed' => ⟨popped.1.trans run', popped.pushed pushed'⟩
    | vc6 =>
      rename_i target _ _ _
      obtain ⟨-, rfl⟩ := target
      obtain ⟨run, pushed⟩ := ‹Engine.Steps _ _ ∧ Engine.Pushed _ _›
      obtain ⟨kept, -⟩ := ‹Engine.Kept _ _ ∧ _›
      have popped := (pushed.kept_pop sound run kept).2.1
      exact fun raised => raised.stops_after popped.1 popped.atop
    | vc7 =>
      obtain ⟨run, pushed⟩ := ‹Engine.Steps _ _ ∧ Engine.Pushed _ _›
      exact fun run' stopped => Engine.Stopped.after run pushed.atop ⟨run', stopped⟩
    | vc8 => exact And.intro
  case ident name =>
    mvcgen [evalDelete, pushValue] with obtain ⟨rfl, sound⟩ := ‹_ = e₀ ∧ _›
    | vc1 => exact sound.safe.push (.refl _) (by simp)
  -- anything else is evaluated for its effects and counts as deleted
  all_goals
    mvcgen [evalDelete, pop, pushValue] with obtain ⟨rfl, sound⟩ := ‹_ = e₀ ∧ _›
    | vc1 => exact ⟨trivial, sound⟩
    | vc2 =>
      obtain ⟨kept, -⟩ := ‹Engine.Kept _ _ ∧ _›
      exact sound.safe.push kept (by simp)
    | vc3 => exact And.intro

/-- A prefix operator pushes one value. -/
theorem Guarded.evalUnary_spec (g : d.Guarded) (op : UnaryOp) (operand : Expr) (e₀ : Engine) :
    ⦃fun e => ⌜e = e₀ ∧ e₀.Sound⌝⦄ d.evalUnary op operand
    ⦃post⟨fun _ e => ⌜e₀.Steps e ∧ e₀.Pushed e⌝, fun u e => ⌜e₀.Steps e ∧ e₀.Stopped u e⌝⟩⦄ := by
  have pop := g.evalPop_spec
  cases op
  case delete => exact g.evalDelete_spec operand e₀
  case typeOf =>
    mvcgen [evalUnary, pop, pushValue] with obtain ⟨rfl, sound⟩ := ‹_ = e₀ ∧ _›
    | vc1 => exact sound.safe.push (.refl _) (by simp)
    | vc2 => exact ⟨trivial, sound⟩
    | vc3 =>
      obtain ⟨kept, -⟩ := ‹Engine.Kept _ _ ∧ _›
      exact sound.safe.push kept (by simp)
    | vc4 => exact And.intro
  -- the other operators push a primitive value computed from the operand
  all_goals
    mvcgen [evalUnary, pop, pushValue] with obtain ⟨rfl, sound⟩ := ‹_ = e₀ ∧ _›
    | vc1 => exact ⟨trivial, sound⟩
    | vc2 =>
      obtain ⟨kept, -⟩ := ‹Engine.Kept _ _ ∧ _›
      exact sound.safe.push kept (by simp)
    | vc3 => exact And.intro

/-- A compound assignment pushes the operator's result over the placed target. -/
theorem Guarded.evalCompound_spec (g : d.Guarded) (ref : Reference) (op : BinaryOp) (value : Expr)
    (e₀ : Engine) :
    ⦃fun e => ⌜e = e₀ ∧ e₀.Sound⌝⦄ d.evalCompound ref op value
    ⦃post⟨fun _ e => ⌜e₀.Steps e ∧ e₀.Pushed e⌝, fun u e => ⌜e₀.Steps e ∧ e₀.Stopped u e⌝⟩⦄ := by
  have eval := g.evalExpr
  mvcgen [evalCompound, pushValue, eval, Reference.read_spec, popValue_spec, binaryOp_spec] with
    obtain ⟨rfl, sound⟩ := ‹_ = e₀ ∧ _›
  | vc1 => exact ⟨trivial, sound.safe⟩
  | vc2 =>
    obtain ⟨rfl, live⟩ := ‹_ = _ ∧ Heap.Live _ _›
    exact ⟨trivial, sound.of_above (Engine.Step.push sound.safe live).steps (Engine.pushed_push _ _).above⟩
  | vc3 =>
    obtain ⟨rfl, live⟩ := ‹_ = _ ∧ Heap.Live _ _›
    obtain ⟨run, pushed⟩ := ‹Engine.Steps _ _ ∧ _›
    exact ⟨trivial, (pushed.operands sound live run).1⟩
  | vc4 =>
    rename _ = _ ∧ _ = _ => right
    obtain ⟨-, rfl⟩ := right
    obtain ⟨rfl, live⟩ := ‹_ = _ ∧ Heap.Live _ _›
    obtain ⟨run, pushed⟩ := ‹Engine.Steps _ _ ∧ _›
    exact ⟨trivial, (pushed.operands sound live run).2.1⟩
  | vc5 =>
    rename _ = _ ∧ _ = _ => right
    obtain ⟨-, rfl⟩ := right
    rename _ = _ ∧ _ = _ => left
    obtain ⟨-, rfl⟩ := left
    obtain ⟨rfl, live⟩ := ‹_ = _ ∧ Heap.Live _ _›
    obtain ⟨run, pushed⟩ := ‹Engine.Steps _ _ ∧ _›
    exact ⟨trivial, (sound.kept (pushed.operands sound live run).2.2).safe⟩
  | vc6 =>
    rename _ = _ ∧ Heap.Live _ _ => result
    obtain ⟨rfl, result⟩ := result
    rename _ = _ ∧ _ = _ => right
    obtain ⟨-, rfl⟩ := right
    rename _ = _ ∧ _ = _ => left
    obtain ⟨-, rfl⟩ := left
    obtain ⟨rfl, live⟩ := ‹_ = _ ∧ Heap.Live _ _›
    obtain ⟨run, pushed⟩ := ‹Engine.Steps _ _ ∧ _›
    exact sound.safe.push (pushed.operands sound live run).2.2 result
  | vc7 =>
    rename _ = _ ∧ _ = _ => right
    obtain ⟨-, rfl⟩ := right
    rename _ = _ ∧ _ = _ => left
    obtain ⟨-, rfl⟩ := left
    obtain ⟨rfl, live⟩ := ‹_ = _ ∧ Heap.Live _ _›
    obtain ⟨run, pushed⟩ := ‹Engine.Steps _ _ ∧ _›
    have kept := (pushed.operands sound live run).2.2
    exact fun raised => raised.stops_after kept.1 kept.atop
  | vc8 =>
    obtain ⟨rfl, live⟩ := ‹_ = _ ∧ Heap.Live _ _›
    exact fun run stopped => Engine.Stopped.after (Engine.Step.push sound.safe live).steps
      (Engine.pushed_push _ _).atop ⟨run, stopped⟩
  | vc9 => exact fun raised => raised.stops

/-- The end of an assignment: the value on top of the placed target is written to it, the stack
cut back to where the assignment started and the value pushed there. -/
theorem storeTop_spec (ref : Reference) (e₀ : Engine) :
    ⦃fun e => ⌜e₀.Sound ∧ ∃ e₁, e₀.Steps e₁ ∧ ref.Placed e₀ e₁ ∧ e₁.Steps e ∧ e₁.Pushed e⌝⦄
    storeTop e₀.stack.size ref
    ⦃post⟨fun _ e => ⌜e₀.Steps e ∧ e₀.Pushed e⌝, fun u e => ⌜e₀.Steps e ∧ e₀.Stopped u e⌝⟩⦄ := by
  mvcgen [storeTop, topValue, pushValue, Reference.write_spec] with
    obtain ⟨sound, e₁, run, placed, run', pushed⟩ := ‹_ ∧ ∃ _, _›
  | vc1 =>
    have safe := (run.trans run').safe' sound.safe
    exact ⟨trivial, safe, safe.live_back⟩
  | vc2 => exact placed.stored sound run run' pushed ‹_›
  | vc3 => exact fun raised => raised.stops_after (run.trans run') (placed.atop.trans pushed.atop)

/-- An assignment pushes the value assigned. -/
theorem Guarded.evalAssign_spec (g : d.Guarded) (op : Option BinaryOp) (target value : Expr)
    (e₀ : Engine) :
    ⦃fun e => ⌜e = e₀ ∧ e₀.Sound⌝⦄ d.evalAssign op target value
    ⦃post⟨fun _ e => ⌜e₀.Steps e ∧ e₀.Pushed e⌝, fun u e => ⌜e₀.Steps e ∧ e₀.Stopped u e⌝⟩⦄ := by
  have eval := g.evalExpr
  have ref := g.evalRef_spec
  have compound := g.evalCompound_spec
  mvcgen [evalAssign, stackSize, eval, ref, compound, storeTop_spec] with
    obtain ⟨rfl, sound⟩ := ‹_ = e₀ ∧ _›
  | vc1 => exact ⟨trivial, sound⟩
  | vc2 | vc7 =>
    obtain ⟨run, placed⟩ := ‹Engine.Steps _ _ ∧ Reference.Placed _ _ _›
    exact ⟨trivial, sound.of_above run placed.above⟩
  | vc3 | vc8 =>
    obtain ⟨run, placed⟩ := ‹Engine.Steps _ _ ∧ Reference.Placed _ _ _›
    obtain ⟨run', pushed⟩ := ‹Engine.Steps _ _ ∧ Engine.Pushed _ _›
    exact ⟨sound, _, run, placed, run', pushed⟩
  | vc4 | vc5 | vc9 | vc10 | vc12 => exact And.intro
  | vc6 | vc11 =>
    obtain ⟨run, placed⟩ := ‹Engine.Steps _ _ ∧ Reference.Placed _ _ _›
    exact fun run' stopped => Engine.Stopped.after run placed.atop ⟨run', stopped⟩

/-- An increment or decrement pushes a number. -/
theorem Guarded.evalUpdate_spec (g : d.Guarded) (inc pre : Bool) (target : Expr) (e₀ : Engine) :
    ⦃fun e => ⌜e = e₀ ∧ e₀.Sound⌝⦄ d.evalUpdate inc pre target
    ⦃post⟨fun _ e => ⌜e₀.Steps e ∧ e₀.Pushed e⌝, fun u e => ⌜e₀.Steps e ∧ e₀.Stopped u e⌝⟩⦄ := by
  have ref := g.evalRef_spec
  mvcgen [evalUpdate, stackSize, pushValue, ref, Reference.read_spec, Reference.write_spec] with
    obtain ⟨rfl, sound⟩ := ‹_ = e₀ ∧ _›
  | vc1 => exact ⟨trivial, sound⟩
  | vc2 =>
    obtain ⟨run, -⟩ := ‹Engine.Steps _ _ ∧ Reference.Placed _ _ _›
    exact ⟨trivial, run.safe' sound.safe⟩
  | vc3 =>
    obtain ⟨rfl, -⟩ := ‹_ = _ ∧ Heap.Live _ _›
    obtain ⟨run, -⟩ := ‹Engine.Steps _ _ ∧ Reference.Placed _ _ _›
    exact ⟨trivial, run.safe' sound.safe, by simp⟩
  | vc4 =>
    obtain ⟨rfl, -⟩ := ‹_ = _ ∧ Heap.Live _ _›
    obtain ⟨run, placed⟩ := ‹Engine.Steps _ _ ∧ Reference.Placed _ _ _›
    have wrote := ‹Engine.Kept _ _›
    exact Engine.Steps.cut_push sound (run.trans wrote.1) (wrote.2.1.trans placed.control)
      (by rw [wrote.2.2, placed.take]) (by simp)
  | vc5 =>
    obtain ⟨rfl, -⟩ := ‹_ = _ ∧ Heap.Live _ _›
    obtain ⟨run, placed⟩ := ‹Engine.Steps _ _ ∧ Reference.Placed _ _ _›
    exact fun raised => raised.stops_after run placed.atop
  | vc6 =>
    obtain ⟨run, placed⟩ := ‹Engine.Steps _ _ ∧ Reference.Placed _ _ _›
    exact fun raised => raised.stops_after run placed.atop
  | vc7 => exact And.intro

/-- The callee and the receiver of a call: two values pushed. -/
theorem Guarded.evalCallee_spec (g : d.Guarded) (callee : Expr) (e₀ : Engine) :
    ⦃fun e => ⌜e = e₀ ∧ e₀.Sound⌝⦄ d.evalCallee callee
    ⦃post⟨fun _ e => ⌜e₀.Steps e ∧ e₀.Stacked 2 e⌝, fun u e => ⌜e₀.Steps e ∧ e₀.Stopped u e⌝⟩⦄ := by
  have eval := g.evalExpr
  have pop := g.evalPop_spec
  cases callee
  case member obj name =>
    mvcgen [evalCallee, stackSize, topValue, eval, getProperty_spec] with
      obtain ⟨rfl, sound⟩ := ‹_ = e₀ ∧ _›
    | vc1 => exact ⟨trivial, sound⟩
    | vc2 =>
      obtain ⟨run, -⟩ := ‹Engine.Steps _ _ ∧ Engine.Pushed _ _›
      exact ⟨trivial, run.safe' sound.safe⟩
    | vc3 =>
      obtain ⟨rfl, live⟩ := ‹_ = _ ∧ Heap.Live _ _›
      obtain ⟨run, pushed⟩ := ‹Engine.Steps _ _ ∧ Engine.Pushed _ _›
      exact pushed.insertCallee sound run live
    | vc4 =>
      obtain ⟨run, pushed⟩ := ‹Engine.Steps _ _ ∧ Engine.Pushed _ _›
      exact fun raised => raised.stops_after run pushed.atop
    | vc5 => exact And.intro
  case index obj key =>
    mvcgen [evalCallee, stackSize, topValue, eval, pop, getProperty_spec] with
      obtain ⟨rfl, sound⟩ := ‹_ = e₀ ∧ _›
    | vc1 => exact ⟨trivial, sound⟩
    | vc2 =>
      obtain ⟨run, pushed⟩ := ‹Engine.Steps _ _ ∧ Engine.Pushed _ _›
      exact ⟨trivial, sound.of_above run pushed.above⟩
    | vc3 =>
      obtain ⟨run, -⟩ := ‹Engine.Steps _ _ ∧ Engine.Pushed _ _›
      obtain ⟨kept, -⟩ := ‹Engine.Kept _ _ ∧ _›
      exact ⟨trivial, (run.trans kept.1).safe' sound.safe⟩
    | vc4 =>
      obtain ⟨rfl, live⟩ := ‹_ = _ ∧ Heap.Live _ _›
      obtain ⟨run, pushed⟩ := ‹Engine.Steps _ _ ∧ Engine.Pushed _ _›
      obtain ⟨kept, -⟩ := ‹Engine.Kept _ _ ∧ _›
      exact (pushed.kept kept).insertCallee sound (run.trans kept.1) live
    | vc5 =>
      obtain ⟨run, pushed⟩ := ‹Engine.Steps _ _ ∧ Engine.Pushed _ _›
      obtain ⟨kept, -⟩ := ‹Engine.Kept _ _ ∧ _›
      exact fun raised => raised.stops_after (run.trans kept.1) (pushed.kept kept).atop
    | vc6 =>
      obtain ⟨run, pushed⟩ := ‹Engine.Steps _ _ ∧ Engine.Pushed _ _›
      exact fun run' stopped => Engine.Stopped.after run pushed.atop ⟨run', stopped⟩
    | vc7 => exact And.intro
  all_goals
    -- any other callee is called with an undefined receiver
    mvcgen [evalCallee, pushValue, eval] with obtain ⟨rfl, sound⟩ := ‹_ = e₀ ∧ _›
    | vc1 => exact ⟨trivial, sound⟩
    | vc2 =>
      obtain ⟨run, pushed⟩ := ‹Engine.Steps _ _ ∧ Engine.Pushed _ _›
      exact ⟨run.tail (.push (run.safe' sound.safe) (by simp)),
        pushed.cons (Engine.pushed_push _ _).stacked⟩
    | vc3 => exact And.intro

/-- A call pushes its result: the group of callee, receiver and arguments it pushes is replaced
by the result, or removed when the callee is not a function or the call throws. -/
theorem Guarded.evalCall_spec (g : d.Guarded) (callee : Expr) (args : List Expr) (e₀ : Engine) :
    ⦃fun e => ⌜e = e₀ ∧ e₀.Sound⌝⦄ d.evalCall callee args
    ⦃post⟨fun _ e => ⌜e₀.Steps e ∧ e₀.Pushed e⌝, fun u e => ⌜e₀.Steps e ∧ e₀.Stopped u e⌝⟩⦄ := by
  have pushCallee := g.evalCallee_spec
  have pushArgs := g.evalArgs_spec
  have invoke := g.invoke
  mvcgen [evalCall, stackSize, pushCallee, pushArgs, invoke, throwNew_spec] with
    obtain ⟨rfl, sound⟩ := ‹_ = e₀ ∧ _›
  | vc1 => exact ⟨trivial, sound⟩
  | vc2 =>
    obtain ⟨run, stacked⟩ := ‹Engine.Steps _ _ ∧ Engine.Stacked _ 2 _›
    exact ⟨trivial, sound.of_above run stacked.above⟩
  -- once the arguments are pushed, the whole group is on the stack
  | vc3 =>
    obtain ⟨run, stacked⟩ :=
      Engine.Stacked.joined ‹_ ∧ Engine.Stacked _ 2 _› ‹_ ∧ Engine.Stacked _ (List.length _) _›
    exact ⟨trivial, (stacked.cut_off sound run).2.2⟩
  | vc7 =>
    obtain ⟨run, stacked⟩ :=
      Engine.Stacked.joined ‹_ ∧ Engine.Stacked _ 2 _› ‹_ ∧ Engine.Stacked _ (List.length _) _›
    have cut := stacked.cut_off sound run
    exact fun raised => raised.stops_after cut.1 cut.2.1
  | vc8 =>
    obtain ⟨run, stacked⟩ :=
      Engine.Stacked.joined ‹_ ∧ Engine.Stacked _ 2 _› ‹_ ∧ Engine.Stacked _ (List.length _) _›
    exact ⟨trivial, sound.of_above run stacked.above, stacked.group sound (Nat.add_comm _ _)⟩
  | vc9 =>
    obtain ⟨run, stacked⟩ :=
      Engine.Stacked.joined ‹_ ∧ Engine.Stacked _ 2 _› ‹_ ∧ Engine.Stacked _ (List.length _) _›
    exact fun run' replaced => ⟨run.trans run', stacked.replaced (Nat.add_comm _ _) replaced⟩
  | vc10 =>
    obtain ⟨run, stacked⟩ :=
      Engine.Stacked.joined ‹_ ∧ Engine.Stacked _ 2 _› ‹_ ∧ Engine.Stacked _ (List.length _) _›
    exact fun run' removed => ⟨run.trans run', stacked.removed (Nat.add_comm _ _) removed⟩
  | vc11 =>
    obtain ⟨run, stacked⟩ := ‹Engine.Steps _ _ ∧ Engine.Stacked _ 2 _›
    exact fun run' stopped => Engine.Stopped.after run stacked.atop ⟨run', stopped⟩
  | vc12 => exact And.intro

/-- A construction pushes its result, as a call does. -/
theorem Guarded.evalNew_spec (g : d.Guarded) (callee : Expr) (args : List Expr) (e₀ : Engine) :
    ⦃fun e => ⌜e = e₀ ∧ e₀.Sound⌝⦄ d.evalNew callee args
    ⦃post⟨fun _ e => ⌜e₀.Steps e ∧ e₀.Pushed e⌝, fun u e => ⌜e₀.Steps e ∧ e₀.Stopped u e⌝⟩⦄ := by
  have eval := g.evalExpr
  have pushArgs := g.evalArgs_spec
  have invoke := g.invoke
  mvcgen [evalNew, stackSize, pushValue, eval, pushArgs, invoke, throwNew_spec] with
    obtain ⟨rfl, sound⟩ := ‹_ = e₀ ∧ _›
  | vc1 => exact ⟨trivial, sound⟩
  | vc2 =>
    obtain ⟨run, pushed⟩ := ‹Engine.Steps _ _ ∧ Engine.Pushed _ _›
    have run := run.tail (.push (run.safe' sound.safe) Heap.live_undefined)
    exact ⟨trivial, sound.of_above run (pushed.above.trans (Engine.pushed_push _ _).above)⟩
  -- once the arguments are pushed, the whole group is on the stack
  | vc3 =>
    obtain ⟨run, stacked⟩ :=
      Engine.Pushed.construction sound ‹_ ∧ Engine.Pushed _ _› ‹_ ∧ Engine.Stacked _ _ _›
    exact ⟨trivial, (stacked.cut_off sound run).2.2⟩
  | vc7 =>
    obtain ⟨run, stacked⟩ :=
      Engine.Pushed.construction sound ‹_ ∧ Engine.Pushed _ _› ‹_ ∧ Engine.Stacked _ _ _›
    have cut := stacked.cut_off sound run
    exact fun raised => raised.stops_after cut.1 cut.2.1
  | vc8 =>
    obtain ⟨run, stacked⟩ :=
      Engine.Pushed.construction sound ‹_ ∧ Engine.Pushed _ _› ‹_ ∧ Engine.Stacked _ _ _›
    exact ⟨trivial, sound.of_above run stacked.above, stacked.group sound rfl⟩
  | vc9 =>
    obtain ⟨run, stacked⟩ :=
      Engine.Pushed.construction sound ‹_ ∧ Engine.Pushed _ _› ‹_ ∧ Engine.Stacked _ _ _›
    exact fun run' replaced => ⟨run.trans run', stacked.replaced rfl replaced⟩
  | vc10 =>
    obtain ⟨run, stacked⟩ :=
      Engine.Pushed.construction sound ‹_ ∧ Engine.Pushed _ _› ‹_ ∧ Engine.Stacked _ _ _›
    exact fun run' removed => ⟨run.trans run', stacked.removed rfl removed⟩
  | vc11 =>
    obtain ⟨run, pushed⟩ := ‹Engine.Steps _ _ ∧ Engine.Pushed _ _›
    have run := run.tail (.push (run.safe' sound.safe) Heap.live_undefined)
    exact fun run' stopped => Engine.Stopped.after run
      (pushed.atop.trans (Engine.pushed_push _ _).atop) ⟨run', stopped⟩
  | vc12 => exact And.intro

/-- Two operands are evaluated and taken back off the stack: heap work only. -/
theorem Guarded.evalOperands_spec (g : d.Guarded) (first second : Expr) (e₀ : Engine) :
    ⦃fun e => ⌜e = e₀ ∧ e₀.Sound⌝⦄ d.evalOperands first second
    ⦃post⟨fun _ e => ⌜e₀.Kept e⌝, fun u e => ⌜e₀.Steps e ∧ e₀.Stopped u e⌝⟩⦄ := by
  have eval := g.evalExpr
  mvcgen [evalOperands, eval, popValue_spec] with obtain ⟨rfl, sound⟩ := ‹_ = e₀ ∧ _›
  | vc1 => exact ⟨trivial, sound⟩
  | vc2 =>
    obtain ⟨run, pushed⟩ := ‹Engine.Steps _ _ ∧ Engine.Pushed _ _›
    exact ⟨trivial, sound.of_above run pushed.above⟩
  -- the second operand comes off first, then the first
  | vc3 => exact ⟨trivial, (Engine.Pushed.popped_two sound ‹_› ‹_›).1⟩
  | vc4 =>
    rename _ = _ ∧ _ = _ => second
    obtain ⟨-, rfl⟩ := second
    exact ⟨trivial, (Engine.Pushed.popped_two sound ‹_› ‹_›).2.1⟩
  | vc5 =>
    rename _ = _ ∧ _ = _ => second
    obtain ⟨-, rfl⟩ := second
    rename _ = _ ∧ _ = _ => first
    obtain ⟨-, rfl⟩ := first
    exact (Engine.Pushed.popped_two sound ‹_› ‹_›).2.2
  | vc6 =>
    obtain ⟨run, pushed⟩ := ‹Engine.Steps _ _ ∧ Engine.Pushed _ _›
    exact fun run' stopped => Engine.Stopped.after run pushed.atop ⟨run', stopped⟩
  | vc7 => exact And.intro

/-- One step of evaluating an expression pushes exactly one value, whatever the expression. -/
theorem Guarded.evalExprKind_spec (g : d.Guarded) (x : Expr) (e₀ : Engine) :
    ⦃fun e => ⌜e = e₀ ∧ e₀.Sound⌝⦄ d.evalExprKind x
    ⦃post⟨fun _ e => ⌜e₀.Steps e ∧ e₀.Pushed e⌝, fun u e => ⌜e₀.Steps e ∧ e₀.Stopped u e⌝⟩⦄ := by
  have eval := g.evalExpr
  have pop := g.evalPop_spec
  cases x with
  | number | string | bool | null =>
    mvcgen [evalExprKind, pushValue] with obtain ⟨rfl, sound⟩ := ‹_ = e₀ ∧ _›
    | vc1 => exact sound.safe.push (.refl _) (by simp)
  | this =>
    mvcgen [evalExprKind, pushValue] with obtain ⟨rfl, sound⟩ := ‹_ = e₀ ∧ _›
    | vc1 => exact sound.safe.push (.refl _) sound.safe.live_thisValue
  | ident name =>
    mvcgen [evalExprKind, pushValue, throwNew_spec] with obtain ⟨rfl, sound⟩ := ‹_ = e₀ ∧ _›
    | vc1 => exact sound.safe.push (.refl _) (sound.safe.live_lookupVar ‹_›)
    | vc2 => exact ⟨trivial, sound.safe⟩
    | vc3 => exact False.elim
    | vc4 => exact fun raised => raised.stops
  | array elems =>
    have elements := g.evalElements_spec
    mvcgen [evalExprKind, pushValue, allocObject_spec, elements] with
      obtain ⟨rfl, sound⟩ := ‹_ = e₀ ∧ _›
    | vc1 =>
      exact ⟨trivial, sound.safe, .bare (by simp) (by simp) (by simp [HeapObject.references, PropertyTable.values])⟩
    -- the elements are appended to the fresh array, pushed first
    | vc2 =>
      obtain ⟨kept, valid⟩ := ‹Engine.Kept _ _ ∧ _›
      have pushed := sound.safe.push kept (Heap.live_object.mpr valid)
      exact ⟨trivial, sound.of_above pushed.1 pushed.2.above⟩
    | vc3 =>
      obtain ⟨kept, valid⟩ := ‹Engine.Kept _ _ ∧ _›
      have pushed := sound.safe.push kept (Heap.live_object.mpr valid)
      exact fun appended => ⟨pushed.1.trans appended.1, pushed.2.kept appended⟩
    | vc4 =>
      obtain ⟨kept, valid⟩ := ‹Engine.Kept _ _ ∧ _›
      have pushed := sound.safe.push kept (Heap.live_object.mpr valid)
      exact fun run stopped => Engine.Stopped.after pushed.1 pushed.2.atop ⟨run, stopped⟩
  | object props =>
    have properties := g.evalProperties_spec
    mvcgen [evalExprKind, pushValue, allocObject_spec, properties] with
      obtain ⟨rfl, sound⟩ := ‹_ = e₀ ∧ _›
    | vc1 =>
      exact ⟨trivial, sound.safe, .bare (by simp) (by simp) (by simp [HeapObject.references, PropertyTable.values])⟩
    -- the properties are written to the fresh object, pushed first
    | vc2 =>
      obtain ⟨kept, valid⟩ := ‹Engine.Kept _ _ ∧ _›
      have pushed := sound.safe.push kept (Heap.live_object.mpr valid)
      exact ⟨trivial, sound.of_above pushed.1 pushed.2.above⟩
    | vc3 =>
      obtain ⟨kept, valid⟩ := ‹Engine.Kept _ _ ∧ _›
      have pushed := sound.safe.push kept (Heap.live_object.mpr valid)
      exact fun written => ⟨pushed.1.trans written.1, pushed.2.kept written⟩
    | vc4 =>
      obtain ⟨kept, valid⟩ := ‹Engine.Kept _ _ ∧ _›
      have pushed := sound.safe.push kept (Heap.live_object.mpr valid)
      exact fun run stopped => Engine.Stopped.after pushed.1 pushed.2.atop ⟨run, stopped⟩
  | function defn =>
    mvcgen [evalExprKind, pushValue, makeClosure_spec] with obtain ⟨rfl, sound⟩ := ‹_ = e₀ ∧ _›
    | vc1 => exact ⟨trivial, sound.safe⟩
    | vc2 =>
      obtain ⟨kept, valid⟩ := ‹Engine.Kept _ _ ∧ _›
      exact sound.safe.push kept (Heap.live_object.mpr valid)
  | unary op operand => exact g.evalUnary_spec op operand e₀
  | update inc pre target => exact g.evalUpdate_spec inc pre target e₀
  | binary op l r =>
    have operands := g.evalOperands_spec
    mvcgen [evalExprKind, pushValue, operands, binaryOp_spec] with
      obtain ⟨rfl, sound⟩ := ‹_ = e₀ ∧ _›
    | vc1 => exact ⟨trivial, sound⟩
    | vc2 => exact ⟨trivial, (sound.kept ‹_›).safe⟩
    | vc3 =>
      obtain ⟨rfl, result⟩ := ‹_ = _ ∧ Heap.Live _ _›
      exact sound.safe.push ‹_› result
    | vc4 =>
      have kept := ‹Engine.Kept _ _›
      exact fun raised => raised.stops_after kept.1 kept.atop
    | vc5 => exact And.intro
  | logical op l r =>
    -- the right operand, when it runs, runs from where the left one was popped again
    have left := g.evalExpr l
    mvcgen [evalExprKind, topValue, left, popValue_spec] with obtain ⟨rfl, sound⟩ := ‹_ = e₀ ∧ _›
    | vc1 => exact ⟨trivial, sound⟩
    | vc2 =>
      obtain ⟨run, pushed⟩ := ‹Engine.Steps _ _ ∧ Engine.Pushed _ _›
      exact ⟨trivial, pushed.nonempty sound⟩
    | vc3 =>
      obtain ⟨run, pushed⟩ := ‹Engine.Steps _ _ ∧ Engine.Pushed _ _›
      rintro e - rfl
      exact pushes_after sound (pushed.popped sound run).1 (g.evalExpr r _)
    | vc4 => exact ‹Engine.Steps _ _ ∧ Engine.Pushed _ _›
    | vc5 => exact And.intro
  | assign op target value => exact g.evalAssign_spec op target value e₀
  | conditional test yes no =>
    mvcgen [evalExprKind, pop] with obtain ⟨rfl, sound⟩ := ‹_ = e₀ ∧ _›
    | vc1 => exact ⟨trivial, sound⟩
    | vc2 => exact fun e kept _ => pushes_after sound kept (g.evalExpr _ e)
    | vc3 => exact And.intro
  | member obj name =>
    mvcgen [evalExprKind, pushValue, pop, getProperty_spec] with obtain ⟨rfl, sound⟩ := ‹_ = e₀ ∧ _›
    | vc1 => exact ⟨trivial, sound⟩
    | vc2 =>
      obtain ⟨kept, -⟩ := ‹Engine.Kept _ _ ∧ _›
      exact ⟨trivial, (sound.kept kept).safe⟩
    | vc3 =>
      obtain ⟨rfl, live⟩ := ‹_ = _ ∧ Heap.Live _ _›
      obtain ⟨kept, -⟩ := ‹Engine.Kept _ _ ∧ _›
      exact sound.safe.push kept live
    | vc4 =>
      obtain ⟨kept, -⟩ := ‹Engine.Kept _ _ ∧ _›
      exact fun raised => raised.stops_after kept.1 kept.atop
    | vc5 => exact And.intro
  | index obj key =>
    have operands := g.evalOperands_spec
    mvcgen [evalExprKind, pushValue, operands, getProperty_spec] with
      obtain ⟨rfl, sound⟩ := ‹_ = e₀ ∧ _›
    | vc1 => exact ⟨trivial, sound⟩
    | vc2 => exact ⟨trivial, (sound.kept ‹_›).safe⟩
    | vc3 =>
      obtain ⟨rfl, live⟩ := ‹_ = _ ∧ Heap.Live _ _›
      exact sound.safe.push ‹_› live
    | vc4 =>
      have kept := ‹Engine.Kept _ _›
      exact fun raised => raised.stops_after kept.1 kept.atop
    | vc5 => exact And.intro
  | call callee args => exact g.evalCall_spec callee args e₀
  | new callee args => exact g.evalNew_spec callee args e₀
  | sequence es => exact g.evalSequence_spec es e₀

end Evaluator

end EmbedScript
