import Mathlib
import EmbedScript.Proofs.Natives
import EmbedScript.Proofs.Expressions

/-!
Calls keep their contract. A host function runs in a frame of its arguments: whatever its body
does through the stack interface, the values under the frame stay as they were, and the call
leaves the control state restored with one result on top, or throws. A closure runs its body in
a fresh scope and leaves its caller's stack as it found it, with the result on top. From these a
call replaces its group by its result or removes the group and throws, and the finalizer round
leaves the stack alone.
-/

namespace EmbedScript

open Std.Do Syntax

set_option mvcgen.warning false

section Arrays

variable {a b : Array Value} {n i : Nat}

theorem getElem?_take_eq : (a.take n)[i]? = if i < n then a[i]? else none := by
  simp only [Array.take_eq_extract, Array.getElem?_extract]
  by_cases below : i < n
  · by_cases inside : i < a.size
    · simp [below, inside]
    · simp [below, inside]
  · simp [below]

theorem take_eq_take (same : ∀ i < n, a[i]? = b[i]?) : a.take n = b.take n := by
  apply Array.ext_getElem?
  intro i
  rw [getElem?_take_eq, getElem?_take_eq]
  split
  · exact same i ‹_›
  · rfl

theorem take_pop (inside : n < a.size) : a.pop.take n = a.take n :=
  take_eq_take fun i below => by rw [Array.getElem?_pop]; simp; omega

end Arrays

/-! ### What a call keeps of its caller -/

namespace Engine

variable (e₀ : Engine)

/-- The engine `e` has the control state of `e₀` and its stack under `base`. -/
def Below (base : Nat) (e : Engine) : Prop :=
  e.control = e₀.control ∧ base ≤ e.stack.size ∧ e.stack.take base = e₀.stack.take base

/-- Where a called function leaves the engine: what lies under its call group as it was, the
control state restored, and its result on top. -/
def Returned (base : Nat) (e : Engine) : Prop :=
  e₀.Below base e ∧ base < e.stack.size

/-- Where a called function that stopped early leaves the engine: a thrown value is live and
what lies under the call group is as it was. -/
def Abandoned (base : Nat) : Unwind → Engine → Prop
  | .thrown v, e => e.heap.Live v ∧ e₀.Below base e
  | .exhausted, e => e.bottom ≤ e.stack.size

variable {e₀} {e₁ e : Engine} {base : Nat}

theorem Raised.abandoned {u : Unwind} (raised : e₀.Raised u e) (group : base ≤ e₀.stack.size) :
    e₀.Steps e ∧ e₀.Abandoned base u e := by
  obtain ⟨run, unwound, stack⟩ := raised
  cases u with
  | thrown v => exact ⟨run, unwound.1, unwound.2.1, stack ▸ group, by rw [stack]⟩
  | exhausted => exact ⟨run, unwound⟩

/-! ### Host frames -/

variable {arity : Arity}

theorem control_enterHost : (e.enterHost base arity).control =
    { e with bottom := base + 2, hostFrames := e.hostFrames.push (base + 1) }.control := by
  cases arity <;> rfl

@[simp] theorem heap_enterHost : (e.enterHost base arity).heap = e.heap := by
  cases arity <;> rfl

/-- Entering a host frame moves the engine by steps to a sound one whose frame starts above the
receiver, with the stack under the frame as it was. -/
theorem Sound.enterHost (sound : e.Sound) (group : base + 2 ≤ e.stack.size) (arity : Arity) :
    e.Steps (e.enterHost base arity) ∧ (e.enterHost base arity).Sound ∧
      ∀ i < base + 2, (e.enterHost base arity).stack[i]? = e.stack[i]? := by
  have entered : e.Step { e with bottom := base + 2, hostFrames := e.hostFrames.push (base + 1) } :=
    .retune sound.safe _ _ _ _ _
  have sound₁ : Sound { e with bottom := base + 2, hostFrames := e.hostFrames.push (base + 1) } :=
    ⟨sound.safe.step entered, group⟩
  cases arity with
  | variadic => exact ⟨entered.steps, sound₁, fun _ _ => rfl⟩
  | fixed k =>
    -- the frame is cut or padded to `k` values above the receiver
    have resized := entered.steps.tail (.resizeFrame sound₁.safe k)
    have framed := sound₁.framed_resizeFrame k
    exact ⟨resized, ⟨resized.safe' sound.safe, framed.2.1⟩, framed.2.2⟩

/-- Leaving a host frame is a step that gives the caller its control state back, and the stack
under the call group as it was before the frame was entered. -/
theorem Framed.leaveHost (framed : (e₀.enterHost base arity).Framed e) (safe : e.Safe)
    (entered : ∀ i < base + 2, (e₀.enterHost base arity).stack[i]? = e₀.stack[i]?) :
    e.Step { e with hostFrames := e.hostFrames.pop, bottom := e₀.bottom } ∧
      e₀.Below base { e with hostFrames := e.hostFrames.pop, bottom := e₀.bottom } := by
  refine ⟨.retune safe _ _ _ _ _, ?_⟩
  obtain ⟨control, inside, kept⟩ := framed
  have bottom : (e₀.enterHost base arity).bottom = base + 2 := congrArg Control.bottom control_enterHost
  rw [bottom] at inside kept
  refine ⟨?_, show base ≤ e.stack.size by omega, take_eq_take fun i below => ?_⟩
  · rw [control_enterHost] at control
    simp only [Engine.control, Control.mk.injEq] at control ⊢
    obtain ⟨scopes, frames, depth, nesting, slot, -⟩ := control
    exact ⟨scopes, by simp [frames], depth, nesting, slot, trivial⟩
  · rw [kept i (by omega), entered i (by omega)]

/-- A host function's body that ran inside its frame, once the frame is left, has moved the
caller's engine by steps and kept what lies under the call group. -/
theorem Sound.leftHost (sound : e₀.Sound) (group : base + 2 ≤ e₀.stack.size)
    (ran : (e₀.enterHost base arity).Steps e ∧ (e₀.enterHost base arity).Framed e) :
    e₀.Steps { e with hostFrames := e.hostFrames.pop, bottom := e₀.bottom } ∧ e.Safe ∧
      e₀.Below base { e with hostFrames := e.hostFrames.pop, bottom := e₀.bottom } := by
  obtain ⟨entered, -, kept⟩ := sound.enterHost group arity
  have safe := (entered.trans ran.1).safe' sound.safe
  obtain ⟨step, below⟩ := ran.2.leaveHost safe kept
  exact ⟨(entered.trans ran.1).tail step, safe, below⟩

theorem Below.returned_push (below : e₀.Below base e) (v : Value) : e₀.Returned base (e.push v) := by
  obtain ⟨control, inside, kept⟩ := below
  refine ⟨⟨control, by simp; omega, ?_⟩, by simp; omega⟩
  rw [stack_push, ← kept]
  exact take_eq_take fun i below => by
    rw [Array.getElem?_push_lt (by omega), Array.getElem?_eq_getElem]

theorem Below.raised {u : Unwind} (below : e₀.Below base e₁) (raised : e₁.Raised u e) :
    e₀.Abandoned base u e := by
  obtain ⟨-, unwound, stack⟩ := raised
  cases u with
  | thrown v =>
    obtain ⟨control, inside, kept⟩ := below
    exact ⟨unwound.1, unwound.2.1.trans control, stack ▸ inside, by rw [stack, kept]⟩
  | exhausted => exact unwound

theorem Below.of_stack (control : e.control = e₀.control) (stack : e.stack = e₀.stack)
    (group : base ≤ e₀.stack.size) : e₀.Below base e :=
  ⟨control, stack ▸ group, by rw [stack]⟩

theorem Below.mono {n : Nat} (below : e₀.Below n e) (le : base ≤ n) : e₀.Below base e := by
  obtain ⟨control, inside, kept⟩ := below
  refine ⟨control, by omega, take_eq_take fun i below => ?_⟩
  have same := congrArg (·[i]?) kept
  simp only [getElem?_take_eq, show i < n by omega, if_true] at same
  exact same

theorem Returned.of_push {v : Value} (control : e.control = e₀.control)
    (stack : e.stack = e₀.stack.push v) (group : base ≤ e₀.stack.size) : e₀.Returned base e := by
  have pushed : e₀.Returned base (e₀.push v) :=
    (Below.of_stack rfl rfl group).returned_push v
  obtain ⟨⟨-, inside, kept⟩, above⟩ := pushed
  exact ⟨⟨control, stack ▸ inside, stack ▸ kept⟩, stack ▸ above⟩

/-- What a host function's call gives is live. -/
theorem Safe.live_hostResult (safe : e.Safe) {name : String} {r : Except Error Nat} {v : Value}
    (result : hostResult name e r = .ok v) : e.heap.Live v := by
  unfold hostResult at result
  split at result
  · cases result
    exact Heap.live_undefined
  · split at result
    · cases result
      exact safe.live_back
    · cases result
  · cases result

end Engine

/-- Script code sees an operation that keeps to its frame move inside the frame, whether the
operation fails or not. -/
theorem Api.Keeps.capture_spec {α : Type} {act : Api α} (keeps : act.Keeps) (e₀ : Engine) :
    ⦃fun e => ⌜e = e₀ ∧ e₀.Sound⌝⦄ act.capture
    ⦃post⟨fun _ e => ⌜e₀.Steps e ∧ e₀.Framed e⌝,
      fun u e => ⌜u = .exhausted ∧ e₀.Steps e ∧ e.bottom ≤ e.stack.size⌝⟩⦄ := by
  have spec := (triple_iff _ _ _ _).mp (keeps e₀)
  rw [triple_iff]
  intro e pre
  have ran := spec e pre
  rw [capture_run]
  revert ran
  rcases act.run.run e with ⟨_ | _, e'⟩
  · -- an error of the operation is a result of the script code; running out passes on
    rename_i x
    cases x with
    | error err => exact fun failed => failed
    | exhausted => exact fun failed => ⟨rfl, failed⟩
  · exact fun moved => ⟨moved.steps, moved.framed⟩

/-- A host function's body, run in the frame of its arguments, leaves the caller's stack under
the call group alone whatever it does through the stack interface; the call then pushes its
result or throws. -/
theorem runHost_spec {body : Api Nat} (keeps : body.Keeps) (base : Nat) (name : String)
    (arity : Arity) (e₀ : Engine) :
    ⦃fun e => ⌜e = e₀ ∧ e₀.Sound ∧ e₀.bottom ≤ base ∧ base + 2 ≤ e₀.stack.size⌝⦄
    runHost base name arity body
    ⦃post⟨fun _ e => ⌜e₀.Steps e ∧ e₀.Returned base e⌝,
      fun u e => ⌜e₀.Steps e ∧ e₀.Abandoned base u e⌝⟩⦄ := by
  have captured := keeps.capture_spec
  mvcgen [runHost, captured, throwScriptError_spec, pushValue] with
    obtain ⟨rfl, sound, above, group⟩ := ‹_ = e₀ ∧ _›
  | vc1 => exact ⟨trivial, (sound.enterHost group arity).2.1⟩
  | vc2 =>
    obtain ⟨left, safe, below⟩ := sound.leftHost group ‹_›
    have live := safe.live_hostResult ‹_ = Except.ok _›
    exact ⟨left.tail (.push (left.safe' sound.safe) live), below.returned_push _⟩
  | vc3 => exact ⟨trivial, (sound.leftHost group ‹_›).1.safe' sound.safe⟩
  | vc4 => exact False.elim
  | vc5 =>
    obtain ⟨left, -, below⟩ := sound.leftHost group ‹_›
    exact fun raised => ⟨left.trans raised.1, below.raised raised⟩
  | vc6 =>
    rintro rfl run inside
    exact ⟨(sound.enterHost group arity).1.trans run, inside⟩

/-! ### Closure scopes -/

theorem PropertyTable.live_values_declare {h : Heap} (names : List String) :
    ∀ {t : PropertyTable}, (∀ w ∈ t.values, h.Live w) → ∀ w ∈ (t.declare names).values, h.Live w := by
  induction names with
  | nil => exact fun live => live
  | cons name rest ih =>
    intro t live
    -- each name not yet bound is declared as undefined
    apply ih
    dsimp only
    split
    · exact live
    · exact PropertyTable.live_values_set live Heap.live_undefined

theorem Engine.live_values_bindParams (e : Engine) {h : Heap} (live : ∀ abs, h.Live (e.getAbs abs))
    (params : List String) :
    ∀ {slot : Nat} {t : PropertyTable}, (∀ w ∈ t.values, h.Live w) →
      ∀ w ∈ (e.bindParams slot t params).values, h.Live w := by
  induction params with
  | nil => exact fun old => old
  | cons p rest ih => exact fun old => ih (PropertyTable.live_values_set old (live _))

theorem Syntax.FunctionDef.live_values_selfBinding (defn : FunctionDef) {h : Heap} {callee : Value}
    (live : h.Live callee) : ∀ w ∈ (defn.selfBinding callee).values, h.Live w := by
  unfold FunctionDef.selfBinding
  split
  · exact PropertyTable.live_values_set PropertyTable.live_values_empty live
  · exact PropertyTable.live_values_empty

theorem Engine.Safe.live_callReceiver {e : Engine} (safe : e.Safe) (abs : Nat) :
    e.heap.Live (e.callReceiver abs) := by
  unfold Engine.callReceiver
  dsimp only
  split
  · exact Heap.live_object.mpr safe.valid_global
  · exact safe.live_getAbs abs

/-- The `arguments` array of a call holds values of the stack, all live. -/
theorem Engine.Safe.allocatable_arguments {e : Engine} (safe : e.Safe) (start : Nat) :
    ({ kind := .array (e.stack.extract start e.stack.size) } : HeapObject).Allocatable e.heap := by
  refine .of_live (by simp) (by simp) PropertyTable.live_values_empty fun r member => ?_
  simp only [HeapObject.references, PropertyTable.values, List.map_nil, Option.toList_none,
    List.filterMap_nil, List.nil_append, List.mem_filterMap] at member
  obtain ⟨w, found, named⟩ := member
  obtain ⟨k, inside, rfl⟩ := Array.mem_extract_iff_getElem.mp (Array.mem_toList_iff.mp found)
  exact safe.live_of_mem (Array.getElem_mem _) r (HeapObject.objectId?_eq_some.mp named)

/-- Allocating an object the evaluator may allocate works on the heap alone, and keeps every
live object live. -/
theorem Engine.Safe.allocated {e : Engine} {o : HeapObject} (safe : e.Safe)
    (allocatable : o.Allocatable e.heap) :
    e.Kept (e.alloc o).2 ∧ (e.alloc o).2.heap.Valid (e.alloc o).1 ∧
      ∀ id, e.heap.Valid id → (e.alloc o).2.heap.Valid id :=
  ⟨⟨(Engine.Step.allocate allocatable).steps, rfl, rfl⟩, Heap.valid_alloc_self safe.wellFormed,
    fun _ live => Heap.valid_alloc safe.wellFormed live⟩

theorem HeapObject.allocatable_callScope {h : Heap} {parent : Option ObjectId} {this : Value}
    {props : PropertyTable} (valid : ∀ p ∈ parent, h.Valid p) (live : h.Live this)
    (liveProps : ∀ w ∈ props.values, h.Live w) :
    ({ kind := .scope parent this, properties := props } : HeapObject).Allocatable h := by
  refine .of_live (by simp) (by simp) liveProps fun r member => ?_
  simp only [HeapObject.references, List.mem_append, PropertyTable.values, Option.toList_none,
    Option.mem_toList, List.filterMap_nil, List.nil_append, List.map_nil] at member
  rcases member with inParent | isThis
  · exact valid r inParent
  · exact live r (HeapObject.objectId?_eq_some.mp isThis)

/-- The scope of a call is a fresh live object; allocating it works on the heap alone. -/
theorem allocCallScope_spec (base : Nat) (defn : FunctionDef) (parent : Option ObjectId)
    (e₀ : Engine) :
    ⦃fun e => ⌜e = e₀ ∧ e₀.Safe ∧ ∀ p ∈ parent, e₀.heap.Valid p⌝⦄ allocCallScope base defn parent
    ⦃post⟨fun scope e => ⌜e₀.Kept e ∧ e.heap.Valid scope⌝, fun _ _ => ⌜False⌝⟩⦄ := by
  mvcgen [allocCallScope, allocObject] with obtain ⟨rfl, safe, valid⟩ := ‹_ = e₀ ∧ _›
  | vc1 =>
    rename_i e _ _ _ props _
    -- what was live before the `arguments` array was allocated is live after
    obtain ⟨kept, args, grow⟩ :=
      safe.allocated (safe.allocatable_arguments (min (base + 2) e.stack.size))
    have props : ∀ w ∈ props.values, _ := PropertyTable.live_values_declare defn.varNames
      (Engine.live_values_bindParams _ (fun abs => (safe.live_getAbs abs).mono grow) defn.params
        (PropertyTable.live_values_set
          (fun w member => (defn.live_values_selfBinding (safe.live_getAbs base) w member).mono grow)
          (Heap.live_object.mpr args)))
    have scope := HeapObject.allocatable_callScope (fun p member => grow p (valid p member))
      ((safe.live_callReceiver (base + 1)).mono grow) props
    obtain ⟨kept', valid', -⟩ := (kept.1.safe' safe).allocated scope
    exact ⟨kept.trans kept', valid'⟩
  | vc2 =>
    rename_i props _
    have props : ∀ w ∈ props.values, _ := PropertyTable.live_values_declare defn.varNames
      (Engine.live_values_bindParams _ safe.live_getAbs defn.params
        (defn.live_values_selfBinding (safe.live_getAbs base)))
    obtain ⟨kept, allocated, -⟩ :=
      safe.allocated (HeapObject.allocatable_callScope valid (safe.live_callReceiver (base + 1)) props)
    exact ⟨kept, allocated⟩

/-! ### Closure frames -/

namespace Engine

variable {e₀ e₁ e : Engine} {k : Completion} {scope : ObjectId} {s : Option ObjectId}

theorem rewritten_none {s₀ s : Array Value} (rewritten : Rewritten none s₀ s) : s = s₀ :=
  Array.ext_getElem? fun i => rewritten.2 i nofun

theorem control_pushScope (control : e₁.control = e₀.control) :
    { e₁ with scopes := e₁.scopes.push s }.control = { e₀ with scopes := e₀.scopes.push s }.control := by
  simp only [Engine.control, Control.mk.injEq] at control ⊢
  obtain ⟨scopes, rest⟩ := control
  exact ⟨by rw [scopes], rest⟩

/-- Entering a call of a closure: its scope allocated, pushed and filled with the hoisted
functions, and the completion slot cleared. The body starts from a sound engine with the
caller's stack. -/
theorem Sound.enterCall (sound : e₀.Sound) (allocated : e₀.Kept e₁ ∧ e₁.heap.Valid scope)
    (hoisted : { e₁ with scopes := e₁.scopes.push (some scope) }.Kept e) :
    e₀.Steps { e with completionSlot := none } ∧ { e with completionSlot := none }.Sound ∧
      e.control = { e₀ with scopes := e₀.scopes.push (some scope) }.control ∧ e.stack = e₀.stack := by
  obtain ⟨⟨run, control, stack⟩, valid⟩ := allocated
  have pushed := run.tail (.pushScope (s := some scope) (run.safe' sound.safe) (by simpa using valid))
  have filled := pushed.trans hoisted.1
  have cleared : e₀.Steps { e with completionSlot := none } :=
    filled.tail (.retune (filled.safe' sound.safe) _ _ _ _ _)
  have bottom : e.bottom = e₀.bottom := by
    have := congrArg Control.bottom (hoisted.2.1.trans (control_pushScope control))
    exact this
  have stack' : e.stack = e₀.stack := hoisted.2.2.trans stack
  refine ⟨cleared, ⟨cleared.safe' sound.safe, ?_⟩, hoisted.2.1.trans (control_pushScope control), stack'⟩
  show e.bottom ≤ e.stack.size
  rw [bottom, stack']
  exact sound.framed

theorem Step.leaveCall (safe : e.Safe) (slot : Option Nat) :
    e.Step { e with completionSlot := slot, scopes := e.scopes.pop } :=
  .control safe rfl rfl rfl rfl rfl rfl rfl rfl fun _ member =>
    .inl (mem_of_mem_pop member)

theorem control_leaveCall (control : e.control = { e₁ with completionSlot := none }.control)
    (inScope : e₁.control = { e₀ with scopes := e₀.scopes.push s }.control) :
    { e with completionSlot := e₁.completionSlot, scopes := e.scopes.pop }.control = e₀.control := by
  simp only [Engine.control, Control.mk.injEq] at control inScope ⊢
  obtain ⟨scopes, frames, depth, nesting, -, bottom⟩ := control
  obtain ⟨scopes', frames', depth', nesting', slot', bottom'⟩ := inScope
  exact ⟨by simp [scopes, scopes'], frames.trans frames', depth.trans depth',
    nesting.trans nesting', slot', bottom.trans bottom'⟩

/-- A closure's body that finished leaves, once its scope is left, the caller's stack with a
returned value on top or nothing. -/
theorem Completed.leftCall (done : { e₁ with completionSlot := none }.Completed k e)
    (inScope : e₁.control = { e₀ with scopes := e₀.scopes.push s }.control)
    (stack : e₁.stack = e₀.stack) (safe : e.Safe) :
    e.Step { e with completionSlot := e₁.completionSlot, scopes := e.scopes.pop } ∧
      { e with completionSlot := e₁.completionSlot, scopes := e.scopes.pop }.control = e₀.control ∧
      if k = .returning then ∃ v, e.stack = e₀.stack.push v else e.stack = e₀.stack := by
  obtain ⟨control, s', rewritten, result⟩ := done
  -- with no completion slot the body cannot have rewritten the caller's stack
  have same : s' = e₀.stack := (rewritten_none rewritten).trans stack
  subst same
  exact ⟨.leaveCall safe _, control_leaveCall control inScope, result⟩

/-- A closure's body that threw leaves, once its scope is left, the caller's whole stack as it
was. -/
theorem Above.leftCall (above : { e₁ with completionSlot := none }.Above e)
    (inScope : e₁.control = { e₀ with scopes := e₀.scopes.push s }.control)
    (stack : e₁.stack = e₀.stack) (safe : e.Safe) :
    e.Step { e with completionSlot := e₁.completionSlot, scopes := e.scopes.pop } ∧
      e₀.Below e₀.stack.size { e with completionSlot := e₁.completionSlot, scopes := e.scopes.pop } := by
  obtain ⟨control, inside, kept⟩ := above
  refine ⟨.leaveCall safe _, control_leaveCall control inScope, stack ▸ inside, ?_⟩
  rw [← stack]
  exact take_eq_take fun i below => kept i below (by simp)

end Engine

namespace Evaluator

variable {d : Evaluator}

/-- A closure runs its body in a fresh scope and leaves its caller's stack as it found it, with
the result on top; what it throws it throws from there. -/
theorem Guarded.callClosure_spec (g : d.Guarded) (base : Nat) (defn : FunctionDef)
    (parent : Option ObjectId) (e₀ : Engine) :
    ⦃fun e => ⌜e = e₀ ∧ e₀.Sound ∧ base + 2 ≤ e₀.stack.size ∧ ∀ p ∈ parent, e₀.heap.Valid p⌝⦄
    d.callClosure base defn parent
    ⦃post⟨fun _ e => ⌜e₀.Steps e ∧ e₀.Returned base e⌝,
      fun u e => ⌜e₀.Steps e ∧ e₀.Abandoned base u e⌝⟩⦄ := by
  have tried := fun e₁ => attempt_settled (g.execBlock_spec defn.body e₁)
  mvcgen [callClosure, enterCall, allocCallScope_spec, hoistInto_spec, tried, resume, pushValue] with
    obtain ⟨rfl, sound, group, valid⟩ := ‹_ = e₀ ∧ _›
  | vc1 => exact ⟨trivial, sound.safe, valid⟩
  | vc2 =>
    obtain ⟨⟨run, -⟩, scope⟩ := ‹Engine.Kept _ _ ∧ Heap.Valid _ _›
    have safe := run.safe' sound.safe
    exact ⟨trivial, safe.step (.pushScope (s := some _) safe (by simpa using scope))⟩
  | vc3 => exact ⟨trivial, (sound.enterCall ‹_› ‹_›).2.1⟩
  | vc4 =>
    obtain ⟨entered, -, inScope, stack⟩ := sound.enterCall ‹_› ‹_›
    obtain rfl := ‹_ = Except.ok _›
    obtain ⟨run, done⟩ := ‹Engine.Settled _ _ _›
    obtain ⟨left, control, result⟩ := done.leftCall inScope stack ((entered.trans run).safe' sound.safe)
    -- without a return the caller's stack is as it was, and the result is undefined
    rw [if_neg (bne_iff_ne.mp ‹_›)] at result
    have reached := (entered.trans run).tail left
    exact ⟨reached.tail (.push (reached.safe' sound.safe) Heap.live_undefined),
      (Engine.Below.of_stack control result (by omega)).returned_push _⟩
  | vc5 =>
    obtain ⟨entered, -, inScope, stack⟩ := sound.enterCall ‹_› ‹_›
    obtain rfl := ‹_ = Except.ok _›
    obtain ⟨run, done⟩ := ‹Engine.Settled _ _ _›
    obtain ⟨left, control, result⟩ := done.leftCall inScope stack ((entered.trans run).safe' sound.safe)
    rw [if_pos (of_not_not fun ne => ‹¬(_ != _) = true› (bne_iff_ne.mpr ne))] at result
    obtain ⟨v, result⟩ := result
    exact ⟨(entered.trans run).tail left, Engine.Returned.of_push control result (by omega)⟩
  | vc6 =>
    obtain ⟨entered, -, inScope, stack⟩ := sound.enterCall ‹_› ‹_›
    obtain rfl := ‹_ = Except.error _›
    obtain ⟨run, live, above⟩ := ‹Engine.Settled _ _ _›
    obtain ⟨left, below⟩ := above.leftCall inScope stack ((entered.trans run).safe' sound.safe)
    exact ⟨(entered.trans run).tail left, live, below.mono (by omega)⟩
  | vc7 =>
    obtain ⟨entered, -, -, -⟩ := sound.enterCall ‹_› ‹_›
    rintro rfl run unwound
    exact ⟨entered.trans run, unwound⟩

end Evaluator

end EmbedScript
