import Mathlib
import EmbedScript.Proofs.Entry

/-!
The evaluator's contracts hold at every level of fuel. A call dispatches to a closure, a host
function or a method of a suite, each of which keeps what lies under its call group; the call
then replaces its group by the result or removes it. With the contracts of one level every
operation of the next level keeps them, so by induction on the fuel every evaluator the engine
runs is guarded.
-/

namespace EmbedScript

open Std.Do Syntax

set_option mvcgen.warning false

namespace Engine

variable {e₀ e : Engine} {k : Completion}

/-- What code run one native level deeper finished with holds for the level it was called from. -/
theorem Completed.nested (done : { e₀ with nesting := e₀.nesting + 1 }.Completed k e) :
    e₀.Completed k { e with nesting := e.nesting - 1 } := by
  obtain ⟨control, s, rewritten, stack⟩ := done
  exact ⟨control_nested control, s, rewritten, stack⟩

theorem Pushed.nested (pushed : { e₀ with nesting := e₀.nesting + 1 }.Pushed e) :
    e₀.Pushed { e with nesting := e.nesting - 1 } :=
  ⟨control_nested pushed.1, pushed.2⟩

theorem Unwound.nested {v : Value}
    (unwound : { e₀ with nesting := e₀.nesting + 1 }.Unwound (.thrown v) e) :
    e₀.Unwound (.thrown v) { e with nesting := e.nesting - 1 } :=
  ⟨unwound.1, unwound.2.nested⟩

theorem Stopped.nested {v : Value}
    (stopped : { e₀ with nesting := e₀.nesting + 1 }.Stopped (.thrown v) e) :
    e₀.Stopped (.thrown v) { e with nesting := e.nesting - 1 } :=
  ⟨stopped.1, control_nested stopped.2.1, stopped.2.2⟩

/-- The scope a live closure closes over is live. -/
theorem Safe.valid_closureScope (safe : e.Safe) {v : Value} {defn : FunctionDef}
    {scope : Option ObjectId}
    (found : (e.objectOf? v).bind HeapObject.function? = some (.closure defn scope)) :
    ∀ p ∈ scope, e.heap.Valid p := by
  intro p member
  obtain ⟨o, named, closure⟩ := Option.bind_eq_some_iff.mp found
  obtain ⟨id, -, live⟩ := Option.bind_eq_some_iff.mp named
  have kind : o.kind = .function (.closure defn scope) := by
    unfold HeapObject.function? at closure
    split at closure <;> simp_all
  apply safe.closed id.index id.generation o (Heap.get?_eq_some.mp live) p
  simp only [HeapObject.references, kind, List.mem_append, Option.mem_toList]
  exact .inr member

/-! ### Calls -/

variable {e₁ : Engine} {base : Nat}

/-- What throws once the group is cut off leaves the group removed. -/
theorem Raised.removed {u : Unwind} (safe : e₀.Safe) (raised : (e₀.truncate base).Raised u e) :
    e₀.Steps e ∧ e₀.Removed base u e := by
  obtain ⟨run, unwound, stack⟩ := raised
  have reached := (Step.truncate safe base).steps.trans run
  cases u with
  | thrown v => exact ⟨reached, unwound.1, unwound.2.1, stack⟩
  | exhausted => exact ⟨reached, unwound⟩

/-- The engine a function is dispatched from: moved from `e₀` without touching the control state,
the size of the stack or what lies under the call group. -/
structure Ready (e₀ : Engine) (base : Nat) (e : Engine) : Prop where
  steps : e₀.Steps e
  sound : e.Sound
  control : e.control = e₀.control
  size : e.stack.size = e₀.stack.size
  below : e.stack.take base = e₀.stack.take base

theorem Ready.refl (sound : e₀.Sound) : e₀.Ready base e₀ := ⟨.refl _, sound, rfl, rfl, rfl⟩

/-- A construction puts a fresh object in the receiver's place; every live object stays live. -/
theorem Sound.readyThis (sound : e₀.Sound) (above : e₀.bottom ≤ base + 1) :
    e₀.Ready base ((e₀.alloc { kind := .plain }).2.setAbs (base + 1)
        (.object (e₀.alloc { kind := .plain }).1)) ∧
      ∀ id, e₀.heap.Valid id → (e₀.alloc { kind := .plain }).2.heap.Valid id := by
  obtain ⟨kept, this, grown⟩ := sound.safe.allocated (HeapObject.Allocatable.bare (k := .plain)
    (by simp) (by simp) (by simp [HeapObject.references, PropertyTable.values]))
  have moved := (sound.kept kept).moved_setAbs above (v := .object _) (by simpa using this)
  refine ⟨⟨kept.1.trans moved.steps, moved.sound (sound.kept kept), kept.2.1,
    by simp [setAbs], take_eq_take fun i below => ?_⟩, grown⟩
  simp [setAbs, show base + 1 ≠ i by omega]

/-- While its function runs a call counts one call and one native level more. -/
theorem Sound.counted (sound : e.Sound) :
    e.Step { e with callDepth := e.callDepth + 1, nesting := e.nesting + 1 } ∧
      Sound { e with callDepth := e.callDepth + 1, nesting := e.nesting + 1 } := by
  have step : e.Step { e with callDepth := e.callDepth + 1, nesting := e.nesting + 1 } :=
    .retune sound.safe _ _ _ _ _
  exact ⟨step, sound.of_steps step.steps sound.framed⟩

/-- Taking the counts back restores the control state. -/
theorem control_uncounted
    (control : e.control = { e₁ with callDepth := e₁.callDepth + 1, nesting := e₁.nesting + 1 }.control) :
    { e with callDepth := e.callDepth - 1, nesting := e.nesting - 1 }.control = e₁.control := by
  simp only [Engine.control, Engine.Control.mk.injEq] at control ⊢
  obtain ⟨scopes, frames, depth, nesting, slot, bottom⟩ := control
  exact ⟨scopes, frames, by omega, by omega, slot, bottom⟩

/-- From a ready engine the function is dispatched one call deeper, its group inside the frame. -/
theorem Ready.dispatchable (ready : e₀.Ready base e₁) (above : e₀.bottom ≤ base)
    (group : base + 2 ≤ e₀.stack.size) {f : Function}
    (closed : ∀ defn scope, f = .closure defn scope → ∀ p ∈ scope, e₁.heap.Valid p) :
    Sound { e₁ with callDepth := e₁.callDepth + 1, nesting := e₁.nesting + 1 } ∧
      e₁.bottom ≤ base ∧ base + 2 ≤ e₁.stack.size ∧
      ∀ defn scope, f = .closure defn scope → ∀ p ∈ scope, e₁.heap.Valid p := by
  have bottom : e₁.bottom = e₀.bottom := congrArg Control.bottom ready.control
  exact ⟨ready.sound.counted.2, by omega, by rw [ready.size]; exact group, closed⟩

/-- A run of the function between the counts, seen from where the call started. -/
theorem Ready.uncounted (ready : e₀.Ready base e₁)
    (run : { e₁ with callDepth := e₁.callDepth + 1, nesting := e₁.nesting + 1 }.Steps e) :
    e₀.Steps { e with callDepth := e.callDepth - 1, nesting := e.nesting - 1 } := by
  have safe := run.safe' ready.sound.counted.2.safe
  exact (ready.steps.trans (ready.sound.counted.1.steps.trans run)).tail (.retune safe _ _ _ _ _)

/-- What a function that returned leaves, once the counts are back, can be popped. -/
theorem Ready.nonempty (ready : e₀.Ready base e₁) (above : e₀.bottom ≤ base)
    (returned : { e₁ with callDepth := e₁.callDepth + 1, nesting := e₁.nesting + 1 }.Returned base e) :
    { e with callDepth := e.callDepth - 1, nesting := e.nesting - 1 }.bottom < e.stack.size := by
  have bottom : e.bottom = e₁.bottom := congrArg Control.bottom returned.1.1
  have bottom₁ : e₁.bottom = e₀.bottom := congrArg Control.bottom ready.control
  have := returned.2
  show e.bottom < e.stack.size
  omega

/-- A function that returned on a ready engine leaves, once the counts are back and its result
popped, one value in place of the group. -/
theorem Ready.replaced (ready : e₀.Ready base e₁)
    (run : { e₁ with callDepth := e₁.callDepth + 1, nesting := e₁.nesting + 1 }.Steps e)
    (returned : { e₁ with callDepth := e₁.callDepth + 1, nesting := e₁.nesting + 1 }.Returned base e)
    {v : Value} (live : e.heap.Live v) :
    e₀.Steps
        (({ e with callDepth := e.callDepth - 1, nesting := e.nesting - 1, stack := e.stack.pop
          }.truncate base).push v) ∧
      e₀.Replaced base
        (({ e with callDepth := e.callDepth - 1, nesting := e.nesting - 1, stack := e.stack.pop
          }.truncate base).push v) := by
  obtain ⟨⟨control, -, below⟩, inside⟩ := returned
  have safe := run.safe' ready.sound.counted.2.safe
  -- the counts back, the result popped, the group cut off and the result pushed
  have left : e.Step { e with callDepth := e.callDepth - 1, nesting := e.nesting - 1 } :=
    .retune safe _ _ _ _ _
  have popped := Step.pop (safe.step left)
  have cut := Step.truncate ((safe.step left).step popped) base
  have pushed := Step.push (((safe.step left).step popped).step cut) live
  refine ⟨(((ready.uncounted run).tail popped).tail cut).tail pushed,
    (control_uncounted control).trans ready.control, v, ?_⟩
  show (e.stack.pop.take base).push v = (e₀.stack.take base).push v
  rw [take_pop inside, below, ← ready.below]

/-- A function that threw on a ready engine leaves, once the counts are back and the group cut
off, the stack under the group. -/
theorem Ready.removed (ready : e₀.Ready base e₁)
    (run : { e₁ with callDepth := e₁.callDepth + 1, nesting := e₁.nesting + 1 }.Steps e) {v : Value}
    (abandoned :
      { e₁ with callDepth := e₁.callDepth + 1, nesting := e₁.nesting + 1 }.Abandoned base (.thrown v) e) :
    e₀.Steps ({ e with callDepth := e.callDepth - 1, nesting := e.nesting - 1 }.truncate base) ∧
      e₀.Removed base (.thrown v)
        ({ e with callDepth := e.callDepth - 1, nesting := e.nesting - 1 }.truncate base) := by
  obtain ⟨live, control, -, below⟩ := abandoned
  have safe := run.safe' ready.sound.counted.2.safe
  have left : e.Step { e with callDepth := e.callDepth - 1, nesting := e.nesting - 1 } :=
    .retune safe _ _ _ _ _
  refine ⟨(ready.uncounted run).tail (.truncate (safe.step left) base), live,
    (control_uncounted control).trans ready.control, ?_⟩
  show e.stack.take base = e₀.stack.take base
  rw [below, ← ready.below]

/-- A function that ran out of fuel on a ready engine leaves the frame inside the stack. -/
theorem Ready.exhausted (ready : e₀.Ready base e₁)
    (run : { e₁ with callDepth := e₁.callDepth + 1, nesting := e₁.nesting + 1 }.Steps e)
    (abandoned :
      { e₁ with callDepth := e₁.callDepth + 1, nesting := e₁.nesting + 1 }.Abandoned base .exhausted e) :
    e₀.Steps e ∧ e₀.Removed base .exhausted e :=
  ⟨ready.steps.trans (ready.sound.counted.1.steps.trans run), abandoned⟩

/-- The value a call leaves, the result on top or else the receiver it constructed, is live. -/
theorem Safe.live_result (safe : e.Safe) (construct : Bool) (base : Nat) :
    e.heap.Live (if (construct && (e.stack.back?.getD .undefined).objectId?.isNone) = true then
      { e with stack := e.stack.pop }.getAbs (base + 1) else e.stack.back?.getD .undefined) := by
  split
  · exact (safe.step (.pop safe)).live_getAbs _
  · exact safe.live_back

end Engine

namespace Evaluator

variable {d : Evaluator}

/-- A host function keeps what lies under its call group, whatever its body does through the
stack interface and the operations through which it reenters the engine. -/
theorem Guarded.callHost_spec (g : d.Guarded) (base : Nat) (name : String) (body : Native)
    (arity : Arity) (e₀ : Engine) :
    ⦃fun e => ⌜e = e₀ ∧ e₀.Sound ∧ e₀.bottom ≤ base ∧ base + 2 ≤ e₀.stack.size⌝⦄
    d.callHost base name body arity
    ⦃post⟨fun _ e => ⌜e₀.Steps e ∧ e₀.Returned base e⌝,
      fun u e => ⌜e₀.Steps e ∧ e₀.Abandoned base u e⌝⟩⦄ :=
  runHost_spec (g.reentry_keeps.runNative body) base name arity e₀

/-- A suite method runs the host function its suite names for it; a method whose suite is gone
from the registry, or lacks the name, throws. -/
theorem Guarded.callSuiteMethod_spec (g : d.Guarded) (base : Nat) (suite : ObjectId) (name : String)
    (e₀ : Engine) :
    ⦃fun e => ⌜e = e₀ ∧ e₀.Sound ∧ e₀.bottom ≤ base ∧ base + 2 ≤ e₀.stack.size⌝⦄
    d.callSuiteMethod base suite name
    ⦃post⟨fun _ e => ⌜e₀.Steps e ∧ e₀.Returned base e⌝,
      fun u e => ⌜e₀.Steps e ∧ e₀.Abandoned base u e⌝⟩⦄ := by
  have host := fun body => g.callHost_spec base name body .variadic e₀
  mvcgen [callSuiteMethod, throwNew_spec, throwScriptError_spec, host] with
    obtain ⟨rfl, sound, above, group⟩ := ‹_ = e₀ ∧ _›
  | vc1 | vc4 | vc8 => exact ⟨trivial, sound.safe⟩
  | vc2 | vc5 | vc9 => exact False.elim
  | vc3 | vc6 | vc10 => exact fun raised => raised.abandoned (by omega)

/-- A call dispatches to the function it calls; each kind keeps what lies under the group. -/
theorem Guarded.dispatch_spec (g : d.Guarded) (base : Nat) (f : Function) (e₀ : Engine) :
    ⦃fun e => ⌜e = e₀ ∧ e₀.Sound ∧ e₀.bottom ≤ base ∧ base + 2 ≤ e₀.stack.size ∧
      ∀ defn scope, f = .closure defn scope → ∀ p ∈ scope, e₀.heap.Valid p⌝⦄
    d.dispatch base f
    ⦃post⟨fun _ e => ⌜e₀.Steps e ∧ e₀.Returned base e⌝,
      fun u e => ⌜e₀.Steps e ∧ e₀.Abandoned base u e⌝⟩⦄ := by
  cases f with
  | closure defn scope =>
    exact triple_conseq (g.callClosure_spec base defn scope e₀)
      (fun _ ⟨same, sound, _, group, closed⟩ => ⟨same, sound, group, closed defn scope rfl⟩)
      (fun _ _ returned => returned) fun _ _ abandoned => abandoned
  | host name body arity =>
    exact triple_conseq (g.callHost_spec base name body arity e₀)
      (fun _ ⟨same, sound, above, group, _⟩ => ⟨same, sound, above, group⟩)
      (fun _ _ returned => returned) fun _ _ abandoned => abandoned
  | method suite name =>
    exact triple_conseq (g.callSuiteMethod_spec base suite name e₀)
      (fun _ ⟨same, sound, above, group, _⟩ => ⟨same, sound, above, group⟩)
      (fun _ _ returned => returned) fun _ _ abandoned => abandoned

/-- A call replaces its group of callee, receiver and arguments by the result, or removes the
group and throws: at the depth limit, at the limit of the value stack, when the callee is no
function, when a method is constructed, and when the function throws. -/
theorem Guarded.invokeStep_spec (g : d.Guarded) (nargs : Nat) (construct : Bool) (e₀ : Engine) :
    ⦃fun e => ⌜e = e₀ ∧ e₀.Sound ∧ e₀.bottom + nargs + 2 ≤ e₀.stack.size⌝⦄
    d.invokeStep nargs construct
    ⦃post⟨fun _ e => ⌜e₀.Steps e ∧ e₀.Replaced (e₀.stack.size - nargs - 2) e⌝,
      fun u e => ⌜e₀.Steps e ∧ e₀.Removed (e₀.stack.size - nargs - 2) u e⌝⟩⦄ := by
  have called := fun base f e₁ => attempt_spec (g.dispatch_spec base f e₁)
  rw [invokeStep]
  dsimp only
  mvcgen [throwNew_spec, allocObject, called, popValue_spec] with
    (obtain ⟨same, sound, group⟩ := ‹_ = e₀ ∧ _›; cases same.symm; subst_vars)
  -- the checks before the call: the group is cut off and a range or type error thrown
  | vc1 | vc45 | vc67 | vc70 => exact ⟨trivial, sound.safe.step (.truncate sound.safe _)⟩
  | vc44 | vc66 | vc69 | vc76 => exact fun raised => Engine.Raised.removed sound.safe raised
  | vc68 => exact False.elim
  -- a construction: the function runs with a fresh object as receiver
  | vc77 =>
    obtain ⟨ready, grown⟩ :=
      sound.readyThis (show e₀.bottom ≤ e₀.stack.size - nargs - 2 + 1 by omega)
    exact ⟨trivial, ready.dispatchable (by omega) (by omega) fun defn scope same p member =>
      grown p (sound.safe.valid_closureScope (‹_ = some _›.trans (congrArg some same)) p member)⟩
  | vc78 =>
    obtain ⟨ready, -⟩ := sound.readyThis (show e₀.bottom ≤ e₀.stack.size - nargs - 2 + 1 by omega)
    obtain ⟨-, returned⟩ := ‹Engine.Steps _ _ ∧ Engine.Returned _ _ _›
    exact ⟨trivial, ready.nonempty (by omega) returned⟩
  | vc79 =>
    obtain ⟨ready, -⟩ := sound.readyThis (show e₀.bottom ≤ e₀.stack.size - nargs - 2 + 1 by omega)
    obtain ⟨rfl, rfl⟩ := ‹_ = _ ∧ _ = _›
    obtain ⟨run, returned⟩ := ‹Engine.Steps _ _ ∧ Engine.Returned _ _ _›
    exact ready.replaced run returned ((run.safe' ready.sound.counted.2.safe).live_result _ _)
  | vc80 =>
    obtain ⟨ready, -⟩ := sound.readyThis (show e₀.bottom ≤ e₀.stack.size - nargs - 2 + 1 by omega)
    obtain ⟨run, abandoned⟩ := ‹Engine.Steps _ _ ∧ Engine.Abandoned _ _ _ _›
    exact ready.removed run abandoned
  | vc81 =>
    obtain ⟨ready, -⟩ := sound.readyThis (show e₀.bottom ≤ e₀.stack.size - nargs - 2 + 1 by omega)
    rintro rfl run abandoned
    exact ready.exhausted run abandoned
  -- a plain call: the function runs on the group as it is
  | vc82 =>
    exact ⟨trivial, (Engine.Ready.refl sound).dispatchable (by omega) (by omega)
      fun defn scope same p member =>
        sound.safe.valid_closureScope (‹_ = some _›.trans (congrArg some same)) p member⟩
  | vc83 =>
    obtain ⟨-, returned⟩ := ‹Engine.Steps _ _ ∧ Engine.Returned _ _ _›
    exact ⟨trivial, (Engine.Ready.refl sound).nonempty (by omega) returned⟩
  | vc84 =>
    obtain ⟨rfl, rfl⟩ := ‹_ = _ ∧ _ = _›
    obtain ⟨run, returned⟩ := ‹Engine.Steps _ _ ∧ Engine.Returned _ _ _›
    exact (Engine.Ready.refl sound).replaced run returned
      ((run.safe' sound.counted.2.safe).live_result _ _)
  | vc85 =>
    obtain ⟨run, abandoned⟩ := ‹Engine.Steps _ _ ∧ Engine.Abandoned _ _ _ _›
    exact (Engine.Ready.refl sound).removed run abandoned
  | vc86 =>
    rintro rfl run abandoned
    exact (Engine.Ready.refl sound).exhausted run abandoned

/-- One more unit of fuel keeps the contracts: the next level runs statements and expressions
one native level deeper, and loop rounds, calls and finalizer rounds, on the level below. -/
theorem Guarded.succ {n : Nat} (g : (ofFuel n).Guarded) : (ofFuel (n + 1)).Guarded where
  execStmt s := withNesting_spec (fun _ _ _ done => Engine.Completed.nested done)
    (fun _ _ _ => Engine.Unwound.nested) (fun _ _ framed => framed)
    (fun _ _ _ raised => raised.unwinds.2) (g.execStmtKind_spec s)
  evalExpr x := withNesting_spec (fun _ _ _ pushed => Engine.Pushed.nested pushed)
    (fun _ _ _ => Engine.Stopped.nested) (fun _ _ framed => framed)
    (fun _ _ _ raised => raised.stops.2) (g.evalExprKind_spec x)
  execWhile test body := g.whileRound_spec test body
  execDoWhile body test := g.doWhileRound_spec body test
  execFor test update body := g.forRound_spec test update body
  invoke nargs construct := g.invokeStep_spec nargs construct
  finalizeQueued count := g.finalizeRound_spec count

/-- Every level of fuel keeps the contracts. -/
theorem guarded_ofFuel : ∀ n, (ofFuel n).Guarded
  | 0 => Guarded.exhausted
  | n + 1 => (guarded_ofFuel n).succ

/-- The evaluator behind every entry point keeps the contracts. -/
theorem guarded_standard : standard.Guarded := guarded_ofFuel standardFuel

end Evaluator

/-! ### Where sessions start -/

namespace PropertyTable

theorem live_values_foldl_set {h : Heap} (kvs : List (String × Value)) {t : PropertyTable}
    (old : ∀ w ∈ t.values, h.Live w) (new : ∀ kv ∈ kvs, h.Live kv.2) :
    ∀ w ∈ (kvs.foldl (fun t kv => t.set kv.1 kv.2) t).values, h.Live w := by
  induction kvs generalizing t with
  | nil => exact old
  | cons kv rest ih =>
    exact ih (live_values_set old (new kv (.head _))) fun kv' member => new kv' (.tail _ member)

end PropertyTable

namespace Heap

theorem wellFormed_empty : ({} : Heap).WellFormed :=
  ⟨List.nodup_nil, fun _ member => by simp at member⟩

theorem closed_empty : ({} : Heap).Closed := fun _ _ _ slot => by simp at slot

/-- What allocating the built-in constructors keeps of a heap under construction: it is well
formed and closed, the global object is the plain object it was allocated as, and every
constructor recorded so far is live. -/
structure Building (global : ObjectId) (acc : List (String × Value) × Heap) : Prop where
  wellFormed : acc.2.WellFormed
  closed : acc.2.Closed
  global : acc.2.get? global = some { kind := .plain }
  recorded : ∀ kv ∈ acc.1, acc.2.Live kv.2

theorem Building.allocConstructor {global : ObjectId} {acc : List (String × Value) × Heap}
    (building : Building global acc) (kind : ErrorKind) :
    Building global (Heap.allocConstructor acc kind) := by
  obtain ⟨wf, closed, found, recorded⟩ := building
  have valid : acc.2.Valid global := ⟨_, found⟩
  have bare : ∀ r ∈ ({ kind := .function (.host kind.name (.errorConstructor kind) (.fixed 1)) } :
      HeapObject).references, acc.2.Valid r := by
    simp [HeapObject.references, PropertyTable.values]
  refine ⟨wellFormed_alloc wf, closed_alloc wf closed bare,
    (get?_alloc_of_valid wf valid).trans found, fun kv member => ?_⟩
  simp only [Heap.allocConstructor, List.mem_append, List.mem_singleton] at member
  rcases member with old | rfl
  · exact (recorded kv old).mono fun _ => valid_alloc wf
  · exact live_object.mpr (valid_alloc_self wf)

theorem Building.foldl {global : ObjectId} {acc : List (String × Value) × Heap}
    (building : Building global acc) (kinds : List ErrorKind) :
    Building global (kinds.foldl Heap.allocConstructor acc) := by
  induction kinds generalizing acc with
  | nil => exact building
  | cons kind rest ih => exact ih (building.allocConstructor kind)

end Heap

/-- Every session starts from a sound engine. -/
theorem Engine.fresh_sound (config : Config) (tally : Int) : (Engine.fresh config tally).Sound := by
  have empty := Heap.wellFormed_empty
  have start : Heap.Building (({} : Heap).alloc { kind := .plain }).1
      ([], (({} : Heap).alloc { kind := .plain }).2) :=
    ⟨Heap.wellFormed_alloc empty,
      Heap.closed_alloc empty Heap.closed_empty (by simp [HeapObject.references, PropertyTable.values]),
      Heap.get?_alloc_self empty, by simp⟩
  obtain ⟨wf, closed, found, recorded⟩ := start.foldl ErrorKind.all
  simp only [Engine.fresh]
  generalize List.foldl Heap.allocConstructor _ ErrorKind.all = built at wf closed found recorded ⊢
  refine ⟨⟨?_, ?_, ?_⟩, Nat.zero_le _⟩
  · dsimp only
    exact Heap.wellFormed_modify wf _
  · refine Heap.closed_modify closed _ fun o global r member => ?_
    -- the global object's properties: `undefined`, `NaN`, `Infinity` and the constructors
    rw [found, Option.some.injEq] at global
    subst global
    simp only [HeapObject.references, List.mem_append, List.mem_filterMap] at member
    rcases member with ⟨⟨w, inTable, named⟩ | never⟩ | never
    · have live : built.2.Live w := PropertyTable.live_values_foldl_set _
        PropertyTable.live_values_empty (fun kv member => ?_) w inTable
      · exact live r (HeapObject.objectId?_eq_some.mp named)
      · simp only [List.mem_append, List.mem_cons, List.not_mem_nil, or_false] at member
        rcases member with (rfl | rfl | rfl) | constructor
        · exact Heap.live_undefined
        · exact Heap.live_number
        · exact Heap.live_number
        · exact recorded kv constructor
    · simp at never
    · simp at never
  · -- nothing is rooted but the global object
    exact ⟨by simp, by simp, by simp, (Heap.valid_modify _).mpr ⟨_, found⟩⟩

/-! ### The stack discipline of expressions -/

/-- Evaluating an expression for its value runs the expression and pops what it pushed: the value
is the one pushed, and the engine is the one the expression left, with the stack it found. -/
theorem Evaluator.Guarded.evalPop_run {d : Evaluator} (g : d.Guarded) {x : Expr} {e₀ e : Engine}
    {v : Value} (sound : e₀.Sound) (ran : (d.evalPop x).run.run e₀ = (.ok v, e)) :
    ∃ e₁, (d.evalExpr x).run.run e₀ = (.ok (), e₁) ∧ e₁.stack = e₀.stack.push v ∧
      e = { e₁ with stack := e₀.stack } := by
  have evaluated := (triple_iff _ _ _ _).mp (g.evalExpr x e₀) e₀ ⟨rfl, sound⟩
  rw [Evaluator.evalPop, run_bind] at ran
  generalize (d.evalExpr x).run.run e₀ = out at evaluated ran ⊢
  obtain ⟨r, e₁⟩ := out
  cases r with
  | error u => cases ran
  | ok u =>
    obtain ⟨-, pushed⟩ := evaluated
    have popped := (triple_iff _ _ _ _).mp (@popValue_spec Unwind e₁) e₁ ⟨rfl, pushed.nonempty sound⟩
    simp only [ran] at popped
    obtain ⟨-, w, stack⟩ := pushed
    obtain ⟨rfl, rfl⟩ := popped
    exact ⟨e₁, rfl, by simp [stack], by simp [stack]⟩

/-- The stack discipline of expressions, at every level of fuel. From a sound engine, as every
session keeps, an expression that finishes has pushed exactly one value over the stack it found,
with the control state restored; one that throws throws a live value and leaves the stack it
found untouched under whatever it left on top; and evaluating an expression for its value gives
exactly the value it pushed, with the stack as it found it. -/
theorem expression_stack_discipline (n : Nat) (x : Expr) {e₀ : Engine} (sound : e₀.Sound) :
    (match ((Evaluator.ofFuel n).evalExpr x).run.run e₀ with
      | (.ok (), e) => e₀.Pushed e
      | (.error u, e) => e₀.Stopped u e) ∧
    ∀ v e, ((Evaluator.ofFuel n).evalPop x).run.run e₀ = (.ok v, e) →
      ∃ e₁, ((Evaluator.ofFuel n).evalExpr x).run.run e₀ = (.ok (), e₁) ∧
        e₁.stack = e₀.stack.push v ∧ e = { e₁ with stack := e₀.stack } := by
  have g := Evaluator.guarded_ofFuel n
  refine ⟨?_, fun v e ran => g.evalPop_run sound ran⟩
  have evaluated := (triple_iff _ _ _ _).mp (g.evalExpr x e₀) e₀ ⟨rfl, sound⟩
  generalize ((Evaluator.ofFuel n).evalExpr x).run.run e₀ = out at evaluated ⊢
  obtain ⟨r, e⟩ := out
  cases r with
  | error u => exact evaluated.2
  | ok u => exact evaluated.2

/-- From a fresh session, evaluating a number literal pushes it over the stack found. -/
theorem fresh_engine_keeps_expression_discipline :
    (Engine.fresh {} 0).Sound ∧
      match ((Evaluator.ofFuel 1).evalExpr (.number 1)).run.run (Engine.fresh {} 0) with
      | (.ok (), e) => (Engine.fresh {} 0).Pushed e
      | (.error u, e) => (Engine.fresh {} 0).Stopped u e :=
  ⟨Engine.fresh_sound {} 0,
    (expression_stack_discipline 1 (.number 1) (Engine.fresh_sound {} 0)).1⟩

end EmbedScript
