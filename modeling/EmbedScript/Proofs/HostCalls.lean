import Mathlib
import EmbedScript.Proofs.Atomicity
import EmbedScript.Proofs.Display
import EmbedScript.Proofs.SessionSafety

/-!
The protocol of a host call. A call of a host function, or of a method that a suite binds, runs
the body in a frame of its arguments just above its receiver: all of the arguments, or exactly as
many as a fixed arity asks for, cut off or padded with undefined. Whatever the body does through
the stack interface, reentering the engine to evaluate, call or collect included, leaves what lies
under that frame as the caller had it, and push_this finds the receiver. The call then replaces
its group by one value, undefined when the body reports none and the top of its frame when it
reports no more values than the frame holds; otherwise it removes the group and throws an error
object that reports the body's error, or the type error of a body that reports more values than
its frame holds.
Main statement: `host_calls_keep_their_protocol`.
-/

namespace EmbedScript

open Std.Do

/-- The values a host function sees of its arguments: all of them, or exactly `k`, cut off or
padded with undefined. -/
def Arity.fit : Arity → Array Value → Array Value
  | .variadic, args => args
  | .fixed k, args => args.take k ++ Array.replicate (k - args.size) .undefined

namespace Engine

/-- The function at `base` runs the host body `body` of arity `arity` under the name `name`: it is
a host function, or a method of a suite proxy whose suite, found in the registry, binds the name
to the body. -/
def HostCallee (e : Engine) (base : Nat) (name : String) (body : Native) (arity : Arity) : Prop :=
  (e.objectOf? (e.getAbs base)).bind HeapObject.function? = some (.host name body arity) ∨
    arity = .variadic ∧ ∃ proxy h suite,
      (e.objectOf? (e.getAbs base)).bind HeapObject.function? = some (.method proxy name) ∧
      (e.object? proxy).bind HeapObject.hostHandle? = some h ∧
      e.registry.lookupAs .suite h = .ok suite ∧ suite.suite?.bind (·.find? name) = some body

/-- Where an operation run in the frame of a host function called with its group at `base`
leaves the engine: in that frame still, with what lies under it as the caller had it, and with
the receiver where push_this reads it. -/
def InHostFrame (e₀ : Engine) (base : Nat) (e : Engine) : Prop :=
  e.bottom = base + 2 ∧ e.stack.take (base + 2) = e₀.stack.take (base + 2) ∧
    Api.pushThis.run.run e = (.ok (), e.push (e₀.getAbs (base + 1)))

/-- Where a host function called with its group at `base` leaves the engine once its frame is
left: the control state restored and, under the value it gives or after throwing an error object
that reports its error, what lay under the group. -/
def HostReturns (e₀ : Engine) (base : Nat) :
    Except ScriptError Value → Except Unwind Unit × Engine → Prop
  | .ok v, (r, e) => r = .ok () ∧ e.control = e₀.control ∧
      ∃ s : Array Value, e.stack = s.push v ∧ base ≤ s.size ∧ s.take base = e₀.stack.take base
  | .error err, (r, e) => e.control = e₀.control ∧ base ≤ e.stack.size ∧
      e.stack.take base = e₀.stack.take base ∧ ∃ x, r = .error (.thrown x) ∧ e.scriptErrorOf x = err

/-- Where a call with its group at `base` leaves the engine: the control state restored, and the
group replaced by the value given, or removed and an error object thrown that reports the error. -/
def Answers (e₀ : Engine) (base : Nat) :
    Except ScriptError Value → Except Unwind Unit × Engine → Prop
  | .ok v, (r, e) => r = .ok () ∧ e.control = e₀.control ∧ e.stack = (e₀.stack.take base).push v
  | .error err, (r, e) => e.control = e₀.control ∧ e.stack = e₀.stack.take base ∧
      ∃ x, r = .error (.thrown x) ∧ e.scriptErrorOf x = err

variable {e₀ e e₁ : Engine} {base : Nat} {arity : Arity}

/-! ### The frame of a host function -/

theorem bottom_enterHost : (e.enterHost base arity).bottom = base + 2 :=
  congrArg Control.bottom control_enterHost

theorem hostFrames_enterHost : (e.enterHost base arity).hostFrames = e.hostFrames.push (base + 1) :=
  congrArg Control.hostFrames control_enterHost

/-- A host function's frame holds the values its arity makes of the arguments, just above the
receiver. -/
theorem stack_enterHost (group : base + 2 ≤ e.stack.size) :
    (e.enterHost base arity).stack =
      e.stack.take (base + 2) ++ arity.fit (e.stack.extract (base + 2) e.stack.size) := by
  cases arity with
  | variadic =>
    show e.stack = _
    simp [Arity.fit, Array.take_eq_extract, Array.extract_eq_self_of_le]
  | fixed k =>
    -- the frame is cut at `k` values, and padded up to them
    show e.stack.take (base + 2 + k) ++ Array.replicate (base + 2 + k - e.stack.size) .undefined = _
    simp only [Arity.fit, Array.take_eq_extract, Array.extract_extract, Array.size_extract]
    rw [← Array.append_assoc, Array.extract_append_extract]
    congr 1
    · ext i <;> simp
      omega
    · congr 1
      omega

theorem getAbs_eq_of_take {e' : Engine} {n i : Nat} (same : e.stack.take n = e'.stack.take n)
    (below : i < n) : e.getAbs i = e'.getAbs i := by
  have slot := congrArg (·[i]?) same
  simp only [getElem?_take_eq, below, if_true] at slot
  simp only [getAbs, Array.getD_eq_getD_getElem?, slot]

/-- Push_this pushes the value in the receiver's slot of the innermost host frame. -/
theorem pushThis_run {slot : Nat} (frame : e.hostFrames.back? = some slot) :
    Api.pushThis.run.run e = (.ok (), e.push (e.getAbs slot)) := by
  simp only [Api.pushThis, Api.push, pushValue, run_bind, run_get, run_modify, frame]
  rfl

/-- What keeps to the frame of a host function stays in it: the receiver and what lies under
the call group stay as the caller had them. -/
theorem Framed.inHostFrame (sound : e₀.Sound) (group : base + 2 ≤ e₀.stack.size)
    (framed : (e₀.enterHost base arity).Framed e) : e₀.InHostFrame base e := by
  obtain ⟨control, -, kept⟩ := framed
  obtain ⟨-, -, entered⟩ := sound.enterHost group arity
  have bottom : e.bottom = base + 2 := (congrArg Control.bottom control).trans bottom_enterHost
  have frames : e.hostFrames = e₀.hostFrames.push (base + 1) :=
    (congrArg Control.hostFrames control).trans hostFrames_enterHost
  have below : e.stack.take (base + 2) = e₀.stack.take (base + 2) :=
    take_eq_take fun i lt => by rw [kept i (bottom_enterHost ▸ lt), entered i lt]
  refine ⟨bottom, below, ?_⟩
  rw [pushThis_run (show e.hostFrames.back? = some (base + 1) by simp [frames]),
    getAbs_eq_of_take below (by omega)]

end Engine

/-- An operation that keeps to its frame, run in the frame of a host function, leaves the engine
in that frame unless it runs out of fuel. -/
theorem Api.Keeps.inHostFrame {α : Type} {m : Api α} (keeps : m.Keeps) {e₀ e : Engine}
    {base : Nat} {arity : Arity} (sound : e₀.Sound) (group : base + 2 ≤ e₀.stack.size)
    {r : Except Failure α} (ran : m.run.run (e₀.enterHost base arity) = (r, e))
    (finished : r ≠ .error .exhausted) : e₀.InHostFrame base e := by
  have kept := (triple_iff _ _ _ _).mp (keeps _) _ ⟨rfl, (sound.enterHost group arity).2.1⟩
  rw [ran] at kept
  rcases r with (err | _) | a
  · exact kept.2.inHostFrame sound group
  · exact absurd rfl finished
  · exact kept.framed.inHostFrame sound group

/-! ### The call -/

theorem hostResult_of_pos {name : String} {e : Engine} {k : Nat} (pos : 0 < k) :
    hostResult name e (.ok k) = if k ≤ e.top then .ok (e.stack.back?.getD .undefined)
      else .error ⟨ErrorKind.typeError.name,
        name ++ " returned " ++ toString k ++ " values but pushed " ++ toString e.top⟩ := by
  obtain ⟨j, rfl⟩ := Nat.exists_eq_add_of_lt pos
  rfl

/-- A host function whose body keeps to its frame leaves that frame and gives the value its report
makes of the frame it left, or throws an error object for the error the report makes. -/
theorem runHost_returns {body : Api Nat} (keeps : body.Keeps) {e₀ e₁ : Engine} {base : Nat}
    {arity : Arity} (name : String) (sound : e₀.Sound) (group : base + 2 ≤ e₀.stack.size)
    {r : Except Error Nat}
    (ran : body.capture.run.run (e₀.enterHost base arity) = (.ok r, e₁)) :
    e₀.HostReturns base (hostResult name e₁ r) ((runHost base name arity body).run.run e₀) := by
  have framed : (e₀.enterHost base arity).Steps e₁ ∧ (e₀.enterHost base arity).Framed e₁ := by
    have captured :=
      (triple_iff _ _ _ _).mp (keeps.capture_spec _) _ ⟨rfl, (sound.enterHost group arity).2.1⟩
    rw [ran] at captured
    exact captured
  obtain ⟨left, -, control, inside, kept⟩ := sound.leftHost group framed
  simp only [runHost, run_bind, run_get, run_modify, ran]
  generalize hostResult name e₁ r = answer
  cases answer with
  | ok v => exact ⟨rfl, control, _, rfl, inside, kept⟩
  | error err =>
    -- the error object is allocated once the frame is left
    have safe := left.safe' sound.safe
    obtain ⟨id, e₂, thrown, reports⟩ :=
      @Engine.scriptErrorOf_throwScriptError Unit err _ safe.wellFormed
    have raised := (triple_iff _ _ _ _).mp (@throwScriptError_spec Unit err _) _ ⟨rfl, safe⟩
    rw [thrown] at raised ⊢
    obtain ⟨-, ⟨-, control₂, -⟩, stack⟩ := raised
    exact ⟨control₂.trans control, stack ▸ inside, stack ▸ kept, _, rfl, reports⟩

namespace Evaluator

variable {d : Evaluator} {e₀ : Engine} {nargs : Nat}

/-- A host callee is dispatched to its body, from any engine with the heap and the registry it
was found in. -/
theorem dispatch_hostCallee {base : Nat} {name : String} {body : Native} {arity : Arity}
    (callee : e₀.HostCallee base name body arity) :
    ∃ f, (e₀.objectOf? (e₀.getAbs base)).bind HeapObject.function? = some f ∧
      ∀ (d : Evaluator) (e : Engine), e.heap = e₀.heap → e.registry = e₀.registry →
        (d.dispatch base f).run.run e = (d.callHost base name body arity).run.run e := by
  rcases callee with found | ⟨rfl, proxy, h, suite, found, handle, registered, bound⟩
  · exact ⟨_, found, fun _ _ _ _ => rfl⟩
  · refine ⟨_, found, fun d e heap registry => ?_⟩
    -- a method runs the body its suite binds, found through the proxy's handle
    have handle' : (e.object? proxy).bind HeapObject.hostHandle? = some h := by
      simpa [Engine.object?, heap] using handle
    simp only [dispatch, callSuiteMethod, run_bind, run_get, handle', registry, registered, bound]

/-- A call that passes its checks and dispatches to a function that returns as a host function
does answers as one. -/
theorem invokeStep_answers (group : e₀.bottom + nargs + 2 ≤ e₀.stack.size)
    (ready : e₀.canCall = true) (room : e₀.stack.size ≤ e₀.config.maxStackValues) {f : Function}
    (found : (e₀.objectOf? (e₀.getAbs (e₀.stack.size - nargs - 2))).bind HeapObject.function? =
      some f) {a : Except ScriptError Value}
    (returns : { e₀ with callDepth := e₀.callDepth + 1, nesting := e₀.nesting + 1 }.HostReturns
      (e₀.stack.size - nargs - 2) a ((d.dispatch (e₀.stack.size - nargs - 2) f).run.run
        { e₀ with callDepth := e₀.callDepth + 1, nesting := e₀.nesting + 1 })) :
    e₀.Answers (e₀.stack.size - nargs - 2) a ((d.invokeStep nargs false).run.run e₀) := by
  have fits : ¬ e₀.stack.size > e₀.config.maxStackValues := by omega
  simp only [invokeStep, run_bind, run_get, ready, Bool.not_true, Bool.false_eq_true, if_false,
    fits, found, run_modify, attempt_run]
  generalize (d.dispatch (e₀.stack.size - nargs - 2) f).run.run _ = outcome at returns ⊢
  obtain ⟨r, e⟩ := outcome
  cases a with
  | ok v =>
    obtain ⟨rfl, control, s, stack, inside, kept⟩ := returns
    -- the counts taken back, the value is popped off what the function left and pushed in
    -- place of the group
    have bottom : e.bottom = e₀.bottom := congrArg Engine.Control.bottom control
    have popped : { e with callDepth := e.callDepth - 1, nesting := e.nesting - 1 }.pop? =
        some (v, { e with callDepth := e.callDepth - 1, nesting := e.nesting - 1, stack := s }) := by
      simp only [Engine.pop?, stack, Array.size_push, Array.back?_push, Option.getD_some,
        Array.pop_push]
      rw [if_pos (by omega)]
    simp only [run_bind, run_popValue, popped, run_get, run_modify]
    refine ⟨rfl, Engine.control_uncounted control, ?_⟩
    simp [Engine.truncate, Engine.push, kept]
  | error err =>
    obtain ⟨control, inside, kept, x, rfl, reports⟩ := returns
    simp only [run_bind, run_modify, run_throw]
    refine ⟨Engine.control_uncounted control, kept, x, rfl, ?_⟩
    rw [← reports]
    exact Engine.scriptErrorOf_of_heap (by rfl) x

end Evaluator

/-- How a call runs a host function, or a method that a suite binds to one, at every level of
the evaluator. The body starts in a frame of exactly the values its arity makes of the arguments,
just above its receiver. Any operation that keeps to its frame, as every operation of the stack
interface and every sequence of them does, leaves the engine in that frame, with what lies under
it as the caller had it and push_this reading the receiver. And the call answers from how the body
ended: with undefined when it reports no values, with the top of its frame when it reports some
and its frame holds as many; otherwise, the group removed, by throwing an error object that
reports a type error for a body that reports more values than its frame holds, or the body's own
error. -/
theorem host_calls_keep_their_protocol (n nargs : Nat) {e₀ : Engine} (sound : e₀.Sound)
    (group : e₀.bottom + nargs + 2 ≤ e₀.stack.size) (ready : e₀.canCall = true)
    (room : e₀.stack.size ≤ e₀.config.maxStackValues) {name : String} {body : Native}
    {arity : Arity} (callee : e₀.HostCallee (e₀.stack.size - nargs - 2) name body arity) :
    let base := e₀.stack.size - nargs - 2
    let entry :=
      { e₀ with callDepth := e₀.callDepth + 1, nesting := e₀.nesting + 1 }.enterHost base arity
    let call := ((Evaluator.ofFuel n).invokeStep nargs false).run.run e₀
    entry.stack =
        e₀.stack.take (base + 2) ++ arity.fit (e₀.stack.extract (base + 2) e₀.stack.size) ∧
      (∀ {α : Type} (m : Api α), m.Keeps → ∀ r e, m.run.run entry = (r, e) →
        r ≠ .error .exhausted → e₀.InHostFrame base e) ∧
      ∀ r e₁, ((Evaluator.ofFuel n).reentry.runNative body).run.run entry = (r, e₁) →
        (r = .ok 0 → e₀.Answers base (.ok .undefined) call) ∧
        (∀ k, r = .ok k → 0 < k → k ≤ e₁.top →
          e₀.Answers base (.ok (e₁.stack.back?.getD .undefined)) call) ∧
        (∀ k, r = .ok k → e₁.top < k → e₀.Answers base (.error ⟨ErrorKind.typeError.name,
          name ++ " returned " ++ toString k ++ " values but pushed " ++ toString e₁.top⟩) call) ∧
        (∀ err, r = .error (.error err) → e₀.Answers base (.error err.toScriptError) call) := by
  intro base entry call
  have counted := sound.counted.2
  have inside : base + 2 ≤ e₀.stack.size := by omega
  refine ⟨Engine.stack_enterHost inside, fun m keeps r e ran finished => ?_, ?_⟩
  · -- the frame is entered from the counted engine, whose stack is the caller's
    have framed := keeps.inHostFrame counted inside ran finished
    exact framed
  intro r e₁ ran
  -- the call answers with what the body's report makes of the frame it left
  have answers : ∀ r', ((Evaluator.ofFuel n).reentry.runNative body).capture.run.run entry =
      (.ok r', e₁) → e₀.Answers base (hostResult name e₁ r') call := by
    intro r' captured
    obtain ⟨f, found, dispatched⟩ := Evaluator.dispatch_hostCallee callee
    apply Evaluator.invokeStep_answers group ready room found
    rw [dispatched _ { e₀ with callDepth := e₀.callDepth + 1, nesting := e₀.nesting + 1 } rfl rfl]
    exact runHost_returns ((Evaluator.guarded_ofFuel n).reentry_keeps.runNative body) name counted
      inside captured
  refine ⟨?_, ?_, ?_, ?_⟩
  · rintro rfl
    exact answers (.ok 0) (by rw [capture_run, ran])
  · rintro k rfl pos fits
    have answered := answers (.ok k) (by rw [capture_run, ran])
    rwa [hostResult_of_pos pos, if_pos fits] at answered
  · rintro k rfl beyond
    have answered := answers (.ok k) (by rw [capture_run, ran])
    rwa [hostResult_of_pos (by omega), if_neg (by omega)] at answered
  · rintro err rfl
    exact answers (.error err) (by rw [capture_run, ran])

/-- A fresh engine with the host function that counts its arguments pushed, then a receiver and
one argument, ready for a call. -/
def argcCallEngine : Engine :=
  ((do
    let _ ← Api.pushHostFunction .argc .variadic
    Api.push .undefined
    Api.push (.number 1) : Api Unit).run.run (Engine.fresh {} 0)).2

theorem argcCallEngine_sound : argcCallEngine.Sound :=
  (Api.Keeps.run_sound ((Api.Keeps.pushHostFunction .argc .variadic).bind fun _ =>
    (Api.Keeps.push rfl).bind fun _ => Api.Keeps.push rfl) (Engine.fresh_sound {} 0)).2

/-- Calling the argument counter with one argument runs it in a frame of that argument. -/
theorem argc_call_runs_in_its_frame :
    argcCallEngine.Sound ∧ argcCallEngine.bottom + 1 + 2 ≤ argcCallEngine.stack.size ∧
      argcCallEngine.canCall = true ∧
      argcCallEngine.stack.size ≤ argcCallEngine.config.maxStackValues ∧
      argcCallEngine.HostCallee (argcCallEngine.stack.size - 1 - 2) "" .argc .variadic ∧
      ({ argcCallEngine with
          callDepth := argcCallEngine.callDepth + 1, nesting := argcCallEngine.nesting + 1 }.enterHost
          (argcCallEngine.stack.size - 1 - 2) .variadic).stack =
        argcCallEngine.stack.take (argcCallEngine.stack.size - 1 - 2 + 2) ++
          Arity.variadic.fit (argcCallEngine.stack.extract (argcCallEngine.stack.size - 1 - 2 + 2)
            argcCallEngine.stack.size) := by
  have group : argcCallEngine.bottom + 1 + 2 ≤ argcCallEngine.stack.size := by decide +kernel
  have ready : argcCallEngine.canCall = true := by decide +kernel
  have room : argcCallEngine.stack.size ≤ argcCallEngine.config.maxStackValues := by
    decide +kernel
  have callee : argcCallEngine.HostCallee (argcCallEngine.stack.size - 1 - 2) "" .argc .variadic :=
    .inl rfl
  exact ⟨argcCallEngine_sound, group, ready, room, callee,
    (host_calls_keep_their_protocol 1 1 argcCallEngine_sound group ready room callee).1⟩

end EmbedScript
