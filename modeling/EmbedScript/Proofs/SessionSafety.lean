import Mathlib
import EmbedScript.Proofs.Levels
import EmbedScript.Proofs.HandleTable

/-!
Every state a session reaches is safe. Each operation of a session keeps the engine to its
frame: the pushes and reads of the stack interface, evaluation, calls of every form, collection,
and the host functions and finalizers these run, however deeply they reenter the engine. So each
operation moves the engine by atomic steps, and every step keeps it safe; every collection among
them sweeps from the roots of the engine it finds. Describing the frame after a step reads the
stack through the same interface, and destroying the engine starts again from a fresh one, which
is safe. Whatever an engine invariant that atomic steps keep, a session therefore keeps it over
any sequence of steps.
-/

namespace EmbedScript

open Std.Do

/-! ### Operations built on the stack interface -/

namespace Api.Keeps

variable {α β : Type}

/-- Mapping an operation over a list keeps to the frame when each run does. -/
theorem mapM {l : List α} {f : α → Api β} (each : ∀ a, (f a).Keeps) : (l.mapM f).Keeps := by
  induction l with
  | nil => exact .pure []
  | cons a rest ih =>
    rw [List.mapM_cons]
    exact .bind (each a) fun b => .bind ih fun bs => .pure (b :: bs)

/-- Popping the top of the frame, or reading undefined from an empty one. -/
theorem popValue : (EmbedScript.popValue : Api Value).Keeps := by
  intro e₀
  mvcgen [EmbedScript.popValue] with obtain ⟨rfl, sound⟩ := ‹_ = e₀ ∧ _›
  | vc1 => exact (sound.popped ‹_›).1
  | vc2 => exact .refl sound

/-- Running an operation for its effect alone. -/
theorem discard {x : Api α} (keeps : x.Keeps) : (Functor.discard x).Keeps := by
  change ((fun _ => PUnit.unit) <$> x).Keeps
  rw [map_eq_bind_pure_comp]
  exact .bind keeps fun _ => .pure _

theorem textAt (i : Int) : (Api.textAt i).Keeps :=
  .bind (.dup i) fun _ => .bind (.toStringAt (-1)) fun s => .bind .pop fun _ => .pure s

/-- Describing a value reads it through the interface, and every copy it pushes it pops. -/
theorem describeWith (fuel : Nat) (depth i : Int) : (Api.describeWith fuel depth i).Keeps := by
  induction fuel generalizing depth i with
  | zero => exact .pure _
  | succ fuel ih =>
    refine .bind .get fun e => ?_
    -- reading below the object goes one level down, and pops what it read
    have below : ∀ read : Api Bool, read.Keeps → (do
        let _ ← read
        let d ← Api.describeWith fuel (depth - 1) (-1)
        Api.pop
        Pure.pure d : Api Description).Keeps :=
      fun read reads => .bind reads fun _ => .bind (ih _ _) fun d => .bind .pop fun _ => .pure d
    cases e.normalize i with
    | none => exact .pure _
    | some abs =>
      dsimp only
      generalize e.getAbs abs = v
      cases v with
      | object id =>
        refine .bind (textAt _) fun s => ?_
        -- an array, an error, a function, a host object or a plain object
        split
        · refine .bind (.of_reads (.getLength _)) fun length => ?_
          split
          · exact .bind (.mapM fun k => below _ (.getPropString _ _)) fun items => .pure _
          · exact .pure _
        split
        · exact .bind (below _ (.getPropString _ _)) fun _ => .bind (below _ (.getPropString _ _)) fun _ => .pure _
        split
        · exact .bind (below _ (.getPropString _ _)) fun _ => .bind (below _ (.getPropString _ _)) fun _ => .pure _
        split
        · exact .bind (.of_reads (.getHostHandle _)) fun _ => .pure _
        · exact .pure _
      | _ => exact .pure _

theorem describe (i : Int) : (Api.describe i).Keeps :=
  .bind .get fun _ => describeWith _ _ i

theorem describeTop : Api.describeTop.Keeps :=
  .bind (.of_reads .getTop) fun _ => .mapM fun _ => describe _

end Api.Keeps

/-! ### Calls -/

namespace Evaluator

variable {d : Evaluator}

theorem Guarded.keeps_callMethod (g : d.Guarded) (nargs : Nat) : (d.callMethod nargs).Keeps :=
  .of_requireValues fun e₀ sound group =>
    triple_conseq (g.callMethod_spec nargs e₀) (fun _ ⟨same, _⟩ => ⟨same, sound, group⟩)
      (fun _ _ ⟨run, replaced⟩ => replaced.moved run (by omega) (by omega))
      fun _ _ ⟨run, dropped⟩ => ⟨run, dropped.failed (by omega) (by omega)⟩

theorem Guarded.keeps_pcallMethod (g : d.Guarded) (nargs : Nat) : (d.pcallMethod nargs).Keeps :=
  .of_requireValues fun e₀ sound group =>
    triple_conseq (g.pcallMethod_spec nargs e₀) (fun _ ⟨same, _⟩ => ⟨same, sound, group⟩)
      (fun _ _ ⟨run, replaced⟩ => replaced.moved run (by omega) (by omega))
      fun _ _ ⟨run, caught⟩ => ⟨run, caught.failed (by omega) (by omega)⟩

/-- Without the arguments, or without a value other than undefined and null at the index,
preparing a property call refuses where the engine stands. -/
theorem preparePropCall_refuses (i : Int) (key : String) (nargs : Nat) {e₀ : Engine}
    (framed : e₀.bottom ≤ e₀.stack.size) (missing : ¬(e₀.bottom + nargs ≤ e₀.stack.size ∧
      ∃ t, e₀.get? i = some t ∧ t.isNullish = false)) :
    ⦃fun e => ⌜e = e₀⌝⦄ preparePropCall i key nargs
    ⦃post⟨fun _ _ => ⌜False⌝, fun x e => ⌜e = e₀ ∧ ∃ err, x = .error err⌝⟩⦄ := by
  mvcgen [preparePropCall, Api.requireValues_spec, Api.valueAt_spec, EmbedScript.fail] with
    ((try casesm* _ ∧ _); subst_vars)
  | vc1 => exact ⟨rfl, _, rfl⟩
  | vc2 =>
    refine absurd ⟨by unfold Engine.top at *; omega, _, ‹_›, ?_⟩ missing
    simpa using ‹¬Value.isNullish _ = true›
  | vc3 | vc4 => exact And.intro

/-- A property call, protected or not, keeps to the frame when it does from every sound engine
with its arguments and a target other than undefined and null. -/
theorem keeps_of_prepared (i : Int) (key : String) (nargs : Nat) {rest : Unit → Api Unit}
    (ready : ∀ e₀ t, e₀.Sound → e₀.bottom + nargs ≤ e₀.stack.size → e₀.get? i = some t →
      t.isNullish = false →
      ⦃fun e => ⌜e = e₀ ∧ e₀.Sound⌝⦄ (preparePropCall i key nargs >>= rest)
      ⦃post⟨fun _ e => ⌜e₀.Moved e⌝, fun x e => ⌜e₀.Steps e ∧ e₀.Failed x e⌝⟩⦄) :
    (preparePropCall i key nargs >>= rest).Keeps := by
  refine .of_sound fun e₀ sound => ?_
  by_cases prepared : e₀.bottom + nargs ≤ e₀.stack.size ∧
      ∃ t, e₀.get? i = some t ∧ t.isNullish = false
  · obtain ⟨group, t, found, present⟩ := prepared
    exact ready e₀ t sound group found present
  · have refused := preparePropCall_refuses i key nargs sound.framed prepared
    -- refused before anything changes
    mvcgen [refused] with obtain ⟨rfl, -⟩ := ‹_ = e₀ ∧ _›
    | vc1 => rfl
    | vc2 => exact fun _ => False.elim
    | vc3 => exact fun same refusal => sound.refused same refusal

theorem Guarded.keeps_callProp (g : d.Guarded) (i : Int) (key : String) (nargs : Nat) :
    (d.callProp i key nargs).Keeps :=
  keeps_of_prepared i key nargs fun e₀ t sound group found present =>
    triple_conseq (g.callProp_spec i key nargs t e₀)
      (fun _ ⟨same, _⟩ => ⟨same, sound, group, found, present⟩)
      (fun _ _ ⟨run, replaced⟩ => replaced.moved run (by omega) (by omega))
      fun _ _ ⟨run, dropped⟩ => ⟨run, dropped.failed (by omega) (by omega)⟩

theorem Guarded.keeps_pcallProp (g : d.Guarded) (i : Int) (key : String) (nargs : Nat) :
    (d.pcallProp i key nargs).Keeps :=
  keeps_of_prepared i key nargs fun e₀ t sound group found present =>
    triple_conseq (g.pcallProp_spec i key nargs t e₀)
      (fun _ ⟨same, _⟩ => ⟨same, sound, group, found, present⟩)
      (fun _ _ ⟨run, replaced⟩ => replaced.moved run (by omega) (by omega))
      fun _ _ ⟨run, caught⟩ => ⟨run, caught.failed (by omega) (by omega)⟩

end Evaluator

namespace Api.Keeps

/-- Evaluating a function and calling it with a suite keeps to the frame; a value that is no
such function is popped before the mismatch is reported. -/
theorem evalWith (src : String) (suite : MethodSuite) : (Api.evalWith src suite).Keeps := by
  have g := Evaluator.guarded_standard
  refine .bind (g.keeps_evalString src) fun _ => .bind .get fun e => ?_
  have rest : (do Functor.discard (Api.pushMethodSuite suite); Api.call 1 : Api Unit).Keeps :=
    .bind (discard (.pushMethodSuite suite)) fun _ => g.keeps_call 1
  dsimp only
  split
  · exact .bind (discard popValue) fun _ => .bind (.fail _) fun _ => rest
  · exact rest

end Api.Keeps

/-! ### Every operation of a session -/

/-- A property that every atomic step keeps from safe engines holds along every run of steps
from a safe engine. -/
theorem Engine.Steps.invariant {Inv : Engine → Prop}
    (step : ∀ {e e' : Engine}, e.Safe → Inv e → e.Step e' → Inv e') {e e' : Engine}
    (run : e.Steps e') (safe : e.Safe) (inv : Inv e) : Inv e' := by
  induction run with
  | refl => exact inv
  | tail run last ih => exact step (safe.steps run) ih last

/-- An engine that atomic steps reach from a sound one, and where a failed operation left it, is
sound. -/
theorem Engine.Sound.failed {e₀ e : Engine} {x : Failure} (sound : e₀.Sound) (run : e₀.Steps e)
    (failed : e₀.Failed x e) : e.Sound := by
  cases x with
  | error err => exact sound.framed' run failed
  | exhausted => exact sound.of_steps run failed

/-- From a sound engine, an operation that keeps to its frame ends, finished or failed, in a
sound engine reached by atomic steps. -/
theorem Api.Keeps.run_sound {α : Type} {act : Api α} (keeps : act.Keeps) {e : Engine}
    (sound : e.Sound) : e.Steps (act.run.run e).2 ∧ (act.run.run e).2.Sound := by
  have ran := (triple_iff _ _ _ _).mp (keeps e) e ⟨rfl, sound⟩
  revert ran
  rcases act.run.run e with ⟨x | a, e'⟩
  · rintro ⟨run, failed⟩
    exact ⟨run, sound.failed run failed⟩
  · intro moved
    exact ⟨moved.steps, moved.sound sound⟩

open Api.Keeps in
/-- Every operation of a session keeps the engine to its frame. -/
theorem Step.keeps_operation (step : Step) : step.operation.Keeps := by
  have g := Evaluator.guarded_standard
  -- each operation is one of the interface's, followed by its outcome
  cases step with
  | pushUndefined => exact .bind (.push rfl) fun _ => .pure _
  | pushNull => exact .bind (.push rfl) fun _ => .pure _
  | pushGlobalObject => exact .bind .pushGlobalObject fun _ => .pure _
  | pushThis => exact .bind .pushThis fun _ => .pure _
  | pushBoolean b => exact .bind (.push rfl) fun _ => .pure _
  | pushInt i => exact .bind (.push rfl) fun _ => .pure _
  | pushNumber x => exact .bind (.push rfl) fun _ => .pure _
  | pushString s => exact .bind (.push rfl) fun _ => .pure _
  | pushObject => exact .bind .pushObject fun _ => .pure _
  | pushArray => exact .bind .pushArray fun _ => .pure _
  | pushHostFunction body arity => exact .bind (.pushHostFunction body arity) fun _ => .pure _
  | pushErrorObject kind message => exact .bind (.pushErrorObject kind message) fun _ => .pure _
  | pushHostObject v => exact .bind (.pushHostObject v) fun _ => .pure _
  | pushMethodSuite suite => exact .bind (.pushMethodSuite suite) fun _ => .pure _
  | getType i => exact .bind .get fun _ => .pure _
  | checkType i t => exact .bind .get fun _ => .pure _
  | check c i => exact .bind .get fun _ => .pure _
  | getBoolean i => exact .bind (.of_reads (.getBoolean i)) fun _ => .pure _
  | getInt i => exact .bind (.of_reads (.getInt i)) fun _ => .pure _
  | getString i => exact .bind (.of_reads (.getString i)) fun _ => .pure _
  | getLength i => exact .bind (.of_reads (.getLength i)) fun _ => .pure _
  | getNumber i => exact .bind (.of_reads (.getNumber i)) fun _ => .pure _
  | toBoolean i => exact .bind (.toBooleanAt i) fun _ => .pure _
  | toInt i => exact .bind (.toIntAt i) fun _ => .pure _
  | toText i => exact .bind (.toStringAt i) fun _ => .pure _
  | toNumber i => exact .bind (.toNumberAt i) fun _ => .pure _
  | getTop => exact .bind (.of_reads .getTop) fun _ => .pure _
  | setTop i => exact .bind (.setTop i) fun _ => .pure _
  | normalizeIndex i => exact .bind (.of_reads (.normalizeIndex i)) fun _ => .pure _
  | pop => exact .bind .pop fun _ => .pure _
  | dupTop => exact .bind .dupTop fun _ => .pure _
  | popN n => exact .bind (.popN n) fun _ => .pure _
  | dup i => exact .bind (.dup i) fun _ => .pure _
  | insert i => exact .bind (.insert i) fun _ => .pure _
  | remove i => exact .bind (.remove i) fun _ => .pure _
  | replace i => exact .bind (.replace i) fun _ => .pure _
  | swap a b => exact .bind (.swap a b) fun _ => .pure _
  | getPropString i key => exact .bind (.getPropString i key) fun _ => .pure _
  | putPropString i key => exact .bind (.putPropString i key) fun _ => .pure _
  | hasPropString i key => exact .bind (.of_reads (.hasPropString i key)) fun _ => .pure _
  | delPropString i key => exact .bind (.delPropString i key) fun _ => .pure _
  | getPropIndex i n => exact .bind (.getPropString i _) fun _ => .pure _
  | putPropIndex i n => exact .bind (.putPropIndex i n) fun _ => .pure _
  | getGlobalString key => exact .bind (.getGlobalString key) fun _ => .pure _
  | putGlobalString key => exact .bind (.putGlobalString key) fun _ => .pure _
  | setFinalizer i => exact .bind (.setFinalizer i) fun _ => .pure _
  | getFinalizer i => exact .bind (.getFinalizer i) fun _ => .pure _
  | call n => exact .bind (g.keeps_call n) fun _ => .pure _
  | pcall n => exact .bind (g.keeps_pcall n) fun _ => .pure _
  | callMethod n => exact .bind (g.keeps_callMethod n) fun _ => .pure _
  | pcallMethod n => exact .bind (g.keeps_pcallMethod n) fun _ => .pure _
  | callProp i key n => exact .bind (g.keeps_callProp i key n) fun _ => .pure _
  | pcallProp i key n => exact .bind (g.keeps_pcallProp i key n) fun _ => .pure _
  | gc => exact .bind g.keeps_collectGarbage fun _ => .pure _
  | evalString src => exact .bind (g.keeps_evalString src) fun _ => .pure _
  | pevalString src => exact .bind (g.keeps_pevalString src) fun _ => .pure _
  | evalWith src suite => exact .bind (Api.Keeps.evalWith src suite) fun _ => .pure _
  | getHostHandle i => exact .bind (.of_reads (.getHostHandle i)) fun _ => .pure _
  | getHostObject i kind => exact .bind (.of_reads (.getHostObject i kind)) fun _ => .pure _
  | objectCount => exact .bind .get fun _ => .pure _
  | registryLen => exact .bind .get fun _ => .pure _
  | registryHandles => exact .bind .get fun _ => .pure _
  | registryContains h => exact .bind .get fun _ => .pure _
  | registryTypeName h =>
    refine .bind .get fun e => ?_
    split
    · exact .pure _
    · exact .fail _
  | registryLookup h kind =>
    refine .bind .get fun e => ?_
    cases kind with
    | as k =>
      dsimp only
      cases e.registry.lookupAs k h
      · exact .fail _
      · exact .pure _
    | any =>
      dsimp only
      cases e.registry.lookup h
      · exact .fail _
      · exact .pure _
  | counter => exact .bind .get fun _ => .pure _

/-! ### Sessions -/

namespace Session

variable {α : Type}

@[simp] theorem exec_engine (s : Session) (act : Api α) :
    (s.exec act).2.engine = (act.run.run s.engine).2 := rfl

@[simp] theorem exec_config (s : Session) (act : Api α) : (s.exec act).2.config = s.config := rfl

/-- Answering a step describes the frame through the stack interface, which keeps to it. -/
theorem answer_sound (s : Session) (sound : s.engine.Sound) (result : Except Failure Outcome) :
    s.engine.Steps (s.answer result).2.engine ∧ (s.answer result).2.engine.Sound ∧
      (s.answer result).2.config = s.config :=
  ⟨(Api.Keeps.describeTop.run_sound sound).1, (Api.Keeps.describeTop.run_sound sound).2, rfl⟩

/-- Keeping a point records it in the session, not in the engine. -/
theorem keep_engine (s : Session) (r : Except Failure Nat) :
    (match r with
      | .ok h => { s with kept := s.kept ++ [(s.life, h)] }
      | .error _ => s : Session).engine = s.engine ∧
    (match r with
      | .ok h => { s with kept := s.kept ++ [(s.life, h)] }
      | .error _ => s : Session).config = s.config := by
  cases r <;> exact ⟨rfl, rfl⟩

/-- A step of a session moves its engine by atomic steps to a sound one; destroying the engine
starts the moves from a fresh one. -/
theorem run_sound (s : Session) (sound : s.engine.Sound) (step : SessionStep) :
    (step ≠ .destroy → s.engine.Steps (s.run step).2.engine) ∧
      (step = .destroy → (Engine.fresh s.config s.engine.tally).Steps (s.run step).2.engine) ∧
      (s.run step).2.engine.Sound ∧ (s.run step).2.config = s.config := by
  cases step with
  | engine op =>
    obtain ⟨run, sound'⟩ := (Step.keeps_operation op).run_sound sound
    obtain ⟨answered, sound'', config⟩ := answer_sound (s.exec op.operation).2 sound' 
      (s.exec op.operation).1
    exact ⟨fun _ => run.trans answered, nofun, sound'', config⟩
  | pushKeptPoint p =>
    obtain ⟨run, sound'⟩ := (Api.Keeps.pushHostObject (.point p)).run_sound sound
    obtain ⟨engine, config⟩ := keep_engine (s.exec (Api.pushHostObject (.point p))).2
      (s.exec (Api.pushHostObject (.point p))).1
    rw [← exec_engine, ← engine] at run sound'
    obtain ⟨answered, sound'', config'⟩ := answer_sound _ sound' 
      ((s.exec (Api.pushHostObject (.point p))).1.map fun h => .int h)
    exact ⟨fun _ => run.trans answered, nofun, sound'', config'.trans config⟩
  | rcCounts =>
    obtain ⟨answered, sound', config⟩ := answer_sound s sound (.ok (.naturals s.rcCounts))
    exact ⟨fun _ => answered, nofun, sound', config⟩
  | destroy =>
    obtain ⟨answered, sound', config⟩ := answer_sound 
      { s with engine := Engine.fresh s.config s.engine.tally, life := s.life + 1 }
      (Engine.fresh_sound _ _) (.ok .unit)
    exact ⟨fun other => absurd rfl other, fun _ => answered, sound', config⟩

/-- A property of engines that fresh engines have and that atomic steps keep from safe engines
holds, with soundness, of the engine of a session after any sequence of steps. -/
theorem runSteps_invariant {Inv : Engine → Prop}
    (fresh : ∀ config tally, Inv (Engine.fresh config tally))
    (step : ∀ {e e' : Engine}, e.Safe → Inv e → e.Step e' → Inv e') (steps : List SessionStep) :
    ∀ s : Session, s.engine.Sound → Inv s.engine →
      (runSteps Session.run s steps).2.engine.Sound ∧ Inv (runSteps Session.run s steps).2.engine := by
  induction steps with
  | nil => exact fun _ sound inv => ⟨sound, inv⟩
  | cons first rest ih =>
    intro s sound inv
    obtain ⟨moved, restarted, sound', -⟩ := run_sound s sound first
    -- the invariant follows the atomic steps, from the old engine or from a fresh one
    have inv' : Inv (s.run first).2.engine := by
      by_cases destroyed : first = .destroy
      · exact (restarted destroyed).invariant step (Engine.fresh_sound _ _).safe (fresh _ _)
      · exact (moved destroyed).invariant step sound.safe inv
    exact ih _ sound' inv'

end Session

/-- Every state a session reaches is safe. After any sequence of steps from a fresh session
(pushes, reads and stack edits, evaluation, calls of every form with the host functions and
finalizers they run, collections, kept points and engine restarts), the heap is well formed,
every reference of a live object names a live object, every root (each value on the stack, each
scope, each queued object and the global object) names a live object, and the frame lies inside
the stack. Every further step that keeps the engine moves it by atomic steps, so every engine it
passes through is safe too, and each collection on the way sweeps from the roots of the engine it
finds. -/
theorem session_engine_safe (config : Config) (steps : List SessionStep) :
    let s := (runSteps Session.run (Session.start config) steps).2
    s.engine.heap.WellFormed ∧ s.engine.heap.Closed ∧
      (∀ id ∈ s.engine.roots, s.engine.heap.Valid id) ∧ s.engine.bottom ≤ s.engine.stack.size ∧
      ∀ step, step ≠ .destroy → s.engine.Steps (s.run step).2.engine := by
  intro s
  obtain ⟨sound, -⟩ := @Session.runSteps_invariant (fun _ => True) (fun _ _ => trivial)
    (fun _ _ _ => trivial) steps (Session.start config) (Engine.fresh_sound _ _) trivial
  exact ⟨sound.safe.wellFormed, sound.safe.closed, Engine.rootsLive_iff.mp sound.safe.roots,
    sound.framed, fun step other => (Session.run_sound s sound step).1 other⟩

end EmbedScript
