import Mathlib
import EmbedScript.Proofs.Primitives

/-!
The stack interface keeps to its frame. Every operation checks its indices and counts before it
changes anything, and then only reads and writes the values from the bottom of the frame up; so
from a sound engine each one moves the engine by atomic steps, restores the control state, and
leaves every value below the frame where it was, whether it finishes or fails.
-/

namespace EmbedScript

open Std.Do

set_option mvcgen.warning false

/-! ### Stack operations inside the frame -/

namespace Engine

variable {e : Engine} {v : Value} {abs n : Nat}

theorem normalize_bounds {i : Int} (found : e.normalize i = some abs) :
    e.bottom ≤ abs ∧ abs < e.stack.size := by
  unfold normalize at found
  simp only at found
  split_ifs at found with sign inside inside
  · obtain rfl := Option.some.inj found
    omega
  · obtain rfl := Option.some.inj found
    omega

theorem get?_mem {i : Int} (found : e.get? i = some v) : v ∈ e.stack := by
  obtain ⟨abs, -, hit⟩ := Option.bind_eq_some_iff.mp found
  exact Array.mem_of_getElem? hit

/-- A new stack that keeps the values below the frame keeps the frame. -/
theorem framed_stack {s : Array Value} (size : e.bottom ≤ s.size)
    (kept : ∀ i < e.bottom, s[i]? = e.stack[i]?) : e.Framed { e with stack := s } :=
  ⟨rfl, size, kept⟩

theorem Sound.framed_push (sound : e.Sound) (v : Value) : e.Framed (e.push v) :=
  framed_stack (by simp; have := sound.framed; omega) fun i below => by
    have := sound.framed
    simp [Array.getElem?_push, show i ≠ e.stack.size by omega]

theorem Sound.framed_setAbs (sound : e.Sound) (above : e.bottom ≤ abs) (v : Value) :
    e.Framed (e.setAbs abs v) :=
  framed_stack (by simpa using sound.framed) fun i below => by
    simp [show abs ≠ i by omega]

theorem Sound.framed_insertAbs (sound : e.Sound) (above : e.bottom ≤ abs) (v : Value) :
    e.Framed (e.insertAbs abs v) := by
  refine framed_stack ?_ fun i below => ?_
  · unfold Array.insertIdxIfInBounds
    have := sound.framed
    split <;> simp <;> omega
  · unfold Array.insertIdxIfInBounds
    split
    · exact Array.getElem?_insertIdx_of_lt ‹_› (by omega)
    · rfl

theorem Sound.framed_removeAbs (sound : e.Sound) (above : e.bottom ≤ abs) :
    e.Framed (e.removeAbs abs) := by
  refine framed_stack ?_ fun i below => ?_
  · unfold Array.eraseIdxIfInBounds
    have := sound.framed
    split <;> simp <;> omega
  · unfold Array.eraseIdxIfInBounds
    split
    · exact Array.getElem?_eraseIdx_of_lt ‹_› (by omega)
    · rfl

theorem Sound.framed_swap (sound : e.Sound) {a b : Nat} (aboveA : e.bottom ≤ a)
    (aboveB : e.bottom ≤ b) : e.Framed { e with stack := e.stack.swapIfInBounds a b } := by
  refine framed_stack (by simpa using sound.framed) fun i below => ?_
  unfold Array.swapIfInBounds
  split
  · split
    · rw [Array.getElem?_swap, if_neg (by omega), if_neg (by omega)]
    · rfl
  · rfl

theorem framed_truncate (above : e.bottom ≤ n) (inside : n ≤ e.stack.size) :
    e.Framed (e.truncate n) :=
  framed_stack (by simp; omega) fun i below => by
    simp [Array.take_eq_extract, Array.getElem?_extract, show i < n by omega]

theorem Sound.framed_resizeFrame (sound : e.Sound) (count : Nat) : e.Framed (e.resizeFrame count) := by
  refine framed_stack ?_ fun i below => ?_
  · simp; omega
  · have := sound.framed
    rw [Array.getElem?_append_left (by simp; omega)]
    simp [Array.take_eq_extract, Array.getElem?_extract, show i < e.bottom + count by omega]

end Engine

/-! ### Moving inside the frame -/

/-- A fresh object of a kind with live references and no properties can be allocated. -/
theorem HeapObject.Allocatable.bare {k : ObjectKind} {h : Heap} (plain : ∀ n, k ≠ .hostProxy n)
    (noMethod : ∀ s n, k ≠ .function (.method s n))
    (kind : ∀ r ∈ ({ kind := k } : HeapObject).references, h.Valid r) :
    ({ kind := k } : HeapObject).Allocatable h :=
  .of_live plain noMethod PropertyTable.live_values_empty kind

/-- A suite finds every method it names. -/
theorem MethodSuite.find?_isSome {suite : MethodSuite} {name : String}
    (named : name ∈ suite.names) : (suite.find? name).isSome := by
  obtain ⟨⟨k, f⟩, member, rfl⟩ := List.mem_map.mp named
  simp only [MethodSuite.find?, Option.isSome_map]
  exact List.find?_isSome.mpr ⟨(k, f), member, by simp⟩

namespace Engine

variable {e₀ e₁ e : Engine} {v : Value} {abs n : Nat}

/-- The engine moved by atomic steps and kept the frame it started from. -/
structure Moved (e₀ e : Engine) : Prop where
  steps : e₀.Steps e
  framed : e₀.Framed e

theorem Moved.refl (sound : e.Sound) : e.Moved e := ⟨.refl e, .refl sound⟩

theorem Moved.trans (first : e₀.Moved e₁) (second : e₁.Moved e) : e₀.Moved e :=
  ⟨first.steps.trans second.steps, first.framed.trans second.framed⟩

theorem Moved.failed {x : Failure} (first : e₀.Moved e₁) (failed : e₁.Steps e ∧ e₁.Failed x e) :
    e₀.Steps e ∧ e₀.Failed x e :=
  ⟨first.steps.trans failed.1, first.framed.failed failed.2⟩

theorem Moved.sound (moved : e₀.Moved e) (sound : e₀.Sound) : e.Sound :=
  sound.framed' moved.steps moved.framed

theorem Kept.moved (kept : e₀.Kept e) (sound : e₀.Sound) : e₀.Moved e :=
  ⟨kept.1, kept.framed sound⟩

/-- A step that only touches the heap and the registry moves inside the frame. -/
theorem Step.moved (step : e.Step e₁) (sound : e.Sound) (control : e₁.control = e.control)
    (stack : e₁.stack = e.stack) : e.Moved e₁ :=
  Kept.moved ⟨step.steps, control, stack⟩ sound

theorem Sound.refused (sound : e₀.Sound) {x : Failure} (same : e = e₀)
    (refused : ∃ err, x = .error err) : e₀.Steps e ∧ e₀.Failed x e := by
  obtain ⟨err, rfl⟩ := refused
  subst same
  exact ⟨.refl _, .refl sound⟩

/-- What script code throws, reported to the stack interface, keeps to the frame. -/
theorem Sound.reported (sound : e₀.Sound) {x : Failure}
    (raised : match x with
      | .error err => ∃ v, err = .script (e.scriptErrorOf v) ∧ e₀.Raised (.thrown v) e
      | .exhausted => e₀.Raised .exhausted e) : e₀.Steps e ∧ e₀.Failed x e := by
  cases x with
  | error err =>
    obtain ⟨v, -, run, ⟨-, above⟩, stack⟩ := raised
    exact ⟨run, above.1, stack ▸ sound.framed, fun i _ => by rw [stack]⟩
  | exhausted => exact ⟨raised.1, raised.2.1⟩

theorem pop?_eq_some {e' : Engine} (popped : e.pop? = some (v, e')) :
    e.bottom < e.stack.size ∧ v = e.stack.back?.getD .undefined ∧
      e' = { e with stack := e.stack.pop } := by
  unfold pop? at popped
  split_ifs at popped with nonempty
  obtain ⟨rfl, rfl⟩ := Prod.mk.inj (Option.some.inj popped)
  exact ⟨nonempty, rfl, rfl⟩

theorem Sound.moved_push (sound : e.Sound) (live : e.heap.Live v) : e.Moved (e.push v) :=
  ⟨(Step.push sound.safe live).steps, sound.framed_push v⟩

/-- Allocating an object and pushing it. -/
theorem Sound.moved_alloc_push {o : HeapObject} (sound : e.Sound)
    (allocatable : o.Allocatable e.heap) : e.Moved ((e.alloc o).2.push (.object (e.alloc o).1)) := by
  have kept : e.Kept (e.alloc o).2 := ⟨(Step.allocate allocatable).steps, rfl, rfl⟩
  have live : (e.alloc o).2.heap.Valid (e.alloc o).1 := Heap.valid_alloc_self sound.safe.wellFormed
  exact (kept.moved sound).trans ((sound.kept kept).moved_push (by simpa using live))

theorem Sound.moved_pop (sound : e.Sound) (nonempty : e.bottom < e.stack.size) :
    e.Moved { e with stack := e.stack.pop } := by
  refine ⟨(Step.pop sound.safe).steps, framed_stack (by simp; omega) fun i below => ?_⟩
  simp [show i < e.stack.size - 1 by omega]

theorem Sound.moved_setAbs (sound : e.Sound) (above : e.bottom ≤ abs) (live : e.heap.Live v) :
    e.Moved (e.setAbs abs v) :=
  ⟨(Step.setAbs sound.safe abs live).steps, sound.framed_setAbs above v⟩

theorem Sound.moved_insertAbs (sound : e.Sound) (above : e.bottom ≤ abs) (live : e.heap.Live v) :
    e.Moved (e.insertAbs abs v) :=
  ⟨(Step.insertAbs sound.safe abs live).steps, sound.framed_insertAbs above v⟩

theorem Sound.moved_removeAbs (sound : e.Sound) (above : e.bottom ≤ abs) :
    e.Moved (e.removeAbs abs) :=
  ⟨(Step.removeAbs sound.safe abs).steps, sound.framed_removeAbs above⟩

theorem Sound.moved_resizeFrame (sound : e.Sound) (n : Nat) : e.Moved (e.resizeFrame n) :=
  ⟨(Step.resizeFrame sound.safe n).steps, sound.framed_resizeFrame n⟩

/-- Dropping `n` values of the frame. -/
theorem Sound.moved_truncate (sound : e.Sound) (count : n ≤ e.top) :
    e.Moved (e.truncate (e.stack.size - n)) := by
  have := sound.framed
  unfold top at count
  exact ⟨(Step.truncate sound.safe _).steps, framed_truncate (by omega) (by omega)⟩

theorem Sound.moved_swap (sound : e.Sound) {i j : Int} {a b : Nat} (foundA : e.normalize i = some a)
    (foundB : e.normalize j = some b) : e.Moved { e with stack := e.stack.swapIfInBounds a b } :=
  ⟨(Step.swap sound.safe a b).steps,
    sound.framed_swap (normalize_bounds foundA).1 (normalize_bounds foundB).1⟩

/-- Moving the top value down to a slot of the frame. -/
theorem Sound.moved_insert (sound : e.Sound) (above : e.bottom ≤ abs) (inside : abs < e.stack.size) :
    e.Moved ((e.removeAbs (e.stack.size - 1)).insertAbs abs (e.getAbs (e.stack.size - 1))) := by
  have removed := sound.moved_removeAbs (by omega : e.bottom ≤ e.stack.size - 1)
  exact removed.trans ((removed.sound sound).moved_insertAbs above (by
    simpa using sound.safe.live_getAbs _))

/-- Popping the top value into a slot of the frame; popping it onto itself just pops. -/
theorem Sound.moved_replace (sound : e.Sound) (above : e.bottom ≤ abs) (inside : abs < e.stack.size) :
    e.Moved (if abs < (e.removeAbs (e.stack.size - 1)).stack.size then
      (e.removeAbs (e.stack.size - 1)).setAbs abs (e.getAbs (e.stack.size - 1))
      else e.removeAbs (e.stack.size - 1)) := by
  have removed := sound.moved_removeAbs (by omega : e.bottom ≤ e.stack.size - 1)
  split
  · exact removed.trans ((removed.sound sound).moved_setAbs above (by
      simpa using sound.safe.live_getAbs _))
  · exact removed

/-- Popping the top value of the frame: the value is live, and the engine left is sound. -/
theorem Sound.popped (sound : e.Sound) {e' : Engine} (popped : e.pop? = some (v, e')) :
    e.Moved e' ∧ e'.Sound ∧ e'.heap.Live v := by
  obtain ⟨nonempty, rfl, rfl⟩ := pop?_eq_some popped
  have moved := sound.moved_pop nonempty
  exact ⟨moved, moved.sound sound, sound.safe.live_back⟩

/-- Popping the new finalizer off the frame and setting it on an object. -/
theorem Sound.moved_setFinalizer (sound : e.Sound) (nonempty : e.bottom < e.stack.size)
    (id : ObjectId) {fin : Option ObjectId} (live : ∀ r ∈ fin, e.heap.Valid r) :
    e.Moved { ({ e with stack := e.stack.pop }.modifyObject id
        fun o => { o with finalizer := fin, finalized := false }) with
      finalizerSets := e.finalizerSets + 1
      finalizerLog := if fin.isSome then e.finalizerLog.push (.armed id) else e.finalizerLog } := by
  have popped := sound.moved_pop nonempty
  have step : Step { e with stack := e.stack.pop } _ := .setFinalizer id fin live
  exact popped.trans (step.moved (popped.sound sound) rfl rfl)

/-- The finalizer of an object of a safe engine is live. -/
theorem Safe.live_finalizer (safe : e.Safe) (id : ObjectId) :
    e.heap.Live ((((e.object? id).bind (·.finalizer)).map Value.object).getD .undefined) := by
  rcases found : e.object? id with _ | o
  · simp
  rcases fin : o.finalizer with _ | f
  · simp [fin]
  · simp only [Option.bind_some, fin, Option.map_some, Option.getD_some, Heap.live_object]
    apply safe.closed id.index id.generation o (Heap.get?_eq_some.mp found) f
    simp [HeapObject.references, fin]

/-- Registering a host value together with its proxy: the proxy is live. -/
theorem Sound.moved_adopt (sound : e.Sound) (hv : HostValue) :
    e.Moved ({ e with registry := (e.registry.register hv).2 }.alloc
        { kind := .hostProxy (e.registry.register hv).1 }).2 ∧
      ({ e with registry := (e.registry.register hv).2 }.alloc
        { kind := .hostProxy (e.registry.register hv).1 }).2.heap.Valid
        (e.heap.alloc { kind := .hostProxy (e.registry.register hv).1 }).1 :=
  ⟨(Step.adopt hv).moved sound rfl rfl, Heap.valid_alloc_self sound.safe.wellFormed⟩

theorem Sound.moved_adopt_push (sound : e.Sound) (hv : HostValue) :
    e.Moved (({ e with registry := (e.registry.register hv).2 }.alloc
        { kind := .hostProxy (e.registry.register hv).1 }).2.push
      (.object ({ e with registry := (e.registry.register hv).2 }.alloc
        { kind := .hostProxy (e.registry.register hv).1 }).1)) := by
  obtain ⟨adopted, live⟩ := sound.moved_adopt hv
  exact adopted.trans ((adopted.sound sound).moved_push (by simpa using live))

/-- Binding a fresh method object on a suite proxy with that method keeps the proxy and its
handle. -/
theorem Sound.moved_bindMethod (sound : e.Sound) {proxy : ObjectId} {po : HeapObject}
    {handle : Nat} {suite : MethodSuite} (found : e.heap.get? proxy = some po)
    (proxied : po.hostHandle? = some handle) (entry : (handle, .suite suite) ∈ e.registry.entries)
    {name : String} (named : (suite.find? name).isSome) :
    e.Moved ((e.alloc { kind := .function (.method proxy name) }).2.modifyObject proxy
        fun o => { o with
          properties := o.properties.set name (.object (e.alloc { kind := .function (.method proxy name) }).1) }) ∧
      ((e.alloc { kind := .function (.method proxy name) }).2.modifyObject proxy
        fun o => { o with
          properties := o.properties.set name (.object (e.alloc { kind := .function (.method proxy name) }).1) }).heap.get?
        proxy = some { po with
          properties := po.properties.set name (.object (e.alloc { kind := .function (.method proxy name) }).1) } := by
  have live : e.heap.Valid proxy := ⟨po, found⟩
  have allocated : e.Kept (e.alloc { kind := .function (.method proxy name) }).2 :=
    ⟨(Step.bindMethod proxy name found proxied entry named).steps, rfl, rfl⟩
  have method : (e.alloc { kind := .function (.method proxy name) }).2.heap.Valid
      (e.alloc { kind := .function (.method proxy name) }).1 :=
    Heap.valid_alloc_self sound.safe.wellFormed
  have bound := (Step.setProperty (sound.kept allocated).safe proxy name
    (Heap.live_object.mpr method)).moved (sound.kept allocated) rfl rfl
  refine ⟨(allocated.moved sound).trans bound, ?_⟩
  simp [Heap.get?_modify, Heap.get?_alloc_of_valid sound.safe.wellFormed live, found]

end Engine

/-! ### Operations that keep to their frame -/

/-- An operation of the stack interface keeps to its frame: from a sound engine it moves the
engine by atomic steps and restores the control state and the values below the frame, whether
it finishes or fails. -/
def Api.Keeps {α : Type} (m : Api α) : Prop :=
  ∀ e₀, ⦃fun e => ⌜e = e₀ ∧ e₀.Sound⌝⦄ m
    ⦃post⟨fun _ e => ⌜e₀.Moved e⌝, fun x e => ⌜e₀.Steps e ∧ e₀.Failed x e⌝⟩⦄

/-- An operation that only looks: it leaves the engine as it was, and fails only by an error. -/
def Api.Reads {α : Type} (m : Api α) : Prop :=
  ∀ e₀, ⦃fun e => ⌜e = e₀⌝⦄ m ⦃post⟨fun _ e => ⌜e = e₀⌝, fun x e => ⌜e = e₀ ∧ ∃ err, x = .error err⌝⟩⦄

namespace Api.Keeps

variable {α β : Type}

theorem pure (a : α) : (Pure.pure a : Api α).Keeps := by
  intro e₀
  mvcgen with obtain ⟨rfl, sound⟩ := ‹_ = e₀ ∧ _›
  | vc1 => exact .refl sound

theorem fail (err : Error) : (EmbedScript.fail err : Api α).Keeps := by
  intro e₀
  mvcgen [EmbedScript.fail] with obtain ⟨rfl, sound⟩ := ‹_ = e₀ ∧ _›
  | vc1 => exact ⟨.refl _, .refl sound⟩

/-- Keeping to the frame composes. -/
theorem bind {x : Api α} {f : α → Api β} (first : x.Keeps) (rest : ∀ a, (f a).Keeps) :
    (x >>= f).Keeps := by
  intro e₀
  rw [triple_iff]
  rintro e ⟨rfl, sound⟩
  have ran := (triple_iff _ _ _ _).mp (first e) e ⟨rfl, sound⟩
  rw [run_bind]
  revert ran
  rcases x.run.run e with ⟨err | a, e₁⟩
  · exact fun ran => ran
  · intro moved
    -- the rest runs from where the first operation left a sound engine
    have next := (triple_iff _ _ _ _).mp (rest a e₁) e₁ ⟨rfl, moved.sound sound⟩
    dsimp only
    revert next
    rcases (f a).run.run e₁ with ⟨err | b, e₂⟩
    · exact moved.failed
    · exact moved.trans

theorem of_reads {m : Api α} (reads : m.Reads) : m.Keeps := by
  intro e₀
  rw [triple_iff]
  rintro e ⟨rfl, sound⟩
  have ran := (triple_iff _ _ _ _).mp (reads e) e rfl
  revert ran
  rcases m.run.run e with ⟨x | a, e'⟩
  · exact fun ⟨same, refused⟩ => sound.refused same refused
  · rintro rfl
    exact .refl sound

end Api.Keeps

/-! ### Checks -/

namespace Api

variable {α : Type}

theorem valueAt_spec (i : Int) (e₀ : Engine) :
    ⦃fun e => ⌜e = e₀⌝⦄ valueAt i
    ⦃post⟨fun v e => ⌜e = e₀ ∧ e₀.get? i = some v⌝, fun x e => ⌜e = e₀ ∧ ∃ err, x = .error err⌝⟩⦄ := by
  mvcgen [valueAt, fail] with subst_vars
  | vc1 => exact ⟨rfl, ‹_›⟩
  | vc2 => exact ⟨rfl, _, rfl⟩

theorem requireIndex_spec (i : Int) (e₀ : Engine) :
    ⦃fun e => ⌜e = e₀⌝⦄ requireIndex i
    ⦃post⟨fun abs e => ⌜e = e₀ ∧ e₀.normalize i = some abs⌝,
      fun x e => ⌜e = e₀ ∧ ∃ err, x = .error err⌝⟩⦄ := by
  mvcgen [requireIndex, fail] with subst_vars
  | vc1 => exact ⟨rfl, ‹_›⟩
  | vc2 => exact ⟨rfl, _, rfl⟩

theorem requireObject_spec (i : Int) (e₀ : Engine) :
    ⦃fun e => ⌜e = e₀⌝⦄ requireObject i
    ⦃post⟨fun id e => ⌜e = e₀ ∧ e₀.get? i = some (.object id)⌝,
      fun x e => ⌜e = e₀ ∧ ∃ err, x = .error err⌝⟩⦄ := by
  mvcgen [requireObject, valueAt_spec, fail] with subst_vars
  | vc1 => exact ‹_›
  | vc2 => exact ⟨(‹_ ∧ _›).1, _, rfl⟩
  | vc3 => exact fun same failed => ⟨same, failed⟩

theorem requireValues_spec (n : Nat) (e₀ : Engine) :
    ⦃fun e => ⌜e = e₀⌝⦄ requireValues n
    ⦃post⟨fun _ e => ⌜e = e₀ ∧ n ≤ e₀.top⌝, fun x e => ⌜e = e₀ ∧ ∃ err, x = .error err⌝⟩⦄ := by
  mvcgen [requireValues, fail] with subst_vars
  | vc1 => exact ⟨rfl, _, rfl⟩
  | vc2 => exact ⟨rfl, by omega⟩

/-- Checking for a group aborts, refuses, or passes with the values there, leaving the engine
as it was. -/
theorem requireGroup_spec (n : Nat) (e₀ : Engine) :
    ⦃fun e => ⌜e = e₀⌝⦄ requireGroup n
    ⦃post⟨fun _ e => ⌜e = e₀ ∧ n ≤ e₀.top⌝, fun _ e => ⌜e = e₀⌝⟩⦄ := by
  mvcgen [requireGroup, abort, requireValues_spec] with subst_vars
  | vc2 => exact fun same enough => ⟨same, enough⟩
  | vc3 => exact fun same _ => same

theorem mismatch_spec (i : Int) (expected : String) (e₀ : Engine) :
    ⦃fun e => ⌜e = e₀⌝⦄ (mismatch i expected : Api α)
    ⦃post⟨fun _ _ => ⌜False⌝, fun x e => ⌜e = e₀ ∧ ∃ err, x = .error err⌝⟩⦄ := by
  mvcgen [mismatch, fail] with subst_vars
  | vc1 | vc2 => exact ⟨rfl, _, rfl⟩

end Api

namespace Api.Reads

variable {α β : Type}

theorem pure (a : α) : (Pure.pure a : Api α).Reads := by
  intro e₀
  mvcgen

theorem bind {x : Api α} {f : α → Api β} (first : x.Reads) (rest : ∀ a, (f a).Reads) :
    (x >>= f).Reads := by
  intro e₀
  rw [triple_iff]
  rintro e rfl
  have ran := (triple_iff _ _ _ _).mp (first e) e rfl
  rw [run_bind]
  revert ran
  rcases x.run.run e with ⟨err | a, e₁⟩
  · exact fun ran => ran
  · intro same
    subst same
    exact (triple_iff _ _ _ _).mp (rest a e₁) e₁ rfl

end Api.Reads

/-! ### Reading -/

namespace Api

/-- A value that names no object is live in every heap. -/
theorem live_of_plain {v : Value} (plain : v.objectId? = none) (h : Heap) : h.Live v := by
  rintro id rfl
  cases plain

theorem Reads.getBoolean (i : Int) : (getBoolean i).Reads := by
  intro e₀
  mvcgen [Api.getBoolean, valueAt_spec, mismatch_spec] with ((try casesm* _ ∧ _); subst_vars)
  | vc1 => rfl
  | vc2 => exact False.elim
  | vc3 | vc4 => exact And.intro

theorem Reads.getNumber (i : Int) : (getNumber i).Reads := by
  intro e₀
  mvcgen [Api.getNumber, valueAt_spec, mismatch_spec] with ((try casesm* _ ∧ _); subst_vars)
  | vc1 => rfl
  | vc2 => exact False.elim
  | vc3 | vc4 => exact And.intro

theorem Reads.getInt (i : Int) : (getInt i).Reads :=
  (Reads.getNumber i).bind fun _ => .pure _

theorem Reads.getString (i : Int) : (getString i).Reads := by
  intro e₀
  mvcgen [Api.getString, valueAt_spec, mismatch_spec] with ((try casesm* _ ∧ _); subst_vars)
  | vc1 => rfl
  | vc2 => exact False.elim
  | vc3 | vc4 => exact And.intro

theorem Reads.getLength (i : Int) : (getLength i).Reads := by
  intro e₀
  mvcgen [Api.getLength, valueAt_spec] with ((try casesm* _ ∧ _); subst_vars)
  | vc1 | vc2 | vc3 => rfl
  | vc4 => exact And.intro

theorem Reads.getTop : getTop.Reads := by
  intro e₀
  mvcgen [Api.getTop]

theorem Reads.topIndex : topIndex.Reads := by
  intro e₀
  mvcgen [Api.topIndex]

theorem Reads.normalizeIndex (i : Int) : (normalizeIndex i).Reads := by
  intro e₀
  mvcgen [Api.normalizeIndex, requireIndex_spec] with ((try casesm* _ ∧ _); subst_vars)
  | vc1 => rfl
  | vc2 => exact And.intro

theorem Reads.hasPropString (i : Int) (key : String) : (hasPropString i key).Reads := by
  intro e₀
  mvcgen [Api.hasPropString, requireObject_spec] with ((try casesm* _ ∧ _); subst_vars)
  | vc1 => rfl
  | vc2 => exact And.intro

theorem Reads.getHostHandle (i : Int) : (getHostHandle i).Reads := by
  intro e₀
  mvcgen [Api.getHostHandle, valueAt_spec, EmbedScript.fail] with ((try casesm* _ ∧ _); subst_vars)
  | vc1 => rfl
  | vc2 => exact ⟨rfl, _, rfl⟩
  | vc3 => exact And.intro

theorem Reads.getHostObject (i : Int) (kind : HostKind) : (getHostObject i kind).Reads := by
  intro e₀
  mvcgen [Api.getHostObject, Api.getHostHandle, valueAt_spec, EmbedScript.fail] with
    ((try casesm* _ ∧ _); subst_vars)
  | vc1 => rfl
  | vc2 | vc3 => exact ⟨rfl, _, rfl⟩
  | vc4 => exact And.intro

end Api

/-! ### Changing the frame -/

namespace Api

theorem Keeps.push {v : Value} (plain : v.objectId? = none) : (push v).Keeps := by
  intro e₀
  mvcgen [Api.push, pushValue] with obtain ⟨rfl, sound⟩ := ‹_ = e₀ ∧ _›
  | vc1 => exact sound.moved_push (live_of_plain plain _)

theorem Keeps.pushObject : pushObject.Keeps := by
  intro e₀
  mvcgen [Api.pushObject, Api.push, pushValue, allocObject, Api.topIndex] with
    obtain ⟨rfl, sound⟩ := ‹_ = e₀ ∧ _›
  | vc1 => exact sound.moved_alloc_push (.bare (by simp) (by simp) (by simp [HeapObject.references, PropertyTable.values]))

theorem Keeps.pushArray : pushArray.Keeps := by
  intro e₀
  mvcgen [Api.pushArray, Api.push, pushValue, allocObject, Api.topIndex] with
    obtain ⟨rfl, sound⟩ := ‹_ = e₀ ∧ _›
  | vc1 => exact sound.moved_alloc_push (.bare (by simp) (by simp) (by simp [HeapObject.references, PropertyTable.values]))

theorem Keeps.pushHostFunction (body : Native) (arity : Arity) :
    (pushHostFunction body arity).Keeps := by
  intro e₀
  mvcgen [Api.pushHostFunction, Api.push, pushValue, allocObject, Api.topIndex] with
    obtain ⟨rfl, sound⟩ := ‹_ = e₀ ∧ _›
  | vc1 => exact sound.moved_alloc_push (.bare (by simp) (by simp) (by simp [HeapObject.references, PropertyTable.values]))

theorem Keeps.pushErrorObject (kind : ErrorKind) (message : String) :
    (pushErrorObject kind message).Keeps := by
  intro e₀
  mvcgen [Api.pushErrorObject, Api.push, pushValue, allocError, allocObject, Api.topIndex] with
    obtain ⟨rfl, sound⟩ := ‹_ = e₀ ∧ _›
  | vc1 => exact sound.moved_alloc_push (allocatable_error _ _ _ _)

theorem Keeps.pushGlobalObject : pushGlobalObject.Keeps := by
  intro e₀
  mvcgen [Api.pushGlobalObject, Api.push, pushValue] with obtain ⟨rfl, sound⟩ := ‹_ = e₀ ∧ _›
  | vc1 => exact sound.moved_push (by simpa using sound.safe.valid_global)

theorem Keeps.pushThis : pushThis.Keeps := by
  intro e₀
  mvcgen [Api.pushThis, Api.push, pushValue] with obtain ⟨rfl, sound⟩ := ‹_ = e₀ ∧ _›
  | vc1 =>
    apply sound.moved_push
    cases ‹Engine›.hostFrames.back? <;> simp [sound.safe.live_getAbs]

theorem Keeps.toBooleanAt (i : Int) : (toBooleanAt i).Keeps := by
  intro e₀
  mvcgen [Api.toBooleanAt, requireIndex_spec, valueAt_spec, Api.replaceAt] with
    (obtain ⟨rfl, sound⟩ := ‹_ = e₀ ∧ _›; (try casesm* _ ∧ _); subst_vars)
  | vc1 => exact sound.moved_setAbs (Engine.normalize_bounds ‹_›).1 (by simp)
  | vc2 | vc3 => exact sound.refused

theorem Keeps.setTop (i : Int) : (setTop i).Keeps := by
  intro e₀
  mvcgen [Api.setTop, EmbedScript.fail] with obtain ⟨rfl, sound⟩ := ‹_ = e₀ ∧ _›
  | vc1 | vc3 | vc5 => exact sound.refused rfl ⟨_, rfl⟩
  | vc2 | vc4 => exact sound.moved_resizeFrame _

theorem Keeps.popN (n : Nat) : (popN n).Keeps := by
  intro e₀
  mvcgen [Api.popN, requireValues_spec] with
    (obtain ⟨rfl, sound⟩ := ‹_ = e₀ ∧ _›; (try casesm* _ ∧ _); subst_vars)
  | vc1 => exact sound.moved_truncate ‹_›
  | vc2 => exact sound.refused

theorem Keeps.insert (i : Int) : (insert i).Keeps := by
  intro e₀
  mvcgen [Api.insert, requireIndex_spec] with
    (obtain ⟨rfl, sound⟩ := ‹_ = e₀ ∧ _›; (try casesm* _ ∧ _); subst_vars)
  | vc1 => exact sound.moved_insert (Engine.normalize_bounds ‹_›).1 (Engine.normalize_bounds ‹_›).2
  | vc2 => exact sound.refused

theorem Keeps.replace (i : Int) : (replace i).Keeps := by
  intro e₀
  mvcgen [Api.replace, requireIndex_spec] with
    (obtain ⟨rfl, sound⟩ := ‹_ = e₀ ∧ _›; (try casesm* _ ∧ _); subst_vars)
  | vc1 => exact sound.moved_replace (Engine.normalize_bounds ‹_›).1 (Engine.normalize_bounds ‹_›).2
  | vc2 => exact sound.refused

theorem Keeps.toNumberAt (i : Int) : (toNumberAt i).Keeps := by
  intro e₀
  mvcgen [Api.toNumberAt, requireIndex_spec, valueAt_spec, Api.replaceAt] with
    (obtain ⟨rfl, sound⟩ := ‹_ = e₀ ∧ _›; (try casesm* _ ∧ _); subst_vars)
  | vc1 => exact sound.moved_setAbs (Engine.normalize_bounds ‹_›).1 (by simp)
  | vc2 | vc3 => exact sound.refused

theorem Keeps.toIntAt (i : Int) : (toIntAt i).Keeps := by
  intro e₀
  mvcgen [Api.toIntAt, requireIndex_spec, valueAt_spec, Api.replaceAt] with
    (obtain ⟨rfl, sound⟩ := ‹_ = e₀ ∧ _›; (try casesm* _ ∧ _); subst_vars)
  | vc1 => exact sound.moved_setAbs (Engine.normalize_bounds ‹_›).1 (by simp)
  | vc2 | vc3 => exact sound.refused

theorem Keeps.toStringAt (i : Int) : (toStringAt i).Keeps := by
  intro e₀
  mvcgen [Api.toStringAt, requireIndex_spec, valueAt_spec, Api.replaceAt] with
    (obtain ⟨rfl, sound⟩ := ‹_ = e₀ ∧ _›; (try casesm* _ ∧ _); subst_vars)
  | vc1 => exact sound.moved_setAbs (Engine.normalize_bounds ‹_›).1 (by simp)
  | vc2 | vc3 => exact sound.refused

theorem Keeps.dup (i : Int) : (dup i).Keeps := by
  intro e₀
  mvcgen [Api.dup, requireIndex_spec] with
    (obtain ⟨rfl, sound⟩ := ‹_ = e₀ ∧ _›; (try casesm* _ ∧ _); subst_vars)
  | vc1 => exact sound.moved_push (sound.safe.live_getAbs _)
  | vc2 => exact sound.refused

theorem Keeps.dupTop : dupTop.Keeps := Keeps.dup (-1)

theorem Keeps.pop : pop.Keeps := Keeps.popN 1

theorem Keeps.swap (a b : Int) : (swap a b).Keeps := by
  intro e₀
  mvcgen [Api.swap, requireIndex_spec] with
    (obtain ⟨rfl, sound⟩ := ‹_ = e₀ ∧ _›; (try casesm* _ ∧ _); subst_vars)
  | vc1 => exact sound.moved_swap ‹_› ‹_›
  | vc2 | vc3 => exact sound.refused

theorem Keeps.remove (i : Int) : (remove i).Keeps := by
  intro e₀
  mvcgen [Api.remove, requireIndex_spec] with
    (obtain ⟨rfl, sound⟩ := ‹_ = e₀ ∧ _›; (try casesm* _ ∧ _); subst_vars)
  | vc1 => exact sound.moved_removeAbs (Engine.normalize_bounds ‹_›).1
  | vc2 => exact sound.refused

theorem Keeps.getPropString (i : Int) (key : String) : (getPropString i key).Keeps := by
  intro e₀
  have get := fun target key e => toApi_spec (getProperty_spec target key e)
  mvcgen [Api.getPropString, valueAt_spec, get, Api.push, pushValue, EmbedScript.fail] with
    (obtain ⟨rfl, sound⟩ := ‹_ = e₀ ∧ _›; (try casesm* _ ∧ _); subst_vars)
  | vc1 => exact sound.refused rfl ⟨_, rfl⟩
  | vc2 => exact ⟨trivial, sound.safe⟩
  | vc3 => exact sound.moved_push ‹_›
  | vc4 => exact sound.reported
  | vc5 => exact sound.refused

theorem Keeps.putPropString (i : Int) (key : String) : (putPropString i key).Keeps := by
  intro e₀
  have put := fun id key v e => toApi_spec (objectPut_spec id key v e)
  mvcgen [Api.putPropString, requireObject_spec, put, EmbedScript.fail] with
    (obtain ⟨rfl, sound⟩ := ‹_ = e₀ ∧ _›; (try casesm* _ ∧ _); subst_vars)
  | vc1 =>
    have popped := sound.popped ‹_›
    exact ⟨trivial, popped.2.1.safe, popped.2.2⟩
  | vc2 =>
    have popped := sound.popped ‹_›
    exact fun kept => popped.1.trans (kept.moved popped.2.1)
  | vc3 =>
    have popped := sound.popped ‹_›
    exact fun raised => popped.1.failed (popped.2.1.reported raised)
  | vc4 => exact sound.refused rfl ⟨_, rfl⟩
  | vc5 => exact sound.refused

theorem Keeps.delPropString (i : Int) (key : String) : (delPropString i key).Keeps := by
  intro e₀
  mvcgen [Api.delPropString, requireObject_spec] with
    (obtain ⟨rfl, sound⟩ := ‹_ = e₀ ∧ _›; (try casesm* _ ∧ _); subst_vars)
  | vc1 => exact (sound.safe.kept_objectDelete _ _).moved sound
  | vc2 => exact sound.refused

theorem Keeps.getGlobalString (key : String) : (getGlobalString key).Keeps := by
  intro e₀
  mvcgen [Api.getGlobalString, Api.push, pushValue] with obtain ⟨rfl, sound⟩ := ‹_ = e₀ ∧ _›
  | vc1 => exact sound.moved_push (sound.safe.live_objectGet _ _)

theorem Keeps.putGlobalString (key : String) : (putGlobalString key).Keeps := by
  intro e₀
  have put := fun id key v e => toApi_spec (objectPut_spec id key v e)
  mvcgen [Api.putGlobalString, put, EmbedScript.fail] with
    obtain ⟨rfl, sound⟩ := ‹_ = e₀ ∧ _›
  | vc1 =>
    have popped := sound.popped ‹_›
    exact ⟨trivial, popped.2.1.safe, popped.2.2⟩
  | vc2 =>
    have popped := sound.popped ‹_›
    exact fun kept => popped.1.trans (kept.moved popped.2.1)
  | vc3 =>
    have popped := sound.popped ‹_›
    exact fun raised => popped.1.failed (popped.2.1.reported raised)
  | vc4 => exact sound.refused rfl ⟨_, rfl⟩

theorem Keeps.setFinalizer (i : Int) : (setFinalizer i).Keeps := by
  intro e₀
  mvcgen [Api.setFinalizer, requireObject_spec, requireValues_spec, valueAt_spec, popValue_spec,
    EmbedScript.fail] with
    (obtain ⟨rfl, sound⟩ := ‹_ = e₀ ∧ _›; (try casesm* _ ∧ _); subst_vars)
  | vc1 | vc3 => exact ⟨trivial, by unfold Engine.top at *; omega⟩
  | vc2 => exact sound.moved_setFinalizer (by unfold Engine.top at *; omega) _ (by simp)
  | vc4 =>
    have live := sound.safe.live_of_mem (Engine.get?_mem ‹Engine.get? _ (-1) = some _›)
    exact sound.moved_setFinalizer (by unfold Engine.top at *; omega) _
      fun r member => live r (HeapObject.objectId?_eq_some.mp member)
  | vc5 => exact sound.refused rfl ⟨_, rfl⟩
  | vc6 | vc7 | vc8 => exact sound.refused

theorem Keeps.getFinalizer (i : Int) : (getFinalizer i).Keeps := by
  intro e₀
  mvcgen [Api.getFinalizer, requireObject_spec, Api.push, pushValue] with
    (obtain ⟨rfl, sound⟩ := ‹_ = e₀ ∧ _›; (try casesm* _ ∧ _); subst_vars)
  | vc1 => exact sound.moved_push (sound.safe.live_finalizer _)
  | vc2 => exact sound.refused

theorem Keeps.pushHostObject (v : HostValue) : (pushHostObject v).Keeps := by
  intro e₀
  mvcgen [Api.pushHostObject, allocObject, Api.push, pushValue] with
    obtain ⟨rfl, sound⟩ := ‹_ = e₀ ∧ _›
  | vc1 => exact sound.moved_adopt_push v

theorem Keeps.pushMethodSuite (suite : MethodSuite) : (pushMethodSuite suite).Keeps := by
  intro e₀
  -- every method is bound on the proxy, which keeps its handle and its entry, a suite with that
  -- method, while the methods are allocated
  mvcgen [Api.pushMethodSuite, allocObject, Api.push, pushValue] invariants
  · ⇓_ e => ⌜e₀.Moved e ∧ (e₀.registry.next, .suite suite) ∈ e.registry.entries ∧
      ∃ po, e.heap.get? (e₀.heap.alloc { kind := .hostProxy e₀.registry.next }).1 = some po ∧
        po.hostHandle? = some e₀.registry.next⌝
  with obtain ⟨rfl, sound⟩ := ‹_ = e₀ ∧ _›
  | vc1 =>
    obtain ⟨moved, entry, po, found, proxied⟩ := ‹Engine.Moved _ _ ∧ _›
    have named := MethodSuite.find?_isSome (‹suite.names = _› ▸ List.mem_append_cons_self)
    obtain ⟨bound, bound_found⟩ := (moved.sound sound).moved_bindMethod found proxied entry named
    exact ⟨moved.trans bound, entry, _, bound_found, proxied⟩
  | vc2 =>
    exact ⟨(sound.moved_adopt _).1, List.mem_append_right _ (List.mem_singleton_self _), _,
      Heap.get?_alloc_self sound.safe.wellFormed, rfl⟩
  | vc3 =>
    obtain ⟨moved, -, po, found, -⟩ := ‹Engine.Moved _ _ ∧ _›
    exact moved.trans ((moved.sound sound).moved_push (by simpa using ⟨po, found⟩))

end Api

end EmbedScript
