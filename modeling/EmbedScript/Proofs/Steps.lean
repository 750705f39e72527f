import EmbedScript.Proofs.Collection
import EmbedScript.Engine.Control

/-!
What one atomic change of an engine can be. Every operation of the engine, however deeply it
nests script code, host code, collections and finalizers, changes the engine by a run of these
steps; so whatever one step keeps, every operation keeps. The first such property is safety:
the heap is well formed, every reference of a live object names a live object, and so does
every root, from the value stack and the scopes to the finalizer queue and the global object.
-/

namespace EmbedScript

namespace Heap

/-- A value is live in a heap when the object it names, if any, is. -/
def Live (h : Heap) (v : Value) : Prop := ∀ id, v = .object id → h.Valid id

@[simp] theorem live_object {h : Heap} {id : ObjectId} : h.Live (.object id) ↔ h.Valid id :=
  ⟨fun live => live id rfl, fun valid _ same => by cases same; exact valid⟩

@[simp] theorem live_undefined {h : Heap} : h.Live .undefined := fun _ same => by cases same

@[simp] theorem live_null {h : Heap} : h.Live .null := fun _ same => by cases same

@[simp] theorem live_bool {h : Heap} {b : Bool} : h.Live (.bool b) := fun _ same => by cases same

@[simp] theorem live_number {h : Heap} {x : Float} : h.Live (.number x) :=
  fun _ same => by cases same

@[simp] theorem live_string {h : Heap} {s : String} : h.Live (.string s) :=
  fun _ same => by cases same

theorem live_of_objectId {h : Heap} {v : Value} (names : ∀ id, v.objectId? = some id → h.Valid id) :
    h.Live v := by
  rintro id rfl
  exact names id rfl

theorem Live.mono {h h' : Heap} (grow : ∀ id, h.Valid id → h'.Valid id) {v : Value}
    (live : h.Live v) : h'.Live v :=
  fun id same => grow id (live id same)

end Heap

namespace HeapObject

/-- The suite proxy and the name of a suite method. -/
def methodOf? (o : HeapObject) : Option (ObjectId × String) :=
  match o.kind with
  | .function (.method suite name) => some (suite, name)
  | _ => none

end HeapObject

namespace Engine

/-- Every root of an engine names a live object of a heap. -/
structure RootsLive (e : Engine) (h : Heap) : Prop where
  stack : ∀ v ∈ e.stack, h.Live v
  scopes : ∀ id, some id ∈ e.scopes → h.Valid id
  queue : ∀ id ∈ e.finalizeQueue, h.Valid id
  global : h.Valid e.global

/-- A safe engine: its heap is well formed and closed under references, and every root is
live. -/
structure Safe (e : Engine) : Prop where
  wellFormed : e.heap.WellFormed
  closed : e.heap.Closed
  roots : e.RootsLive e.heap

variable {e e' : Engine} {h h' : Heap}

theorem mem_roots {id : ObjectId} : id ∈ e.roots ↔
    Value.object id ∈ e.stack ∨ some id ∈ e.scopes ∨ id ∈ e.finalizeQueue ∨ id = e.global := by
  have named : ∀ v : Value, v.objectId? = some id ↔ v = .object id := by
    intro v
    cases v <;> simp [Value.objectId?]
  simp [roots, List.mem_filterMap, named]

theorem rootsLive_iff : e.RootsLive h ↔ ∀ id ∈ e.roots, h.Valid id := by
  constructor
  · intro live id member
    rcases mem_roots.mp member with onStack | inScope | queued | rfl
    · exact live.stack _ onStack id rfl
    · exact live.scopes id inScope
    · exact live.queue id queued
    · exact live.global
  · intro all
    refine ⟨fun v onStack => ?_, fun id inScope => all id (mem_roots.mpr (.inr (.inl inScope))),
      fun id queued => all id (mem_roots.mpr (.inr (.inr (.inl queued)))),
      all _ (mem_roots.mpr (.inr (.inr (.inr rfl))))⟩
    rintro id rfl
    exact all id (mem_roots.mpr (.inl onStack))

theorem RootsLive.mono (grow : ∀ id, h.Valid id → h'.Valid id) (live : e.RootsLive h) :
    e.RootsLive h' :=
  ⟨fun v onStack => (live.stack v onStack).mono grow, fun id inScope => grow id (live.scopes id inScope),
    fun id queued => grow id (live.queue id queued), grow _ live.global⟩

/-- Only the roots themselves matter, not the rest of the engine. -/
theorem RootsLive.of_roots (live : e.RootsLive h) (stack : e'.stack = e.stack)
    (scopes : e'.scopes = e.scopes) (queue : e'.finalizeQueue = e.finalizeQueue)
    (global : e'.global = e.global) : e'.RootsLive h :=
  ⟨stack ▸ live.stack, scopes ▸ live.scopes, queue ▸ live.queue, global ▸ live.global⟩

section Arrays

variable {α : Type} {a : Array α} {x : α}

theorem mem_of_mem_take {n : Nat} (member : x ∈ a.take n) : x ∈ a := by
  simp only [Array.take_eq_extract, ← Array.mem_toList_iff, Array.toList_extract,
    List.extract_eq_take_drop, tsub_zero, List.drop_zero] at member ⊢
  exact List.mem_of_mem_take member

theorem mem_of_mem_pop (member : x ∈ a.pop) : x ∈ a := by
  simp only [← Array.mem_toList_iff, Array.toList_pop] at member ⊢
  exact List.mem_of_mem_dropLast member

theorem mem_of_mem_swap {i j : Nat} (member : x ∈ a.swapIfInBounds i j) : x ∈ a := by
  unfold Array.swapIfInBounds at member
  split at member
  · split at member
    · simp only [← Array.mem_toList_iff, Array.toList_swap] at member ⊢
      rcases List.mem_or_eq_of_mem_set member with inner | moved
      · rcases List.mem_or_eq_of_mem_set inner with kept | moved
        · exact kept
        · subst moved
          simp
      · subst moved
        simp
    · exact member
  · exact member

theorem mem_of_mem_insert {i : Nat} {v : α} (member : x ∈ a.insertIdxIfInBounds i v) :
    x ∈ a ∨ x = v := by
  unfold Array.insertIdxIfInBounds at member
  split at member
  · simp only [Array.mem_insertIdx] at member
    tauto
  · exact .inl member

theorem mem_of_mem_erase {i : Nat} (member : x ∈ a.eraseIdxIfInBounds i) : x ∈ a := by
  unfold Array.eraseIdxIfInBounds at member
  split at member
  · exact Array.mem_of_mem_eraseIdx member
  · exact member

end Arrays

/-! ### Atomic steps -/

/-- One atomic change of an engine. Roots but the finalizer queue move without the heap
changing, provided they stay live; objects are allocated with live references, edited without
touching their handle, finalizer or method, given a finalizer by the stack interface (which
counts it and records a function given), or adopted together with a registry entry; a method
object is made only for a live proxy whose entry is a suite with that method; a collection
sweeps the heap from the roots, releases the entries of the proxies it frees and queues and
records the objects it rescues; and the last queued object is taken off the queue, with the run
of its finalizer recorded when it has one. -/
inductive Step (e : Engine) : Engine → Prop
  | reroot {e' : Engine} (heap : e'.heap = e.heap) (registry : e'.registry = e.registry)
      (global : e'.global = e.global) (config : e'.config = e.config)
      (sets : e'.finalizerSets = e.finalizerSets) (queue : e'.finalizeQueue = e.finalizeQueue)
      (log : e'.finalizerLog = e.finalizerLog) (live : e'.RootsLive e.heap) : Step e e'
  | alloc (o : HeapObject) (plain : o.hostHandle? = none) (noMethod : o.methodOf? = none)
      (noFinalizer : o.finalizer = none) (unqueued : o.finalized = false)
      (refs : ∀ r ∈ o.references, e.heap.Valid r) :
      Step e { e with heap := (e.heap.alloc o).2 }
  | adopt (v : HostValue) :
      Step e { e with
        registry := (e.registry.register v).2
        heap := (e.heap.alloc { kind := .hostProxy (e.registry.register v).1 }).2 }
  | bindMethod (proxy : ObjectId) (name : String) {po : HeapObject} {handle : Nat}
      {suite : MethodSuite} (found : e.heap.get? proxy = some po)
      (proxied : po.hostHandle? = some handle) (entry : (handle, .suite suite) ∈ e.registry.entries)
      (named : (suite.find? name).isSome) :
      Step e { e with heap := (e.heap.alloc { kind := .function (.method proxy name) }).2 }
  | edit (id : ObjectId) (f : HeapObject → HeapObject)
      (kept : ∀ o, e.heap.get? id = some o → (f o).hostHandle? = o.hostHandle? ∧
        (f o).methodOf? = o.methodOf? ∧ (f o).finalizer = o.finalizer ∧
        (f o).finalized = o.finalized ∧ ∀ r ∈ (f o).references, e.heap.Valid r) :
      Step e { e with heap := e.heap.modify id f }
  | setFinalizer (id : ObjectId) (fin : Option ObjectId) (live : ∀ r ∈ fin, e.heap.Valid r) :
      Step e { e with
        heap := e.heap.modify id fun o => { o with finalizer := fin, finalized := false }
        finalizerSets := e.finalizerSets + 1
        finalizerLog := if fin.isSome then e.finalizerLog.push (.armed id) else e.finalizerLog }
  | collect :
      Step e { e with
        heap := (e.heap.collect e.roots).1
        registry := (e.registry.releaseAll (e.heap.collect e.roots).2.released).2
        finalizeQueue := e.finalizeQueue ++ (e.heap.collect e.roots).2.toFinalize.toArray
        finalizerLog :=
          e.finalizerLog ++ ((e.heap.collect e.roots).2.toFinalize.map FinalizerEvent.rescued).toArray }
  | dequeue (id : ObjectId) (last : e.finalizeQueue.back? = some id) :
      Step e (e.dequeueFinalizable id)

/-- A run of atomic steps. -/
def Steps : Engine → Engine → Prop := Relation.ReflTransGen Step

theorem Steps.refl (e : Engine) : e.Steps e := Relation.ReflTransGen.refl

theorem Steps.trans {e'' : Engine} (first : e.Steps e') (second : e'.Steps e'') : e.Steps e'' :=
  Relation.ReflTransGen.trans first second

theorem Step.steps (step : e.Step e') : e.Steps e' := Relation.ReflTransGen.single step

theorem Steps.tail {e'' : Engine} (run : e.Steps e') (step : e'.Step e'') : e.Steps e'' :=
  Relation.ReflTransGen.tail run step

/-- Setting a finalizer keeps every reference but those of the finalizer slot. -/
theorem references_setFinalizer {o : HeapObject} {fin : Option ObjectId} {r : ObjectId}
    (member : r ∈ ({ o with finalizer := fin, finalized := false } : HeapObject).references) :
    r ∈ o.references ∨ r ∈ fin := by
  simp only [HeapObject.references, List.mem_append, Option.mem_toList] at member ⊢
  rcases member with (props | found) | kind
  · exact .inl (.inl (.inl props))
  · exact .inr found
  · exact .inl (.inr kind)

theorem Step.global (step : e.Step e') : e'.global = e.global := by
  cases step with
  | reroot _ _ global => exact global
  | _ => rfl

theorem Step.config (step : e.Step e') : e'.config = e.config := by
  cases step with
  | reroot _ _ _ config => exact config
  | _ => rfl

/-- Every step keeps an engine safe. -/
theorem Safe.step (safe : e.Safe) (step : e.Step e') : e'.Safe := by
  cases step with
  | reroot heap _ _ _ _ _ _ live =>
    rw [← heap] at live
    exact ⟨heap ▸ safe.wellFormed, heap ▸ safe.closed, live⟩
  | alloc o _ _ _ _ refs =>
    exact ⟨Heap.wellFormed_alloc safe.wellFormed,
      Heap.closed_alloc safe.wellFormed safe.closed refs,
      (safe.roots.mono fun _ => Heap.valid_alloc safe.wellFormed).of_roots rfl rfl rfl rfl⟩
  | bindMethod proxy name found =>
    -- a method refers to its suite proxy alone
    refine ⟨Heap.wellFormed_alloc safe.wellFormed,
      Heap.closed_alloc safe.wellFormed safe.closed fun r member => ?_,
      (safe.roots.mono fun _ => Heap.valid_alloc safe.wellFormed).of_roots rfl rfl rfl rfl⟩
    simp only [HeapObject.references, PropertyTable.values, List.mem_append, List.mem_singleton,
      Option.toList_none, List.not_mem_nil, List.map_nil, List.filterMap_nil, false_or] at member
    exact member ▸ ⟨_, found⟩
  | adopt v =>
    refine ⟨Heap.wellFormed_alloc safe.wellFormed,
      Heap.closed_alloc safe.wellFormed safe.closed ?_,
      (safe.roots.mono fun _ => Heap.valid_alloc safe.wellFormed).of_roots rfl rfl rfl rfl⟩
    simp [HeapObject.references, PropertyTable.values]
  | edit id f kept =>
    exact ⟨Heap.wellFormed_modify safe.wellFormed f,
      Heap.closed_modify safe.closed f fun o found => (kept o found).2.2.2.2,
      (safe.roots.mono fun _ => (Heap.valid_modify f).mpr).of_roots rfl rfl rfl rfl⟩
  | setFinalizer id fin live =>
    refine ⟨Heap.wellFormed_modify safe.wellFormed _,
      Heap.closed_modify safe.closed _ fun o found r member => ?_,
      (safe.roots.mono fun _ => (Heap.valid_modify _).mpr).of_roots rfl rfl rfl rfl⟩
    rcases references_setFinalizer member with old | finalizer
    · exact safe.closed _ _ o (Heap.get?_eq_some.mp found) r old
    · exact live r finalizer
  | collect =>
    have rooted := rootsLive_iff.mp safe.roots
    have survives : ∀ id, e.heap.Reach e.roots id → (e.heap.collect e.roots).1.Valid id :=
      fun _ => Heap.valid_collect_of_reach safe.closed rooted
    refine ⟨Heap.wellFormed_collect safe.wellFormed, Heap.closed_collect safe.closed rooted,
      ⟨fun v onStack id same => survives id (.root (mem_roots.mpr (.inl (same ▸ onStack)))),
        fun id inScope => survives id (.root (mem_roots.mpr (.inr (.inl inScope)))),
        fun id queued => ?_, survives _ (.root (mem_roots.mpr (.inr (.inr (.inr rfl)))))⟩⟩
    rcases Array.mem_append.mp queued with old | rescued
    · exact survives id (.root (mem_roots.mpr (.inr (.inr (.inl old)))))
    · exact Heap.valid_toFinalize safe.closed rooted id (by simpa using rescued)
  | dequeue id _ =>
    exact ⟨safe.wellFormed, safe.closed, ⟨safe.roots.stack, safe.roots.scopes,
      fun id queued => safe.roots.queue id (mem_of_mem_pop queued), safe.roots.global⟩⟩

theorem Safe.steps (safe : e.Safe) (run : e.Steps e') : e'.Safe := by
  induction run with
  | refl => exact safe
  | tail _ step ih => exact ih.step step

theorem Steps.safe' (run : e.Steps e') (safe : e.Safe) : e'.Safe := safe.steps run

theorem Steps.global (run : e.Steps e') : e'.global = e.global := by
  induction run with
  | refl => rfl
  | tail _ step ih => exact step.global.trans ih

theorem Steps.config (run : e.Steps e') : e'.config = e.config := by
  induction run with
  | refl => rfl
  | tail _ step ih => exact step.config.trans ih

/-! ### Steps that move roots

The stack operations only drop, keep, permute or add values, so they are steps as long as what
they add is live. -/

/-- A new stack made of old stack values and live values is a step. -/
theorem Step.restack (safe : e.Safe) {s : Array Value}
    (made : ∀ v ∈ s, v ∈ e.stack ∨ e.heap.Live v) : e.Step { e with stack := s } := by
  refine .reroot rfl rfl rfl rfl rfl rfl rfl ⟨fun v member => ?_, safe.roots.scopes,
    safe.roots.queue, safe.roots.global⟩
  rcases made v member with old | live
  · exact safe.roots.stack v old
  · exact live

theorem Step.push (safe : e.Safe) {v : Value} (live : e.heap.Live v) : e.Step (e.push v) :=
  .restack safe fun w member => by
    rcases Array.mem_push.mp member with old | rfl
    · exact .inl old
    · exact .inr live

theorem Step.truncate (safe : e.Safe) (n : Nat) : e.Step (e.truncate n) :=
  .restack safe fun _ member => .inl (mem_of_mem_take member)

theorem Step.pop (safe : e.Safe) : e.Step { e with stack := e.stack.pop } :=
  .restack safe fun _ member => .inl (mem_of_mem_pop member)

theorem Step.swap (safe : e.Safe) (i j : Nat) :
    e.Step { e with stack := e.stack.swapIfInBounds i j } :=
  .restack safe fun _ member => .inl (mem_of_mem_swap member)

theorem Step.setAbs (safe : e.Safe) (i : Nat) {v : Value} (live : e.heap.Live v) :
    e.Step (e.setAbs i v) :=
  .restack safe fun w member => by
    rcases Array.mem_or_eq_of_mem_setIfInBounds member with old | rfl
    · exact .inl old
    · exact .inr live

theorem Step.insertAbs (safe : e.Safe) (i : Nat) {v : Value} (live : e.heap.Live v) :
    e.Step (e.insertAbs i v) :=
  .restack safe fun w member => by
    rcases mem_of_mem_insert member with old | rfl
    · exact .inl old
    · exact .inr live

theorem Step.removeAbs (safe : e.Safe) (i : Nat) : e.Step (e.removeAbs i) :=
  .restack safe fun _ member => .inl (mem_of_mem_erase member)

/-- Resizing a frame cuts the stack or pads it with undefined. -/
theorem Step.resizeFrame (safe : e.Safe) (n : Nat) : e.Step (e.resizeFrame n) :=
  .restack safe fun v member => by
    rcases Array.mem_append.mp member with kept | padded
    · exact .inl (mem_of_mem_take kept)
    · rw [Array.mem_replicate] at padded
      exact .inr (padded.2 ▸ Heap.live_undefined)

/-- Changing the control state is a step when every scope it adds is live. -/
theorem Step.control (safe : e.Safe) (heap : e'.heap = e.heap) (registry : e'.registry = e.registry)
    (global : e'.global = e.global) (config : e'.config = e.config)
    (sets : e'.finalizerSets = e.finalizerSets) (stack : e'.stack = e.stack)
    (queue : e'.finalizeQueue = e.finalizeQueue) (log : e'.finalizerLog = e.finalizerLog)
    (scopes : ∀ id, some id ∈ e'.scopes → some id ∈ e.scopes ∨ e.heap.Valid id) : e.Step e' := by
  refine .reroot heap registry global config sets queue log ⟨stack ▸ safe.roots.stack,
    fun id member => ?_, queue ▸ safe.roots.queue, global ▸ safe.roots.global⟩
  rcases scopes id member with old | live
  · exact safe.roots.scopes id old
  · exact live

/-- Setting the control state is a step when every scope it adds is live. -/
theorem Step.rescope (safe : e.Safe) (scopes : Array (Option ObjectId))
    (made : ∀ id, some id ∈ scopes → some id ∈ e.scopes ∨ e.heap.Valid id) (frames : Array Nat)
    (depth nesting : Nat) (slot : Option Nat) (bottom : Nat) :
    e.Step { e with
      scopes, hostFrames := frames, callDepth := depth, nesting, completionSlot := slot, bottom } :=
  .control safe rfl rfl rfl rfl rfl rfl rfl rfl made

/-- Setting the control state but the scopes is a step. -/
theorem Step.retune (safe : e.Safe) (frames : Array Nat) (depth nesting : Nat) (slot : Option Nat)
    (bottom : Nat) :
    e.Step { e with
      hostFrames := frames, callDepth := depth, nesting, completionSlot := slot, bottom } :=
  .rescope safe e.scopes (fun _ member => .inl member) frames depth nesting slot bottom

/-- Safety depends on the heap and the roots alone. -/
theorem Safe.of_roots (safe : e.Safe) (heap : e'.heap = e.heap) (stack : e'.stack = e.stack)
    (scopes : e'.scopes = e.scopes) (queue : e'.finalizeQueue = e.finalizeQueue)
    (global : e'.global = e.global) : e'.Safe where
  wellFormed := heap ▸ safe.wellFormed
  closed := heap ▸ safe.closed
  roots := heap ▸ safe.roots.of_roots stack scopes queue global

end Engine

end EmbedScript
