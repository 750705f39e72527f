import EmbedScript.Proofs.Outcomes

/-!
What a collection keeps, rescues and frees, said through reachability. On a heap whose roots and
references all name live objects, a collection rescues exactly the objects that the roots do not
reach and that have a finalizer not yet queued; it keeps exactly what the roots and the rescued
objects reach, flags the rescued as queued and leaves every other survivor as it was; it counts
exactly the objects it frees and reports the handles of the proxies among them. So a collection
after one that rescued nothing, with nothing changed in between, does nothing.
-/

namespace EmbedScript

namespace Heap

instance (h : Heap) (id : ObjectId) : Decidable (h.Valid id) :=
  decidable_of_iff _ Option.isSome_iff_exists

/-- The objects a collection from `roots` rescues: those the roots do not reach that have a
finalizer not yet queued. -/
def Pending (h : Heap) (roots : List ObjectId) (id : ObjectId) : Prop :=
  ¬ h.Reach roots id ∧ ∃ o, h.get? id = some o ∧ o.finalizer.isSome = true ∧ o.finalized = false

/-- The ids of the objects a heap holds, in slot order. -/
def objectIds (h : Heap) : List ObjectId :=
  (List.range h.slots.size).filterMap fun i =>
    h.slots[i]?.bind fun s => s.object.map fun _ => ⟨i, s.generation⟩

variable {h : Heap} {roots : List ObjectId} {id : ObjectId}

/-! ### The two markings -/

section Marks

variable (closed : h.Closed) (live : ∀ r ∈ roots, h.Valid r)
include closed live

/-- The first marking marks the slot of a live object exactly when the roots reach it. -/
theorem rootMarks_iff (valid : h.Valid id) :
    (h.rootMarks roots)[id.index]? = some true ↔ h.Reach roots id := by
  constructor
  · intro marked
    rcases markAll_sound closed roots roots (fun w member => ⟨live w member, .root member⟩)
      id.index marked with fresh | ⟨id', index, reach⟩
    · simp [Array.getElem?_replicate] at fresh
    · rwa [(reach.valid closed live).eq_of_index valid index] at reach
  · exact (rootMarks_done closed live).1.marked_of_reach (rootMarks_done closed live).2

theorem rootMarks_false_iff (valid : h.Valid id) :
    (h.rootMarks roots)[id.index]? = some false ↔ ¬ h.Reach roots id := by
  obtain ⟨b, marked⟩ := marks_valid (rootMarks_done closed live).1.size valid
  rw [← rootMarks_iff closed live valid, marked]
  cases b <;> simp

/-- The marks the sweep goes by cover a live object exactly when the roots or the rescued
objects reach it. -/
theorem collectMarks_iff (valid : h.Valid id) :
    (h.collectMarks roots)[id.index]? = some true ↔
      h.Reach (roots ++ (h.rescue (h.rootMarks roots)).2) id := by
  have extended : ∀ r ∈ roots, r ∈ roots ++ (h.rescue (h.rootMarks roots)).2 :=
    fun r member => List.mem_append_left _ member
  constructor
  · intro marked
    unfold collectMarks at marked
    split at marked
    · exact ((rootMarks_iff closed live valid).mp marked).mono extended
    · -- the second marking starts from the rescued objects and keeps the first one's marks
      rcases markAll_sound closed (roots ++ (h.rescue (h.rootMarks roots)).2) _
        (fun w member => ⟨valid_of_rescued member, .root (List.mem_append_right _ member)⟩)
        id.index marked with first | ⟨id', index, reach⟩
      · exact ((rootMarks_iff closed live valid).mp first).mono extended
      · have queued : ∀ r ∈ roots ++ (h.rescue (h.rootMarks roots)).2, h.Valid r := by
          intro r member
          rcases List.mem_append.mp member with root | rescued
          · exact live r root
          · exact valid_of_rescued rescued
        rwa [(reach.valid closed queued).eq_of_index valid index] at reach
  · intro reach
    obtain ⟨done, kept, rescuedMarked⟩ := collectMarks_done closed live
    refine done.marked_of_reach (fun r member => ?_) reach
    rcases List.mem_append.mp member with root | rescued
    · exact kept _ ((rootMarks_done closed live).2 r root)
    · exact rescuedMarked r rescued

end Marks

/-! ### Rescue -/

theorem rescuedAt_eq_some {marks : Array Bool} {i : Nat} {s : Slot} :
    rescuedAt marks i s = some id ↔
      marks[i]? = some false ∧ id.index = i ∧ ∃ o, s = ⟨id.generation, some o⟩ ∧
        o.finalizer.isSome = true ∧ o.finalized = false := by
  obtain ⟨j, gen⟩ := id
  rcases s with ⟨g, _ | o⟩ <;> rcases marked : marks[i]? with _ | _ | _ <;>
    simp [rescuedAt, marked]
  constructor
  · rintro ⟨⟨fin, unqueued⟩, rfl, rfl⟩
    exact ⟨rfl, rfl, fin, unqueued⟩
  · rintro ⟨rfl, rfl, fin, unqueued⟩
    exact ⟨⟨fin, unqueued⟩, rfl, rfl⟩

theorem toFinalize_collect :
    (h.collect roots).2.toFinalize = (h.rescue (h.rootMarks roots)).2 := by
  rw [collect_eq]

/-- The rescue phase queues exactly the pending objects. -/
theorem mem_rescued_iff (closed : h.Closed) (live : ∀ r ∈ roots, h.Valid r) :
    id ∈ (h.rescue (h.rootMarks roots)).2 ↔ h.Pending roots id := by
  rw [rescued_eq, List.mem_filterMap]
  constructor
  · rintro ⟨i, -, found⟩
    obtain ⟨s, slot, queued⟩ := Option.bind_eq_some_iff.mp found
    obtain ⟨unmarked, rfl, o, rfl, fin, unqueued⟩ := rescuedAt_eq_some.mp queued
    have object : h.get? id = some o := get?_eq_some.mpr slot
    exact ⟨(rootMarks_false_iff closed live ⟨o, object⟩).mp unmarked, o, object, fin, unqueued⟩
  · rintro ⟨unreached, o, object, fin, unqueued⟩
    have slot := get?_eq_some.mp object
    refine ⟨id.index, List.mem_range.mpr (Valid.index_lt ⟨o, object⟩), ?_⟩
    rw [slot, Option.bind_some, rescuedAt_eq_some]
    exact ⟨(rootMarks_false_iff closed live ⟨o, object⟩).mpr unreached, rfl, o, rfl, fin, unqueued⟩

/-- Rescue flags an unmarked object with a finalizer as queued, and leaves every other object as
it was. -/
theorem rescueSlot_object (marks : Array Bool) (i g : Nat) (o : HeapObject) :
    rescueSlot marks i ⟨g, some o⟩ = ⟨g, some { o with
      finalized := o.finalized || (marks[i]? == some false && o.finalizer.isSome) }⟩ := by
  obtain ⟨kind, properties, finalizer, finalized⟩ := o
  rcases marked : marks[i]? with _ | _ | _ <;> cases finalizer <;> cases finalized <;>
    simp [rescueSlot, marked]

/-- What a collection leaves under the id of a live object: the object, flagged as queued if
rescue flagged it, when the sweep's marks cover it; nothing otherwise. -/
theorem get?_collect_of_get? {o : HeapObject} (found : h.get? id = some o) :
    (h.collect roots).1.get? id =
      if (h.collectMarks roots)[id.index]? = some true then
        some { o with finalized := o.finalized ||
          ((h.rootMarks roots)[id.index]? == some false && o.finalizer.isSome) }
      else none := by
  have slot := get?_eq_some.mp found
  by_cases marked : (h.collectMarks roots)[id.index]? = some true
  · rw [if_pos marked, get?_eq_some, slots_collect, if_pos marked, slot]
    simp [rescueSlot_object]
  · rw [if_neg marked]
    unfold get?
    rw [slots_collect, if_neg marked, slot]
    simp [Slot.clear]

/-! ### Survivors -/

section Survivors

variable (closed : h.Closed) (live : ∀ r ∈ roots, h.Valid r)
include closed live

/-- An object survives a collection exactly when the roots or the rescued objects reach it. -/
theorem valid_collect_iff_reach :
    (h.collect roots).1.Valid id ↔
      h.Valid id ∧ h.Reach (roots ++ (h.collect roots).2.toFinalize) id := by
  rw [valid_collect_iff, toFinalize_collect]
  constructor
  · rintro ⟨valid, marked⟩
    exact ⟨valid, (collectMarks_iff closed live valid).mp marked⟩
  · rintro ⟨valid, reach⟩
    exact ⟨valid, (collectMarks_iff closed live valid).mpr reach⟩

theorem mem_toFinalize_iff : id ∈ (h.collect roots).2.toFinalize ↔ h.Pending roots id := by
  rw [toFinalize_collect]
  exact mem_rescued_iff closed live

/-- Rescue flags an object exactly when it is among the objects the collection queues. -/
theorem flag_eq_mem_toFinalize {o : HeapObject} (found : h.get? id = some o) :
    (o.finalized || ((h.rootMarks roots)[id.index]? == some false && o.finalizer.isSome)) =
      (o.finalized || decide (id ∈ (h.collect roots).2.toFinalize)) := by
  cases queued : o.finalized
  · have pending : h.Pending roots id ↔
        (h.rootMarks roots)[id.index]? = some false ∧ o.finalizer.isSome = true := by
      rw [rootMarks_false_iff closed live ⟨o, found⟩]
      constructor
      · rintro ⟨unreached, o', found', fin, -⟩
        rw [found] at found'
        cases found'
        exact ⟨unreached, fin⟩
      · rintro ⟨unreached, fin⟩
        exact ⟨unreached, o, found, fin, queued⟩
    simp only [Bool.false_or]
    rw [Bool.eq_iff_iff, decide_eq_true_iff, mem_toFinalize_iff closed live, pending]
    simp
  · rfl

/-- What a collection leaves under an id: the object the id named, if the roots or the rescued
objects reach it, flagged as queued if it was rescued; nothing otherwise. -/
theorem get?_collect_eq_some {o' : HeapObject} :
    (h.collect roots).1.get? id = some o' ↔ ∃ o, h.get? id = some o ∧
      h.Reach (roots ++ (h.collect roots).2.toFinalize) id ∧
      o' = { o with finalized := o.finalized || decide (id ∈ (h.collect roots).2.toFinalize) } := by
  constructor
  · intro after
    obtain ⟨⟨o, found⟩, reach⟩ := (valid_collect_iff_reach closed live).mp ⟨o', after⟩
    have marked := (collectMarks_iff closed live ⟨o, found⟩).mpr (toFinalize_collect ▸ reach)
    rw [get?_collect_of_get? found, if_pos marked, flag_eq_mem_toFinalize closed live found] at after
    exact ⟨o, found, reach, (Option.some.inj after).symm⟩
  · rintro ⟨o, found, reach, rfl⟩
    have marked := (collectMarks_iff closed live ⟨o, found⟩).mpr (toFinalize_collect ▸ reach)
    rw [get?_collect_of_get? found, if_pos marked, flag_eq_mem_toFinalize closed live found]

/-- What the roots reach before a collection they still reach after it: each object on the way
survives with its references. -/
theorem Reach.collect (reach : h.Reach roots id) : (h.collect roots).1.Reach roots id := by
  induction reach with
  | root member => exact .root member
  | step reached found member ih =>
    have survives := (get?_collect_eq_some closed live).mpr
      ⟨_, found, reached.mono fun r root => List.mem_append_left _ root, rfl⟩
    exact .step ih survives member

end Survivors

/-! ### What the sweep counts and reports -/

theorem object_rescueSlot (marks : Array Bool) (i : Nat) (s : Slot) :
    (rescueSlot marks i s).object.isSome = s.object.isSome := by
  rcases s with ⟨g, _ | o⟩
  · rcases marked : marks[i]? with _ | _ | _ <;> simp [rescueSlot, marked]
  · simp [rescueSlot_object]

theorem mem_objectIds (member : id ∈ h.objectIds) : h.Valid id := by
  obtain ⟨i, -, found⟩ := List.mem_filterMap.mp member
  obtain ⟨⟨g, o⟩, slot, named⟩ := Option.bind_eq_some_iff.mp found
  obtain ⟨o, rfl, rfl⟩ := Option.map_eq_some_iff.mp named
  exact valid_iff.mpr ⟨o, slot⟩

/-- The objects a collection frees, in slot order: those of the slots its marks leave out. -/
theorem objectIds_filter_freed :
    h.objectIds.filter (fun id => ¬ (h.collect roots).1.Valid id) =
      (List.range h.slots.size).filterMap fun i =>
        if (h.collectMarks roots)[i]? = some true then none
        else h.slots[i]?.bind fun s => s.object.map fun _ => ⟨i, s.generation⟩ := by
  rw [objectIds, List.filter_filterMap]
  congr 1
  funext i
  rcases slot : h.slots[i]? with _ | ⟨g, _ | o⟩
  · simp
  · simp
  · have valid : h.Valid ⟨i, g⟩ := valid_iff.mpr ⟨o, slot⟩
    by_cases marked : (h.collectMarks roots)[i]? = some true <;>
      simp [marked, valid_collect_iff, valid]

theorem freed_collect_range : (h.collect roots).2.freed =
    ((List.range h.slots.size).filter (h.freedAt (h.collectMarks roots))).length := by
  rw [collect_eq]
  simp only [freed_sweep]
  have size : ({ h with collections := h.collections + 1 }.rescue (h.rootMarks roots)).1.slots.size =
      h.slots.size := (sameGraph_counted_rescue _).size.symm
  rw [size]
  congr 1
  apply List.filter_congr
  intro i _
  simp only [freedAt, slots_rescue]
  rcases h.slots[i]? with _ | s
  · rfl
  · simp [object_rescueSlot]

/-- A collection counts exactly the objects it frees. -/
theorem freed_collect : (h.collect roots).2.freed =
    (h.objectIds.filter fun id => ¬ (h.collect roots).1.Valid id).length := by
  rw [objectIds_filter_freed, List.length_filterMap_eq_countP, List.countP_eq_length_filter,
    freed_collect_range]
  congr 1
  apply List.filter_congr
  intro i _
  rcases slot : h.slots[i]? with _ | ⟨g, _ | o⟩ <;>
    by_cases marked : (h.collectMarks roots)[i]? = some true <;> simp [freedAt, slot, marked]

/-- A collection reports exactly the handles of the proxies it frees, in slot order. -/
theorem released_collect_eq_handles : (h.collect roots).2.released =
    (h.objectIds.filter fun id => ¬ (h.collect roots).1.Valid id).filterMap
      fun id => (h.get? id).bind HeapObject.hostHandle? := by
  rw [objectIds_filter_freed, List.filterMap_filterMap, released_collect]
  congr 1
  funext i
  rcases slot : h.slots[i]? with _ | ⟨g, _ | o⟩
  · simp [releasedAt, slot]
  · simp [releasedAt, slot]
  · have found : h.get? ⟨i, g⟩ = some o := get?_eq_some.mpr slot
    by_cases marked : (h.collectMarks roots)[i]? = some true <;>
      simp [releasedAt, slot, marked, found]

section Again

variable (closed : h.Closed) (live : ∀ r ∈ roots, h.Valid r)
include closed live

/-- After a collection that rescued nothing, the roots reach every object left. -/
theorem reach_of_valid_collect (nothing : (h.collect roots).2.toFinalize = [])
    (valid : (h.collect roots).1.Valid id) : (h.collect roots).1.Reach roots id := by
  obtain ⟨-, reach⟩ := (valid_collect_iff_reach closed live).mp valid
  rw [nothing, List.append_nil] at reach
  exact reach.collect closed live

/-- A collection after one that rescued nothing, from the same roots and with nothing changed in
between, frees nothing, reports no handle and rescues nothing. -/
theorem collect_collect_of_nothing_rescued (nothing : (h.collect roots).2.toFinalize = []) :
    ((h.collect roots).1.collect roots).2.freed = 0 ∧
      ((h.collect roots).1.collect roots).2.released = [] ∧
      ((h.collect roots).1.collect roots).2.toFinalize = [] := by
  have closed' := closed_collect closed live
  have live' : ∀ r ∈ roots, (h.collect roots).1.Valid r :=
    fun r member => valid_collect_of_reach closed live (.root member)
  -- every object the first collection left survives the second
  have none : (h.collect roots).1.objectIds.filter
      (fun id => ¬ ((h.collect roots).1.collect roots).1.Valid id) = [] := by
    refine List.filter_eq_nil_iff.mpr fun id member => ?_
    have valid := mem_objectIds member
    have reach := (reach_of_valid_collect closed live nothing valid).mono
      fun r root => List.mem_append_left ((h.collect roots).1.collect roots).2.toFinalize root
    simpa using (valid_collect_iff_reach closed' live').mpr ⟨valid, reach⟩
  refine ⟨by rw [freed_collect, none]; rfl, by rw [released_collect_eq_handles, none]; rfl, ?_⟩
  refine List.eq_nil_iff_forall_not_mem.mpr fun id member => ?_
  obtain ⟨unreached, o, found, -⟩ := (mem_toFinalize_iff closed' live').mp member
  exact unreached (reach_of_valid_collect closed live nothing ⟨o, found⟩)

end Again

end Heap

/-! ### Two collection passes of an engine -/

namespace Evaluator

theorem standard_eq : standard = ofFuel (standardFuel - 1 + 1) := rfl

/-- With the queue empty, a finalizer round runs nothing. -/
theorem finalizeRound_run_empty (d : Evaluator) {e : Engine} (empty : e.finalizeQueue = #[])
    (count : Nat) : (d.finalizeRound count).run.run e = (.ok count, e) := by
  simp only [finalizeRound, run_bind, run_get, empty, Array.back?_empty]
  rfl

theorem runFinalizers_run_empty (d : Evaluator) {e : Engine} (empty : e.finalizeQueue = #[])
    (rounds : (d.finalizeQueued 0).run.run e = (.ok 0, e)) :
    d.runFinalizers.run.run e = (.ok 0, e) := by
  simp only [runFinalizers, run_bind, run_get, empty]
  simpa using rounds

end Evaluator

/-- A collection pass that finds no finalizer queued and rescues none runs no finalizer: it
leaves the collected heap, with the entries of the swept proxies released. -/
theorem gc_run_of_nothing_queued {e : Engine} (empty : e.finalizeQueue = #[])
    (nothing : (e.heap.collect e.roots).2.toFinalize = []) :
    Api.gc.run.run e =
      (.ok ⟨(e.heap.collect e.roots).2.freed, (e.heap.collect e.roots).1.live, 0,
          (e.registry.releaseAll (e.heap.collect e.roots).2.released).1⟩,
        { e with
          heap := (e.heap.collect e.roots).1
          registry := (e.registry.releaseAll (e.heap.collect e.roots).2.released).2
          finalizeQueue := #[] }) := by
  rcases swept : e.heap.collect e.roots with ⟨heap, sweep⟩
  rcases freed : e.registry.releaseAll sweep.released with ⟨released, registry⟩
  rw [swept] at nothing
  simp only at nothing
  have rounds := Evaluator.runFinalizers_run_empty Evaluator.standard
    (e := { e with heap, registry, finalizeQueue := #[] }) rfl
    (by rw [Evaluator.standard_eq]; exact Evaluator.finalizeRound_run_empty _ rfl 0)
  simp only [Api.gc, Evaluator.collectGarbage, run_bind, run_get, run_set, swept, freed, nothing,
    empty, List.map_nil, Array.append_empty, rounds, run_pure]

/-- Two collection passes of a safe engine whose finalizer queue is empty, the first of which
rescues nothing: the second frees nothing and releases no registry entry. -/
theorem gc_gc_of_nothing_queued {e : Engine} (safe : e.Safe) (empty : e.finalizeQueue = #[])
    (nothing : (e.heap.collect e.roots).2.toFinalize = []) :
    ∃ s₁ e₁ s₂ e₂, Api.gc.run.run e = (.ok s₁, e₁) ∧ Api.gc.run.run e₁ = (.ok s₂, e₂) ∧
      s₂.freed = 0 ∧ s₂.handlesReleased = 0 := by
  obtain ⟨freed, released, again⟩ :=
    Heap.collect_collect_of_nothing_rescued safe.closed (Engine.rootsLive_iff.mp safe.roots) nothing
  let e₁ : Engine := { e with
    heap := (e.heap.collect e.roots).1
    registry := (e.registry.releaseAll (e.heap.collect e.roots).2.released).2
    finalizeQueue := #[] }
  -- the first pass leaves the roots as they were
  have roots : e₁.roots = e.roots := by simp [e₁, Engine.roots, empty]
  refine ⟨_, e₁, _, _, gc_run_of_nothing_queued empty nothing,
    gc_run_of_nothing_queued rfl (by simpa [e₁, roots] using again), ?_, ?_⟩
  · simpa [e₁, roots] using freed
  · simp [e₁, roots, released, Registry.releaseAll]

/-! ### Mark-sweep correctness -/

/-- A collection from roots that, like every reference of the heap, name live objects keeps
exactly what the roots and the rescued objects reach. It rescues exactly the objects that the
roots do not reach and that have a finalizer not yet queued, flags exactly those as queued and
leaves every other survivor as it was; it counts exactly the objects it frees and reports exactly
the handles of the proxies among them, in slot order. A second collection from the same roots
after one that rescued nothing does nothing; so, of a safe engine whose finalizer queue is
empty, a collection pass that rescues nothing is followed by one that frees nothing and releases
no registry entry. -/
theorem collect_keeps_exactly_the_reached :
    (∀ (h : Heap) (roots : List ObjectId), h.Closed → (∀ r ∈ roots, h.Valid r) →
      (∀ id, id ∈ (h.collect roots).2.toFinalize ↔ h.Pending roots id) ∧
      (∀ id, (h.collect roots).1.Valid id ↔
        h.Valid id ∧ h.Reach (roots ++ (h.collect roots).2.toFinalize) id) ∧
      (∀ id o', (h.collect roots).1.get? id = some o' ↔ ∃ o, h.get? id = some o ∧
        h.Reach (roots ++ (h.collect roots).2.toFinalize) id ∧
        o' = { o with finalized := o.finalized || decide (id ∈ (h.collect roots).2.toFinalize) }) ∧
      (h.collect roots).2.freed =
        (h.objectIds.filter fun id => ¬ (h.collect roots).1.Valid id).length ∧
      (h.collect roots).2.released =
        (h.objectIds.filter fun id => ¬ (h.collect roots).1.Valid id).filterMap
          (fun id => (h.get? id).bind HeapObject.hostHandle?) ∧
      ((h.collect roots).2.toFinalize = [] →
        ((h.collect roots).1.collect roots).2.freed = 0 ∧
        ((h.collect roots).1.collect roots).2.released = [] ∧
        ((h.collect roots).1.collect roots).2.toFinalize = [])) ∧
    ∀ e : Engine, e.Safe → e.finalizeQueue = #[] → (e.heap.collect e.roots).2.toFinalize = [] →
      ∃ s₁ e₁ s₂ e₂, Api.gc.run.run e = (.ok s₁, e₁) ∧ Api.gc.run.run e₁ = (.ok s₂, e₂) ∧
        s₂.freed = 0 ∧ s₂.handlesReleased = 0 := by
  refine ⟨fun h roots closed live => ?_, fun e safe empty nothing => ?_⟩
  · exact ⟨fun _ => Heap.mem_toFinalize_iff closed live,
      fun _ => Heap.valid_collect_iff_reach closed live,
      fun _ _ => Heap.get?_collect_eq_some closed live, Heap.freed_collect,
      Heap.released_collect_eq_handles, Heap.collect_collect_of_nothing_rescued closed live⟩
  · exact gc_gc_of_nothing_queued safe empty nothing

/-- A fresh engine has no object a collection would rescue, and of two collection passes in a
row the second frees nothing. -/
theorem fresh_engine_collects_idempotently :
    (Engine.fresh {} 0).Safe ∧ (Engine.fresh {} 0).finalizeQueue = #[] ∧
      (∀ id, ¬ (Engine.fresh {} 0).heap.Pending (Engine.fresh {} 0).roots id) ∧
      ∃ s₁ e₁ s₂ e₂, Api.gc.run.run (Engine.fresh {} 0) = (.ok s₁, e₁) ∧
        Api.gc.run.run e₁ = (.ok s₂, e₂) ∧ s₂.freed = 0 ∧ s₂.handlesReleased = 0 := by
  have safe := (Engine.fresh_sound {} 0).safe
  have nothing :
      ((Engine.fresh {} 0).heap.collect (Engine.fresh {} 0).roots).2.toFinalize = [] := by
    decide +kernel
  have laws := collect_keeps_exactly_the_reached.1 _ _ safe.closed
    (Engine.rootsLive_iff.mp safe.roots)
  refine ⟨safe, rfl, fun id pending => ?_, collect_keeps_exactly_the_reached.2 _ safe rfl nothing⟩
  have queued := (laws.1 id).mpr pending
  rw [nothing] at queued
  cases queued

/-! ### A pass that runs finalizers deferred by an earlier one -/

/-- A host function that does nothing, to serve as a finalizer. -/
def idleFinalizer : HeapObject := { kind := .function (.host "" .noop .variadic) }

/-- A fresh engine holding, off its stack, an object whose finalizer is `idleFinalizer`. -/
def finalizableGarbage : Engine :=
  let withFinalizer : Engine :=
    { Engine.fresh {} 0 with heap := ((Engine.fresh {} 0).heap.alloc idleFinalizer).2 }
  let withTarget : Engine :=
    { withFinalizer with heap := (withFinalizer.heap.alloc { kind := .plain }).2 }
  { withTarget with
    heap := withTarget.heap.modify (withFinalizer.heap.alloc { kind := .plain }).1 fun o =>
      { o with finalizer := some ((Engine.fresh {} 0).heap.alloc idleFinalizer).1, finalized := false }
    finalizerSets := withTarget.finalizerSets + 1 }

/-- `finalizableGarbage` after a collection that rescued its object and, as at the call-depth
limit, left the finalizer queued. -/
def deferredEngine : Engine :=
  { finalizableGarbage with
    heap := (finalizableGarbage.heap.collect finalizableGarbage.roots).1
    registry := (finalizableGarbage.registry.releaseAll
      (finalizableGarbage.heap.collect finalizableGarbage.roots).2.released).2
    finalizeQueue := finalizableGarbage.finalizeQueue ++
      (finalizableGarbage.heap.collect finalizableGarbage.roots).2.toFinalize.toArray }

theorem finalizableGarbage_safe : finalizableGarbage.Safe := by
  have fresh := (Engine.fresh_sound {} 0).safe
  have withFinalizer := fresh.step (.alloc idleFinalizer rfl rfl rfl rfl (by
    simp [idleFinalizer, HeapObject.references, PropertyTable.values]))
  have withTarget := withFinalizer.step (.alloc { kind := .plain } rfl rfl rfl rfl (by
    simp [HeapObject.references, PropertyTable.values]))
  have armed := withTarget.step (.setFinalizer (((Engine.fresh {} 0).heap.alloc idleFinalizer).2.alloc
    { kind := .plain }).1 (some ((Engine.fresh {} 0).heap.alloc idleFinalizer).1) fun r member => by
      cases member
      exact Heap.valid_alloc withFinalizer.wellFormed (Heap.valid_alloc_self fresh.wellFormed))
  -- the record of the finalizer given is all that `finalizableGarbage` leaves out
  exact armed.of_roots rfl rfl rfl rfl rfl

theorem deferredEngine_safe : deferredEngine.Safe :=
  (finalizableGarbage_safe.step .collect).of_roots rfl rfl rfl rfl rfl

/-- Finalizers deferred by an earlier pass leave garbage for the pass after the one that runs
them: from `deferredEngine`, a collection pass rescues nothing and runs the queued finalizer, and
the next pass frees the finalized object and its finalizer. -/
theorem deferred_finalizers_leave_garbage_for_the_next_pass :
    deferredEngine.Safe ∧
      (deferredEngine.heap.collect deferredEngine.roots).2.toFinalize = [] ∧
      (Api.gc.run.run deferredEngine).1.toOption.map CollectStats.finalizersRun = some 1 ∧
      (Api.gc.run.run (Api.gc.run.run deferredEngine).2).1.toOption.map CollectStats.freed =
        some 2 :=
  ⟨deferredEngine_safe, by decide +kernel, by decide +kernel, by decide +kernel⟩

end EmbedScript
