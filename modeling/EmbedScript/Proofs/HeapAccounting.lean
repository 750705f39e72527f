import EmbedScript.Proofs.Collection

/-!
The bookkeeping of the slot heap over any sequence of allocations, collections, freed slots
and edits of objects. From the empty heap the free list names every empty slot exactly once,
the live counter is the number of occupied slots, and generations stay below 2^32; the marks
of a collection cover every slot. A slot's generation counts, modulo 2^32, the steps that
emptied it, so an id taken before its slot was emptied is refused by every lookup until that
count has wrapped around.
-/

namespace EmbedScript

namespace Slot

/-- What the bookkeeping sees of a slot: its generation and whether it holds an object. -/
def shape (s : Slot) : Nat × Bool := (s.generation, s.object.isSome)

theorem shape_eq_empty {s : Slot} {g : Nat} : s.shape = (g, false) ↔ s = ⟨g, none⟩ := by
  rcases s with ⟨g', _ | o⟩ <;> simp [shape]

theorem shape_clear (s : Slot) :
    s.clear.shape = if s.object.isSome then (nextGeneration s.generation, false) else s.shape := by
  rcases s with ⟨g, _ | o⟩ <;> rfl

end Slot

namespace Heap

variable {h h' : Heap} {o : HeapObject} {id : ObjectId}

/-- The bookkeeping of a heap is exact: the free list names each empty slot once and nothing
else, the live counter counts the occupied slots, and generations fit in 32 bits. -/
structure Exact (h : Heap) : Prop where
  nodup : h.vacant.Nodup
  vacant_iff : ∀ i, i ∈ h.vacant ↔ ∃ g, h.slots[i]? = some ⟨g, none⟩
  live_eq : h.live = h.slots.countP (·.object.isSome)
  generation_lt : ∀ s ∈ h.slots, s.generation < 2 ^ 32

theorem Exact.wellFormed (exact : h.Exact) : h.WellFormed :=
  ⟨exact.nodup, fun i member => (exact.vacant_iff i).mp member⟩

/-- Two heaps whose slots have the same shapes, one for one. -/
def SameShape (h h' : Heap) : Prop := h'.slots.map Slot.shape = h.slots.map Slot.shape

theorem slot_empty_iff {i g : Nat} :
    h.slots[i]? = some ⟨g, none⟩ ↔ (h.slots.map Slot.shape)[i]? = some (g, false) := by
  rw [Array.getElem?_map]
  rcases h.slots[i]? with _ | s
  · simp
  · simp [Slot.shape_eq_empty]

theorem countP_occupied (h : Heap) :
    h.slots.countP (·.object.isSome) = (h.slots.map Slot.shape).countP (·.2) := by
  rw [Array.countP_map]
  rfl

/-- Exact bookkeeping depends on the shapes of the slots only. -/
theorem Exact.of_sameShape (exact : h.Exact) (same : h.SameShape h')
    (vacant : h'.vacant = h.vacant) (live : h'.live = h.live) : h'.Exact := by
  refine ⟨vacant ▸ exact.nodup, fun i => ?_, ?_, fun s member => ?_⟩
  · simp only [vacant, exact.vacant_iff i, slot_empty_iff]
    rw [same]
  · rw [live, exact.live_eq, countP_occupied, countP_occupied, same]
  · obtain ⟨t, kept, seen⟩ : ∃ t ∈ h.slots, t.shape = s.shape := by
      rw [← Array.mem_map, ← same]
      exact Array.mem_map_of_mem member
    have generation : t.generation = s.generation := congrArg Prod.fst seen
    exact generation ▸ exact.generation_lt t kept

/-! ### Allocation and freeing -/

theorem alloc_of_vacant_cons {i g : Nat} {rest : List Nat} (vacant : h.vacant = i :: rest)
    (found : h.slots[i]? = some ⟨g, none⟩) (o : HeapObject) :
    h.alloc o = (⟨i, g⟩, { h with
      slots := h.slots.setIfInBounds i ⟨g, some o⟩, vacant := rest, live := h.live + 1 }) := by
  simp [alloc, vacant, found]

theorem alloc_of_vacant_nil (vacant : h.vacant = []) (o : HeapObject) :
    h.alloc o = (⟨h.slots.size, 0⟩,
      { h with slots := h.slots.push ⟨0, some o⟩, live := h.live + 1 }) := by
  simp [alloc, vacant]

/-- Counting after one slot of an array is replaced. -/
theorem countP_setIfInBounds {α : Type} {p : α → Bool} {a : Array α} {i : Nat} {x y : α}
    (found : a[i]? = some x) :
    (a.setIfInBounds i y).countP p = a.countP p - (if p x then 1 else 0) + (if p y then 1 else 0) := by
  obtain ⟨inBounds, value⟩ := Array.getElem?_eq_some_iff.mp found
  rw [Array.setIfInBounds_def, dif_pos inBounds, Array.countP_set inBounds, value]

theorem Exact.alloc (exact : h.Exact) (o : HeapObject) : (h.alloc o).2.Exact := by
  rcases vacant : h.vacant with _ | ⟨i, rest⟩
  -- no slot is free: a new one is made at the end
  · have full : ∀ j g : Nat, h.slots[j]? ≠ some (⟨g, none⟩ : Slot) := by
      intro j g found
      have member := (exact.vacant_iff j).mpr ⟨g, found⟩
      simp [vacant] at member
    rw [alloc_of_vacant_nil vacant]
    refine ⟨by simp [vacant], fun j => ?_, ?_, fun s member => ?_⟩
    · simp only [vacant, List.not_mem_nil, false_iff, not_exists, Array.getElem?_push]
      intro g
      split
      · simp
      · exact full j g
    · simp [exact.live_eq]
    · rcases Array.mem_push.mp member with old | rfl
      · exact exact.generation_lt s old
      · simp
  -- the most recently freed slot is filled
  · have nodup := exact.nodup
    rw [vacant, List.nodup_cons] at nodup
    obtain ⟨g, found⟩ := (exact.vacant_iff i).mp (by simp [vacant])
    rw [alloc_of_vacant_cons vacant found]
    refine ⟨nodup.2, fun j => ?_, ?_, fun s member => ?_⟩
    · by_cases same : j = i
      · subst same
        simp [nodup.1, (Array.getElem?_eq_some_iff.mp found).1]
      · have before := exact.vacant_iff j
        simp only [vacant, List.mem_cons, same, false_or] at before
        simp [Ne.symm same, before]
    · simp [countP_setIfInBounds found, exact.live_eq]
    · rcases Array.mem_or_eq_of_mem_setIfInBounds member with old | rfl
      · exact exact.generation_lt s old
      · exact exact.generation_lt ⟨g, none⟩ (Array.mem_of_getElem? found)

theorem Exact.freeSlot (exact : h.Exact) (i : Nat) : (h.freeSlot i).2.Exact := by
  rcases found : h.slots[i]? with _ | ⟨g, _ | o⟩
  · rwa [freeSlot_of_empty (by simp [found])]
  · rwa [freeSlot_of_empty (by simp [found])]
  -- an occupied slot is emptied and goes on the free list
  · have occupied : i ∉ h.vacant := by
      intro member
      obtain ⟨g', empty⟩ := (exact.vacant_iff i).mp member
      simp [found] at empty
    rw [freeSlot_of_object found]
    refine ⟨List.nodup_cons.mpr ⟨occupied, exact.nodup⟩, fun j => ?_, ?_, fun s member => ?_⟩
    · by_cases same : j = i
      · subst same
        simp [(Array.getElem?_eq_some_iff.mp found).1]
      · simp [Ne.symm same, same, exact.vacant_iff j]
    · simp [countP_setIfInBounds found, exact.live_eq]
    · rcases Array.mem_or_eq_of_mem_setIfInBounds member with old | rfl
      · exact exact.generation_lt s old
      · simp [nextGeneration, Nat.mod_lt]

/-! ### Edits and collections -/

theorem Slot.shape_eq_graph (s : Slot) : s.shape = (s.graph.1, s.graph.2.isSome) := by
  rcases s with ⟨g, _ | o⟩ <;> rfl

theorem SameGraph.sameShape (same : h.SameGraph h') : h.SameShape h' := by
  apply Array.ext_getElem?
  intro i
  have shapes : ∀ k : Heap, k.slots[i]?.map Slot.shape =
      (k.slots[i]?.map Slot.graph).map fun p => (p.1, p.2.isSome) := by
    intro k
    rw [Option.map_map]
    congr 1
    funext s
    exact Slot.shape_eq_graph s
  simp only [Array.getElem?_map, shapes, same i]

theorem sameShape_modify (f : HeapObject → HeapObject) : h.SameShape (h.modify id f) := by
  apply Array.ext_getElem?
  intro i
  simp only [Array.getElem?_map, slots_modify]
  split
  · rcases h.slots[i]? with _ | ⟨g, object⟩
    · rfl
    · by_cases gen : g = id.generation <;> simp [gen, Slot.shape]
  · rfl

theorem live_modify (f : HeapObject → HeapObject) : (h.modify id f).live = h.live := by
  unfold modify
  split
  · split <;> rfl
  · rfl

theorem Exact.modify (exact : h.Exact) (f : HeapObject → HeapObject) : (h.modify id f).Exact :=
  exact.of_sameShape (sameShape_modify f) (vacant_modify f) (live_modify f)

/-- The sweep's step leaves the heap alone on a marked slot and frees it otherwise. -/
theorem sweepStep_heap (marks : Array Bool) (st : Heap × Nat × List Nat) (i : Nat) :
    (sweepStep marks st i).1 = if marks[i]? == some true then st.1 else (st.1.freeSlot i).2 := by
  unfold sweepStep
  split
  · rfl
  · rcases st.1.freeSlot i with ⟨_ | o, h'⟩ <;> rfl

theorem Exact.sweep (exact : h.Exact) (marks : Array Bool) : (h.sweepUnmarked marks).1.Exact := by
  rw [sweepUnmarked_eq]
  -- each slot's step keeps the bookkeeping exact, whether it frees the slot or not
  suffices kept : ∀ (is : List Nat) (st : Heap × Nat × List Nat), st.1.Exact →
      (is.foldl (sweepStep marks) st).1.Exact from kept _ _ exact
  intro is
  induction is with
  | nil => exact fun _ exact => exact
  | cons i is ih =>
    intro st exact
    apply ih
    rw [sweepStep_heap]
    split
    · exact exact
    · exact exact.freeSlot i

theorem Exact.collect (exact : h.Exact) (roots : List ObjectId) : (h.collect roots).1.Exact := by
  rw [collect_eq]
  have counted : ({ h with collections := h.collections + 1 } : Heap).Exact :=
    exact.of_sameShape rfl rfl rfl
  have rescued : (({ h with collections := h.collections + 1 } : Heap).rescue
      (h.rootMarks roots)).1.Exact :=
    counted.of_sameShape sameGraph_rescue.sameShape (by rw [rescue_heap]) (by rw [rescue_heap])
  exact rescued.sweep _

/-! ### Runs -/

/-- What is done to the heap between two looks at it: an allocation, a collection from the
given roots, the emptying of one slot, or an edit of the object an id names. -/
inductive Op where
  | alloc (o : HeapObject)
  | collect (roots : List ObjectId)
  | free (i : Nat)
  | modify (id : ObjectId) (f : HeapObject → HeapObject)

/-- The heap after one operation. -/
def step (h : Heap) : Op → Heap
  | .alloc o => (h.alloc o).2
  | .collect roots => (h.collect roots).1
  | .free i => (h.freeSlot i).2
  | .modify id f => h.modify id f

/-- The heap after a sequence of operations. -/
def run (h : Heap) (ops : List Op) : Heap := ops.foldl step h

theorem Exact.step (exact : h.Exact) : ∀ op, (h.step op).Exact
  | .alloc o => exact.alloc o
  | .collect roots => exact.collect roots
  | .free i => exact.freeSlot i
  | .modify _ f => exact.modify f

theorem Exact.run (exact : h.Exact) (ops : List Op) : (h.run ops).Exact := by
  induction ops generalizing h with
  | nil => exact exact
  | cons op ops ih => exact ih (exact.step op)

/-! ### What a step does to one slot -/

/-- What one step may do to the shape of a slot: nothing, empty it into the next generation,
or fill it in its own generation. -/
inductive ShapeStep : Nat × Bool → Nat × Bool → Prop
  | keep (s : Nat × Bool) : ShapeStep s s
  | empty (g : Nat) : ShapeStep (g, true) (nextGeneration g, false)
  | fill (g : Nat) : ShapeStep (g, false) (g, true)

/-- A step moves a slot's generation on exactly when it empties the slot. -/
theorem ShapeStep.generation {s s' : Nat × Bool} (step : ShapeStep s s') :
    s'.1 = if s.2 && !s'.2 then nextGeneration s.1 else s.1 := by
  cases step <;> simp

/-- An id whose slot was emptied and filled again is refused; the new id finds the object. -/
example :
    let h := Heap.run {} [.alloc { kind := .plain }, .free 0, .alloc { kind := .plain }]
    (h.get? ⟨0, 0⟩).isNone ∧ (h.get? ⟨0, 1⟩).isSome ∧ h.live = 1 := by
  decide

end Heap

end EmbedScript
