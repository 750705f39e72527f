import EmbedScript.Heap.Collect

/-!
Which ids of the slot heap are live, and how allocation and edits change that. A heap is well
formed when its free list names distinct empty slots; allocation then never overwrites a live
object, and every id live before an allocation or an edit is live after it.
-/

namespace EmbedScript

namespace Heap

/-- An id is live when its slot holds an object of its generation. -/
def Valid (h : Heap) (id : ObjectId) : Prop := ∃ o, h.get? id = some o

/-- The free list names distinct slots, each of them empty. -/
structure WellFormed (h : Heap) : Prop where
  nodup : h.vacant.Nodup
  empty : ∀ i ∈ h.vacant, ∃ g, h.slots[i]? = some ⟨g, none⟩

/-- Every reference of every object names a live object. -/
def Closed (h : Heap) : Prop :=
  ∀ (i g : Nat) (o : HeapObject), h.slots[i]? = some ⟨g, some o⟩ → ∀ r ∈ o.references, h.Valid r

theorem ObjectId.eq_of {a b : ObjectId} (index : a.index = b.index)
    (generation : a.generation = b.generation) : a = b := by
  cases a
  cases b
  simp_all

variable {h : Heap} {id id' : ObjectId} {o : HeapObject}

theorem get?_eq_some : h.get? id = some o ↔ h.slots[id.index]? = some ⟨id.generation, some o⟩ := by
  unfold get?
  rcases h.slots[id.index]? with _ | ⟨g, obj⟩
  · simp
  · by_cases same : g = id.generation
    · subst same
      simp
    · simp [same]

theorem valid_iff : h.Valid id ↔ ∃ o, h.slots[id.index]? = some ⟨id.generation, some o⟩ := by
  simp only [Valid, get?_eq_some]

/-- Two live ids of one slot are the same id. -/
theorem Valid.eq_of_index (first : h.Valid id) (second : h.Valid id')
    (index : id.index = id'.index) : id = id' := by
  obtain ⟨o, ho⟩ := valid_iff.mp first
  obtain ⟨o', ho'⟩ := valid_iff.mp second
  rw [index, ho'] at ho
  simp only [Option.some.injEq, Slot.mk.injEq] at ho
  exact ObjectId.eq_of index ho.1.symm

theorem Valid.index_lt (live : h.Valid id) : id.index < h.slots.size := by
  obtain ⟨o, ho⟩ := valid_iff.mp live
  exact (Array.getElem?_eq_some_iff.mp ho).1

/-! ### Allocation -/

/-- The slot an allocation fills was empty: a freed slot or a new one. -/
theorem alloc_slot_free (o : HeapObject) (wf : h.WellFormed) :
    h.slots[(h.alloc o).1.index]? = none ∨
      h.slots[(h.alloc o).1.index]? = some ⟨(h.alloc o).1.generation, none⟩ := by
  unfold alloc
  rcases hv : h.vacant with _ | ⟨i, rest⟩
  · simp
  · obtain ⟨g, hg⟩ := wf.empty i (by simp [hv])
    simp [hg]

theorem slots_alloc (wf : h.WellFormed) (i : Nat) :
    (h.alloc o).2.slots[i]? =
      if i = (h.alloc o).1.index then some ⟨(h.alloc o).1.generation, some o⟩
      else h.slots[i]? := by
  unfold alloc
  rcases hv : h.vacant with _ | ⟨j, rest⟩
  · simp only [Array.getElem?_push]
  · obtain ⟨g, hg⟩ := wf.empty j (by simp [hv])
    have inBounds : j < h.slots.size := (Array.getElem?_eq_some_iff.mp hg).1
    simp only [Array.getElem?_setIfInBounds, hg]
    by_cases hi : i = j
    · subst hi
      simp [inBounds]
    · simp [hi, Ne.symm hi]

theorem get?_alloc_self (wf : h.WellFormed) : (h.alloc o).2.get? (h.alloc o).1 = some o := by
  rw [get?_eq_some, slots_alloc wf]
  simp

theorem alloc_index_ne (wf : h.WellFormed) (live : h.Valid id) :
    id.index ≠ (h.alloc o).1.index := by
  intro same
  obtain ⟨o', ho'⟩ := valid_iff.mp live
  rcases alloc_slot_free o wf with free | free <;> rw [← same, ho'] at free <;> simp at free

theorem get?_alloc_of_valid (wf : h.WellFormed) (live : h.Valid id) :
    (h.alloc o).2.get? id = h.get? id := by
  unfold get?
  rw [slots_alloc wf, if_neg (alloc_index_ne wf live)]

theorem valid_alloc (wf : h.WellFormed) (live : h.Valid id) : (h.alloc o).2.Valid id := by
  obtain ⟨o', ho'⟩ := live
  exact ⟨o', (get?_alloc_of_valid wf ⟨o', ho'⟩).trans ho'⟩

theorem valid_alloc_self (wf : h.WellFormed) : (h.alloc o).2.Valid (h.alloc o).1 :=
  ⟨o, get?_alloc_self wf⟩

theorem valid_alloc_iff (wf : h.WellFormed) :
    (h.alloc o).2.Valid id ↔ h.Valid id ∨ id = (h.alloc o).1 := by
  refine ⟨fun live => ?_, ?_⟩
  · by_cases same : id = (h.alloc o).1
    · exact Or.inr same
    · left
      obtain ⟨o', ho'⟩ := valid_iff.mp live
      rw [slots_alloc wf] at ho'
      by_cases index : id.index = (h.alloc o).1.index
      · simp only [index, if_true, Option.some.injEq, Slot.mk.injEq] at ho'
        exact absurd (ObjectId.eq_of index ho'.1.symm) same
      · rw [if_neg index] at ho'
        exact valid_iff.mpr ⟨o', ho'⟩
  · rintro (live | rfl)
    · exact valid_alloc wf live
    · exact valid_alloc_self wf

theorem wellFormed_alloc (wf : h.WellFormed) : (h.alloc o).2.WellFormed := by
  constructor
  · unfold alloc
    rcases hv : h.vacant with _ | ⟨j, rest⟩
    · simp
    · have nodup := wf.nodup
      rw [hv] at nodup
      exact (List.nodup_cons.mp nodup).2
  · intro i member
    rw [slots_alloc wf]
    have fresh : i ≠ (h.alloc o).1.index := by
      unfold alloc at member ⊢
      rcases hv : h.vacant with _ | ⟨j, rest⟩
      · simp [hv] at member
      · have nodup := wf.nodup
        rw [hv] at nodup
        simp only [hv] at member ⊢
        intro same
        subst same
        exact (List.nodup_cons.mp nodup).1 member
    rw [if_neg fresh]
    apply wf.empty
    unfold alloc at member
    rcases hv : h.vacant with _ | ⟨j, rest⟩
    · simp [hv] at member
    · simp only [hv] at member
      simp [member]

theorem closed_alloc (wf : h.WellFormed) (closed : h.Closed)
    (refs : ∀ r ∈ o.references, h.Valid r) : (h.alloc o).2.Closed := by
  unfold Closed
  intro i g o' slot r member
  rw [slots_alloc wf] at slot
  by_cases index : i = (h.alloc o).1.index
  · simp only [index, if_true, Option.some.injEq, Slot.mk.injEq] at slot
    obtain ⟨-, rfl⟩ := slot
    exact valid_alloc wf (refs r member)
  · rw [if_neg index] at slot
    exact valid_alloc wf (closed i g o' slot r member)

/-! ### Edits -/

theorem slots_modify (f : HeapObject → HeapObject) (i : Nat) :
    (h.modify id f).slots[i]? =
      if i = id.index then
        h.slots[i]?.map fun s => if s.generation = id.generation then ⟨s.generation, s.object.map f⟩ else s
      else h.slots[i]? := by
  unfold modify
  by_cases index : i = id.index
  · subst index
    rw [if_pos rfl]
    rcases hs : h.slots[id.index]? with _ | ⟨g, _ | obj⟩
    · simp [hs]
    · simp [hs]
    · have inBounds : id.index < h.slots.size := (Array.getElem?_eq_some_iff.mp hs).1
      by_cases same : g = id.generation
      · subst same
        simp [inBounds]
      · have differ : (g == id.generation) = false := by simpa using same
        simp [differ, hs, same]
  · rw [if_neg index]
    rcases hs : h.slots[id.index]? with _ | ⟨g, _ | obj⟩
    · rfl
    · rfl
    · simp only
      split
      · simp [Ne.symm index]
      · rfl

theorem get?_modify (f : HeapObject → HeapObject) :
    (h.modify id f).get? id' = if id' = id then (h.get? id).map f else h.get? id' := by
  unfold get?
  rw [slots_modify]
  by_cases same : id' = id
  · subst same
    rcases h.slots[id'.index]? with _ | ⟨g, obj⟩
    · simp
    · by_cases gen : g = id'.generation <;> simp [gen]
  · simp only [if_neg same]
    by_cases index : id'.index = id.index
    · rw [if_pos index, index]
      rcases hs : h.slots[id.index]? with _ | ⟨g, obj⟩
      · simp
      · by_cases gen : g = id.generation
        · have other : id.generation ≠ id'.generation := by
            intro gen'
            exact same (ObjectId.eq_of index gen'.symm)
          simp [gen, other]
        · simp [gen]
    · rw [if_neg index]

theorem valid_modify (f : HeapObject → HeapObject) : (h.modify id f).Valid id' ↔ h.Valid id' := by
  simp only [Valid, get?_modify]
  by_cases same : id' = id
  · subst same
    simp only [if_true, Option.map_eq_some_iff]
    constructor
    · rintro ⟨_, a, found, -⟩
      exact ⟨a, found⟩
    · rintro ⟨a, found⟩
      exact ⟨f a, a, found, rfl⟩
  · simp [same]

theorem vacant_modify (f : HeapObject → HeapObject) : (h.modify id f).vacant = h.vacant := by
  unfold modify
  split
  · split <;> rfl
  · rfl

theorem wellFormed_modify (wf : h.WellFormed) (f : HeapObject → HeapObject) :
    (h.modify id f).WellFormed := by
  constructor
  · rw [vacant_modify]
    exact wf.nodup
  · intro i member
    rw [vacant_modify] at member
    obtain ⟨g, hg⟩ := wf.empty i member
    refine ⟨g, ?_⟩
    rw [slots_modify, hg]
    split <;> simp

theorem closed_modify (closed : h.Closed) (f : HeapObject → HeapObject)
    (refs : ∀ o, h.get? id = some o → ∀ r ∈ (f o).references, h.Valid r) :
    (h.modify id f).Closed := by
  unfold Closed
  intro i g o' slot r member
  rw [valid_modify]
  rw [slots_modify] at slot
  by_cases index : i = id.index
  · rw [if_pos index] at slot
    rcases hs : h.slots[i]? with _ | ⟨g', obj⟩
    · simp [hs] at slot
    · simp only [hs, Option.map_some, Option.some.injEq] at slot
      by_cases gen : g' = id.generation
      · rw [if_pos gen] at slot
        simp only [Slot.mk.injEq] at slot
        obtain ⟨rfl, found⟩ := slot
        obtain ⟨obj, rfl, rfl⟩ := Option.map_eq_some_iff.mp found
        apply refs obj _ r member
        rw [get?_eq_some, ← index, hs, gen]
      · rw [if_neg gen] at slot
        simp only [Slot.mk.injEq] at slot
        obtain ⟨rfl, rfl⟩ := slot
        exact closed i g' o' hs r member
  · rw [if_neg index] at slot
    exact closed i g o' slot r member

end Heap

end EmbedScript
