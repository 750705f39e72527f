import EmbedScript.Proofs.Marking

/-!
The rescue and sweep phases of a collection, slot by slot, and what a whole collection keeps.
Rescue only flags objects as queued, so the heap it leaves has the same graph as the one it
was given and marks it the same way; the sweep empties exactly the unmarked slots. On a
well-formed heap whose roots and references are live, every root, every reference of a
surviving object and every object queued for finalization is then live after a collection,
the free list still names distinct empty slots, and the handles it reports are those of the
proxies it freed.
-/

namespace EmbedScript

namespace Slot

/-- What the collector sees of a slot: its generation and the references of its object. -/
def graph (s : Slot) : Nat × Option (List ObjectId) := (s.generation, s.object.map (·.references))

/-- A slot after the sweep empties it; an object's slot moves to the next generation. -/
def clear (s : Slot) : Slot :=
  match s.object with
  | some _ => ⟨nextGeneration s.generation, none⟩
  | none => s

end Slot

namespace Heap

variable {h h' : Heap} {marks : Array Bool} {id : ObjectId}

theorem setIfInBounds_self {α : Type} {a : Array α} {i : Nat} {x : α} (found : a[i]? = some x) :
    a.setIfInBounds i x = a := by
  apply Array.ext_getElem?
  intro j
  by_cases index : i = j
  · subst index
    obtain ⟨inBounds, value⟩ := Array.getElem?_eq_some_iff.mp found
    simp [inBounds, value]
  · simp [index]

/-! ### Heaps with the same graph -/

/-- Two heaps whose slots differ at most in what the collector does not follow: the same
generations, objects in the same slots, with the same references. -/
def SameGraph (h h' : Heap) : Prop :=
  ∀ i : Nat, h.slots[i]?.map Slot.graph = h'.slots[i]?.map Slot.graph

theorem slot_of_graph {i g : Nat} {refs : List ObjectId}
    (seen : h.slots[i]?.map Slot.graph = some (g, some refs)) :
    ∃ o, h.slots[i]? = some ⟨g, some o⟩ ∧ o.references = refs := by
  rcases hs : h.slots[i]? with _ | ⟨g', _ | o⟩
  · simp [hs] at seen
  · simp [hs, Slot.graph] at seen
  · simp only [hs, Option.map_some, Slot.graph, Option.some.injEq, Prod.mk.injEq] at seen
    obtain ⟨rfl, found⟩ := seen
    exact ⟨o, rfl, by simpa using found⟩

theorem valid_iff_graph : h.Valid id ↔
    ∃ refs, h.slots[id.index]?.map Slot.graph = some (id.generation, some refs) := by
  rw [valid_iff]
  constructor
  · rintro ⟨o, found⟩
    exact ⟨o.references, by simp [found, Slot.graph]⟩
  · rintro ⟨refs, seen⟩
    obtain ⟨o, found, -⟩ := slot_of_graph seen
    exact ⟨o, found⟩

namespace SameGraph

theorem symm (same : h.SameGraph h') : h'.SameGraph h := fun i => (same i).symm

theorem trans {h'' : Heap} (first : h.SameGraph h') (second : h'.SameGraph h'') :
    h.SameGraph h'' :=
  fun i => (first i).trans (second i)

theorem size (same : h.SameGraph h') : h.slots.size = h'.slots.size := by
  -- the first slot past the shorter array would be empty in one heap only
  apply Nat.le_antisymm <;> apply Nat.le_of_not_lt <;> intro more
  · have past := same h'.slots.size
    simp [Array.getElem?_eq_getElem more] at past
  · have past := same h.slots.size
    simp [Array.getElem?_eq_getElem more] at past

theorem valid_iff (same : h.SameGraph h') : h.Valid id ↔ h'.Valid id := by
  rw [valid_iff_graph, valid_iff_graph, same]

theorem closed (same : h.SameGraph h') (closed : h.Closed) : h'.Closed := by
  intro i g o found r member
  obtain ⟨o₀, found₀, refs⟩ := slot_of_graph (h := h)
    (by rw [same i, found]; rfl : h.slots[i]?.map Slot.graph = some (g, some o.references))
  rw [← same.valid_iff]
  exact closed i g o₀ found₀ r (refs ▸ member)

theorem marking (same : h.SameGraph h') {work : List ObjectId} (inv : h.Marking marks work) :
    h'.Marking marks work := by
  refine ⟨same.size ▸ inv.size, fun i g o found marked r member => ?_,
    fun w queued => same.valid_iff.mp (inv.queued w queued)⟩
  obtain ⟨o₀, found₀, refs⟩ := slot_of_graph (h := h)
    (by rw [same i, found]; rfl : h.slots[i]?.map Slot.graph = some (g, some o.references))
  exact inv.covered i g o₀ found₀ marked r (refs ▸ member)

/-- Marking reads only references, so it marks heaps with one graph alike. -/
theorem markRound_eq (same : h.SameGraph h') (rest : List ObjectId) :
    h.markRound marks id rest = h'.markRound marks id rest := by
  have objects : (h.slots[id.index]?.bind (·.object)).map (·.references) =
      (h'.slots[id.index]?.bind (·.object)).map (·.references) := by
    have seen := same id.index
    rcases hs : h.slots[id.index]? with _ | ⟨g, _ | o⟩ <;>
      rcases hs' : h'.slots[id.index]? with _ | ⟨g', _ | o'⟩ <;>
      simp_all [Slot.graph]
  unfold markRound
  rcases hm : marks[id.index]? with _ | _ | _ <;>
    rcases hs : h.slots[id.index]?.bind (·.object) with _ | o <;>
    rcases hs' : h'.slots[id.index]?.bind (·.object) with _ | o' <;>
    simp_all

theorem markFrom_eq (same : h.SameGraph h') : h.markFrom = h'.markFrom := by
  funext fuel
  induction fuel with
  | zero => funext marks work; rfl
  | succ fuel ih =>
    funext marks work
    rcases work with _ | ⟨w, rest⟩
    · rfl
    · rw [markFrom_cons, markFrom_cons, same.markRound_eq, ih]

theorem refsAt_eq (same : h.SameGraph h') (i : Nat) : h.refsAt i = h'.refsAt i := by
  have seen := same i
  unfold refsAt
  rcases hs : h.slots[i]? with _ | ⟨g, _ | o⟩ <;>
    rcases hs' : h'.slots[i]? with _ | ⟨g', _ | o'⟩ <;>
    simp_all [Slot.graph]

theorem markAll_eq (same : h.SameGraph h') : h.markAll = h'.markAll := by
  funext marks ids
  have count : h.referenceCount = h'.referenceCount := by
    rw [referenceCount_eq, referenceCount_eq, same.size]
    exact Finset.sum_congr rfl fun i _ => same.refsAt_eq i
  rw [markAll, markAll, count, same.markFrom_eq]

end SameGraph

/-! ### Rescue -/

/-- A slot after the rescue phase: an unmarked object with a finalizer not yet queued is
flagged as queued. -/
def rescueSlot (marks : Array Bool) (i : Nat) (s : Slot) : Slot :=
  match marks[i]?, s with
  | some false, ⟨gen, some o⟩ =>
    if o.finalizer.isSome && !o.finalized then ⟨gen, some { o with finalized := true }⟩ else s
  | _, _ => s

/-- The id the rescue phase queues for a slot, if any. -/
def rescuedAt (marks : Array Bool) (i : Nat) (s : Slot) : Option ObjectId :=
  match marks[i]?, s with
  | some false, ⟨gen, some o⟩ => if o.finalizer.isSome && !o.finalized then some ⟨i, gen⟩ else none
  | _, _ => none

/-- One slot of the rescue phase, as `rescue` runs it. -/
def rescueStep (marks : Array Bool) (st : Heap × List ObjectId) (i : Nat) : Heap × List ObjectId :=
  match marks[i]?, st.1.slots[i]? with
  | some false, some ⟨gen, some o⟩ =>
    if o.finalizer.isSome && !o.finalized then
      let slots := st.1.slots.setIfInBounds i ⟨gen, some { o with finalized := true }⟩
      ({ st.1 with slots }, st.2 ++ [⟨i, gen⟩])
    else st
  | _, _ => st

theorem rescue_eq : h.rescue marks = (List.range h.slots.size).foldl (rescueStep marks) (h, []) :=
  rfl

theorem rescueStep_eq (st : Heap × List ObjectId) (i : Nat) (s : Slot)
    (slot : st.1.slots[i]? = some s) :
    rescueStep marks st i =
      ({ st.1 with slots := st.1.slots.setIfInBounds i (rescueSlot marks i s) },
        st.2 ++ (rescuedAt marks i s).toList) := by
  have keep := setIfInBounds_self slot
  rcases s with ⟨gen, _ | o⟩
  · rcases hm : marks[i]? with _ | _ | _ <;> simp [rescueStep, rescueSlot, rescuedAt, hm, slot, keep]
  · rcases hm : marks[i]? with _ | _ | _
    · simp [rescueStep, rescueSlot, rescuedAt, hm, slot, keep]
    · by_cases due : (o.finalizer.isSome && !o.finalized) = true
      · simp only [rescueStep, rescueSlot, rescuedAt, hm, slot, due, if_true, Option.toList_some]
      · simp only [rescueStep, rescueSlot, rescuedAt, hm, slot, due, if_false, keep,
          Option.toList_none, List.append_nil, Bool.false_eq_true]
    · simp [rescueStep, rescueSlot, rescuedAt, hm, slot, keep]

/-- What the rescue phase has done after its first `n` slots. -/
structure RescuedUpTo (h : Heap) (marks : Array Bool) (n : Nat) (st : Heap × List ObjectId) :
    Prop where
  rest : st.1 = { h with slots := st.1.slots }
  slots : ∀ i, st.1.slots[i]? = if i < n then h.slots[i]?.map (rescueSlot marks i) else h.slots[i]?
  rescued : st.2 = (List.range n).filterMap fun i => h.slots[i]?.bind (rescuedAt marks i)

theorem rescuedUpTo_step {n : Nat} {st : Heap × List ObjectId} (done : RescuedUpTo h marks n st) :
    RescuedUpTo h marks (n + 1) (rescueStep marks st n) := by
  have current : st.1.slots[n]? = h.slots[n]? := by simp [done.slots]
  rcases found : h.slots[n]? with _ | s
  · have unchanged : rescueStep marks st n = st := by
      rcases hm : marks[n]? with _ | _ | _ <;> simp [rescueStep, hm, current, found]
    rw [unchanged]
    refine ⟨done.rest, fun i => ?_, ?_⟩
    · rw [done.slots]
      by_cases index : i = n
      · subst index
        simp [found]
      · by_cases below : i < n
        · simp [below, show i < n + 1 by omega]
        · simp [below, show ¬i < n + 1 by omega]
    · simp [done.rescued, List.range_succ, found]
  · rw [rescueStep_eq st n s (current.trans found)]
    refine ⟨?_, fun i => ?_, ?_⟩
    · rw [done.rest]
    · rw [Array.getElem?_setIfInBounds]
      by_cases index : n = i
      · subst index
        have inBounds : n < st.1.slots.size := (Array.getElem?_eq_some_iff.mp (current.trans found)).1
        simp [inBounds, found]
      · rw [if_neg index, done.slots]
        by_cases below : i < n
        · simp [below, show i < n + 1 by omega]
        · simp [below, show ¬i < n + 1 by omega]
    · rcases queued : rescuedAt marks n s with _ | r <;>
        simp [done.rescued, List.range_succ, found, queued]

theorem rescuedUpTo_range (n : Nat) :
    RescuedUpTo h marks n ((List.range n).foldl (rescueStep marks) (h, [])) := by
  induction n with
  | zero => exact ⟨rfl, by simp, rfl⟩
  | succ n ih =>
    rw [List.range_succ, List.foldl_append, List.foldl_cons, List.foldl_nil]
    exact rescuedUpTo_step ih

theorem rescue_heap : (h.rescue marks).1 = { h with slots := (h.rescue marks).1.slots } :=
  (rescuedUpTo_range h.slots.size).rest

theorem slots_rescue (i : Nat) :
    (h.rescue marks).1.slots[i]? = h.slots[i]?.map (rescueSlot marks i) := by
  rw [rescue_eq, (rescuedUpTo_range h.slots.size).slots]
  split
  · rfl
  · rename_i outside
    simp [Array.getElem?_eq_none (Nat.le_of_not_lt outside)]

theorem rescued_eq : (h.rescue marks).2 =
    (List.range h.slots.size).filterMap fun i => h.slots[i]?.bind (rescuedAt marks i) :=
  (rescuedUpTo_range h.slots.size).rescued

theorem graph_rescueSlot (i : Nat) (s : Slot) : (rescueSlot marks i s).graph = s.graph := by
  unfold rescueSlot
  split
  · split <;> rfl
  · rfl

/-- Clearing forgets whatever rescue flagged. -/
theorem clear_rescueSlot (i : Nat) (s : Slot) : (rescueSlot marks i s).clear = s.clear := by
  unfold rescueSlot
  split
  · split <;> rfl
  · rfl

/-- Rescue changes no object's kind, so no proxy's handle. -/
theorem handle_rescueSlot (i : Nat) (s : Slot) :
    (rescueSlot marks i s).object.bind (·.hostHandle?) = s.object.bind (·.hostHandle?) := by
  unfold rescueSlot
  split
  · split <;> rfl
  · rfl

theorem sameGraph_rescue : h.SameGraph (h.rescue marks).1 := by
  intro i
  rw [slots_rescue, Option.map_map]
  congr 1
  funext s
  exact (graph_rescueSlot i s).symm

theorem wellFormed_rescue (wf : h.WellFormed) : (h.rescue marks).1.WellFormed := by
  have vacant : (h.rescue marks).1.vacant = h.vacant := by rw [rescue_heap]
  constructor
  · rw [vacant]
    exact wf.nodup
  · intro i member
    rw [vacant] at member
    obtain ⟨g, empty⟩ := wf.empty i member
    refine ⟨g, ?_⟩
    rw [slots_rescue, empty]
    rcases hm : marks[i]? with _ | _ | _ <;> simp [rescueSlot, hm]

/-! ### Sweep -/

/-- One slot of the sweep, as `sweepUnmarked` runs it. -/
def sweepStep (marks : Array Bool) (st : Heap × Nat × List Nat) (i : Nat) :
    Heap × Nat × List Nat :=
  if marks[i]? == some true then st
  else
    match st.1.freeSlot i with
    | (some o, h') => (h', st.2.1 + 1, st.2.2 ++ o.hostHandle?.toList)
    | (none, h') => (h', st.2.1, st.2.2)

theorem sweepUnmarked_eq :
    h.sweepUnmarked marks = (List.range h.slots.size).foldl (sweepStep marks) (h, 0, []) :=
  rfl

/-- Whether the sweep frees slot `i`: it is unmarked and holds an object. -/
def freedAt (h : Heap) (marks : Array Bool) (i : Nat) : Bool :=
  marks[i]? != some true && (h.slots[i]?.bind (·.object)).isSome

/-- The handle the sweep reports for slot `i`: that of an unmarked proxy. -/
def releasedAt (h : Heap) (marks : Array Bool) (i : Nat) : Option Nat :=
  if marks[i]? = some true then none else (h.slots[i]?.bind (·.object)).bind (·.hostHandle?)

/-- What the sweep has done after its first `n` slots. -/
structure SweptUpTo (h : Heap) (marks : Array Bool) (n : Nat) (st : Heap × Nat × List Nat) :
    Prop where
  slots : ∀ i, st.1.slots[i]? =
    if i < n ∧ marks[i]? ≠ some true then h.slots[i]?.map Slot.clear else h.slots[i]?
  vacant : st.1.vacant = ((List.range n).filter (h.freedAt marks)).reverse ++ h.vacant
  freed : st.2.1 = ((List.range n).filter (h.freedAt marks)).length
  released : st.2.2 = (List.range n).filterMap (h.releasedAt marks)

/-- Past the first `n` slots, slot `n` is the only one whose treatment the next step decides. -/
theorem below_succ_iff {i n : Nat} (index : i ≠ n) : i < n + 1 ↔ i < n := by omega

theorem freeSlot_of_object {i g : Nat} {o : HeapObject} (found : h.slots[i]? = some ⟨g, some o⟩) :
    h.freeSlot i = (some o, { h with
      slots := h.slots.setIfInBounds i ⟨nextGeneration g, none⟩, vacant := i :: h.vacant,
      live := h.live - 1 }) := by
  simp [freeSlot, found]

theorem freeSlot_of_empty {i : Nat} (empty : h.slots[i]?.bind (·.object) = none) :
    h.freeSlot i = (none, h) := by
  unfold freeSlot
  rcases found : h.slots[i]? with _ | ⟨g, _ | o⟩ <;> simp_all

theorem sweptUpTo_step {n : Nat} {st : Heap × Nat × List Nat} (done : SweptUpTo h marks n st) :
    SweptUpTo h marks (n + 1) (sweepStep marks st n) := by
  have current : st.1.slots[n]? = h.slots[n]? := by simp [done.slots]
  have others : ∀ i, i ≠ n → st.1.slots[i]? =
      if i < n + 1 ∧ marks[i]? ≠ some true then h.slots[i]?.map Slot.clear else h.slots[i]? := by
    intro i index
    simp only [done.slots, below_succ_iff index]
  by_cases freeing : h.freedAt marks n = true
  -- an unmarked object is freed
  · obtain ⟨unmarked, g, o, found⟩ : marks[n]? ≠ some true ∧
        ∃ g o, h.slots[n]? = some ⟨g, some o⟩ := by
      simp only [freedAt, Bool.and_eq_true, bne_iff_ne, ne_eq, Option.isSome_iff_exists,
        Option.bind_eq_some_iff] at freeing
      obtain ⟨unmarked, o, ⟨g, object⟩, found, rfl⟩ := freeing
      exact ⟨unmarked, g, o, found⟩
    have step : sweepStep marks st n =
        ({ st.1 with
            slots := st.1.slots.setIfInBounds n ⟨nextGeneration g, none⟩, vacant := n :: st.1.vacant
            live := st.1.live - 1 },
          st.2.1 + 1, st.2.2 ++ o.hostHandle?.toList) := by
      rw [sweepStep, if_neg (by simpa using unmarked), freeSlot_of_object (current.trans found)]
    have inBounds : n < st.1.slots.size := (Array.getElem?_eq_some_iff.mp (current.trans found)).1
    rw [step]
    refine ⟨fun i => ?_, ?_, ?_, ?_⟩
    · by_cases index : i = n
      · subst index
        simp [inBounds, found, unmarked, Slot.clear]
      · simp [Ne.symm index, others i index]
    · simp [done.vacant, List.range_succ, freeing]
    · simp [done.freed, List.range_succ, freeing]
    · rcases handle : o.hostHandle? with _ | k <;>
        simp [done.released, List.range_succ, releasedAt, unmarked, found, handle]
  -- a marked slot, an empty one or one past the end is passed over
  · have unchanged : sweepStep marks st n = st := by
      unfold sweepStep
      split
      · rfl
      · rename_i unmarked
        have empty : h.slots[n]?.bind (·.object) = none := by
          simpa [freedAt, show marks[n]? ≠ some true by simpa using unmarked] using freeing
        rw [freeSlot_of_empty (current ▸ empty)]
    have nothing : h.releasedAt marks n = none := by
      by_cases marked : marks[n]? = some true
      · simp [releasedAt, marked]
      · have empty : h.slots[n]?.bind (·.object) = none := by simpa [freedAt, marked] using freeing
        simp [releasedAt, marked, empty]
    rw [unchanged]
    refine ⟨fun i => ?_, ?_, ?_, ?_⟩
    · by_cases index : i = n
      · subst index
        rw [current]
        by_cases marked : marks[i]? = some true
        · simp [marked]
        · have empty : h.slots[i]?.bind (·.object) = none := by
            simpa [freedAt, marked] using freeing
          rcases found : h.slots[i]? with _ | ⟨g, _ | o⟩ <;> simp_all [Slot.clear]
      · exact others i index
    · simp [done.vacant, List.range_succ, freeing]
    · simp [done.freed, List.range_succ, freeing]
    · simp [done.released, List.range_succ, nothing]

theorem sweptUpTo_range (n : Nat) :
    SweptUpTo h marks n ((List.range n).foldl (sweepStep marks) (h, 0, [])) := by
  induction n with
  | zero => exact ⟨by simp, by simp, rfl, rfl⟩
  | succ n ih =>
    rw [List.range_succ, List.foldl_append, List.foldl_cons, List.foldl_nil]
    exact sweptUpTo_step ih

theorem slots_sweep (i : Nat) : (h.sweepUnmarked marks).1.slots[i]? =
    if marks[i]? = some true then h.slots[i]? else h.slots[i]?.map Slot.clear := by
  rw [sweepUnmarked_eq, (sweptUpTo_range h.slots.size).slots]
  by_cases inBounds : i < h.slots.size
  · by_cases marked : marks[i]? = some true <;> simp [inBounds, marked]
  · simp [inBounds]

theorem vacant_sweep : (h.sweepUnmarked marks).1.vacant =
    ((List.range h.slots.size).filter (h.freedAt marks)).reverse ++ h.vacant :=
  (sweptUpTo_range h.slots.size).vacant

theorem freed_sweep :
    (h.sweepUnmarked marks).2.1 = ((List.range h.slots.size).filter (h.freedAt marks)).length :=
  (sweptUpTo_range h.slots.size).freed

theorem released_sweep :
    (h.sweepUnmarked marks).2.2 = (List.range h.slots.size).filterMap (h.releasedAt marks) :=
  (sweptUpTo_range h.slots.size).released

theorem get?_sweep : (h.sweepUnmarked marks).1.get? id =
    if marks[id.index]? = some true then h.get? id else none := by
  unfold get?
  rw [slots_sweep]
  by_cases marked : marks[id.index]? = some true
  · simp [marked]
  · rcases h.slots[id.index]? with _ | ⟨g, _ | o⟩ <;> simp [marked, Slot.clear]

theorem valid_sweep_iff :
    (h.sweepUnmarked marks).1.Valid id ↔ h.Valid id ∧ marks[id.index]? = some true := by
  unfold Valid
  rw [get?_sweep]
  by_cases marked : marks[id.index]? = some true <;> simp [marked]

theorem wellFormed_sweep (wf : h.WellFormed) : (h.sweepUnmarked marks).1.WellFormed := by
  have held : ∀ i ∈ (List.range h.slots.size).filter (h.freedAt marks),
      marks[i]? ≠ some true ∧ ∃ g o, h.slots[i]? = some ⟨g, some o⟩ := by
    intro i member
    simp only [List.mem_filter, freedAt, Bool.and_eq_true, bne_iff_ne, ne_eq,
      Option.isSome_iff_exists, Option.bind_eq_some_iff] at member
    obtain ⟨-, unmarked, o, ⟨g, object⟩, found, rfl⟩ := member
    exact ⟨unmarked, g, o, found⟩
  constructor
  · rw [vacant_sweep, List.nodup_append]
    refine ⟨List.nodup_reverse.mpr (List.nodup_range.filter _), wf.nodup, ?_⟩
    -- a freed slot held an object, a slot already free did not
    intro i freed j old same
    subst same
    obtain ⟨-, g, o, found⟩ := held i (List.mem_reverse.mp freed)
    obtain ⟨g', empty⟩ := wf.empty i old
    rw [found] at empty
    simp at empty
  · intro i member
    rw [vacant_sweep, List.mem_append, List.mem_reverse] at member
    rw [slots_sweep]
    rcases member with freed | old
    · obtain ⟨unmarked, g, o, found⟩ := held i freed
      exact ⟨nextGeneration g, by simp [unmarked, found, Slot.clear]⟩
    · obtain ⟨g, empty⟩ := wf.empty i old
      exact ⟨g, by split <;> simp [empty, Slot.clear]⟩

/-- Sweeping by a finished marking leaves every reference of a survivor live. -/
theorem closed_sweep (closed : h.Closed) (done : h.Marking marks []) :
    (h.sweepUnmarked marks).1.Closed := by
  intro i g o found r member
  rw [slots_sweep] at found
  by_cases marked : marks[i]? = some true
  · rw [if_pos marked] at found
    have target : marks[r.index]? = some true := by
      simpa using done.covered i g o found marked r member
    exact valid_sweep_iff.mpr ⟨closed i g o found r member, target⟩
  · rw [if_neg marked] at found
    rcases old : h.slots[i]? with _ | ⟨g', _ | o'⟩ <;> simp [old, Slot.clear] at found

/-! ### A whole collection -/

/-- The marks of what the roots reach, the first marking of a collection. -/
def rootMarks (h : Heap) (roots : List ObjectId) : Array Bool :=
  h.markAll (Array.replicate h.slots.size false) roots

/-- The marks the sweep of a collection goes by: what the roots reach and, when the rescue
phase queued objects, what those reach as well. -/
def collectMarks (h : Heap) (roots : List ObjectId) : Array Bool :=
  if (h.rescue (h.rootMarks roots)).2.isEmpty then h.rootMarks roots
  else h.markAll (h.rootMarks roots) (h.rescue (h.rootMarks roots)).2

variable {roots : List ObjectId}

/-- A collection is the rescue of the unmarked objects of the counted heap and the sweep by
`collectMarks`; marking reads only the graph, which counting and rescue leave alone. -/
theorem collect_eq (h : Heap) (roots : List ObjectId) : h.collect roots =
    let swept := ({ h with collections := h.collections + 1 }.rescue (h.rootMarks roots)).1
      |>.sweepUnmarked (h.collectMarks roots)
    (swept.1, { freed := swept.2.1, released := swept.2.2
                toFinalize := (h.rescue (h.rootMarks roots)).2 }) := by
  have same : h.SameGraph { h with collections := h.collections + 1 } := fun _ => rfl
  have first : ({ h with collections := h.collections + 1 } : Heap).markAll = h.markAll :=
    same.markAll_eq.symm
  have rescued : ({ h with collections := h.collections + 1 }.rescue (h.rootMarks roots)).2 =
      (h.rescue (h.rootMarks roots)).2 := by
    rw [rescued_eq, rescued_eq]
  have second : ({ h with collections := h.collections + 1 }.rescue (h.rootMarks roots)).1.markAll =
      h.markAll :=
    (same.trans sameGraph_rescue).markAll_eq.symm
  unfold collect
  simp only [first]
  simp only [rootMarks.eq_def] at rescued second
  simp only [rescued, second, collectMarks, rootMarks]
  rfl

/-- The heap a collection rescues in and then sweeps has the graph of the heap it started from. -/
theorem sameGraph_counted_rescue (marks : Array Bool) :
    h.SameGraph ({ h with collections := h.collections + 1 }.rescue marks).1 :=
  (show h.SameGraph { h with collections := h.collections + 1 } from fun _ => rfl).trans
    sameGraph_rescue

theorem marking_start (live : ∀ r ∈ roots, h.Valid r) :
    h.Marking (Array.replicate h.slots.size false) roots :=
  ⟨by simp, fun i _ _ _ marked => by simp [Array.getElem?_replicate] at marked, live⟩

theorem Marking.marked_of_reach (done : h.Marking marks [])
    (rooted : ∀ r ∈ roots, marks[r.index]? = some true) (reach : h.Reach roots id) :
    marks[id.index]? = some true := by
  induction reach with
  | root member => exact rooted _ member
  | step _ found member ih =>
    simpa using done.covered _ _ _ (get?_eq_some.mp found) ih _ member

theorem valid_of_rescued {w : ObjectId} (member : w ∈ (h.rescue marks).2) : h.Valid w := by
  rw [rescued_eq, List.mem_filterMap] at member
  obtain ⟨i, -, found⟩ := member
  rcases slot : h.slots[i]? with _ | ⟨g, _ | o⟩
  · simp [slot] at found
  · rcases hm : marks[i]? with _ | _ | _ <;> simp [slot, rescuedAt, hm] at found
  · rcases hm : marks[i]? with _ | _ | _ <;> simp [slot, rescuedAt, hm] at found
    obtain ⟨-, rfl⟩ := found
    exact valid_iff.mpr ⟨o, slot⟩

theorem rootMarks_done (closed : h.Closed) (live : ∀ r ∈ roots, h.Valid r) :
    h.Marking (h.rootMarks roots) [] ∧ ∀ r ∈ roots, (h.rootMarks roots)[r.index]? = some true :=
  let done := markAll_complete closed roots (marking_start live)
  ⟨done.1, done.2.2⟩

/-- The sweep's marks are a finished marking that covers the roots and the rescued objects. -/
theorem collectMarks_done (closed : h.Closed) (live : ∀ r ∈ roots, h.Valid r) :
    h.Marking (h.collectMarks roots) [] ∧
      (∀ i : Nat, (h.rootMarks roots)[i]? = some true → (h.collectMarks roots)[i]? = some true) ∧
      ∀ w ∈ (h.rescue (h.rootMarks roots)).2, (h.collectMarks roots)[w.index]? = some true := by
  obtain ⟨first, rooted⟩ := rootMarks_done closed live
  unfold collectMarks
  split
  · rename_i none
    refine ⟨first, fun _ marked => marked, fun w member => ?_⟩
    simp only [List.isEmpty_iff] at none
    simp [none] at member
  · have queued : h.Marking (h.rootMarks roots) (h.rescue (h.rootMarks roots)).2 :=
      ⟨first.size, fun i g o found marked r member =>
        Or.inl (by simpa using first.covered i g o found marked r member),
        fun w member => valid_of_rescued member⟩
    exact markAll_complete closed _ queued

theorem slots_collect (i : Nat) : (h.collect roots).1.slots[i]? =
    if (h.collectMarks roots)[i]? = some true then h.slots[i]?.map (rescueSlot (h.rootMarks roots) i)
    else h.slots[i]?.map Slot.clear := by
  rw [collect_eq]
  simp only [slots_sweep, slots_rescue]
  split
  · rfl
  · rcases h.slots[i]? with _ | s
    · rfl
    · simp [clear_rescueSlot]

theorem valid_collect_iff : (h.collect roots).1.Valid id ↔
    h.Valid id ∧ (h.collectMarks roots)[id.index]? = some true := by
  rw [collect_eq]
  simp only [valid_sweep_iff, ← (sameGraph_counted_rescue _).valid_iff]

theorem wellFormed_collect (wf : h.WellFormed) : (h.collect roots).1.WellFormed := by
  rw [collect_eq]
  -- counting collections leaves the free list and the slots as they were
  exact wellFormed_sweep (wellFormed_rescue ⟨wf.nodup, wf.empty⟩)

/-- After a collection every reference of a surviving object is live. -/
theorem closed_collect (closed : h.Closed) (live : ∀ r ∈ roots, h.Valid r) :
    (h.collect roots).1.Closed := by
  have same := sameGraph_counted_rescue (h := h) (h.rootMarks roots)
  rw [collect_eq]
  exact closed_sweep (same.closed closed) (same.marking (collectMarks_done closed live).1)

/-- Whatever the roots reach survives a collection. -/
theorem valid_collect_of_reach (closed : h.Closed) (live : ∀ r ∈ roots, h.Valid r)
    (reach : h.Reach roots id) : (h.collect roots).1.Valid id := by
  obtain ⟨first, rooted⟩ := rootMarks_done closed live
  obtain ⟨-, kept, -⟩ := collectMarks_done closed live
  exact valid_collect_iff.mpr
    ⟨reach.valid closed live, kept _ (first.marked_of_reach rooted reach)⟩

/-- The objects a collection queues for finalization survive it. -/
theorem valid_toFinalize (closed : h.Closed) (live : ∀ r ∈ roots, h.Valid r) :
    ∀ w ∈ (h.collect roots).2.toFinalize, (h.collect roots).1.Valid w := by
  intro w member
  rw [collect_eq] at member
  obtain ⟨-, -, rescued⟩ := collectMarks_done closed live
  exact valid_collect_iff.mpr ⟨valid_of_rescued member, rescued w member⟩

theorem released_collect : (h.collect roots).2.released =
    (List.range h.slots.size).filterMap (h.releasedAt (h.collectMarks roots)) := by
  rw [collect_eq]
  simp only [released_sweep]
  have size : ({ h with collections := h.collections + 1 }.rescue (h.rootMarks roots)).1.slots.size =
      h.slots.size := (sameGraph_counted_rescue _).size.symm
  rw [size]
  congr 1
  funext i
  simp only [releasedAt, slots_rescue]
  split
  · rfl
  · rcases h.slots[i]? with _ | s
    · rfl
    · simpa using handle_rescueSlot i s

end Heap

end EmbedScript
