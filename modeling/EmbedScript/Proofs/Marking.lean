import Mathlib.Algebra.Order.BigOperators.Group.Finset
import EmbedScript.Proofs.HeapSlots

/-!
Marking. The worklist marker follows references by slot index; on a heap whose references all
name live objects it marks exactly the slots of what the roots reach, and the fuel `markAll`
gives it, one round for every id and every reference, always lets the worklist run empty.
-/

namespace EmbedScript

namespace Heap

/-- What the references of live objects reach from the given ids. -/
inductive Reach (h : Heap) (roots : List ObjectId) : ObjectId → Prop
  | root {id : ObjectId} : id ∈ roots → Reach h roots id
  | step {id r : ObjectId} {o : HeapObject} : Reach h roots id → h.get? id = some o →
      r ∈ o.references → Reach h roots r

variable {h : Heap} {marks : Array Bool} {work : List ObjectId}

/-- One round of marking: the head of the worklist, if its slot is unmarked and holds an object,
is marked and its references are queued in front of the rest. -/
def markRound (h : Heap) (marks : Array Bool) (id : ObjectId) (rest : List ObjectId) :
    Array Bool × List ObjectId :=
  match marks[id.index]?, h.slots[id.index]?.bind (·.object) with
  | some false, some o => (marks.setIfInBounds id.index true, o.references ++ rest)
  | _, _ => (marks, rest)

theorem markFrom_cons (fuel : Nat) (marks : Array Bool) (id : ObjectId) (rest : List ObjectId) :
    h.markFrom (fuel + 1) marks (id :: rest) =
      h.markFrom fuel (h.markRound marks id rest).1 (h.markRound marks id rest).2 := by
  rw [markFrom]
  unfold markRound
  rcases marks[id.index]? with _ | _ | _ <;> rcases h.slots[id.index]?.bind (·.object) with _ | o <;>
    rfl

/-- The number of references of the object in a slot; none for an empty slot. -/
def refsAt (h : Heap) (i : Nat) : Nat :=
  (h.slots[i]?.map fun s => (s.object.map (·.references.length)).getD 0).getD 0

/-- What marking still has to visit: its worklist and the references of the unmarked objects. -/
def debt (h : Heap) (marks : Array Bool) (work : List ObjectId) : Nat :=
  work.length + ∑ i ∈ Finset.range h.slots.size, if marks[i]? = some false then h.refsAt i else 0

/-- What marking keeps: the marks cover the slots, each marked object has every reference marked
or still queued, and the queued ids are live. -/
structure Marking (h : Heap) (marks : Array Bool) (work : List ObjectId) : Prop where
  size : marks.size = h.slots.size
  covered : ∀ (i g : Nat) (o : HeapObject), h.slots[i]? = some ⟨g, some o⟩ →
    marks[i]? = some true → ∀ r ∈ o.references, marks[r.index]? = some true ∨ r ∈ work
  queued : ∀ w ∈ work, h.Valid w

theorem marks_valid (size : marks.size = h.slots.size) {w : ObjectId} (live : h.Valid w) :
    ∃ b, marks[w.index]? = some b := by
  have inBounds : w.index < marks.size := size ▸ live.index_lt
  exact ⟨marks[w.index], Array.getElem?_eq_getElem inBounds⟩

/-- A live id whose slot is unmarked is marked by its round, which queues its references. -/
theorem markRound_unmarked {w : ObjectId} (rest : List ObjectId) (live : h.Valid w)
    (unmarked : marks[w.index]? = some false) :
    ∃ o, h.get? w = some o ∧
      h.markRound marks w rest = (marks.setIfInBounds w.index true, o.references ++ rest) := by
  obtain ⟨o, found⟩ := live
  have slot := get?_eq_some.mp found
  exact ⟨o, found, by simp [markRound, unmarked, slot]⟩

theorem markRound_marked {w : ObjectId} {rest : List ObjectId}
    (marked : marks[w.index]? = some true) : h.markRound marks w rest = (marks, rest) := by
  simp [markRound, marked]

theorem marking_round (closed : h.Closed) {w : ObjectId} {rest : List ObjectId}
    (inv : h.Marking marks (w :: rest)) :
    h.Marking (h.markRound marks w rest).1 (h.markRound marks w rest).2 := by
  have live := inv.queued w (by simp)
  obtain ⟨b, hb⟩ := marks_valid inv.size live
  cases b with
  | true =>
    rw [markRound_marked hb]
    refine ⟨inv.size, fun i g o slot marked r member => ?_, fun v member => inv.queued v (by simp [member])⟩
    rcases inv.covered i g o slot marked r member with done | queued
    · exact Or.inl done
    · rcases List.mem_cons.mp queued with rfl | later
      · exact Or.inl hb
      · exact Or.inr later
  | false =>
    obtain ⟨o, found, round⟩ := markRound_unmarked rest live hb
    rw [round]
    have slot := get?_eq_some.mp found
    refine ⟨by simp [inv.size], fun i g o' slot' marked r member => ?_, fun v member => ?_⟩
    · by_cases index : i = w.index
      · subst index
        rw [slot] at slot'
        simp only [Option.some.injEq, Slot.mk.injEq] at slot'
        obtain ⟨-, rfl⟩ := slot'
        exact Or.inr (List.mem_append_left _ member)
      · rw [Array.getElem?_setIfInBounds_ne (Ne.symm index)] at marked
        rcases inv.covered i g o' slot' marked r member with done | queued
        · left
          by_cases same : w.index = r.index
          · rw [← same]
            simp [inv.size, live.index_lt]
          · rw [Array.getElem?_setIfInBounds_ne same]
            exact done
        · rcases List.mem_cons.mp queued with rfl | later
          · left
            simp [inv.size, live.index_lt]
          · exact Or.inr (List.mem_append_right _ later)
    · rcases List.mem_append.mp member with reference | later
      · exact closed _ _ _ slot v reference
      · exact inv.queued v (by simp [later])

theorem marked_round {w : ObjectId} {rest : List ObjectId} {i : Nat}
    (marked : marks[i]? = some true) : (h.markRound marks w rest).1[i]? = some true := by
  unfold markRound
  split
  · by_cases index : w.index = i
    · subst index
      simp_all
    · rw [Array.getElem?_setIfInBounds_ne index]
      exact marked
  · exact marked

theorem round_marks_head {w : ObjectId} {rest : List ObjectId} (inv : h.Marking marks (w :: rest)) :
    (h.markRound marks w rest).1[w.index]? = some true := by
  have live := inv.queued w (by simp)
  obtain ⟨b, hb⟩ := marks_valid inv.size live
  cases b with
  | true => exact marked_round hb
  | false =>
    obtain ⟨o, -, round⟩ := markRound_unmarked rest live hb
    rw [round]
    simp [inv.size, live.index_lt]

theorem mem_round_of_mem {w v : ObjectId} {rest : List ObjectId} (member : v ∈ rest) :
    v ∈ (h.markRound marks w rest).2 := by
  unfold markRound
  split
  · exact List.mem_append_right _ member
  · exact member

theorem refsAt_of_get? {w : ObjectId} {o : HeapObject} (found : h.get? w = some o) :
    h.refsAt w.index = o.references.length := by
  simp [refsAt, get?_eq_some.mp found]

/-- Each round pays off one unit of the debt. -/
theorem debt_round (inv : h.Marking marks (w :: rest)) :
    h.debt (h.markRound marks w rest).1 (h.markRound marks w rest).2 + 1 =
      h.debt marks (w :: rest) := by
  have live := inv.queued w (by simp)
  obtain ⟨b, hb⟩ := marks_valid inv.size live
  cases b with
  | true =>
    rw [markRound_marked hb]
    simp only [debt, List.length_cons]
    omega
  | false =>
    obtain ⟨o, found, round⟩ := markRound_unmarked rest live hb
    rw [round]
    have inRange : w.index ∈ Finset.range h.slots.size := Finset.mem_range.mpr live.index_lt
    have after := (Finset.add_sum_erase (Finset.range h.slots.size)
      (fun i => if (marks.setIfInBounds w.index true)[i]? = some false then h.refsAt i else 0)
      inRange).symm
    have before := (Finset.add_sum_erase (Finset.range h.slots.size)
      (fun i => if marks[i]? = some false then h.refsAt i else 0) inRange).symm
    have rest_same : ∑ i ∈ (Finset.range h.slots.size).erase w.index,
        (if (marks.setIfInBounds w.index true)[i]? = some false then h.refsAt i else 0) =
        ∑ i ∈ (Finset.range h.slots.size).erase w.index,
          (if marks[i]? = some false then h.refsAt i else 0) := by
      apply Finset.sum_congr rfl
      intro i member
      rw [Array.getElem?_setIfInBounds_ne (Finset.ne_of_mem_erase member).symm]
    simp only [debt, List.length_append, List.length_cons, after, before, rest_same,
      refsAt_of_get? found, hb, if_true]
    simp [inv.size, live.index_lt]
    omega

/-- With more fuel than debt the worklist runs empty: every marked object then has all its
references marked, everything queued is marked, and nothing marked is unmarked. -/
theorem markFrom_complete (closed : h.Closed) :
    ∀ (fuel : Nat) (marks : Array Bool) (work : List ObjectId), h.debt marks work < fuel →
      h.Marking marks work →
      h.Marking (h.markFrom fuel marks work) [] ∧
      (∀ i : Nat, marks[i]? = some true → (h.markFrom fuel marks work)[i]? = some true) ∧
      ∀ w ∈ work, (h.markFrom fuel marks work)[w.index]? = some true
  | 0, _, _, enough, _ => absurd enough (Nat.not_lt_zero _)
  | fuel + 1, marks, [], _, inv => by
    simp only [markFrom]
    exact ⟨inv, fun _ marked => marked, by simp⟩
  | fuel + 1, marks, w :: rest, enough, inv => by
    rw [markFrom_cons]
    have paid := debt_round inv
    obtain ⟨done, kept, queued⟩ := markFrom_complete closed fuel _ _ (by omega)
      (marking_round closed inv)
    refine ⟨done, fun i marked => kept i (marked_round marked), fun v member => ?_⟩
    rcases List.mem_cons.mp member with rfl | later
    · exact kept _ (round_marks_head inv)
    · exact queued v (mem_round_of_mem later)

/-- Marking only marks the slots of ids that the queued ids reach. -/
theorem markFrom_sound (closed : h.Closed) (roots : List ObjectId) :
    ∀ (fuel : Nat) (marks : Array Bool) (work : List ObjectId),
      (∀ w ∈ work, h.Valid w ∧ h.Reach roots w) → ∀ i : Nat,
      (h.markFrom fuel marks work)[i]? = some true →
        marks[i]? = some true ∨ ∃ id, id.index = i ∧ h.Reach roots id
  | 0, marks, _, _, i, marked => by
    simp only [markFrom] at marked
    exact Or.inl marked
  | fuel + 1, marks, [], _, i, marked => by
    simp only [markFrom] at marked
    exact Or.inl marked
  | fuel + 1, marks, w :: rest, traced, i, marked => by
    rw [markFrom_cons] at marked
    have head := traced w (by simp)
    have later : ∀ v ∈ (h.markRound marks w rest).2, h.Valid v ∧ h.Reach roots v := by
      intro v member
      unfold markRound at member
      split at member
      · rename_i o found
        rcases List.mem_append.mp member with reference | member
        · obtain ⟨o', found'⟩ := head.1
          have slot := get?_eq_some.mp found'
          simp only [slot, Option.bind_some, Option.some.injEq] at found
          subst found
          exact ⟨closed _ _ _ slot v reference, Reach.step head.2 found' reference⟩
        · exact traced v (by simp [member])
      · exact traced v (by simp [member])
    rcases markFrom_sound closed roots fuel _ _ later i marked with before | reached
    · unfold markRound at before
      split at before
      · by_cases index : w.index = i
        · exact Or.inr ⟨w, index, head.2⟩
        · rw [Array.getElem?_setIfInBounds_ne index] at before
          exact Or.inl before
      · exact Or.inl before
    · exact Or.inr reached

/-- The references of the whole heap, counted slot by slot. -/
theorem referenceCount_eq : h.referenceCount = ∑ i ∈ Finset.range h.slots.size, h.refsAt i := by
  let count := fun s : Slot => (s.object.map (·.references.length)).getD 0
  have fold : ∀ (l : List Slot) (k : Nat), l.foldl (fun n s => n + count s) k =
      k + ∑ i ∈ Finset.range l.length, (l[i]?.map count).getD 0 := by
    intro l
    induction l with
    | nil => simp
    | cons s rest ih =>
      intro k
      rw [List.foldl_cons, ih, List.length_cons, Finset.sum_range_succ']
      simp only [List.getElem?_cons_succ, List.getElem?_cons_zero, Option.map_some,
        Option.getD_some]
      omega
  unfold referenceCount refsAt
  rw [← Array.foldl_toList, fold, Array.length_toList]
  simp [count]

theorem debt_le (marks : Array Bool) (work : List ObjectId) :
    h.debt marks work ≤ work.length + h.referenceCount := by
  rw [debt, referenceCount_eq]
  have each : ∀ i ∈ Finset.range h.slots.size,
      (if marks[i]? = some false then h.refsAt i else 0) ≤ h.refsAt i := by
    intro i _
    split <;> omega
  have := Finset.sum_le_sum each
  omega

/-- `markAll` marks everything queued and leaves every marked object with all its references
marked, keeping what was marked. -/
theorem markAll_complete (closed : h.Closed) (ids : List ObjectId)
    (inv : h.Marking marks ids) :
    h.Marking (h.markAll marks ids) [] ∧
      (∀ i : Nat, marks[i]? = some true → (h.markAll marks ids)[i]? = some true) ∧
      ∀ w ∈ ids, (h.markAll marks ids)[w.index]? = some true :=
  markFrom_complete closed _ marks ids (by have := h.debt_le marks ids; omega) inv

theorem markAll_sound (closed : h.Closed) (roots ids : List ObjectId)
    (traced : ∀ w ∈ ids, h.Valid w ∧ h.Reach roots w) (i : Nat)
    (marked : (h.markAll marks ids)[i]? = some true) :
    marks[i]? = some true ∨ ∃ id, id.index = i ∧ h.Reach roots id :=
  markFrom_sound closed roots _ marks ids traced i marked

/-- On a heap whose roots and references are live, what the roots reach is live. -/
theorem Reach.valid (closed : h.Closed) {roots : List ObjectId} (live : ∀ r ∈ roots, h.Valid r)
    {id : ObjectId} (reach : h.Reach roots id) : h.Valid id := by
  induction reach with
  | root member => exact live _ member
  | step _ found member _ => exact closed _ _ _ (get?_eq_some.mp found) _ member

theorem Reach.mono {roots roots' : List ObjectId} (sub : ∀ r ∈ roots, r ∈ roots')
    {id : ObjectId} (reach : h.Reach roots id) : h.Reach roots' id := by
  induction reach with
  | root member => exact Reach.root (sub _ member)
  | step _ found member ih => exact Reach.step ih found member

end Heap

end EmbedScript
