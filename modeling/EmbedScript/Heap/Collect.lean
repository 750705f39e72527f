import EmbedScript.Heap.Basic

/-!
Mark-sweep collection. Marking follows references from the roots. Objects left unmarked that
have a finalizer not yet queued are rescued once: flagged as queued, returned for their
finalizers to run, and marked together with everything they reach. The sweep then frees every
unmarked slot in slot order and reports the handles of the host proxies among them.
-/

namespace EmbedScript

/-- What a collection did: how many objects it freed, the registry handles of the freed
proxies, and the rescued objects whose finalizers are due, both in slot order. -/
structure Sweep where
  freed : Nat := 0
  released : List Nat := []
  toFinalize : List ObjectId := []

namespace Heap

/-- The number of references all live objects hold: a bound on how often marking visits. -/
def referenceCount (h : Heap) : Nat :=
  h.slots.foldl (fun n s => n + ((s.object.map (·.references.length)).getD 0)) 0

/-- Marks what the worklist reaches. An id is followed by its slot index alone; ids of empty
or marked slots are passed over. -/
def markFrom (h : Heap) : Nat → Array Bool → List ObjectId → Array Bool
  | 0, marks, _ => marks
  | _ + 1, marks, [] => marks
  | fuel + 1, marks, id :: rest =>
    match marks[id.index]? with
    | some false =>
      match h.slots[id.index]?.bind (·.object) with
      | some o => markFrom h fuel (marks.setIfInBounds id.index true) (o.references ++ rest)
      | none => markFrom h fuel marks rest
    | _ => markFrom h fuel marks rest

/-- Marks from the given ids, with fuel for every id and every reference. -/
def markAll (h : Heap) (marks : Array Bool) (ids : List ObjectId) : Array Bool :=
  h.markFrom (ids.length + h.referenceCount + 1) marks ids

/-- Flags the unmarked objects with a finalizer not yet queued, in slot order. -/
def rescue (h : Heap) (marks : Array Bool) : Heap × List ObjectId :=
  (List.range h.slots.size).foldl (fun (st : Heap × List ObjectId) (i : Nat) =>
    match marks[i]?, st.1.slots[i]? with
    | some false, some ⟨gen, some o⟩ =>
      if o.finalizer.isSome && !o.finalized then
        let slots := st.1.slots.setIfInBounds i ⟨gen, some { o with finalized := true }⟩
        ({ st.1 with slots }, st.2 ++ [⟨i, gen⟩])
      else st
    | _, _ => st) (h, [])

/-- Frees every unmarked slot in slot order. -/
def sweepUnmarked (h : Heap) (marks : Array Bool) : Heap × Nat × List Nat :=
  (List.range h.slots.size).foldl (fun (st : Heap × Nat × List Nat) (i : Nat) =>
    if marks[i]? == some true then st
    else
      match st.1.freeSlot i with
      | (some o, h') => (h', st.2.1 + 1, st.2.2 ++ o.hostHandle?.toList)
      | (none, h') => (h', st.2.1, st.2.2)) (h, 0, [])

/-- One collection from the roots. -/
def collect (h : Heap) (roots : List ObjectId) : Heap × Sweep :=
  let h := { h with collections := h.collections + 1 }
  let marks := h.markAll (Array.replicate h.slots.size false) roots
  let (h, rescued) := h.rescue marks
  let marks := if rescued.isEmpty then marks else h.markAll marks rescued
  let (h, freed, released) := h.sweepUnmarked marks
  (h, { freed, released, toFinalize := rescued })

end Heap

end EmbedScript
