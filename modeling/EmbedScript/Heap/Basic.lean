import EmbedScript.Heap.Object

/-!
The heap: a vector of slots, each with a generation and possibly an object. Freed slots are
reused last-freed first; freeing a slot moves its generation on, so ids taken before are
refused by every lookup until the generation, a 32-bit counter, has wrapped around.
-/

namespace EmbedScript

/-- The generation after `g`: generations count in 32 bits and wrap around to 0. -/
def nextGeneration (g : Nat) : Nat := (g + 1) % Nat.pow 2 32

/-- A heap slot. -/
structure Slot where
  generation : Nat
  object : Option HeapObject

/-- Slots, the free slots (most recently freed first) and the number of live objects. -/
structure Heap where
  slots : Array Slot := #[]
  vacant : List Nat := []
  live : Nat := 0
  collections : Nat := 0

namespace Heap

/-- Places an object in the most recently freed slot, or in a new one. -/
def alloc (h : Heap) (o : HeapObject) : ObjectId × Heap :=
  match h.vacant with
  | i :: rest =>
    let gen := (h.slots[i]?.map (·.generation)).getD 0
    let slots := h.slots.setIfInBounds i ⟨gen, some o⟩
    (⟨i, gen⟩, { h with slots, vacant := rest, live := h.live + 1 })
  | [] =>
    let slots := h.slots.push ⟨0, some o⟩
    (⟨h.slots.size, 0⟩, { h with slots, live := h.live + 1 })

/-- The object an id names, if its slot still holds the object of that generation. -/
def get? (h : Heap) (id : ObjectId) : Option HeapObject :=
  match h.slots[id.index]? with
  | some s => if s.generation == id.generation then s.object else none
  | none => none

/-- Changes the object an id names; nothing happens for a stale id. -/
def modify (h : Heap) (id : ObjectId) (f : HeapObject → HeapObject) : Heap :=
  match h.slots[id.index]? with
  | some ⟨gen, some o⟩ =>
    if gen == id.generation then
      let slots := h.slots.setIfInBounds id.index ⟨gen, some (f o)⟩
      { h with slots }
    else h
  | _ => h

/-- Empties a slot that holds an object, moving its generation on; gives the object. -/
def freeSlot (h : Heap) (i : Nat) : Option HeapObject × Heap :=
  match h.slots[i]? with
  | some ⟨gen, some o⟩ =>
    let slots := h.slots.setIfInBounds i ⟨nextGeneration gen, none⟩
    (some o, { h with slots, vacant := i :: h.vacant, live := h.live - 1 })
  | _ => (none, h)

end Heap

end EmbedScript
