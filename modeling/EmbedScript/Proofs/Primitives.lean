import Mathlib
import EmbedScript.Proofs.Logic
import EmbedScript.Engine.Run

/-!
Specifications of the primitive operations that evaluation is built from: the value stack,
allocation, errors, property access, variables and the handlers of thrown values. Each is a
triple over the engine; together with the contracts of `Logic` they are all that the proofs of
statements, expressions and calls use of these definitions.
-/

namespace EmbedScript

open Std.Do

set_option mvcgen.warning false

/-! ### Objects and what they refer to -/

namespace PropertyTable

theorem mem_values_set {t : PropertyTable} {key : String} {v w : Value}
    (member : w ∈ (t.set key v).values) : w ∈ t.values ∨ w = v := by
  unfold set at member
  split at member
  · simp only [values, List.mem_map] at member ⊢
    obtain ⟨⟨k, x⟩, found, rfl⟩ := member
    rcases Array.mem_or_eq_of_mem_setIfInBounds (Array.mem_toList_iff.mp found) with old | new
    · exact .inl ⟨(k, x), Array.mem_toList_iff.mpr old, rfl⟩
    · cases new
      exact .inr rfl
  · simp only [values, Array.toList_push, List.map_append, List.map_cons, List.map_nil,
      List.mem_append, List.mem_singleton] at member
    exact member

theorem mem_values_erase {t : PropertyTable} {key : String} {w : Value}
    (member : w ∈ (t.erase key).values) : w ∈ t.values := by
  simp only [erase, values, List.mem_map, Array.toList_filter, List.mem_filter] at member ⊢
  obtain ⟨entry, ⟨found, -⟩, rfl⟩ := member
  exact ⟨entry, found, rfl⟩

theorem live_values_set {t : PropertyTable} {h : Heap} {key : String} {v : Value}
    (old : ∀ w ∈ t.values, h.Live w) (new : h.Live v) : ∀ w ∈ (t.set key v).values, h.Live w := by
  intro w member
  rcases mem_values_set member with kept | rfl
  · exact old w kept
  · exact new

theorem live_values_empty {h : Heap} : ∀ w ∈ ({} : PropertyTable).values, h.Live w := by
  simp [values]

end PropertyTable

namespace HeapObject

/-- An object the evaluator may allocate: no registry entry, no suite method, no finalizer,
and only live references. -/
structure Allocatable (o : HeapObject) (h : Heap) : Prop where
  plain : o.hostHandle? = none
  noMethod : o.methodOf? = none
  noFinalizer : o.finalizer = none
  unqueued : o.finalized = false
  refs : ∀ r ∈ o.references, h.Valid r

theorem objectId?_eq_some {v : Value} {r : ObjectId} : v.objectId? = some r ↔ v = .object r := by
  cases v <;> simp [Value.objectId?]

/-- Setting a property refers to the old references and the new value. -/
theorem references_setProperty {o : HeapObject} {key : String} {v : Value} {r : ObjectId}
    (member : r ∈ { o with properties := o.properties.set key v }.references) :
    r ∈ o.references ∨ v = .object r := by
  simp only [references, List.mem_append, List.mem_filterMap] at member ⊢
  rcases member with (⟨w, found, named⟩ | fin) | kind
  · rcases PropertyTable.mem_values_set found with old | rfl
    · exact .inl (.inl (.inl ⟨w, old, named⟩))
    · exact .inr (objectId?_eq_some.mp named)
  · exact .inl (.inl (.inr fin))
  · exact .inl (.inr kind)

theorem references_eraseProperty {o : HeapObject} {key : String} {r : ObjectId}
    (member : r ∈ { o with properties := o.properties.erase key }.references) :
    r ∈ o.references := by
  simp only [references, List.mem_append, List.mem_filterMap] at member ⊢
  rcases member with (⟨w, found, named⟩ | fin) | kind
  · exact .inl (.inl ⟨w, PropertyTable.mem_values_erase found, named⟩)
  · exact .inl (.inr fin)
  · exact .inr kind

/-- Replacing the elements of an array refers to the old references and the new elements. -/
theorem references_setElements {o : HeapObject} {elems elems' : Array Value}
    (array : o.kind = .array elems) {r : ObjectId}
    (member : r ∈ { o with kind := .array elems' }.references) :
    r ∈ o.references ∨ Value.object r ∈ elems' := by
  simp only [references, array, List.mem_append, List.mem_filterMap] at member ⊢
  rcases member with (props | fin) | ⟨w, found, named⟩
  · exact .inl (.inl (.inl props))
  · exact .inl (.inl (.inr fin))
  · exact .inr (objectId?_eq_some.mp named ▸ Array.mem_toList_iff.mp found)

/-- A fresh object with live properties and live references of its kind can be allocated. -/
theorem Allocatable.of_live {k : ObjectKind} {p : PropertyTable} {h : Heap}
    (plain : ∀ n, k ≠ .hostProxy n) (noMethod : ∀ s n, k ≠ .function (.method s n))
    (props : ∀ w ∈ p.values, h.Live w)
    (kind : ∀ r ∈ ({ kind := k } : HeapObject).references, h.Valid r) :
    ({ kind := k, properties := p } : HeapObject).Allocatable h := by
  refine ⟨?_, ?_, rfl, rfl, fun r member => ?_⟩
  · unfold hostHandle?
    split
    · rename_i n same
      exact absurd same (plain n)
    · rfl
  · unfold methodOf?
    split
    · rename_i s n same
      exact absurd same (noMethod s n)
    · rfl
  · simp only [references, List.mem_append, List.mem_filterMap, Option.toList_none,
      List.not_mem_nil, or_false] at member
    rcases member with ⟨w, found, named⟩ | kindRef
    · exact props w found r (objectId?_eq_some.mp named)
    · apply kind r
      simp only [references, List.mem_append, Option.toList_none, List.not_mem_nil, or_false]
      exact .inr kindRef

end HeapObject

@[simp] theorem Heap.live_intValue {h : Heap} {i : Int} : h.Live (intValue i) := by
  simp [intValue]

/-! ### The engine's own operations -/

namespace Engine

variable {e : Engine} {v : Value} {n : Nat} {o : HeapObject}

@[simp] theorem control_push : (e.push v).control = e.control := rfl
@[simp] theorem stack_push : (e.push v).stack = e.stack.push v := rfl
@[simp] theorem heap_push : (e.push v).heap = e.heap := rfl
@[simp] theorem control_truncate : (e.truncate n).control = e.control := rfl
@[simp] theorem stack_truncate : (e.truncate n).stack = e.stack.take n := rfl
@[simp] theorem heap_truncate : (e.truncate n).heap = e.heap := rfl
@[simp] theorem control_setAbs : (e.setAbs n v).control = e.control := rfl
@[simp] theorem heap_setAbs : (e.setAbs n v).heap = e.heap := rfl
@[simp] theorem control_insertAbs : (e.insertAbs n v).control = e.control := rfl
@[simp] theorem heap_insertAbs : (e.insertAbs n v).heap = e.heap := rfl
@[simp] theorem control_removeAbs : (e.removeAbs n).control = e.control := rfl
@[simp] theorem heap_removeAbs : (e.removeAbs n).heap = e.heap := rfl
@[simp] theorem control_resizeFrame : (e.resizeFrame n).control = e.control := rfl
@[simp] theorem heap_resizeFrame : (e.resizeFrame n).heap = e.heap := rfl

@[simp] theorem alloc_fst : (e.alloc o).1 = (e.heap.alloc o).1 := rfl
@[simp] theorem alloc_snd : (e.alloc o).2 = { e with heap := (e.heap.alloc o).2 } := rfl

@[simp] theorem modifyObject_eq (id : ObjectId) (f : HeapObject → HeapObject) :
    e.modifyObject id f = { e with heap := e.heap.modify id f } := rfl

theorem Step.allocate (allocatable : o.Allocatable e.heap) :
    e.Step { e with heap := (e.heap.alloc o).2 } :=
  .alloc o allocatable.plain allocatable.noMethod allocatable.noFinalizer allocatable.unqueued
    allocatable.refs

/-- A value on the stack of a safe engine is live. -/
theorem Safe.live_of_mem (safe : e.Safe) (member : v ∈ e.stack) : e.heap.Live v :=
  safe.roots.stack v member

theorem Safe.live_getAbs (safe : e.Safe) (abs : Nat) : e.heap.Live (e.getAbs abs) := by
  unfold getAbs
  rw [Array.getD_eq_getD_getElem?]
  rcases found : e.stack[abs]? with _ | w
  · simp
  · exact safe.live_of_mem (Array.mem_of_getElem? found)

theorem Safe.live_back (safe : e.Safe) : e.heap.Live (e.stack.back?.getD .undefined) := by
  rcases found : e.stack.back? with _ | w
  · simp
  · exact safe.live_of_mem (Array.mem_of_back? found)

theorem Safe.valid_global (safe : e.Safe) : e.heap.Valid e.global := safe.roots.global

theorem Safe.live_currentScope (safe : e.Safe) {id : ObjectId} (current : e.currentScope = some id) :
    e.heap.Valid id := by
  apply safe.roots.scopes id
  unfold currentScope at current
  rcases found : e.scopes.back? with _ | s
  · simp [found] at current
  · simp only [found, Option.bind_some, id_eq] at current
    subst current
    exact Array.mem_of_back? found

/-- The receiver of running code is live: the current scope refers to it, or it is the global
object. -/
theorem Safe.live_thisValue (safe : e.Safe) : e.heap.Live e.thisValue := by
  unfold thisValue
  split
  · rename_i parent this found
    obtain ⟨o, object, kind⟩ := Option.map_eq_some_iff.mp found
    obtain ⟨id, -, object⟩ := Option.bind_eq_some_iff.mp object
    rintro r named
    apply safe.closed id.index id.generation o (Heap.get?_eq_some.mp object) r
    simp [HeapObject.references, kind, named, Value.objectId?]
  · rintro r ⟨⟩
    exact safe.valid_global

end Engine

/-! ### Edits of objects -/

namespace Engine

variable {e : Engine} {v : Value}

/-- A safe engine reads live values out of its objects. -/
theorem Safe.live_objectGet (safe : e.Safe) (id : ObjectId) (key : String) :
    e.heap.Live (e.objectGet id key) := by
  unfold objectGet
  rcases found : e.object? id with _ | o
  · simp
  have refs : ∀ w, Value.object w ∈ o.properties.values ∨
      (∃ elems, o.kind = .array elems ∧ Value.object w ∈ elems) → e.heap.Valid w := by
    intro w source
    apply safe.closed id.index id.generation o (Heap.get?_eq_some.mp found) w
    simp only [HeapObject.references, List.mem_append, List.mem_filterMap]
    rcases source with prop | ⟨elems, array, element⟩
    · exact .inl (.inl ⟨_, prop, rfl⟩)
    · simp only [array]
      exact .inr (List.mem_filterMap.mpr ⟨_, Array.mem_toList_iff.mpr element, rfl⟩)
  have fromTable : e.heap.Live ((o.properties.get? key).getD .undefined) := by
    rcases table : o.properties.get? key with _ | w
    · simp
    · rintro r rfl
      apply refs r (.inl _)
      simp only [PropertyTable.get?, Option.map_eq_some_iff] at table
      obtain ⟨entry, hit, named⟩ := table
      exact List.mem_map.mpr ⟨entry, Array.mem_toList_iff.mpr (Array.mem_of_find?_eq_some hit), named⟩
  simp only
  split
  · rename_i elems array
    split
    · simp
    · split
      · rename_i w element
        rintro r rfl
        obtain ⟨i, -, element⟩ := Option.bind_eq_some_iff.mp element
        exact refs r (.inr ⟨elems, array, Array.mem_of_getElem? element⟩)
      · exact fromTable
  · split
    · exact fromTable
    · split
      · simp
      · split
        · simp
        · exact fromTable
  · exact fromTable

/-- A property of a live object of a safe engine is live. -/
theorem Safe.live_property (safe : e.Safe) {id : ObjectId} {o : HeapObject} {key : String}
    (found : e.object? id = some o) (hit : o.properties.get? key = some v) : e.heap.Live v := by
  rintro r rfl
  apply safe.closed id.index id.generation o (Heap.get?_eq_some.mp found) r
  simp only [PropertyTable.get?, Option.map_eq_some_iff] at hit
  obtain ⟨entry, found, named⟩ := hit
  simp only [HeapObject.references, List.mem_append, List.mem_filterMap]
  exact .inl (.inl ⟨_, List.mem_map.mpr ⟨entry, Array.mem_toList_iff.mpr
    (Array.mem_of_find?_eq_some found), named⟩, rfl⟩)

theorem Safe.live_lookupVar (safe : e.Safe) {name : String} (found : e.lookupVar name = some v) :
    e.heap.Live v := by
  unfold lookupVar at found
  split at found <;>
  · obtain ⟨o, object, hit⟩ := Option.bind_eq_some_iff.mp found
    exact safe.live_property object hit

theorem Step.setProperty (safe : e.Safe) (id : ObjectId) (key : String) (live : e.heap.Live v) :
    e.Step { e with heap := e.heap.modify id fun o => { o with properties := o.properties.set key v } } := by
  refine .edit id _ fun o found => ⟨rfl, rfl, rfl, rfl, fun r member => ?_⟩
  rcases HeapObject.references_setProperty member with old | new
  · exact safe.closed _ _ o (Heap.get?_eq_some.mp found) r old
  · exact live r new

theorem Step.assignVar (safe : e.Safe) (name : String) (live : e.heap.Live v) :
    e.Step (e.assignVar name v) :=
  Step.setProperty safe _ name live

theorem Step.eraseProperty (safe : e.Safe) (id : ObjectId) (key : String) :
    e.Step { e with heap := e.heap.modify id fun o => { o with properties := o.properties.erase key } } :=
  .edit id _ fun o found => ⟨rfl, rfl, rfl, rfl, fun r member =>
    safe.closed _ _ o (Heap.get?_eq_some.mp found) r (HeapObject.references_eraseProperty member)⟩

/-- Replacing the elements of an array by old elements and live values is a step. -/
theorem Step.setElements (safe : e.Safe) {id : ObjectId} {elems elems' : Array Value}
    (array : (e.object? id).map HeapObject.kind = some (.array elems))
    (made : ∀ w ∈ elems', w ∈ elems ∨ e.heap.Live w) :
    e.Step { e with heap := e.heap.modify id fun o => { o with kind := .array elems' } } := by
  obtain ⟨o, found, kind⟩ := Option.map_eq_some_iff.mp array
  refine .edit id _ fun o' found' => ?_
  have same : o' = o := Option.some.inj (found'.symm.trans found)
  subst same
  refine ⟨by simp [HeapObject.hostHandle?, kind], by simp [HeapObject.methodOf?, kind], rfl, rfl,
    fun r member => ?_⟩
  rcases HeapObject.references_setElements kind member with old | element
  · exact safe.closed _ _ o' (Heap.get?_eq_some.mp found') r old
  · rcases made _ element with kept | live
    · apply safe.closed _ _ o' (Heap.get?_eq_some.mp found') r
      simp only [HeapObject.references, kind, List.mem_append, List.mem_filterMap]
      exact .inr ⟨_, Array.mem_toList_iff.mpr kept, rfl⟩
    · exact live r rfl

/-- Deleting a property moves the engine by a step, if at all. -/
theorem Safe.kept_objectDelete (safe : e.Safe) (id : ObjectId) (key : String) :
    e.Kept (e.objectDelete id key).2 := by
  unfold objectDelete
  rcases found : e.object? id with _ | o
  · exact .refl e
  simp only
  split
  · rename_i elems array
    split
    · exact .refl e
    · split
      · have kind : (e.object? id).map HeapObject.kind = some (.array elems) := by simp [found, array]
        refine ⟨(Step.setElements safe kind fun w member => ?_).steps, rfl, rfl⟩
        rcases Array.mem_or_eq_of_mem_setIfInBounds member with old | rfl
        · exact .inl old
        · exact .inr (by simp)
      · exact ⟨(Step.eraseProperty safe id key).steps, rfl, rfl⟩
  · exact ⟨(Step.eraseProperty safe id key).steps, rfl, rfl⟩

end Engine

theorem mem_resizeArray {a : Array Value} {n : Nat} {w : Value} (member : w ∈ resizeArray a n) :
    w ∈ a ∨ w = .undefined := by
  rcases Array.mem_append.mp member with kept | padded
  · exact .inl (Engine.mem_of_mem_take kept)
  · exact .inr (Array.mem_replicate.mp padded).2

/-! ### Specifications -/

section Specs

variable {ε α : Type}

/-- Dropping a result keeps whatever the computation ensures of the state. -/
@[spec] theorem discard_spec {m : Type → Type} {ps : PostShape} [Monad m] [WPMonad m ps]
    {x : m α} {Q : PostCond PUnit ps} : ⦃wp⟦x⟧ (fun _ => Q.1 (), Q.2)⦄ discard x ⦃Q⦄ := by
  rw [Functor.discard, map_const]
  exact Spec.map

theorem popValue_spec (e₀ : Engine) :
    ⦃fun e => ⌜e = e₀ ∧ e₀.bottom < e₀.stack.size⌝⦄ (popValue : ExceptT ε (StateM Engine) Value)
    ⦃post⟨fun v e => ⌜v = e₀.stack.back?.getD .undefined ∧ e = { e₀ with stack := e₀.stack.pop }⌝,
      fun _ _ => ⌜False⌝⟩⦄ := by
  mvcgen [popValue]
  · rename_i pre v e popped
    obtain ⟨rfl, below⟩ := pre
    simp only [Engine.pop?, below, if_true, Option.some.injEq, Prod.mk.injEq] at popped
    exact ⟨popped.1.symm, popped.2.symm⟩
  · rename_i pre empty
    obtain ⟨rfl, below⟩ := pre
    simp [Engine.pop?, below] at empty

/-- Allocating an object the evaluator may allocate works on the heap alone. -/
theorem allocObject_spec (o : HeapObject) (e₀ : Engine) :
    ⦃fun e => ⌜e = e₀ ∧ e₀.Safe ∧ o.Allocatable e₀.heap⌝⦄
    (allocObject o : ExceptT ε (StateM Engine) ObjectId)
    ⦃post⟨fun id e => ⌜e₀.Kept e ∧ e.heap.Valid id⌝, fun _ _ => ⌜False⌝⟩⦄ := by
  mvcgen [allocObject]
  rename_i pre
  obtain ⟨rfl, safe, allocatable⟩ := pre
  exact ⟨⟨(Engine.Step.allocate allocatable).steps, rfl, rfl⟩,
    by simpa using Heap.valid_alloc_self safe.wellFormed⟩

theorem allocatable_error (kind : ErrorKind) (name message : String) (h : Heap) :
    ({ kind := .error kind,
       properties := (({} : PropertyTable).set "name" (.string name)).set "message" (.string message) } :
      HeapObject).Allocatable h :=
  .of_live (by simp) (by simp)
    (PropertyTable.live_values_set (PropertyTable.live_values_set PropertyTable.live_values_empty
      (by simp)) (by simp))
    (by simp [HeapObject.references, PropertyTable.values])

/-- A fresh error object is thrown from where the engine stands. -/
theorem throwNew_spec (kind : ErrorKind) (message : String) (e₀ : Engine) :
    ⦃fun e => ⌜e = e₀ ∧ e₀.Safe⌝⦄ (throwNew kind message : Flow α)
    ⦃post⟨fun _ _ => ⌜False⌝, fun u e => ⌜e₀.Raised u e⌝⟩⦄ := by
  mvcgen [throwNew, allocError, allocObject]
  rename_i pre _
  obtain ⟨rfl, safe⟩ := pre
  refine ⟨(Engine.Step.allocate (allocatable_error _ _ _ _)).steps, ⟨?_, .of_stack rfl rfl⟩, rfl⟩
  simpa using Heap.valid_alloc_self safe.wellFormed

theorem throwScriptError_spec (err : ScriptError) (e₀ : Engine) :
    ⦃fun e => ⌜e = e₀ ∧ e₀.Safe⌝⦄ (throwScriptError err : Flow α)
    ⦃post⟨fun _ _ => ⌜False⌝, fun u e => ⌜e₀.Raised u e⌝⟩⦄ := by
  mvcgen [throwScriptError, allocError, allocObject]
  rename_i pre _
  obtain ⟨rfl, safe⟩ := pre
  refine ⟨(Engine.Step.allocate (allocatable_error _ _ _ _)).steps, ⟨?_, .of_stack rfl rfl⟩, rfl⟩
  simpa using Heap.valid_alloc_self safe.wellFormed

/-- A closure over the current scope is a fresh live object. -/
theorem makeClosure_spec (defn : Syntax.FunctionDef) (e₀ : Engine) :
    ⦃fun e => ⌜e = e₀ ∧ e₀.Safe⌝⦄ makeClosure defn
    ⦃post⟨fun c e => ⌜e₀.Kept e ∧ e.heap.Valid c⌝, fun _ _ => ⌜False⌝⟩⦄ := by
  mvcgen [makeClosure, allocObject]
  rename_i pre
  obtain ⟨rfl, safe⟩ := pre
  refine ⟨⟨(Engine.Step.allocate ?_).steps, rfl, rfl⟩, by simpa using Heap.valid_alloc_self safe.wellFormed⟩
  -- the closure refers to nothing but the scope it closes over
  refine .of_live (by simp) (by simp) PropertyTable.live_values_empty fun r member => ?_
  simp only [HeapObject.references, List.mem_append, Option.toList_none, List.not_mem_nil,
    or_false, List.mem_filterMap, PropertyTable.values, List.map_nil, false_and, exists_false,
    false_or, Option.mem_toList] at member
  exact safe.live_currentScope member

theorem getProperty_spec (target : Value) (key : String) (e₀ : Engine) :
    ⦃fun e => ⌜e = e₀ ∧ e₀.Safe⌝⦄ getProperty target key
    ⦃post⟨fun v e => ⌜e = e₀ ∧ e.heap.Live v⌝, fun u e => ⌜e₀.Raised u e⌝⟩⦄ := by
  mvcgen [getProperty, throwNew_spec] with obtain ⟨rfl, safe⟩ := ‹_ = e₀ ∧ _›
  | vc1 | vc4 => exact ⟨trivial, safe⟩
  | vc2 | vc5 => exact False.elim
  | vc3 | vc6 => exact fun raised => raised
  | vc7 | vc8 | vc9 | vc10 | vc11 => simp
  | vc12 => exact ⟨rfl, safe.live_objectGet _ _⟩

theorem objectPut_spec (id : ObjectId) (key : String) (v : Value) (e₀ : Engine) :
    ⦃fun e => ⌜e = e₀ ∧ e₀.Safe ∧ e₀.heap.Live v⌝⦄ objectPut id key v
    ⦃post⟨fun _ e => ⌜e₀.Kept e⌝, fun u e => ⌜e₀.Raised u e⌝⟩⦄ := by
  mvcgen [objectPut, throwNew_spec] with obtain ⟨rfl, safe, live⟩ := ‹_ = e₀ ∧ _›
  | vc1 | vc5 => exact ⟨trivial, safe⟩
  | vc3 | vc7 => exact fun raised => raised
  | vc4 =>
    refine ⟨(Engine.Step.setElements safe ‹_› fun w member => ?_).steps, rfl, rfl⟩
    rcases mem_resizeArray member with old | rfl
    · exact .inl old
    · exact .inr (by simp)
  | vc8 =>
    rename_i grownDef _
    refine ⟨(Engine.Step.setElements safe ‹_› fun w member => ?_).steps, rfl, rfl⟩
    rcases Array.mem_or_eq_of_mem_setIfInBounds member with grown | rfl
    · simp only [grownDef] at grown
      split at grown
      · rcases mem_resizeArray grown with old | rfl
        · exact .inl old
        · exact .inr (by simp)
      · exact .inl grown
    · exact .inr live
  | vc9 | vc10 => exact ⟨(Engine.Step.setProperty safe _ _ live).steps, rfl, rfl⟩

theorem binaryOp_spec (op : Syntax.BinaryOp) (a b : Value) (e₀ : Engine) :
    ⦃fun e => ⌜e = e₀ ∧ e₀.Safe⌝⦄ binaryOp op a b
    ⦃post⟨fun w e => ⌜e = e₀ ∧ e.heap.Live w⌝, fun u e => ⌜e₀.Raised u e⌝⟩⦄ := by
  mvcgen [binaryOp, throwNew_spec] with obtain ⟨rfl, safe⟩ := ‹_ = e₀ ∧ _›
  | vc25 => exact ⟨trivial, safe⟩
  | vc26 => exact False.elim
  | vc27 => exact fun raised => raised
  -- every other operator gives a primitive value
  all_goals simp

theorem putProperty_spec (target : Value) (key : String) (v : Value) (e₀ : Engine) :
    ⦃fun e => ⌜e = e₀ ∧ e₀.Safe ∧ e₀.heap.Live v⌝⦄ putProperty target key v
    ⦃post⟨fun _ e => ⌜e₀.Kept e⌝, fun u e => ⌜e₀.Raised u e⌝⟩⦄ := by
  mvcgen [putProperty, throwNew_spec, objectPut_spec] with obtain ⟨rfl, safe, live⟩ := ‹_ = e₀ ∧ _›
  | vc1 | vc4 => exact ⟨trivial, safe⟩
  | vc2 | vc5 => exact False.elim
  | vc3 | vc6 => exact fun raised => raised
  | vc8 => exact .refl _

theorem deleteProperty_spec (target : Value) (key : String) (e₀ : Engine) :
    ⦃fun e => ⌜e = e₀ ∧ e₀.Safe⌝⦄ deleteProperty target key
    ⦃post⟨fun _ e => ⌜e₀.Steps e ∧ e₀.Pushed e⌝, fun u e => ⌜e₀.Raised u e⌝⟩⦄ := by
  mvcgen [deleteProperty, throwNew_spec, pushValue] with obtain ⟨rfl, safe⟩ := ‹_ = e₀ ∧ _›
  | vc1 | vc4 => exact ⟨trivial, safe⟩
  | vc2 | vc5 => exact False.elim
  | vc3 | vc6 => exact fun raised => raised
  | vc7 => exact safe.push (safe.kept_objectDelete _ _) (by simp)
  | vc8 => exact safe.push (.refl _) (by simp)

theorem Reference.read_spec (ref : Reference) (e₀ : Engine) :
    ⦃fun e => ⌜e = e₀ ∧ e₀.Safe⌝⦄ ref.read
    ⦃post⟨fun v e => ⌜e = e₀ ∧ e.heap.Live v⌝, fun u e => ⌜e₀.Raised u e⌝⟩⦄ := by
  cases ref with
  | var name =>
    mvcgen [Reference.read, throwNew_spec] with obtain ⟨rfl, safe⟩ := ‹_ = e₀ ∧ _›
    | vc1 => exact ⟨rfl, safe.live_lookupVar ‹_›⟩
    | vc2 => exact ⟨trivial, safe⟩
    | vc3 => exact False.elim
    | vc4 => exact fun raised => raised
  | property slot key => mvcgen [Reference.read, getProperty_spec]

theorem Reference.write_spec (ref : Reference) (v : Value) (e₀ : Engine) :
    ⦃fun e => ⌜e = e₀ ∧ e₀.Safe ∧ e₀.heap.Live v⌝⦄ ref.write v
    ⦃post⟨fun _ e => ⌜e₀.Kept e⌝, fun u e => ⌜e₀.Raised u e⌝⟩⦄ := by
  cases ref with
  | var name =>
    mvcgen [Reference.write] with obtain ⟨rfl, safe, live⟩ := ‹_ = e₀ ∧ _›
    | vc1 => exact ⟨(Engine.Step.assignVar safe name live).steps, rfl, rfl⟩
  | property slot key => mvcgen [Reference.write, putProperty_spec]

/-! ### Handlers of thrown values -/

theorem attempt_run (f : Flow α) (e : Engine) : (attempt f).run.run e =
    match f.run.run e with
    | (.ok a, e') => (.ok (.ok a), e')
    | (.error (.thrown v), e') => (.ok (.error v), e')
    | (.error .exhausted, e') => (.error .exhausted, e') := by
  simp only [attempt, ExceptT.run_mk, StateT.run_bind]
  rcases f.run.run e with ⟨(_ | _) | _, e'⟩ <;> rfl

/-- Catching gives what was thrown as a result; running out of fuel passes on. -/
theorem attempt_spec {f : Flow α} {P : Engine → Prop} {Q : α → Engine → Prop}
    {E : Unwind → Engine → Prop}
    (spec : ⦃fun e => ⌜P e⌝⦄ f ⦃post⟨fun a e => ⌜Q a e⌝, fun u e => ⌜E u e⌝⟩⦄) :
    ⦃fun e => ⌜P e⌝⦄ attempt f
    ⦃post⟨fun r e => ⌜match r with
        | .ok a => Q a e
        | .error v => E (.thrown v) e⌝,
      fun u e => ⌜u = .exhausted ∧ E u e⌝⟩⦄ := by
  rw [triple_iff] at spec ⊢
  intro e pre
  have ran := spec e pre
  rw [attempt_run]
  revert ran
  rcases f.run.run e with ⟨(_ | _) | _, e'⟩
  · exact fun ran => ran
  · exact fun ran => ⟨rfl, ran⟩
  · exact fun ran => ran

theorem toApi_run (f : Flow α) (e : Engine) : f.toApi.run.run e =
    match f.run.run e with
    | (.ok a, e') => (.ok a, e')
    | (.error (.thrown v), e') => (.error (.error (.script (e'.scriptErrorOf v))), e')
    | (.error .exhausted, e') => (.error .exhausted, e') := by
  simp only [Flow.toApi, ExceptT.run_mk, StateT.run_bind]
  rcases f.run.run e with ⟨(_ | _) | _, e'⟩ <;> rfl

/-- The stack interface reports what script code throws as the script error it describes. -/
theorem toApi_spec {f : Flow α} {P : Engine → Prop} {Q : α → Engine → Prop}
    {E : Unwind → Engine → Prop}
    (spec : ⦃fun e => ⌜P e⌝⦄ f ⦃post⟨fun a e => ⌜Q a e⌝, fun u e => ⌜E u e⌝⟩⦄) :
    ⦃fun e => ⌜P e⌝⦄ f.toApi
    ⦃post⟨fun a e => ⌜Q a e⌝, fun x e => ⌜match x with
        | .error err => ∃ v, err = .script (e.scriptErrorOf v) ∧ E (.thrown v) e
        | .exhausted => E .exhausted e⌝⟩⦄ := by
  rw [triple_iff] at spec ⊢
  intro e pre
  have ran := spec e pre
  rw [toApi_run]
  revert ran
  rcases f.run.run e with ⟨(_ | _) | _, e'⟩
  · exact fun ran => ⟨_, rfl, ran⟩
  · exact fun ran => ran
  · exact fun ran => ran

theorem catchThrown_run (f : Flow α) (e : Engine) : f.catchThrown.run.run e =
    match f.run.run e with
    | (.ok a, e') => (.ok (.ok a), e')
    | (.error (.thrown v), e') => (.ok (.error v), e')
    | (.error .exhausted, e') => (.error .exhausted, e') := by
  simp only [Flow.catchThrown, ExceptT.run_mk, StateT.run_bind]
  rcases f.run.run e with ⟨(_ | _) | _, e'⟩ <;> rfl

/-- The stack interface catches what script code throws; running out of fuel passes on. -/
theorem catchThrown_spec {f : Flow α} {P : Engine → Prop} {Q : α → Engine → Prop}
    {E : Unwind → Engine → Prop}
    (spec : ⦃fun e => ⌜P e⌝⦄ f ⦃post⟨fun a e => ⌜Q a e⌝, fun u e => ⌜E u e⌝⟩⦄) :
    ⦃fun e => ⌜P e⌝⦄ f.catchThrown
    ⦃post⟨fun r e => ⌜match r with
        | .ok a => Q a e
        | .error v => E (.thrown v) e⌝,
      fun x e => ⌜x = .exhausted ∧ E .exhausted e⌝⟩⦄ := by
  rw [triple_iff] at spec ⊢
  intro e pre
  have ran := spec e pre
  rw [catchThrown_run]
  revert ran
  rcases f.run.run e with ⟨(_ | _) | _, e'⟩
  · exact fun ran => ran
  · exact fun ran => ⟨rfl, ran⟩
  · exact fun ran => ran

theorem capture_run (act : Api α) (e : Engine) : act.capture.run.run e =
    match act.run.run e with
    | (.ok a, e') => (.ok (.ok a), e')
    | (.error (.error err), e') => (.ok (.error err), e')
    | (.error .exhausted, e') => (.error .exhausted, e') := by
  simp only [Api.capture, ExceptT.run_mk, StateT.run_bind]
  rcases act.run.run e with ⟨(_ | _) | _, e'⟩ <;> rfl

/-- Script code sees the errors of an interface operation as results. -/
theorem capture_spec {act : Api α} {P : Engine → Prop} {Q : α → Engine → Prop}
    {F : Failure → Engine → Prop}
    (spec : ⦃fun e => ⌜P e⌝⦄ act ⦃post⟨fun a e => ⌜Q a e⌝, fun x e => ⌜F x e⌝⟩⦄) :
    ⦃fun e => ⌜P e⌝⦄ act.capture
    ⦃post⟨fun r e => ⌜match r with
        | .ok a => Q a e
        | .error err => F (.error err) e⌝,
      fun u e => ⌜u = .exhausted ∧ F .exhausted e⌝⟩⦄ := by
  rw [triple_iff] at spec ⊢
  intro e pre
  have ran := spec e pre
  rw [capture_run]
  revert ran
  rcases act.run.run e with ⟨(_ | _) | _, e'⟩
  · exact fun ran => ran
  · exact fun ran => ⟨rfl, ran⟩
  · exact fun ran => ran

theorem ignoreError_run (act : Api Unit) (e : Engine) : act.ignoreError.run.run e =
    match act.run.run e with
    | (.error .exhausted, e') => (.error .exhausted, e')
    | (_, e') => (.ok (), e') := by
  simp only [Api.ignoreError, ExceptT.run_mk, StateT.run_bind]
  rcases act.run.run e with ⟨(_ | _) | _, e'⟩ <;> rfl

/-- Dropping the error of an interface operation keeps where either outcome leaves the engine. -/
theorem ignoreError_spec {act : Api Unit} {P : Engine → Prop} {Q : Engine → Prop}
    {F : Failure → Engine → Prop}
    (spec : ⦃fun e => ⌜P e⌝⦄ act ⦃post⟨fun _ e => ⌜Q e⌝, fun x e => ⌜F x e⌝⟩⦄) :
    ⦃fun e => ⌜P e⌝⦄ act.ignoreError
    ⦃post⟨fun _ e => ⌜Q e ∨ ∃ err, F (.error err) e⌝,
      fun x e => ⌜x = .exhausted ∧ F .exhausted e⌝⟩⦄ := by
  rw [triple_iff] at spec ⊢
  intro e pre
  have ran := spec e pre
  rw [ignoreError_run]
  revert ran
  rcases act.run.run e with ⟨(_ | _) | _, e'⟩
  · exact fun ran => .inr ⟨_, ran⟩
  · exact fun ran => ⟨rfl, ran⟩
  · exact fun ran => .inl ran

/-- Raising pushes the exception and fails with the script error it describes. -/
theorem raise_spec (exception : Value) (e₀ : Engine) :
    ⦃fun e => ⌜e = e₀⌝⦄ (Api.raise exception : Api α)
    ⦃post⟨fun _ _ => ⌜False⌝,
      fun x e => ⌜x = .error (.script (e₀.scriptErrorOf exception)) ∧ e = e₀.push exception⌝⟩⦄ := by
  mvcgen [Api.raise, pushValue, fail] with subst_vars
  | vc1 => exact ⟨rfl, rfl⟩

/-- Hoisting binds fresh closures on a scope object and leaves the stack alone. -/
theorem hoistInto_spec (scope : ObjectId) (defs : List Syntax.FunctionDef) (e₀ : Engine) :
    ⦃fun e => ⌜e = e₀ ∧ e₀.Safe⌝⦄ hoistInto scope defs
    ⦃post⟨fun _ e => ⌜e₀.Kept e⌝, fun _ _ => ⌜False⌝⟩⦄ := by
  induction defs generalizing e₀ with
  | nil =>
    mvcgen [hoistInto] with obtain ⟨rfl, safe⟩ := ‹_ = e₀ ∧ _›
    | vc1 => exact .refl _
  | cons defn rest ih =>
    mvcgen [hoistInto, makeClosure_spec] with obtain ⟨rfl, safe⟩ := ‹_ = e₀ ∧ _›
    | vc1 => exact ⟨trivial, safe⟩
    | vc2 =>
      rename_i c _ name _ e made t _
      obtain ⟨kept, valid⟩ := made
      have safe₁ := kept.1.safe' safe
      have bind : e.Step t.2 := Engine.Step.setProperty safe₁ scope name (by simpa using valid)
      -- the rest of the declarations are hoisted from the scope with the new binding
      refine wp_of_triple (ih t.2) ⟨rfl, safe₁.step bind⟩ (fun _ e' rest => ?_) fun _ _ no => no
      exact (kept.trans ⟨bind.steps, rfl, rfl⟩).trans rest
    | vc3 =>
      intro e kept _
      exact wp_of_triple (ih e) ⟨rfl, kept.1.safe' safe⟩ (fun _ _ rest => kept.trans rest)
        fun _ _ no => no

theorem declareGlobals_spec (names : List String) (e₀ : Engine) :
    ⦃fun e => ⌜e = e₀ ∧ e₀.Safe⌝⦄ declareGlobals names
    ⦃post⟨fun _ e => ⌜e₀.Kept e⌝, fun _ _ => ⌜False⌝⟩⦄ := by
  induction names generalizing e₀ with
  | nil =>
    mvcgen [declareGlobals] with obtain ⟨rfl, safe⟩ := ‹_ = e₀ ∧ _›
    | vc1 => exact .refl _
  | cons name rest ih =>
    mvcgen [declareGlobals] with obtain ⟨rfl, safe⟩ := ‹_ = e₀ ∧ _›
    | vc1 =>
      rename_i t _
      have declare : _ := Engine.Step.assignVar safe name Heap.live_undefined
      refine wp_of_triple (ih t.2) ⟨rfl, safe.step declare⟩ (fun _ e' rest => ?_) fun _ _ no => no
      exact (Engine.Kept.trans ⟨declare.steps, rfl, rfl⟩ rest)
    | vc2 =>
      exact wp_of_triple (ih _) ⟨rfl, safe⟩ (fun _ _ rest => rest) fun _ _ no => no

theorem hoistGlobals_spec (defs : List Syntax.FunctionDef) (e₀ : Engine) :
    ⦃fun e => ⌜e = e₀ ∧ e₀.Safe⌝⦄ hoistGlobals defs
    ⦃post⟨fun _ e => ⌜e₀.Kept e⌝, fun _ _ => ⌜False⌝⟩⦄ := by
  induction defs generalizing e₀ with
  | nil =>
    mvcgen [hoistGlobals] with obtain ⟨rfl, safe⟩ := ‹_ = e₀ ∧ _›
    | vc1 => exact .refl _
  | cons defn rest ih =>
    mvcgen [hoistGlobals, makeClosure_spec] with obtain ⟨rfl, safe⟩ := ‹_ = e₀ ∧ _›
    | vc1 => exact ⟨trivial, safe⟩
    | vc2 =>
      rename_i c _ name _ e made t _
      obtain ⟨kept, valid⟩ := made
      have safe₁ := kept.1.safe' safe
      have bind : e.Step t.2 := Engine.Step.assignVar safe₁ name (by simpa using valid)
      refine wp_of_triple (ih t.2) ⟨rfl, safe₁.step bind⟩ (fun _ e' rest => ?_) fun _ _ no => no
      exact (kept.trans ⟨bind.steps, rfl, rfl⟩).trans rest
    | vc3 =>
      intro e kept _
      exact wp_of_triple (ih e) ⟨rfl, kept.1.safe' safe⟩ (fun _ _ rest => kept.trans rest)
        fun _ _ no => no

/-- One native level deeper and back: the control state is restored. -/
theorem control_nested {e₀ e : Engine}
    (control : e.control = { e₀ with nesting := e₀.nesting + 1 }.control) :
    { e with nesting := e.nesting - 1 }.control = e₀.control := by
  simp only [Engine.control, Engine.Control.mk.injEq] at control ⊢
  obtain ⟨scopes, frames, depth, nesting, slot, bottom⟩ := control
  exact ⟨scopes, frames, depth, by omega, slot, bottom⟩

theorem Engine.Above.nested {e₀ e : Engine}
    (above : { e₀ with nesting := e₀.nesting + 1 }.Above e) :
    e₀.Above { e with nesting := e.nesting - 1 } :=
  ⟨control_nested above.1, above.2.1, above.2.2⟩

/-- Code run one native level deeper keeps its contract for the level it was called from; at the
nesting limit it throws a range error instead. What the code promises when it stops early, `E`,
may be any promise that coming back up a level keeps and that a throw leaving the stack alone
meets. -/
theorem withNesting_spec {act : Flow α} {Q : α → Engine → Engine → Prop}
    {E : Unwind → Engine → Engine → Prop}
    (shift : ∀ a e₀ e, Q a { e₀ with nesting := e₀.nesting + 1 } e →
      Q a e₀ { e with nesting := e.nesting - 1 })
    (shiftThrown : ∀ v e₀ e, E (.thrown v) { e₀ with nesting := e₀.nesting + 1 } e →
      E (.thrown v) e₀ { e with nesting := e.nesting - 1 })
    (shiftExhausted : ∀ e₀ e, E .exhausted { e₀ with nesting := e₀.nesting + 1 } e →
      E .exhausted e₀ e)
    (raised : ∀ u e₀ e, e₀.Raised u e → E u e₀ e)
    (spec : ∀ e₀, ⦃fun e => ⌜e = e₀ ∧ e₀.Sound⌝⦄ act
      ⦃post⟨fun a e => ⌜e₀.Steps e ∧ Q a e₀ e⌝, fun u e => ⌜e₀.Steps e ∧ E u e₀ e⌝⟩⦄)
    (e₀ : Engine) :
    ⦃fun e => ⌜e = e₀ ∧ e₀.Sound⌝⦄ withNesting act
    ⦃post⟨fun a e => ⌜e₀.Steps e ∧ Q a e₀ e⌝, fun u e => ⌜e₀.Steps e ∧ E u e₀ e⌝⟩⦄ := by
  have tried := fun e₁ => attempt_spec (spec e₁)
  mvcgen [withNesting, throwNew_spec, tried, resume] with obtain ⟨rfl, sound⟩ := ‹_ = e₀ ∧ _›
  | vc1 => exact ⟨trivial, sound.safe⟩
  | vc6 => exact fun thrown => ⟨thrown.1, raised _ _ _ thrown⟩
  | vc7 => exact ⟨trivial, sound.of_roots rfl rfl rfl rfl rfl rfl⟩
  | vc8 =>
    rename_i e ran _ a found _
    subst found
    obtain ⟨run, holds⟩ := ran
    have deeper := (Engine.Step.retune sound.safe _ _ _ _ _).steps.trans run
    exact ⟨deeper.tail (.retune (deeper.safe' sound.safe) _ _ _ _ _), shift _ _ _ holds⟩
  | vc9 =>
    rename_i e ran _ v found _
    subst found
    obtain ⟨run, stopped⟩ := ran
    have deeper := (Engine.Step.retune sound.safe _ _ _ _ _).steps.trans run
    exact ⟨deeper.tail (.retune (deeper.safe' sound.safe) _ _ _ _ _), shiftThrown _ _ _ stopped⟩
  | vc10 =>
    rintro rfl run stopped
    exact ⟨(Engine.Step.retune sound.safe _ _ _ _ _).steps.trans run, shiftExhausted _ _ stopped⟩

end Specs

end EmbedScript
