import Mathlib
import EmbedScript.Proofs.SessionSafety
import EmbedScript.Proofs.Survival
import EmbedScript.Proofs.Outcomes

/-!
The host registry and the proxies of the heap. A proxy is the script side of a registry entry,
and a method object calls a method of the suite its proxy stands for. Two invariants tie them
together: the registry's handles are exactly those the live proxies carry, each by one proxy, and
every live method object is bound to a live proxy whose entry is a suite with that method. Every
atomic step keeps both: allocation adds no proxy or method unless it adopts a host value under
the counter or binds a method of a registered suite, edits keep handles and methods, and a
collection releases the handle of a proxy exactly when it frees the proxy, and keeps the suite
proxy of every method object it keeps. So both hold in every state a session reaches and in
every engine its operations pass through.
-/

namespace EmbedScript

namespace Heap

variable {β : Type} {tag : HeapObject → Option β} {h : Heap} {o o' : HeapObject}
  {id : ObjectId} {b : β}

/-- `id` names a live object whose `tag` reads `b`. -/
def Tagged (h : Heap) (tag : HeapObject → Option β) (id : ObjectId) (b : β) : Prop :=
  ∃ o, h.get? id = some o ∧ tag o = some b

/-- `id` names a live proxy of the registry handle `n`. -/
def Proxy (h : Heap) (id : ObjectId) (n : Nat) : Prop := h.Tagged HeapObject.hostHandle? id n

/-- `id` names a live method object, the method `name` of the suite proxy `suite`. -/
def Method (h : Heap) (id suite : ObjectId) (name : String) : Prop :=
  h.Tagged HeapObject.methodOf? id (suite, name)

theorem Tagged.valid (tagged : h.Tagged tag id b) : h.Valid id :=
  ⟨_, tagged.choose_spec.1⟩

/-- After an allocation in a well-formed heap an object is the new one, or one the heap held
under the same id. -/
theorem get?_alloc_eq_some (wf : h.WellFormed) (found : (h.alloc o).2.get? id = some o') :
    (id = (h.alloc o).1 ∧ o' = o) ∨ h.get? id = some o' := by
  rcases (valid_alloc_iff wf).mp ⟨o', found⟩ with old | rfl
  · exact .inr ((get?_alloc_of_valid wf old).symm.trans found)
  · exact .inl ⟨rfl, Option.some.inj (found.symm.trans (get?_alloc_self wf))⟩

/-- Allocating keeps every tagged object and adds the new one if its tag reads. -/
theorem tagged_alloc (wf : h.WellFormed) :
    (h.alloc o).2.Tagged tag id b ↔ h.Tagged tag id b ∨ (id = (h.alloc o).1 ∧ tag o = some b) := by
  constructor
  · rintro ⟨o', found, read⟩
    rcases get?_alloc_eq_some wf found with ⟨rfl, rfl⟩ | old
    · exact .inr ⟨rfl, read⟩
    · exact .inl ⟨o', old, read⟩
  · rintro (⟨o', found, read⟩ | ⟨rfl, read⟩)
    · exact ⟨o', (get?_alloc_of_valid wf ⟨o', found⟩).trans found, read⟩
    · exact ⟨o, get?_alloc_self wf, read⟩

/-- Allocating an object whose tag does not read keeps exactly the tagged objects. -/
theorem tagged_alloc_of_none (wf : h.WellFormed) (untagged : tag o = none) :
    (h.alloc o).2.Tagged tag id b ↔ h.Tagged tag id b := by
  rw [tagged_alloc wf, untagged]
  simp

/-- A change of one object that keeps its tag keeps every tagged object. -/
theorem tagged_modify {target : ObjectId} {f : HeapObject → HeapObject}
    (kept : ∀ o, h.get? target = some o → tag (f o) = tag o) :
    (h.modify target f).Tagged tag id b ↔ h.Tagged tag id b := by
  unfold Tagged
  rw [get?_modify]
  split
  · subst_vars
    constructor
    · rintro ⟨o', found, read⟩
      obtain ⟨o, old, rfl⟩ := Option.map_eq_some_iff.mp found
      exact ⟨o, old, (kept o old) ▸ read⟩
    · rintro ⟨o, old, read⟩
      exact ⟨f o, by rw [old]; rfl, (kept o old).trans read⟩
  · rfl

/-- A collection keeps the tagged objects that survive it, with their tags. -/
theorem tagged_collect {roots : List ObjectId} (closed : h.Closed) (live : ∀ r ∈ roots, h.Valid r)
    (flag : ∀ o (queued : Bool), tag { o with finalized := queued } = tag o) :
    (h.collect roots).1.Tagged tag id b ↔ h.Tagged tag id b ∧ (h.collect roots).1.Valid id := by
  constructor
  · rintro ⟨o', found, read⟩
    obtain ⟨o, old, -, rfl⟩ := (get?_collect_eq_some closed live).mp found
    exact ⟨⟨o, old, (flag _ _).symm.trans read⟩, _, found⟩
  · rintro ⟨⟨o, old, read⟩, o', found⟩
    obtain ⟨o'', old', -, rfl⟩ := (get?_collect_eq_some closed live).mp found
    rw [old] at old'
    cases old'
    exact ⟨_, found, (flag _ _).trans read⟩

/-! ### The objects of a heap and what a collection frees -/

theorem mem_objectIds_iff : id ∈ h.objectIds ↔ h.Valid id := by
  refine ⟨mem_objectIds, fun valid => ?_⟩
  obtain ⟨o, slot⟩ := valid_iff.mp valid
  refine List.mem_filterMap.mpr ⟨id.index, List.mem_range.mpr valid.index_lt, ?_⟩
  simp [slot]

/-- Each object id is listed once, under its own slot. -/
theorem nodup_objectIds : h.objectIds.Nodup := by
  have index : ∀ {i : Nat} {id : ObjectId},
      (h.slots[i]?.bind fun s => s.object.map fun _ => (⟨i, s.generation⟩ : ObjectId)) = some id →
        id.index = i := by
    intro i id named
    obtain ⟨s, -, made⟩ := Option.bind_eq_some_iff.mp named
    obtain ⟨-, -, rfl⟩ := Option.map_eq_some_iff.mp made
    rfl
  exact List.nodup_range.filterMap fun i j id named named' => (index named).symm.trans (index named')

theorem handle_eq_some {n : Nat} : (h.get? id).bind HeapObject.hostHandle? = some n ↔ h.Proxy id n := by
  simp [Proxy, Tagged, Option.bind_eq_some_iff]

/-- The handles the live proxies of a heap carry, one for each proxy, in slot order. -/
def proxyHandles (h : Heap) : List Nat :=
  h.objectIds.filterMap fun id => (h.get? id).bind HeapObject.hostHandle?

theorem mem_proxyHandles {n : Nat} : n ∈ h.proxyHandles ↔ ∃ id, h.Proxy id n := by
  simp only [proxyHandles, List.mem_filterMap, mem_objectIds_iff, handle_eq_some]
  exact ⟨fun ⟨id, _, proxy⟩ => ⟨id, proxy⟩, fun ⟨id, proxy⟩ => ⟨id, proxy.valid, proxy⟩⟩

section Distinct

variable (distinct : ∀ {id id' : ObjectId} {n : Nat}, h.Proxy id n → h.Proxy id' n → id = id')
include distinct

/-- Handles from distinct proxies of a sublist of the objects are distinct. -/
theorem nodup_filterMap_handle {ids : List ObjectId} (nodup : ids.Nodup) :
    (ids.filterMap fun id => (h.get? id).bind HeapObject.hostHandle?).Nodup :=
  nodup.filterMap fun _ _ _ found found' =>
    distinct (handle_eq_some.mp found) (handle_eq_some.mp found')

theorem nodup_proxyHandles : h.proxyHandles.Nodup :=
  nodup_filterMap_handle distinct nodup_objectIds

end Distinct

variable {roots : List ObjectId}

theorem mem_released_iff {n : Nat} :
    n ∈ (h.collect roots).2.released ↔ ∃ id, h.Proxy id n ∧ ¬ (h.collect roots).1.Valid id := by
  simp only [released_collect_eq_handles, List.mem_filterMap, List.mem_filter, mem_objectIds_iff,
    handle_eq_some, decide_eq_true_eq]
  exact ⟨fun ⟨id, ⟨_, freed⟩, proxy⟩ => ⟨id, proxy, freed⟩,
    fun ⟨id, proxy, freed⟩ => ⟨id, ⟨proxy.valid, freed⟩, proxy⟩⟩

end Heap

namespace Registry

variable {r : Registry} {n : Nat} {v : HostValue}

/-- In an ordered registry an entry is what its handle finds. -/
theorem Ordered.find?_of_mem (ordered : r.Ordered) (member : (n, v) ∈ r.entries) :
    r.find? n = some v := by
  obtain ⟨p, found⟩ :=
    Option.isSome_iff_exists.mp (find?_isSome_iff.mpr (List.mem_map.mpr ⟨_, member, rfl⟩))
  obtain ⟨q, first, rfl⟩ := Option.map_eq_some_iff.mp found
  have key : q.1 = n := by simpa using List.find?_some first
  have same : q = (n, v) := List.inj_on_of_nodup_map ordered.nodup (List.mem_of_find?_eq_some first)
    member key
  rw [found, same]

/-- Keeping some of the entries keeps a registry ordered. -/
theorem Ordered.filter (ordered : r.Ordered) (p : Nat × HostValue → Bool) :
    ({ r with entries := r.entries.filter p } : Registry).Ordered := by
  have sublist : ({ r with entries := r.entries.filter p } : Registry).handles.Sublist r.handles :=
    List.filter_sublist.map _
  exact ⟨ordered.increasing.sublist sublist, fun x member => ordered.below x (sublist.subset member)⟩

theorem mem_handles_filter_iff {hs : List Nat} :
    n ∈ ({ r with entries := r.entries.filter fun p => p.1 ∉ hs } : Registry).handles ↔
      n ∈ r.handles ∧ n ∉ hs := by
  simp only [handles, List.mem_map, List.mem_filter, decide_eq_true_eq]
  constructor
  · rintro ⟨p, ⟨entry, fresh⟩, rfl⟩
    exact ⟨⟨p, entry, rfl⟩, fresh⟩
  · rintro ⟨⟨p, entry, rfl⟩, fresh⟩
    exact ⟨p, ⟨entry, fresh⟩, rfl⟩

/-- Releasing a list of handles keeps the entries whose handles are not on it. -/
theorem releaseAll_eq (r : Registry) (hs : List Nat) :
    (r.releaseAll hs).2 = { r with entries := r.entries.filter fun p => p.1 ∉ hs } := by
  induction hs generalizing r with
  | nil => simp [releaseAll]
  | cons h rest ih =>
    rcases found : r.find? h with _ | v
    · -- a handle that is not there leaves the entries as they are
      have absent : ∀ p ∈ r.entries, p.1 ≠ h := by
        intro p member same
        have := find?_isSome_iff.mpr (List.mem_map.mpr ⟨p, member, same⟩)
        rw [found] at this
        cases this
      simp only [releaseAll, release_of_find?_none found, ih]
      congr 1
      refine List.filter_congr fun p member => ?_
      simp [absent p member]
    · simp only [releaseAll, release_of_find? found, ih, without, List.filter_filter]
      congr 2
      funext p
      by_cases released : p.1 = h <;> by_cases later : p.1 ∈ rest <;> simp [released, later]

/-- Releasing distinct handles counts those of them the registry holds. -/
theorem releaseAll_count (r : Registry) {hs : List Nat} (nodup : hs.Nodup) :
    (r.releaseAll hs).1 = (hs.filter fun h => h ∈ r.handles).length := by
  induction hs generalizing r with
  | nil => rfl
  | cons h rest ih =>
    obtain ⟨fresh, nodup⟩ := List.nodup_cons.mp nodup
    rcases found : r.find? h with _ | v
    · have absent : h ∉ r.handles := fun member => by
        simpa [found] using find?_isSome_iff.mpr member
      simp [releaseAll, release_of_find?_none found, ih r nodup, absent]
    · have present : h ∈ r.handles := find?_isSome_iff.mp (by simp [found])
      -- releasing `h` first changes no later count, since `h` does not come again
      have same : (rest.filter fun x => x ∈ (r.without h).handles) =
          rest.filter fun x => x ∈ r.handles := by
        refine List.filter_congr fun x member => ?_
        have other : x ≠ h := fun same => fresh (same ▸ member)
        simp only [without, handles]
        refine decide_eq_decide.mpr ⟨fun kept => ?_, fun held => ?_⟩
        · obtain ⟨p, entry, rfl⟩ := List.mem_map.mp kept
          exact List.mem_map_of_mem (List.mem_of_mem_filter entry)
        · obtain ⟨p, entry, rfl⟩ := List.mem_map.mp held
          exact List.mem_map_of_mem (List.mem_filter.mpr ⟨entry, by simpa using other⟩)
      simp [releaseAll, release_of_find? found, ih _ nodup, same, present]

end Registry

theorem HeapObject.mem_references_of_methodOf {o : HeapObject} {suite : ObjectId} {name : String}
    (bound : o.methodOf? = some (suite, name)) : suite ∈ o.references := by
  unfold HeapObject.methodOf? at bound
  split at bound
  · cases bound
    simp [HeapObject.references, *]
  · cases bound

namespace Heap

variable {h : Heap} {roots : List ObjectId} {id r : ObjectId} {o : HeapObject}

/-- What a surviving object refers to survives with it. -/
theorem valid_collect_of_reference (closed : h.Closed) (live : ∀ r ∈ roots, h.Valid r)
    (survives : (h.collect roots).1.Valid id) (found : h.get? id = some o) (member : r ∈ o.references) :
    (h.collect roots).1.Valid r := by
  obtain ⟨-, reach⟩ := (valid_collect_iff_reach closed live).mp survives
  exact (valid_collect_iff_reach closed live).mpr
    ⟨closed _ _ o (get?_eq_some.mp found) r member, .step reach found member⟩

end Heap

namespace Engine

open Heap

variable {e e' : Engine}

/-- The registry and the proxies of the heap correspond: the registry's handles increase along
its entries and stay below its counter, they are exactly the handles the live proxies carry, and
no two live proxies carry the same one. -/
structure Registered (e : Engine) : Prop where
  ordered : e.registry.Ordered
  carried : ∀ n, n ∈ e.registry.handles ↔ ∃ id, e.heap.Proxy id n
  distinct : ∀ {id id' : ObjectId} {n : Nat}, e.heap.Proxy id n → e.heap.Proxy id' n → id = id'

/-- Every live method object is bound to a live proxy whose registry entry is a suite with that
method. -/
def MethodsBound (e : Engine) : Prop :=
  ∀ id suite name, e.heap.Method id suite name →
    ∃ n m, e.heap.Proxy suite n ∧ (n, HostValue.suite m) ∈ e.registry.entries ∧
      (m.find? name).isSome

/-- The correspondence depends on the registry and the proxies alone. -/
theorem Registered.of_proxies (reg : e.Registered) (registry : e'.registry = e.registry)
    (proxies : ∀ id n, e'.heap.Proxy id n ↔ e.heap.Proxy id n) : e'.Registered where
  ordered := registry ▸ reg.ordered
  carried n := by
    rw [registry, reg.carried]
    exact exists_congr fun id => (proxies id n).symm
  distinct first second := reg.distinct ((proxies _ _).mp first) ((proxies _ _).mp second)

/-- Methods stay bound while entries and proxies stay and no method is added. -/
theorem MethodsBound.of_growth (bound : e.MethodsBound)
    (entries : ∀ p ∈ e.registry.entries, p ∈ e'.registry.entries)
    (proxies : ∀ id n, e.heap.Proxy id n → e'.heap.Proxy id n)
    (methods : ∀ id suite name, e'.heap.Method id suite name → e.heap.Method id suite name) :
    e'.MethodsBound := by
  intro id suite name method
  obtain ⟨n, m, proxy, entry, named⟩ := bound _ _ _ (methods _ _ _ method)
  exact ⟨n, m, proxies _ _ proxy, entries _ entry, named⟩

/-- Adopting a host value registers it under the counter, a handle no live proxy carries, and
allocates its proxy. -/
theorem Registered.adopt (reg : e.Registered) (wf : e.heap.WellFormed) (v : HostValue)
    (registry : e'.registry = (e.registry.register v).2)
    (heap : e'.heap = (e.heap.alloc { kind := .hostProxy e.registry.next }).2) : e'.Registered := by
  have proxies : ∀ id n, e'.heap.Proxy id n ↔ e.heap.Proxy id n ∨
      (id = (e.heap.alloc { kind := .hostProxy e.registry.next }).1 ∧ e.registry.next = n) := by
    intro id n
    rw [heap]
    exact (tagged_alloc wf).trans (or_congr_right (and_congr_right fun _ => Option.some_inj))
  -- the counter lies above every registered handle, so no old proxy carries it
  have fresh : ∀ id, ¬e.heap.Proxy id e.registry.next := fun id proxy =>
    lt_irrefl _ (reg.ordered.below _ ((reg.carried _).mpr ⟨id, proxy⟩))
  have handles : e'.registry.handles = e.registry.handles ++ [e.registry.next] := by
    simp [registry, Registry.register, Registry.handles]
  refine ⟨registry ▸ reg.ordered.register v, fun n => ?_, fun first second => ?_⟩
  · rw [handles, List.mem_append, List.mem_singleton, reg.carried]
    simp only [proxies]
    constructor
    · rintro (⟨id, proxy⟩ | rfl)
      · exact ⟨id, .inl proxy⟩
      · exact ⟨_, .inr ⟨rfl, rfl⟩⟩
    · rintro ⟨id, proxy | ⟨-, rfl⟩⟩
      · exact .inl ⟨id, proxy⟩
      · exact .inr rfl
  · rcases (proxies _ _).mp first with first | ⟨rfl, rfl⟩ <;>
      rcases (proxies _ _).mp second with second | ⟨rfl, same⟩
    · exact reg.distinct first second
    · exact absurd (same ▸ first) (fresh _)
    · exact absurd second (fresh _)
    · rfl

/-- A handle a live proxy carries is released by a collection exactly when the proxy is freed. -/
theorem Registered.released_iff (reg : e.Registered) {roots : List ObjectId} {id : ObjectId}
    {n : Nat} (proxy : e.heap.Proxy id n) :
    n ∈ (e.heap.collect roots).2.released ↔ ¬(e.heap.collect roots).1.Valid id := by
  rw [mem_released_iff]
  constructor
  · rintro ⟨id', proxy', freed⟩
    rwa [reg.distinct proxy proxy']
  · exact fun freed => ⟨id, proxy, freed⟩

/-- A collection releases the entries of the proxies it frees and keeps the others. -/
theorem Registered.collect (reg : e.Registered) (safe : e.Safe)
    (heap : e'.heap = (e.heap.collect e.roots).1)
    (registry : e'.registry = (e.registry.releaseAll (e.heap.collect e.roots).2.released).2) :
    e'.Registered := by
  have proxies : ∀ id n, e'.heap.Proxy id n ↔
      e.heap.Proxy id n ∧ (e.heap.collect e.roots).1.Valid id := fun _ _ => by
    rw [heap]
    exact tagged_collect safe.closed (rootsLive_iff.mp safe.roots) fun _ _ => rfl
  rw [Registry.releaseAll_eq] at registry
  refine ⟨registry ▸ reg.ordered.filter _, fun n => ?_, fun first second =>
    reg.distinct ((proxies _ _).mp first).1 ((proxies _ _).mp second).1⟩
  rw [registry, Registry.mem_handles_filter_iff, reg.carried]
  constructor
  · rintro ⟨⟨id, proxy⟩, kept⟩
    exact ⟨id, (proxies _ _).mpr ⟨proxy, not_not.mp (mt (reg.released_iff proxy).mpr kept)⟩⟩
  · rintro ⟨id, proxy'⟩
    obtain ⟨proxy, survives⟩ := (proxies _ _).mp proxy'
    exact ⟨⟨id, proxy⟩, fun released => (reg.released_iff proxy).mp released survives⟩

/-- A collection keeps every surviving method bound: its suite proxy survives with it, and so
does the proxy's entry. -/
theorem MethodsBound.collect (bound : e.MethodsBound) (reg : e.Registered) (safe : e.Safe)
    (heap : e'.heap = (e.heap.collect e.roots).1)
    (registry : e'.registry = (e.registry.releaseAll (e.heap.collect e.roots).2.released).2) :
    e'.MethodsBound := by
  have rooted := rootsLive_iff.mp safe.roots
  intro id suite name method'
  rw [heap] at method' ⊢
  obtain ⟨⟨o, found, bound'⟩, survives⟩ :=
    (tagged_collect safe.closed rooted fun _ _ => rfl).mp method'
  obtain ⟨n, m, proxy, entry, named⟩ := bound _ _ _ ⟨o, found, bound'⟩
  -- the method refers to its suite proxy, which survives with it
  have suiteSurvives := valid_collect_of_reference safe.closed rooted survives found
    (HeapObject.mem_references_of_methodOf bound')
  refine ⟨n, m, (tagged_collect safe.closed rooted fun _ _ => rfl).mpr ⟨proxy, suiteSurvives⟩, ?_,
    named⟩
  rw [registry, Registry.releaseAll_eq]
  exact List.mem_filter.mpr ⟨entry, decide_eq_true fun released =>
    (reg.released_iff proxy).mp released suiteSurvives⟩

/-- Binding a method of a live proxy whose entry is a suite with that method adds a bound
method. -/
theorem MethodsBound.bindMethod (bound : e.MethodsBound) (wf : e.heap.WellFormed)
    {proxy : ObjectId} {name : String} {po : HeapObject} {handle : Nat} {suite : MethodSuite}
    (found : e.heap.get? proxy = some po) (proxied : po.hostHandle? = some handle)
    (entry : (handle, .suite suite) ∈ e.registry.entries) (named : (suite.find? name).isSome)
    (heap : e'.heap = (e.heap.alloc { kind := .function (.method proxy name) }).2)
    (registry : e'.registry = e.registry) : e'.MethodsBound := by
  have proxies : ∀ id n, e.heap.Proxy id n → e'.heap.Proxy id n := fun _ _ proxy => by
    rw [heap]
    exact (tagged_alloc wf).mpr (.inl proxy)
  intro id suite' name' method
  rw [heap] at method
  rcases (tagged_alloc wf).mp method with old | ⟨-, same⟩
  · obtain ⟨n, m, proxy, entry, named⟩ := bound _ _ _ old
    exact ⟨n, m, proxies _ _ proxy, registry ▸ entry, named⟩
  · obtain ⟨rfl, rfl⟩ := Prod.mk.inj (Option.some.inj same)
    exact ⟨handle, suite, proxies _ _ ⟨po, found, proxied⟩, registry ▸ entry, named⟩

/-- A change of one object that keeps its handle and its method keeps every method bound. -/
theorem MethodsBound.modify (bound : e.MethodsBound) {target : ObjectId}
    {f : HeapObject → HeapObject} (heap : e'.heap = e.heap.modify target f)
    (registry : e'.registry = e.registry)
    (kept : ∀ o, e.heap.get? target = some o →
      (f o).hostHandle? = o.hostHandle? ∧ (f o).methodOf? = o.methodOf?) : e'.MethodsBound :=
  bound.of_growth (fun _ entry => registry ▸ entry)
    (fun _ _ proxy => heap ▸ (tagged_modify fun o found => (kept o found).1).mpr proxy)
    fun _ _ _ method => (tagged_modify fun o found => (kept o found).2).mp (heap ▸ method)

/-- Every atomic step keeps the registry and the proxies in correspondence. -/
theorem Registered.step (safe : e.Safe) (reg : e.Registered) (step : e.Step e') : e'.Registered := by
  cases step with
  | reroot heap registry => exact reg.of_proxies registry fun _ _ => by rw [heap]
  | alloc o plain => exact reg.of_proxies rfl fun _ _ => tagged_alloc_of_none safe.wellFormed plain
  | adopt v => exact reg.adopt safe.wellFormed v rfl rfl
  | bindMethod proxy name =>
    exact reg.of_proxies rfl fun _ _ => tagged_alloc_of_none safe.wellFormed rfl
  | edit id f kept => exact reg.of_proxies rfl fun _ _ => tagged_modify fun o found => (kept o found).1
  | setFinalizer id fin => exact reg.of_proxies rfl fun _ _ => tagged_modify fun _ _ => rfl
  | collect => exact reg.collect safe rfl rfl
  | dequeue id => exact reg.of_proxies rfl fun _ _ => Iff.rfl

/-- Every atomic step keeps every method bound, while the registry corresponds to the proxies. -/
theorem MethodsBound.step (safe : e.Safe) (reg : e.Registered) (bound : e.MethodsBound)
    (step : e.Step e') : e'.MethodsBound := by
  have wf := safe.wellFormed
  cases step with
  | reroot heap registry =>
    exact bound.of_growth (fun _ entry => registry ▸ entry) (fun _ _ proxy => heap ▸ proxy)
      fun _ _ _ method => heap ▸ method
  | alloc o _ noMethod =>
    exact bound.of_growth (fun _ entry => entry) (fun _ _ proxy => (tagged_alloc wf).mpr (.inl proxy))
      fun _ _ _ method => (tagged_alloc_of_none wf noMethod).mp method
  | adopt v =>
    exact bound.of_growth (fun _ entry => List.mem_append_left _ entry)
      (fun _ _ proxy => (tagged_alloc wf).mpr (.inl proxy))
      fun _ _ _ method => (tagged_alloc_of_none wf rfl).mp method
  | bindMethod proxy name found proxied entry named =>
    exact bound.bindMethod wf found proxied entry named rfl rfl
  | edit id f kept =>
    exact bound.modify rfl rfl fun o found => ⟨(kept o found).1, (kept o found).2.1⟩
  | setFinalizer id fin => exact bound.modify rfl rfl fun _ _ => ⟨rfl, rfl⟩
  | collect => exact bound.collect reg safe rfl rfl
  | dequeue id =>
    exact bound.of_growth (fun _ entry => entry) (fun _ _ proxy => proxy) fun _ _ _ method => method

/-! ### What the correspondence gives -/

section Registered

variable (reg : e.Registered)
include reg

/-- Looking up the handle of a live proxy never fails. -/
theorem Registered.lookup_ok {id : ObjectId} {n : Nat} (proxy : e.heap.Proxy id n) :
    ∃ v, e.registry.lookup n = .ok v := by
  obtain ⟨v, found⟩ := Option.isSome_iff_exists.mp
    (Registry.find?_isSome_iff.mpr ((reg.carried n).mpr ⟨id, proxy⟩))
  exact ⟨v, by simp [Registry.lookup, found]⟩

/-- The registry holds one entry for each live proxy. -/
theorem Registered.size_eq :
    e.registry.size = (e.heap.objectIds.filter fun id => ((e.heap.get? id).bind HeapObject.hostHandle?).isSome).length := by
  have same : e.registry.handles.Perm e.heap.proxyHandles :=
    (List.perm_ext_iff_of_nodup reg.ordered.nodup (nodup_proxyHandles reg.distinct)).mpr
      fun n => (reg.carried n).trans mem_proxyHandles.symm
  rw [← List.countP_eq_length_filter, ← List.length_filterMap_eq_countP]
  simpa [Registry.size, Registry.handles, proxyHandles] using same.length_eq

/-- Every handle a collection releases is registered. -/
theorem Registered.released_registered {roots : List ObjectId} :
    ∀ n ∈ (e.heap.collect roots).2.released, n ∈ e.registry.handles := fun n released => by
  obtain ⟨id, proxy, -⟩ := mem_released_iff.mp released
  exact (reg.carried n).mpr ⟨id, proxy⟩

/-- Releasing what a collection reports releases one entry for each proxy it frees. -/
theorem Registered.releaseAll_count {roots : List ObjectId} :
    (e.registry.releaseAll (e.heap.collect roots).2.released).1 =
      (e.heap.objectIds.filter fun id =>
        ((e.heap.get? id).bind HeapObject.hostHandle?).isSome ∧ ¬(e.heap.collect roots).1.Valid id).length := by
  have nodup : (e.heap.collect roots).2.released.Nodup := by
    rw [released_collect_eq_handles]
    exact nodup_filterMap_handle reg.distinct (nodup_objectIds.filter _)
  rw [Registry.releaseAll_count _ nodup, List.filter_eq_self.mpr fun n released =>
    decide_eq_true (reg.released_registered n released), released_collect_eq_handles,
    List.length_filterMap_eq_countP, List.countP_eq_length_filter, List.filter_filter]
  congr 2
  funext id
  simp [Bool.and_comm]

end Registered

/-- A live method object of an engine whose methods are bound calls its host body: the lookup
through its suite proxy finds the proxy, its entry and the method. -/
theorem MethodsBound.callSuiteMethod_run (reg : e.Registered) (bound : e.MethodsBound)
    {id suite : ObjectId} {name : String} (method : e.heap.Method id suite name) (d : Evaluator)
    (base : Nat) : ∃ body, (d.callSuiteMethod base suite name).run.run e =
      (d.callHost base name body .variadic).run.run e := by
  obtain ⟨n, m, ⟨po, found, proxied⟩, entry, named⟩ := bound _ _ _ method
  obtain ⟨body, listed⟩ := Option.isSome_iff_exists.mp named
  have lookup := reg.ordered.find?_of_mem entry
  refine ⟨body, ?_⟩
  rw [Evaluator.callSuiteMethod, run_bind, run_get]
  simp [Engine.object?, found, proxied, Registry.lookupAs, lookup, HostValue.kind,
    HostValue.suite?, listed]

/-- A collection releases the entry of a proxy only when it frees the proxy and every method
object bound to it. -/
theorem Registered.released_unbound (reg : e.Registered) (safe : e.Safe) {proxy : ObjectId} {n : Nat} (proxied : e.heap.Proxy proxy n)
    (released : n ∈ (e.heap.collect e.roots).2.released) :
    ¬(e.heap.collect e.roots).1.Valid proxy ∧
      ∀ id name, ¬(e.heap.collect e.roots).1.Method id proxy name := by
  have rooted := rootsLive_iff.mp safe.roots
  have freed := (reg.released_iff proxied).mp released
  refine ⟨freed, fun id name method' => freed ?_⟩
  obtain ⟨⟨o, found, bound'⟩, survives⟩ :=
    (tagged_collect safe.closed rooted fun _ _ => rfl).mp method'
  exact valid_collect_of_reference safe.closed rooted survives found
    (HeapObject.mem_references_of_methodOf bound')

/-! ### The counter -/

/-- A step never moves the counter back, and every handle it leaves registered was registered
before or lies at or above the counter it found. -/
theorem Step.registry_grows (step : e.Step e') :
    e.registry.next ≤ e'.registry.next ∧
      ∀ n ∈ e'.registry.handles, n ∈ e.registry.handles ∨ e.registry.next ≤ n := by
  cases step with
  | reroot _ registry => exact ⟨registry ▸ le_rfl, fun n member => .inl (registry ▸ member)⟩
  | adopt v =>
    refine ⟨Nat.le_succ _, fun n member => ?_⟩
    simp only [Registry.register, Registry.handles, List.map_append, List.mem_append,
      List.map_cons, List.map_nil, List.mem_singleton] at member
    rcases member with old | rfl
    · exact .inl old
    · exact .inr le_rfl
  | collect =>
    simp only [Registry.releaseAll_eq]
    exact ⟨le_rfl, fun n member => .inl (Registry.mem_handles_filter_iff.mp member).1⟩
  | _ => exact ⟨le_rfl, fun n member => .inl member⟩

/-- Along a run of steps the counter never goes back, and a handle below it that is not
registered never is again. -/
theorem Steps.registry_grows (run : e.Steps e') :
    e.registry.next ≤ e'.registry.next ∧
      ∀ n ∈ e'.registry.handles, n ∈ e.registry.handles ∨ e.registry.next ≤ n := by
  induction run with
  | refl => exact ⟨le_rfl, fun n member => .inl member⟩
  | tail _ step ih =>
    obtain ⟨counter, issued⟩ := step.registry_grows
    refine ⟨ih.1.trans counter, fun n member => ?_⟩
    rcases issued n member with earlier | above
    · exact ih.2 n earlier
    · exact .inr (ih.1.trans above)

/-! ### Where sessions start -/

/-- A fresh engine holds the global object and the error constructors only: no object of its
heap carries a tag that none of these carries. -/
theorem fresh_untagged {β : Type} {tag : HeapObject → Option β}
    (plain : tag { kind := .plain } = none)
    (constructor : ∀ k : ErrorKind,
      tag { kind := .function (.host k.name (.errorConstructor k) (.fixed 1)) } = none)
    (props : ∀ o t, tag { o with properties := t } = tag o) (config : Config) (tally : Int)
    (id : ObjectId) (b : β) : ¬(Engine.fresh config tally).heap.Tagged tag id b := by
  have building : ∀ (kinds : List ErrorKind) (acc : List (String × Value) × Heap),
      acc.2.WellFormed → (∀ id b, ¬acc.2.Tagged tag id b) →
        (kinds.foldl Heap.allocConstructor acc).2.WellFormed ∧
          ∀ id b, ¬(kinds.foldl Heap.allocConstructor acc).2.Tagged tag id b := by
    intro kinds
    induction kinds with
    | nil => exact fun _ wf untagged => ⟨wf, untagged⟩
    | cons k rest ih =>
      intro acc wf untagged
      exact ih _ (wellFormed_alloc wf) fun id b tagged =>
        untagged id b ((tagged_alloc_of_none wf (constructor k)).mp tagged)
  have empty : ∀ id b, ¬({} : Heap).Tagged tag id b := by
    rintro id b ⟨o, found, -⟩
    simp [Heap.get?] at found
  obtain ⟨-, untagged⟩ := building ErrorKind.all ([], (({} : Heap).alloc { kind := .plain }).2)
    (wellFormed_alloc wellFormed_empty) fun id b tagged =>
      empty id b ((tagged_alloc_of_none wellFormed_empty plain).mp tagged)
  simp only [Engine.fresh]
  generalize List.foldl Heap.allocConstructor _ ErrorKind.all = built at untagged ⊢
  -- the global object gets its properties, which no tag reads
  exact fun tagged => untagged id b ((tagged_modify fun o _ => props o _).mp tagged)

theorem fresh_registered (config : Config) (tally : Int) : (Engine.fresh config tally).Registered where
  ordered := ⟨List.Pairwise.nil, fun _ member => by simp [Engine.fresh, Registry.handles] at member⟩
  carried n := by
    simp only [Engine.fresh, Registry.handles, List.map_nil, List.not_mem_nil, false_iff, not_exists]
    exact fun id => fresh_untagged rfl (fun _ => rfl) (fun _ _ => rfl) config tally id n
  distinct first := absurd first (fresh_untagged rfl (fun _ => rfl) (fun _ _ => rfl) _ _ _ _)

theorem fresh_methodsBound (config : Config) (tally : Int) : (Engine.fresh config tally).MethodsBound :=
  fun id suite name method =>
    absurd method (fresh_untagged rfl (fun _ => rfl) (fun _ _ => rfl) config tally id (suite, name))

end Engine

/-! ### Sessions -/

/-- The engine of a session after any sequence of steps, and every engine atomic steps reach
from it, is safe, its registry corresponds to its proxies, and its methods are bound. -/
theorem Session.registered_runSteps (config : Config) (steps : List SessionStep) {e : Engine}
    (run : (runSteps Session.run (Session.start config) steps).2.engine.Steps e) :
    e.Safe ∧ e.Registered ∧ e.MethodsBound := by
  have step : ∀ {e e' : Engine}, e.Safe → e.Registered ∧ e.MethodsBound → e.Step e' →
      e'.Registered ∧ e'.MethodsBound :=
    fun safe ⟨reg, bound⟩ step => ⟨reg.step safe step, bound.step safe reg step⟩
  have fresh : ∀ config tally, (Engine.fresh config tally).Registered ∧
      (Engine.fresh config tally).MethodsBound :=
    fun config tally => ⟨Engine.fresh_registered config tally, Engine.fresh_methodsBound config tally⟩
  obtain ⟨sound, inv⟩ := Session.runSteps_invariant fresh step steps (Session.start config)
    (Engine.fresh_sound _ _) (fresh _ _)
  exact ⟨sound.safe.steps run, run.invariant step sound.safe inv⟩

open Heap in
/-- The host registry and the live proxies correspond in every state a session reaches, and in
every engine its operations pass through. The registry's handles are exactly those the live
proxies carry, no two live proxies carry the same handle, and looking up the handle of a live
proxy never fails; the registry holds one entry for each live proxy. A collection releases
only registered handles, one for each proxy it frees. Every registered handle lies below the
counter, which never goes back, and a handle below it that is not registered, such as a
released one, is never registered again. -/
theorem host_registry_tracks_live_proxies (config : Config) (steps : List SessionStep) :
    let e₀ := (runSteps Session.run (Session.start config) steps).2.engine
    ∀ e, e₀.Steps e →
      (∀ n, n ∈ e.registry.handles ↔ ∃ id, e.heap.Proxy id n) ∧
      (∀ id id' n, e.heap.Proxy id n → e.heap.Proxy id' n → id = id') ∧
      (∀ id n, e.heap.Proxy id n → ∃ v, e.registry.lookup n = .ok v) ∧
      e.registry.size = (e.heap.objectIds.filter fun id => ((e.heap.get? id).bind HeapObject.hostHandle?).isSome).length ∧
      (∀ n ∈ (e.heap.collect e.roots).2.released, n ∈ e.registry.handles) ∧
      (e.registry.releaseAll (e.heap.collect e.roots).2.released).1 =
        (e.heap.objectIds.filter fun id =>
          ((e.heap.get? id).bind HeapObject.hostHandle?).isSome ∧ ¬(e.heap.collect e.roots).1.Valid id).length ∧
      (∀ n ∈ e.registry.handles, n < e.registry.next) ∧
      ∀ e', e.Steps e' → e.registry.next ≤ e'.registry.next ∧
        ∀ n < e.registry.next, n ∉ e.registry.handles → n ∉ e'.registry.handles := by
  intro e₀ e run
  obtain ⟨-, reg, -⟩ := Session.registered_runSteps config steps run
  refine ⟨reg.carried, fun _ _ _ => reg.distinct, fun _ _ => reg.lookup_ok, reg.size_eq,
    reg.released_registered, reg.releaseAll_count, reg.ordered.below, fun e' later => ?_⟩
  obtain ⟨counter, issued⟩ := later.registry_grows
  refine ⟨counter, fun n below absent registered => ?_⟩
  rcases issued n registered with earlier | above
  · exact absent earlier
  · omega

open Heap in
/-- Method objects stay bound in every state a session reaches, and in every engine its
operations pass through: the suite of a live method object is a live proxy whose registry entry
is a suite with that method, so calling the method runs its host body, whatever became of the
suite object; and a collection releases the entry of a proxy only when it frees the proxy and
every method object bound to it. -/
theorem suite_methods_stay_bound (config : Config) (steps : List SessionStep) :
    let e₀ := (runSteps Session.run (Session.start config) steps).2.engine
    ∀ e, e₀.Steps e →
      (∀ id suite name, e.heap.Method id suite name →
        (∃ n m, e.heap.Proxy suite n ∧ (n, HostValue.suite m) ∈ e.registry.entries ∧
          (m.find? name).isSome) ∧
        ∀ (d : Evaluator) base, ∃ body, (d.callSuiteMethod base suite name).run.run e =
          (d.callHost base name body .variadic).run.run e) ∧
      ∀ proxy n, e.heap.Proxy proxy n → n ∈ (e.heap.collect e.roots).2.released →
        ¬(e.heap.collect e.roots).1.Valid proxy ∧
          ∀ id name, ¬(e.heap.collect e.roots).1.Method id proxy name := by
  intro e₀ e run
  obtain ⟨safe, reg, bound⟩ := Session.registered_runSteps config steps run
  exact ⟨fun _ _ _ method => ⟨bound _ _ _ method, bound.callSuiteMethod_run reg method⟩,
    fun _ _ proxied released => reg.released_unbound safe proxied released⟩

end EmbedScript
