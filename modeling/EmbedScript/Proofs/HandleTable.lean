import Mathlib.Data.Finmap
import Mathlib.Data.Finset.Sort
import EmbedScript.Session.Step

/-!
The registry is a finite map with a counter of fresh handles. `HandleTable` says so directly,
with a `Finmap` from handles to values and the next handle to issue: registering stores the value
under the next handle and moves the counter on, releasing erases a handle that is present and
otherwise fails with nothing changed, and every query reads the map. A registry whose handles
increase along its entries and stay below its counter stands for the table of its entries, and
each operation keeps that order and does to the table what the table's own operation does. So
from a fresh registry every sequence of operations answers as the table does, and the handles
it issues increase.
-/

namespace EmbedScript

/-- Runs operations in order from a state, collecting what each of them gives. -/
def runSteps {σ α ω : Type} (step : σ → α → ω × σ) : σ → List α → List ω × σ
  | s, [] => ([], s)
  | s, a :: as =>
    let (o, s') := step s a
    let (os, s'') := runSteps step s' as
    (o :: os, s'')

/-- A machine that another one simulates step by step, through an abstraction that an invariant
carries, gives the same answers over every run and ends where the other one does. -/
theorem runSteps_simulate {σ τ α ω : Type} {step : σ → α → ω × σ} {spec : τ → α → ω × τ}
    {abs : σ → τ} {Inv : σ → Prop}
    (sim : ∀ s a, Inv s → (step s a).1 = (spec (abs s) a).1 ∧
      abs (step s a).2 = (spec (abs s) a).2 ∧ Inv (step s a).2)
    (as : List α) : ∀ s, Inv s → (runSteps step s as).1 = (runSteps spec (abs s) as).1 ∧
      abs (runSteps step s as).2 = (runSteps spec (abs s) as).2 := by
  induction as with
  | nil => exact fun _ _ => ⟨rfl, rfl⟩
  | cons a as ih =>
    intro s inv
    obtain ⟨answer, moved, inv'⟩ := sim s a inv
    obtain ⟨answers, final⟩ := ih (step s a).2 inv'
    rw [moved] at answers final
    simp only [runSteps, answer, answers, final, and_self]

/-- A finite map from handles to host values, and the next handle to issue. -/
structure HandleTable where
  map : Finmap fun _ : Nat => HostValue
  next : Nat

namespace HandleTable

/-- The table of a fresh registry: nothing stored, handles issued from 1. -/
def empty : HandleTable := ⟨∅, 1⟩

/-- What an operation answers and what it leaves of the table. -/
def step (t : HandleTable) : RegistryStep → Except Error Outcome × HandleTable
  | .register v => (.ok (.int t.next), ⟨t.map.insert t.next v, t.next + 1⟩)
  | .release h =>
    match t.map.lookup h with
    | some v => (.ok v.outcome, { t with map := t.map.erase h })
    | none => (.error (.notFound h), t)
  | .lookup h .any => (if h ∈ t.map then .ok (.bool true) else .error (.notFound h), t)
  | .lookup h (.as kind) =>
    (match t.map.lookup h with
      | none => .error (.notFound h)
      | some v =>
        if v.kind = kind then .ok v.outcome
        else .error (.typeMismatch kind.typeName v.kind.typeName), t)
  | .contains h => (.ok (.bool (decide (h ∈ t.map))), t)
  | .typeName h =>
    (match t.map.lookup h with
      | none => .error (.notFound h)
      | some v => .ok (.text v.kind.typeName), t)
  | .len => (.ok (.int t.map.keys.card), t)
  | .isEmpty => (.ok (.bool (decide (t.map.keys = ∅))), t)
  | .handles => (.ok (.naturals (t.map.keys.sort (· ≤ ·))), t)

/-- The handles that the registrations of a run answer, in order. -/
def issued : List RegistryStep → List (Except Error Outcome) → List Int
  | .register _ :: ops, .ok (.int h) :: answers => h :: issued ops answers
  | _ :: ops, _ :: answers => issued ops answers
  | _, _ => []

/-- Only a registration moves the counter. -/
theorem next_step (t : HandleTable) {op : RegistryStep} (other : ∀ v, op ≠ .register v) :
    (t.step op).2.next = t.next := by
  cases op with
  | register v => exact absurd rfl (other v)
  | release h =>
    simp only [step]
    split <;> rfl
  | lookup h kind => cases kind <;> rfl
  | _ => rfl

/-- Over a run the counter never goes back. -/
theorem next_le_run (ops : List RegistryStep) :
    ∀ t : HandleTable, t.next ≤ (runSteps step t ops).2.next := by
  induction ops with
  | nil => exact fun _ => le_refl _
  | cons op ops ih =>
    intro t
    have later := ih (t.step op).2
    simp only [runSteps]
    cases op with
    | register v =>
      simp only [step] at later ⊢
      omega
    | _ =>
      rw [next_step t fun _ same => by cases same] at later
      exact later

/-- The handles a run issues increase, and each lies between the counter the run starts from
and the one it ends with. -/
theorem issued_increasing (ops : List RegistryStep) : ∀ t : HandleTable,
    (issued ops (runSteps step t ops).1).Pairwise (· < ·) ∧
      ∀ h ∈ issued ops (runSteps step t ops).1,
        (t.next : Int) ≤ h ∧ h < ((runSteps step t ops).2.next : Int) := by
  induction ops with
  | nil => intro t; simp [runSteps, issued]
  | cons op ops ih =>
    intro t
    obtain ⟨increasing, bounds⟩ := ih (t.step op).2
    have final := next_le_run ops (t.step op).2
    cases op with
    | register v =>
      -- the handle answered now is the counter, and every later one lies above it
      simp only [runSteps, step, issued] at increasing bounds final ⊢
      refine ⟨List.pairwise_cons.mpr ⟨fun h member => ?_, increasing⟩, fun h member => ?_⟩
      · have := (bounds h member).1
        omega
      · rcases List.mem_cons.mp member with rfl | later
        · omega
        · have := bounds h later
          omega
    | _ =>
      rw [next_step t fun _ same => by cases same] at bounds
      simpa only [runSteps, issued] using ⟨increasing, bounds⟩

end HandleTable

namespace Registry

/-- An entry as an element of a finite map. -/
def entry (p : Nat × HostValue) : Σ _ : Nat, HostValue := ⟨p.1, p.2⟩

/-- The table a registry stands for: its entries as a finite map, and its counter. -/
def table (r : Registry) : HandleTable := ⟨(r.entries.map entry).toFinmap, r.next⟩

/-- The handles of a registry increase along its entries and stay below its counter. -/
structure Ordered (r : Registry) : Prop where
  increasing : r.handles.Pairwise (· < ·)
  below : ∀ h ∈ r.handles, h < r.next

variable {r : Registry} {h : Nat}

theorem find?_eq_dlookup (entries : List (Nat × HostValue)) (h : Nat) :
    ({ entries } : Registry).find? h = (entries.map entry).dlookup h := by
  induction entries with
  | nil => rfl
  | cons p rest ih =>
    by_cases same : p.1 = h
    · simp [find?, entry, same]
    · rw [List.map_cons, List.dlookup_cons_ne _ _ (Ne.symm same), ← ih]
      simp [find?, same]

/-- Looking a handle up in the table is looking it up in the registry. -/
theorem lookup_table : r.table.map.lookup h = r.find? h := by
  rw [table, Finmap.dlookup_list_toFinmap, ← find?_eq_dlookup r.entries h]
  rfl

theorem mem_table : h ∈ r.table.map ↔ h ∈ r.handles := by
  simp [table, handles, Finmap.mem_list_toFinmap, entry]

theorem keys_table : r.table.map.keys = r.handles.toFinset := by
  ext h
  rw [Finmap.mem_keys, mem_table, List.mem_toFinset]

theorem find?_isSome_iff : (r.find? h).isSome ↔ h ∈ r.handles := by
  rw [← lookup_table, ← Finmap.mem_iff.trans Option.isSome_iff_exists.symm, mem_table]

theorem Ordered.nodup (ordered : r.Ordered) : r.handles.Nodup :=
  ordered.increasing.imp Nat.ne_of_lt

/-- The size of a registry is the number of handles in its table. -/
theorem Ordered.size_eq (ordered : r.Ordered) : r.size = r.table.map.keys.card := by
  rw [keys_table, List.toFinset_card_of_nodup ordered.nodup]
  simp [size, handles]

/-- Sorting the handles of a registry lists the keys of its table in increasing order. -/
theorem Ordered.handles_sorted (ordered : r.Ordered) :
    r.handles.mergeSort (· ≤ ·) = r.table.map.keys.sort (· ≤ ·) := by
  have weak : r.handles.Pairwise (· ≤ ·) := ordered.increasing.imp Nat.le_of_lt
  rw [List.mergeSort_eq_self _ weak, keys_table,
    (List.toFinset_sort (· ≤ ·) ordered.nodup).mpr weak]

/-! ### Registering and releasing -/

theorem Ordered.find?_next (ordered : r.Ordered) : r.find? r.next = none := by
  rw [← Option.not_isSome_iff_eq_none, find?_isSome_iff]
  exact fun member => lt_irrefl _ (ordered.below _ member)

theorem find?_register (ordered : r.Ordered) (v : HostValue) (x : Nat) :
    (r.register v).2.find? x = if x = r.next then some v else r.find? x := by
  have fresh := ordered.find?_next
  simp only [find?, Option.map_eq_none_iff] at fresh
  by_cases same : x = r.next
  · subst same
    simp [register, find?, List.find?_append, fresh]
  · simp [register, find?, List.find?_append, same, Ne.symm same]

/-- Registering stores the value under the counter, which moves on. -/
theorem Ordered.table_register (ordered : r.Ordered) (v : HostValue) :
    (r.register v).2.table = ⟨r.table.map.insert r.next v, r.next + 1⟩ := by
  have map : (r.register v).2.table.map = r.table.map.insert r.next v := by
    refine Finmap.ext_lookup fun x => ?_
    rw [lookup_table, find?_register ordered]
    by_cases same : x = r.next
    · rw [if_pos same, same, Finmap.lookup_insert]
    · rw [if_neg same, Finmap.lookup_insert_of_ne _ same, lookup_table]
  exact congrArg₂ HandleTable.mk map rfl

theorem Ordered.register (ordered : r.Ordered) (v : HostValue) : (r.register v).2.Ordered := by
  have handles : (r.register v).2.handles = r.handles ++ [r.next] := by
    simp [Registry.register, handles]
  constructor
  · rw [handles, List.pairwise_append]
    exact ⟨ordered.increasing, List.pairwise_singleton _ _,
      fun h member _ same => (List.mem_singleton.mp same) ▸ ordered.below h member⟩
  · rw [handles]
    intro h member
    rcases List.mem_append.mp member with old | now
    · exact Nat.lt_succ_of_lt (ordered.below h old)
    · rw [List.mem_singleton.mp now]
      exact Nat.lt_succ_self _

/-- The registry left after releasing a handle. -/
def without (r : Registry) (h : Nat) : Registry := { r with entries := r.entries.filter (·.1 != h) }

theorem release_of_find? {v : HostValue} (found : r.find? h = some v) :
    r.release h = .ok (v, r.without h) := by
  simp [release, found, without]

theorem release_of_find?_none (missing : r.find? h = none) : r.release h = .error (.notFound h) := by
  simp [release, missing]

theorem find?_without (x : Nat) : (r.without h).find? x = if x = h then none else r.find? x := by
  simp only [without, find?, List.find?_filter]
  by_cases same : x = h
  · subst same
    simp
  · rw [if_neg same]
    congr 2
    funext p
    by_cases key : p.1 = x
    · simp [key, same]
    · simp [key]

/-- Releasing a handle erases it from the table and leaves the counter. -/
theorem table_without : (r.without h).table = { r.table with map := r.table.map.erase h } := by
  have map : (r.without h).table.map = r.table.map.erase h := by
    refine Finmap.ext_lookup fun x => ?_
    rw [lookup_table, find?_without]
    by_cases same : x = h
    · rw [if_pos same, same, Finmap.lookup_erase]
    · rw [if_neg same, Finmap.lookup_erase_ne same, lookup_table]
  exact congrArg₂ HandleTable.mk map rfl

theorem Ordered.without (ordered : r.Ordered) : (r.without h).Ordered := by
  have sublist : (r.without h).handles.Sublist r.handles :=
    List.filter_sublist.map _
  exact ⟨ordered.increasing.sublist sublist, fun x member => ordered.below x (sublist.subset member)⟩

end Registry

/-! ### Every operation is the table's -/

namespace RegistryStep

open Registry

variable {r : Registry}

/-- An operation on an ordered registry answers as the table's operation does, leaves the table
that operation leaves, and keeps the registry ordered. -/
theorem run_table (ordered : r.Ordered) (op : RegistryStep) :
    (run r op).1 = (r.table.step op).1 ∧ (run r op).2.table = (r.table.step op).2 ∧
      (run r op).2.Ordered := by
  cases op with
  | register v => exact ⟨rfl, ordered.table_register v, ordered.register v⟩
  | release h =>
    rcases found : r.find? h with _ | v
    · simp [run, HandleTable.step, release_of_find?_none found, lookup_table, found, ordered]
    · simp [run, HandleTable.step, release_of_find? found, lookup_table, found, table_without,
        ordered.without]
  | lookup h kind =>
    refine ⟨?_, by cases kind <;> rfl, by cases kind <;> exact ordered⟩
    rcases found : r.find? h with _ | v
    · cases kind <;> simp [run, HandleTable.step, Registry.lookup, lookupAs, found, lookup_table,
        Finmap.mem_iff, Except.map]
    · cases kind with
      | any => simp [run, HandleTable.step, Registry.lookup, found, Finmap.mem_iff, lookup_table,
          Except.map]
      | as kind =>
        simp only [run, HandleTable.step, lookupAs, found, lookup_table, beq_iff_eq]
        split <;> rfl
  | contains h =>
    refine ⟨?_, rfl, ordered⟩
    simp only [run, HandleTable.step, Registry.contains, mem_table]
    congr 2
    rw [Bool.eq_iff_iff, decide_eq_true_iff, find?_isSome_iff]
  | typeName h =>
    refine ⟨?_, rfl, ordered⟩
    rcases found : r.find? h with _ | v <;>
      simp [run, HandleTable.step, Registry.typeName, Registry.lookup, found, lookup_table,
        Except.map]
  | len => exact ⟨by simp [run, HandleTable.step, ordered.size_eq], rfl, ordered⟩
  | isEmpty =>
    refine ⟨?_, rfl, ordered⟩
    simp only [run, HandleTable.step, ordered.size_eq]
    congr 2
    rw [Bool.eq_iff_iff, beq_iff_eq, decide_eq_true_iff, Finset.card_eq_zero]
  | handles => exact ⟨by simp [run, HandleTable.step, ordered.handles_sorted], rfl, ordered⟩

end RegistryStep

/-- The registry refines a finite map with a counter of fresh handles: from a fresh registry,
every sequence of operations answers as the table does and leaves the registry standing for the
table it leaves, and the handles it issues increase. -/
theorem registry_refines_handle_table (ops : List RegistryStep) :
    (runSteps RegistryStep.run {} ops).1 = (runSteps HandleTable.step .empty ops).1 ∧
      (runSteps RegistryStep.run {} ops).2.table = (runSteps HandleTable.step .empty ops).2 ∧
      (HandleTable.issued ops (runSteps RegistryStep.run {} ops).1).Pairwise (· < ·) := by
  have fresh : ({} : Registry).Ordered :=
    ⟨List.Pairwise.nil, fun _ member => by simp [Registry.handles] at member⟩
  have start : ({} : Registry).table = .empty := by
    simp [Registry.table, HandleTable.empty, Finmap.toFinmap_nil]
  obtain ⟨answers, final⟩ :=
    runSteps_simulate (fun (r : Registry) op (ordered : r.Ordered) => RegistryStep.run_table ordered op)
      ops {} fresh
  rw [start] at answers final
  exact ⟨answers, final, answers ▸ (HandleTable.issued_increasing ops .empty).1⟩

end EmbedScript
