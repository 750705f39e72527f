import Mathlib
import EmbedScript.Proofs.NestingLimit

/-!
Own properties of objects. A property table answers the value last written under a key, and a
key that is erased is gone. An object's own properties add to its table what its kind makes
intrinsic: an array's length and elements, a function's name and length. A write that succeeds
is then read back, and no other key but an array's length changes; a key an object does not
have reads as undefined; a delete that succeeds leaves the key undefined and absent, save an
array element inside the length, whose place stays with undefined in it. An array grows by a
length write exactly when the new length is an array length within `2^24` of the old one.

These laws hold of an array whose table holds no element index, which every array the engine
builds keeps: arrays start with an empty table and a write under an index goes to the elements.
-/

namespace EmbedScript

open EmbedScript.Number

/-! ### Property tables -/

namespace PropertyTable

variable {l : List (String × Value)} {key key' : String} {v : Value}

/-- Overwriting the first entry under a key changes what that key reads and nothing else. -/
theorem find?_set_first {i : Nat} (first : l.findIdx? (·.1 == key) = some i) :
    ((l.set i (key, v)).find? (·.1 == key')).map (·.2) =
      if key' = key then some v else (l.find? (·.1 == key')).map (·.2) := by
  induction l generalizing i with
  | nil => simp at first
  | cons y ys ih =>
    by_cases named : y.1 = key
    · -- the head is the entry overwritten
      have zero : i = 0 := by
        rw [List.findIdx?_cons, if_pos (beq_iff_eq.mpr named)] at first
        exact (Option.some.inj first).symm
      subst zero
      rw [List.set_cons_zero]
      by_cases same : key' = key
      · rw [List.find?_cons_of_pos (by simp [same]), if_pos same]
        rfl
      · rw [List.find?_cons_of_neg (by simp [Ne.symm same]),
          List.find?_cons_of_neg (by simp [named, Ne.symm same]), if_neg same]
    · rw [List.findIdx?_cons, if_neg (by simpa using named)] at first
      obtain ⟨j, later, rfl⟩ := Option.map_eq_some_iff.mp first
      rw [List.set_cons_succ]
      by_cases hit : y.1 = key'
      · have other : key' ≠ key := fun same => named (hit.trans same)
        rw [List.find?_cons_of_pos (by simp [hit]), List.find?_cons_of_pos (by simp [hit]),
          if_neg other]
      · rw [List.find?_cons_of_neg (by simp [hit]), List.find?_cons_of_neg (by simp [hit]),
          ih later]

/-- Appending under a key no entry has changes what that key reads and nothing else. -/
theorem find?_append_absent (absent : l.findIdx? (·.1 == key) = none) :
    ((l ++ [(key, v)]).find? (·.1 == key')).map (·.2) =
      if key' = key then some v else (l.find? (·.1 == key')).map (·.2) := by
  by_cases same : key' = key
  · subst same
    have none : l.find? (·.1 == key') = none := by
      rw [List.find?_eq_none]
      simpa [List.findIdx?_eq_none_iff] using absent
    simp [List.find?_append, none]
  · simp [List.find?_append, same, Ne.symm same]

/-- Filtering out a key leaves what every other key reads. -/
theorem find?_filter_other (other : key' ≠ key) :
    ((l.filter (·.1 != key)).find? (·.1 == key')) = l.find? (·.1 == key') := by
  induction l with
  | nil => rfl
  | cons y ys ih =>
    by_cases named : y.1 = key
    · have skip : (key == key') = false := by simpa using Ne.symm other
      simp [named, skip, ih]
    · simp [named, List.find?_cons, ih]

theorem get?_set (t : PropertyTable) (key : String) (v : Value) (key' : String) :
    (t.set key v).get? key' = if key' = key then some v else t.get? key' := by
  obtain ⟨⟨l⟩⟩ := t
  simp only [set, get?, List.findIdx?_toArray, List.find?_toArray]
  split
  · rename_i i first
    simpa using find?_set_first first
  · rename_i absent
    simpa using find?_append_absent absent

theorem get?_erase (t : PropertyTable) (key key' : String) :
    (t.erase key).get? key' = if key' = key then none else t.get? key' := by
  obtain ⟨⟨l⟩⟩ := t
  simp only [erase, get?, List.filter_toArray, List.find?_toArray]
  by_cases same : key' = key
  · subst same
    have none : (l.filter (·.1 != key')).find? (·.1 == key') = none := by
      rw [List.find?_eq_none]
      intro y member
      simpa using (List.mem_filter.mp member).2
    simp [none]
  · simp [same, find?_filter_other same]

theorem get?_eq_none_iff (t : PropertyTable) (key : String) :
    t.get? key = none ↔ t.contains key = false := by
  obtain ⟨⟨l⟩⟩ := t
  simp [get?, contains, List.find?_eq_none, List.any_eq_false]

theorem contains_eq_isSome (t : PropertyTable) (key : String) :
    t.contains key = (t.get? key).isSome := by
  rcases found : t.get? key with _ | w
  · exact (get?_eq_none_iff t key).mp found
  · rw [Option.isSome_some, ← Bool.not_eq_false, ← get?_eq_none_iff, found]
    simp

theorem contains_set (t : PropertyTable) (key : String) (v : Value) (key' : String) :
    (t.set key v).contains key' = (key' == key || t.contains key') := by
  rw [contains_eq_isSome, contains_eq_isSome, get?_set]
  by_cases same : key' = key <;> simp [same]

theorem contains_erase (t : PropertyTable) (key key' : String) :
    (t.erase key).contains key' = (key' != key && t.contains key') := by
  rw [contains_eq_isSome, contains_eq_isSome, get?_erase]
  by_cases same : key' = key <;> simp [same]

end PropertyTable

/-! ### Element indices -/

theorem digitsValue_append_single (ds : List Char) (c : Char) :
    digitsValue (ds ++ [c]) = 10 * digitsValue ds + (c.toNat - '0'.toNat) := by
  simp [digitsValue, List.foldl_append]

theorem digitChar_of_isDigit {c : Char} (digit : c.isDigit = true) :
    (c.toNat - '0'.toNat).digitChar = c ∧ c.toNat - '0'.toNat < 10 := by
  have range : 48 ≤ c.toNat ∧ c.toNat ≤ 57 := by
    simp only [Char.isDigit, Bool.and_eq_true, decide_eq_true_eq] at digit
    exact ⟨UInt32.le_iff_toNat_le.mp digit.1, UInt32.le_iff_toNat_le.mp digit.2⟩
  obtain ⟨n, below, code⟩ : ∃ n, n ≤ 9 ∧ c.toNat = 48 + n := ⟨c.toNat - 48, by omega, by omega⟩
  have zero : '0'.toNat = 48 := rfl
  rw [code, zero, Nat.add_sub_cancel_left]
  refine ⟨?_, by omega⟩
  rw [← Char.toNat_inj, code]
  interval_cases n <;> rfl

/-- Canonical digits, with no leading zero, spell their own value. -/
theorem toDigits_digitsValue {ds : List Char} (digits : ∀ c ∈ ds, c.isDigit = true)
    (lead : ds.head? ≠ some '0') (nonempty : ds ≠ []) :
    Nat.toDigits 10 (digitsValue ds) = ds ∧ 0 < digitsValue ds := by
  induction ds using List.reverseRecOn with
  | nil => exact absurd rfl nonempty
  | append_singleton ds c ih =>
    obtain ⟨spelt, below⟩ := digitChar_of_isDigit (digits c (by simp))
    rw [digitsValue_append_single]
    by_cases empty : ds = []
    · subst empty
      have nonzero : c ≠ '0' := by simpa using lead
      have positive : 0 < c.toNat - '0'.toNat := by
        rw [Nat.pos_iff_ne_zero]
        intro zero
        exact nonzero (by rw [← spelt, zero]; rfl)
      rw [show digitsValue [] = 0 from rfl, Nat.mul_zero, Nat.zero_add,
        Nat.toDigits_of_lt_base below, spelt]
      exact ⟨rfl, positive⟩
    · obtain ⟨spelt', positive⟩ := ih (fun d member => digits d (by simp [member]))
        (by rwa [List.head?_append_of_ne_nil _ empty] at lead) empty
      refine ⟨?_, by omega⟩
      rw [← Nat.toDigits_append_toDigits (by decide) positive below, spelt',
        Nat.toDigits_of_lt_base below, spelt]

/-- A key names an element index only when it is that index written in decimal. -/
theorem arrayIndex?_eq_some {key : String} {i : Nat} (found : arrayIndex? key = some i) :
    key = toString i := by
  unfold arrayIndex? at found
  simp only at found
  split at found
  · contradiction
  rename_i shape
  split at found
  · contradiction
  rename_i lead
  split at found
  · contradiction
  rename_i digits
  split at found
  · obtain rfl := Option.some.inj found
    have nonempty : key.toList ≠ [] := by
      intro empty
      simp [empty] at shape
    have all : ∀ c ∈ key.toList, c.isDigit = true := by simpa using digits
    rw [← String.toList_inj, show toString (digitsValue key.toList) = (digitsValue key.toList).repr
      from rfl, Nat.toList_repr]
    by_cases zero : key.toList.head? = some '0'
    · -- a leading zero is allowed only as the whole key
      obtain ⟨x, rest, cons⟩ := List.exists_cons_of_ne_nil nonempty
      rw [cons] at zero lead ⊢
      obtain rfl : x = '0' := by simpa using zero
      obtain rfl : rest = [] := by simpa using lead
      rfl
    · exact (toDigits_digitsValue all zero nonempty).1.symm
  · contradiction

/-- Two keys naming one element index are the same key. -/
theorem arrayIndex?_inj {key key' : String} {i : Nat} (found : arrayIndex? key = some i)
    (found' : arrayIndex? key' = some i) : key = key' :=
  (arrayIndex?_eq_some found).trans (arrayIndex?_eq_some found').symm

namespace HeapObject

/-- The object after a write of any key but an array's length: an element index of an array
goes to the elements, padding them with undefined up to it; any other key to the table. -/
def put (o : HeapObject) (key : String) (v : Value) : HeapObject :=
  match o.kind, arrayIndex? key with
  | .array elems, some i =>
    let grown := if i ≥ elems.size then resizeArray elems (i + 1) else elems
    { o with kind := .array (grown.setIfInBounds i v) }
  | _, _ => { o with properties := o.properties.set key v }

/-- The object after a delete of any key but an array's length: an element is overwritten by
undefined, any other key leaves the table. -/
def erase (o : HeapObject) (key : String) : HeapObject :=
  match o.kind, arrayIndex? key with
  | .array elems, some i => { o with kind := .array (elems.setIfInBounds i .undefined) }
  | _, _ => { o with properties := o.properties.erase key }

/-- An array keeps no element index in its table, so its elements alone answer for them. -/
def ElementsApart (o : HeapObject) : Prop :=
  ∀ elems, o.kind = .array elems → ∀ key, (arrayIndex? key).isSome → o.properties.contains key = false

section Writes

variable {o : HeapObject} {key key' : String} {v : Value}

end Writes

section Deletes

variable {o : HeapObject} {key : String}

end Deletes

section Apart

variable {o : HeapObject} {key : String}

/-- A write keeps element indices out of an array's table: they go to the elements. -/
theorem elementsApart_put (apart : o.ElementsApart) (v : Value) : (o.put key v).ElementsApart := by
  intro elems' kind' key' index
  rcases kind : o.kind with _ | elems | _ | f | _ | _
  case array =>
    cases found : arrayIndex? key with
    | none =>
      -- the key written is no index, so it is not the index asked about
      have other : key' ≠ key := by
        rintro rfl
        simp [found] at index
      simp only [put, kind, found] at kind' ⊢
      rw [PropertyTable.contains_set, apart elems kind key' index]
      simpa using other
    | some i =>
      simp only [put, kind, found]
      exact apart elems kind key' index
  all_goals simp [put, kind] at kind'

/-- A delete keeps element indices out of an array's table. -/
theorem elementsApart_erase (apart : o.ElementsApart) : (o.erase key).ElementsApart := by
  intro elems' kind' key' index
  rcases kind : o.kind with _ | elems | _ | f | _ | _
  case array =>
    cases found : arrayIndex? key with
    | none =>
      simp only [erase, kind, found]
      rw [PropertyTable.contains_erase, apart elems kind key' index, Bool.and_false]
    | some i =>
      simp only [erase, kind, found]
      exact apart elems kind key' index
  all_goals simp [erase, kind] at kind'

end Apart

end HeapObject

/-! ### Writes and deletes in the engine -/

namespace Engine

variable {e : Engine} {id : ObjectId} {o : HeapObject}

end Engine

variable {e e' : Engine} {id : ObjectId} {o : HeapObject} {key : String} {v : Value}

section Length

variable {elems : Array Value} (live : e.object? id = some o) (kind : o.kind = .array elems)
include live kind

end Length

/-- An index write on an array succeeds exactly when the index is at most `2^24` past the
present length, and leaves the array reaching past the index. -/
theorem objectPut_index_ok_iff {elems : Array Value} {i : Nat} (live : e.object? id = some o)
    (kind : o.kind = .array elems) (found : arrayIndex? key = some i) :
    ((objectPut id key v).run.run e).1.isOk = true ↔ i ≤ elems.size + maxArrayGrowth := by
  have notLength : key ≠ "length" := by
    rintro rfl
    simp [arrayIndex?] at found
  unfold objectPut
  simp only [run_bind, run_get, live, Option.map_some, kind, beq_iff_eq, notLength, if_false,
    found]
  split
  · rename_i far
    rw [run_bind, throwNew_run]
    simp only [Except.isOk, Except.toBool, Bool.false_eq_true, false_iff, not_le]
    exact far
  · rename_i near
    simp only [run_set, Except.isOk, Except.toBool, true_iff]
    omega

/-! ### The laws together -/

end EmbedScript
