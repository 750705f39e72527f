import Mathlib
import EmbedScript.Proofs.IndexKeys
import EmbedScript.Engine.Interface

/-!
Strings indexed by UTF-16 units. A string is kept as its characters and measured in units: its
length is the sum of its characters' widths, one unit below U+10000 and a surrogate pair above,
which is the length of its UTF-16 encoding. The character at a unit offset is the one that
starts there; an offset on the second unit of a pair, or past the end, holds none. So reading
every offset in turn gives the characters back, each once and in order, and a script's
`length`, its index properties and the keys of a `for-in` over a string, like the length the
stack interface reports, all read this one view.
-/

namespace EmbedScript.Text

/-- The unit offset at which the `k`-th character starts: the widths of the characters before
it. -/
def unitOffset (cs : List Char) (k : Nat) : Nat := ((cs.take k).map unitWidth).sum

/-- Character `c` of the list starts at unit offset `i`. -/
def StartsAt (cs : List Char) (c : Char) (i : Nat) : Prop :=
  ∃ k, cs[k]? = some c ∧ unitOffset cs k = i

theorem one_le_unitWidth (c : Char) : 1 ≤ unitWidth c := by
  unfold unitWidth
  split <;> omega

theorem unitWidth_le_two (c : Char) : unitWidth c ≤ 2 := by
  unfold unitWidth
  split <;> omega

/-- The width of a character is the number of units its UTF-16 encoding takes. -/
theorem length_charUnits (c : Char) : (charUnits c).length = unitWidth c := by
  unfold charUnits unitWidth
  by_cases small : c.val < 0x10000
  · have : c.toNat < 0x10000 := UInt32.lt_iff_toNat_lt.mp small
    simp [small, this]
  · have : ¬c.toNat < 0x10000 := fun h => small (UInt32.lt_iff_toNat_lt.mpr h)
    simp [small, this]

theorem unitLength_eq_sum (s : String) : unitLength s = (s.toList.map unitWidth).sum := by
  unfold unitLength
  rw [String.foldl_eq_foldl_toList, ← List.foldl_map, List.sum_eq_foldl]

theorem length_units (s : String) : (units s).length = unitLength s := by
  simp [units, unitLength_eq_sum, List.length_flatMap, length_charUnits]

@[simp] theorem unitOffset_zero (cs : List Char) : unitOffset cs 0 = 0 := by
  simp [unitOffset]

@[simp] theorem unitOffset_cons_succ (d : Char) (ds : List Char) (k : Nat) :
    unitOffset (d :: ds) (k + 1) = unitWidth d + unitOffset ds k := by
  simp [unitOffset]

theorem not_startsAt_nil (c : Char) (i : Nat) : ¬StartsAt [] c i := by
  rintro ⟨k, found, -⟩
  simp at found

/-- The first character starts at zero; the others start one width further on than they do in
the rest of the list. -/
theorem startsAt_cons {d c : Char} {ds : List Char} {i : Nat} :
    StartsAt (d :: ds) c i ↔ (c = d ∧ i = 0) ∨ (unitWidth d ≤ i ∧ StartsAt ds c (i - unitWidth d)) := by
  constructor
  · rintro ⟨k, found, rfl⟩
    cases k with
    | zero =>
      simp only [List.getElem?_cons_zero, Option.some.injEq] at found
      exact .inl ⟨found.symm, unitOffset_zero _⟩
    | succ k =>
      refine .inr ⟨by simp, k, by simpa using found, by simp⟩
  · rintro (⟨rfl, rfl⟩ | ⟨enough, k, found, offset⟩)
    · exact ⟨0, rfl, unitOffset_zero _⟩
    · exact ⟨k + 1, by simpa using found, by simp only [unitOffset_cons_succ]; omega⟩

/-- An offset one width on from the first character is read in the rest of the list. -/
theorem charAtUnit_cons_add (d : Char) (ds : List Char) (j : Nat) :
    charAtUnit (d :: ds) (unitWidth d + j) = charAtUnit ds j := by
  have := one_le_unitWidth d
  rw [charAtUnit, if_neg (by omega), if_neg (by omega), Nat.add_sub_cancel_left]

/-- The character read at an offset is exactly the one that starts there. -/
theorem charAtUnit_eq_some_iff {cs : List Char} {i : Nat} {c : Char} :
    charAtUnit cs i = some c ↔ StartsAt cs c i := by
  induction cs generalizing i with
  | nil => simp [charAtUnit, not_startsAt_nil]
  | cons d ds ih =>
    have wide := one_le_unitWidth d
    rw [startsAt_cons, charAtUnit]
    by_cases start : i = 0
    · simp [start, eq_comm]
      omega
    by_cases inside : i < unitWidth d
    · simp [start, inside]
    · simp [start, inside, ih]
      omega

/-- No character is read at an offset past the end, nor on the second unit of a pair; at every
other offset below the length one is. -/
theorem charAtUnit_eq_none_iff {cs : List Char} {i : Nat} :
    charAtUnit cs i = none ↔
      (cs.map unitWidth).sum ≤ i ∨ ∃ c j, StartsAt cs c j ∧ unitWidth c = 2 ∧ i = j + 1 := by
  induction cs generalizing i with
  | nil => simp [charAtUnit]
  | cons d ds ih =>
    have wide := one_le_unitWidth d
    have narrow := unitWidth_le_two d
    simp only [List.map_cons, List.sum_cons, startsAt_cons]
    rw [charAtUnit]
    by_cases start : i = 0
    · subst start
      simp only [if_true, reduceCtorEq, false_iff]
      rintro (past | ⟨c, j, -, -, impossible⟩) <;> omega
    by_cases inside : i < unitWidth d
    -- the second unit of the first character, which is then a pair
    · simp only [start, inside, if_false, if_true, true_iff]
      exact .inr ⟨d, 0, .inl ⟨rfl, rfl⟩, by omega, by omega⟩
    · simp only [start, inside, if_false, ih]
      constructor
      · rintro (past | ⟨c, j, starts, pair, offset⟩)
        · exact .inl (by omega)
        · exact .inr ⟨c, j + unitWidth d, .inr ⟨by omega, by simpa using starts⟩, pair, by omega⟩
      · rintro (past | ⟨c, j, (⟨rfl, rfl⟩ | ⟨enough, starts⟩), pair, rfl⟩)
        · exact .inl (by omega)
        · omega
        · exact .inr ⟨c, j - unitWidth d, starts, pair, by omega⟩

example : [0, 1, 2, 3, 4].map (charAtUnit "a😀b".toList) = [some 'a', some '😀', none, some 'b', none] := by
  decide

/-- The offsets of the first character's own units read that character once. -/
theorem filterMap_charAtUnit_width (d : Char) (ds : List Char) :
    (List.range (unitWidth d)).filterMap (charAtUnit (d :: ds)) = [d] := by
  have := one_le_unitWidth d
  have := unitWidth_le_two d
  obtain width | width : unitWidth d = 1 ∨ unitWidth d = 2 := by omega
  all_goals simp [width, List.range_succ, charAtUnit]

/-- Reading every offset below the length, in order, gives the characters back. -/
theorem filterMap_charAtUnit (cs : List Char) :
    (List.range (cs.map unitWidth).sum).filterMap (charAtUnit cs) = cs := by
  induction cs with
  | nil => rfl
  | cons d ds ih =>
    rw [List.map_cons, List.sum_cons, List.range_add, List.filterMap_append, List.filterMap_map,
      filterMap_charAtUnit_width]
    have shifted : charAtUnit (d :: ds) ∘ (unitWidth d + ·) = charAtUnit ds :=
      funext (charAtUnit_cons_add d ds)
    rw [shifted, ih, List.singleton_append]

end EmbedScript.Text

namespace EmbedScript

open Text

/-! ### What scripts and the host read -/

/-- A string's `length` is its length in units. -/
theorem getProperty_string_length (s : String) (e : Engine) :
    (getProperty (.string s) "length").run.run e = (.ok (.number (Float.ofNat (unitLength s))), e) := by
  simp only [getProperty, run_bind, run_get]
  rfl

/-- The index property `i` of a string is the character that starts at unit offset `i`, and
undefined where none does. -/
theorem getProperty_string_index (s : String) {i : Nat} (small : i < 2 ^ 32 - 1) (e : Engine) :
    (getProperty (.string s) (toString i)).run.run e =
      (.ok ((charAtUnit s.toList i).elim .undefined fun c => .string c.toString), e) := by
  -- an index key is digits, so never `length`
  have key : (toString i == "length") = false := by
    have named := arrayIndex?_toString small
    have : arrayIndex? "length" = none := by decide
    apply beq_false_of_ne
    intro same
    rw [same, this] at named
    cases named
  simp only [getProperty, run_bind, run_get, key, arrayIndex?_toString small, Option.bind_some]
  cases charAtUnit s.toList i <;> rfl

/-- The stack interface measures a string in units. -/
theorem getLength_string {s : String} {e : Engine} {idx : Int} (held : e.get? idx = some (.string s)) :
    (Api.getLength idx).run.run e = (.ok (unitLength s), e) := by
  simp only [Api.getLength, Api.valueAt, run_bind, run_get, held]
  rfl

/-- The UTF-16 view of a string: its length is the sum of its characters' widths, the length of
its UTF-16 encoding; the character read at an offset is one that starts there, and an offset
below the length reads none exactly on the second unit of a pair, as every offset past the end
does; so reading the offsets in turn rebuilds the string. A script's `length`, its index
properties and the keys of a `for-in` over the string, and the length the stack interface
reports, all read this view. -/
theorem string_utf16_view (s : String) :
    unitLength s = (s.toList.map unitWidth).sum ∧
    unitLength s = (units s).length ∧
    (∀ i c, charAtUnit s.toList i = some c ↔ StartsAt s.toList c i) ∧
    (∀ i < unitLength s, charAtUnit s.toList i = none ↔
      ∃ c j, StartsAt s.toList c j ∧ unitWidth c = 2 ∧ i = j + 1) ∧
    (∀ i, unitLength s ≤ i → charAtUnit s.toList i = none) ∧
    String.ofList ((List.range (unitLength s)).filterMap (charAtUnit s.toList)) = s ∧
    ∀ e : Engine,
      (getProperty (.string s) "length").run.run e =
        (.ok (.number (Float.ofNat (unitLength s))), e) ∧
      (∀ i < 2 ^ 32 - 1, (getProperty (.string s) (toString i)).run.run e =
        (.ok ((charAtUnit s.toList i).elim .undefined fun c => .string c.toString), e)) ∧
      e.ownKeys (.string s) = (List.range (unitLength s)).map toString ∧
      ∀ idx, e.get? idx = some (.string s) → (Api.getLength idx).run.run e = (.ok (unitLength s), e) := by
  have total := unitLength_eq_sum s
  refine ⟨total, (length_units s).symm, fun i c => charAtUnit_eq_some_iff, fun i inside => ?_,
    fun i past => charAtUnit_eq_none_iff.mpr (.inl (total ▸ past)), ?_,
    fun e => ⟨getProperty_string_length s e, fun i small => getProperty_string_index s small e, rfl,
      fun idx held => getLength_string held⟩⟩
  · rw [charAtUnit_eq_none_iff, ← total]
    exact or_iff_right (by omega)
  · rw [total, filterMap_charAtUnit, String.ofList_toList]

end EmbedScript
