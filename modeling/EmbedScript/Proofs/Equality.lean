import Mathlib
import EmbedScript.Engine.Property

/-!
Equality and order of values. Numbers compare by the IEEE rules, read here from the logical
model of binary64 that `Float` carries: the comparison of two numbers is an `Option Ordering`,
none when either is NaN, and reading it the other way round swaps it. So numeric `==` is
symmetric and reflexive away from NaN, and the relational operators see `a < b` exactly when
they see `b > a`.

Loose equality is shown equal to a closed form without recursion: null and undefined equal
each other and nothing else, two objects or two strings compare as themselves, an object and a
string compare by the object's text, and everything else compares as numbers. Three levels of
its recursion always reach that form, so the conversions it makes on the way are at most three.
-/

namespace EmbedScript

open Float.Model Syntax

/-! ### IEEE comparison of numbers -/

namespace Number

/-- The IEEE comparison of two numbers: none when either is NaN, and the two zeros equal. -/
def ieeeOrder (x y : Float) : Option Ordering := x.toModel.unpack.compare y.toModel.unpack

theorem unpacked_compare_swap (u v : UnpackedFloat) :
    v.compare u = (u.compare v).map Ordering.swap := by
  rcases u with s₁ | _ | s₁ | ⟨s₁, m₁, e₁, h₁⟩ <;> rcases v with s₂ | _ | s₂ | ⟨s₂, m₂, e₂, h₂⟩ <;>
    (try cases s₁) <;> (try cases s₂) <;>
    simp [UnpackedFloat.compare, Ordering.swap_then, Int.compare_swap, Nat.compare_swap] <;> rfl

theorem unpacked_compare_self {u : UnpackedFloat} (notNaN : u.isNaN = false) :
    u.compare u = some .eq := by
  rcases u with s | _ | s | ⟨s, m, e, hm⟩ <;> (try cases s) <;>
    simp_all [UnpackedFloat.compare, UnpackedFloat.isNaN] <;> rfl

variable {x y : Float}

theorem ieeeOrder_swap (x y : Float) : ieeeOrder y x = (ieeeOrder x y).map Ordering.swap :=
  unpacked_compare_swap _ _

theorem lt_iff_ieeeOrder : x < y ↔ ieeeOrder x y = some .lt := by
  show x.lt y = true ↔ _
  simp [Float.lt, ieeeOrder, LT.lt, Float.Model.lt, UnpackedFloat.lt]

theorem beq_eq_ieeeOrder : (x == y) = (ieeeOrder x y == some .eq) := rfl

theorem ieeeOrder_of_isNaN_left (nan : x.isNaN = true) (y : Float) : ieeeOrder x y = none := by
  unfold ieeeOrder
  change x.toModel.unpack.isNaN = true at nan
  cases h : x.toModel.unpack <;> simp_all [UnpackedFloat.isNaN]
  rfl

theorem ieeeOrder_of_isNaN_right (nan : y.isNaN = true) (x : Float) : ieeeOrder x y = none := by
  rw [← Option.map_eq_none_iff.mpr (ieeeOrder_of_isNaN_left nan x), ieeeOrder_swap]

/-- Numeric equality is symmetric. -/
theorem beq_comm (x y : Float) : (x == y) = (y == x) := by
  rw [beq_eq_ieeeOrder, beq_eq_ieeeOrder, ieeeOrder_swap x y]
  rcases ieeeOrder x y with _ | _ | _ | _ <;> rfl

/-- Every number but NaN equals itself. -/
theorem beq_self (notNaN : x.isNaN = false) : (x == x) = true := by
  rw [beq_eq_ieeeOrder]
  simp [ieeeOrder, unpacked_compare_self notNaN]

/-- The order the relational operators read off two numbers is their IEEE comparison. -/
theorem numeric_order (x y : Float) :
    (if x < y then some Ordering.lt else if (x == y) = true then some .eq
      else if y < x then some .gt else none) = ieeeOrder x y := by
  simp only [lt_iff_ieeeOrder, beq_eq_ieeeOrder, ieeeOrder_swap x y]
  rcases ieeeOrder x y with _ | _ | _ | _ <;> rfl

end Number

namespace Text

theorem compareUnits_swap (xs ys : List Nat) :
    compareUnits ys xs = (compareUnits xs ys).swap := by
  induction xs generalizing ys with
  | nil => cases ys <;> rfl
  | cons x xs ih =>
    cases ys with
    | nil => rfl
    | cons y ys =>
      simp only [compareUnits, ih]
      by_cases below : x < y
      · simp [below, Nat.lt_asymm below]
      · by_cases above : y < x <;> simp [below, above]

end Text

/-! ### Relational operators -/

namespace Engine

open Number Text

variable (e : Engine)

/-- How two primitives are ordered: two strings by their UTF-16 units, anything else as
numbers. -/
def primitiveOrder (pa pb : Value) : Option Ordering :=
  match pa, pb with
  | .string x, .string y => some (compareUnits (units x) (units y))
  | pa, pb => ieeeOrder (e.toNumber pa) (e.toNumber pb)

theorem compareValues_eq (a b : Value) :
    e.compareValues a b = e.primitiveOrder (e.toPrimitive a) (e.toPrimitive b) := by
  unfold compareValues
  cases e.toPrimitive a <;> cases e.toPrimitive b
  case string.string => rfl
  all_goals exact numeric_order _ _

theorem primitiveOrder_swap (pa pb : Value) :
    e.primitiveOrder pb pa = (e.primitiveOrder pa pb).map Ordering.swap := by
  cases pa <;> cases pb
  case string.string => exact congrArg some (compareUnits_swap _ _)
  all_goals exact ieeeOrder_swap _ _

/-- Comparing the other way round swaps the order. -/
theorem compareValues_swap (a b : Value) :
    e.compareValues b a = (e.compareValues a b).map Ordering.swap := by
  rw [compareValues_eq, compareValues_eq, primitiveOrder_swap]

theorem primitiveOrder_number_left (x : Float) (pb : Value) :
    e.primitiveOrder (.number x) pb = ieeeOrder x (e.toNumber pb) := by
  cases pb <;> rfl

theorem primitiveOrder_number_right (pa : Value) (y : Float) :
    e.primitiveOrder pa (.number y) = ieeeOrder (e.toNumber pa) y := by
  cases pa <;> rfl

/-- A NaN on either side leaves two values unordered. -/
theorem compareValues_of_nan {x : Float} (nan : x.isNaN = true) {a b : Value}
    (side : a = .number x ∨ b = .number x) : e.compareValues a b = none := by
  rw [compareValues_eq]
  rcases side with rfl | rfl
  · exact (e.primitiveOrder_number_left x _).trans (ieeeOrder_of_isNaN_left nan _)
  · exact (e.primitiveOrder_number_right _ x).trans (ieeeOrder_of_isNaN_right nan _)

end Engine

theorem map_swap_beq (o : Option Ordering) (c : Ordering) :
    (o.map Ordering.swap == some c) = (o == some c.swap) := by
  rcases o with _ | _ | _ | _ <;> cases c <;> rfl

theorem binaryOp_lt_swap (a b : Value) : binaryOp .lt a b = binaryOp .gt b a := by
  unfold binaryOp
  simp only [Engine.compareValues_swap _ b a, map_swap_beq]
  rfl

theorem binaryOp_ltEq_swap (a b : Value) : binaryOp .ltEq a b = binaryOp .gtEq b a := by
  unfold binaryOp
  simp only [Engine.compareValues_swap _ b a, map_swap_beq]
  rfl

/-- Every relational operator is false when a side is NaN, whatever the engine. -/
theorem binaryOp_relational_of_nan {x : Float} (nan : x.isNaN = true) {a b : Value}
    (side : a = .number x ∨ b = .number x) {op : BinaryOp}
    (relational : op ∈ [BinaryOp.lt, .ltEq, .gt, .gtEq]) :
    binaryOp op a b = pure (.bool false) := by
  have unordered := fun e : Engine => e.compareValues_of_nan nan side
  simp only [List.mem_cons, List.not_mem_nil, or_false] at relational
  rcases relational with rfl | rfl | rfl | rfl <;>
    · unfold binaryOp
      simp only [unordered]
      rfl

/-! ### Loose equality -/

namespace Engine

variable (e : Engine)

/-- Loose equality in closed form: null and undefined equal each other only, two objects or
two strings compare as themselves, an object and a string by the object's text, and everything
else as numbers. -/
def looseEqualsClosed : Value → Value → Bool
  | .undefined, .undefined | .undefined, .null | .null, .undefined | .null, .null => true
  | .undefined, _ | .null, _ | _, .undefined | _, .null => false
  | .object x, .object y => x == y
  | .string s, .string t => s == t
  | a@(.object _), .string t => e.display a == t
  | .string s, b@(.object _) => s == e.display b
  | a, b => e.toNumber a == e.toNumber b

/-- Three levels of the recursion reach the closed form: a boolean turns into a number, an
object beside a number or a string into its text, and what is left is compared directly. -/
theorem looseEqualsWith_closed (n : Nat) (a b : Value) :
    e.looseEqualsWith (n + 3) a b = e.looseEqualsClosed a b := by
  cases a <;> cases b <;>
    simp [looseEqualsWith, looseEqualsClosed, toPrimitive, toNumber, strictEquals]

theorem looseEquals_closed (a b : Value) : e.looseEquals a b = e.looseEqualsClosed a b :=
  e.looseEqualsWith_closed 1 a b

theorem looseEqualsClosed_comm (a b : Value) :
    e.looseEqualsClosed a b = e.looseEqualsClosed b a := by
  cases a <;> cases b <;> simp [looseEqualsClosed, Number.beq_comm, eq_comm]

theorem looseEqualsClosed_self {a : Value} (notNaN : ∀ x, a = .number x → x.isNaN = false) :
    e.looseEqualsClosed a a = true := by
  cases a with
  | bool b =>
    apply Number.beq_self
    show (if b then 1 else 0 : Float).isNaN = false
    cases b <;> decide
  | number x => exact Number.beq_self (notNaN x rfl)
  | _ => simp [looseEqualsClosed]

theorem looseEqualsClosed_of_strict {a b : Value} (strict : strictEquals a b = true) :
    e.looseEqualsClosed a b = true := by
  cases a <;> cases b <;> simp only [strictEquals, Bool.false_eq_true] at strict
  case bool.bool x y =>
    obtain rfl : x = y := by simpa using strict
    exact e.looseEqualsClosed_self (by simp)
  case undefined.undefined | null.null => rfl
  -- two numbers, strings or objects: the closed form is the strict comparison itself
  all_goals exact strict

end Engine

/-- Equality and comparison laws, on every heap: loose equality is symmetric, holds of strictly
equal values and of every value but a NaN number, and three levels of its recursion decide it;
`a < b` is `b > a` and `a <= b` is `b >= a`, and every comparison with a NaN is false. -/
theorem equality_and_comparison_laws (e : Engine) (a b : Value) :
    e.looseEquals a b = e.looseEquals b a ∧
    (strictEquals a b = true → e.looseEquals a b = true) ∧
    ((∀ x, a = .number x → x.isNaN = false) → e.looseEquals a a = true) ∧
    (∀ n, 3 ≤ n → e.looseEqualsWith n a b = e.looseEquals a b) ∧
    binaryOp .lt a b = binaryOp .gt b a ∧ binaryOp .ltEq a b = binaryOp .gtEq b a ∧
    (∀ x : Float, x.isNaN = true → (a = .number x ∨ b = .number x) →
      ∀ op ∈ [BinaryOp.lt, .ltEq, .gt, .gtEq], binaryOp op a b = pure (.bool false)) := by
  refine ⟨?_, fun strict => ?_, fun notNaN => ?_, fun n enough => ?_, binaryOp_lt_swap a b,
    binaryOp_ltEq_swap a b, fun x nan side op relational =>
      binaryOp_relational_of_nan nan side relational⟩
  · rw [e.looseEquals_closed, e.looseEquals_closed, e.looseEqualsClosed_comm]
  · rw [e.looseEquals_closed]
    exact e.looseEqualsClosed_of_strict strict
  · rw [e.looseEquals_closed]
    exact e.looseEqualsClosed_self notNaN
  · obtain ⟨k, rfl⟩ := Nat.exists_eq_add_of_le' enough
    rw [e.looseEqualsWith_closed, e.looseEquals_closed]

end EmbedScript
