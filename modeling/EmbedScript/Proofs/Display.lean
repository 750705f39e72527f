import Mathlib
import EmbedScript.Proofs.Validation

/-!
When ToString terminates. `Engine.Shows` is the display of a value as the recursion of ToString
runs it, with no bound on its depth: an array prints its elements with itself on the path and
prints nothing when it is already on it, and an error prints its name and message afresh, with
nothing on the path. So an error that its own name or message leads back to is displayed again
and again: ToString of it has no end.

Where no error that the display reaches leads back to itself, the display ends, and the engine's
`display` gives its text. The measure is the set of objects the display can still reach, less
the arrays on the path: an array's element reaches no more than the array does, and the array
itself is on the path; an error's name reaches neither the error nor an array on the path, for
either would lead back to the error.
-/

namespace EmbedScript

namespace Engine

variable (e : Engine)

/-- The display of a value as ToString runs it, with no bound on its depth: `e.Shows seen v s`
when displaying `v`, with the arrays `seen` being printed on the path, ends with the text `s`. -/
inductive Shows : List ObjectId → Value → String → Prop
  | undefined (seen : List ObjectId) : Shows seen .undefined "undefined"
  | null (seen : List ObjectId) : Shows seen .null "null"
  | bool (seen : List ObjectId) (b : Bool) : Shows seen (.bool b) (if b then "true" else "false")
  | number (seen : List ObjectId) (x : Float) : Shows seen (.number x) (Number.toText x)
  | string (seen : List ObjectId) (s : String) : Shows seen (.string s) s
  /-- An id that names no object shows as a plain object. -/
  | missing {seen : List ObjectId} {id : ObjectId} (absent : e.object? id = none) :
      Shows seen (.object id) "[object Object]"
  /-- An array already being printed on the path shows nothing. -/
  | repeated {seen : List ObjectId} {id : ObjectId} {o : HeapObject} {elems : Array Value}
      (found : e.object? id = some o) (array : o.kind = .array elems) (onPath : id ∈ seen) :
      Shows seen (.object id) ""
  /-- Another array shows its elements joined by commas, each displayed with the array on the
  path; undefined and null elements show nothing. -/
  | array {seen : List ObjectId} {id : ObjectId} {o : HeapObject} {elems : Array Value}
      (found : e.object? id = some o) (array : o.kind = .array elems) (fresh : id ∉ seen)
      (texts : Value → String)
      (elements : ∀ el ∈ elems.toList, el.isNullish = false → Shows (id :: seen) el (texts el)) :
      Shows seen (.object id)
        (String.intercalate "," (elems.toList.map fun el => if el.isNullish then "" else texts el))
  /-- An error shows its name and message, each displayed afresh with nothing on the path; an
  absent or undefined name is the name of its kind, an absent or undefined message is empty. -/
  | error {seen : List ObjectId} {id : ObjectId} {o : HeapObject} {kind : ErrorKind}
      (found : e.object? id = some o) (error : o.kind = .error kind) (name message : String)
      (named : ∀ n, o.properties.get? "name" = some n → n.isUndefined = false → Shows [] n name)
      (unnamed : (o.properties.get? "name").all Value.isUndefined → name = kind.name)
      (told : ∀ m, o.properties.get? "message" = some m → m.isUndefined = false →
        Shows [] m message)
      (untold : (o.properties.get? "message").all Value.isUndefined → message = "") :
      Shows seen (.object id) (errorText name message)
  | function {seen : List ObjectId} {id : ObjectId} {o : HeapObject} {f : Function}
      (found : e.object? id = some o) (fn : o.kind = .function f) :
      Shows seen (.object id) f.sourceText
  /-- Plain objects, host objects and scopes show their class. -/
  | other {seen : List ObjectId} {id : ObjectId} {o : HeapObject} (found : e.object? id = some o)
      (plain : o.kind = .plain ∨ (∃ h, o.kind = .hostProxy h) ∨ ∃ p t, o.kind = .scope p t) :
      Shows seen (.object id) ("[object " ++ o.className ++ "]")

/-- The display of object `a` displays object `b` directly: an array its elements, an error its
name and message. -/
def Enters (a b : ObjectId) : Prop :=
  ∃ o, e.object? a = some o ∧
    ((∃ elems, o.kind = .array elems ∧ Value.object b ∈ elems.toList) ∨
      ∃ kind, o.kind = .error kind ∧
        (o.properties.get? "name" = some (.object b) ∨ o.properties.get? "message" = some (.object b)))

/-- No error that the display of `v` reaches leads back to itself. -/
def ErrorsAcyclicFrom (v : Value) : Prop :=
  ∀ a, v = .object a → ∀ E o kind, Relation.ReflTransGen e.Enters a E → e.object? E = some o →
    o.kind = .error kind → ¬ Relation.TransGen e.Enters E E

/-! ### The measure -/

/-- The ids of the objects the heap holds, one for each slot. -/
def liveIds : Finset ObjectId :=
  (Finset.range e.heap.slots.size).image fun i =>
    ⟨i, (e.heap.slots[i]?.map (·.generation)).getD 0⟩

open Classical in
/-- The objects the display of `a` can reach, `a` among them. -/
noncomputable def reachSet (a : ObjectId) : Finset ObjectId :=
  e.liveIds.filter (Relation.ReflTransGen e.Enters a)

/-- What the display of `v` may still visit: the objects it reaches, less the arrays on the
path. -/
noncomputable def pending (seen : List ObjectId) : Value → Nat
  | .object a => (e.reachSet a \ seen.toFinset).card
  | _ => 0

variable {e}

theorem mem_liveIds {id : ObjectId} {o : HeapObject} (found : e.object? id = some o) :
    id ∈ e.liveIds := by
  simp only [object?, Heap.get?] at found
  split at found
  · rename_i s slot
    have same : s.generation = id.generation := by
      by_contra differs
      simp [differs] at found
    simp only [liveIds, Finset.mem_image, Finset.mem_range]
    exact ⟨id.index, (Array.getElem?_eq_some_iff.mp slot).1, by simp [slot, same]⟩
  · cases found

theorem card_liveIds_le : e.liveIds.card ≤ e.heap.slots.size :=
  Finset.card_image_le.trans (Finset.card_range _).le

theorem self_mem_reachSet {a : ObjectId} {o : HeapObject} (found : e.object? a = some o) :
    a ∈ e.reachSet a := by
  simp only [reachSet, Finset.mem_filter]
  exact ⟨mem_liveIds found, .refl⟩

theorem reachSet_subset_liveIds (a : ObjectId) : e.reachSet a ⊆ e.liveIds := by
  intro x member
  simp only [reachSet, Finset.mem_filter] at member
  exact member.1

theorem reachSet_subset {a b : ObjectId} (edge : e.Enters a b) : e.reachSet b ⊆ e.reachSet a := by
  intro x member
  simp only [reachSet, Finset.mem_filter] at member ⊢
  exact ⟨member.1, .head edge member.2⟩

theorem pending_le (seen : List ObjectId) (v : Value) : e.pending seen v ≤ e.heap.slots.size := by
  cases v with
  | object a =>
    calc (e.reachSet a \ seen.toFinset).card
        ≤ e.liveIds.card := Finset.card_le_card (Finset.sdiff_subset.trans (reachSet_subset_liveIds a))
      _ ≤ e.heap.slots.size := card_liveIds_le
  | _ => exact Nat.zero_le _

theorem pending_pos {seen : List ObjectId} {a : ObjectId} {o : HeapObject}
    (found : e.object? a = some o) (fresh : a ∉ seen) : 0 < e.pending seen (.object a) :=
  Finset.card_pos.mpr ⟨a, Finset.mem_sdiff.mpr ⟨self_mem_reachSet found, by simpa using fresh⟩⟩

/-- Past an array that is not on the path, with the array put on it, less is left to visit. -/
theorem pending_element_lt {seen : List ObjectId} {a b : ObjectId} {o : HeapObject}
    (found : e.object? a = some o) (edge : e.Enters a b) (fresh : a ∉ seen) :
    e.pending (a :: seen) (.object b) < e.pending seen (.object a) := by
  have within : e.reachSet b \ (a :: seen).toFinset ⊆ e.reachSet a \ seen.toFinset := by
    intro x member
    simp only [Finset.mem_sdiff, List.mem_toFinset, List.mem_cons, not_or] at member ⊢
    exact ⟨reachSet_subset edge member.1, member.2.2⟩
  have left : a ∉ e.reachSet b \ (a :: seen).toFinset := by simp
  have kept : a ∈ e.reachSet a \ seen.toFinset :=
    Finset.mem_sdiff.mpr ⟨self_mem_reachSet found, by simpa using fresh⟩
  exact Finset.card_lt_card (Finset.ssubset_iff.mpr ⟨a, left, Finset.insert_subset kept within⟩)

/-- Past an error that does not lead back to itself, with the path emptied, less is left to
visit: the error's name or message reaches neither the error nor an array on the path, which
leads to the error. -/
theorem pending_field_lt {seen : List ObjectId} {a b : ObjectId} {o : HeapObject}
    (found : e.object? a = some o) (edge : e.Enters a b)
    (acyclic : ¬ Relation.TransGen e.Enters a a)
    (onPath : ∀ x ∈ seen, Relation.TransGen e.Enters x a) :
    e.pending [] (.object b) < e.pending seen (.object a) := by
  have back : ∀ x, Relation.ReflTransGen e.Enters b x → Relation.TransGen e.Enters a x :=
    fun x reached => Relation.TransGen.head' edge reached
  have within : e.reachSet b \ ([] : List ObjectId).toFinset ⊆ e.reachSet a \ seen.toFinset := by
    intro x member
    simp only [List.toFinset_nil, Finset.sdiff_empty, reachSet, Finset.mem_filter] at member
    refine Finset.mem_sdiff.mpr ⟨reachSet_subset edge (by simpa [reachSet] using member), ?_⟩
    -- an array on the path that the field reaches would close a cycle through the error
    intro inSeen
    exact acyclic ((back x member.2).trans (onPath x (by simpa using inSeen)))
  have left : a ∉ e.reachSet b \ ([] : List ObjectId).toFinset := by
    simp only [List.toFinset_nil, Finset.sdiff_empty, reachSet, Finset.mem_filter, not_and]
    exact fun _ reached => acyclic (back a reached)
  have fresh : a ∉ seen := fun inSeen => acyclic (onPath a inSeen)
  have kept : a ∈ e.reachSet a \ seen.toFinset :=
    Finset.mem_sdiff.mpr ⟨self_mem_reachSet found, by simpa using fresh⟩
  exact Finset.card_lt_card (Finset.ssubset_iff.mpr ⟨a, left, Finset.insert_subset kept within⟩)

/-! ### The display ends -/

theorem fieldText_defined {fallback : String} {text : Value → String} {v : Value}
    (defined : v.isUndefined = false) : fieldText fallback text (some v) = text v := by
  cases v <;> first | rfl | cases defined

theorem fieldText_absent {fallback : String} {text : Value → String} {field : Option Value}
    (absent : field.all Value.isUndefined) : fieldText fallback text field = fallback := by
  rcases field with _ | v
  · rfl
  · cases v <;> first | rfl | cases absent

/-- A field's text is the one its display and its fallback agree on. -/
theorem fieldText_eq {fallback t : String} {text : Value → String} {field : Option Value}
    (shown : ∀ w, field = some w → w.isUndefined = false → text w = t)
    (absent : field.all Value.isUndefined → t = fallback) : fieldText fallback text field = t := by
  rcases field with _ | v
  · exact (absent rfl).symm
  · cases defined : v.isUndefined
    · rw [fieldText_defined defined]
      exact shown v rfl defined
    · rw [fieldText_absent (by simpa using defined)]
      exact (absent (by simpa using defined)).symm

/-- Past an object whose display has something left to visit, a value with less left, or none at
all, has less than the fuel the object was given, less one. -/
theorem pending_within {seen s : List ObjectId} {a : ObjectId} {w : Value} {fuel : Nat}
    (bounded : e.pending seen (.object a) < fuel + 1) (positive : 0 < e.pending seen (.object a))
    (step : ∀ b, w = .object b → e.pending s (.object b) < e.pending seen (.object a)) :
    e.pending s w < fuel := by
  cases w with
  | object b => exact (step b rfl).trans_le (Nat.lt_succ_iff.mp bounded)
  | _ => exact positive.trans_le (Nat.lt_succ_iff.mp bounded)

/-- With fuel beyond what is left to visit, the engine's display is the text ToString ends with,
where no error that the display reaches leads back to itself and every array on the path leads
to the value. -/
theorem shows_displayWith (fuel : Nat) : ∀ (seen : List ObjectId) (v : Value),
    e.ErrorsAcyclicFrom v → (∀ x ∈ seen, ∀ b, v = .object b → Relation.TransGen e.Enters x b) →
    e.pending seen v < fuel → e.Shows seen v (e.displayWith fuel seen v) := by
  induction fuel with
  | zero => exact fun _ _ _ _ bounded => absurd bounded (Nat.not_lt_zero _)
  | succ fuel ih =>
    intro seen v acyclic onPath bounded
    cases v with
    | undefined => exact .undefined seen
    | null => exact .null seen
    | bool b => exact .bool seen b
    | number x => exact .number seen x
    | string s => exact .string seen s
    | object id =>
      rcases found : e.object? id with _ | o
      · simp only [displayWith, found]
        exact .missing found
      -- what the object shows leads on from it, so the errors it reaches reach no further
      have onward : ∀ b, e.Enters id b → e.ErrorsAcyclicFrom (.object b) := by
        intro b edge a same E o' kind reached
        cases same
        exact acyclic id rfl E o' kind (.head edge reached)
      cases kind : o.kind with
      | array elems =>
        by_cases repeated : id ∈ seen
        · simp only [displayWith, found, kind, List.contains_iff_mem, repeated, if_true]
          exact .repeated found kind repeated
        simp only [displayWith, found, kind, List.contains_iff_mem, repeated, if_false]
        refine .array found kind repeated _ fun el member _ => ih (id :: seen) el ?_ ?_ ?_
        all_goals have edge : ∀ b, el = .object b → e.Enters id b :=
          fun b same => ⟨o, found, .inl ⟨elems, kind, same ▸ member⟩⟩
        · intro a same
          exact onward a (edge a same) a rfl
        · intro x onPath' b same
          rcases List.mem_cons.mp onPath' with rfl | earlier
          · exact .single (edge b same)
          · exact (onPath x earlier id rfl).tail (edge b same)
        · exact pending_within bounded (pending_pos found repeated)
            fun b same => pending_element_lt found (edge b same) repeated
      | error k =>
        have cyclic : ¬ Relation.TransGen e.Enters id id := acyclic id rfl id o k .refl found kind
        have fresh : id ∉ seen := fun inSeen => cyclic (onPath id inSeen id rfl)
        -- a name or message is displayed afresh, with the error no longer on any path
        have field : ∀ key w, o.properties.get? key = some w → key = "name" ∨ key = "message" →
            e.Shows [] w (e.displayWith fuel [] w) := by
          intro key w stored named
          have edge : ∀ b, w = .object b → e.Enters id b := fun b same => ⟨o, found, .inr ⟨k, kind,
            by rcases named with rfl | rfl <;> simp [← same, stored]⟩⟩
          refine ih [] w (fun a same => onward a (edge a same) a rfl) (by simp) ?_
          exact pending_within bounded (pending_pos found fresh)
            fun b same => pending_field_lt found (edge b same) cyclic fun x inSeen => onPath x inSeen id rfl
        simp only [displayWith, found, kind]
        refine .error found kind _ _ (fun n stored defined => ?_) fieldText_absent
          (fun m stored defined => ?_) fieldText_absent
        · rw [stored, fieldText_defined defined]
          exact field "name" n stored (.inl rfl)
        · rw [stored, fieldText_defined defined]
          exact field "message" m stored (.inr rfl)
      | function f =>
        simp only [displayWith, found, kind]
        exact .function found kind
      | plain =>
        simp only [displayWith, found, kind]
        exact .other found (.inl kind)
      | hostProxy h =>
        simp only [displayWith, found, kind]
        exact .other found (.inr (.inl ⟨h, kind⟩))
      | scope p t =>
        simp only [displayWith, found, kind]
        exact .other found (.inr (.inr ⟨p, t, kind⟩))

/-! ### The text the display ends with -/

theorem eventually_of_succ {P : Nat → Prop} (later : ∀ᶠ fuel in Filter.atTop, P (fuel + 1)) :
    ∀ᶠ fuel in Filter.atTop, P fuel := by
  obtain ⟨n, above⟩ := Filter.eventually_atTop.mp later
  refine Filter.eventually_atTop.mpr ⟨n + 1, fun fuel bigger => ?_⟩
  obtain ⟨k, rfl⟩ : ∃ k, fuel = k + 1 := ⟨fuel - 1, by omega⟩
  exact above k (by omega)

/-- What holds of a field's display from some fuel on holds of it whenever it is displayed. -/
theorem eventually_field {field : Option Value} {P : Value → Nat → Prop}
    (each : ∀ w, field = some w → w.isUndefined = false → ∀ᶠ fuel in Filter.atTop, P w fuel) :
    ∀ᶠ fuel in Filter.atTop, ∀ w, field = some w → w.isUndefined = false → P w fuel := by
  rcases field with _ | w
  · exact .of_forall fun _ w absent => absurd absent (by simp)
  · cases defined : w.isUndefined
    · refine (each w rfl defined).mono fun fuel holds w' same _ => ?_
      cases same
      exact holds
    · exact .of_forall fun _ w' same undefined => by cases same; simp [defined] at undefined

/-- Wherever ToString ends, the engine's display with enough fuel gives its text. -/
theorem Shows.eventually {seen : List ObjectId} {v : Value} {s : String}
    (shown : e.Shows seen v s) : ∀ᶠ fuel in Filter.atTop, e.displayWith fuel seen v = s := by
  induction shown with
  | undefined | null | bool | number | string => exact eventually_of_succ (.of_forall fun _ => rfl)
  | missing absent =>
    exact eventually_of_succ (.of_forall fun _ => by simp only [displayWith, absent])
  | repeated found array onPath =>
    refine eventually_of_succ (.of_forall fun _ => ?_)
    simp only [displayWith, found, array, List.contains_iff_mem, onPath, if_true]
  | @array seen id o elems found array fresh texts _ ih =>
    -- from some fuel on every element shows its text, there being finitely many
    have each : ∀ᶠ fuel in Filter.atTop, ∀ el ∈ elems.toList, el.isNullish = false →
        e.displayWith fuel (id :: seen) el = texts el := by
      refine (Filter.eventually_all_finite (List.finite_toSet _)).mpr fun el member => ?_
      cases nullish : el.isNullish
      · exact (ih el member nullish).mono fun _ same _ => same
      · exact .of_forall fun _ notNullish => absurd notNullish (by simp)
    refine eventually_of_succ (each.mono fun fuel shownEach => ?_)
    simp only [displayWith, found, array, List.contains_iff_mem, fresh, if_false]
    congr 1
    refine List.map_congr_left fun el member => ?_
    cases nullish : el.isNullish
    · simp only [Bool.false_eq_true, if_false]
      exact shownEach el member nullish
    · rfl
  | @error seen id o kind found error name message _ unnamed _ untold ihNamed ihTold =>
    refine eventually_of_succ (((eventually_field ihNamed).and (eventually_field ihTold)).mono
      fun fuel ⟨named, told⟩ => ?_)
    simp only [displayWith, found, error]
    rw [fieldText_eq named unnamed, fieldText_eq told untold]
  | function found fn =>
    exact eventually_of_succ (.of_forall fun _ => by simp only [displayWith, found, fn])
  | other found plain =>
    refine eventually_of_succ (.of_forall fun _ => ?_)
    rcases plain with kind | ⟨h, kind⟩ | ⟨p, t, kind⟩ <;> simp only [displayWith, found, kind]

/-- ToString ends with one text at most. -/
theorem Shows.unique {seen : List ObjectId} {v : Value} {s s' : String}
    (first : e.Shows seen v s) (second : e.Shows seen v s') : s = s' := by
  obtain ⟨fuel, shows, shows'⟩ := (first.eventually.and second.eventually).exists
  exact shows.symm.trans shows'

/-- Where no error that the display of `v` reaches leads back to itself, ToString of `v` ends,
and the text it ends with, its only one, is the engine's display. -/
theorem display_terminates_without_error_cycles (e : Engine) (v : Value)
    (acyclic : e.ErrorsAcyclicFrom v) :
    e.Shows [] v (e.display v) ∧ ∀ s, e.Shows [] v s → s = e.display v := by
  have ends : e.Shows [] v (e.display v) :=
    shows_displayWith _ [] v acyclic (by simp) (Nat.lt_of_le_of_lt (pending_le [] v) (by omega))
  exact ⟨ends, fun s shown => shown.unique ends⟩

/-- The display of an object that leads to no other reaches no error that leads back to
itself. -/
theorem errorsAcyclicFrom_of_leaf {a : ObjectId} (leaf : ∀ b, ¬ e.Enters a b) :
    e.ErrorsAcyclicFrom (.object a) := by
  rintro a' ⟨⟩ E o kind reached _ _ cycle
  rcases reached.cases_head with rfl | ⟨c, edge, _⟩
  · obtain ⟨c, edge, _⟩ := Relation.TransGen.head'_iff.mp cycle
    exact leaf c edge
  · exact leaf c edge

/-! ### An error that is its own message -/

/-- An error whose message is the error itself has no display: ToString of it displays the
error again in its message, and again in that one's. -/
theorem not_shows_own_message {id : ObjectId} {o : HeapObject} {kind : ErrorKind}
    (found : e.object? id = some o) (error : o.kind = .error kind)
    (own : o.properties.get? "message" = some (.object id)) {seen : List ObjectId} {s : String} :
    ¬ e.Shows seen (.object id) s := by
  -- no display in a derivation is of the error, for its own would hold one of the error
  suffices apart : ∀ {seen v s}, e.Shows seen v s → v ≠ .object id from
    fun shown => apart shown rfl
  intro seen v s shown
  induction shown with
  | missing absent =>
    rintro ⟨⟩
    rw [found] at absent
    cases absent
  | repeated found' array _ =>
    rintro ⟨⟩
    rw [found] at found'
    cases found'
    rw [error] at array
    cases array
  | array found' array _ _ _ _ =>
    rintro ⟨⟩
    rw [found] at found'
    cases found'
    rw [error] at array
    cases array
  | error found' _ _ _ _ _ _ _ _ ihTold =>
    rintro ⟨⟩
    rw [found] at found'
    cases found'
    exact ihTold _ own rfl rfl
  | function found' fn =>
    rintro ⟨⟩
    rw [found] at found'
    cases found'
    rw [error] at fn
    cases fn
  | other found' plain =>
    rintro ⟨⟩
    rw [found] at found'
    cases found'
    rcases plain with kind' | ⟨h, kind'⟩ | ⟨p, t, kind'⟩ <;> rw [error] at kind' <;> cases kind'
  | _ => rintro ⟨⟩

end Engine

/-! ### At two errors -/

namespace Engine

/-- The properties of an error named `Error` with a message. -/
def errorProperties (message : Value) : PropertyTable :=
  (({} : PropertyTable).set "name" (.string "Error")).set "message" message

theorem errorProperties_get (message : Value) :
    (errorProperties message).get? "name" = some (.string "Error") ∧
      (errorProperties message).get? "message" = some message := by
  simp [errorProperties, PropertyTable.set, PropertyTable.get?]

/-- A fresh engine holding one error more, with the message the function gives from the error's
id. -/
def withError (message : ObjectId → Value) : Engine :=
  let (id, e) := (Engine.fresh {} 0).alloc { kind := .error .error }
  e.modifyObject id fun o => { o with properties := errorProperties (message id) }

/-- The id of that error. -/
def newError : ObjectId := ((Engine.fresh {} 0).alloc { kind := .error .error }).1

theorem withError_newError (message : ObjectId → Value) :
    (withError message).object? newError =
      some { kind := .error .error, properties := errorProperties (message newError) } := rfl

/-- After `var e = new Error('m'); e.message = e`, ToString of the error never ends. -/
theorem error_own_message_never_displays :
    ¬ ∃ s, (withError .object).Shows [] (.object newError) s := by
  rintro ⟨s, shown⟩
  exact not_shows_own_message (withError_newError _) rfl (errorProperties_get _).2 shown

/-- After `var e = new Error('m')`, ToString of the error ends with the engine's display. -/
theorem error_text_message_displays :
    (withError fun _ => .string "m").ErrorsAcyclicFrom (.object newError) ∧
      (withError fun _ => .string "m").Shows [] (.object newError)
        ((withError fun _ => .string "m").display (.object newError)) := by
  have acyclic : (withError fun _ => .string "m").ErrorsAcyclicFrom (.object newError) := by
    refine errorsAcyclicFrom_of_leaf fun b ⟨o, found, shown⟩ => ?_
    rw [withError_newError] at found
    cases found
    rcases shown with ⟨elems, array, _⟩ | ⟨kind, _, named | told⟩
    · cases array
    · rw [(errorProperties_get _).1] at named
      cases named
    · rw [(errorProperties_get _).2] at told
      cases told
  exact ⟨acyclic, (display_terminates_without_error_cycles _ _ acyclic).1⟩

/-! ### Reporting a thrown script error -/

/-- An error object thrown for a script error reports that error back: it is made with an error
kind, and its name and message are read off the text properties it is made with. -/
theorem scriptErrorOf_throwScriptError {α : Type} (err : ScriptError) {e : Engine}
    (wf : e.heap.WellFormed) :
    ∃ id e', (throwScriptError err : Flow α).run.run e = (.error (.thrown (.object id)), e') ∧
      e'.scriptErrorOf (.object id) = err := by
  let made : HeapObject :=
    { kind := .error ((ErrorKind.ofName? err.name).getD .error),
      properties :=
        ({} : PropertyTable).set "name" (.string err.name) |>.set "message" (.string err.message) }
  have found : (e.alloc made).2.object? (e.alloc made).1 = some made := Heap.get?_alloc_self wf
  refine ⟨(e.alloc made).1, (e.alloc made).2, rfl, ?_⟩
  simp only [scriptErrorOf, objectGet, found]
  simp [made, PropertyTable.set, PropertyTable.get?, display, displayWith]

end Engine

end EmbedScript
