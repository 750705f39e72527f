import Mathlib
import EmbedScript.Proofs.Properties
import EmbedScript.Proofs.ParserRecursion

/-!
Hoisting. Before the first statement of global code or of a function body runs, its
declarations are bound in its scope: the `var` names it declares outside nested function bodies,
to undefined unless the scope binds them already, and its function declarations, at any block
depth, to closures over the scope, the last declaration of a name winning over everything else.

A call's scope binds, in this order of precedence, the functions its body declares, its
parameters (the last of a name winning), `arguments` when the body mentions it, the function's
own name for a named function expression, and its `var` names; it binds no other name. Global
code binds its declarations on the global object, which keeps what it binds already.
-/

namespace EmbedScript

open Std.Do Syntax

/-! ### Tables -/

namespace PropertyTable

variable (t : PropertyTable)

theorem get?_empty (x : String) : ({} : PropertyTable).get? x = none := rfl

theorem declare_cons (name : String) (names : List String) :
    t.declare (name :: names) = (if t.contains name then t else t.set name .undefined).declare names :=
  rfl

/-- Declaring names binds each one the table lacks to undefined, and nothing else. -/
theorem get?_declare (names : List String) (x : String) :
    (t.declare names).get? x =
      if t.contains x = false ∧ x ∈ names then some .undefined else t.get? x := by
  induction names generalizing t with
  | nil => simp [declare]
  | cons name names ih =>
    rw [declare_cons, ih]
    by_cases bound : t.contains name
    · -- the name is bound already: `x = name` reads the old binding either way
      by_cases same : x = name
      · subst same
        simp [bound]
      · simp [bound, same]
    · by_cases same : x = name
      · subst same
        simp [bound, contains_set, get?_set]
      · simp [bound, same, contains_set, get?_set]

end PropertyTable

/-! ### Parameters -/

/-- The last position of `x` in `xs`, if it occurs there. -/
def lastPosition (x : String) : List String → Option Nat
  | [] => none
  | y :: ys => match lastPosition x ys with
    | some i => some (i + 1)
    | none => if y = x then some 0 else none

theorem lastPosition_eq_none {x : String} {xs : List String} : lastPosition x xs = none ↔ x ∉ xs := by
  induction xs with
  | nil => simp [lastPosition]
  | cons y ys ih =>
    rcases later : lastPosition x ys with _ | i
    · have absent := ih.mp later
      by_cases same : y = x
      · simp [lastPosition, later, same]
      · simp [lastPosition, later, same, absent, Ne.symm same]
    · have present : x ∈ ys := by
        by_contra absent
        simp [ih.mpr absent] at later
      simp [lastPosition, later, present]

namespace Engine

variable (e : Engine)

/-- Binding parameters to the arguments from `slot` up binds each parameter to the argument at its
last position, and leaves the rest of the table. -/
theorem get?_bindParams (slot : Nat) (t : PropertyTable) (params : List String) (x : String) :
    (e.bindParams slot t params).get? x = match lastPosition x params with
      | some i => some (e.getAbs (slot + i))
      | none => t.get? x := by
  induction params generalizing slot t with
  | nil => rfl
  | cons p ps ih =>
    rw [bindParams, ih]
    rcases later : lastPosition x ps with _ | i
    · by_cases same : p = x
      · subst same
        simp [lastPosition, later, PropertyTable.get?_set]
      · simp [lastPosition, later, same, PropertyTable.get?_set, Ne.symm same]
    · simp only [lastPosition, later]
      congr 2
      omega

theorem contains_bindParams (slot : Nat) (t : PropertyTable) (params : List String) (x : String) :
    (e.bindParams slot t params).contains x = (t.contains x || decide (x ∈ params)) := by
  induction params generalizing slot t with
  | nil => simp [bindParams]
  | cons p ps ih =>
    rw [bindParams, ih, PropertyTable.contains_set]
    by_cases same : x = p
    · simp [same]
    · simp [beq_false_of_ne same, same]

end Engine

/-! ### Function declarations -/

/-- The declaration among `fns` that `x` is bound to once they are hoisted: the last one declared
under it. -/
def hoistedUnder (fns : List FunctionDef) (x : String) : Option FunctionDef :=
  (fns.filter (·.name == some x)).getLast?

theorem hoistedUnder_cons (f : FunctionDef) (fns : List FunctionDef) (x : String) :
    hoistedUnder (f :: fns) x = (hoistedUnder fns x).or (if f.name = some x then some f else none) := by
  unfold hoistedUnder
  by_cases named : f.name = some x
  · simp only [List.filter_cons, named, beq_self_eq_true, if_true, List.getLast?_cons]
    cases (fns.filter (·.name == some x)).getLast? <;> rfl
  · simp [named]

/-- `after` is `before` with the functions `fns` bound: each name one of them is declared under
to a closure, over `scope`, of the last one declared under it, and every other name as before. -/
def Hoisted (h : Heap) (scope : Option ObjectId) (fns : List FunctionDef)
    (before : String → Option Value) (after : PropertyTable) : Prop :=
  ∀ x, match hoistedUnder fns x with
    | some f => ∃ c, after.get? x = some (.object c) ∧
        (h.get? c).map HeapObject.kind = some (.function (.closure f scope))
    | none => after.get? x = before x

/-- What binding the functions `fns` into the object `target` does to an engine: the target keeps
its kind and gets the functions bound, over the scope the engine runs in, while the other live
objects, the scopes and the global object stay as they were. -/
structure Engine.Binds (e : Engine) (target : ObjectId) (fns : List FunctionDef) (e' : Engine) :
    Prop where
  wellFormed : e'.heap.WellFormed
  scopes : e'.scopes = e.scopes
  global : e'.global = e.global
  others : ∀ id, e.heap.Valid id → id ≠ target → e'.heap.get? id = e.heap.get? id
  bound : ∀ o, e.heap.get? target = some o → ∃ o', e'.heap.get? target = some o' ∧
    o'.kind = o.kind ∧ Hoisted e'.heap e.currentScope fns o.properties.get? o'.properties

/-- The engine with `v` bound under `name`, if there is one, on the object `target`. -/
def Engine.bindName (e : Engine) (target : ObjectId) (name : Option String) (v : Value) : Engine :=
  match name with
  | some n => e.modifyObject target fun o => { o with properties := o.properties.set n v }
  | none => e

section BindName

variable {e : Engine} {target : ObjectId} {name : Option String} {v : Value}

@[simp] theorem Engine.bindName_scopes : (e.bindName target name v).scopes = e.scopes := by
  unfold Engine.bindName; split <;> rfl

@[simp] theorem Engine.bindName_global : (e.bindName target name v).global = e.global := by
  unfold Engine.bindName; split <;> rfl

theorem Engine.wellFormed_bindName (wf : e.heap.WellFormed) : (e.bindName target name v).heap.WellFormed := by
  unfold Engine.bindName; split
  · exact Heap.wellFormed_modify wf _
  · exact wf

theorem Engine.get?_bindName_other {id : ObjectId} (other : id ≠ target) :
    (e.bindName target name v).heap.get? id = e.heap.get? id := by
  unfold Engine.bindName; split
  · simp [Heap.get?_modify, other]
  · rfl

theorem Engine.get?_bindName_target {o : HeapObject} (found : e.heap.get? target = some o) :
    (e.bindName target name v).heap.get? target = some { o with properties := match name with
      | some n => o.properties.set n v
      | none => o.properties } := by
  unfold Engine.bindName; split
  · simp [Heap.get?_modify, found]
  · simpa using found

end BindName

/-- One function hoisted: its closure allocated, then bound under its name on the target. -/
theorem hoistInto_cons_run (scope : ObjectId) (f : FunctionDef) (fns : List FunctionDef)
    (e : Engine) :
    (hoistInto scope (f :: fns)).run.run e =
      let made := e.alloc { kind := .function (.closure f e.currentScope) }
      (hoistInto scope fns).run.run (made.2.bindName scope f.name (.object made.1)) := by
  simp only [hoistInto, makeClosure, allocObject, run_bind, run_get, run_set, run_pure]
  cases f.name <;> rfl

/-- Hoisting functions into a live object binds them there, each to a fresh closure, and changes
no other object. -/
theorem hoistInto_binds (scope : ObjectId) (fns : List FunctionDef) (e : Engine)
    (wf : e.heap.WellFormed) (live : e.heap.Valid scope) :
    ∃ e', (hoistInto scope fns).run.run e = (.ok (), e') ∧ e.Binds scope fns e' := by
  induction fns generalizing e with
  | nil =>
    refine ⟨e, rfl, wf, rfl, rfl, fun _ _ _ => rfl, fun o found => ⟨o, found, rfl, fun x => ?_⟩⟩
    rfl
  | cons f fns ih =>
    rw [hoistInto_cons_run]
    -- the closure of `f` is a fresh object, apart from the target and every live object
    set made := e.alloc { kind := .function (.closure f e.currentScope) }
    have wf₀ : made.2.heap.WellFormed := Heap.wellFormed_alloc wf
    have fresh : made.2.heap.get? made.1 = some { kind := .function (.closure f e.currentScope) } :=
      Heap.get?_alloc_self wf
    have kept : ∀ id, e.heap.Valid id → made.2.heap.get? id = e.heap.get? id :=
      fun id valid => Heap.get?_alloc_of_valid wf valid
    have apart : made.1 ≠ scope := fun same => Heap.alloc_index_ne wf live (by rw [← same]; rfl)
    set e₁ := made.2.bindName scope f.name (.object made.1)
    have live₁ : e₁.heap.Valid scope := by
      obtain ⟨o, found⟩ := live
      exact ⟨_, Engine.get?_bindName_target ((kept scope ⟨o, found⟩).trans found)⟩
    obtain ⟨e', run, binds⟩ := ih e₁ (Engine.wellFormed_bindName wf₀) live₁
    -- the closure is still there at the end
    have closure : e'.heap.get? made.1 = some { kind := .function (.closure f e.currentScope) } := by
      rw [binds.others _ ⟨_, (Engine.get?_bindName_other apart).trans fresh⟩ apart,
        Engine.get?_bindName_other apart, fresh]
    refine ⟨e', run, binds.wellFormed, by simp [binds.scopes, e₁, made],
      by simp [binds.global, e₁, made], fun id valid other => ?_, fun o found => ?_⟩
    · have valid₀ : made.2.heap.Valid id := by
        obtain ⟨w, hw⟩ := valid
        exact ⟨w, (kept id ⟨w, hw⟩).trans hw⟩
      rw [binds.others _ ⟨_, (Engine.get?_bindName_other other).trans valid₀.choose_spec⟩ other,
        Engine.get?_bindName_other other, kept id valid]
    · obtain ⟨o', found', kind, hoisted⟩ :=
        binds.bound _ (Engine.get?_bindName_target ((kept scope ⟨o, found⟩).trans found))
      refine ⟨o', found', kind, fun x => ?_⟩
      have current : e₁.currentScope = e.currentScope := by simp [e₁, made, Engine.currentScope]
      have later := hoisted x
      rw [current] at later
      rw [hoistedUnder_cons]
      -- a later declaration of the name wins; otherwise `f` binds it if it is its name
      rcases under : hoistedUnder fns x with _ | g
      · rw [under] at later
        by_cases named : f.name = some x
        · simp only [Option.none_or, named, if_true]
          refine ⟨made.1, ?_, by rw [closure]; rfl⟩
          rw [later]
          simp [named, PropertyTable.get?_set]
        · simp only [Option.none_or, named, if_false]
          rw [later]
          cases name : f.name with
          | none => rfl
          | some n =>
            have other : x ≠ n := fun same => named (by rw [name, same])
            simp [PropertyTable.get?_set, other]
      · rw [under] at later
        exact later

/-! ### Global code -/

section Global

variable {e : Engine}

/-- In global code no scope is on the chain, so an assignment writes on the global object. -/
theorem Engine.assignVar_of_global (global : e.currentScope = none) (name : String) (v : Value) :
    e.assignVar name v = e.bindName e.global (some name) v := by
  have unbound : e.bindingScope name = none := by
    unfold Engine.bindingScope
    rw [global]
    cases e.heap.slots.size <;> rfl
  simp [Engine.assignVar, Engine.bindName, unbound]

theorem hoistGlobals_cons_run (global : e.currentScope = none) (f : FunctionDef)
    (fns : List FunctionDef) :
    (hoistGlobals (f :: fns)).run.run e =
      let made := e.alloc { kind := .function (.closure f e.currentScope) }
      (hoistGlobals fns).run.run (made.2.bindName e.global f.name (.object made.1)) := by
  have global' : (e.alloc { kind := .function (.closure f e.currentScope) }).2.currentScope = none := by
    simpa [Engine.currentScope] using global
  simp only [hoistGlobals, makeClosure, allocObject, run_bind, run_get, run_set, run_pure]
  cases name : f.name with
  | none => rfl
  | some n =>
    simp only [run_bind, run_modify]
    rw [Engine.assignVar_of_global global' n]
    rfl

/-- Global code binds its functions on the global object as a function body binds them on its
scope. -/
theorem hoistGlobals_run (global : e.currentScope = none) (fns : List FunctionDef) :
    (hoistGlobals fns).run.run e = (hoistInto e.global fns).run.run e := by
  induction fns generalizing e with
  | nil => rfl
  | cons f fns ih =>
    rw [hoistGlobals_cons_run global, hoistInto_cons_run]
    dsimp only
    rw [ih (by simpa [Engine.currentScope] using global)]
    simp

theorem declareGlobals_cons_run (name : String) (names : List String) :
    (declareGlobals (name :: names)).run.run e =
      (declareGlobals names).run.run
        (if (e.object? e.global).any (·.properties.contains name) then e
          else e.assignVar name .undefined) := by
  simp only [declareGlobals, run_bind, run_get]
  by_cases bound : (e.object? e.global).any (·.properties.contains name)
  · simp [bound]
  · simp only [bound, Bool.not_false, if_true, run_bind, run_modify]
    rfl

/-- Declaring the names of global code binds on the global object, as undefined, those it lacks. -/
theorem declareGlobals_declares (global : e.currentScope = none) (wf : e.heap.WellFormed)
    {o : HeapObject} (found : e.heap.get? e.global = some o) (names : List String) :
    ∃ e', (declareGlobals names).run.run e = (.ok (), e') ∧ e'.heap.WellFormed ∧
      e'.scopes = e.scopes ∧ e'.global = e.global ∧
      (∀ id, id ≠ e.global → e'.heap.get? id = e.heap.get? id) ∧
      e'.heap.get? e.global = some { o with properties := o.properties.declare names } := by
  induction names generalizing e o with
  | nil => exact ⟨e, rfl, wf, rfl, rfl, fun _ _ => rfl, by simpa [PropertyTable.declare] using found⟩
  | cons name names ih =>
    rw [declareGlobals_cons_run]
    have has : (e.object? e.global).any (·.properties.contains name) = o.properties.contains name := by
      simp [Engine.object?, found]
    rw [has, PropertyTable.declare_cons]
    by_cases bound : o.properties.contains name
    · simpa [bound] using ih global wf found
    · rw [if_neg bound, if_neg bound, Engine.assignVar_of_global global]
      have found₁ : (e.bindName e.global (some name) .undefined).heap.get?
          (e.bindName e.global (some name) .undefined).global =
            some { o with properties := o.properties.set name .undefined } := by
        rw [Engine.bindName_global]
        exact Engine.get?_bindName_target found
      obtain ⟨e', run, wf', scopes, same, others, declared⟩ :=
        ih (by simpa [Engine.currentScope] using global) (Engine.wellFormed_bindName wf) found₁
      refine ⟨e', run, wf', by simpa using scopes, by simpa using same, fun id other => ?_,
        by simpa using declared⟩
      rw [others id (by simpa using other), Engine.get?_bindName_other other]

end Global

/-! ### The scope of a call -/

theorem FunctionDef.get?_selfBinding (defn : FunctionDef) (callee : Value) (x : String) :
    (defn.selfBinding callee).get? x =
      if defn.isExpression = true ∧ defn.name = some x then some callee else none := by
  unfold FunctionDef.selfBinding
  cases expression : defn.isExpression <;> cases name : defn.name <;>
    simp [PropertyTable.get?_set, PropertyTable.get?_empty, eq_comm]

/-- The arguments object of a call whose group is at `base`: an array of the values above the
callee and the receiver. -/
def Engine.argumentsObject (e : Engine) (base : Nat) : HeapObject :=
  { kind := .array (e.stack.extract (min (base + 2) e.stack.size) e.stack.size) }

/-- What the scope of a call binds `x` to before the functions of its body are hoisted, for a call
whose group is at `base` in `e`, whose arguments object is `args` and whose body declares the names
`declared`. In order of precedence: a parameter, to the argument at its last position;
`arguments`, when the body mentions it; the function's own name, for a named function expression,
to the callee; a declared name, to undefined. Any other name is unbound. -/
def callBinding (e : Engine) (base : Nat) (defn : FunctionDef) (args : ObjectId)
    (declared : List String) (x : String) : Option Value :=
  match lastPosition x defn.params with
  | some i => some (e.getAbs (base + 2 + i))
  | none =>
    if defn.usesArguments = true ∧ x = "arguments" then some (.object args)
    else if defn.isExpression = true ∧ defn.name = some x then some (e.getAbs base)
    else if x ∈ declared then some .undefined
    else none

/-- Only which names are declared matters, not their order or repetitions. -/
theorem callBinding_congr (e : Engine) (base : Nat) (defn : FunctionDef) (args : ObjectId)
    {declared declared' : List String} (same : ∀ x, x ∈ declared ↔ x ∈ declared') :
    callBinding e base defn args declared = callBinding e base defn args declared' := by
  funext x
  simp only [callBinding, same]

/-- Below its parameters, a call's scope binds `arguments`, when the body mentions it, over the
function's own name. -/
theorem get?_callBase (defn : FunctionDef) (callee : Value) (args : ObjectId) (x : String) :
    (if defn.usesArguments then (defn.selfBinding callee).set "arguments" (.object args)
      else defn.selfBinding callee).get? x =
      if defn.usesArguments = true ∧ x = "arguments" then some (.object args)
      else if defn.isExpression = true ∧ defn.name = some x then some callee else none := by
  cases uses : defn.usesArguments
  · simp [FunctionDef.get?_selfBinding]
  · by_cases same : x = "arguments"
    · simp [same, PropertyTable.get?_set]
    · simp [same, PropertyTable.get?_set, FunctionDef.get?_selfBinding]

/-- The table a call's scope is allocated with answers `callBinding`. -/
theorem get?_callTable (e : Engine) (base : Nat) (defn : FunctionDef) (args : ObjectId) (x : String) :
    ((e.bindParams (base + 2) (if defn.usesArguments then
        (defn.selfBinding (e.getAbs base)).set "arguments" (.object args)
      else defn.selfBinding (e.getAbs base)) defn.params).declare defn.varNames).get? x =
      callBinding e base defn args defn.varNames x := by
  rw [PropertyTable.get?_declare, Engine.contains_bindParams, Engine.get?_bindParams, callBinding,
    PropertyTable.contains_eq_isSome, get?_callBase]
  rcases position : lastPosition x defn.params with _ | i
  · -- a `var` name is undefined unless the bindings below the parameters have it
    have absent := lastPosition_eq_none.mp position
    by_cases arguments : defn.usesArguments = true ∧ x = "arguments"
    · simp [arguments]
    · by_cases self : defn.isExpression = true ∧ defn.name = some x
      · simp only [arguments, self, if_false]
        simp
      · simp only [arguments, self, if_false]
        simp [absent]
  · have present : x ∈ defn.params := by
      by_contra absent
      rw [lastPosition_eq_none.mpr absent] at position
      cases position
    simp [present]

/-- Allocating a call's scope: a fresh scope object under `parent`, with the call's receiver,
whose table answers `callBinding`; first, when the body mentions `arguments`, a fresh arguments
object. -/
theorem allocCallScope_run (base : Nat) (defn : FunctionDef) (parent : Option ObjectId)
    (e : Engine) (wf : e.heap.WellFormed) :
    ∃ scope args e', (allocCallScope base defn parent).run.run e = (.ok scope, e') ∧
      e'.heap.WellFormed ∧ e'.scopes = e.scopes ∧ e'.global = e.global ∧
      (defn.usesArguments = true →
        e'.heap.get? args = some (e.argumentsObject base) ∧ args ≠ scope) ∧
      ∃ props, e'.heap.get? scope =
          some { kind := .scope parent (e.callReceiver (base + 1)), properties := props } ∧
        ∀ x, props.get? x = callBinding e base defn args defn.varNames x := by
  have table := get?_callTable e base defn
  cases uses : defn.usesArguments
  · simp only [uses, Bool.false_eq_true, if_false] at table
    simp only [allocCallScope, allocObject, run_bind, run_get, run_set, run_pure, uses,
      Bool.false_eq_true, if_false]
    refine ⟨_, e.global, _, rfl, Heap.wellFormed_alloc wf, rfl, rfl, fun used => used.elim, _,
      Heap.get?_alloc_self wf, fun x => table _ x⟩
  · simp only [uses, if_true] at table
    simp only [allocCallScope, allocObject, run_bind, run_get, run_set, run_pure, uses, if_true]
    -- the arguments object is allocated first, and stays apart from the scope allocated after it
    have wf₁ : (e.heap.alloc (e.argumentsObject base)).2.WellFormed := Heap.wellFormed_alloc wf
    have args : (e.heap.alloc (e.argumentsObject base)).2.Valid (e.heap.alloc (e.argumentsObject base)).1 :=
      Heap.valid_alloc_self wf
    refine ⟨_, (e.heap.alloc (e.argumentsObject base)).1, _, rfl, Heap.wellFormed_alloc wf₁, rfl, rfl,
      fun _ => ⟨?_, ?_⟩, _, Heap.get?_alloc_self wf₁, table _⟩
    · exact (Heap.get?_alloc_of_valid wf₁ args).trans (Heap.get?_alloc_self wf)
    · exact fun same => Heap.alloc_index_ne wf₁ args (congrArg ObjectId.index same)

/-- Entering a call: when the body starts, the innermost scope is a fresh scope object under
`parent`, with the call's receiver, that binds the functions the body declares, each to a closure
over it, and below them what `callBinding` says, with `args` the arguments object. -/
theorem enterCall_binds (base : Nat) (defn : FunctionDef) (parent : Option ObjectId) (e : Engine)
    (wf : e.heap.WellFormed) :
    ∃ scope e', (enterCall base defn parent).run.run e = (.ok scope, e') ∧
      e'.currentScope = some scope ∧
      ∃ o args, e'.heap.get? scope = some o ∧ o.kind = .scope parent (e.callReceiver (base + 1)) ∧
        (defn.usesArguments = true → e'.heap.get? args = some (e.argumentsObject base)) ∧
        Hoisted e'.heap (some scope) defn.functions (callBinding e base defn args defn.varNames)
          o.properties := by
  obtain ⟨scope, args, e₁, allocated, wf₁, -, -, argsObject, props, found, table⟩ :=
    allocCallScope_run base defn parent e wf
  -- the scope becomes the innermost one before the functions are bound in it
  set e₂ : Engine := { e₁ with scopes := e₁.scopes.push (some scope) }
  have current : e₂.currentScope = some scope := by simp [e₂, Engine.currentScope]
  obtain ⟨e', hoisted, binds⟩ := hoistInto_binds scope defn.functions e₂ wf₁ ⟨_, found⟩
  obtain ⟨o', found', kind, bound⟩ := binds.bound _ found
  refine ⟨scope, e', ?_, by simpa [Engine.currentScope, binds.scopes] using current, o', args,
    found', kind, fun uses => ?_, ?_⟩
  · simp only [enterCall, run_bind, allocated, run_modify, run_pure]
    rw [hoisted]
  · obtain ⟨stored, apart⟩ := argsObject uses
    exact (binds.others args ⟨_, stored⟩ apart).trans stored
  · rw [current] at bound
    have same : props.get? = callBinding e base defn args defn.varNames := funext table
    rwa [same] at bound

/-! ### Global code -/

/-- What global code binds `x` to on the global object, whose table was `before`, before its
functions are hoisted: a `var` name keeps its binding, or is undefined when it had none; any other
name is as it was. -/
def globalBinding (before : PropertyTable) (varNames : List String) (x : String) : Option Value :=
  if x ∈ varNames then some ((before.get? x).getD .undefined) else before.get? x

theorem get?_declare_eq_globalBinding (t : PropertyTable) (names : List String) (x : String) :
    (t.declare names).get? x = globalBinding t names x := by
  rw [PropertyTable.get?_declare, globalBinding, PropertyTable.contains_eq_isSome]
  rcases t.get? x with _ | v <;> by_cases declared : x ∈ names <;> simp [declared]

/-- Hoisting global code: once its declarations are bound, the global object binds the functions
it declares, each to a closure over the global scope, and below them what `globalBinding` says. -/
theorem hoistProgram_binds (prog : Program) (e : Engine) (wf : e.heap.WellFormed)
    (global : e.currentScope = none) {o : HeapObject} (found : e.heap.get? e.global = some o) :
    ∃ e', (hoistProgram prog).run.run e = (.ok (), e') ∧ ∃ o', e'.heap.get? e.global = some o' ∧
      o'.kind = o.kind ∧
      Hoisted e'.heap none prog.functions (globalBinding o.properties prog.varNames) o'.properties := by
  obtain ⟨e₁, declared, wf₁, scopes, same, -, found₁⟩ := declareGlobals_declares global wf found prog.varNames
  have global₁ : e₁.currentScope = none := by simpa [Engine.currentScope, scopes] using global
  rw [← same] at found₁
  obtain ⟨e', hoisted, binds⟩ := hoistInto_binds e₁.global prog.functions e₁ wf₁ ⟨_, found₁⟩
  obtain ⟨o', found', kind, bound⟩ := binds.bound _ found₁
  refine ⟨e', ?_, o', by rwa [← same], kind, ?_⟩
  · simp only [hoistProgram, run_bind, declared]
    rw [hoistGlobals_run global₁, hoisted]
  · rw [global₁] at bound
    have tables : (o.properties.declare prog.varNames).get? = globalBinding o.properties prog.varNames :=
      funext (get?_declare_eq_globalBinding o.properties prog.varNames)
    rwa [tables] at bound

theorem globalBinding_congr (before : PropertyTable) {declared declared' : List String}
    (same : ∀ x, x ∈ declared ↔ x ∈ declared') :
    globalBinding before declared = globalBinding before declared' := by
  funext x
  simp only [globalBinding, same]

/-! ### From the parser to the first statement -/

/-- Before the first statement of code the parser accepts runs, its declarations are bound in its
scope.

For a program hoisted in global code, the global object binds each function the program declares
to a closure over the global scope, the last declaration of a name winning; each name the program
declares with `var`, `let` or `const` outside function bodies to what the global object bound it
to, or to undefined; and every other name as before.

For a function the parser's function rule accepts, once a call of it is entered, the call's fresh
scope binds each function its body declares to a closure over that scope, the last declaration of
a name winning over everything else, parameters included; then what `callBinding` says, with the
names its body declares outside nested function bodies as the declared ones, undefined unless a
parameter, `arguments` or the function's own name binds them; and no other name, so none that only
a nested function body declares. -/
theorem declarations_hoisted_before_code_runs :
    (∀ (source : String) (prog : Program) (e : Engine) (o : HeapObject),
      parseProgram source = .ok prog → e.heap.WellFormed → e.currentScope = none →
      e.heap.get? e.global = some o →
      ∃ e', (hoistProgram prog).run.run e = (.ok (), e') ∧ ∃ o', e'.heap.get? e.global = some o' ∧
        Hoisted e'.heap none prog.functions
          (globalBinding o.properties (declaredNamesOf prog.body)) o'.properties) ∧
    (∀ (rounds levels : Nat) (name : Option String) (isExpression : Bool) (s s' : ParseState)
      (defn : FunctionDef) (base : Nat) (parent : Option ObjectId) (e : Engine),
      Ready s →
      ((Parser.Rules.ofLevel rounds levels).functionRest name isExpression).run s = .ok (defn, s') →
      e.heap.WellFormed →
      ∃ scope e', (enterCall base defn parent).run.run e = (.ok scope, e') ∧
        e'.currentScope = some scope ∧ ∃ o args, e'.heap.get? scope = some o ∧
          o.kind = .scope parent (e.callReceiver (base + 1)) ∧
          (defn.usesArguments = true → e'.heap.get? args = some (e.argumentsObject base)) ∧
          Hoisted e'.heap (some scope) defn.functions
            (callBinding e base defn args (declaredNamesOf defn.body)) o.properties) := by
  refine ⟨fun source prog e o accepted wf global found => ?_,
    fun rounds levels name isExpression s s' defn base parent e ready accepted wf => ?_⟩
  · -- the program records the names it declares, each once
    have names : ∀ x, x ∈ prog.varNames ↔ x ∈ declaredNamesOf prog.body := fun x => by
      rw [parseProgram_varNames accepted, List.mem_eraseDups]
    obtain ⟨e', run, o', found', -, hoisted⟩ := hoistProgram_binds prog e wf global found
    rw [globalBinding_congr o.properties names] at hoisted
    exact ⟨e', run, o', found', hoisted⟩
  · -- so does the function, in its own scope
    have names : ∀ x, x ∈ defn.varNames ↔ x ∈ declaredNamesOf defn.body := fun x => by
      rw [functionRest_varNames ready accepted, List.mem_eraseDups]
    obtain ⟨scope, e', run, current, o, args, found, kind, arguments, hoisted⟩ :=
      enterCall_binds base defn parent e wf
    rw [callBinding_congr e base defn args names] at hoisted
    exact ⟨scope, e', run, current, o, args, found, kind, arguments, hoisted⟩

/-- The program `var a; function f() {}` hoists in a fresh engine, and so does the function literal
`function (x) { var y; }` called with its group at the bottom of a fresh engine's stack. -/
theorem fresh_engine_hoists_small_code :
    (∃ prog o e', parseProgram "var a; function f() {}" = .ok prog ∧
      (Engine.fresh {} 0).heap.get? (Engine.fresh {} 0).global = some o ∧
      (hoistProgram prog).run.run (Engine.fresh {} 0) = (.ok (), e') ∧
      ∃ o', e'.heap.get? (Engine.fresh {} 0).global = some o' ∧
        Hoisted e'.heap none prog.functions
          (globalBinding o.properties (declaredNamesOf prog.body)) o'.properties) ∧
    (∃ defn s' scope e', ((Parser.Rules.ofLevel 20 40).functionRest none true).run
        ⟨lexemes "(x) { var y; }", [{}], true, 0⟩ = .ok (defn, s') ∧
      (enterCall 0 defn none).run.run (Engine.fresh {} 0) = (.ok scope, e') ∧
      e'.currentScope = some scope) := by
  have fresh := (Engine.fresh_sound {} 0).safe
  obtain ⟨o, found⟩ := fresh.valid_global
  constructor
  · have accepted : (parseProgram "var a; function f() {}").isOk = true := by decide +kernel
    rcases parsed : parseProgram "var a; function f() {}" with _ | prog
    · rw [parsed] at accepted
      cases accepted
    · obtain ⟨e', run, hoisted⟩ :=
        declarations_hoisted_before_code_runs.1 _ prog _ o parsed fresh.wellFormed rfl found
      exact ⟨prog, o, e', rfl, found, run, hoisted⟩
  · have accepted : (((Parser.Rules.ofLevel 20 40).functionRest none true).run
        ⟨lexemes "(x) { var y; }", [{}], true, 0⟩).isOk = true := by decide +kernel
    rcases parsed : ((Parser.Rules.ofLevel 20 40).functionRest none true).run
        ⟨lexemes "(x) { var y; }", [{}], true, 0⟩ with _ | ⟨defn, s'⟩
    · rw [parsed] at accepted
      cases accepted
    · obtain ⟨scope, e', run, current, -⟩ :=
        declarations_hoisted_before_code_runs.2 20 40 none true _ s' defn 0 none _
          (ready_start (lexemes_ending _)) parsed fresh.wellFormed
      exact ⟨defn, s', scope, e', rfl, run, current⟩

end EmbedScript
