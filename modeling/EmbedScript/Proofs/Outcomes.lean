import Mathlib
import EmbedScript.Proofs.Levels

/-!
How statements end, read off their runs. A statement that finishes leaves the stack as it found
it, with one value more after a `return`, and the slots below where it started untouched, save
the completion slot of global code, which an expression statement overwrites. A `try` statement
ends as ES5's table (12.14) says from how its parts end: a `finally` block that ends abruptly
decides, and what was pending is dropped; otherwise the `catch` clause, run in a fresh scope
that binds the exception, if the block threw and there is one; otherwise the block, a pending
exception being thrown again as the same value.
-/

namespace EmbedScript

open Std.Do Syntax

/-! ### Runs -/

section Runs

variable {ε α : Type}

@[simp] theorem run_pure (a : α) (e : Engine) :
    (pure a : ExceptT ε (StateM Engine) α).run.run e = (.ok a, e) := rfl

@[simp] theorem run_throw (x : ε) (e : Engine) :
    (throw x : ExceptT ε (StateM Engine) α).run.run e = (.error x, e) := rfl

@[simp] theorem run_modify (f : Engine → Engine) (e : Engine) :
    (modify f : ExceptT ε (StateM Engine) PUnit).run.run e = (.ok ⟨⟩, f e) := rfl

@[simp] theorem run_get (e : Engine) :
    (get : ExceptT ε (StateM Engine) Engine).run.run e = (.ok e, e) := rfl

@[simp] theorem run_set (e e' : Engine) :
    (set e' : ExceptT ε (StateM Engine) PUnit).run.run e = (.ok ⟨⟩, e') := rfl

@[simp] theorem run_stackSize (e : Engine) :
    (stackSize : ExceptT ε (StateM Engine) Nat).run.run e = (.ok e.stack.size, e) := rfl

theorem run_popValue (e : Engine) : (popValue : ExceptT ε (StateM Engine) Value).run.run e =
    match e.pop? with
    | some (v, e') => (.ok v, e')
    | none => (.ok .undefined, e) := by
  rcases h : e.pop? with _ | ⟨v, e'⟩ <;> simp only [popValue, run_bind, run_get, h] <;> rfl

end Runs

/-- Code run from `e` ends with `r`, what it finished with or the value it threw, and leaves
`e'`: it does not run out of fuel. -/
def Ends {α : Type} (m : Flow α) (e : Engine) (r : Except Value α) (e' : Engine) : Prop :=
  (attempt m).run.run e = (.ok r, e')

section Ends

variable {α : Type} {m : Flow α} {e e' : Engine}

theorem ends_ok_iff {a : α} : Ends m e (.ok a) e' ↔ m.run.run e = (.ok a, e') := by
  unfold Ends
  rw [attempt_run]
  rcases m.run.run e with ⟨(_ | _) | _, _⟩ <;> simp [Id]

theorem ends_error_iff {v : Value} : Ends m e (.error v) e' ↔ m.run.run e = (.error (.thrown v), e') := by
  unfold Ends
  rw [attempt_run]
  rcases m.run.run e with ⟨(_ | _) | _, _⟩ <;> simp [Id]

/-- Whether code ends, and with what, is read off the first part of its caught run. -/
theorem exists_ends_iff {r : Except Value α} :
    (∃ e', Ends m e r e') ↔ ((attempt m).run.run e).1 = .ok r := by
  unfold Ends
  rcases (attempt m).run.run e with ⟨_, e'⟩
  simp [Id]

end Ends

/-! ### Statements -/

namespace Engine

variable {e₀ e : Engine} {k : Completion}

/-- A finished statement leaves as many values as it found, one more after a `return`. -/
theorem Completed.size (done : e₀.Completed k e) :
    e.stack.size = e₀.stack.size + if k = .returning then 1 else 0 := by
  obtain ⟨-, s, rewritten, stack⟩ := done
  split at stack
  · obtain ⟨v, stack⟩ := stack
    simp [rewritten.1, *]
  · simp [rewritten.1, *]

/-- A finished statement leaves every slot below where it started as it was, save the
completion slot. -/
theorem Completed.below (done : e₀.Completed k e) {i : Nat} (inside : i < e₀.stack.size)
    (other : e₀.completionSlot ≠ some i) : e.stack[i]? = e₀.stack[i]? := by
  obtain ⟨-, s, rewritten, stack⟩ := done
  have inside : i < s.size := rewritten.1 ▸ inside
  rw [← rewritten.2 i other]
  split at stack
  · obtain ⟨v, stack⟩ := stack
    rw [stack, Array.getElem?_push_lt inside, Array.getElem?_eq_getElem inside]
  · rw [stack]

end Engine

namespace Evaluator

variable {d : Evaluator} {e₀ e : Engine}

/-- A statement that finished was run by the statement contract. -/
theorem Guarded.completed_of_ends (g : d.Guarded) (sound : e₀.Sound) {s : Stmt} {k : Completion}
    (ends : Ends (d.execStmt s) e₀ (.ok k) e) : e₀.Completed k e := by
  have ran := (triple_iff _ _ _ _).mp (g.execStmt s e₀) e₀ ⟨rfl, sound⟩
  rw [ends_ok_iff.mp ends] at ran
  exact ran.2

/-! ### The try statement -/

end Evaluator

/-- ES5's rule for a `finally` block (12.14): one that ends abruptly, by a throw or by a
completion other than a normal one, decides the outcome and drops what was pending; one that
completes normally lets the pending outcome through. -/
def afterFinally (pending final : Except Value Completion) : Except Value Completion :=
  match final with
  | .ok .normal => pending
  | abrupt => abrupt

@[simp] theorem afterFinally_normal (pending : Except Value Completion) :
    afterFinally pending (.ok .normal) = pending := rfl

theorem afterFinally_abrupt (pending : Except Value Completion) {final : Except Value Completion}
    (abrupt : final ≠ .ok .normal) : afterFinally pending final = final := by
  unfold afterFinally
  split
  · exact absurd rfl abrupt
  · rfl

namespace Engine

/-- The completion slot of global code lies below the stack a statement starts from, as it does
for every statement that global code runs. -/
def SlotBelow (e : Engine) : Prop := ∀ c, e.completionSlot = some c → c < e.stack.size

/-- The engine a `finally` block runs from once the block and the `catch` clause settled at `e`
with `r`: a pending exception waits in the slot `base` where the statement started, the stack
above it cut off; a pending return value already waits there. -/
def holding (e : Engine) (base : Nat) : Except Value Completion → Engine
  | .error v => (e.truncate base).push v
  | .ok _ => e

/-- The scope a `catch` clause runs in: under the scope of the code around it and with its
receiver, binding the exception to the parameter if there is one. -/
def catchScope (e : Engine) (exception : Value) (param : Option String) : HeapObject :=
  { kind := .scope e.currentScope e.thisValue,
    properties := match param with
      | some p => ({} : PropertyTable).set p exception
      | none => {} }

/-- The engine a `catch` clause runs from when its block threw `exception` at `e`: the stack cut
back to `base`, where the statement started, and the clause's scope allocated and entered. -/
def enterCatch (e : Engine) (base : Nat) (exception : Value) (param : Option String) : Engine :=
  let cut := e.truncate base
  let allocated := cut.alloc (cut.catchScope exception param)
  { allocated.2 with scopes := allocated.2.scopes.push (some allocated.1) }

/-- A `catch` clause runs in a scope of its own: a fresh object, entered on top of the scope of
the code around it, in which the parameter names the exception. -/
theorem enterCatch_binds {e : Engine} (wf : e.heap.WellFormed) (base : Nat) (exception : Value)
    (p : String) : ∃ scope, ¬ e.heap.Valid scope ∧
      (e.enterCatch base exception (some p)).currentScope = some scope ∧
      (e.enterCatch base exception (some p)).scopeParent scope = e.currentScope ∧
      (e.enterCatch base exception (some p)).lookupVar p = some exception := by
  let o := (e.truncate base).catchScope exception (some p)
  have found : (e.enterCatch base exception (some p)).object? (e.heap.alloc o).1 = some o :=
    Heap.get?_alloc_self wf
  have current : (e.enterCatch base exception (some p)).currentScope = some (e.heap.alloc o).1 := by
    simp [enterCatch, currentScope, o]
  have has : o.properties.contains p = true := by
    simp [o, catchScope, PropertyTable.set, PropertyTable.contains]
  have binds : o.properties.get? p = some exception := by
    simp [o, catchScope, PropertyTable.set, PropertyTable.get?]
  refine ⟨(e.heap.alloc o).1, fun live => Heap.alloc_index_ne wf live rfl, current, ?_, ?_⟩
  · rw [scopeParent, found]
    rfl
  · -- the innermost scope has the name, so the lookup stops there
    unfold lookupVar bindingScope
    rw [current]
    simp only [findScope, found, Option.any_some, has, if_true, Option.bind_some]
    exact binds

end Engine

namespace Evaluator

variable {d : Evaluator} {e₀ e : Engine}

/-- A `catch` clause runs its body from `enterCatch` and leaves its scope when the body ends. -/
theorem catchWith_run (base : Nat) (exception : Value) (param : Option String)
    (body : List Stmt) (e : Engine) :
    (d.catchWith base exception param body).run.run e =
      match (attempt (d.execBlock body)).run.run (e.enterCatch base exception param) with
      | (.ok r, e') => (.ok r, { e' with scopes := e'.scopes.pop })
      | (.error x, e') => (.error x, e') := by
  -- the scope object is built by a match on the parameter, so each shape is unfolded apart
  cases param <;>
    simp only [catchWith, run_bind, run_get, allocObject, run_set, run_modify, run_pure,
      Engine.enterCatch, Engine.catchScope] <;>
    split <;> rename_i ran <;> simp only [ran]

end Evaluator

/-- How the block and the `catch` clause of a `try` statement started at `e₀` settle, by ES5's
rules: a clause takes over when the block throws, running from `enterCatch`; otherwise the
block's outcome stands. -/
inductive TrySettles (d : Evaluator) (e₀ : Engine) (block : List Stmt) :
    Option (Option String × List Stmt) → Except Value Completion → Engine → Prop
  /-- The block finished: its completion stands. -/
  | finished {handler : Option (Option String × List Stmt)} {k : Completion} {e : Engine} :
      Ends (d.execBlock block) e₀ (.ok k) e → TrySettles d e₀ block handler (.ok k) e
  /-- The block threw and there is no `catch` clause: the exception stands. -/
  | uncaught {v : Value} {e : Engine} :
      Ends (d.execBlock block) e₀ (.error v) e → TrySettles d e₀ block none (.error v) e
  /-- The block threw and the `catch` clause ran: its outcome stands, its scope left. -/
  | caught {param : Option String} {body : List Stmt} {v : Value} {e₁ : Engine}
      {r : Except Value Completion} {e₂ : Engine} :
      Ends (d.execBlock block) e₀ (.error v) e₁ →
      Ends (d.execBlock body) (e₁.enterCatch e₀.stack.size v param) r e₂ →
      TrySettles d e₀ block (some (param, body)) r { e₂ with scopes := e₂.scopes.pop }

/-- The outcome of a `try` statement started at `e₀` by ES5's table: without a `finally` block,
how the block and the `catch` clause settle; with one, the rule of `afterFinally` applied to that
and to how the `finally` block ends, run from where the pending outcome waits. -/
def TryOutcome (d : Evaluator) (e₀ : Engine) (block : List Stmt)
    (handler : Option (Option String × List Stmt)) :
    Option (List Stmt) → Except Value Completion → Prop
  | none, r => ∃ e, TrySettles d e₀ block handler r e
  | some fin, r => ∃ settled e₁ final e₂, TrySettles d e₀ block handler settled e₁ ∧
      Ends (d.execBlock fin) (e₁.holding e₀.stack.size settled) final e₂ ∧
      r = afterFinally settled final

namespace Evaluator

variable {d : Evaluator} {e₀ e : Engine}

/-- The block and the `catch` clause end exactly as `TrySettles` says. -/
theorem tryCatch_run_iff {block : List Stmt} {handler : Option (Option String × List Stmt)}
    {r : Except Value Completion} :
    (d.tryCatch e₀.stack.size block handler).run.run e₀ = (.ok r, e) ↔
      TrySettles d e₀ block handler r e := by
  simp only [tryCatch, run_bind, attempt_run]
  constructor
  · rcases ran : (d.execBlock block).run.run e₀ with ⟨(v | _) | k, e₁⟩
    · -- the block threw: the clause, if there is one, takes over
      rcases handler with _ | ⟨param, body⟩
      · simp only [run_pure, Id, Prod.mk.injEq, Except.ok.injEq]
        rintro ⟨rfl, rfl⟩
        exact .uncaught (ends_error_iff.mpr ran)
      · simp only [catchWith_run]
        rcases caught : (attempt (d.execBlock body)).run.run (e₁.enterCatch e₀.stack.size v param)
          with ⟨_ | r', e₂⟩
        · simp [Id]
        · simp only [Id, Prod.mk.injEq, Except.ok.injEq]
          rintro ⟨rfl, rfl⟩
          exact .caught (ends_error_iff.mpr ran) caught
    · simp [Id]
    · rcases handler with _ | ⟨param, body⟩ <;> simp only [run_pure, Id, Prod.mk.injEq, Except.ok.injEq] <;>
        rintro ⟨rfl, rfl⟩ <;> exact .finished (ends_ok_iff.mpr ran)
  · rintro (⟨ended⟩ | ⟨ended⟩ | ⟨ended, caught⟩)
    · rw [ends_ok_iff.mp ended]
      cases handler <;> rfl
    · rw [ends_error_iff.mp ended]
      rfl
    · rw [ends_error_iff.mp ended]
      unfold Ends at caught
      simp only [catchWith_run, caught]

end Evaluator

namespace Engine

variable {e₀ e₁ e : Engine} {v : Value}

/-- An exception kept while a `finally` block runs is still on top when the block completes
normally: the block keeps every slot below where it started but the completion slot, and that
lies lower still. -/
theorem Completed.pending_top (sound : e₀.Sound) (below : e₀.SlotBelow)
    (pending : e₀.Completed .returning e₁) (top : e₁.stack[e₀.stack.size]? = some v)
    (done : e₁.Completed .normal e) : e.pop? = some (v, { e with stack := e.stack.pop }) := by
  have size₁ : e₁.stack.size = e₀.stack.size + 1 := by simpa using pending.size
  have size : e.stack.size = e₁.stack.size := by simpa using done.size
  have slot : e₁.completionSlot = e₀.completionSlot := congrArg Control.completionSlot pending.1
  have other : e₁.completionSlot ≠ some e₀.stack.size := fun same => by
    have := below _ (slot ▸ same)
    omega
  have kept : e.stack[e₀.stack.size]? = some v := by
    rw [done.below (by omega) other, top]
  have bottom : e.bottom = e₀.bottom :=
    (congrArg Control.bottom done.1).trans (congrArg Control.bottom pending.1)
  have framed := sound.framed
  have last : e.stack.size - 1 = e₀.stack.size := by omega
  simp only [pop?, Array.back?_eq_getElem?, last, kept, Option.getD_some]
  rw [if_pos (by omega)]

end Engine

namespace Evaluator

variable {d : Evaluator} {e₀ e₁ : Engine}

/-- The pending exception is what a `finally` block that completes normally throws again. -/
theorem Guarded.pending_kept (g : d.Guarded) (sound : e₀.Sound) (below : e₀.SlotBelow) {v : Value}
    (settled : e₀.Settled (.error v) e₁) (fin : List Stmt) {e₂ : Engine}
    (ran : (d.execBlock fin).run.run (e₁.holding e₀.stack.size (.error v)) = (.ok .normal, e₂)) :
    e₂.pop? = some (v, { e₂ with stack := e₂.stack.pop }) := by
  obtain ⟨run, unwound⟩ := settled
  obtain ⟨kept, pending⟩ := Engine.Unwound.keep sound run unwound
  have done := (triple_iff _ _ _ _).mp (g.execBlock_spec fin _) _ ⟨rfl, sound.of_above kept pending.above⟩
  simp only [Engine.holding] at ran
  rw [ran] at done
  have size : (e₁.stack.take e₀.stack.size).size = e₀.stack.size := by
    simpa using pending.size
  refine pending.pending_top sound below ?_ done.2
  simp only [Engine.stack_push, Engine.stack_truncate]
  rw [Array.getElem?_push, size, if_pos rfl]

/-- A `finally` block decides the outcome by ES5's rule: what the statement ends with is
`afterFinally` of the pending outcome and of how the block ends, and it runs out of fuel exactly
when the block does. -/
theorem Guarded.runFinally_outcome (g : d.Guarded) (sound : e₀.Sound) (below : e₀.SlotBelow)
    {r : Except Value Completion} (settled : e₀.Settled r e₁) (fin : List Stmt) :
    ((attempt (d.runFinally e₀.stack.size r fin)).run.run e₁).1 =
      ((attempt (d.execBlock fin)).run.run (e₁.holding e₀.stack.size r)).1.map (afterFinally r) := by
  cases r with
  | error v =>
    simp only [attempt_run, runFinally, run_bind, run_pure, run_modify, Engine.holding]
    rcases ran : (d.execBlock fin).run.run ((e₁.truncate e₀.stack.size).push v) with
      ⟨(w | _) | c, e₂⟩
    · rfl
    · rfl
    · by_cases normal : c = .normal
      · subst normal
        simp only [bne_self_eq_false, Bool.false_eq_true, if_false, run_bind, run_popValue,
          g.pending_kept sound below settled fin ran, run_throw]
        rfl
      · have abrupt : (c != .normal) = true := by simpa using normal
        simp only [abrupt, if_true, run_bind, run_modify, run_pure]
        exact congrArg Except.ok (afterFinally_abrupt _ (by simpa using normal)).symm
  | ok k =>
    -- whether a return value is pending only decides what is removed from the stack
    cases k <;>
    · simp only [attempt_run, runFinally, run_bind, run_pure, Engine.holding]
      rcases ran : (d.execBlock fin).run.run e₁ with ⟨(w | _) | c, e₂⟩
      · rfl
      · rfl
      · by_cases normal : c = .normal
        · subst normal
          simp only [bne_self_eq_false, Bool.false_eq_true, if_false, run_pure]
          rfl
        · have abrupt : (c != .normal) = true := by simpa using normal
          simp only [abrupt, if_true, run_bind, run_modify, run_pure]
          exact congrArg Except.ok (afterFinally_abrupt _ (by simpa using normal)).symm

theorem except_map_eq_ok {β γ : Type} {f : β → γ} {x : Except Unwind β} {c : γ} :
    x.map f = .ok c ↔ ∃ b, x = .ok b ∧ c = f b := by
  cases x <;> simp [Except.map, eq_comm]

/-- A `try` statement ends, and with what, exactly as ES5's table says of its parts. -/
theorem Guarded.execTry_outcome (g : d.Guarded) (sound : e₀.Sound) (below : e₀.SlotBelow)
    (block : List Stmt) (handler : Option (Option String × List Stmt)) (fin : Option (List Stmt))
    (r : Except Value Completion) :
    (∃ e, Ends (d.execTry block handler fin) e₀ r e) ↔ TryOutcome d e₀ block handler fin r := by
  have settles := (triple_iff _ _ _ _).mp (g.tryCatch_spec block handler e₀) e₀ ⟨rfl, sound⟩
  rw [exists_ends_iff]
  simp only [execTry, attempt_run, run_bind, run_stackSize]
  rcases ran : (d.tryCatch e₀.stack.size block handler).run.run e₀ with ⟨_ | settled, e₁⟩ <;>
    rw [ran] at settles
  · -- the block or the clause ran out of fuel, so nothing settled
    obtain ⟨rfl, -⟩ := settles
    cases fin <;> simp only [TryOutcome, ← tryCatch_run_iff, ran] <;> simp [Id]
  · cases fin with
    | none =>
      simp only [TryOutcome, ← tryCatch_run_iff, ran]
      cases settled <;> simp only [resume, run_pure, run_throw] <;> simp [Id, eq_comm]
    | some fin =>
      have outcome := g.runFinally_outcome sound below settles fin
      rw [attempt_run] at outcome
      simp only [TryOutcome, ← tryCatch_run_iff, ran, outcome, except_map_eq_ok,
        ← exists_ends_iff]
      simp [Id]

end Evaluator

/-! ### Completions, and the completion slot -/

open Evaluator in
/-- How statements complete, at every level of fuel. A finished statement leaves as many values
as it found, one more after a `return`, and every slot below where it started as it was, save
the completion slot of global code. A `try` statement ends, and with what, as ES5's table says
of its parts. A `catch` clause runs in a fresh scope, entered on top of the scope around it, in
which its parameter names the exception. -/
theorem statements_complete_by_es5 (n : Nat) :
    (∀ (s : Stmt) (e₀ e : Engine) (k : Completion), e₀.Sound →
      Ends ((ofFuel n).execStmt s) e₀ (.ok k) e →
      e.stack.size = e₀.stack.size + (if k = .returning then 1 else 0) ∧
        ∀ i < e₀.stack.size, e₀.completionSlot ≠ some i → e.stack[i]? = e₀.stack[i]?) ∧
    (∀ (e₀ : Engine) (block : List Stmt) (handler : Option (Option String × List Stmt))
      (fin : Option (List Stmt)) (r : Except Value Completion), e₀.Sound → e₀.SlotBelow →
      ((∃ e, Ends ((ofFuel n).execTry block handler fin) e₀ r e) ↔
        TryOutcome (ofFuel n) e₀ block handler fin r)) ∧
    (∀ (e : Engine) (base : Nat) (exception : Value) (p : String), e.heap.WellFormed →
      ∃ scope, ¬ e.heap.Valid scope ∧
        (e.enterCatch base exception (some p)).currentScope = some scope ∧
        (e.enterCatch base exception (some p)).scopeParent scope = e.currentScope ∧
        (e.enterCatch base exception (some p)).lookupVar p = some exception) := by
  have g := guarded_ofFuel n
  refine ⟨fun s e₀ e k sound ends => ?_, fun e₀ block handler fin r sound below =>
    g.execTry_outcome sound below block handler fin r, fun e base exception p wf =>
    Engine.enterCatch_binds wf base exception p⟩
  have done := g.completed_of_ends sound ends
  exact ⟨done.size, fun i inside other => done.below inside other⟩

/-- Where global code in a fresh engine runs its statements from: the slot of its completion
value pushed and made the completion slot, and a scope of its own entered. -/
def Engine.globalStart : Engine :=
  { (Engine.fresh {} 0).push .undefined with completionSlot := some 0, scopes := #[none] }

theorem Engine.globalStart_sound : Engine.globalStart.Sound := by
  have fresh := Engine.fresh_sound {} 0
  have pushed := fresh.of_steps (Engine.Step.push fresh.safe Heap.live_undefined).steps
    (Nat.zero_le _)
  have entered : ({ (Engine.fresh {} 0).push .undefined with scopes := #[none] } : Engine).Sound :=
    pushed.of_steps (Engine.Step.pushScope pushed.safe (by simp)).steps pushed.framed
  exact entered.of_roots rfl rfl rfl rfl rfl rfl

open Evaluator in
/-- An expression statement of global code writes below where it started: from the sound engine
global code runs its statements from, `true;` completes normally and leaves `true` in the
completion slot, which held `undefined`. -/
theorem expression_statement_overwrites_completion_slot :
    Engine.globalStart.Sound ∧ Engine.globalStart.stack[0]? = some .undefined ∧
      ∃ e, Ends ((ofFuel 2).execStmt (.expr (.bool true))) Engine.globalStart (.ok .normal) e ∧
        e.stack[0]? = some (.bool true) :=
  ⟨Engine.globalStart_sound, rfl, _, rfl, rfl⟩

end EmbedScript
