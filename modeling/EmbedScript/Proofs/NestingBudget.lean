import Mathlib
import EmbedScript.Proofs.Outcomes

/-!
How deep call-free code nests. Each statement and each expression the evaluator runs takes one
native level, and `withNesting` refuses a level past `maxNesting` with a range error. Code that
calls no function is `Within n` when its syntax tree is at most `n` nodes high; a function
literal counts one node, since its body is not run.

The budget is stated against an evaluator that counts the levels it nests but has no limit.
Two evaluators `Agree` when they run call-free code alike from every sound engine with room for
it; this module shows that one level of evaluation keeps the agreement for expressions, and
`EmbedScript.Proofs.NestingLimit` does so for statements and loops.
-/

namespace EmbedScript

open Std.Do Syntax

/-! ### Call-free code of bounded height -/

namespace Syntax

/-- `x.Within n`: evaluating `x` calls no function and nests at most `n` levels, one for each
node on a path of its syntax tree. -/
inductive Expr.Within : Nat → Expr → Prop
  | number {n : Nat} {v : Float} : Within (n + 1) (.number v)
  | string {n : Nat} {s : String} : Within (n + 1) (.string s)
  | bool {n : Nat} {b : Bool} : Within (n + 1) (.bool b)
  | null {n : Nat} : Within (n + 1) .null
  | this {n : Nat} : Within (n + 1) .this
  | ident {n : Nat} {name : String} : Within (n + 1) (.ident name)
  | function {n : Nat} {defn : FunctionDef} : Within (n + 1) (.function defn)
  | array {n : Nat} {elems : List (Option Expr)} :
      (∀ el ∈ elems, ∀ x ∈ el, Within n x) → Within (n + 1) (.array elems)
  | object {n : Nat} {props : List (String × Expr)} :
      (∀ p ∈ props, Within n p.2) → Within (n + 1) (.object props)
  | unary {n : Nat} {op : UnaryOp} {x : Expr} : Within n x → Within (n + 1) (.unary op x)
  | update {n : Nat} {inc pre : Bool} {x : Expr} :
      Within n x → Within (n + 1) (.update inc pre x)
  | binary {n : Nat} {op : BinaryOp} {l r : Expr} :
      Within n l → Within n r → Within (n + 1) (.binary op l r)
  | logical {n : Nat} {op : LogicalOp} {l r : Expr} :
      Within n l → Within n r → Within (n + 1) (.logical op l r)
  | assign {n : Nat} {op : Option BinaryOp} {target value : Expr} :
      Within n target → Within n value → Within (n + 1) (.assign op target value)
  | conditional {n : Nat} {test yes no : Expr} :
      Within n test → Within n yes → Within n no → Within (n + 1) (.conditional test yes no)
  | member {n : Nat} {obj : Expr} {name : String} :
      Within n obj → Within (n + 1) (.member obj name)
  | index {n : Nat} {obj key : Expr} : Within n obj → Within n key → Within (n + 1) (.index obj key)
  | sequence {n : Nat} {es : List Expr} : (∀ x ∈ es, Within n x) → Within (n + 1) (.sequence es)

/-- The initializers of a `for` loop are call-free and at most `n` levels high. -/
def ForInit.Within (n : Nat) : ForInit → Prop
  | .var decls => ∀ d ∈ decls, ∀ x ∈ d.2, x.Within n
  | .expr x => x.Within n

/-- `s.Within n`: running `s` calls no function and nests at most `n` levels, one for each
statement and expression on a path of its syntax tree. -/
inductive Stmt.Within : Nat → Stmt → Prop
  | empty {n : Nat} : Within (n + 1) .empty
  | expr {n : Nat} {x : Expr} : x.Within n → Within (n + 1) (.expr x)
  | var {n : Nat} {decls : List (String × Option Expr)} :
      (∀ d ∈ decls, ∀ x ∈ d.2, x.Within n) → Within (n + 1) (.var decls)
  | block {n : Nat} {body : List Stmt} : (∀ s ∈ body, Within n s) → Within (n + 1) (.block body)
  | ifStmt {n : Nat} {test : Expr} {yes : Stmt} {no : Option Stmt} :
      test.Within n → Within n yes → (∀ s ∈ no, Within n s) →
      Within (n + 1) (.ifStmt test yes no)
  | whileStmt {n : Nat} {test : Expr} {body : Stmt} :
      test.Within n → Within n body → Within (n + 1) (.whileStmt test body)
  | doWhile {n : Nat} {body : Stmt} {test : Expr} :
      Within n body → test.Within n → Within (n + 1) (.doWhile body test)
  | forStmt {n : Nat} {init : Option ForInit} {test update : Option Expr} {body : Stmt} :
      (∀ i ∈ init, i.Within n) → (∀ x ∈ test, x.Within n) → (∀ x ∈ update, x.Within n) →
      Within n body → Within (n + 1) (.forStmt init test update body)
  | forIn {n : Nat} {target : ForInTarget} {obj : Expr} {body : Stmt} :
      (∀ x, target = .expr x → x.Within n) → obj.Within n → Within n body →
      Within (n + 1) (.forIn target obj body)
  | switch {n : Nat} {disc : Expr} {cases : List (Option Expr × List Stmt)} :
      disc.Within n → (∀ c ∈ cases, ∀ x ∈ c.1, x.Within n) → (∀ c ∈ cases, ∀ s ∈ c.2, Within n s) →
      Within (n + 1) (.switch disc cases)
  | breakStmt {n : Nat} : Within (n + 1) .breakStmt
  | continueStmt {n : Nat} : Within (n + 1) .continueStmt
  | returnStmt {n : Nat} {value : Option Expr} :
      (∀ x ∈ value, x.Within n) → Within (n + 1) (.returnStmt value)
  | throwStmt {n : Nat} {x : Expr} : x.Within n → Within (n + 1) (.throwStmt x)
  | tryStmt {n : Nat} {block : List Stmt} {handler : Option (Option String × List Stmt)}
      {fin : Option (List Stmt)} :
      (∀ s ∈ block, Within n s) → (∀ h ∈ handler, ∀ s ∈ h.2, Within n s) →
      (∀ f ∈ fin, ∀ s ∈ f, Within n s) → Within (n + 1) (.tryStmt block handler fin)

end Syntax

/-! ### Nesting with no limit -/

namespace Evaluator

/-- Runs script code one native level deeper, as `withNesting` does, with no limit. -/
def nestFreely {α : Type} (act : Flow α) : Flow α := do
  modify fun e => { e with nesting := e.nesting + 1 }
  let r ← attempt act
  modify fun e => { e with nesting := e.nesting - 1 }
  resume r

/-- The evaluator with `fuel` levels that counts the levels it nests but never refuses one. -/
def unlimited : Nat → Evaluator
  | 0 => exhausted
  | n + 1 =>
    { execStmt := fun s => nestFreely ((unlimited n).execStmtKind s)
      evalExpr := fun x => nestFreely ((unlimited n).evalExprKind x)
      execWhile := fun t b => (unlimited n).whileRound t b
      execDoWhile := fun b t => (unlimited n).doWhileRound b t
      execFor := fun t u b => (unlimited n).forRound t u b
      invoke := fun k c => (unlimited n).invokeStep k c
      finalizeQueued := fun count => (unlimited n).finalizeRound count }

end Evaluator

/-! ### Runs that agree -/

section Agreeing

variable {α β : Type} {m₁ m₂ : Flow α} {f₁ f₂ : α → Flow β} {e : Engine}

/-- Two runs agree after first parts that agree, when they agree from wherever those finish. -/
theorem run_bind_congr (first : m₁.run.run e = m₂.run.run e)
    (rest : ∀ a e', m₁.run.run e = (.ok a, e') → (f₁ a).run.run e' = (f₂ a).run.run e') :
    (m₁ >>= f₁).run.run e = (m₂ >>= f₂).run.run e := by
  rw [run_bind, run_bind, ← first]
  rcases ran : m₁.run.run e with ⟨_ | a, e'⟩
  · rfl
  · exact rest a e' ran

theorem attempt_congr (same : m₁.run.run e = m₂.run.run e) :
    (attempt m₁).run.run e = (attempt m₂).run.run e := by
  rw [attempt_run, attempt_run, same]

/-- A discarded result is a result not used. -/
theorem discard_bind (m : Flow α) (f : PUnit → Flow β) :
    discard m >>= f = m >>= fun _ => f ⟨⟩ :=
  bind_map_left _ m f

theorem nestFreely_congr
    (same : m₁.run.run { e with nesting := e.nesting + 1 } =
      m₂.run.run { e with nesting := e.nesting + 1 }) :
    (Evaluator.nestFreely m₁).run.run e = (Evaluator.nestFreely m₂).run.run e :=
  run_bind_congr rfl fun _ _ entered => by
    cases entered
    exact run_bind_congr (attempt_congr same) fun _ _ _ => rfl

/-- Below the limit, `withNesting` is nesting with no limit. -/
theorem withNesting_run_below {act : Flow α} (below : e.nesting < maxNesting) :
    (withNesting act).run.run e = (Evaluator.nestFreely act).run.run e := by
  have open_ : ¬ e.nesting ≥ maxNesting := Nat.not_le.mpr below
  simp only [withNesting, Evaluator.nestFreely, run_bind, run_get, open_, if_false]

end Agreeing

/-! ### Room for nesting -/

/-- A sound engine with room for `n` more levels of nesting. -/
structure Engine.Room (e : Engine) (n : Nat) : Prop where
  sound : e.Sound
  fits : e.nesting + n ≤ maxNesting

namespace Engine.Room

variable {e₀ e : Engine} {n m : Nat}

theorem mono (room : e.Room n) (le : m ≤ n) : e.Room m :=
  ⟨room.sound, by have := room.fits; omega⟩

theorem below (room : e.Room (n + 1)) : e.nesting < maxNesting := by
  have := room.fits
  omega

/-- One level in, one level less is left. -/
theorem deeper (room : e.Room (n + 1)) : { e with nesting := e.nesting + 1 }.Room n :=
  ⟨room.sound.of_roots rfl rfl rfl rfl rfl rfl, by have := room.fits; simp only; omega⟩

/-- Code that moved the engine by steps and left it at the same level leaves the room. -/
theorem after (room : e₀.Room n) (run : e₀.Steps e) (above : e₀.Above e) : e.Room n := by
  have level : e.nesting = e₀.nesting := congrArg Control.nesting above.1
  exact ⟨room.sound.of_above run above, level ▸ room.fits⟩

theorem kept (room : e₀.Room n) (kept : e₀.Kept e) : e.Room n :=
  room.after kept.1 kept.above

end Engine.Room

/-- Two runs agree after first parts that agree, when they agree from wherever the first, run by
its contract, finishes. -/
theorem run_bind_of_spec {α β : Type} {m₁ m₂ : Flow α} {f₁ f₂ : α → Flow β} {e : Engine}
    {P : Engine → Prop} {Q : α → Engine → Prop} {E : Unwind → Engine → Prop}
    (spec : ⦃fun e' => ⌜P e'⌝⦄ m₁ ⦃post⟨fun a e' => ⌜Q a e'⌝, fun u e' => ⌜E u e'⌝⟩⦄) (pre : P e)
    (first : m₁.run.run e = m₂.run.run e)
    (rest : ∀ a e', Q a e' → (f₁ a).run.run e' = (f₂ a).run.run e') :
    (m₁ >>= f₁).run.run e = (m₂ >>= f₂).run.run e :=
  run_bind_congr first fun a e' ran => by
    have post := (triple_iff _ _ _ _).mp spec e pre
    rw [ran] at post
    exact rest a e' post

/-- The same, for a first part that moves the engine by steps and leaves it at its level: what
follows runs with the room the first part had. -/
theorem run_bind_room {α β : Type} {m₁ m₂ : Flow α} {f₁ f₂ : α → Flow β} {e : Engine} {n : Nat}
    {Q : α → Engine → Prop} {E : Unwind → Engine → Prop}
    (spec : ⦃fun e' => ⌜e' = e ∧ e.Sound⌝⦄ m₁ ⦃post⟨fun a e' => ⌜Q a e'⌝, fun u e' => ⌜E u e'⌝⟩⦄)
    (moved : ∀ a e', Q a e' → e.Steps e' ∧ e.Above e') (room : e.Room n)
    (first : m₁.run.run e = m₂.run.run e)
    (rest : ∀ a e', e'.Room n → Q a e' → (f₁ a).run.run e' = (f₂ a).run.run e') :
    (m₁ >>= f₁).run.run e = (m₂ >>= f₂).run.run e :=
  run_bind_of_spec spec ⟨rfl, room.sound⟩ first fun a e' post =>
    rest a e' (room.after (moved a e' post).1 (moved a e' post).2) post

/-- With room for a level, `withNesting` runs as a level with no limit, when what it runs one
level in does. -/
theorem withNesting_run_room {α : Type} {act₁ act₂ : Flow α} {e : Engine} {n : Nat}
    (room : e.Room (n + 1))
    (inner : act₁.run.run { e with nesting := e.nesting + 1 } =
      act₂.run.run { e with nesting := e.nesting + 1 }) :
    (withNesting act₁).run.run e = (Evaluator.nestFreely act₂).run.run e := by
  rw [withNesting_run_below room.below]
  exact nestFreely_congr inner

/-- Two evaluators agree when they run call-free code alike from every engine with room for
it: statements, expressions and the next rounds of loops. -/
structure Agree (d₁ d₂ : Evaluator) : Prop where
  execStmt : ∀ s n e, s.Within n → e.Room n →
    (d₁.execStmt s).run.run e = (d₂.execStmt s).run.run e
  evalExpr : ∀ x n e, x.Within n → e.Room n →
    (d₁.evalExpr x).run.run e = (d₂.evalExpr x).run.run e
  execWhile : ∀ t b n e, t.Within n → b.Within n → e.Room n →
    (d₁.execWhile t b).run.run e = (d₂.execWhile t b).run.run e
  execDoWhile : ∀ b t n e, b.Within n → t.Within n → e.Room n →
    (d₁.execDoWhile b t).run.run e = (d₂.execDoWhile b t).run.run e
  execFor : ∀ t u b n e, (∀ x ∈ t, x.Within n) → (∀ x ∈ u, x.Within n) → b.Within n →
    e.Room n → (d₁.execFor t u b).run.run e = (d₂.execFor t u b).run.run e

/-- With no fuel, both evaluators stop at once. -/
theorem agree_exhausted : Agree .exhausted .exhausted :=
  ⟨fun _ _ _ _ _ => rfl, fun _ _ _ _ _ => rfl, fun _ _ _ _ _ _ _ => rfl,
    fun _ _ _ _ _ _ _ => rfl, fun _ _ _ _ _ _ _ _ _ => rfl⟩

/-! ### One level of expressions -/

namespace Agree

open Evaluator

variable {d₁ d₂ : Evaluator} {e : Engine} {n : Nat}

theorem evalPop (agree : Agree d₁ d₂) {x : Expr} (within : x.Within n) (room : e.Room n) :
    (d₁.evalPop x).run.run e = (d₂.evalPop x).run.run e :=
  run_bind_congr (agree.evalExpr x n e within room) fun _ _ _ => rfl

/-- After the value of an expression, what follows runs alike when it does from every engine with
room that keeps the engine before and holds the value live. -/
theorem afterPop {β : Type} (agree : Agree d₁ d₂) (g : d₁.Guarded) {x : Expr}
    (within : x.Within n) (room : e.Room n) {f₁ f₂ : Value → Flow β}
    (rest : ∀ v e', e'.Room n → e.Kept e' → e'.heap.Live v → (f₁ v).run.run e' = (f₂ v).run.run e') :
    (d₁.evalPop x >>= f₁).run.run e = (d₂.evalPop x >>= f₂).run.run e :=
  run_bind_room (g.evalPop_spec x e) (fun _ _ post => ⟨post.1.1, post.1.above⟩) room
    (agree.evalPop within room) fun v e' room' post => rest v e' room' post.1 post.2

/-- After an expression pushes its value, what follows runs alike when it does from every engine
with room that the expression reached by steps and one push. -/
theorem afterExpr {β : Type} (agree : Agree d₁ d₂) (g : d₁.Guarded) {x : Expr}
    (within : x.Within n) (room : e.Room n) {f₁ f₂ : Unit → Flow β}
    (rest : ∀ e', e'.Room n → e.Steps e' → e.Pushed e' → (f₁ ()).run.run e' = (f₂ ()).run.run e') :
    (d₁.evalExpr x >>= f₁).run.run e = (d₂.evalExpr x >>= f₂).run.run e :=
  run_bind_room (g.evalExpr x e) (fun _ _ post => ⟨post.1, post.2.above⟩) room
    (agree.evalExpr x n e within room) fun _ e' room' post => rest e' room' post.1 post.2

/-- An assignment target evaluates what it is a property of, one level below it. -/
theorem evalRef (agree : Agree d₁ d₂) (g : d₁.Guarded) {target : Expr} (within : target.Within n)
    (room : e.Room n) : (d₁.evalRef target).run.run e = (d₂.evalRef target).run.run e := by
  cases within with
  | member inner =>
    refine run_bind_congr rfl fun _ _ read => ?_
    cases read
    exact run_bind_congr (agree.evalExpr _ _ e inner (room.mono (by omega))) fun _ _ _ => rfl
  | index obj key =>
    refine run_bind_congr rfl fun _ _ read => ?_
    cases read
    exact agree.afterExpr g obj (room.mono (by omega)) fun e₁ room₁ _ _ =>
      run_bind_congr (agree.evalPop key room₁) fun _ _ _ => rfl
  | _ => rfl

theorem evalElements (agree : Agree d₁ d₂) (g : d₁.Guarded) (id : ObjectId) :
    ∀ (elems : List (Option Expr)) (e : Engine), (∀ el ∈ elems, ∀ x ∈ el, x.Within n) →
      e.Room n → (d₁.evalElements id elems).run.run e = (d₂.evalElements id elems).run.run e
  | [], _, _, _ => rfl
  | none :: rest, e, within, room => by
    -- a hole appends undefined and evaluates nothing
    refine run_bind_congr rfl fun v e₁ ran => ?_
    cases ran
    refine run_bind_congr rfl fun _ e₂ ran => ?_
    cases ran
    have kept := (Engine.Kept.refl e).appendElement room.sound id Heap.live_undefined
    exact evalElements agree g id rest _ (fun el mem => within el (.tail _ mem)) (room.kept kept)
  | some x :: rest, e, within, room =>
    agree.afterPop g (within _ (.head _) x rfl) room fun v e₁ room₁ _ live => by
        refine run_bind_congr rfl fun _ e₂ ran => ?_
        cases ran
        have kept := (Engine.Kept.refl e₁).appendElement room₁.sound id live
        exact evalElements agree g id rest _ (fun el mem => within el (.tail _ mem))
          (room₁.kept kept)

theorem evalProperties (agree : Agree d₁ d₂) (g : d₁.Guarded) (id : ObjectId) :
    ∀ (props : List (String × Expr)) (e : Engine), (∀ p ∈ props, p.2.Within n) →
      e.Room n → (d₁.evalProperties id props).run.run e = (d₂.evalProperties id props).run.run e
  | [], _, _, _ => rfl
  | (key, x) :: rest, e, within, room =>
    agree.afterPop g (within _ (.head _)) room fun v e₁ room₁ _ live => by
        -- the property is written to the object, which only moves the heap
        refine run_bind_congr rfl fun _ e₂ ran => ?_
        have put := (triple_iff _ _ _ _).mp (objectPut_spec id key v e₁) e₁
          ⟨rfl, room₁.sound.safe, live⟩
        rw [ran] at put
        exact evalProperties agree g id rest _ (fun p mem => within p (.tail _ mem))
          (room₁.kept put)

/-- `delete` evaluates the object and key of a property, or any other operand whole. -/
theorem evalDelete (agree : Agree d₁ d₂) (g : d₁.Guarded) {target : Expr}
    (within : target.Within n) (room : e.Room n) :
    (d₁.evalDelete target).run.run e = (d₂.evalDelete target).run.run e := by
  cases target with
  | member obj name =>
    cases within with
    | member inner =>
      exact run_bind_congr (agree.evalPop inner (room.mono (by omega))) fun _ _ _ => rfl
  | index obj key =>
    cases within with
    | index inner innerKey =>
      exact agree.afterExpr g inner (room.mono (by omega)) fun e₁ room₁ _ _ =>
        run_bind_congr (agree.evalPop innerKey room₁) fun _ _ _ => rfl
  | ident => rfl
  | _ =>
    simp only [Evaluator.evalDelete, discard_bind]
    exact run_bind_congr (agree.evalPop within room) fun _ _ _ => rfl

theorem evalUnary (agree : Agree d₁ d₂) (g : d₁.Guarded) (op : UnaryOp) {operand : Expr}
    (within : operand.Within n) (room : e.Room n) :
    (d₁.evalUnary op operand).run.run e = (d₂.evalUnary op operand).run.run e := by
  cases op with
  | typeOf =>
    -- the type of a variable is read without evaluating it
    cases operand with
    | ident => rfl
    | _ => exact run_bind_congr (agree.evalPop within room) fun _ _ _ => rfl
  | delete => exact agree.evalDelete g within room
  | void =>
    simp only [Evaluator.evalUnary, discard_bind]
    exact run_bind_congr (agree.evalPop within room) fun _ _ _ => rfl
  | _ => exact run_bind_congr (agree.evalPop within room) fun _ _ _ => rfl

/-- A compound assignment reads the target and keeps its value on the stack under the right
side. -/
theorem evalCompound (agree : Agree d₁ d₂) (ref : Reference) (op : BinaryOp) {value : Expr}
    (within : value.Within n) (room : e.Room n) :
    (d₁.evalCompound ref op value).run.run e = (d₂.evalCompound ref op value).run.run e := by
  refine run_bind_congr rfl fun current e₁ ran => ?_
  have read := (triple_iff _ _ _ _).mp (Reference.read_spec ref e) e ⟨rfl, room.sound.safe⟩
  rw [ran] at read
  obtain ⟨rfl, live⟩ := read
  refine run_bind_congr rfl fun _ e₂ ran => ?_
  cases ran
  have pushed := room.sound.safe.push (.refl _) live
  exact run_bind_congr (agree.evalExpr value n _ within (room.after pushed.1 pushed.2.above))
    fun _ _ _ => rfl

theorem evalAssign (agree : Agree d₁ d₂) (g : d₁.Guarded) (op : Option BinaryOp)
    {target value : Expr} (onTarget : target.Within n) (onValue : value.Within n)
    (room : e.Room n) :
    (d₁.evalAssign op target value).run.run e = (d₂.evalAssign op target value).run.run e := by
  refine run_bind_congr rfl fun _ _ read => ?_
  cases read
  refine run_bind_room (g.evalRef_spec target e) (fun _ _ post => ⟨post.1, post.2.above⟩) room
    (agree.evalRef g onTarget room) fun ref e₁ room₁ _ => ?_
  cases op with
  | none => exact run_bind_congr (agree.evalExpr value n e₁ onValue room₁) fun _ _ _ => rfl
  | some op => exact run_bind_congr (agree.evalCompound ref op onValue room₁) fun _ _ _ => rfl

theorem evalUpdate (agree : Agree d₁ d₂) (g : d₁.Guarded) (inc pre : Bool) {target : Expr}
    (within : target.Within n) (room : e.Room n) :
    (d₁.evalUpdate inc pre target).run.run e = (d₂.evalUpdate inc pre target).run.run e := by
  refine run_bind_congr rfl fun _ _ read => ?_
  cases read
  exact run_bind_congr (agree.evalRef g within room) fun _ _ _ => rfl

theorem evalOperands (agree : Agree d₁ d₂) (g : d₁.Guarded) {first second : Expr}
    (onFirst : first.Within n) (onSecond : second.Within n) (room : e.Room n) :
    (d₁.evalOperands first second).run.run e = (d₂.evalOperands first second).run.run e :=
  agree.afterExpr g onFirst room fun e₁ room₁ _ _ =>
      run_bind_congr (agree.evalExpr second n e₁ onSecond room₁) fun _ _ _ => rfl

theorem evalSequence (agree : Agree d₁ d₂) (g : d₁.Guarded) :
    ∀ (es : List Expr) (e : Engine), (∀ x ∈ es, x.Within n) → e.Room n →
      (d₁.evalSequence es).run.run e = (d₂.evalSequence es).run.run e
  | [], _, _, _ => rfl
  | [x], e, within, room => agree.evalExpr x n e (within x (.head _)) room
  | x :: y :: rest, e, within, room => by
    simp only [Evaluator.evalSequence, discard_bind]
    exact agree.afterPop g (within x (.head _)) room fun _ e₁ room₁ _ _ =>
        evalSequence agree g (y :: rest) e₁ (fun z mem => within z (.tail _ mem)) room₁

/-- One level of evaluating a call-free expression runs alike on evaluators that agree below
it. -/
theorem evalExprKind (agree : Agree d₁ d₂) (g : d₁.Guarded) {x : Expr} (within : x.Within (n + 1))
    (room : e.Room n) : (d₁.evalExprKind x).run.run e = (d₂.evalExprKind x).run.run e := by
  cases within with
  | array inner =>
    -- the elements are appended to a fresh array, pushed first
    refine run_bind_of_spec (allocObject_spec _ e) ⟨rfl, room.sound.safe,
      .bare (by simp) (by simp) (by simp [HeapObject.references, PropertyTable.values])⟩ rfl
      fun id e₁ made => run_bind_congr rfl fun _ e₂ ran => ?_
    cases ran
    have pushed := room.sound.safe.push made.1 (Heap.live_object.mpr made.2)
    exact agree.evalElements g id _ _ inner (room.after pushed.1 pushed.2.above)
  | object inner =>
    refine run_bind_of_spec (allocObject_spec _ e) ⟨rfl, room.sound.safe,
      .bare (by simp) (by simp) (by simp [HeapObject.references, PropertyTable.values])⟩ rfl
      fun id e₁ made => run_bind_congr rfl fun _ e₂ ran => ?_
    cases ran
    have pushed := room.sound.safe.push made.1 (Heap.live_object.mpr made.2)
    exact agree.evalProperties g id _ _ inner (room.after pushed.1 pushed.2.above)
  | unary inner => exact agree.evalUnary g _ inner room
  | update inner => exact agree.evalUpdate g _ _ inner room
  | binary left right => exact run_bind_congr (agree.evalOperands g left right room) fun _ _ _ => rfl
  | @logical _ _ l r left right =>
    refine agree.afterExpr g left room fun e₁ room₁ steps pushed => ?_
    -- if the left value does not decide, the right operand runs from where it was popped
    have right : (discard (popValue : Flow Value) >>= fun _ => d₁.evalExpr r).run.run e₁ =
        (discard (popValue : Flow Value) >>= fun _ => d₂.evalExpr r).run.run e₁ := by
      rw [discard_bind, discard_bind]
      refine run_bind_congr rfl fun _ e₃ ran => ?_
      have pop := (triple_iff (popValue : Flow Value) _ _ _).mp (popValue_spec e₁) e₁
        ⟨rfl, pushed.nonempty room.sound⟩
      rw [ran] at pop
      obtain ⟨-, rfl⟩ := pop
      exact agree.evalExpr _ n _ right (room.kept (pushed.popped room.sound steps).1)
    refine run_bind_congr rfl fun _ e₂ ran => ?_
    cases ran
    split <;> dsimp only <;> split
    · exact right
    · rfl
    · exact right
    · rfl
  | assign target value => exact agree.evalAssign g _ target value room
  | conditional test yes no =>
    exact agree.afterPop g test room fun _ e₁ room₁ _ _ =>
        agree.evalExpr _ n e₁ (by split <;> assumption) room₁
  | member inner => exact run_bind_congr (agree.evalPop inner room) fun _ _ _ => rfl
  | index obj key => exact run_bind_congr (agree.evalOperands g obj key room) fun _ _ _ => rfl
  | sequence inner => exact agree.evalSequence g _ e inner room
  | _ => rfl

end Agree

end EmbedScript
