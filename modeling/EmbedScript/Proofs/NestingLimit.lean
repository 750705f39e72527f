import Mathlib
import EmbedScript.Proofs.NestingBudget

/-!
Call-free code that fits the nesting budget never meets the nesting limit. Statements, loop
rounds and the parts of `try` and `switch` statements keep the agreement of `Agree` one level up,
so every level of `Evaluator.ofFuel` agrees with the evaluator of the same fuel that has no
limit. A program whose statements are call-free and at most as high as the levels left runs
exactly as it would with no limit, so it never throws the range error of the limit.
-/

namespace EmbedScript

open Std.Do Syntax

theorem allocObject_run (o : HeapObject) (e : Engine) :
    (allocObject o : Flow ObjectId).run.run e = (.ok (e.alloc o).1, (e.alloc o).2) :=
  rfl

namespace Engine.Room

variable {e₀ e₁ : Engine} {n : Nat}

/-- A `catch` clause runs from a sound engine with the room its `try` statement had. -/
theorem enterCatch {exception : Value} (room : e₀.Room n) (run : e₀.Steps e₁)
    (unwound : e₀.Unwound (.thrown exception) e₁) (param : Option String) :
    (e₁.enterCatch e₀.stack.size exception param).Room n := by
  obtain ⟨live, above⟩ := unwound
  have cutting := run.tail (.truncate (run.safe' room.sound.safe) e₀.stack.size)
  have safe := cutting.safe' room.sound.safe
  -- the scope binds the exception, which is live
  have bound : ∀ w ∈ ((e₁.truncate e₀.stack.size).catchScope exception param).properties.values,
      (e₁.truncate e₀.stack.size).heap.Live w := by
    cases param with
    | some p => exact PropertyTable.live_values_set PropertyTable.live_values_empty live
    | none => exact PropertyTable.live_values_empty
  have made := (triple_iff (allocObject ((e₁.truncate e₀.stack.size).catchScope exception param) :
    Flow ObjectId) _ _ _).mp (allocObject_spec _ _) _ ⟨rfl, safe, safe.allocatable_scope bound⟩
  rw [allocObject_run] at made
  obtain ⟨kept, valid⟩ := made
  obtain ⟨reached, cut⟩ := above.truncate.kept cutting kept
  have sound₁ := room.sound.of_above reached cut.above
  have level : e₁.nesting = e₀.nesting := congrArg Control.nesting above.1
  exact ⟨⟨sound₁.safe.step (.pushScope sound₁.safe (by simpa using valid)), sound₁.framed⟩,
    level ▸ room.fits⟩

/-- A `finally` block runs from a sound engine with the room its `try` statement had. -/
theorem holding {r : Except Value Completion} (room : e₀.Room n) (settled : e₀.Settled r e₁) :
    (e₁.holding e₀.stack.size r).Room n := by
  cases r with
  | error v =>
    obtain ⟨kept, pending⟩ := Engine.Unwound.keep room.sound settled.1 settled.2
    exact room.after kept pending.above
  | ok k => exact room.after settled.1 settled.2.above

end Engine.Room

namespace Agree

open Evaluator

variable {d₁ d₂ : Evaluator} {e : Engine} {n : Nat}

theorem execBlock (agree : Agree d₁ d₂) (g : d₁.Guarded) :
    ∀ (body : List Stmt) (e : Engine), (∀ s ∈ body, s.Within n) → e.Room n →
      (d₁.execBlock body).run.run e = (d₂.execBlock body).run.run e
  | [], _, _, _ => rfl
  | s :: rest, e, within, room =>
    run_bind_room (g.execStmt s e) (fun _ _ post => ⟨post.1, post.2.above⟩) room
      (agree.execStmt s n e (within s (.head _)) room) fun _ e₁ room₁ _ => by
        split
        · rfl
        · exact execBlock agree g rest e₁ (fun s mem => within s (.tail _ mem)) room₁

theorem execDeclarations (agree : Agree d₁ d₂) (g : d₁.Guarded) :
    ∀ (decls : List (String × Option Expr)) (e : Engine), (∀ d ∈ decls, ∀ x ∈ d.2, x.Within n) →
      e.Room n → (d₁.execDeclarations decls).run.run e = (d₂.execDeclarations decls).run.run e
  | [], _, _, _ => rfl
  | (name, none) :: rest, e, within, room => by
    -- a declaration without initializer does nothing when it runs
    simp only [Evaluator.execDeclarations]
    exact execDeclarations agree g rest e (fun d mem => within d (.tail _ mem)) room
  | (name, some x) :: rest, e, within, room => by
    simp only [Evaluator.execDeclarations]
    refine agree.afterPop g (within _ (.head _) x rfl) room fun v e₁ room₁ _ live => ?_
    -- the variable takes the value, which only moves the heap
    refine run_bind_congr rfl fun _ _ ran => ?_
    cases ran
    have assigned : e₁.Kept (e₁.assignVar name v) :=
      ⟨(Engine.Step.assignVar room₁.sound.safe name live).steps, rfl, rfl⟩
    exact execDeclarations agree g rest _ (fun d mem => within d (.tail _ mem)) (room₁.kept assigned)

theorem execLoopBody (agree : Agree d₁ d₂) {body : Stmt} (within : body.Within n)
    (room : e.Room n) : (d₁.execLoopBody body).run.run e = (d₂.execLoopBody body).run.run e :=
  run_bind_congr (agree.execStmt body n e within room) fun _ _ _ => rfl

/-- After the body of a loop, what follows runs alike when it does from every engine with room. -/
theorem afterLoopBody (agree : Agree d₁ d₂) (g : d₁.Guarded) {body : Stmt}
    (within : body.Within n) (room : e.Room n) {k₁ k₂ : Option Completion → Flow Completion}
    (rest : ∀ exit e', e'.Room n → (k₁ exit).run.run e' = (k₂ exit).run.run e') :
    (d₁.execLoopBody body >>= k₁).run.run e = (d₂.execLoopBody body >>= k₂).run.run e :=
  run_bind_room (g.execLoopBody_spec body e) (fun _ _ post => ⟨post.1, post.2.above⟩) room
    (agree.execLoopBody within room) fun exit e' room' _ => rest exit e' room'

/-- The update of a `for` loop runs at the loop's level, before the next round. -/
theorem afterUpdate (agree : Agree d₁ d₂) (g : d₁.Guarded) {u : Expr} (within : u.Within n)
    (room : e.Room n) {k₁ k₂ : Flow Completion}
    (next : ∀ e', e'.Room n → k₁.run.run e' = k₂.run.run e') :
    (discard (d₁.evalPop u) >>= fun _ => k₁).run.run e =
      (discard (d₂.evalPop u) >>= fun _ => k₂).run.run e := by
  rw [discard_bind, discard_bind]
  exact agree.afterPop g within room fun _ e' room' _ _ => next e' room'

/-- A round of a `while` loop runs its test and body at the loop's level and hands the next
round to the level below. -/
theorem whileRound (agree : Agree d₁ d₂) (g : d₁.Guarded) {test : Expr} {body : Stmt}
    (onTest : test.Within n) (onBody : body.Within n) (room : e.Room n) :
    (d₁.whileRound test body).run.run e = (d₂.whileRound test body).run.run e :=
  agree.afterPop g onTest room fun _ e₁ room₁ _ _ => by
      split
      · rfl
      · refine agree.afterLoopBody g onBody room₁ fun exit e₂ room₂ => ?_
        cases exit with
        | none => exact agree.execWhile test body n e₂ onTest onBody room₂
        | some => rfl

theorem doWhileRound (agree : Agree d₁ d₂) (g : d₁.Guarded) {body : Stmt} {test : Expr}
    (onBody : body.Within n) (onTest : test.Within n) (room : e.Room n) :
    (d₁.doWhileRound body test).run.run e = (d₂.doWhileRound body test).run.run e :=
  agree.afterLoopBody g onBody room fun exit e₁ room₁ => by
    cases exit with
    | none =>
      exact agree.afterPop g onTest room₁ fun _ e₂ room₂ _ _ => by
          split
          · exact agree.execDoWhile body test n e₂ onBody onTest room₂
          · rfl
    | some => rfl

theorem forRound (agree : Agree d₁ d₂) (g : d₁.Guarded) {test update : Option Expr} {body : Stmt}
    (onTest : ∀ x ∈ test, x.Within n) (onUpdate : ∀ x ∈ update, x.Within n)
    (onBody : body.Within n) (room : e.Room n) :
    (d₁.forRound test update body).run.run e = (d₂.forRound test update body).run.run e := by
  -- the test, if any, runs first; after the body, the update and then the next round
  cases test with
  | none =>
    refine agree.afterLoopBody g onBody room fun exit e₁ room₁ => ?_
    cases exit with
    | some => rfl
    | none =>
      cases update with
      | none => exact agree.execFor none none body n e₁ onTest onUpdate onBody room₁
      | some u =>
        exact agree.afterUpdate g (onUpdate u rfl) room₁ fun e₂ room₂ =>
          agree.execFor none (some u) body n e₂ onTest onUpdate onBody room₂
  | some x =>
    refine agree.afterPop g (onTest x rfl) room fun _ e₁ room₁ _ _ => ?_
    split
    · rfl
    · refine agree.afterLoopBody g onBody room₁ fun exit e₂ room₂ => ?_
      cases exit with
      | some => rfl
      | none =>
        cases update with
        | none => exact agree.execFor (some x) none body n e₂ onTest onUpdate onBody room₂
        | some u =>
          exact agree.afterUpdate g (onUpdate u rfl) room₂ fun e₃ room₃ =>
            agree.execFor (some x) (some u) body n e₃ onTest onUpdate onBody room₃

theorem assignTo (agree : Agree d₁ d₂) (g : d₁.Guarded) {target : Expr} {v : Value}
    (within : target.Within n) (room : e.Room n) (live : e.heap.Live v) :
    (d₁.assignTo target v).run.run e = (d₂.assignTo target v).run.run e := by
  refine run_bind_congr rfl fun _ _ read => ?_
  cases read
  -- the value waits on the stack while the target is evaluated
  refine run_bind_congr rfl fun _ _ pushed => ?_
  cases pushed
  have pushed := room.sound.safe.push (.refl _) live
  exact run_bind_congr (agree.evalRef g within (room.after pushed.1 pushed.2.above))
    fun _ _ _ => rfl

/-- The keys of a `for-in` loop are visited one by one, each assigned and the body run at the
loop's level. -/
theorem forInKeys (agree : Agree d₁ d₂) (g : d₁.Guarded) {target : ForInTarget} (object : Value)
    {body : Stmt} (onTarget : ∀ x, target = .expr x → x.Within n) (onBody : body.Within n) :
    ∀ (keys : List String) (e : Engine), e.Room n →
      (d₁.forInKeys target object body keys).run.run e =
        (d₂.forInKeys target object body keys).run.run e
  | [], _, _ => rfl
  | key :: rest, e, room => by
    refine run_bind_congr rfl fun _ _ read => ?_
    cases read
    split
    · exact forInKeys agree g object onTarget onBody rest e room
    · cases target with
      | var name =>
        refine run_bind_congr rfl fun _ _ assigned => ?_
        cases assigned
        have assigned : e.Kept (e.assignVar name (.string key)) :=
          ⟨(Engine.Step.assignVar room.sound.safe name Heap.live_string).steps, rfl, rfl⟩
        exact agree.afterLoopBody g onBody (room.kept assigned) fun exit e₂ room₂ => by
          cases exit with
          | none => exact forInKeys agree g object onTarget onBody rest e₂ room₂
          | some => rfl
      | expr x =>
        refine run_bind_of_spec (g.assignTo_spec x (.string key) e)
          ⟨rfl, room.sound, Heap.live_string⟩
          (agree.assignTo g (onTarget x rfl) room Heap.live_string) fun _ e₁ assigned => ?_
        exact agree.afterLoopBody g onBody (room.kept assigned) fun exit e₂ room₂ => by
          cases exit with
          | none => exact forInKeys agree g object onTarget onBody rest e₂ room₂
          | some => rfl

theorem execForIn (agree : Agree d₁ d₂) (g : d₁.Guarded) {target : ForInTarget} {obj : Expr}
    {body : Stmt} (onTarget : ∀ x, target = .expr x → x.Within n) (onObj : obj.Within n)
    (onBody : body.Within n) (room : e.Room n) :
    (d₁.execForIn target obj body).run.run e = (d₂.execForIn target obj body).run.run e := by
  refine run_bind_congr rfl fun _ _ read => ?_
  cases read
  -- the keys are visited with the object kept on the stack
  refine agree.afterExpr g onObj room fun e₁ room₁ _ _ => ?_
  refine run_bind_congr rfl fun _ _ read => ?_
  cases read
  refine run_bind_congr rfl fun _ _ read => ?_
  cases read
  exact run_bind_congr (attempt_congr (agree.forInKeys g _ onTarget onBody _ e₁ room₁))
    fun _ _ _ => rfl

theorem findCase (agree : Agree d₁ d₂) (g : d₁.Guarded) (slot : Nat) :
    ∀ (cases : List (Option Expr × List Stmt)) (i : Nat) (e : Engine),
      (∀ c ∈ cases, ∀ x ∈ c.1, x.Within n) → e.Room n →
      (d₁.findCase slot cases i).run.run e = (d₂.findCase slot cases i).run.run e
  | [], _, _, _, _ => rfl
  | (some test, _) :: rest, i, e, within, room =>
    agree.afterPop g (within _ (.head _) test rfl) room fun _ e₁ room₁ _ _ =>
        run_bind_congr rfl fun _ _ read => by
          cases read
          split
          · rfl
          · exact findCase agree g slot rest (i + 1) e₁ (fun c mem => within c (.tail _ mem)) room₁
  | (none, _) :: rest, i, e, within, room =>
    findCase agree g slot rest (i + 1) e (fun c mem => within c (.tail _ mem)) room

theorem runCases (agree : Agree d₁ d₂) (g : d₁.Guarded) :
    ∀ (cases : List (Option Expr × List Stmt)) (e : Engine),
      (∀ c ∈ cases, ∀ s ∈ c.2, s.Within n) → e.Room n →
      (d₁.runCases cases).run.run e = (d₂.runCases cases).run.run e
  | [], _, _, _ => rfl
  | (_, body) :: rest, e, within, room =>
    run_bind_room (g.execBlock_spec body e) (fun _ _ post => ⟨post.1, post.2.above⟩) room
      (agree.execBlock g body e (within _ (.head _)) room) fun _ e₁ room₁ _ => by
        split
        · rfl
        · exact runCases agree g rest e₁ (fun c mem => within c (.tail _ mem)) room₁

theorem execSwitch (agree : Agree d₁ d₂) (g : d₁.Guarded) {disc : Expr}
    {cases : List (Option Expr × List Stmt)} (onDisc : disc.Within n)
    (onTests : ∀ c ∈ cases, ∀ x ∈ c.1, x.Within n) (onBodies : ∀ c ∈ cases, ∀ s ∈ c.2, s.Within n)
    (room : e.Room n) :
    (d₁.execSwitch disc cases).run.run e = (d₂.execSwitch disc cases).run.run e := by
  refine run_bind_congr rfl fun _ _ read => ?_
  cases read
  refine agree.afterExpr g onDisc room fun e₁ room₁ _ _ => ?_
  refine run_bind_room (g.findCase_spec _ cases 0 e₁) (fun _ _ kept => ⟨kept.1, kept.above⟩) room₁
    (agree.findCase g _ cases 0 e₁ onTests room₁) fun _ e₂ room₂ _ => ?_
  -- the bodies run from the first matching case, else from the default clause
  dsimp only
  split
  · exact run_bind_congr
      (agree.runCases g _ e₂ (fun c mem => onBodies c (List.mem_of_mem_drop mem)) room₂)
      fun _ _ _ => rfl
  · rfl

theorem catchWith (agree : Agree d₁ d₂) (g : d₁.Guarded) {e₀ e₁ : Engine} (exception : Value)
    (param : Option String) {body : List Stmt} (within : ∀ s ∈ body, s.Within n)
    (room : e₀.Room n) (run : e₀.Steps e₁) (unwound : e₀.Unwound (.thrown exception) e₁) :
    (d₁.catchWith e₀.stack.size exception param body).run.run e₁ =
      (d₂.catchWith e₀.stack.size exception param body).run.run e₁ := by
  rw [catchWith_run, catchWith_run,
    attempt_congr (agree.execBlock g body _ within (room.enterCatch run unwound param))]

theorem tryCatch (agree : Agree d₁ d₂) (g : d₁.Guarded) {block : List Stmt}
    {handler : Option (Option String × List Stmt)} (onBlock : ∀ s ∈ block, s.Within n)
    (onHandler : ∀ h ∈ handler, ∀ s ∈ h.2, s.Within n) (room : e.Room n) :
    (d₁.tryCatch e.stack.size block handler).run.run e =
      (d₂.tryCatch e.stack.size block handler).run.run e :=
  run_bind_of_spec (attempt_settled (g.execBlock_spec block e)) ⟨rfl, room.sound⟩
    (attempt_congr (agree.execBlock g block e onBlock room)) fun r e₁ settled => by
      cases r with
      | ok => rfl
      | error v =>
        cases handler with
        | none => rfl
        | some clause =>
          obtain ⟨param, body⟩ := clause
          exact agree.catchWith g v param (onHandler _ rfl) room settled.1 settled.2

theorem runFinally (agree : Agree d₁ d₂) (g : d₁.Guarded) {e₀ e₁ : Engine}
    (r : Except Value Completion) {finBody : List Stmt} (within : ∀ s ∈ finBody, s.Within n)
    (room : e₀.Room n) (settled : e₀.Settled r e₁) :
    (d₁.runFinally e₀.stack.size r finBody).run.run e₁ =
      (d₂.runFinally e₀.stack.size r finBody).run.run e₁ := by
  -- the pending outcome waits where `holding` says, and the block runs from there
  have same := agree.execBlock g finBody _ within (room.holding settled)
  rcases r with v | k <;> simp only [Engine.holding] at same
  · simp only [Evaluator.runFinally, run_bind, run_modify, run_pure, same]
  · cases k <;> simp only [Evaluator.runFinally, run_bind, run_pure, same]

theorem execTry (agree : Agree d₁ d₂) (g : d₁.Guarded) {block : List Stmt}
    {handler : Option (Option String × List Stmt)} {fin : Option (List Stmt)}
    (onBlock : ∀ s ∈ block, s.Within n) (onHandler : ∀ h ∈ handler, ∀ s ∈ h.2, s.Within n)
    (onFin : ∀ f ∈ fin, ∀ s ∈ f, s.Within n) (room : e.Room n) :
    (d₁.execTry block handler fin).run.run e = (d₂.execTry block handler fin).run.run e := by
  refine run_bind_congr rfl fun _ _ read => ?_
  cases read
  refine run_bind_of_spec (g.tryCatch_spec block handler e) ⟨rfl, room.sound⟩
    (agree.tryCatch g onBlock onHandler room) fun r e₁ settled => ?_
  cases fin with
  | none => rfl
  | some finBody => exact agree.runFinally g r (onFin finBody rfl) room settled

/-- One level of running a call-free statement runs alike on evaluators that agree below it. -/
theorem execStmtKind (agree : Agree d₁ d₂) (g : d₁.Guarded) {s : Stmt} (within : s.Within (n + 1))
    (room : e.Room n) : (d₁.execStmtKind s).run.run e = (d₂.execStmtKind s).run.run e := by
  cases within with
  | expr inner => exact run_bind_congr (agree.evalPop inner room) fun _ _ _ => rfl
  | var inner => exact run_bind_congr (agree.execDeclarations g _ e inner room) fun _ _ _ => rfl
  | block inner => exact agree.execBlock g _ e inner room
  | @ifStmt _ test yes no onTest onYes onNo =>
    exact agree.afterPop g onTest room fun _ e₁ room₁ _ _ => by
        split
        · exact agree.execStmt yes n e₁ onYes room₁
        · cases no with
          | none => rfl
          | some other => exact agree.execStmt other n e₁ (onNo other rfl) room₁
  | whileStmt onTest onBody => exact agree.execWhile _ _ n e onTest onBody room
  | doWhile onBody onTest => exact agree.execDoWhile _ _ n e onBody onTest room
  | @forStmt _ init test update body onInit onTest onUpdate onBody =>
    -- the initializer runs at the statement's level, then the first round
    cases init with
    | none => exact agree.execFor test update body n e onTest onUpdate onBody room
    | some init =>
      cases init with
      | var decls =>
        exact run_bind_room (g.execDeclarations_spec decls e)
          (fun _ _ kept => ⟨kept.1, kept.above⟩) room
          (agree.execDeclarations g decls e (onInit _ rfl) room) fun _ e₁ room₁ _ =>
            agree.execFor test update body n e₁ onTest onUpdate onBody room₁
      | expr x =>
        simp only [Evaluator.execStmtKind, discard_bind]
        exact agree.afterPop g (onInit _ rfl) room fun _ e₁ room₁ _ _ =>
            agree.execFor test update body n e₁ onTest onUpdate onBody room₁
  | forIn onTarget onObj onBody => exact agree.execForIn g onTarget onObj onBody room
  | switch onDisc onTests onBodies => exact agree.execSwitch g onDisc onTests onBodies room
  | @returnStmt _ value inner =>
    cases value with
    | none => rfl
    | some x => exact run_bind_congr (agree.evalExpr x n e (inner x rfl) room) fun _ _ _ => rfl
  | throwStmt inner => exact run_bind_congr (agree.evalPop inner room) fun _ _ _ => rfl
  | tryStmt onBlock onHandler onFin => exact agree.execTry g onBlock onHandler onFin room
  | _ => rfl

/-- Global code runs its body one level below the level it was called at, in a scope of its
own. -/
theorem runProgram (agree : Agree d₁ d₂) (g : d₁.Guarded) (prog : Program)
    (within : ∀ s ∈ prog.body, s.Within n) (room : e.Room n) :
    (d₁.runProgram prog).run.run e = (d₂.runProgram prog).run.run e := by
  refine run_bind_congr rfl fun _ _ read => ?_
  cases read
  refine run_bind_congr rfl fun _ _ pushed => ?_
  cases pushed
  refine run_bind_congr rfl fun _ _ read => ?_
  cases read
  refine run_bind_congr rfl fun _ _ entered => ?_
  cases entered
  obtain ⟨-, -, entered⟩ := room.sound.enterGlobal
  simp only [hoistProgram, bind_assoc]
  refine run_bind_of_spec (declareGlobals_spec _ _) ⟨rfl, entered.safe⟩ rfl fun _ e₁ declared => ?_
  refine run_bind_of_spec (hoistGlobals_spec _ _) ⟨rfl, (entered.kept declared).safe⟩ rfl
    fun _ e₂ hoisted => ?_
  obtain ⟨-, sound₂, control, -⟩ := room.sound.inGlobal declared hoisted
  have level : e₂.nesting = e.nesting := congrArg Engine.Control.nesting control
  exact run_bind_congr (attempt_congr (agree.execBlock g prog.body e₂ within
    ⟨sound₂, level ▸ room.fits⟩)) fun _ _ _ => rfl

end Agree

open Evaluator

/-- Each level of fuel keeps the agreement with the evaluator that has no limit: a statement or
an expression with room for it passes the check of the limit and is then run alike. -/
theorem Agree.succ {k : Nat} (agree : Agree (ofFuel k) (unlimited k)) :
    Agree (ofFuel (k + 1)) (unlimited (k + 1)) where
  execStmt s n e within room := by
    cases n with
    | zero => cases within
    | succ n =>
      exact withNesting_run_room room (agree.execStmtKind (guarded_ofFuel k) within room.deeper)
  evalExpr x n e within room := by
    cases n with
    | zero => cases within
    | succ n =>
      exact withNesting_run_room room (agree.evalExprKind (guarded_ofFuel k) within room.deeper)
  execWhile _ _ _ _ onTest onBody room := agree.whileRound (guarded_ofFuel k) onTest onBody room
  execDoWhile _ _ _ _ onBody onTest room :=
    agree.doWhileRound (guarded_ofFuel k) onBody onTest room
  execFor _ _ _ _ _ onTest onUpdate onBody room :=
    agree.forRound (guarded_ofFuel k) onTest onUpdate onBody room

theorem agree_ofFuel : ∀ k, Agree (ofFuel k) (unlimited k)
  | 0 => agree_exhausted
  | k + 1 => (agree_ofFuel k).succ

/-! ### Programs within the budget, and a program past it -/

/-- Call-free code within its budget never meets the nesting limit: a program whose statements
call no function and are at most `n` levels high, run by the standard evaluator from a sound
engine with room for `n` levels, runs exactly as with no limit on nesting, so the range error of
the limit is never thrown, caught or not. -/
theorem call_free_program_never_refused (prog : Program) (n : Nat)
    (within : ∀ s ∈ prog.body, s.Within n) (e : Engine) (sound : e.Sound)
    (fits : e.nesting + n ≤ maxNesting) :
    (standard.runProgram prog).run.run e = ((unlimited standardFuel).runProgram prog).run.run e :=
  (agree_ofFuel standardFuel).runProgram guarded_standard prog within ⟨sound, fits⟩

namespace Syntax

/-- The sum of `k + 1` ones as the parser builds it, nested to the left. -/
def Expr.sumOfOnes : Nat → Expr
  | 0 => .number 1
  | k + 1 => .binary .add (sumOfOnes k) (.number 1)

/-- A sum of ones calls no function and is one level higher than it has additions. -/
theorem Expr.sumOfOnes_within : ∀ k, (sumOfOnes k).Within (k + 1)
  | 0 => .number
  | k + 1 => .binary (sumOfOnes_within k) .number

end Syntax

theorem sum_program_runs_as_unlimited :
    (∀ s ∈ [Stmt.expr (Expr.sumOfOnes 1)], s.Within 3) ∧ (Engine.fresh {} 0).Sound ∧
      (Engine.fresh {} 0).nesting + 3 ≤ maxNesting ∧
      (standard.runProgram ⟨[.expr (Expr.sumOfOnes 1)], [], []⟩).run.run (Engine.fresh {} 0) =
        ((unlimited standardFuel).runProgram ⟨[.expr (Expr.sumOfOnes 1)], [], []⟩).run.run
          (Engine.fresh {} 0) := by
  have within : ∀ s ∈ [Stmt.expr (Expr.sumOfOnes 1)], s.Within 3 := by
    intro s mem
    rw [List.mem_singleton.mp mem]
    exact .expr (Expr.sumOfOnes_within 1)
  have fits : (Engine.fresh {} 0).nesting + 3 ≤ maxNesting := by decide
  exact ⟨within, Engine.fresh_sound {} 0, fits,
    call_free_program_never_refused _ 3 within _ (Engine.fresh_sound {} 0) fits⟩

/-- The object `throwNew` allocates for an error of a built-in kind. -/
def errorObject (kind : ErrorKind) (message : String) : HeapObject :=
  let props := ({} : PropertyTable).set "name" (.string kind.name) |>.set "message" (.string message)
  { kind := .error kind, properties := props }

/-- Throwing a fresh error allocates it, and changes nothing else. -/
theorem throwNew_run {α : Type} (kind : ErrorKind) (message : String) (e : Engine) :
    (throwNew kind message : Flow α).run.run e =
      (.error (.thrown (.object (e.alloc (errorObject kind message)).1)),
        (e.alloc (errorObject kind message)).2) :=
  rfl

/-- At the limit, `withNesting` throws its range error before it runs anything. -/
theorem withNesting_run_refused {α : Type} {act : Flow α} {e : Engine}
    (full : maxNesting ≤ e.nesting) :
    (withNesting act).run.run e = (throwNew .rangeError stackExceeded : Flow α).run.run e := by
  simp only [withNesting, run_bind, run_get, ge_iff_le, full, if_true, throwNew_run]

/-- A sum deeper than the levels left is refused: evaluating it throws the range error of the
limit, as if the check had failed where the evaluation started. -/
theorem evalExpr_sumOfOnes_refused :
    ∀ (k fuel : Nat) (e : Engine), k < fuel → maxNesting < e.nesting + k + 1 →
      ((ofFuel fuel).evalExpr (Expr.sumOfOnes k)).run.run e =
        (throwNew .rangeError stackExceeded : Flow Unit).run.run e
  | _, 0, _, enough, _ => absurd enough (Nat.not_lt_zero _)
  | k, fuel + 1, e, enough, deep => by
    show (withNesting _).run.run e = _
    by_cases full : maxNesting ≤ e.nesting
    · exact withNesting_run_refused full
    · -- one level in, the left operand is a sum one addition shorter, and it is refused
      obtain ⟨k, rfl⟩ : ∃ j, k = j + 1 := Nat.exists_eq_add_one.mpr (by omega)
      have inner := evalExpr_sumOfOnes_refused k fuel { e with nesting := e.nesting + 1 }
        (by omega) (by simp only; omega)
      rw [withNesting_run_below (Nat.lt_of_not_le full)]
      simp only [nestFreely, Expr.sumOfOnes, evalExprKind, evalOperands, run_bind, run_modify,
        attempt_run, inner, throwNew_run, resume]
      rfl

/-- A statement of a sum deeper than the levels left is refused likewise. -/
theorem execStmt_sumOfOnes_refused (k fuel : Nat) (e : Engine) (enough : k + 1 < fuel)
    (deep : maxNesting < e.nesting + k + 2) :
    ((ofFuel fuel).execStmt (.expr (Expr.sumOfOnes k))).run.run e =
      (throwNew .rangeError stackExceeded : Flow Completion).run.run e := by
  obtain ⟨fuel, rfl⟩ : ∃ f, fuel = f + 1 := Nat.exists_eq_add_one.mpr (by omega)
  show (withNesting _).run.run e = _
  by_cases full : maxNesting ≤ e.nesting
  · exact withNesting_run_refused full
  · have inner := evalExpr_sumOfOnes_refused k fuel { e with nesting := e.nesting + 1 }
      (by omega) (by simp only; omega)
    rw [withNesting_run_below (Nat.lt_of_not_le full)]
    simp only [nestFreely, execStmtKind, evalPop, run_bind, run_modify, attempt_run, inner,
      throwNew_run, resume]
    rfl

/-- The statement `(1 + … + 1) + 1 + … + 1`, with 120 additions inside the parentheses and 120
after them, calls no function, but its tree is 242 levels high: run from a fresh engine, it is
refused with the range error of the nesting limit. -/
theorem stacked_sum_statement_refused :
    (Stmt.expr (Expr.sumOfOnes 240)).Within 242 ∧
      (standard.execStmt (.expr (Expr.sumOfOnes 240))).run.run (Engine.fresh {} 0) =
        (throwNew .rangeError stackExceeded : Flow Completion).run.run (Engine.fresh {} 0) :=
  ⟨.expr (Expr.sumOfOnes_within 240),
    execStmt_sumOfOnes_refused 240 standardFuel _ (by decide) (by decide)⟩

end EmbedScript
