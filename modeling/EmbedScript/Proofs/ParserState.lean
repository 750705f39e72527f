import Mathlib
import EmbedScript.Syntax.Parser

/-!
The parser's state and the steps its rules are made of. A rule reads lexemes off the front of
the list, which always ends with the end of input or an error lexeme that is never read; it
records `var` names in the scope of the function it is in, and it goes one nesting level deeper
for a sub-rule and back. `Parsed` says what a rule that succeeded did to the state, and every
step the rules are made of is specified by a triple over the state.
-/

namespace EmbedScript.Syntax

open Std.Do

set_option mvcgen.warning false

/-! ### Lists of lexemes that end the input -/

/-- The end of input and an error lexeme end the input: the parser reads no further. -/
def Token.endsInput : Token → Bool
  | .eof | .error _ => true
  | _ => false

/-- A list of lexemes whose last one ends the input. -/
def Ending (ts : List Lexeme) : Prop := ∃ l ∈ ts.getLast?, l.token.endsInput = true

theorem Ending.ne_nil {ts : List Lexeme} (ending : Ending ts) : ts ≠ [] := by
  rintro rfl
  simp [Ending] at ending

theorem Ending.cons {ts : List Lexeme} (l : Lexeme) (ending : Ending ts) : Ending (l :: ts) := by
  rw [Ending, List.getLast?_cons_of_ne_nil ending.ne_nil]
  exact ending

theorem ending_singleton {l : Lexeme} (ends : l.token.endsInput = true) : Ending [l] :=
  ⟨l, rfl, ends⟩

theorem Ending.of_suffix {ts ts' : List Lexeme} (ending : Ending ts) (suffix : ts' <:+ ts)
    (nonempty : ts' ≠ []) : Ending ts' := by
  obtain ⟨pre, rfl⟩ := suffix
  rw [Ending, List.getLast?_append_of_ne_nil _ nonempty] at ending
  exact ending

/-- The lexer ends every list it makes with the end of input or an error lexeme. -/
theorem lexemesFrom_ending (cs : List Char) (line : Nat) : Ending (lexemesFrom cs line) := by
  fun_induction lexemesFrom cs line with
  | case4 _ _ _ _ _ _ _ _ _ _ _ _ rest => exact rest.cons _
  | case1 | case2 | case3 | case5 => exact ending_singleton rfl

theorem lexemes_ending (source : String) : Ending (lexemes source) :=
  lexemesFrom_ending _ _

/-! ### The state -/

namespace ParseState

/-- The lexeme at the front, as `Parser.current` reads it. -/
def front (s : ParseState) : Lexeme := s.tokens.headD ⟨.eof, 1, false⟩

/-- The state after `Parser.advance`: the front lexeme read, unless it is the last. -/
def next (s : ParseState) : ParseState :=
  match s.tokens with
  | _ :: rest@(_ :: _) => { s with tokens := rest }
  | _ => s

/-- The scope of the function being parsed, as `Parser.scope` reads it. -/
def top (s : ParseState) : FunctionScope := s.scopes.headD {}

/-- The state after `Parser.modifyScope f`. -/
def withTop (f : FunctionScope → FunctionScope) (s : ParseState) : ParseState :=
  match s.scopes with
  | sc :: rest => { s with scopes := f sc :: rest }
  | [] => s

variable {s : ParseState}

@[simp] theorem next_depth : s.next.depth = s.depth := by
  unfold next; split <;> rfl

@[simp] theorem next_scopes : s.next.scopes = s.scopes := by
  unfold next; split <;> rfl

theorem next_suffix : s.next.tokens <:+ s.tokens := by
  unfold next
  split
  · rename_i front _ _ read
    rw [read]
    exact List.suffix_cons front _
  · exact List.suffix_refl _

theorem next_ne_nil (nonempty : s.tokens ≠ []) : s.next.tokens ≠ [] := by
  unfold next
  split
  · simp
  · exact nonempty

/-- Reading a lexeme that does not end the input takes it off the list. -/
theorem next_shorter (ending : Ending s.tokens) (reads : s.front.token.endsInput = false) :
    s.next.tokens.length < s.tokens.length := by
  unfold next
  split
  · rename_i read
    simp [read]
  · rename_i rest
    rcases s with ⟨_ | ⟨l, _ | ⟨l', rest'⟩⟩, _, _, _⟩
    · exact absurd rfl ending.ne_nil
    · obtain ⟨last, found, ends⟩ := ending
      simp only [List.getLast?_singleton, Option.mem_def, Option.some.injEq] at found
      subst found
      simp [front] at reads
      simp [reads] at ends
    · exact absurd rfl (rest l l' rest')

/-- The scope on top depends only on the list of scopes. -/
@[simp] theorem top_mk (tokens : List Lexeme) (allowIn : Bool) (depth : Nat) :
    (ParseState.mk tokens s.scopes allowIn depth).top = s.top := rfl

/-- The lexeme at the front depends only on the list of lexemes. -/
@[simp] theorem front_mk (scopes : List FunctionScope) (allowIn : Bool) (depth : Nat) :
    (ParseState.mk s.tokens scopes allowIn depth).front = s.front := rfl

/-- The scope pushed last is on top. -/
@[simp] theorem top_cons (tokens : List Lexeme) (sc : FunctionScope) (rest : List FunctionScope)
    (allowIn : Bool) (depth : Nat) : (ParseState.mk tokens (sc :: rest) allowIn depth).top = sc :=
  rfl

@[simp] theorem withTop_depth (f : FunctionScope → FunctionScope) : (s.withTop f).depth = s.depth := by
  unfold withTop; split <;> rfl

@[simp] theorem withTop_tokens (f : FunctionScope → FunctionScope) :
    (s.withTop f).tokens = s.tokens := by
  unfold withTop; split <;> rfl

@[simp] theorem withTop_length (f : FunctionScope → FunctionScope) :
    (s.withTop f).scopes.length = s.scopes.length := by
  unfold withTop; split <;> simp_all

@[simp] theorem withTop_tail (f : FunctionScope → FunctionScope) :
    (s.withTop f).scopes.tail = s.scopes.tail := by
  unfold withTop; split <;> simp_all

theorem withTop_scopes (f : FunctionScope → FunctionScope) (inScope : s.scopes ≠ []) :
    (s.withTop f).scopes = f s.top :: s.scopes.tail := by
  unfold withTop top
  split
  · simp_all
  · simp_all

end ParseState

/-! ### Declared names -/

/-- The names `known` holds, then `name` if it did not: what `Parser.declareVar` makes of a
scope's `var` names. -/
def addName (known : Array String) (name : String) : Array String :=
  if known.contains name then known else known.push name

/-- The names `known` holds, then those of `names` it did not, in order. -/
def addNames (known : Array String) (names : List String) : Array String :=
  names.foldl addName known

@[simp] theorem addNames_nil (known : Array String) : addNames known [] = known := rfl

@[simp] theorem addNames_cons (known : Array String) (name : String) (names : List String) :
    addNames known (name :: names) = addNames (addName known name) names := rfl

theorem addNames_append (known : Array String) (names names' : List String) :
    addNames known (names ++ names') = addNames (addNames known names) names' := by
  simp [addNames, List.foldl_append]

/-- Adding names keeps the known ones and appends each new name once, where it first occurs. -/
theorem addNames_toList (known : Array String) (names : List String) :
    (addNames known names).toList = known.toList ++ (names.removeAll known.toList).eraseDups := by
  induction names generalizing known with
  | nil => simp [List.removeAll]
  | cons name names ih =>
    rw [addNames_cons, ih]
    by_cases known_has : name ∈ known
    · simp [addName, List.removeAll, known_has]
    · simp [addName, List.removeAll, known_has, List.eraseDups_cons, List.filter_filter]
      -- the two filters test the same two conditions in the other order
      congr 1
      exact List.filter_congr fun x _ => by
        by_cases x = name <;> by_cases x ∈ known <;> simp_all

theorem addNames_empty_toList (names : List String) :
    (addNames #[] names).toList = names.eraseDups := by
  simp [addNames_toList, List.removeAll]

/-! ### What a rule does to the state -/

/-- A state the parser can run from: its lexemes end the input, and it is inside the scope of
some function. -/
@[mk_iff] structure Ready (s : ParseState) : Prop where
  ending : Ending s.tokens
  inScope : 0 < s.scopes.length

/-- Where a rule that succeeded from `s₀` leaves the state: at the same nesting depth, with no
more lexemes than it had and the last one kept, in the scope of the same function, whose `var`
names grew by `names`. -/
@[mk_iff] structure Parsed (s₀ : ParseState) (names : List String) (s : ParseState) : Prop where
  depth : s.depth = s₀.depth
  shorter : s.tokens.length ≤ s₀.tokens.length
  ending : Ending s.tokens
  outer : s.scopes.tail = s₀.scopes.tail
  length : s.scopes.length = s₀.scopes.length
  vars : s.top.varNames = addNames s₀.top.varNames names

/-- The rule read at least one lexeme. -/
def Consumed (s₀ s : ParseState) : Prop := s.tokens.length < s₀.tokens.length

namespace Parsed

variable {s₀ s₁ s : ParseState} {names names' : List String}

theorem refl (ready : Ready s) : Parsed s [] s :=
  ⟨rfl, le_rfl, ready.ending, rfl, rfl, rfl⟩

theorem trans (first : Parsed s₀ names s₁) (second : Parsed s₁ names' s) :
    Parsed s₀ (names ++ names') s :=
  ⟨second.depth.trans first.depth, second.shorter.trans first.shorter, second.ending,
    second.outer.trans first.outer, second.length.trans first.length,
    by rw [second.vars, first.vars, addNames_append]⟩

theorem ready (parsed : Parsed s₀ names s) (ready : Ready s₀) : Ready s :=
  ⟨parsed.ending, parsed.length ▸ ready.inScope⟩

/-- Reading the front lexeme. -/
theorem next (ready : Ready s) : Parsed s [] s.next :=
  ⟨by simp, ParseState.next_suffix.length_le,
    ready.ending.of_suffix ParseState.next_suffix (ParseState.next_ne_nil ready.ending.ne_nil),
    by simp, by simp, by simp [ParseState.top]⟩

theorem then_next (parsed : Parsed s₀ names s) (ready : Ready s₀) : Parsed s₀ names s.next := by
  simpa using parsed.trans (next (parsed.ready ready))

/-- A change of the function scope that keeps its `var` names but for `names`. -/
theorem withTop (ready : Ready s) {f : FunctionScope → FunctionScope}
    (vars : (f s.top).varNames = addNames s.top.varNames names) : Parsed s names (s.withTop f) := by
  have scopes := ParseState.withTop_scopes f (List.ne_nil_of_length_pos ready.inScope)
  refine ⟨by simp, by simp, by simpa using ready.ending, by simp [scopes], ?_, ?_⟩
  · rw [scopes]
    have := ready.inScope
    simp only [List.length_cons, List.length_tail]
    omega
  · rw [← vars]
    simp [ParseState.top, scopes]

/-- Whether `in` is an operator is no part of what a rule did. -/
@[simp] theorem allowIn_left {b : Bool} :
    Parsed { s₀ with allowIn := b } names s ↔ Parsed s₀ names s := by
  constructor <;> rintro ⟨depth, shorter, ending, outer, length, vars⟩ <;>
    exact ⟨depth, shorter, ending, outer, length, vars⟩

@[simp] theorem allowIn_right {b : Bool} :
    Parsed s₀ names { s with allowIn := b } ↔ Parsed s₀ names s := by
  constructor <;> rintro ⟨depth, shorter, ending, outer, length, vars⟩ <;>
    exact ⟨depth, shorter, ending, outer, length, vars⟩

end Parsed

namespace Consumed

variable {s₀ s₁ s : ParseState} {names : List String}

theorem next (ready : Ready s) (reads : s.front.token.endsInput = false) : Consumed s s.next :=
  ParseState.next_shorter ready.ending reads

theorem then_parsed (consumed : Consumed s₀ s₁) (parsed : Parsed s₁ names s) : Consumed s₀ s :=
  Nat.lt_of_le_of_lt parsed.shorter consumed

theorem after_parsed (parsed : Parsed s₀ names s₁) (consumed : Consumed s₁ s) : Consumed s₀ s :=
  Nat.lt_of_lt_of_le consumed parsed.shorter

end Consumed

/-! ### The steps of the rules -/

namespace Parser

variable {α : Type} (s₀ : ParseState)

/-- A triple over the parser read back as a run. -/
theorem wp_eq_run (m : Parser α) (Q : PostCond α (.arg ParseState (.except ParseFailure .pure)))
    (s : ParseState) :
    wp⟦m⟧ Q s = (match m.run s with
      | .ok (a, s') => Q.1 a s'
      | .error f => Q.2.1 f) := by
  simp only [wp, PredTrans.pushArg, StateT.run]
  rcases found : m s with f | ⟨a, s'⟩ <;> simp [PredTrans.apply, found] <;> rfl

/-- A triple says what every run from a state of the precondition ends in. -/
theorem triple_iff_run (m : Parser α) (P : ParseState → Prop) (Q : α → ParseState → Prop)
    (E : ParseFailure → Prop) :
    ⦃fun s => ⌜P s⌝⦄ m ⦃post⟨fun a s => ⌜Q a s⌝, fun f => ⌜E f⌝⟩⦄ ↔
      ∀ s, P s → match m.run s with
        | .ok (a, s') => Q a s'
        | .error f => E f := by
  simp only [Triple, SPred.entails_1, wp_eq_run]
  refine forall_congr' fun s => ?_
  rcases m.run s with f | ⟨a, s'⟩ <;> simp

theorem current_spec : ⦃fun s => ⌜s = s₀⌝⦄ current ⦃⇓ t s => ⌜s = s₀ ∧ t = s₀.front⌝⦄ := by
  mvcgen [current] <;> subst_vars <;> simp_all [ParseState.front]

theorem advance_spec : ⦃fun s => ⌜s = s₀⌝⦄ advance ⦃⇓ t s => ⌜s = s₀.next ∧ t = s₀.front⌝⦄ := by
  mvcgen [advance, current_spec] with
  | vc1 =>
    obtain ⟨rfl, rfl⟩ := ‹_ ∧ _›
    subst_vars
    exact ⟨rfl, rfl⟩

theorem check_spec (test : Token → Bool) :
    ⦃fun s => ⌜s = s₀⌝⦄ check test ⦃⇓ b s => ⌜s = s₀ ∧ b = test s₀.front.token⌝⦄ := by
  mvcgen [check, current_spec] with
  | vc1 =>
    obtain ⟨rfl, rfl⟩ := ‹_ ∧ _›
    subst_vars
    exact ⟨rfl, rfl⟩

theorem eat_spec (test : Token → Bool) :
    ⦃fun s => ⌜s = s₀⌝⦄ eat test
    ⦃⇓ b s => ⌜b = test s₀.front.token ∧ s = if b then s₀.next else s₀⌝⦄ := by
  mvcgen [eat, check_spec, advance_spec] <;> simp_all

theorem errorAt_spec (line : Nat) (message : String) :
    ⦃⌜True⌝⦄ (errorAt line message : Parser α)
    ⦃post⟨fun _ _ => ⌜False⌝, fun f => ⌜f ≠ .exhausted⌝⟩⦄ := by
  intro s _
  rw [wp_eq_run]
  exact nofun

theorem error_spec (message : String) :
    ⦃⌜True⌝⦄ (error message : Parser α) ⦃post⟨fun _ _ => ⌜False⌝, fun f => ⌜f ≠ .exhausted⌝⟩⦄ := by
  mvcgen [error, errorAt_spec, current_spec]

theorem unexpected_spec :
    ⦃⌜True⌝⦄ (unexpected : Parser α) ⦃post⟨fun _ _ => ⌜False⌝, fun f => ⌜f ≠ .exhausted⌝⟩⦄ := by
  mvcgen [unexpected, errorAt_spec, current_spec]

theorem exhausted_spec :
    ⦃⌜True⌝⦄ (exhausted : Parser α) ⦃post⟨fun _ _ => ⌜False⌝, fun f => ⌜f = .exhausted⌝⟩⦄ := by
  intro s _
  rw [wp_eq_run]
  exact rfl

theorem expect_spec (test : Token → Bool) :
    ⦃fun s => ⌜s = s₀⌝⦄ expect test
    ⦃post⟨fun _ s => ⌜test s₀.front.token = true ∧ s = s₀.next⌝, fun f => ⌜f ≠ .exhausted⌝⟩⦄ := by
  mvcgen [expect, eat_spec, unexpected_spec] with
  | vc1 =>
    obtain ⟨rfl, rfl⟩ := ‹_ ∧ _›
    subst_vars
    simp_all
  | vc2 => exact False.elim

theorem expectPunct_spec (p : Punct) :
    ⦃fun s => ⌜s = s₀⌝⦄ expectPunct p
    ⦃post⟨fun _ s => ⌜isPunct p s₀.front.token = true ∧ s = s₀.next⌝,
      fun f => ⌜f ≠ .exhausted⌝⟩⦄ :=
  expect_spec s₀ _

theorem eatPunct_spec (p : Punct) :
    ⦃fun s => ⌜s = s₀⌝⦄ eatPunct p
    ⦃⇓ b s => ⌜b = isPunct p s₀.front.token ∧ s = if b then s₀.next else s₀⌝⦄ :=
  eat_spec s₀ _

theorem checkPunct_spec (p : Punct) :
    ⦃fun s => ⌜s = s₀⌝⦄ checkPunct p ⦃⇓ b s => ⌜s = s₀ ∧ b = isPunct p s₀.front.token⌝⦄ :=
  check_spec s₀ _

theorem expectIdent_spec :
    ⦃fun s => ⌜s = s₀⌝⦄ expectIdent
    ⦃post⟨fun name s => ⌜s₀.front.token = .ident name ∧ s = s₀.next⌝,
      fun f => ⌜f ≠ .exhausted⌝⟩⦄ := by
  mvcgen [expectIdent, current_spec, advance_spec, unexpected_spec] <;> simp_all

theorem expectPropertyName_spec :
    ⦃fun s => ⌜s = s₀⌝⦄ expectPropertyName
    ⦃post⟨fun name s => ⌜(s₀.front.token = .ident name ∨ s₀.front.token = .keyword name) ∧
        s = s₀.next⌝, fun f => ⌜f ≠ .exhausted⌝⟩⦄ := by
  mvcgen [expectPropertyName, current_spec, advance_spec, unexpected_spec] <;> simp_all

theorem consumeSemicolon_spec :
    ⦃fun s => ⌜s = s₀⌝⦄ consumeSemicolon
    ⦃post⟨fun _ s => ⌜s = if isPunct .semicolon s₀.front.token then s₀.next else s₀⌝,
      fun f => ⌜f ≠ .exhausted⌝⟩⦄ := by
  mvcgen [consumeSemicolon, eatPunct_spec, current_spec, unexpected_spec] <;> simp_all

theorem modifyScope_spec (f : FunctionScope → FunctionScope) :
    ⦃fun s => ⌜s = s₀⌝⦄ modifyScope f ⦃⇓ _ s => ⌜s = s₀.withTop f⌝⦄ := by
  mvcgen [modifyScope] with
  | vc1 =>
    subst_vars
    rfl

theorem scope_spec : ⦃fun s => ⌜s = s₀⌝⦄ scope ⦃⇓ sc s => ⌜s = s₀ ∧ sc = s₀.top⌝⦄ := by
  mvcgen [scope] <;> subst_vars <;> simp_all [ParseState.top]

/-- Recording a `var` name, once. -/
def declaring (name : String) (sc : FunctionScope) : FunctionScope :=
  if sc.varNames.contains name then sc else { sc with varNames := sc.varNames.push name }

theorem declaring_varNames (name : String) (sc : FunctionScope) :
    (declaring name sc).varNames = addNames sc.varNames [name] := by
  unfold declaring
  split <;> simp_all [addName]

theorem declareVar_spec (name : String) :
    ⦃fun s => ⌜s = s₀⌝⦄ declareVar name ⦃⇓ _ s => ⌜s = s₀.withTop (declaring name)⌝⦄ :=
  modifyScope_spec s₀ _

theorem checkDepth_spec (extra : Nat) :
    ⦃fun s => ⌜s = s₀⌝⦄ checkDepth extra
    ⦃post⟨fun _ s => ⌜s = s₀ ∧ s₀.depth + extra ≤ maxNesting⌝, fun f => ⌜f ≠ .exhausted⌝⟩⦄ := by
  mvcgen [checkDepth, error_spec] <;> subst_vars <;> simp_all

end Parser

end EmbedScript.Syntax
