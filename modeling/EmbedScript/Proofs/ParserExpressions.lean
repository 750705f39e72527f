import Mathlib
import EmbedScript.Proofs.ParserRules

/-!
The expression rules keep their contracts one level of recursion up. An expression records no
`var` name in the scope it is parsed in (the names a function literal declares go to the
function's own scope), and every expression rule reads at least one lexeme. The loops of the
rules, over operators, arguments, member accesses and literal elements, read a lexeme in each
round they go on, so a round for each lexeme left is enough.
-/

namespace EmbedScript.Syntax.Parser.Rules

open Std.Do

set_option mvcgen.warning false

section Expressions

variable {r : Rules} {levels rounds : Nat} (h : r.Sound levels rounds)
include h

theorem Sound.sequenceLoop_spec (n : Nat) (acc : Array Expr) (s₀ : ParseState) :
    ⦃fun s => ⌜s = s₀ ∧ Ready s₀⌝⦄ r.sequenceLoop n acc
    ⦃post⟨fun _ s => ⌜Parsed s₀ [] s⌝,
      fun f => ⌜Headroom 1 (levels + 1) rounds s₀ → s₀.tokens.length < n → f ≠ .exhausted⌝⟩⦄ := by
  induction n generalizing acc s₀ with
  | zero => mvcgen [sequenceLoop, exhausted_spec] <;> simp_all
  | succ n ih =>
    have assignment := h.assignment.triple
    mvcgen [sequenceLoop, eatPunct_parsed, assignment, ih]
    all_goals clear assignment ih h
    all_goals try simp +zetaDelta only [parsed_iff, ready_iff, Consumed, Headroom] at *
    all_goals (casesm* _ ∧ _; subst_vars; try simp only [true_implies] at *)
    all_goals first
      | exact ⟨trivial, by assumption, by omega⟩
      | exact fun invalid _ _ => invalid
      | (intro sub room fuel; exact sub (by omega) (by omega))
      | (intro sub room _; exact sub (by omega))
      | (intros; (try casesm* _ ∧ _); simp_all +zetaDelta <;> omega)

theorem Sound.parseExpression_spec :
    Keeps (r.parseExpression rounds) (fun _ => []) 1 (levels + 1) rounds := by
  intro s₀
  have assignment := h.assignment.triple
  have sequence := h.sequenceLoop_spec
  mvcgen [parseExpression, assignment, checkPunct_spec, sequence]
  all_goals clear assignment sequence h
  all_goals try simp +zetaDelta only [parsed_iff, ready_iff, Consumed, Headroom] at *
  all_goals (casesm* _ ∧ _; subst_vars; try simp only [true_implies] at *)
  all_goals first
    | exact ⟨trivial, by assumption, by omega⟩
    | exact fun invalid _ => invalid
    | (intro sub room; exact sub (by omega))
    | (intro sub room; exact sub (by omega) (by omega))
    | exact ⟨⟨by omega, by omega, by assumption, by simp only [*], by omega, by simp [*]⟩, by omega⟩

theorem Sound.parseAssignmentKind_spec :
    Keeps r.parseAssignmentKind (fun _ => []) 10 (levels + 1) rounds := by
  intro s₀
  have conditional := h.conditional.triple
  have assignment := h.assignment.triple
  mvcgen [parseAssignmentKind, current_spec, conditional, errorAt_spec, advance_parsed,
    assignment]
  all_goals clear conditional assignment h
  all_goals try simp +zetaDelta only [parsed_iff, ready_iff, Consumed, Headroom] at *
  all_goals (casesm* _ ∧ _; subst_vars; try simp only [true_implies] at *)
  all_goals first
    | exact ⟨trivial, by assumption, by omega⟩
    | exact fun invalid _ => invalid
    | (intro sub room; exact sub (by omega))
    | exact ⟨⟨by omega, by omega, by assumption, by simp only [*], by omega, by simp [*]⟩, by omega⟩

theorem Sound.parseConditional_spec :
    Keeps r.parseConditional (fun _ => []) 9 (levels + 1) rounds := by
  intro s₀
  have binary := (h.binary 1).triple
  have assignment := h.assignment.triple
  mvcgen [parseConditional, binary, eatPunct_parsed, withIn, assignment, expectPunct_parsed]
  all_goals clear binary assignment h
  all_goals try simp +zetaDelta only [parsed_iff, ready_iff, Consumed, Headroom, ParseState.top_mk,
      ParseState.front_mk] at *
  all_goals (casesm* _ ∧ _; subst_vars; try simp only [true_implies] at *)
  all_goals first
    | exact ⟨trivial, by assumption, by omega⟩
    | exact fun invalid _ => invalid
    | (intro sub room; exact sub (by omega))
    | exact ⟨⟨by omega, by omega, by assumption, by simp only [*], by omega, by simp [*]⟩, by omega⟩

theorem Sound.binaryLoop_spec (minPrec n : Nat) (left : Expr) (links : Nat) (s₀ : ParseState) :
    ⦃fun s => ⌜s = s₀ ∧ Ready s₀⌝⦄ r.binaryLoop minPrec n left links
    ⦃post⟨fun _ s => ⌜Parsed s₀ [] s⌝,
      fun f => ⌜Headroom 8 (levels + 1) rounds s₀ → s₀.tokens.length < n → f ≠ .exhausted⌝⟩⦄ := by
  induction n generalizing left links s₀ with
  | zero => mvcgen [binaryLoop, exhausted_spec] <;> simp_all
  | succ n ih =>
    have binary := fun minPrec => ((h.binary minPrec).nested 8 (by decide)).triple
    mvcgen [binaryLoop, check_spec, error_spec, current_spec, advance_parsed, checkDepth_spec,
      binary, ih]
    all_goals clear binary ih h
    all_goals try simp +zetaDelta only [parsed_iff, ready_iff, Consumed, Headroom] at *
    all_goals (casesm* _ ∧ _; subst_vars; try simp only at *)
    all_goals first
      | exact ⟨trivial, by assumption, by omega⟩
      | exact fun invalid _ _ => invalid
      | (intro sub room fuel; exact sub (by omega) (by omega))
      | (intro sub room _; exact sub (by omega))
      | (intros; (try casesm* _ ∧ _); simp_all +zetaDelta <;> omega)

theorem Sound.parseBinary_spec (minPrec : Nat) :
    Keeps (r.parseBinary rounds minPrec) (fun _ => []) 8 (levels + 1) rounds := by
  intro s₀
  have unary := h.unary.triple
  have binaryLoop := h.binaryLoop_spec
  mvcgen [parseBinary, unary, binaryLoop]
  all_goals clear unary binaryLoop h
  all_goals try simp +zetaDelta only [parsed_iff, ready_iff, Consumed, Headroom] at *
  all_goals (casesm* _ ∧ _; subst_vars; try simp only [true_implies] at *)
  all_goals first
    | exact ⟨trivial, by assumption, by omega⟩
    | exact fun invalid _ => invalid
    | (intro sub room; exact sub (by omega))
    | (intro sub room; exact sub (by omega) (by omega))
    | (simp_all +zetaDelta; omega)

theorem Sound.parseUnary_spec : Keeps r.parseUnary (fun _ => []) 7 (levels + 1) rounds := by
  intro s₀
  have unary := (h.unary.nested 7 (by decide)).triple
  have postfixExpr := h.postfixExpr.triple
  mvcgen [parseUnary, current_spec, advance_parsed, unary, errorAt_spec, postfixExpr]
  all_goals clear unary postfixExpr h
  all_goals try simp +zetaDelta only [parsed_iff, ready_iff, Consumed, Headroom] at *
  all_goals (casesm* _ ∧ _; subst_vars; try simp only [true_implies] at *)
  all_goals first
    | exact ⟨trivial, by assumption, by omega⟩
    | exact fun invalid _ => invalid
    | (intro sub room; exact sub (by omega))
    | exact ⟨⟨by omega, by omega, by assumption, by simp only [*], by omega, by simp [*]⟩, by omega⟩
    | simp_all +zetaDelta

theorem Sound.parsePostfixExpr_spec :
    Keeps r.parsePostfixExpr (fun _ => []) 6 (levels + 1) rounds := by
  intro s₀
  have callMember := h.callMember.triple
  mvcgen [parsePostfixExpr, current_spec, callMember, errorAt_spec, advance_parsed]
  all_goals clear callMember h
  all_goals try simp +zetaDelta only [parsed_iff, ready_iff, Consumed, Headroom] at *
  all_goals (casesm* _ ∧ _; subst_vars; try simp only [true_implies] at *)
  all_goals first
    | exact ⟨trivial, by assumption, by omega⟩
    | exact fun invalid _ => invalid
    | (intro sub room; exact sub (by omega))
    | exact ⟨⟨by omega, by omega, by assumption, by simp only [*], by omega, by simp [*]⟩, by omega⟩

theorem Sound.argumentsLoop_spec (n : Nat) (acc : Array Expr) (s₀ : ParseState) :
    ⦃fun s => ⌜s = s₀ ∧ Ready s₀⌝⦄ r.argumentsLoop n acc
    ⦃post⟨fun _ s => ⌜Parsed s₀ [] s ∧ Consumed s₀ s⌝,
      fun f => ⌜Headroom 1 (levels + 1) rounds s₀ → s₀.tokens.length < n → f ≠ .exhausted⌝⟩⦄ := by
  induction n generalizing acc s₀ with
  | zero => mvcgen [argumentsLoop, exhausted_spec] <;> simp_all
  | succ n ih =>
    have assignment := h.assignment.triple
    mvcgen [argumentsLoop, assignment, eatPunct_parsed, expectPunct_parsed, ih]
    all_goals clear assignment ih h
    all_goals try simp +zetaDelta only [parsed_iff, ready_iff, Consumed, Headroom] at *
    all_goals (casesm* _ ∧ _; subst_vars; try simp only [true_implies] at *)
    all_goals first
      | exact ⟨trivial, by assumption, by omega⟩
      | exact fun invalid _ _ => invalid
      | (intro sub room fuel; exact sub (by omega) (by omega))
      | (intro sub room _; exact sub (by omega))
      | (intros; (try casesm* _ ∧ _); simp_all +zetaDelta; omega)

theorem Sound.parseArguments_spec :
    Keeps (r.parseArguments rounds) (fun _ => []) 1 (levels + 1) rounds := by
  intro s₀
  have argumentsLoop := h.argumentsLoop_spec
  mvcgen [parseArguments, expectPunct_parsed, withIn, eatPunct_parsed, argumentsLoop]
  all_goals clear argumentsLoop h
  all_goals try simp +zetaDelta only [parsed_iff, ready_iff, Consumed, Headroom, ParseState.top_mk,
      ParseState.front_mk] at *
  all_goals (casesm* _ ∧ _; subst_vars; try simp only [true_implies] at *)
  all_goals first
    | exact ⟨trivial, by assumption, by omega⟩
    | exact fun invalid _ => invalid
    | (intro sub room; exact sub (by omega) (by omega))
    | exact ⟨⟨by omega, by omega, by assumption, by simp only [*], by omega, by simp [*]⟩, by omega⟩

/-- A member access reads its dot or bracket; when none follows it reads nothing. -/
theorem Sound.parseMemberSuffix_spec (obj : Expr) (s₀ : ParseState) :
    ⦃fun s => ⌜s = s₀ ∧ Ready s₀⌝⦄ r.parseMemberSuffix obj
    ⦃post⟨fun found s => ⌜Parsed s₀ [] s ∧ (found.isOk → Consumed s₀ s)⌝,
      fun f => ⌜Headroom 2 (levels + 1) rounds s₀ → f ≠ .exhausted⌝⟩⦄ := by
  have expression := h.expression.triple
  mvcgen [parseMemberSuffix, eatPunct_parsed, expectPropertyName_parsed, withIn, expression,
    expectPunct_parsed]
  all_goals clear expression h
  all_goals try simp +zetaDelta only [parsed_iff, ready_iff, Consumed, Headroom, ParseState.top_mk,
      ParseState.front_mk, Except.isOk, Except.toBool, true_implies] at *
  all_goals (casesm* _ ∧ _; subst_vars; try simp only [true_implies] at *)
  all_goals first
    | exact ⟨trivial, by assumption, by omega⟩
    | exact fun invalid _ => invalid
    | (intro sub room; exact sub (by omega))
    | exact ⟨⟨by omega, by omega, by assumption, by simp only [*], by omega, by simp [*]⟩, by omega⟩
    | (simp_all +zetaDelta; omega)

theorem Sound.callMemberLoop_spec (n : Nat) (e : Expr) (links : Nat) (s₀ : ParseState) :
    ⦃fun s => ⌜s = s₀ ∧ Ready s₀⌝⦄ r.callMemberLoop n e links
    ⦃post⟨fun _ s => ⌜Parsed s₀ [] s⌝,
      fun f => ⌜Headroom 5 (levels + 1) rounds s₀ → s₀.tokens.length < n → f ≠ .exhausted⌝⟩⦄ := by
  induction n generalizing e links s₀ with
  | zero => mvcgen [callMemberLoop, exhausted_spec] <;> simp_all
  | succ n ih =>
    have arguments := h.arguments.triple
    have memberSuffix := h.memberSuffix
    mvcgen [callMemberLoop, checkDepth_spec, checkPunct_spec, arguments, memberSuffix, ih]
    all_goals clear arguments memberSuffix ih h
    all_goals try simp +zetaDelta only [parsed_iff, ready_iff, Consumed, Headroom,
        Except.isOk, Except.toBool, true_implies] at *
    all_goals (casesm* _ ∧ _; subst_vars; try simp only [true_implies] at *)
    all_goals first
      | exact ⟨trivial, by assumption, by omega⟩
      | exact fun invalid _ _ => invalid
      | (intro sub room fuel; exact sub (by omega) (by omega))
      | (intro sub room _; exact sub (by omega))
      | (simp_all +zetaDelta <;> omega)

theorem Sound.parseCallMember_spec :
    Keeps (r.parseCallMember rounds) (fun _ => []) 5 (levels + 1) rounds := by
  intro s₀
  have newExpression := h.newExpression.triple
  have primary := h.primary.triple
  have callMemberLoop := h.callMemberLoop_spec
  mvcgen [parseCallMember, check_spec, newExpression, primary, callMemberLoop]
  all_goals clear newExpression primary callMemberLoop h
  all_goals try simp +zetaDelta only [parsed_iff, ready_iff, Consumed, Headroom] at *
  all_goals (casesm* _ ∧ _; subst_vars; try simp only [true_implies] at *)
  all_goals first
    | exact ⟨trivial, by assumption, by omega⟩
    | exact fun invalid _ => invalid
    | (intro sub room; exact sub (by omega))
    | (intro sub room; exact sub (by omega) (by omega))
    | (simp_all +zetaDelta; omega)

theorem Sound.newCalleeLoop_spec (n : Nat) (e : Expr) (links : Nat) (s₀ : ParseState) :
    ⦃fun s => ⌜s = s₀ ∧ Ready s₀⌝⦄ r.newCalleeLoop n e links
    ⦃post⟨fun _ s => ⌜Parsed s₀ [] s⌝,
      fun f => ⌜Headroom 4 (levels + 1) rounds s₀ → s₀.tokens.length < n → f ≠ .exhausted⌝⟩⦄ := by
  induction n generalizing e links s₀ with
  | zero => mvcgen [newCalleeLoop, exhausted_spec] <;> simp_all
  | succ n ih =>
    have memberSuffix := h.memberSuffix
    mvcgen [newCalleeLoop, checkDepth_spec, memberSuffix, ih]
    all_goals clear memberSuffix ih h
    all_goals try simp +zetaDelta only [parsed_iff, ready_iff, Consumed, Headroom,
        Except.isOk, Except.toBool, true_implies] at *
    all_goals (casesm* _ ∧ _; subst_vars; try simp only [true_implies] at *)
    all_goals first
      | exact ⟨trivial, by assumption, by omega⟩
      | exact fun invalid _ _ => invalid
      | (intro sub room fuel; exact sub (by omega) (by omega))
      | (intro sub room _; exact sub (by omega))
      | (intros; (try casesm* _ ∧ _); simp_all +zetaDelta <;> omega)

theorem Sound.parseNewExpression_spec :
    Keeps (r.parseNewExpression rounds) (fun _ => []) 4 (levels + 1) rounds := by
  intro s₀
  have newExpression := (h.newExpression.nested 4 (by decide)).triple
  have primary := h.primary.triple
  have newCalleeLoop := h.newCalleeLoop_spec
  have arguments := h.arguments.triple
  mvcgen [parseNewExpression, advance_parsed, check_spec, newExpression, primary, newCalleeLoop,
    checkPunct_spec, arguments]
  all_goals clear newExpression primary newCalleeLoop arguments h
  all_goals try simp +zetaDelta only [parsed_iff, ready_iff, Consumed, Headroom] at *
  all_goals (casesm* _ ∧ _; subst_vars; try simp only [true_implies] at *)
  all_goals first
    | exact ⟨trivial, by assumption, by omega⟩
    | exact fun invalid _ => invalid
    | (intro sub room; exact sub (by omega))
    | (intro sub room; exact sub (by omega) (by omega))
    | exact ⟨⟨by omega, by omega, by assumption, by simp only [*], by omega, by simp [*]⟩, by omega⟩

/-- A primary expression reads its first lexeme. Naming `arguments` marks the scope as using
it, which leaves the scope's names as they are. -/
theorem Sound.parsePrimary_spec : Keeps r.parsePrimary (fun _ => []) 3 (levels + 1) rounds := by
  intro s₀
  have parenExpression := h.parenExpression.triple
  have arrayLiteral := h.arrayLiteral.triple
  have objectLiteral := h.objectLiteral.triple
  have functionRest := h.functionRest
  mvcgen [parsePrimary, current_spec, advance_parsed, modifyScope_keeping, parenExpression,
    arrayLiteral, objectLiteral, expectIdent_parsed, functionRest, unexpected_spec]
  all_goals clear parenExpression arrayLiteral objectLiteral functionRest h
  all_goals try simp +zetaDelta only [parsed_iff, ready_iff, Consumed, Headroom] at *
  all_goals (casesm* _ ∧ _; subst_vars; try simp only [true_implies] at *)
  all_goals first
    | exact ⟨trivial, by assumption, by omega⟩
    | exact fun invalid _ => invalid
    | (intro sub room; exact sub (by omega))
    | exact ⟨⟨by omega, by omega, by assumption, by simp only [*], by omega, by simp [*]⟩, by omega⟩
    | (simp_all +zetaDelta [Token.endsInput] <;> omega)

theorem Sound.arrayLoop_spec (n : Nat) (acc : Array (Option Expr)) (s₀ : ParseState) :
    ⦃fun s => ⌜s = s₀ ∧ Ready s₀⌝⦄ r.arrayLoop n acc
    ⦃post⟨fun _ s => ⌜Parsed s₀ [] s ∧ Consumed s₀ s⌝,
      fun f => ⌜Headroom 1 (levels + 1) rounds s₀ → s₀.tokens.length < n → f ≠ .exhausted⌝⟩⦄ := by
  induction n generalizing acc s₀ with
  | zero => mvcgen [arrayLoop, exhausted_spec] <;> simp_all
  | succ n ih =>
    have assignment := h.assignment.triple
    mvcgen [arrayLoop, eatPunct_parsed, assignment, expectPunct_parsed, ih]
    all_goals clear assignment ih h
    all_goals try simp +zetaDelta only [parsed_iff, ready_iff, Consumed, Headroom] at *
    all_goals (casesm* _ ∧ _; subst_vars; try simp only [true_implies] at *)
    all_goals first
      | exact ⟨trivial, by assumption, by omega⟩
      | exact fun invalid _ _ => invalid
      | (intro sub room fuel; exact sub (by omega) (by omega))
      | (intro sub room _; exact sub (by omega))
      | exact ⟨⟨by omega, by omega, by assumption, by simp only [*], by omega, by simp [*]⟩, by omega⟩
      | (intros; (try casesm* _ ∧ _); simp_all +zetaDelta; omega)

theorem Sound.parseArrayLiteral_spec :
    Keeps (r.parseArrayLiteral rounds) (fun _ => []) 1 (levels + 1) rounds := by
  intro s₀
  have arrayLoop := h.arrayLoop_spec
  mvcgen [parseArrayLiteral, advance_parsed, withIn, arrayLoop]
  all_goals clear arrayLoop h
  all_goals try simp +zetaDelta only [parsed_iff, ready_iff, Consumed, Headroom, ParseState.top_mk] at *
  all_goals (casesm* _ ∧ _; subst_vars; try simp only [true_implies] at *)
  all_goals first
    | exact ⟨trivial, by assumption, by omega⟩
    | exact fun invalid _ => invalid
    | (intro sub room; exact sub (by omega) (by omega))
    | exact ⟨⟨by omega, by omega, by assumption, by simp only [*], by omega, by simp [*]⟩, by omega⟩

theorem Sound.objectLoop_spec (n : Nat) (acc : Array (String × Expr)) (s₀ : ParseState) :
    ⦃fun s => ⌜s = s₀ ∧ Ready s₀⌝⦄ r.objectLoop n acc
    ⦃post⟨fun _ s => ⌜Parsed s₀ [] s ∧ Consumed s₀ s⌝,
      fun f => ⌜Headroom 1 (levels + 1) rounds s₀ → s₀.tokens.length < n → f ≠ .exhausted⌝⟩⦄ := by
  induction n generalizing acc s₀ with
  | zero => mvcgen [objectLoop, exhausted_spec] <;> simp_all
  | succ n ih =>
    have assignment := h.assignment.triple
    mvcgen [objectLoop, eatPunct_parsed, current_spec, advance_parsed, expectPropertyName_parsed,
      expectPunct_parsed, assignment, ih]
    all_goals clear assignment ih h
    all_goals try simp +zetaDelta only [parsed_iff, ready_iff, Consumed, Headroom] at *
    all_goals (casesm* _ ∧ _; subst_vars; try simp only [true_implies] at *)
    all_goals first
      | exact ⟨trivial, by assumption, by omega⟩
      | exact fun invalid _ _ => invalid
      | (intro sub room fuel; exact sub (by omega) (by omega))
      | (intro sub room _; exact sub (by omega))
      | exact ⟨⟨by omega, by omega, by assumption, by simp only [*], by omega, by simp [*]⟩, by omega⟩
      | (intros; (try casesm* _ ∧ _); simp_all +zetaDelta; omega)

theorem Sound.parseObjectLiteral_spec :
    Keeps (r.parseObjectLiteral rounds) (fun _ => []) 1 (levels + 1) rounds := by
  intro s₀
  have objectLoop := h.objectLoop_spec
  mvcgen [parseObjectLiteral, advance_parsed, withIn, objectLoop]
  all_goals clear objectLoop h
  all_goals try simp +zetaDelta only [parsed_iff, ready_iff, Consumed, Headroom, ParseState.top_mk] at *
  all_goals (casesm* _ ∧ _; subst_vars; try simp only [true_implies] at *)
  all_goals first
    | exact ⟨trivial, by assumption, by omega⟩
    | exact fun invalid _ => invalid
    | (intro sub room; exact sub (by omega) (by omega))
    | exact ⟨⟨by omega, by omega, by assumption, by simp only [*], by omega, by simp [*]⟩, by omega⟩

end Expressions

end EmbedScript.Syntax.Parser.Rules
