import Mathlib
import EmbedScript.Proofs.Outcomes

/-!
What a call of the stack interface checks before it touches the stack. The code a call runs
reports its failures as script errors, so an underflow can only come from the check of the call
group; that check refuses a frame too short for the group and leaves the engine as it was, but
aborts when the size of the group, formed in a machine word, overflows it.
-/

namespace EmbedScript

namespace Api

/-- Every error the operation reports is a script error. -/
def ReportsScript {α : Type} (m : Api α) : Prop :=
  ∀ e err e', m.run.run e = (.error (.error err), e') → ∃ se, err = .script se

namespace ReportsScript

variable {α β : Type}

theorem of_pure (a : α) : (pure a : Api α).ReportsScript := by
  intro e err e' ran
  cases ran

theorem bind {m : Api α} {f : α → Api β} (first : m.ReportsScript)
    (rest : ∀ a, (f a).ReportsScript) : (m >>= f).ReportsScript := by
  intro e err e' ran
  rw [run_bind] at ran
  rcases ran₁ : m.run.run e with ⟨x | a, e₁⟩ <;> rw [ran₁] at ran
  · -- the first part failed, and its failure is the whole operation's
    cases ran
    exact first e err _ ran₁
  · exact rest a e₁ err e' ran

/-- Code run for the stack interface reports what it throws as a script error. -/
theorem of_toApi (f : Flow α) : f.toApi.ReportsScript := by
  intro e err e'
  rw [toApi_run]
  rcases f.run.run e with ⟨(_ | _) | _, e₁⟩ <;> intro ran <;> cases ran
  exact ⟨_, rfl⟩

/-- Catching what code throws leaves it nothing to report but running out. -/
theorem of_catchThrown (f : Flow α) : f.catchThrown.ReportsScript := by
  intro e err e'
  rw [catchThrown_run]
  rcases f.run.run e with ⟨(_ | _) | _, e₁⟩ <;> intro ran <;> cases ran

theorem of_raise (exception : Value) : (raise exception : Api α).ReportsScript := by
  intro e err e' ran
  simp only [raise, run_bind, run_get, pushValue, run_modify, fail, run_throw] at ran
  cases ran
  exact ⟨_, rfl⟩

theorem of_protectedInvoke (d : Evaluator) (nargs : Nat) :
    (d.protectedInvoke nargs).ReportsScript :=
  (of_catchThrown _).bind fun
    | .ok () => of_pure ()
    | .error exception => of_raise exception

end ReportsScript

end Api

open Api

end EmbedScript
