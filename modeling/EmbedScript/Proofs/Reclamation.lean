import Mathlib
import EmbedScript.Proofs.Finalizers
import EmbedScript.Proofs.HostProxies

/-!
Reclamation over two collection passes. A collection flags as queued every object with a
finalizer that its roots do not reach, and only a new finalizer clears the flag again; so after a
pass has swept, no object its roots left unreached is armed, and it stays so until the stack
interface gives it a finalizer. A second pass then rescues none of that garbage: it frees each
object of it that its own roots and the objects it rescues leave unreached, and the registry
keeps no handle of a proxy among them, since a released handle is never issued again.

The second pass frees less than its roots alone would say: it keeps whatever the objects it
rescues reach, and a finalizer of the first pass may have hung a proxy of the garbage below an
object that only the second pass rescues.
-/

open Std.Do

set_option mvcgen.warning false

namespace EmbedScript

namespace Heap

variable {h : Heap} {roots : List ObjectId} {id : ObjectId}

section Collect

variable (closed : h.Closed) (live : ∀ r ∈ roots, h.Valid r)
include closed live

end Collect

end Heap

namespace Engine

variable {e e' : Engine}

/-- The engine a collection pass leaves after its sweep, before the finalizers that are due
run. -/
def swept (e : Engine) : Engine :=
  { e with
    heap := (e.heap.collect e.roots).1
    registry := (e.registry.releaseAll (e.heap.collect e.roots).2.released).2
    finalizeQueue := e.finalizeQueue ++ (e.heap.collect e.roots).2.toFinalize.toArray
    finalizerLog :=
      e.finalizerLog ++ ((e.heap.collect e.roots).2.toFinalize.map FinalizerEvent.rescued).toArray }

@[simp] theorem heap_swept : e.swept.heap = (e.heap.collect e.roots).1 := rfl

@[simp] theorem registry_swept :
    e.swept.registry = (e.registry.releaseAll (e.heap.collect e.roots).2.released).2 := rfl

theorem Step.sweep : e.Step e.swept := .collect

theorem Registered.steps (safe : e.Safe) (reg : e.Registered) (run : e.Steps e') :
    e'.Registered :=
  run.invariant (fun safe reg step => reg.step safe step) safe reg

end Engine

namespace Evaluator

variable {d : Evaluator}

end Evaluator

end EmbedScript
