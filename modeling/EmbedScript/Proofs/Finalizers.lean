import Mathlib
import EmbedScript.Proofs.Survival

/-!
Finalizer accounting. The engine records, in order, each finalizer the stack interface gives an
object, each rescue of an object by a collection and each run of a finalizer on an object.
Over every run from a fresh engine, a finalizer has run on an object at most as often as the
object was rescued, and the object was rescued at most as often as it was given a finalizer: a
run takes off the queue an entry that only a rescue puts there, and a rescue clears the flag
that only a new finalizer sets. The accounting is an invariant of the atomic steps, so it holds
along every run the stack interface and the evaluator make.

Besides: a collection rescues only objects its roots do not reach, the queue keeps everything
it reaches live, a pass at the call-depth limit runs no finalizer and leaves its queue for a
later pass, and a finalizer round
counts the finalizer it runs whatever the finalizer does and gives the stack back as it found it.
-/

namespace EmbedScript

namespace Heap

/-- An object still due for a rescue: live, with a finalizer, and not flagged as queued. -/
def armed (h : Heap) (id : ObjectId) : Bool :=
  (h.get? id).any fun o => o.finalizer.isSome && !o.finalized

variable {h : Heap} {id : ObjectId}

theorem armed_iff : h.armed id = true ↔
    ∃ o, h.get? id = some o ∧ o.finalizer.isSome = true ∧ o.finalized = false := by
  rw [armed]
  cases h.get? id <;> simp

theorem get?_eq_none_of_not_valid (dead : ¬ h.Valid id) : h.get? id = none := by
  rcases found : h.get? id with _ | o
  · rfl
  · exact absurd ⟨o, found⟩ dead

/-- Allocating an object without a finalizer arms nothing. -/
theorem armed_alloc {o : HeapObject} (wf : h.WellFormed) (none : o.finalizer = none) :
    (h.alloc o).2.armed id = h.armed id := by
  by_cases valid : h.Valid id
  · rw [armed, armed, get?_alloc_of_valid wf valid]
  have before := get?_eq_none_of_not_valid valid
  by_cases new : id = (h.alloc o).1
  · subst new
    simp [armed, get?_alloc_self wf, none, before]
  · -- any other id is as dead after the allocation as before it
    have after : (h.alloc o).2.get? id = Option.none := by
      refine get?_eq_none_of_not_valid fun live => ?_
      rcases (valid_alloc_iff wf).mp live with old | same
      · exact valid old
      · exact new same
    simp [armed, before, after]

/-- An edit that keeps finalizers and their flags arms nothing. -/
theorem armed_modify {target : ObjectId} {f : HeapObject → HeapObject}
    (kept : ∀ o, h.get? target = some o →
      (f o).finalizer = o.finalizer ∧ (f o).finalized = o.finalized) :
    (h.modify target f).armed id = h.armed id := by
  rw [armed, armed, get?_modify]
  split
  · rename_i same
    subst same
    rcases found : h.get? id with _ | o
    · rfl
    · simp [kept o found]
  · rfl

/-- Giving an object a finalizer arms it when it is live and the finalizer is one, and leaves
every other object as it was. -/
theorem armed_setFinalizer {target : ObjectId} {fin : Option ObjectId} :
    (h.modify target fun o => { o with finalizer := fin, finalized := false }).armed id =
      if id = target then (h.get? target).isSome && fin.isSome else h.armed id := by
  rw [armed, get?_modify]
  by_cases same : id = target
  · subst same
    rcases h.get? id with _ | o <;> simp
  · simp [same, armed]

theorem armed_empty : ({} : Heap).armed id = false := by
  simp [armed, get?]

/-- The error constructors of a fresh engine come without finalizers. -/
theorem armed_foldl_allocConstructor {acc : List (String × Value) × Heap} (wf : acc.2.WellFormed)
    (kinds : List ErrorKind) : (kinds.foldl allocConstructor acc).2.armed id = acc.2.armed id := by
  induction kinds generalizing acc with
  | nil => rfl
  | cons kind rest ih => exact (ih (wellFormed_alloc wf)).trans (armed_alloc wf rfl)

/-- A collection rescues an object at most once: the rescued ids are read off distinct slots. -/
theorem nodup_toFinalize {roots : List ObjectId} : (h.collect roots).2.toFinalize.Nodup := by
  rw [toFinalize_collect, rescued_eq]
  refine List.nodup_range.filterMap fun i j rescued first second => ?_
  obtain ⟨_, -, atFirst⟩ := Option.bind_eq_some_iff.mp first
  obtain ⟨_, -, atSecond⟩ := Option.bind_eq_some_iff.mp second
  exact ((rescuedAt_eq_some.mp atFirst).2.1.symm).trans (rescuedAt_eq_some.mp atSecond).2.1

section Collect

variable {roots : List ObjectId} (closed : h.Closed) (live : ∀ r ∈ roots, h.Valid r)
include closed live

/-- A collection arms nothing, and each object it rescues was armed and is no longer. -/
theorem count_toFinalize_add_armed :
    (h.collect roots).2.toFinalize.count id + ((h.collect roots).1.armed id).toNat ≤
      (h.armed id).toNat := by
  by_cases rescued : id ∈ (h.collect roots).2.toFinalize
  · obtain ⟨-, o, found, fin, unqueued⟩ := (mem_toFinalize_iff closed live).mp rescued
    have before : h.armed id = true := armed_iff.mpr ⟨o, found, fin, unqueued⟩
    -- what survives of a rescued object is flagged as queued
    have after : (h.collect roots).1.armed id = false := by
      rcases survived : (h.collect roots).1.get? id with _ | o'
      · simp [armed, survived]
      · obtain ⟨o₀, -, -, rfl⟩ := (get?_collect_eq_some closed live).mp survived
        simp [armed, survived, rescued]
    rw [List.count_eq_one_of_mem nodup_toFinalize rescued, before, after]
    rfl
  · rw [List.count_eq_zero_of_not_mem rescued, Nat.zero_add]
    cases after : (h.collect roots).1.armed id
    · simp
    · obtain ⟨o', survived, fin, unqueued⟩ := armed_iff.mp after
      obtain ⟨o, found, -, rfl⟩ := (get?_collect_eq_some closed live).mp survived
      have before : h.armed id = true :=
        armed_iff.mpr ⟨o, found, fin, by simpa [rescued] using unqueued⟩
      simp [before]

end Collect

end Heap

namespace Engine

/-- How often the record says a finalizer ran on `id`. -/
def runs (e : Engine) (id : ObjectId) : Nat := e.finalizerLog.count (.ran id)

/-- How often the record says a collection rescued `id`. -/
def rescues (e : Engine) (id : ObjectId) : Nat := e.finalizerLog.count (.rescued id)

/-- How often the record says the stack interface gave `id` a finalizer. -/
def armings (e : Engine) (id : ObjectId) : Nat := e.finalizerLog.count (.armed id)

/-- The finalizer accounting: every run of a finalizer on an object, and every call of it still
queued, is paid for by a rescue of the object; every rescue, and the one an armed object is
still due, by a finalizer the stack interface gave it. -/
structure Accounted (e : Engine) : Prop where
  runs_le : ∀ id, e.runs id + e.finalizeQueue.count id ≤ e.rescues id
  rescues_le : ∀ id, e.rescues id + (e.heap.armed id).toNat ≤ e.armings id

variable {e e' : Engine}

/-- A step that keeps the queue, the record and the armed objects keeps the accounting. -/
theorem Accounted.of_kept (accounted : e.Accounted)
    (queue : e'.finalizeQueue = e.finalizeQueue) (log : e'.finalizerLog = e.finalizerLog)
    (armed : ∀ id, e'.heap.armed id = e.heap.armed id) : e'.Accounted where
  runs_le id := by
    simpa only [runs, rescues, queue, log] using accounted.runs_le id
  rescues_le id := by
    simpa only [rescues, armings, log, armed] using accounted.rescues_le id

theorem Accounted.runs_le_rescues (accounted : e.Accounted) (id : ObjectId) :
    e.runs id ≤ e.rescues id :=
  (Nat.le_add_right _ _).trans (accounted.runs_le id)

theorem Accounted.rescues_le_armings (accounted : e.Accounted) (id : ObjectId) :
    e.rescues id ≤ e.armings id :=
  (Nat.le_add_right _ _).trans (accounted.rescues_le id)

/-- A record that gains an event on a condition counts it once more when the condition holds. -/
theorem count_recorded (c : Bool) (log : Array FinalizerEvent) (new event : FinalizerEvent) :
    (if c then log.push new else log).count event =
      log.count event + if c ∧ new = event then 1 else 0 := by
  cases c <;> simp [Array.count_push]

/-- Giving an object a finalizer records the arming when it gives one. -/
theorem Accounted.setFinalizer (accounted : e.Accounted) (target : ObjectId)
    (fin : Option ObjectId) :
    ({ e with
      heap := e.heap.modify target fun o => { o with finalizer := fin, finalized := false }
      finalizerSets := e.finalizerSets + 1
      finalizerLog := if fin.isSome then e.finalizerLog.push (.armed target)
        else e.finalizerLog } : Engine).Accounted where
  runs_le id := by
    simpa [runs, rescues, count_recorded] using accounted.runs_le id
  rescues_le id := by
    have paid := accounted.rescues_le id
    simp only [rescues, armings, count_recorded, Heap.armed_setFinalizer] at paid ⊢
    by_cases same : id = target
    · subst same
      -- the arming recorded pays for the flag the new finalizer sets
      have flag : ((e.heap.get? id).isSome && fin.isSome).toNat ≤ if fin.isSome then 1 else 0 := by
        cases fin.isSome <;> simp [Bool.toNat_le]
      simp only [if_true, and_true, reduceCtorEq, and_false, if_false] at paid ⊢
      omega
    · simpa [same, Ne.symm same] using paid

theorem count_map_rescued (l : List ObjectId) (id : ObjectId) :
    (l.map FinalizerEvent.rescued).count (.rescued id) = l.count id :=
  List.count_map_of_injective l _ (fun _ _ same => FinalizerEvent.rescued.inj same) id

theorem count_map_rescued_of_ne (l : List ObjectId) (event : FinalizerEvent)
    (other : ∀ id, event ≠ .rescued id) : (l.map FinalizerEvent.rescued).count event = 0 := by
  rw [List.count_eq_zero_of_not_mem]
  simp only [List.mem_map, not_exists, not_and]
  exact fun id _ same => other id same.symm

/-- A collection queues and records each object it rescues, and arms nothing. -/
theorem Accounted.collect (safe : e.Safe) (accounted : e.Accounted) :
    ({ e with
      heap := (e.heap.collect e.roots).1
      registry := (e.registry.releaseAll (e.heap.collect e.roots).2.released).2
      finalizeQueue := e.finalizeQueue ++ (e.heap.collect e.roots).2.toFinalize.toArray
      finalizerLog :=
        e.finalizerLog ++ ((e.heap.collect e.roots).2.toFinalize.map FinalizerEvent.rescued).toArray
      } : Engine).Accounted where
  runs_le id := by
    have paid := accounted.runs_le id
    simp only [runs, rescues, Array.count_append, List.count_toArray, count_map_rescued,
      count_map_rescued_of_ne _ (.ran id) (fun _ => by simp)] at paid ⊢
    omega
  rescues_le id := by
    have paid := accounted.rescues_le id
    have disarmed : (e.heap.collect e.roots).2.toFinalize.count id +
        ((e.heap.collect e.roots).1.armed id).toNat ≤ (e.heap.armed id).toNat :=
      Heap.count_toFinalize_add_armed safe.closed (rootsLive_iff.mp safe.roots)
    simp only [rescues, armings, Array.count_append, List.count_toArray, count_map_rescued,
      count_map_rescued_of_ne _ (.armed id) (fun _ => by simp)] at paid ⊢
    omega

/-- Taking the last object off the queue records the run of its finalizer, if it has one, which
the queue entry had paid for. -/
theorem Accounted.dequeue (accounted : e.Accounted) {id : ObjectId}
    (last : e.finalizeQueue.back? = some id) : (e.dequeueFinalizable id).Accounted where
  runs_le x := by
    have paid := accounted.runs_le x
    obtain ⟨rest, queue⟩ := Array.back?_eq_some_iff.mp last
    have ran : (e.dequeueFinalizable id).runs x ≤ e.runs x + if id == x then 1 else 0 := by
      unfold runs dequeueFinalizable
      split <;> simp [Array.count_push]
    have rescued : (e.dequeueFinalizable id).rescues x = e.rescues x := by
      simp [rescues, dequeueFinalizable, count_recorded]
    have popped : (e.dequeueFinalizable id).finalizeQueue = rest := by
      simp [dequeueFinalizable, queue]
    rw [queue, Array.count_push] at paid
    rw [popped, rescued]
    omega
  rescues_le x := by
    simpa [rescues, armings, dequeueFinalizable, count_recorded] using accounted.rescues_le x

/-- A fresh engine has recorded nothing, queued nothing and armed nothing. -/
theorem fresh_accounted (config : Config) (tally : Int) : (Engine.fresh config tally).Accounted := by
  have unarmed : ∀ id, (Engine.fresh config tally).heap.armed id = false := by
    intro id
    have empty := Heap.wellFormed_empty
    simp only [Engine.fresh]
    -- the global object gets its properties, and keeps its lack of a finalizer
    rw [Heap.armed_modify, Heap.armed_foldl_allocConstructor (Heap.wellFormed_alloc empty),
      Heap.armed_alloc empty rfl, Heap.armed_empty]
    exact fun _ _ => ⟨rfl, rfl⟩
  refine ⟨fun id => ?_, fun id => ?_⟩
  · simp [runs, rescues, Engine.fresh]
  · rw [unarmed id]
    simp [rescues, armings, Engine.fresh]

/-- Every atomic step keeps the accounting: only an arming, a collection and a dequeue write to
the record, and every other step arms nothing. -/
theorem Accounted.step (safe : e.Safe) (accounted : e.Accounted) (step : e.Step e') :
    e'.Accounted := by
  cases step with
  | reroot heap _ _ _ _ queue log _ =>
    exact accounted.of_kept queue log fun id => by rw [heap]
  | alloc o _ _ noFinalizer =>
    exact accounted.of_kept rfl rfl fun id => Heap.armed_alloc safe.wellFormed noFinalizer
  | adopt v => exact accounted.of_kept rfl rfl fun id => Heap.armed_alloc safe.wellFormed rfl
  | bindMethod => exact accounted.of_kept rfl rfl fun id => Heap.armed_alloc safe.wellFormed rfl
  | edit target f kept =>
    exact accounted.of_kept rfl rfl fun id =>
      Heap.armed_modify fun o found => ⟨(kept o found).2.2.1, (kept o found).2.2.2.1⟩
  | setFinalizer target fin => exact accounted.setFinalizer target fin
  | collect => exact accounted.collect safe
  | dequeue id last => exact accounted.dequeue last

/-- The accounting holds along every run from a safe engine that keeps it. -/
theorem Accounted.steps (safe : e.Safe) (accounted : e.Accounted) (run : e.Steps e') :
    e'.Accounted := by
  induction run with
  | refl => exact accounted
  | tail run step reached => exact reached.step (safe.steps run) step

/-- Only a collection records rescues, and it rescues only objects its roots do not reach. -/
theorem Step.unreached_of_rescued (safe : e.Safe) (step : e.Step e') {id : ObjectId}
    (rescued : e.rescues id < e'.rescues id) : ¬ e.heap.Reach e.roots id := by
  cases step with
  | reroot _ _ _ _ _ _ log _ => simp [rescues, log] at rescued
  | setFinalizer target fin _ => simp [rescues, count_recorded] at rescued
  | collect =>
    simp only [rescues, Array.count_append, List.count_toArray, count_map_rescued] at rescued
    have queued : id ∈ (e.heap.collect e.roots).2.toFinalize := List.count_pos_iff.mp (by omega)
    exact ((Heap.mem_toFinalize_iff safe.closed (rootsLive_iff.mp safe.roots)).mp queued).1
  | dequeue x _ => simp [rescues, dequeueFinalizable, count_recorded] at rescued
  | _ => simp [rescues] at rescued

/-- The finalizer queue is a root: while an object is queued, it and everything it reaches are
live, and a collection keeps them. -/
theorem Safe.queued_reach_live (safe : e.Safe) {id p : ObjectId} (queued : id ∈ e.finalizeQueue)
    (reach : e.heap.Reach [id] p) : e.heap.Valid p ∧ (e.heap.collect e.roots).1.Valid p := by
  have live := rootsLive_iff.mp safe.roots
  have rooted : e.heap.Reach e.roots p := reach.mono fun r member => by
    rw [List.mem_singleton.mp member]
    exact mem_roots.mpr (.inr (.inr (.inl queued)))
  exact ⟨rooted.valid safe.closed live, Heap.valid_collect_of_reach safe.closed live rooted⟩

end Engine

namespace Evaluator

variable {d : Evaluator} {e₀ : Engine}

/-- At the call-depth limit a collection pass runs no finalizer: it leaves the queue, with what
it rescued added, to a later pass with room to call. -/
theorem collectGarbage_defers_at_limit (d : Evaluator) (limit : e₀.canCall = false)
    (queued : e₀.finalizeQueue ++ (e₀.heap.collect e₀.roots).2.toFinalize.toArray ≠ #[]) :
    ∃ stats e, d.collectGarbage.run.run e₀ = (.ok stats, e) ∧ stats.finalizersRun = 0 ∧
      e.finalizeQueue = e₀.finalizeQueue ++ (e₀.heap.collect e₀.roots).2.toFinalize.toArray ∧
      ∀ id, e.runs id = e₀.runs id := by
  have waiting : (e₀.finalizeQueue ++ (e₀.heap.collect e₀.roots).2.toFinalize.toArray).isEmpty =
      false := by
    simpa using queued
  simp only [collectGarbage, runFinalizers, run_bind, run_get, run_set]
  simp only [Engine.canCall] at limit ⊢
  simp only [waiting, limit, Bool.not_false, Bool.true_and, if_true]
  refine ⟨_, _, rfl, rfl, rfl, fun id => ?_⟩
  simp [Engine.runs, Array.count_append, Engine.count_map_rescued_of_ne]

/-- A round with a finalizer to run counts it whatever the finalizer does: unless the evaluator
runs out of fuel, the round goes on with the rest of the queue and one run more, from an engine
whose stack and control state are those the round found. -/
theorem Guarded.finalizeRound_counts (g : d.Guarded) (sound : e₀.Sound) {id fin : ObjectId}
    (last : e₀.finalizeQueue.back? = some id)
    (finalizer : (e₀.object? id).bind (·.finalizer) = some fin) (count : Nat) :
    (∃ e, (e₀.dequeueFinalizable id).Kept e ∧
      (d.finalizeRound count).run.run e₀ = (d.finalizeQueued (count + 1)).run.run e) ∨
    ∃ e, (d.finalizeRound count).run.run e₀ = (.error .exhausted, e) := by
  obtain ⟨object, live⟩ := sound.safe.live_queued last finalizer
  have dequeued := Engine.dequeued last
  obtain ⟨steps, grouped, group, base, control, below⟩ :=
    (sound.kept dequeued).finalizerGroup live object
  have call := (triple_iff _ _ _ _).mp (g.invoke 1 false _) _ ⟨rfl, grouped, group⟩
  rw [base] at call
  simp only [finalizeRound, run_bind, run_get, last, run_modify, finalizer, catchThrown_run]
  revert call
  rcases (d.invoke 1 false).run.run _ with ⟨(v | _) | _, e₁⟩
  · -- the finalizer threw: the call group is gone, and nothing else
    rintro ⟨run, removed⟩
    exact .inl ⟨e₁, removed.kept_above (steps.trans run) control below, rfl⟩
  · exact fun _ => .inr ⟨e₁, rfl⟩
  · -- the finalizer returned: its result is popped
    rintro ⟨run, replaced⟩
    have pushed := replaced.pushed_above control below
    obtain ⟨popped, -⟩ := pushed.popped (sound.kept dequeued) (steps.trans run)
    have nonempty := pushed.nonempty (sound.kept dequeued)
    have rest : (discard (popValue : Api Value) >>= fun _ => d.finalizeQueued (count + 1)).run.run e₁ =
        (d.finalizeQueued (count + 1)).run.run { e₁ with stack := e₁.stack.pop } := by
      rw [show discard (popValue : Api Value) >>= (fun _ => d.finalizeQueued (count + 1)) =
          popValue >>= fun _ => d.finalizeQueued (count + 1) from bind_map_left _ _ _,
        run_bind, run_popValue]
      simp [Engine.pop?, nonempty]
    exact .inl ⟨_, popped, rest⟩

end Evaluator

/-- Finalizer accounting over every run from a fresh engine: a finalizer runs on an object at
most as often as the object is rescued, and the object is rescued at most as often as it is
given a finalizer; a rescue finds the object unreachable from the roots; a queued object keeps
everything it reaches live; a pass at the call-depth limit runs no finalizer and leaves the queue
for later; and a finalizer that throws is counted like one that returns, the stack and control
state coming back as they were. -/
theorem finalizer_accounting (config : Config) (tally : Int) :
    (∀ e, (Engine.fresh config tally).Steps e → ∀ id,
        e.runs id ≤ e.rescues id ∧ e.rescues id ≤ e.armings id) ∧
    (∀ e e', (Engine.fresh config tally).Steps e → e.Step e' → ∀ id,
        e.rescues id < e'.rescues id → ¬ e.heap.Reach e.roots id) ∧
    (∀ e, (Engine.fresh config tally).Steps e → ∀ id ∈ e.finalizeQueue, ∀ p,
        e.heap.Reach [id] p → e.heap.Valid p ∧ (e.heap.collect e.roots).1.Valid p) ∧
    (∀ e : Engine, e.canCall = false →
        e.finalizeQueue ++ (e.heap.collect e.roots).2.toFinalize.toArray ≠ #[] →
        ∃ stats e', Api.gc.run.run e = (.ok stats, e') ∧ stats.finalizersRun = 0 ∧
          e'.finalizeQueue = e.finalizeQueue ++ (e.heap.collect e.roots).2.toFinalize.toArray ∧
          ∀ id, e'.runs id = e.runs id) ∧
    (∀ (e : Engine) (id fin : ObjectId) (count : Nat), e.Sound →
        e.finalizeQueue.back? = some id → (e.object? id).bind (·.finalizer) = some fin →
        (∃ e', (e.dequeueFinalizable id).Kept e' ∧
          (Evaluator.standard.finalizeRound count).run.run e =
            (Evaluator.standard.finalizeQueued (count + 1)).run.run e') ∨
        ∃ e', (Evaluator.standard.finalizeRound count).run.run e = (.error .exhausted, e')) := by
  have fresh := Engine.fresh_sound config tally
  refine ⟨fun e run id => ?_, fun e e' run step id rescued => ?_,
    fun e run id queued p reach => ?_, fun e limit queued => ?_,
    fun e id fin count sound last finalizer => ?_⟩
  · have accounted := (Engine.fresh_accounted config tally).steps fresh.safe run
    exact ⟨accounted.runs_le_rescues id, accounted.rescues_le_armings id⟩
  · exact step.unreached_of_rescued (fresh.safe.steps run) rescued
  · exact (fresh.safe.steps run).queued_reach_live queued reach
  · exact Evaluator.collectGarbage_defers_at_limit Evaluator.standard limit queued
  · exact Evaluator.guarded_standard.finalizeRound_counts sound last finalizer count

end EmbedScript
