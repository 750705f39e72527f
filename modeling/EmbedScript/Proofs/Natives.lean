import Mathlib
import EmbedScript.Proofs.Frames

/-!
Host functions keep to their frame. Each host function of the catalogue is a composition of
operations of the stack interface and of the operations through which it reenters the engine,
so it moves the engine by atomic steps and leaves the control state and the values below its
frame alone as soon as the reentry operations do.
-/

namespace EmbedScript

open Std.Do

namespace Api

theorem Reads.get : (get : Api Engine).Reads := by
  intro e₀
  mvcgen

namespace Keeps

variable {α β : Type}

theorem get : (MonadState.get : Api Engine).Keeps := of_reads Reads.get

/-- An operation run for each element of a list keeps to the frame when each run does. -/
theorem forM {l : List α} {f : α → Api Unit} (each : ∀ a, (f a).Keeps) : (l.forM f).Keeps := by
  induction l with
  | nil => exact .pure ()
  | cons a rest ih => exact .bind (each a) fun _ => ih

/-- A fold keeps to the frame when each of its steps does. -/
theorem foldlM (l : List α) {f : β → α → Api β} (each : ∀ b a, (f b a).Keeps) (init : β) :
    (l.foldlM f init).Keeps := by
  induction l generalizing init with
  | nil => exact .pure init
  | cons a rest ih => exact .bind (each init a) ih

/-- The tally of the counting host functions lies outside everything the frame protects. -/
theorem modifyTally (f : Int → Int) :
    (modify fun e => { e with tally := f e.tally } : Api Unit).Keeps := by
  intro e₀
  mvcgen with obtain ⟨rfl, sound⟩ := ‹_ = e₀ ∧ _›
  | vc1 =>
    exact Engine.Step.moved (.control sound.safe rfl rfl rfl rfl rfl rfl rfl rfl
      fun _ member => .inl member) sound rfl rfl

/-- Dropping the error of an operation that keeps to its frame. -/
theorem ignoreError {act : Api Unit} (keeps : act.Keeps) : act.ignoreError.Keeps := by
  intro e₀
  have spec := (triple_iff _ _ _ _).mp (ignoreError_spec (keeps e₀))
  rw [triple_iff]
  intro e pre
  have ran := spec e pre
  revert ran
  rcases act.ignoreError.run.run e with ⟨_ | _, e'⟩
  · rintro ⟨rfl, failed⟩
    exact failed
  · -- an error is dropped where the operation left the engine, inside its frame
    rintro (moved | ⟨err, run, framed⟩)
    · exact moved
    · exact ⟨run, framed⟩

theorem putPropIndex (i : Int) (n : Nat) : (putPropIndex i n).Keeps := putPropString i _

theorem argText (k : Int) : (argText k).Keeps :=
  .bind get fun _ => by
    split
    · exact .bind (.dup k) fun _ => .bind (.toStringAt (-1)) fun s => .bind .pop fun _ => .pure s
    · exact .pure ""

theorem getPoint (i : Int) : (getPoint i).Keeps :=
  .bind (of_reads (Reads.getHostObject i .point)) fun v => by
    split
    · exact .pure _
    · exact .fail _

theorem getText (i : Int) : (getText i).Keeps :=
  .bind (of_reads (Reads.getHostObject i .text)) fun v => by
    split
    · exact .pure _
    · exact .fail _

theorem copyArgs (arr : Int) (count : Nat) : (copyArgs arr count).Keeps :=
  forM fun i => .bind (.dup i) fun _ => putPropIndex arr i

theorem sumNumbers (count : Nat) : (sumNumbers count).Keeps :=
  foldlM (List.range count) (fun s i => .bind (of_reads (Reads.getNumber i)) fun x => .pure (s + x)) 0

theorem putNumber (key : String) (x : Nat) : (putNumber key x).Keeps :=
  .bind (.push rfl) fun _ => .putPropString (-2) key

end Keeps

end Api

/-- Reentry operations that keep to their frame. -/
structure Reentry.Keeps (r : Reentry) : Prop where
  evalString : ∀ src, (r.evalString src).Keeps
  pevalString : ∀ src, (r.pevalString src).Keeps
  call : ∀ nargs, (r.call nargs).Keeps
  pcall : ∀ nargs, (r.pcall nargs).Keeps
  collect : r.collect.Keeps

open Api Api.Keeps in
/-- Every host function of the catalogue keeps to its frame when the engine it reenters does. -/
theorem Reentry.Keeps.runNative {r : Reentry} (reentry : r.Keeps) (body : Native) :
    (r.runNative body).Keeps := by
  cases body <;> simp only [Reentry.runNative]
  case errorConstructor kind =>
    refine .bind .get fun e => ?_
    split
    · exact .bind (.pure _) fun m => .bind (.pushErrorObject kind m) fun _ => .pure 1
    · exact .bind (.toStringAt 0) fun m => .bind (.pushErrorObject kind m) fun _ => .pure 1
  case sum =>
    exact .bind (of_reads Reads.getTop) fun t => .bind (sumNumbers t) fun _ =>
      .bind (.push rfl) fun _ => .pure 1
  case add2 =>
    exact .bind (of_reads Reads.getTop) fun _ => .bind (of_reads (Reads.getNumber _)) fun _ =>
      .bind (of_reads (Reads.getNumber _)) fun _ => .bind (.push rfl) fun _ => .pure 1
  case hi => exact .bind (of_reads (Reads.getInt _)) fun _ => .bind (.push rfl) fun _ => .pure 1
  case inc =>
    exact .bind (modifyTally (· + 1)) fun _ => .bind .get fun _ => .bind (.push rfl) fun _ => .pure 1
  case dec =>
    exact .bind (modifyTally (· - 1)) fun _ => .bind .get fun _ => .bind (.push rfl) fun _ => .pure 1
  case fail => exact .bind (.push rfl) fun _ => .bind (.push rfl) fun _ => .fail _
  case failMsg => exact .bind (argText 0) fun _ => .fail _
  case rethrow => exact .bind (argText 0) fun _ => .bind (argText 1) fun _ => .fail _
  case num0 => exact .bind (of_reads (Reads.getNumber 0)) fun _ => .bind (.push rfl) fun _ => .pure 1
  case int0 => exact .bind (of_reads (Reads.getInt 0)) fun _ => .bind (.push rfl) fun _ => .pure 1
  case str0 => exact .bind (of_reads (Reads.getString 0)) fun _ => .bind (.push rfl) fun _ => .pure 1
  case bool0 => exact .bind (of_reads (Reads.getBoolean 0)) fun _ => .bind (.push rfl) fun _ => .pure 1
  case deep => exact .bind (of_reads (Reads.getString 5)) fun _ => .pure 0
  case underflow => exact .bind (of_reads Reads.getTop) fun _ => .bind (.popN _) fun _ => .pure 0
  case notObject => exact .bind (.push rfl) fun _ => .bind (.putPropString _ _) fun _ => .pure 0
  case retn => exact .bind (of_reads (Reads.getInt 0)) fun _ => .pure _
  case argc => exact .bind (of_reads Reads.getTop) fun _ => .bind (.push rfl) fun _ => .pure 1
  case args =>
    exact .bind (of_reads Reads.getTop) fun top => .bind .pushArray fun arr =>
      .bind (copyArgs arr top) fun _ => .pure 1
  case this => exact .bind .pushThis fun _ => .pure 1
  case thisTag => exact .bind .pushThis fun _ => .bind (.getPropString _ _) fun _ => .pure 1
  case collect =>
    exact .bind reentry.collect fun _ => .bind .pushObject fun _ => .bind (putNumber _ _) fun _ =>
      .bind (putNumber _ _) fun _ => .bind (putNumber _ _) fun _ => .bind (putNumber _ _) fun _ =>
      .pure 1
  case eval => exact .bind (argText 0) fun s => .bind (reentry.evalString s) fun _ => .pure 1
  case peval =>
    exact .bind (argText 0) fun s => .bind (ignoreError (reentry.pevalString s)) fun _ => .pure 1
  case call =>
    refine .bind (of_reads Reads.getTop) fun top => ?_
    split
    · exact .pure 0
    · exact .bind (reentry.call _) fun _ => .pure 1
  case pcall =>
    refine .bind (of_reads Reads.getTop) fun top => ?_
    split
    · exact .pure 0
    · exact .bind (ignoreError (reentry.pcall _)) fun _ => .pure 1
  case makePoint =>
    exact .bind (.toIntAt 0) fun _ => .bind (.toIntAt 1) fun _ =>
      .bind (.pushHostObject _) fun _ => .pure 1
  case makeStr => exact .bind (argText 0) fun _ => .bind (.pushHostObject _) fun _ => .pure 1
  case pointSum => exact .bind (getPoint 0) fun _ => .bind (.push rfl) fun _ => .pure 1
  case strOf => exact .bind (getText 0) fun _ => .bind (.push rfl) fun _ => .pure 1
  case handle =>
    exact .bind (of_reads (Reads.getHostHandle 0)) fun _ => .bind (.push rfl) fun _ => .pure 1
  case registryLen => exact .bind .get fun _ => .bind (.push rfl) fun _ => .pure 1
  case setGlobal =>
    exact .bind (argText 0) fun _ => .bind (.dup 1) fun _ => .bind (.putGlobalString _) fun _ =>
      .pure 0
  case getProp => exact .bind (argText 1) fun _ => .bind (.getPropString 0 _) fun _ => .pure 1
  case errorObj =>
    exact .bind (argText 0) fun _ => .bind (argText 1) fun _ =>
      .bind (.pushErrorObject _ _) fun _ => .pure 1
  case setTop =>
    exact .bind (of_reads (Reads.getInt 0)) fun _ => .bind (.setTop _) fun _ => of_reads Reads.getTop
  case finalize => exact .bind (.dup 1) fun _ => .bind (.setFinalizer 0) fun _ => .pure 0
  case globalTag =>
    exact .bind .pushGlobalObject fun _ => .bind (.getPropString _ _) fun _ => .pure 1
  case toStr => exact .bind (.toStringAt 0) fun _ => .bind (.push rfl) fun _ => .pure 1
  case toNum => exact .bind (.toNumberAt 0) fun _ => .bind (.push rfl) fun _ => .pure 1
  case length0 =>
    exact .bind (of_reads (Reads.getLength 0)) fun _ => .bind (.push rfl) fun _ => .pure 1
  case lookupRaw =>
    refine .bind (of_reads (Reads.getInt 0)) fun _ => .bind .get fun _ => ?_
    split
    · exact .bind (.push rfl) fun _ => .pure 1
    · exact .fail _
  case noop => exact .pure 0

end EmbedScript
