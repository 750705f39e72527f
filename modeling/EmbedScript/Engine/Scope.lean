import EmbedScript.Engine.Property

/-!
Variables and receivers. A variable is looked up along the chain of scopes from the innermost
to the outermost and then among the global object's properties; an assignment writes where the
name is found, or to the global object. The receiver of running code is that of its innermost
scope, or the global object in global code.
-/

namespace EmbedScript

namespace Engine

/-- The enclosing scope of a scope object. -/
def scopeParent (e : Engine) (id : ObjectId) : Option ObjectId :=
  match (e.object? id).map HeapObject.kind with
  | some (.scope parent _) => parent
  | _ => none

/-- The first scope on the chain from `start` that has the name, within `fuel` links. -/
def findScope (e : Engine) (name : String) : Nat → Option ObjectId → Option ObjectId
  | 0, _ => none
  | _ + 1, none => none
  | n + 1, some id =>
    if (e.object? id).any (·.properties.contains name) then some id
    else e.findScope name n (e.scopeParent id)

/-- The scope of running code that binds the name, if any. The chain is made of live scopes,
each older than the one below, so the slot count bounds its length. -/
def bindingScope (e : Engine) (name : String) : Option ObjectId :=
  e.findScope name (e.heap.slots.size + 1) e.currentScope

/-- The value of a variable, if it is bound. -/
def lookupVar (e : Engine) (name : String) : Option Value :=
  match e.bindingScope name with
  | some id => (e.object? id).bind (·.properties.get? name)
  | none => (e.object? e.global).bind (·.properties.get? name)

/-- Assigns a variable where it is bound, else on the global object. -/
def assignVar (e : Engine) (name : String) (v : Value) : Engine :=
  let target := (e.bindingScope name).getD e.global
  e.modifyObject target fun o => { o with properties := o.properties.set name v }

/-- The receiver of running code. -/
def thisValue (e : Engine) : Value :=
  match (e.currentScope.bind e.object?).map HeapObject.kind with
  | some (.scope _ this) => this
  | _ => .object e.global

/-- The exception a thrown value reports to the embedder: an error object's name and message
(its kind and nothing when undefined), or a plain error with the text of anything else. -/
def scriptErrorOf (e : Engine) (v : Value) : ScriptError :=
  match v with
  | .object id =>
    match (e.object? id).map HeapObject.kind with
    | some (.error kind) =>
      let name := match e.objectGet id "name" with
        | .undefined => kind.name
        | n => e.display n
      let message := match e.objectGet id "message" with
        | .undefined => ""
        | m => e.display m
      ⟨name, message⟩
    | _ => ⟨ErrorKind.error.name, e.display v⟩
  | _ => ⟨ErrorKind.error.name, e.display v⟩

end Engine

/-- A closure over the scope of running code. -/
def makeClosure (defn : Syntax.FunctionDef) : Flow ObjectId := do
  allocObject { kind := .function (.closure defn (← get).currentScope) }

end EmbedScript
