/-!
The syntax tree of programs. A function definition carries, besides its parameters and body,
what the parser collected for it: the `var` names declared anywhere in its body outside nested
functions, the function declarations hoisted out of it (they stand as empty statements in the
body), whether it is an expression, and whether it mentions `arguments`.
-/

namespace EmbedScript.Syntax

/-- Prefix operators. -/
inductive UnaryOp where
  | neg | plus | not | bitNot | typeOf | void | delete
  deriving Repr, DecidableEq

/-- Binary operators other than the short-circuit ones. -/
inductive BinaryOp where
  | add | sub | mul | div | mod | exp | shl | shr | ushr | bitAnd | bitOr | bitXor
  | eq | notEq | strictEq | strictNotEq | lt | ltEq | gt | gtEq | hasKey
  deriving Repr, DecidableEq

/-- Short-circuit operators. -/
inductive LogicalOp where
  | and | or
  deriving Repr, DecidableEq

mutual

/-- Expressions. -/
inductive Expr where
  | number (x : Float)
  | string (s : String)
  | bool (b : Bool)
  | null
  | this
  | ident (name : String)
  /-- An array literal; `none` is a hole. -/
  | array (elems : List (Option Expr))
  | object (props : List (String × Expr))
  | function (defn : FunctionDef)
  | unary (op : UnaryOp) (e : Expr)
  | update (increment prefixed : Bool) (target : Expr)
  | binary (op : BinaryOp) (l r : Expr)
  | logical (op : LogicalOp) (l r : Expr)
  /-- Assignment; a compound one carries its operator. -/
  | assign (op : Option BinaryOp) (target value : Expr)
  | conditional (test yes no : Expr)
  | member (obj : Expr) (name : String)
  | index (obj key : Expr)
  | call (callee : Expr) (args : List Expr)
  | new (callee : Expr) (args : List Expr)
  | sequence (es : List Expr)

/-- What a `for` loop starts with. -/
inductive ForInit where
  | var (decls : List (String × Option Expr))
  | expr (e : Expr)

/-- What a `for-in` loop assigns each key to. -/
inductive ForInTarget where
  | var (name : String)
  | expr (e : Expr)

/-- Statements. -/
inductive Stmt where
  | empty
  | expr (e : Expr)
  | var (decls : List (String × Option Expr))
  | block (body : List Stmt)
  | ifStmt (test : Expr) (yes : Stmt) (no : Option Stmt)
  | whileStmt (test : Expr) (body : Stmt)
  | doWhile (body : Stmt) (test : Expr)
  | forStmt (init : Option ForInit) (test update : Option Expr) (body : Stmt)
  | forIn (target : ForInTarget) (obj : Expr) (body : Stmt)
  /-- A switch; each case has a test, or none for the default clause, and a body. -/
  | switch (disc : Expr) (cases : List (Option Expr × List Stmt))
  | breakStmt
  | continueStmt
  | returnStmt (value : Option Expr)
  | throwStmt (value : Expr)
  /-- A try statement: the block, an optional catch clause with an optional parameter, and an
  optional finally block. -/
  | tryStmt (block : List Stmt) (handler : Option (Option String × List Stmt))
      (finalizer : Option (List Stmt))

/-- A function definition with what the parser collected about its body. -/
inductive FunctionDef where
  | mk (name : Option String) (params : List String) (body : List Stmt)
      (varNames : List String) (functions : List FunctionDef) (isExpression : Bool)
      (usesArguments : Bool)

end

namespace FunctionDef

def name : FunctionDef → Option String
  | mk n .. => n

def params : FunctionDef → List String
  | mk _ ps .. => ps

def body : FunctionDef → List Stmt
  | mk _ _ b .. => b

def varNames : FunctionDef → List String
  | mk _ _ _ vs .. => vs

def functions : FunctionDef → List FunctionDef
  | mk _ _ _ _ fs .. => fs

def isExpression : FunctionDef → Bool
  | mk _ _ _ _ _ e _ => e

def usesArguments : FunctionDef → Bool
  | mk _ _ _ _ _ _ u => u

end FunctionDef

/-- Identifiers, property accesses and index accesses can be assigned to. -/
def Expr.isReference : Expr → Bool
  | .ident _ | .member .. | .index .. => true
  | _ => false

/-- A whole program: its statements and the declarations hoisted to the global scope. -/
structure Program where
  body : List Stmt
  varNames : List String
  functions : List FunctionDef

end EmbedScript.Syntax
