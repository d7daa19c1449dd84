/-!
The syntax trees of scripts. Trees of expressions and statements contain each other, as functions are
expressions whose bodies are statements.
-/

namespace Snippet.Script

inductive BinaryOp where
  | add | sub | mul | div | mod | pow
  | looseEq | looseNe | strictEq | strictNe
  | lt | le | gt | ge
  | bitAnd | bitOr | bitXor | shl | shr | ushr
  | isIn | instanceOf
deriving DecidableEq, Repr

inductive LogicalOp where
  | and
  | or
  | nullish
deriving DecidableEq, Repr

inductive UnaryOp where
  | neg | plus | not | bitNot | typeOf | discard | delete
deriving DecidableEq, Repr

inductive DeclKind where
  | varDecl
  | letDecl
  | constDecl
deriving DecidableEq, Repr

inductive Target where
  | name (name : String)
  /-- The elements in order; those that are left out bind nothing. -/
  | array (elements : List (Option Target))
  | object (members : List (String × Target))
deriving Inhabited

mutual

inductive Expr where
  | number (x : Float)
  | string (s : String)
  | template (pieces : List Piece)
  | bool (b : Bool)
  | null
  | undefined
  | this
  | name (name : String)
  | array (items : List Item)
  | object (members : List Member)
  | function (f : Func)
  | classDef (c : ClassDef)
  | unary (op : UnaryOp) (operand : Expr)
  | update (increment before : Bool) (target : Expr)
  | binary (op : BinaryOp) (left right : Expr)
  | logical (op : LogicalOp) (left right : Expr)
  /-- An assignment, with the operator that combines the old value with the new one. -/
  | assign (op : Option BinaryOp) (target value : Expr)
  | conditional (test yes no : Expr)
  | member (object : Expr) (key : Key) (optional : Bool)
  | call (callee : Expr) (arguments : List Item) (optional : Bool)
  | construct (callee : Expr) (arguments : List Item)
  | sequence (items : List Expr)

inductive Key where
  | named (name : String)
  | computed (e : Expr)

inductive Item where
  | mk (spread : Bool) (e : Expr)

inductive Member where
  | init (key : Key) (value : Expr)
  | spread (e : Expr)

inductive Piece where
  | text (s : String)
  | value (e : Expr)

inductive Param where
  | mk (target : Target) (default : Option Expr) (rest : Bool)

inductive Body where
  | block (statements : List Stmt)
  | value (e : Expr)

inductive Func where
  | mk (name : Option String) (params : List Param) (body : Body) (arrow : Bool)

inductive ClassDef where
  | mk (name : String) (constructor : Option Func) (methods statics : List (String × Func))

inductive Stmt where
  | expr (e : Expr)
  | decl (kind : DeclKind) (bindings : List (Target × Option Expr))
  | function (f : Func)
  | classDef (c : ClassDef)
  | returns (value : Option Expr)
  | cond (test : Expr) (yes : Stmt) (no : Option Stmt)
  | whileLoop (test : Expr) (body : Stmt)
  | doLoop (body : Stmt) (test : Expr)
  | forLoop (init : Option Stmt) (test update : Option Expr) (body : Stmt)
  /-- A loop over the elements of a value, or over its keys. -/
  | forEach (keys : Bool) (kind : DeclKind) (target : Target) (subject : Expr) (body : Stmt)
  | breaks
  | continues
  | throws (e : Expr)
  | attempt (block : List Stmt) (param : Option Target) (handler finalizer : Option (List Stmt))
  | select (subject : Expr) (cases : List Case)
  | block (statements : List Stmt)
  | empty

inductive Case where
  | mk (test : Option Expr) (body : List Stmt)

end

instance : Inhabited Expr := ⟨.undefined⟩
instance : Inhabited Stmt := ⟨.empty⟩

namespace Func

def name? : Func → Option String
  | .mk name _ _ _ => name

def params : Func → List Param
  | .mk _ params _ _ => params

def body : Func → Body
  | .mk _ _ body _ => body

def arrow : Func → Bool
  -- Whether the function was written with an arrow and so has no arguments list and no receiver of
  -- its own.
  | .mk _ _ _ arrow => arrow

end Func

namespace ClassDef

def name : ClassDef → String
  | .mk name _ _ _ => name

def constructor? : ClassDef → Option Func
  | .mk _ constructor _ _ => constructor

def methods : ClassDef → List (String × Func)
  | .mk _ _ methods _ => methods

def statics : ClassDef → List (String × Func)
  | .mk _ _ _ statics => statics

end ClassDef

def Stmt.declares : Stmt → Bool
  | .decl _ _ => true
  | .function _ => true
  | .classDef _ => true
  | _ => false

end Snippet.Script
