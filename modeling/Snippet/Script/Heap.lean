import Snippet.Script.Value

/-!
The heap of a run: scopes, arrays and objects, each kind with addresses of its own in the order in
which they were made. Nothing is ever removed, so an address stays good for the whole run.
-/

namespace Snippet.Script

structure Binding where
  value : Value
  mutable : Bool

structure Scope where
  bindings : List (String × Binding) := []
  parent : Option ScopeRef := none

def putEntry (key : String) (value : Value) : List (String × Value) → List (String × Value)
  | [] => [(key, value)]
  | (k, v) :: rest => if k == key then (k, value) :: rest else (k, v) :: putEntry key value rest

namespace Scope

def put (name : String) (binding : Binding) :
    List (String × Binding) → Option (List (String × Binding))
  | [] => none
  | (k, b) :: rest =>
    if k == name then some ((k, binding) :: rest)
    else (put name binding rest).map ((k, b) :: ·)

def declare (s : Scope) (name : String) (binding : Binding) : Scope :=
  match put name binding s.bindings with
  | some bindings => { s with bindings }
  | none => { s with bindings := (name, binding) :: s.bindings }

end Scope

structure Object where
  -- An object: its entries in the order in which their keys first came, and members that are not
  -- listed.
  entries : List (String × Value) := []
  hidden : List (String × Value) := []
  /-- The name of the class or function that made it. -/
  className : Option String := none
  isError : Bool := false
deriving Inhabited

namespace Object

def get? (o : Object) (key : String) : Option Value :=
  match o.entries.lookup key with
  | some v => some v
  | none => o.hidden.lookup key

def hasOwn (o : Object) (key : String) : Bool := o.entries.any fun e => e.1 == key

def set (o : Object) (key : String) (value : Value) : Object :=
  if o.hasOwn key then { o with entries := putEntry key value o.entries }
  else if o.hidden.any fun e => e.1 == key then
    { o with hidden := putEntry key value o.hidden }
  else { o with entries := o.entries ++ [(key, value)] }

def remove (o : Object) (key : String) : Object :=
  { o with entries := o.entries.filter fun e => e.1 != key }

def error (kind : ErrorKind) (message : String) : Object :=
  { hidden := [("name", .string kind.name), ("message", .string message)]
    className := some kind.name
    isError := true }

end Object

def globalScope : ScopeRef := ⟨0⟩

structure Heap where
  scopes : Array Scope := #[]
  arrays : Array (Array Value) := #[]
  objects : Array Object := #[]

namespace Heap

def items (h : Heap) (a : ArrayRef) : Array Value := h.arrays.getD a.address #[]

def modifyItems (h : Heap) (a : ArrayRef) (f : Array Value → Array Value) : Heap :=
  { h with arrays := h.arrays.modify a.address f }

def object (h : Heap) (o : ObjectRef) : Object := h.objects.getD o.address {}

def modifyObject (h : Heap) (o : ObjectRef) (f : Object → Object) : Heap :=
  { h with objects := h.objects.modify o.address f }

def scope (h : Heap) (s : ScopeRef) : Scope := h.scopes.getD s.address {}

def declare (h : Heap) (s : ScopeRef) (name : String) (binding : Binding) : Heap :=
  { h with scopes := h.scopes.modify s.address fun scope => scope.declare name binding }

def resolveWithin? (h : Heap) (name : String) : Nat → ScopeRef → Option (ScopeRef × Binding)
  -- The nearest scope that declares a name, and the binding there, searched in at most `fuel`
  -- scopes.
  | 0, _ => none
  | fuel + 1, s =>
    let scope := h.scope s
    match scope.bindings.lookup name with
    | some binding => some (s, binding)
    | none =>
      match scope.parent with
      | some parent => resolveWithin? h name fuel parent
      | none => none

def resolve? (h : Heap) (s : ScopeRef) (name : String) : Option (ScopeRef × Binding) :=
  -- The nearest scope that declares a name, and the binding there. A scope is younger than the one
  -- around it, so there are no more scopes to search than its address says, and the last one is the
  -- scope around all others.
  h.resolveWithin? name (s.address + 1) s <|>
    ((h.scope globalScope).bindings.lookup name).map fun binding => (globalScope, binding)

def lookup? (h : Heap) (s : ScopeRef) (name : String) : Option Value :=
  (h.resolve? s name).map fun found => found.2.value

end Heap

end Snippet.Script
