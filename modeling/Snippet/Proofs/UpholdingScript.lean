import Snippet.Proofs.Upholding
import Snippet.Proofs.SimulationCall

/-!
The names that statements declare in the scope in which they stand, and the conditions on scopes that
evaluation upholds as long as these names may be declared there.
-/

namespace Snippet.Script

mutual

def Target.names : Target → List String
  | .name name => [name]
  | .array elements => elementNames elements
  | .object members => memberNames members

def elementNames : List (Option Target) → List String
  | [] => []
  | none :: rest => elementNames rest
  | some target :: rest => target.names ++ elementNames rest

def memberNames : List (String × Target) → List String
  | [] => []
  | (_, target) :: rest => target.names ++ memberNames rest

end

mutual

def Stmt.declared : Stmt → List String
  | .decl _ bindings => bindings.flatMap fun binding => binding.1.names
  | .function f => f.name?.toList
  | .classDef c => [c.name]
  | .cond _ yes none => yes.declared
  | .cond _ yes (some no) => yes.declared ++ no.declared
  | .whileLoop _ body => body.declared
  | .doLoop body _ => body.declared
  | .attempt block _ _ none => if block.any Stmt.declares then [] else declaredBy block
  | .attempt block _ _ (some finalizer) =>
    (if block.any Stmt.declares then [] else declaredBy block) ++
      if finalizer.any Stmt.declares then [] else declaredBy finalizer
  | .block statements => if statements.any Stmt.declares then [] else declaredBy statements
  | _ => []

def declaredBy : List Stmt → List String
  | [] => []
  | s :: rest => s.declared ++ declaredBy rest

end

def Param.names : Param → List String
  | .mk target _ _ => target.names

def Func.bound (f : Func) : List String :=
  (if f.arrow then [] else ["this", "arguments"]) ++ f.params.flatMap Param.names

def Function.scope? : Function → Option ScopeRef
  | .closure _ scope | .classDef _ scope => some scope
  | _ => none

def Value.scope? : Value → Option ScopeRef
  | .function f _ => f.scope?
  | _ => none

def Value.classDef? : Value → Option ClassDef
  | .function (.classDef c _) _ => some c
  | _ => none

structure Fresh (home : ScopeRef → Prop) (free : ScopeRef → String → Prop) (scope : ScopeRef) : Prop where
  home : home scope
  free : ∀ name, free scope name

class ScopeRules (S : Machine → Prop) (home : outParam (ScopeRef → Prop))
    (free : outParam (ScopeRef → String → Prop)) : Prop extends StoreCondition S where
  -- A condition that is upheld where a name is declared that is free in a scope, and where a scope
  -- is made within one that is a home of evaluation, which is fresh.
  declare {scope : ScopeRef} {name : String} (hfree : free scope name) (v : Value) (isMutable : Bool) :
    Upholds S Any (Run.declare scope name v isMutable)
  makeScope {s : Scope} (hs : ∀ parent, s.parent = some parent → home parent) :
    Upholds S (Fresh home free) (Run.makeScope s)

class DeclarationRules (S : Machine → Prop) (home : outParam (ScopeRef → Prop))
    (free : outParam (ScopeRef → String → Prop)) : Prop extends ScopeRules S home free where
  -- A condition that is also upheld where evaluation assigns a name from a scope that is a home of
  -- it.
  assignName (name : String) (v : Value) {scope : ScopeRef} (hs : home scope) :
    Upholds S Any (Run.assignName name v scope)

/-- A condition on the store to which the scopes do not matter is upheld wherever evaluation takes place and
whatever it declares. -/
theorem declarationRules_of_scopeFree {S : Machine → Prop} [StoreCondition S]
    (hS : ∀ {m m' : Machine}, S m → m'.heap.arrays = m.heap.arrays → m'.heap.objects = m.heap.objects → S m') :
    DeclarationRules S Any (fun _ => Any) where
  declare _ _ _ _ hm := ⟨trivial, hS hm rfl rfl⟩
  makeScope _ _ hm := ⟨⟨trivial, fun _ => trivial⟩, hS hm rfl rfl⟩
  assignName name v scope _ m hm := by
    unfold Run.assignName
    rw [run_bind_ok (x := Run.heap) rfl]
    cases m.heap.resolve? scope name with
    | none => exact ⟨trivial, hS hm rfl rfl⟩
    | some found =>
      dsimp only
      split
      · exact ⟨trivial, hS hm rfl rfl⟩
      · exact ⟨trivial, hm⟩

/-- Evaluation that upholds a condition as long as it takes place in its homes and statements declare only
names that are free. -/
structure Evaluator.Sustains (S : Machine → Prop) (home : ScopeRef → Prop) (free : ScopeRef → String → Prop)
    (ev : Evaluator) : Prop where
  eval : ∀ e {scope}, home scope → Upholds S Any (ev.eval e scope)
  assign : ∀ target v {scope}, home scope → Upholds S Any (ev.assign target v scope)
  exec : ∀ s {scope}, home scope → (∀ name ∈ s.declared, free scope name) → Upholds S Any (ev.exec s scope)
  call : ∀ f receiver arguments, Upholds S Any (ev.call f receiver arguments)
  construct : ∀ f arguments label, Upholds S Any (ev.construct f arguments label)

def madeMethods (scope : ScopeRef) (identity : Nat) : List (String × Func) → List (String × Value)
  | [] => []
  | (name, f) :: rest => (name, .function (.closure f scope) identity) :: madeMethods scope (identity + 1) rest

/-- The methods of a class are made one after the other, each with an identity of its own. -/
theorem run_makeMethods (scope : ScopeRef) (methods : List (String × Func)) (m : Machine) :
    Run.makeMethods scope methods m = .ok (madeMethods scope m.identities methods)
      { m with
        charged := m.charged + 48 * methods.length
        identities := m.identities + methods.length } := by
  induction methods generalizing m with
  | nil => rfl
  | cons method rest ih =>
    unfold Run.makeMethods at ih ⊢
    rw [List.mapM_cons]
    refine (run_bind_ok rfl).trans ((run_bind_ok (ih _)).trans ?_)
    refine congrArg (EStateM.Result.ok _) ?_
    rw [List.length_cons, Nat.mul_add_one, Nat.add_comm (48 * rest.length), Nat.add_comm rest.length,
      ← Nat.add_assoc, ← Nat.add_assoc]

/-- Methods are found under the names that they have in the class. -/
theorem keys_madeMethods (scope : ScopeRef) (identity : Nat) (methods : List (String × Func)) :
    (madeMethods scope identity methods).map Prod.fst = methods.map Prod.fst := by
  induction methods generalizing identity with
  | nil => rfl
  | cons method rest ih => exact congrArg (method.1 :: ·) (ih _)

variable {S : Machine → Prop} {home : ScopeRef → Prop} {free : ScopeRef → String → Prop}
variable [ScopeRules S home free]

namespace Upholds

theorem childScope {parent : ScopeRef} (hparent : home parent) :
    Upholds S (Fresh home free) (Run.childScope parent) := by
  refine ScopeRules.makeScope fun p hp => ?_
  obtain rfl := Option.some.inj hp
  exact hparent

mutual

theorem bindTarget {S : Machine → Prop} {home : ScopeRef → Prop} {free : ScopeRef → String → Prop}
    [ScopeRules S home free] {scope : ScopeRef} {target : Target}
    (ht : ∀ name ∈ target.names, free scope name)
    (isMutable : Bool) (v : Value) : Upholds S Any (Run.bind scope isMutable target v) := by
  cases target with
  | name name => exact ScopeRules.declare (ht name (List.mem_singleton_self _)) v isMutable
  | array elements => exact bind (iterate v) fun xs _ => bindElements ht isMutable _
  | object members =>
    refine ite (fun _ => ?_) fun _ => bindMembers ht isMutable v
    exact bind (toText v) fun _ _ => raise _

theorem bindElements {S : Machine → Prop} {home : ScopeRef → Prop} {free : ScopeRef → String → Prop}
    [ScopeRules S home free] {scope : ScopeRef} {elements : List (Option Target)}
    (he : ∀ name ∈ elementNames elements, free scope name) (isMutable : Bool) (vs : List Value) :
    Upholds S Any (Run.bindElements scope isMutable elements vs) := by
  cases elements with
  | nil => exact pure trivial
  | cons element? rest =>
    cases element? with
    | none =>
      have hrest : ∀ name ∈ elementNames rest, free scope name := he
      exact bindElements hrest isMutable _
    | some element =>
      have helement : ∀ name ∈ element.names, free scope name :=
        fun name hm => he name (List.mem_append_left _ hm)
      have hrest : ∀ name ∈ elementNames rest, free scope name :=
        fun name hm => he name (List.mem_append_right _ hm)
      exact bind (bindTarget helement isMutable _) fun _ _ => bindElements hrest isMutable _

theorem bindMembers {S : Machine → Prop} {home : ScopeRef → Prop} {free : ScopeRef → String → Prop}
    [ScopeRules S home free] {scope : ScopeRef} {members : List (String × Target)}
    (hm : ∀ name ∈ memberNames members, free scope name) (isMutable : Bool) (v : Value) :
    Upholds S Any (Run.bindMembers scope isMutable v members) := by
  cases members with
  | nil => exact pure trivial
  | cons member rest =>
    obtain ⟨key, target⟩ := member
    have htarget : ∀ name ∈ target.names, free scope name :=
      fun name hn => hm name (List.mem_append_left _ hn)
    have hrest : ∀ name ∈ memberNames rest, free scope name :=
      fun name hn => hm name (List.mem_append_right _ hn)
    refine bind (getMember v key) fun w _ => bind (bindTarget htarget isMutable w) fun _ _ => ?_
    exact bindMembers hrest isMutable v

end

/-- Hoisting declares the functions of a block in its scope, and these names are free there. -/
theorem hoist {home : ScopeRef → Prop} [ScopeRules S home free] {scope : ScopeRef}
    {statements : List Stmt}
    (hs : ∀ name ∈ declaredBy statements, free scope name) :
    Upholds S Any (Run.hoist scope statements) := by
  induction statements with
  | nil => exact pure trivial
  | cons s rest ih =>
    have hrest := ih fun name hm => hs name (List.mem_append_right _ hm)
    cases s with
    | function f =>
      -- Only functions are made before the statements are run.
      unfold Run.hoist
      cases hname : f.name? with
      | none => exact hrest
      | some name =>
        have hfree : free scope name := by
          refine hs name (List.mem_append_left _ ?_)
          unfold Stmt.declared
          rw [hname]
          exact List.mem_singleton_self _
        refine bind (makeClosure f scope) fun v _ => ?_
        exact bind (ScopeRules.declare hfree v true) fun _ _ => hrest
    | _ => exact hrest

theorem nextRound {scope outer : ScopeRef} {copies : Bool} (houter : home outer)
    (hscope : copies = false → Fresh home free scope) :
    Upholds S (Fresh home free) (Run.nextRound copies outer scope) := by
  refine ite (fun _ => bind heap fun _ _ => ScopeRules.makeScope fun p hp => ?_) fun hnone => ?_
  · obtain rfl := Option.some.inj hp
    exact houter
  · exact pure (hscope (Bool.eq_false_iff.mpr hnone))

theorem makeMethods {S : Machine → Prop} [StoreCondition S] (scope : ScopeRef) (methods : List (String × Func)) :
    Upholds S (fun made => made.map Prod.fst = methods.map Prod.fst) (Run.makeMethods scope methods) := by
  intro m hm
  rw [run_makeMethods]
  exact ⟨keys_madeMethods scope m.identities methods, StoreCondition.unchanged hm rfl⟩

/-- A call of a value, given what is true of the function that it may be. -/
theorem call {S : Machine → Prop} [StoreCondition S] {ev : Evaluator} (f receiver : Value)
    (arguments : List Value)
    (hfunction : ∀ g identity, f = .function g identity →
      Upholds S Any (Run.callFunction ev g receiver arguments)) :
    Upholds S Any (Run.call ev f receiver arguments) := by
  have hraise (v : Value) : Upholds S Any
      (Run.describe v >>= fun label => Run.raise (.notFunction label) : Run Value) :=
    bind (describe v) fun _ _ => raise _
  cases f with
  | function g identity => exact bind checkpoint fun _ _ => hfunction g identity rfl
  | _ => exact hraise _

end Upholds

namespace Evaluator.Sustains

open Upholds

variable {ev : Evaluator} (h : ev.Sustains S home free)
include h

omit [ScopeRules S home free] in
theorem keyOf {scope : ScopeRef} (hhome : home scope) (key : Key) : Upholds S Any (Run.keyOf ev scope key) := by
  cases key with
  | named name => exact pure trivial
  | computed e => exact bind (h.eval e hhome) fun v _ => toText v

omit [ScopeRules S home free] in
theorem templateText {scope : ScopeRef} (hhome : home scope) (done : String) (pieces : List Piece) :
    Upholds S Any (Run.templateText ev scope done pieces) := by
  induction pieces generalizing done with
  | nil => exact pure trivial
  | cons piece rest ih =>
    cases piece with
    | text s => exact ih _
    | value e => exact bind (h.eval e hhome) fun v _ => bind (toStrictText v) fun _ _ => ih _

omit [ScopeRules S home free] in
theorem evalItems {scope : ScopeRef} (hhome : home scope) (done : List Value) (items : List Item) :
    Upholds S Any (Run.evalItems ev scope done items) := by
  induction items generalizing done with
  | nil => exact pure trivial
  | cons item rest ih =>
    obtain ⟨spread, e⟩ := item
    refine bind (h.eval e hhome) fun v _ => ?_
    exact ite (fun _ => bind (iterate v) fun _ _ => ih _) fun _ => ih _

/-- Members are set one after the other, so that no key comes twice. -/
theorem evalMembers {scope : ScopeRef} (hhome : home scope) {o : Object} (ho : o.memberKeys.Nodup)
    (members : List Member) :
    Upholds S (fun o => o.memberKeys.Nodup) (Run.evalMembers ev scope o members) := by
  induction members generalizing o with
  | nil => exact pure ho
  | cons member rest ih =>
    cases member with
    | init key e =>
      exact bind (h.keyOf hhome key) fun key _ => bind (h.eval e hhome) fun v _ => ih (Object.nodup_set ho key v)
    | spread e => exact bind (h.eval e hhome) fun v _ => bind (spreadInto ho v) fun o ho => ih ho

omit [ScopeRules S home free] in
theorem evalSequence {scope : ScopeRef} (hhome : home scope) (last : Value) (items : List Expr) :
    Upholds S Any (Run.evalSequence ev scope last items) := by
  induction items generalizing last with
  | nil => exact pure trivial
  | cons e rest ih => exact bind (h.eval e hhome) fun v _ => ih v

theorem evalUnary {scope : ScopeRef} (hhome : home scope) (op : UnaryOp) (operand : Expr) :
    Upholds S Any (Run.evalUnary ev scope op operand) := by
  cases op with
  | typeOf =>
    change Upholds S Any (Run.evalTypeOf ev scope operand)
    unfold Run.evalTypeOf
    split
    · exact bind (lookup? scope _) fun _ _ => pure trivial
    · exact bind (h.eval operand hhome) fun _ _ => pure trivial
  | delete =>
    change Upholds S Any (Run.evalDelete ev scope operand)
    unfold Run.evalDelete
    split
    · refine bind (h.eval _ hhome) fun v _ => bind (h.keyOf hhome _) fun key _ => ?_
      split
      · exact bind (StoreCondition.modifyObject _ fun object => object.becomes_remove key)
          fun _ _ => pure trivial
      · exact pure trivial
    · exact pure trivial
  | discard => exact bind (h.eval operand hhome).discard fun _ _ => pure trivial
  | not => exact bind (h.eval operand hhome) fun _ _ => pure trivial
  | _ => exact bind (h.eval operand hhome) fun v _ => bind (toNumber v) fun _ _ => pure trivial

omit [ScopeRules S home free] in
theorem evalUpdate {scope : ScopeRef} (hhome : home scope) (increment before : Bool) (target : Expr) :
    Upholds S Any (Run.evalUpdate ev scope increment before target) :=
  bind (h.eval target hhome) fun v _ => bind (toNumber v) fun _ _ =>
    bind (h.assign target _ hhome) fun _ _ => pure trivial

theorem evalAssign {scope : ScopeRef} (hhome : home scope) (op : Option BinaryOp) (target value : Expr) :
    Upholds S Any (Run.evalAssign ev scope op target value) := by
  cases op with
  | none =>
    exact bind (h.eval value hhome) fun v _ => bind (h.assign target v hhome) fun _ _ => pure trivial
  | some op =>
    refine bind (h.eval target hhome) fun current _ => bind (h.eval value hhome) fun operand _ => ?_
    refine bind (binary op current operand) fun v _ => ?_
    exact bind (h.assign target v hhome) fun _ _ => pure trivial

theorem evalCallee {scope : ScopeRef} (hhome : home scope) (callee : Expr) :
    Upholds S Any (Run.evalCallee ev scope callee) := by
  unfold Run.evalCallee
  split
  · refine bind (h.eval _ hhome) fun receiver _ => ite (fun _ => pure trivial) fun _ => ?_
    exact bind (h.keyOf hhome _) fun key _ => bind (getMember receiver key) fun _ _ => pure trivial
  · exact bind (h.eval callee hhome) fun _ _ => pure trivial

theorem evalCall {scope : ScopeRef} (hhome : home scope) (callee : Expr) (arguments : List Item)
    (isOptional : Bool) :
    Upholds S Any (Run.evalCall ev scope callee arguments isOptional) := by
  refine bind (h.evalCallee hhome callee) fun found? _ => ?_
  cases found? with
  | none => exact pure trivial
  | some found =>
    obtain ⟨f, receiver⟩ := found
    refine ite (fun _ => pure trivial) fun _ => ite (fun _ => ?_) fun _ => raise _
    exact bind (h.evalItems hhome [] arguments) fun vs _ => h.call f receiver vs

/-- An expression, given what is true of it if it is written as an array. -/
theorem evalExprOf (e : Expr) {scope : ScopeRef} (hhome : home scope)
    (harray : ∀ items, e = .array items → Upholds S Any (Run.evalExpr ev e scope)) :
    Upholds S Any (Run.evalExpr ev e scope) := by
  -- Whether a literal of an array upholds the condition depends on its length, so that is left open.
  cases e with
  | this => exact bind (lookup? scope "this") fun _ _ => pure trivial
  | name name => exact evalName scope name
  | template pieces => exact bind (h.templateText hhome "" pieces) fun _ _ => makeString _
  | array items => exact harray items rfl
  | object members =>
    exact bind (h.evalMembers hhome (o := {}) List.nodup_nil members) fun _ ho => StoreCondition.makeObject ho
  | function f => exact makeClosure f scope
  | classDef c => exact makeClass c scope
  | unary op operand => exact h.evalUnary hhome op operand
  | update increment before target => exact h.evalUpdate hhome increment before target
  | binary op left right =>
    exact bind (h.eval left hhome) fun v _ => bind (h.eval right hhome) fun w _ => binary op v w
  | logical op left right =>
    exact bind (h.eval left hhome) fun v _ => ite (fun _ => pure trivial) fun _ => h.eval right hhome
  | assign op target value => exact h.evalAssign hhome op target value
  | conditional test yes no =>
    exact bind (h.eval test hhome) fun v _ => ite (fun _ => h.eval yes hhome) fun _ => h.eval no hhome
  | member object key isOptional =>
    refine bind (h.eval object hhome) fun v _ => ite (fun _ => pure trivial) fun _ => ?_
    exact bind (h.keyOf hhome key) fun key _ => getMember v key
  | call callee arguments isOptional => exact h.evalCall hhome callee arguments isOptional
  | construct callee arguments =>
    refine bind (h.eval callee hhome) fun f _ => ?_
    exact bind (h.evalItems hhome [] arguments) fun vs _ => h.construct f vs _
  | sequence items => exact h.evalSequence hhome .undefined items
  | _ => exact pure trivial

theorem assignMembers {scope : ScopeRef} (hhome : home scope) (value : Value) (members : List Member) :
    Upholds S Any (Run.assignMembers ev scope value members) := by
  induction members with
  | nil => exact pure trivial
  | cons member rest ih =>
    cases member with
    | spread e => exact ih
    | init key e =>
      refine bind (h.keyOf hhome key) fun key _ => bind (getMember value key) fun v _ => ?_
      exact bind (h.assign e v hhome) fun _ _ => ih

/-- An assignment, given what is true of it if the target is a name or is written as an array, and of
members. -/
theorem assignExprOf (target : Expr) (v : Value) {scope : ScopeRef} (hhome : home scope)
    (hname : ∀ name, target = .name name → Upholds S Any (Run.assignName name v scope))
    (hmember : ∀ o key, Upholds S Any (Run.setMember o key v))
    (harray : ∀ items, target = .array items → Upholds S Any (Run.assignExpr ev target v scope)) :
    Upholds S Any (Run.assignExpr ev target v scope) := by
  cases target with
  | name name => exact hname name rfl
  | member object key isOptional =>
    refine bind (h.eval object hhome) fun o _ => bind (h.keyOf hhome key) fun key _ => ?_
    exact hmember o key
  | array items => exact harray items rfl
  | object members => exact h.assignMembers hhome v members
  | _ => exact raise _

-- Statements. In the scopes that they make every name is free. For loops the induction is on their
-- rounds.

/-- Declarations bind the names of their targets, which are free in the scope. -/
theorem execBindings {scope : ScopeRef} (hhome : home scope) {bindings : List (Target × Option Expr)}
    (hb : ∀ name ∈ bindings.flatMap fun binding => binding.1.names, free scope name) (isMutable : Bool) :
    Upholds S Any (Run.execBindings ev scope isMutable bindings) := by
  induction bindings with
  | nil => exact pure trivial
  | cons binding rest ih =>
    obtain ⟨target, e?⟩ := binding
    rw [List.flatMap_cons] at hb
    have htarget := bindTarget (S := S) fun name hm => hb name (List.mem_append_left _ hm)
    have hrest := ih fun name hm => hb name (List.mem_append_right _ hm)
    have hdeclare (v : Value) : Upholds S Any (Run.bind scope isMutable target v >>= fun _ =>
        Run.execBindings ev scope isMutable rest) :=
      bind (htarget isMutable v) fun _ _ => hrest
    cases e? with
    | none => exact hdeclare .undefined
    | some e => exact bind (h.eval e hhome) fun v _ => hdeclare v

omit [ScopeRules S home free] in
theorem execEach {scope : ScopeRef} (hhome : home scope) {statements : List Stmt}
    (hs : ∀ name ∈ declaredBy statements, free scope name) :
    Upholds S Any (Run.execEach ev scope statements) := by
  induction statements with
  | nil => exact pure trivial
  | cons s rest ih =>
    refine bind (h.exec s hhome fun name hm => hs name (List.mem_append_left _ hm)) fun flow _ => ?_
    cases flow with
    | normal => exact ih fun name hm => hs name (List.mem_append_right _ hm)
    | _ => exact pure trivial

theorem execAll {scope : ScopeRef} (hhome : home scope) {statements : List Stmt}
    (hs : ∀ name ∈ declaredBy statements, free scope name) :
    Upholds S Any (Run.execAll ev statements scope) :=
  bind (hoist hs) fun _ _ => h.execEach hhome hs

theorem execBlock {scope : ScopeRef} (hhome : home scope) {statements : List Stmt}
    (hs : ∀ name ∈ (if statements.any Stmt.declares then [] else declaredBy statements),
      free scope name) :
    Upholds S Any (Run.execBlock ev statements scope) := by
  refine ite (fun _ => bind (childScope hhome) fun scope hscope => ?_) fun hnone => ?_
  -- With a scope of its own a block declares nothing around it; without one what it declares comes through.
  · exact h.execAll hscope.home fun name _ => hscope.free name
  · rw [if_neg hnone] at hs
    exact h.execAll hhome hs

theorem whileLoop {scope : ScopeRef} (hhome : home scope) {body : Stmt}
    (hbody : ∀ name ∈ body.declared, free scope name) (test : Expr) (n : Nat) :
    Upholds S Any (Run.whileLoop ev test body scope n) := by
  induction n with
  | zero => exact throw _
  | succ n ih =>
    refine bind checkpoint fun _ _ => bind (h.eval test hhome) fun v _ => ?_
    refine ite (fun _ => bind (h.exec body hhome hbody) fun flow _ => ?_) fun _ => pure trivial
    cases flow with
    | broken => exact pure trivial
    | returned v => exact pure trivial
    | _ => exact ih

theorem doLoop {scope : ScopeRef} (hhome : home scope) {body : Stmt}
    (hbody : ∀ name ∈ body.declared, free scope name) (test : Expr) (n : Nat) :
    Upholds S Any (Run.doLoop ev body test scope n) := by
  induction n with
  | zero => exact throw _
  | succ n ih =>
    have hagain : Upholds S Any (ev.eval test scope >>= fun v =>
        if v.truthy then Run.doLoop ev body test scope n else Pure.pure .normal) :=
      bind (h.eval test hhome) fun v _ => ite (fun _ => ih) fun _ => pure trivial
    refine bind checkpoint fun _ _ => bind (h.exec body hhome hbody) fun flow _ => ?_
    cases flow with
    | broken => exact pure trivial
    | returned v => exact pure trivial
    | _ => exact hagain

/-- The rounds of a `for` loop run in fresh scopes, where every name is free. -/
theorem forLoop {scope outer : ScopeRef} (hscope : Fresh home free scope) (houter : home outer)
    (copies : Bool) (test update : Option Expr) (body : Stmt) (n : Nat) :
    Upholds S Any (Run.forLoop ev copies test update body outer n scope) := by
  -- The scope may be another one in every round, but it is always one in which every name is free.
  induction n generalizing scope with
  | zero => exact throw _
  | succ n ih =>
    have hrest : Upholds S Any
        (Run.forRest ev copies update outer (Run.forLoop ev copies test update body outer n) scope) := by
      refine bind (nextRound houter fun _ => hscope) fun scope hscope => ?_
      cases update with
      | none => exact ih hscope
      | some e => exact bind (h.eval e hscope.home).discard fun _ _ => ih hscope
    have hbody {f : Flow → Run Flow} (hf : ∀ flow, Upholds S Any (f flow)) (goesOn : Bool) :
        Upholds S Any (if goesOn then ev.exec body scope >>= f else Pure.pure .normal) :=
      ite (fun _ => bind (h.exec body hscope.home fun name _ => hscope.free name) fun flow _ => hf flow)
        fun _ => pure trivial
    have hround : Upholds S Any (Run.forRound ev copies test update body outer
        (Run.forLoop ev copies test update body outer n) scope) := by
      refine bind checkpoint fun _ _ => ?_
      cases test with
      | none =>
        refine hbody (fun flow => ?_) true
        cases flow with
        | broken => exact pure trivial
        | returned v => exact pure trivial
        | _ => exact hrest
      | some e =>
        refine bind (h.eval e hscope.home) fun v _ => hbody (fun flow => ?_) v.truthy
        cases flow with
        | broken => exact pure trivial
        | returned v => exact pure trivial
        | _ => exact hrest
    cases test <;> cases update <;> exact hround

theorem execFor (init : Option Stmt) (test update : Option Expr) (body : Stmt) {outer : ScopeRef}
    (houter : home outer) : Upholds S Any (Run.execFor ev init test update body outer) := by
  refine bind (childScope houter) fun scope hscope => ?_
  have hloop : Upholds S Any (Run.rounds >>= fun n =>
      Run.forLoop ev (Run.declaresPerRound init) test update body outer n scope) :=
    bind rounds fun n _ => h.forLoop hscope houter _ test update body n
  cases init with
  | none => exact hloop
  | some s => exact bind (h.exec s hscope.home fun name _ => hscope.free name).discard fun _ _ => hloop

theorem forEach (isMutable : Bool) (target : Target) (body : Stmt) {outer : ScopeRef}
    (houter : home outer) (vs : List Value) :
    Upholds S Any (Run.forEach ev isMutable target body outer vs) := by
  induction vs with
  | nil => exact pure trivial
  | cons v rest ih =>
    refine bind checkpoint fun _ _ => bind (childScope houter) fun scope hscope => ?_
    refine bind (bindTarget (fun name _ => hscope.free name) isMutable v) fun _ _ => ?_
    refine bind (h.exec body hscope.home fun name _ => hscope.free name) fun flow _ => ?_
    cases flow with
    | broken => exact pure trivial
    | returned w => exact pure trivial
    | _ => exact ih

theorem handle (param : Option Target) (handler : List Stmt) (v : Value) {outer : ScopeRef}
    (houter : home outer) : Upholds S Any (Run.handle ev param handler v outer) := by
  refine bind (childScope houter) fun scope hscope => ?_
  have hhandler : Upholds S Any (Run.execAll ev handler scope) :=
    h.execAll hscope.home fun name _ => hscope.free name
  cases param with
  | none => exact hhandler
  | some target =>
    exact bind (bindTarget (fun name _ => hscope.free name) true v) fun _ _ => hhandler

theorem guarded {scope : ScopeRef} (hhome : home scope) {block : List Stmt}
    (hb : ∀ name ∈ (if block.any Stmt.declares then [] else declaredBy block), free scope name)
    (param : Option Target) (handler : Option (List Stmt)) :
    Upholds S Any (Run.guarded ev block param handler scope) := by
  refine bind (h.execBlock hhome hb).outcome fun result _ => ?_
  split
  · refine bind (caught? _) fun v? _ => ?_
    cases v? with
    | none => exact throw _
    | some v => exact h.handle param _ v hhome
  · exact ofOutcome fun _ _ => trivial

theorem finish {scope : ScopeRef} (hhome : home scope) {finalizer : List Stmt}
    (hf : ∀ name ∈ (if finalizer.any Stmt.declares then [] else declaredBy finalizer), free scope name)
    (result : Except Fault Flow) : Upholds S Any (Run.finish ev finalizer result scope) := by
  refine ite (fun _ => ofOutcome fun _ _ => trivial) fun _ => bind (h.execBlock hhome hf) fun flow _ => ?_
  cases flow with
  | normal => exact ofOutcome fun _ _ => trivial
  | _ => exact pure trivial

omit [ScopeRules S home free] in
theorem matchingCases? {scope : ScopeRef} (hhome : home scope) (v : Value) (cases : List Case) :
    Upholds S Any (Run.matchingCases? ev scope v cases) := by
  induction cases with
  | nil => exact pure trivial
  | cons case rest ih =>
    obtain ⟨test?, body⟩ := case
    cases test? with
    | none => exact ih
    | some test =>
      exact bind (h.eval test hhome) fun w _ => ite (fun _ => pure trivial) fun _ => ih

theorem execCases {scope : ScopeRef} (hscope : Fresh home free scope) (cases : List Case) :
    Upholds S Any (Run.execCases ev scope cases) := by
  induction cases with
  | nil => exact pure trivial
  | cons case rest ih =>
    obtain ⟨test?, body⟩ := case
    refine bind (h.execAll hscope.home fun name _ => hscope.free name) fun flow _ => ?_
    cases flow with
    | normal => exact ih
    | _ => exact pure trivial

theorem execSelect (subject : Expr) (cases : List Case) {scope : ScopeRef} (hhome : home scope) :
    Upholds S Any (Run.execSelect ev subject cases scope) := by
  refine bind (h.eval subject hhome) fun v _ => bind (h.matchingCases? hhome v cases) fun found _ => ?_
  split
  · exact bind (childScope hhome) fun scope hscope => h.execCases hscope _
  · exact pure trivial

/-- A statement upholds a condition if the names that it declares are free in its scope. -/
theorem execStmt (s : Stmt) {scope : ScopeRef} (hhome : home scope)
    (hs : ∀ name ∈ s.declared, free scope name) :
    Upholds S Any (Run.execStmt ev s scope) := by
  cases s with
  | expr e => exact bind (h.eval e hhome).discard fun _ _ => pure trivial
  | decl kind bindings => exact h.execBindings hhome hs _
  | classDef c =>
    have hname := hs c.name (List.mem_singleton_self _)
    refine bind (makeClass c scope) fun v _ => ?_
    exact bind (ScopeRules.declare hname v true) fun _ _ => pure trivial
  | returns value =>
    cases value with
    | none => exact pure trivial
    | some e => exact bind (h.eval e hhome) fun v _ => pure trivial
  | cond test yes no =>
    cases no with
    | none =>
      have hyes := h.exec yes hhome hs
      exact bind (h.eval test hhome) fun v _ => ite (fun _ => hyes) fun _ => pure trivial
    | some no =>
      have hyes := h.exec yes hhome fun name hm => hs name (List.mem_append_left _ hm)
      have hno := h.exec no hhome fun name hm => hs name (List.mem_append_right _ hm)
      exact bind (h.eval test hhome) fun v _ => ite (fun _ => hyes) fun _ => hno
  | whileLoop test body =>
    -- The body of a loop declares its variables in the scope of the loop.
    have hbody : ∀ name ∈ body.declared, free scope name := hs
    exact bind rounds fun n _ => h.whileLoop hhome hbody test n
  | doLoop body test =>
    have hbody : ∀ name ∈ body.declared, free scope name := hs
    exact bind rounds fun n _ => h.doLoop hhome hbody test n
  | forLoop init test update body => exact h.execFor init test update body hhome
  | forEach keys kind target subject body =>
    refine bind (h.eval subject hhome) fun v _ => bind (visited keys v) fun vs _ => ?_
    exact h.forEach _ target body hhome vs
  | throws e => exact bind (h.eval e hhome) fun v _ => throw _
  | attempt block param handler finalizer =>
    cases finalizer with
    | none => exact h.guarded hhome hs param handler
    | some finalizer =>
      -- The block and the handler may declare what the statement declares in front of the finalizer.
      have hguarded := h.guarded hhome (fun name hm => hs name (List.mem_append_left _ hm)) param handler
      refine bind hguarded.outcome fun result _ => ?_
      exact h.finish hhome (fun name hm => hs name (List.mem_append_right _ hm)) result
  | select subject cases => exact h.execSelect subject cases hhome
  | block statements => exact h.execBlock hhome hs
  | _ => exact pure trivial

-- Calls, in whose scopes every name is free, with arguments of which arrays may be made.

section Arguments

variable {P : List Value → Prop} (hmake : ∀ vs, P vs → Upholds S Any (Run.makeArray vs))
variable (htail : ∀ vs, P vs → P vs.tail)
include hmake htail

/-- Parameters are bound in a scope in which their names are free. -/
theorem bindParams {scope : ScopeRef} (hhome : home scope) {params : List Param}
    (hp : ∀ name ∈ params.flatMap Param.names, free scope name) {arguments : List Value} (ha : P arguments) :
    Upholds S Any (Run.bindParams ev scope params arguments) := by
  induction params generalizing arguments with
  | nil => exact pure trivial
  | cons param rest ih =>
    obtain ⟨target, default?, isRest⟩ := param
    rw [List.flatMap_cons] at hp
    have htarget := bindTarget (S := S) fun name hm => hp name (List.mem_append_left _ hm)
    have hbind (v : Value) : Upholds S Any (Run.bind scope true target v >>= fun _ =>
        Run.bindParams ev scope rest arguments.tail) :=
      bind (htarget true v) fun _ _ => ih (fun name hm => hp name (List.mem_append_right _ hm)) (htail _ ha)
    have hdefault (e : Expr) : Upholds S Any (ev.eval e scope >>= fun v =>
        Run.bind scope true target v >>= fun _ => Run.bindParams ev scope rest arguments.tail) :=
      bind (h.eval e hhome) fun v _ => hbind v
    -- The value is the array of all arguments that are left or the first of them.
    cases isRest with
    | true =>
      refine bind (hmake _ ha) fun v _ => ?_
      cases default? with
      | none => exact hbind v
      | some e =>
        cases v with
        | undefined => exact hdefault e
        | _ => exact hbind _
    | false =>
      unfold Run.bindParams
      generalize arguments.headD .undefined = v
      cases default? with
      | none => exact hbind v
      | some e =>
        cases v with
        | undefined => exact hdefault e
        | _ => exact hbind _

theorem prepare {f : Func} {scope : ScopeRef} (hhome : home scope) (hf : ∀ name ∈ f.bound, free scope name)
    (receiver : Value) {arguments : List Value} (ha : P arguments) :
    Upholds S Any (Run.prepare ev f receiver arguments scope) := by
  have hparams := h.bindParams hmake htail hhome (fun name hm => hf name (List.mem_append_right _ hm)) ha
  have hown (harrow : ¬ f.arrow = true) {name : String} (hname : name ∈ ["this", "arguments"]) :
      free scope name := by
    refine hf name (List.mem_append_left _ ?_)
    rw [if_neg harrow]
    exact hname
  refine ite (fun _ => hparams) fun harrow => ?_
  refine bind (ScopeRules.declare (hown harrow (by decide)) receiver false) fun _ _ => ?_
  refine bind (hmake _ ha) fun v _ => ?_
  exact bind (ScopeRules.declare (hown harrow (by decide)) v true) fun _ _ => hparams

/-- A call runs in a fresh scope of its own. -/
theorem invoke (f : Func) {scope : ScopeRef} (hhome : home scope) (receiver : Value)
    {arguments : List Value} (ha : P arguments) :
    Upholds S Any (Run.invoke ev f scope receiver arguments) := by
  rw [invoke_eq]
  refine bind (childScope hhome) fun scope hscope => ?_
  refine bind (h.prepare hmake htail hscope.home (fun name _ => hscope.free name) receiver ha) fun _ _ => ?_
  unfold Run.runBody
  split
  · exact h.eval _ hscope.home
  · refine bind (h.execAll hscope.home fun name _ => hscope.free name) fun flow _ => ?_
    split
    · exact pure trivial
    · exact pure trivial

theorem callClosure (f : Func) {scope : ScopeRef} (hhome : home scope) (receiver : Value)
    {arguments : List Value} (ha : P arguments) :
    Upholds S Any (Run.callClosure ev f scope receiver arguments) :=
  (h.invoke hmake htail f hhome receiver ha).nested

/-- The making of an instance, given what is true of the object that is made for it. -/
theorem instantiate (c : ClassDef) {scope : ScopeRef} (hhome : home scope) {arguments : List Value}
    (ha : P arguments)
    (hmade : ∀ o : Object, o.entries = [] → o.hidden.map Prod.fst = c.methods.map Prod.fst →
      Upholds S Any (Run.makeObject o)) :
    Upholds S Any (Run.instantiate ev c scope arguments) := by
  refine bind (makeMethods scope c.methods) fun methods hkeys => ?_
  refine bind (hmade { className := some c.name, hidden := methods } rfl hkeys) fun made _ => ?_
  cases c.constructor? with
  | none => exact pure trivial
  | some f => exact bind (h.callClosure hmake htail f hhome made ha).discard fun _ _ => pure trivial

theorem constructByClosure (f : Func) {scope : ScopeRef} (hhome : home scope) {arguments : List Value}
    (ha : P arguments) : Upholds S Any (Run.constructByClosure ev f scope arguments) := by
  refine bind (makeEmpty f.name?) fun made _ => ?_
  refine bind (h.callClosure hmake htail f hhome made ha) fun v _ => ?_
  split
  · exact pure trivial
  · exact pure trivial
  · exact pure trivial

/-- A call of a function, given what is true of built-in ones and of the methods of strings and arrays. -/
theorem callFunctionOf (f : Function) (receiver : Value) {arguments : List Value} (ha : P arguments)
    (hhome : ∀ scope, f.scope? = some scope → home scope)
    (hbuiltin : ∀ b, f = .builtin b → Upholds S Any (Run.callFunction ev f receiver arguments))
    (hstring : ∀ s m, f = .stringMethod s m → Upholds S Any (Run.callFunction ev f receiver arguments))
    (harray : ∀ a m, f = .arrayMethod a m → Upholds S Any (Run.callFunction ev f receiver arguments)) :
    Upholds S Any (Run.callFunction ev f receiver arguments) := by
  cases f with
  | closure f scope => exact h.callClosure hmake htail f (hhome scope rfl) receiver ha
  | classDef c scope => exact raise _
  | builtin b => exact hbuiltin b rfl
  | stringMethod s m => exact hstring s m rfl
  | arrayMethod a m => exact harray a m rfl
  | numberMethod x m => exact numberMethod x m arguments
  | boolText b => exact pure trivial
  | objectMethod o m =>
    cases m with
    | hasOwnProperty => exact bind (toText _) fun _ _ => bind (object o) fun _ _ => pure trivial
    | text => exact bind (toText _) fun _ _ => pure trivial

/-- The making of an object, given what is true of built-in constructors and of the objects that are made for
instances of a class. -/
theorem constructOf (f : Value) {arguments : List Value} (ha : P arguments) (label : String)
    (hhome : ∀ scope, f.scope? = some scope → home scope)
    (hbuiltin : ∀ b, Upholds S Any (Run.constructBuiltin b arguments))
    (hinstance : ∀ c ∈ f.classDef?, ∀ o : Object, o.entries = [] →
      o.hidden.map Prod.fst = c.methods.map Prod.fst → Upholds S Any (Run.makeObject o)) :
    Upholds S Any (Run.construct ev f arguments label) := by
  cases f with
  | function f identity =>
    refine bind checkpoint fun _ _ => ?_
    cases f with
    | classDef c scope => exact h.instantiate hmake htail c (hhome scope rfl) ha (hinstance c rfl)
    | closure f scope =>
      have hscope : home scope := hhome scope rfl
      exact ite (fun _ => raise _) fun _ => h.constructByClosure hmake htail f hscope ha
    | builtin b => exact hbuiltin b
    | _ => exact raise _
  | _ => exact raise _

end Arguments

theorem runTimers (n : Nat) : Upholds S Any (Run.runTimers ev n) := by
  induction n with
  | zero => exact throw _
  | succ n ih =>
    refine bind waiting fun waits _ => ite (fun _ => bind checkpoint fun _ _ => ?_) fun _ => pure trivial
    refine bind nextTimer? fun timer? _ => ?_
    cases timer? with
    | none => exact pure trivial
    | some timer => exact bind (h.call _ .undefined _).discard fun _ _ => ih

theorem programBy (hglobal : home globalScope) (statements : List Stmt)
    (hs : ∀ name ∈ declaredBy statements, free globalScope name) :
    Upholds S Any (Run.programBy ev statements) :=
  bind (h.execAll hglobal hs).discard fun _ _ => bind rounds fun n _ => h.runTimers n

end Evaluator.Sustains

end Snippet.Script
