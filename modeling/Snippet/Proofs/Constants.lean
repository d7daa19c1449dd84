import Snippet.Proofs.VariableScope

/-!
Constants. Whatever is evaluated, a scope keeps its constants, unless one of its own statements declares the
name of one again; and what assigns a constant fails.
-/

namespace Snippet.Script

mutual

/-- The names that an assignment to an expression assigns. What follows a spread element gets nothing. -/
def Expr.assigned : Expr → List String
  | .name name => [name]
  | .array items => itemsAssigned items
  | .object members => membersAssigned members
  | _ => []

def itemsAssigned : List Item → List String
  | [] => []
  | .mk true e :: _ => e.assigned
  | .mk false e :: rest => e.assigned ++ itemsAssigned rest

def membersAssigned : List Member → List String
  | [] => []
  | .spread _ :: rest => membersAssigned rest
  | .init _ e :: rest => e.assigned ++ membersAssigned rest

end

def Run.KeepsConstants (redeclares : ScopeRef → String → Prop) {α : Type} (x : Run α) (m : Machine) : Prop :=
  -- From a state a computation comes to an end, whether it fails or not, at which the scopes have
  -- the constants that they had, but for those that it may have declared again.
  ∀ s name b, m.heap.own? s name = some b → b.mutable = false → ¬ redeclares s name →
    (finalState (x m)).heap.own? s name = some b

theorem Run.Spares.keepsConstants {redeclares : ScopeRef → String → Prop} {α : Type} {x : Run α}
    (hx : x.Spares redeclares) (m : Machine) : x.KeepsConstants redeclares m := by
  intro s name b hb hm hs
  have hin := Heap.lt_size_of_own? hb
  exact (hx m).constant s name b hin hs hb hm

def Run.RefusesConstant (name : String) (scope : ScopeRef) {α : Type} (x : Run α) : Prop :=
  ∀ (m : Machine) o b, m.heap.Sees name scope o b → b.mutable = false → ∃ e m', x m = .error e m'

namespace Run.RefusesConstant

variable {name : String} {scope : ScopeRef} {α β : Type} {x : Run α}

theorem throw (e : Fault) : Run.RefusesConstant name scope (MonadExcept.throw e : Run α) :=
  fun m _ _ _ _ => ⟨e, m, rfl⟩

theorem first {f : α → Run β} (hx : Run.RefusesConstant name scope x) :
    Run.RefusesConstant name scope (x >>= f) := by
  intro m o b hsees hb
  obtain ⟨e, m', herror⟩ := hx m o b hsees hb
  exact ⟨e, m', run_bind_error herror⟩

/-- What is done first leaves the constant as it is seen. -/
theorem after {f : α → Run β} (hx : x.Spares nowhere) (hf : ∀ a, Run.RefusesConstant name scope (f a)) :
    Run.RefusesConstant name scope (x >>= f) := by
  intro m o b hsees hb
  have hold := hx m
  cases h : x m with
  | error e m' => exact ⟨e, m', run_bind_error h⟩
  | ok a m' =>
    rw [h] at hold
    rw [run_bind_ok h]
    exact hf a m' o b (hsees.outlasts_constant hold (fun _ => id) hb) hb

theorem assignName (v : Value) : Run.RefusesConstant name scope (Run.assignName name v scope) :=
  fun m _ _ hsees hb => ⟨_, m, run_assignName_constant hsees hb v⟩

section Evaluation

variable {n : Nat}
  (hassign : ∀ target v, name ∈ target.assigned →
    Run.RefusesConstant name scope ((evaluator n).assign target v scope))
include hassign

/-- A constant among the targets of a pattern is refused, however many elements are assigned before it. -/
theorem assignItems {items : List Item} (hi : name ∈ itemsAssigned items) (vs : List Value) :
    Run.RefusesConstant name scope (Run.assignItems (evaluator n) scope items vs) := by
  induction items generalizing vs with
  | nil => cases hi
  | cons item rest ih =>
    obtain ⟨spread, e⟩ := item
    cases spread with
    | true =>
      -- A spread element is assigned all that is left, and nothing is assigned after it.
      have hmade : (Run.makeArray vs).Spares nowhere := .of_upholds fun _ => Upholds.makeArray vs
      exact after hmade fun v => hassign e v hi
    | false =>
      -- If the name comes later, what is assigned before leaves it the constant that it is.
      obtain he | hrest := List.mem_append.mp hi
      · exact first (hassign e _ he)
      · exact after (Run.Spares.assign n e _ scope) fun _ => ih hrest _

/-- So it is among the members of a pattern. -/
theorem assignMembers {members : List Member} (hm : name ∈ membersAssigned members) (value : Value) :
    Run.RefusesConstant name scope (Run.assignMembers (evaluator n) scope value members) := by
  induction members with
  | nil => cases hm
  | cons member rest ih =>
    cases member with
    | spread e => exact ih hm
    | init key e =>
      have hkey : (Run.keyOf (evaluator n) scope key).Spares nowhere :=
        .of_upholds fun _ => (evaluator_spares n).keyOf trivial key
      refine after hkey fun key => ?_
      have hmember : (Run.getMember value key).Spares nowhere :=
        .of_upholds fun _ => Upholds.getMember value key
      refine after hmember fun v => ?_
      obtain he | hrest := List.mem_append.mp hm
      · exact first (hassign e v he)
      · exact after (Run.Spares.assign n e v scope) fun _ => ih hrest

/-- A target that contains a constant is refused. -/
theorem assignExpr {target : Expr} (ht : name ∈ target.assigned) (v : Value) :
    Run.RefusesConstant name scope (Run.assignExpr (evaluator n) target v scope) := by
  cases target with
  | name x =>
    obtain rfl := List.mem_singleton.mp ht
    exact assignName v
  | array items =>
    have hitems : (Run.iterate v).Spares nowhere := .of_upholds fun _ => Upholds.iterate v
    exact after hitems fun xs => assignItems hassign ht _
  | object members => exact assignMembers hassign ht v
  | _ => cases ht

end Evaluation

/-- By induction on the depth of the evaluation, since patterns contain each other. -/
theorem assign (n : Nat) {target : Expr} (ht : name ∈ target.assigned) (v : Value) :
    Run.RefusesConstant name scope ((evaluator n).assign target v scope) := by
  induction n generalizing target v with
  | zero => exact throw _
  | succ n ih => exact assignExpr (fun _ w hw => ih hw w) ht v

/-- An assignment to a constant is refused after its value has been found, whatever the operator. -/
theorem evalAssign (n : Nat) (op : Option BinaryOp) {target : Expr} (ht : name ∈ target.assigned)
    (value : Expr) :
    Run.RefusesConstant name scope (Run.evalAssign (evaluator n) scope op target value) := by
  cases op with
  | none => exact after (Run.Spares.eval n value scope) fun v => first (assign n ht v)
  | some op =>
    refine after (Run.Spares.eval n target scope) fun current => ?_
    refine after (Run.Spares.eval n value scope) fun operand => ?_
    have hbinary : (Run.binary op current operand).Spares nowhere :=
      .of_upholds fun _ => Upholds.binary op current operand
    exact after hbinary fun v => first (assign n ht v)

theorem evalUpdate (n : Nat) (increment before : Bool) {target : Expr} (ht : name ∈ target.assigned) :
    Run.RefusesConstant name scope (Run.evalUpdate (evaluator n) scope increment before target) := by
  refine after (Run.Spares.eval n target scope) fun v => ?_
  have hnumber : (Run.toNumber v).Spares nowhere := .of_upholds fun _ => Upholds.toNumber v
  exact after hnumber fun x => first (assign n ht _)

end Run.RefusesConstant

/-- What becomes of the constants that there are in a state, by evaluation that may go `n` levels deep: they are
kept by everything but further declarations of their names in their own scopes, which replace them. -/
structure ConstantsStay (n : Nat) (m : Machine) : Prop where
  /-- Expressions, among them assignments of all kinds and calls. -/
  expression : ∀ e scope, ((evaluator n).eval e scope).KeepsConstants nowhere m
  assignment : ∀ target v scope, ((evaluator n).assign target v scope).KeepsConstants nowhere m
  call : ∀ f receiver arguments, ((evaluator n).call f receiver arguments).KeepsConstants nowhere m
  construction : ∀ f arguments label,
    ((evaluator n).construct f arguments label).KeepsConstants nowhere m
  timers : ∀ rounds, (Run.runTimers (evaluator n) rounds).KeepsConstants nowhere m
  /-- A statement of any kind, with what it contains and what is called meanwhile. -/
  statement : ∀ s scope, ((evaluator n).exec s scope).KeepsConstants
    (fun t name => t = scope ∧ name ∈ s.declared) m
  /-- The statements of a list, and what comes after some of them. -/
  statements : ∀ list scope, (Run.execAll (evaluator n) list scope).KeepsConstants
    (fun t name => t = scope ∧ name ∈ declaredBy list) m
  rest : ∀ list scope, (Run.execEach (evaluator n) scope list).KeepsConstants
    (fun t name => t = scope ∧ name ∈ declaredBy list) m
  script : ∀ list, (Run.program list).KeepsConstants
    (fun t name => t = globalScope ∧ name ∈ declaredBy list) m
  /-- An assignment to a constant ends with the error and does nothing. -/
  error : ∀ name scope o b v, m.heap.Sees name scope o b → b.mutable = false →
    (evaluator (n + 1)).assign (.name name) v scope m = .error (.raised .constantAssignment) m
  /-- Assignments with an operator or without one, to a name or to a pattern that contains it. -/
  refused : ∀ op target value name scope o b, name ∈ target.assigned → m.heap.Sees name scope o b →
    b.mutable = false → ∃ e m', (evaluator n).eval (.assign op target value) scope m = .error e m'
  refusedUpdate : ∀ increment before target name scope o b, name ∈ target.assigned →
    m.heap.Sees name scope o b → b.mutable = false →
    ∃ e m', (evaluator n).eval (.update increment before target) scope m = .error e m'
  /-- A further declaration is not refused. -/
  replaced : ∀ kind bindings scope flow m', scope.address < m.heap.scopes.size →
    (evaluator n).exec (.decl kind bindings) scope m = .ok flow m' →
    ∀ name ∈ Stmt.declared (.decl kind bindings), m'.heap.Binds scope (kind != .constDecl) name
  report : RuntimeError.constantAssignment.report = "TypeError: Assignment to constant variable."

/-- A constant of a scope keeps its value, which no assignment changes, as long as no statement of the scope
declares its name again. The state may be any one, with any number of checkpoints left, so it is the same at
every checkpoint that a longer run passes. -/
theorem constants_stay_unless_redeclared (n : Nat) (m : Machine) : ConstantsStay n m where
  expression e scope := (Run.Spares.eval n e scope).keepsConstants m
  assignment target v scope := (Run.Spares.assign n target v scope).keepsConstants m
  call f receiver arguments := (Run.Spares.call n f receiver arguments).keepsConstants m
  construction f arguments label := (Run.Spares.construct n f arguments label).keepsConstants m
  timers rounds := (Run.Spares.runTimers n rounds).keepsConstants m
  statement s scope := (Run.Spares.exec n s scope).keepsConstants m
  statements list scope := (Run.Spares.execAll n list scope).keepsConstants m
  rest list scope := (Run.Spares.execEach n list scope).keepsConstants m
  script list := (Run.Spares.program list).keepsConstants m
  error _ _ _ _ v hsees hb := run_assignName_constant hsees hb v
  refused op target value name scope o b ht hsees hb := by
    cases n with
    | zero => exact ⟨_, _, rfl⟩
    | succ n => exact Run.RefusesConstant.evalAssign n op ht value m o b hsees hb
  refusedUpdate increment before target name scope o b ht hsees hb := by
    cases n with
    | zero => exact ⟨_, _, rfl⟩
    | succ n => exact Run.RefusesConstant.evalUpdate n increment before ht m o b hsees hb
  replaced _ _ _ _ _ hs hok _ hname := exec_decl_binds hs hok hname
  report := rfl

/-- A constant that is declared again has another value, also for a function that was made before. -/
theorem constant_is_declared_again :
    (evaluate "const x = 1; const f = () => x; let x = 2; console.log(f());" "" ⟨20000⟩).bind
      Draft.output = some "2\n" := by
  decide +kernel

end Snippet.Script
