import Snippet.Proofs.UpholdingArray
import Snippet.Proofs.UpholdingScript

/-!
Evaluation upholds the conditions to which the arrays do not matter, as long as it takes place in its homes and
statements declare only names that are free.
-/

namespace Snippet.Script

variable {S : Machine → Prop} {home : ScopeRef → Prop} {free : ScopeRef → String → Prop}
variable [ArrayCondition S] [ScopeRules S home free]

namespace Evaluator.Sustains

open Upholds

variable {ev : Evaluator} (h : ev.Sustains S home free)
include h

theorem evalExpr (e : Expr) {scope : ScopeRef} (hhome : home scope) :
    Upholds S Any (Run.evalExpr ev e scope) := by
  refine h.evalExprOf e hhome fun items heq => ?_
  subst heq
  exact bind (h.evalItems hhome [] items) fun vs _ => makeArray vs

omit [ScopeRules S home free] in
theorem assignItems {scope : ScopeRef} (hhome : home scope) (items : List Item) (vs : List Value) :
    Upholds S Any (Run.assignItems ev scope items vs) := by
  induction items generalizing vs with
  | nil => exact pure trivial
  | cons item rest ih =>
    obtain ⟨spread, e⟩ := item
    refine ite (fun _ => bind (makeArray vs) fun v _ => h.assign e v hhome) fun _ => ?_
    exact bind (h.assign e _ hhome) fun _ _ => ih _

/-- An assignment, given what is true of it if the target is a name. -/
theorem assignExpr (target : Expr) (v : Value) {scope : ScopeRef} (hhome : home scope)
    (hname : ∀ name, target = .name name → Upholds S Any (Run.assignName name v scope)) :
    Upholds S Any (Run.assignExpr ev target v scope) := by
  refine h.assignExprOf target v hhome hname (fun o key => setMember o key v) fun items heq => ?_
  subst heq
  exact bind (iterate v) fun xs _ => h.assignItems hhome items _

/-- A call of a function that was made in a home. -/
theorem runCall (f receiver : Value) (arguments : List Value)
    (hhome : ∀ scope, f.scope? = some scope → home scope) :
    Upholds S Any (Run.call ev f receiver arguments) := by
  refine Upholds.call f receiver arguments fun g identity heq => ?_
  subst heq
  refine h.callFunctionOf (P := Any) (fun vs _ => makeArray vs) (fun _ _ => trivial) g receiver trivial hhome
    ?_ ?_ ?_
  · rintro b rfl
    exact callBuiltin h.call b arguments
  · rintro s m rfl
    exact stringMethod (fun f vs => h.call f .undefined vs) s m arguments
  · rintro a m rfl
    exact arrayMethod h.call a m arguments

/-- The making of an object, given what is true of the objects that are made for instances of a class. -/
theorem runConstructOf (f : Value) (arguments : List Value) (label : String)
    (hhome : ∀ scope, f.scope? = some scope → home scope)
    (hinstance : ∀ c ∈ f.classDef?, ∀ o : Object, o.entries = [] →
      o.hidden.map Prod.fst = c.methods.map Prod.fst → Upholds S Any (Run.makeObject o)) :
    Upholds S Any (Run.construct ev f arguments label) :=
  h.constructOf (P := Any) (fun vs _ => makeArray vs) (fun _ _ => trivial) f trivial label hhome
    (fun b => constructBuiltin b arguments) hinstance

theorem runConstruct [InstanceCondition S] (f : Value) (arguments : List Value) (label : String)
    (hhome : ∀ scope, f.scope? = some scope → home scope) :
    Upholds S Any (Run.construct ev f arguments label) :=
  h.runConstructOf f arguments label hhome fun _ _ _ ho _ => InstanceCondition.makeInstance ho

omit [ScopeRules S home free] in
/-- One level more, with calls that uphold the condition themselves. -/
theorem layerWith [DeclarationRules S home free] {call : Caller}
    {construct : Value → List Value → String → Run Value}
    (hcall : ∀ f receiver arguments, Upholds S Any (call f receiver arguments))
    (hconstruct : ∀ f arguments label, Upholds S Any (construct f arguments label)) :
    (ev.layerWith call construct).Sustains S home free where
  eval e _ hhome := h.evalExpr e hhome
  assign target v _ hhome := h.assignExpr target v hhome fun name _ => DeclarationRules.assignName name v hhome
  exec s _ hhome hs := h.execStmt s hhome hs
  call := hcall
  construct := hconstruct

end Evaluator.Sustains

omit [ArrayCondition S] [ScopeRules S home free] in
/-- Evaluation that does nothing upholds every condition. -/
theorem evaluator_zero_sustains : (evaluator 0).Sustains S home free where
  eval _ _ _ := Upholds.throw _
  assign _ _ _ _ := Upholds.throw _
  exec _ _ _ _ := Upholds.throw _
  call _ _ _ := Upholds.throw _
  construct _ _ _ := Upholds.throw _

omit [ScopeRules S home free] in
/-- Evaluation that may take place everywhere upholds the condition, by induction on its depth. -/
theorem evaluator_sustains [InstanceCondition S] [DeclarationRules S home free] (hhome : ∀ scope, home scope)
    (n : Nat) : (evaluator n).Sustains S home free := by
  induction n with
  | zero => exact evaluator_zero_sustains
  | succ n ih =>
    exact ih.layerWith (fun f receiver arguments => ih.runCall f receiver arguments fun s _ => hhome s)
      fun f arguments label => ih.runConstruct f arguments label fun s _ => hhome s

end Snippet.Script
