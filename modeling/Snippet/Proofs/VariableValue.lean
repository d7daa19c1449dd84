import Snippet.Proofs.CallNesting
import Snippet.Proofs.VariableScope

/-!
Variables that keep their value. What is evaluated leaves the variable of a scope as it is, up to where the
script itself assigns it: that is done by its name, from a scope that sees it.
-/

namespace Snippet.Script

def Heap.isFoundIn (h : Heap) (o : ScopeRef) (x : String) (scope : ScopeRef) : Expr → Bool
  | .name name => name == x && (h.resolve? scope name).any fun found => decide (found.1 = o)
  | _ => false

def Evaluator.sparing (o : ScopeRef) (x : String) (ev : Evaluator) : Evaluator :=
  { ev with
    assign := fun target v scope m =>
      if m.heap.isFoundIn o x scope target then .error .exhausted m else ev.assign target v scope m }

/-- Evaluation that may go `n` levels deep, up to where a variable of a scope is to be assigned. -/
def evaluatorSparing (o : ScopeRef) (x : String) : Nat → Evaluator
  | 0 => evaluator 0
  | n + 1 => (evaluatorSparing o x n).layer.sparing o x

def HasBinding (o : ScopeRef) (x : String) (b : Binding) (m : Machine) : Prop := m.heap.own? o x = some b

def IsOther (o : ScopeRef) (x : String) (t : ScopeRef) (name : String) : Prop := t = o → name ≠ x

namespace HasBinding

variable {o : ScopeRef} {x : String} {b : Binding} {m : Machine}

/-- A declaration of something else leaves the variable as it is. -/
theorem declare (hm : HasBinding o x b m) {t : ScopeRef} {name : String} (hother : IsOther o x t name)
    (c : Binding) : HasBinding o x b { m with heap := m.heap.declare t name c } := by
  unfold HasBinding at hm ⊢
  change (m.heap.declare t name c).own? o x = some b
  by_cases ht : t.address < m.heap.scopes.size
  · rw [Heap.own?_declare ht, if_neg fun hc => hother hc.1.symm hc.2.symm]
    exact hm
  · rw [Heap.own?_declare_of_le (Nat.le_of_not_lt ht)]
    exact hm

instance : ScopeCondition (HasBinding o x b) where
  stable {m m'} hm heq := by
    unfold HasBinding Heap.own? Heap.scope at hm ⊢
    rw [heq]
    exact hm

instance : ScopeRules (HasBinding o x b) Any (IsOther o x) where
  declare hother v isMutable _ hm := ⟨trivial, hm.declare hother _⟩
  makeScope {s} _ m hm := by
    have hlt : o.address < m.heap.scopes.size := Heap.lt_size_of_own? hm
    refine ⟨⟨trivial, fun name heq => ?_⟩, ?_⟩
    · rw [← heq] at hlt
      exact absurd hlt (Nat.lt_irrefl _)
    · unfold HasBinding Heap.own? at hm ⊢
      change (Heap.scope { m.heap with scopes := m.heap.scopes.push s } o).bindings.lookup x = some b
      rw [Heap.scope_push hlt]
      exact hm

/-- Assigning a name keeps the binding unless it is the one that is found. -/
theorem assignName {name : String} {scope : ScopeRef} (hm : HasBinding o x b m)
    (hnot : ¬ m.heap.isFoundIn o x scope (.name name)) (v : Value) :
    Ends Any Any (HasBinding o x b) (Run.assignName name v scope m) := by
  unfold Run.assignName
  rw [run_bind_ok (x := Run.heap) rfl]
  cases hr : m.heap.resolve? scope name with
  | none =>
    -- The name becomes one of the scope around all others, which does not bind it yet.
    refine ⟨trivial, hm.declare (fun hglobal hname => ?_) _⟩
    have hnone := Heap.own?_of_resolve?_none hr
    rw [hglobal, hname, hm] at hnone
    cases hnone
  | some found =>
    obtain ⟨owner, c⟩ := found
    dsimp only
    split
    · refine ⟨trivial, hm.declare (fun howner hname => hnot ?_) _⟩
      subst hname howner
      unfold Heap.isFoundIn
      simp [hr]
    · exact ⟨trivial, hm⟩

end HasBinding

variable {o : ScopeRef} {x : String} {b : Binding}

theorem Evaluator.Sustains.sparing_layer {ev : Evaluator} (h : ev.Sustains (HasBinding o x b) Any (IsOther o x)) :
    (ev.layer.sparing o x).Sustains (HasBinding o x b) Any (IsOther o x) where
  eval e _ hhome := h.evalExpr e hhome
  assign target v scope hhome m hm := by
    unfold sparing
    dsimp only
    split
    · exact ⟨trivial, hm⟩
    · next hnot =>
      by_cases hname : ∃ name, target = .name name
      · obtain ⟨name, rfl⟩ := hname
        exact hm.assignName hnot v
      · exact h.assignExpr target v hhome (fun name heq => absurd ⟨name, heq⟩ hname) m hm
  exec s _ hhome hs := h.execStmt s hhome hs
  call f receiver arguments := h.runCall f receiver arguments fun _ _ => trivial
  construct f arguments label := h.runConstruct f arguments label fun _ _ => trivial

/-- What is evaluated keeps the binding, by induction on the depth. -/
theorem evaluatorSparing_sustains (n : Nat) :
    (evaluatorSparing o x n).Sustains (HasBinding o x b) Any (IsOther o x) := by
  induction n with
  | zero => exact evaluator_zero_sustains
  | succ n ih => exact ih.sparing_layer

theorem EvaluatorsRelated.sparing {c : Nat} {W : Part → Prop} {ev ev' : Evaluator}
    (h : EvaluatorsRelated refining c W ev ev') : EvaluatorsRelated refining c W (ev.sparing o x) ev' where
  eval := h.eval
  assign e v scope he ht hv := by
    intro m hm
    unfold Evaluator.sparing
    dsimp only
    split
    · exact Or.inl ⟨m, rfl⟩
    · exact h.assign e v scope he ht hv m hm
  exec := h.exec
  call := h.call
  construct := h.construct
  parts := h.parts
  functions := h.functions
  declared := h.declared

/-- Evaluation that is cut off where it would assign the variable is evaluation itself otherwise. -/
theorem evaluatorSparing_refines (n c : Nat) :
    EvaluatorsRelated refining c Any (evaluatorSparing o x n) (evaluator n) := by
  induction n generalizing c with
  | zero => exact evaluator_zero_related Refines.exhausted _
  | succ n ih =>
    rw [evaluator_succ]
    refine EvaluatorsRelated.sparing ?_
    exact (ih c).layer (fun _ _ _ _ => trivial) (fun _ _ _ _ => trivial)
      (fun _ _ _ _ => Or.inr trivial) (fun _ _ _ _ => trivial) (fun _ _ => trivial)
      (fun _ _ => trivial) (fun _ _ => trivial) (fun _ _ => trivial) (fun _ _ k _ _ => ⟨Any, ih k, fun _ _ _ _ => trivial⟩)
      fun _ j _ => (ih j).call trivial

structure KeepsBinding (o : ScopeRef) (x : String) (m : Machine) {α : Type} (r : Evaluator → Run α) (n : Nat) :
    Prop where
  -- From a state on, what is evaluated keeps the binding that a scope has for a name, up to where
  -- the script assigns it.
  kept : ∀ b, m.heap.own? o x = some b → (finalState (r (evaluatorSparing o x n) m)).heap.own? o x = some b
  same : CutOff (r (evaluatorSparing o x n) m) ∨ r (evaluator n) m = r (evaluatorSparing o x n) m

namespace KeepsBinding

variable {m : Machine} {α : Type} {r : Evaluator → Run α} {n : Nat}

theorem of_sustains {V W : α → Prop} (hdepth : m.callDepth ≤ maxCallDepth)
    (hr : ∀ b (ev : Evaluator), ev.Sustains (HasBinding o x b) Any (IsOther o x) →
      Upholds (HasBinding o x b) V (r ev))
    (hrefines : ∀ c ev ev', EvaluatorsRelated refining c Any ev ev' → Refines c W (r ev) (r ev')) (n : Nat) :
    KeepsBinding o x m r n where
  kept b hb := (hr b _ (evaluatorSparing_sustains n) m hb).final
  same := (hrefines _ _ _ (evaluatorSparing_refines n _) m (Nat.add_sub_cancel' hdepth)).imp id And.left

/-- What saw the binding sees the same one, if the script does not assign it. -/
theorem sees (h : KeepsBinding o x m r n) (hnot : ¬ CutOff (r (evaluatorSparing o x n) m))
    {declares : ScopeRef → String → Prop} (hspares : (r (evaluator n)).Spares declares)
    {t : ScopeRef} (hsees : m.heap.Sees x t o b)
    (hbetween : ∀ u : ScopeRef, o.address < u.address → u.address ≤ t.address → ¬ declares u x) :
    (finalState (r (evaluator n) m)).heap.Sees x t o b := by
  obtain ⟨b', hb'⟩ := hsees.outlasts (hspares m) hbetween
  have hown := h.kept b hsees.own?_eq
  rw [← h.same.resolve_left hnot, hb'.own?_eq] at hown
  cases hown
  exact hb'

end KeepsBinding

/-- The value of a name is that of the binding as which it is seen, and evaluating it changes nothing. -/
theorem eval_name_of_sees {m : Machine} {t : ScopeRef} (hsees : m.heap.Sees x t o b) (n : Nat) :
    (evaluator (n + 1)).eval (.name x) t m = .ok b.value m := by
  have hfound : Run.lookup? t x m = .ok (some b.value) m := by
    unfold Run.lookup?
    rw [hsees.lookup?_eq]
  exact run_bind_ok hfound

end Snippet.Script
