import Snippet.Proofs.CallNesting
import Snippet.Proofs.Upholding

/-!
Jumps that are loose in a statement: no loop and no choice in it ends them, so they lead out of it. A statement
ends by no other jumps.
-/

namespace Snippet.Script

inductive Jump where
  | breaks
  | continues
  | returns
deriving DecidableEq

def Flow.jump? : Flow → Option Jump
  | .normal => none
  | .broken => some .breaks
  | .continued => some .continues
  | .returned _ => some .returns

mutual

/-- Whether a jump of a kind is loose in a statement. Loops end all jumps but returns, choices end breaks, and
functions keep what is in them. -/
def Stmt.leaks (x : Jump) : Stmt → Bool
  | .breaks => x == .breaks
  | .continues => x == .continues
  | .returns _ => x == .returns
  | .cond _ yes none => yes.leaks x
  | .cond _ yes (some no) => yes.leaks x || no.leaks x
  | .whileLoop _ body => x == .returns && body.leaks x
  | .doLoop body _ => x == .returns && body.leaks x
  | .forLoop _ _ _ body => x == .returns && body.leaks x
  | .forEach _ _ _ _ body => x == .returns && body.leaks x
  | .attempt block _ handler finalizer => anyLeak x block || (blockLeaks x handler || blockLeaks x finalizer)
  | .select _ cases => x != .breaks && casesLeak x cases
  | .block statements => anyLeak x statements
  | _ => false

def anyLeak (x : Jump) : List Stmt → Bool
  | [] => false
  | s :: rest => s.leaks x || anyLeak x rest

def blockLeaks (x : Jump) : Option (List Stmt) → Bool
  | none => false
  | some statements => anyLeak x statements

def casesLeak (x : Jump) : List Case → Bool
  | [] => false
  | .mk _ body :: rest => anyLeak x body || casesLeak x rest

end

def Flow.Within (may : Jump → Bool) (flow : Flow) : Prop := ∀ x, flow.jump? = some x → may x = true

def EndsBy (may : Jump → Bool) (x : Run Flow) : Prop := Upholds Any (Flow.Within may) x

def Evaluator.Jumps (ev : Evaluator) : Prop := ∀ s scope, EndsBy s.leaks (ev.exec s scope)

def onlyReturns (may : Jump → Bool) (x : Jump) : Bool := x == .returns && may x

def noBreaks (may : Jump → Bool) (x : Jump) : Bool := x != .breaks && may x

variable {may may' : Jump → Bool}

theorem Flow.within_normal : Flow.normal.Within may := by
  rintro _ ⟨⟩

theorem Flow.Within.mono {flow : Flow} (h : flow.Within may) (hmay : ∀ x, may x = true → may' x = true) :
    flow.Within may' :=
  fun x hx => hmay x (h x hx)

theorem Flow.Within.left {flow : Flow} (h : flow.Within may) : flow.Within fun x => may x || may' x :=
  h.mono fun _ hx => Bool.or_eq_true_iff.mpr (Or.inl hx)

theorem Flow.Within.right {flow : Flow} (h : flow.Within may') : flow.Within fun x => may x || may' x :=
  h.mono fun _ hx => Bool.or_eq_true_iff.mpr (Or.inr hx)

theorem Flow.Within.noBreaks {flow : Flow} (h : flow.Within may) (hne : flow ≠ .broken) :
    flow.Within (noBreaks may) := by
  intro x hx
  refine Bool.and_eq_true_iff.mpr ⟨?_, h x hx⟩
  cases flow with
  | broken => exact absurd rfl hne
  | normal => cases hx
  | continued | returned =>
    cases hx
    rfl

theorem noBreaks_mono (hmay : ∀ x, may x = true → may' x = true) (x : Jump) (hx : noBreaks may x = true) :
    noBreaks may' x = true := by
  obtain ⟨hne, hx⟩ := Bool.and_eq_true_iff.mp hx
  exact Bool.and_eq_true_iff.mpr ⟨hne, hmay x hx⟩

namespace EndsBy

open Upholds

theorem normal : EndsBy may (return .normal) := pure Flow.within_normal

theorem mono {x : Run Flow} (h : EndsBy may x) (hmay : ∀ x, may x = true → may' x = true) : EndsBy may' x :=
  h.imp fun _ hflow => hflow.mono hmay

theorem left {x : Run Flow} (h : EndsBy may x) : EndsBy (fun j => may j || may' j) x :=
  h.imp fun _ hflow => hflow.left

theorem right {x : Run Flow} (h : EndsBy may' x) : EndsBy (fun j => may j || may' j) x :=
  h.imp fun _ hflow => hflow.right

theorem after {α : Type} {x : Run α} {f : α → Run Flow} (hf : ∀ a, EndsBy may (f a)) : EndsBy may (x >>= f) :=
  bind (anyState x) fun a _ => hf a

theorem either {c : Prop} [Decidable c] {x y : Run Flow} (hx : EndsBy may x) (hy : EndsBy may y) :
    EndsBy may (if c then x else y) :=
  Upholds.ite (fun _ => hx) fun _ => hy

/-- What a body ends by is taken up by the loop around it, but for returns. -/
theorem round {body rest : Run Flow} {f : Flow → Run Flow} (hbody : EndsBy may body)
    (hf : ∀ flow, f flow = Run.afterRound rest flow) (hrest : EndsBy (onlyReturns may) rest) :
    EndsBy (onlyReturns may) (body >>= f) := by
  refine bind hbody fun flow hflow => ?_
  rw [hf]
  cases flow with
  | broken => exact normal
  | returned v =>
    refine pure ?_
    rintro _ ⟨⟩
    exact hflow .returns rfl
  | _ => exact hrest

end EndsBy

/-- The cases that a choice goes on with are the last ones of it. -/
theorem defaultCases?_suffix {cases found : List Case} (h : Run.defaultCases? cases = some found) :
    found <:+ cases := by
  induction cases with
  | nil => cases h
  | cons case rest ih =>
    obtain ⟨test?, body⟩ := case
    cases test? with
    | none =>
      obtain rfl := Option.some.inj h
      exact List.suffix_refl _
    | some test => exact (ih h).trans (List.suffix_cons _ _)

theorem casesLeak_of_suffix {cases found : List Case} (h : found <:+ cases) {x : Jump}
    (hx : casesLeak x found = true) : casesLeak x cases = true := by
  obtain ⟨first, rfl⟩ := h
  induction first with
  | nil => exact hx
  | cons case rest ih =>
    obtain ⟨test?, body⟩ := case
    exact Bool.or_eq_true_iff.mpr (Or.inr ih)

namespace Evaluator.Jumps

open Upholds EndsBy

variable {ev : Evaluator} (h : ev.Jumps)
include h

/-- A list of statements ends by a jump of one of them, or normally. -/
theorem execEach (statements : List Stmt) (scope : ScopeRef) :
    EndsBy (anyLeak · statements) (Run.execEach ev scope statements) := by
  induction statements with
  | nil => exact normal
  | cons s rest ih =>
    refine bind (h s scope) fun flow hflow => ?_
    cases flow with
    | normal => exact ih.right
    | _ => exact pure hflow.left

theorem execAll (statements : List Stmt) (scope : ScopeRef) :
    EndsBy (anyLeak · statements) (Run.execAll ev statements scope) :=
  after fun _ => h.execEach statements scope

theorem execBlock (statements : List Stmt) (scope : ScopeRef) :
    EndsBy (anyLeak · statements) (Run.execBlock ev statements scope) :=
  either (after fun scope => h.execAll statements scope) (h.execAll statements scope)

omit h in
theorem execBindings (scope : ScopeRef) (isMutable : Bool) (bindings : List (Target × Option Expr)) :
    EndsBy may (Run.execBindings ev scope isMutable bindings) := by
  induction bindings with
  | nil => exact normal
  | cons binding rest ih =>
    obtain ⟨target, e?⟩ := binding
    cases e? with
    | none => exact after fun _ => after fun _ => ih
    | some e => exact after fun v => after fun _ => ih

theorem whileLoop (test : Expr) (body : Stmt) (scope : ScopeRef) (n : Nat) :
    EndsBy (onlyReturns body.leaks) (Run.whileLoop ev test body scope n) := by
  induction n with
  | zero => exact throw _
  | succ n ih =>
    refine after fun _ => after fun v => either ?_ normal
    exact (h body scope).round (fun flow => by cases flow <;> rfl) ih

/-- A loop ends by a `return` in its body, or normally. -/
theorem doLoop (body : Stmt) (test : Expr) (scope : ScopeRef) (n : Nat) :
    EndsBy (onlyReturns body.leaks) (Run.doLoop ev body test scope n) := by
  induction n with
  | zero => exact throw _
  | succ n ih =>
    have hagain : EndsBy (onlyReturns body.leaks) (ev.eval test scope >>= fun v =>
        if v.truthy then Run.doLoop ev body test scope n else return .normal) :=
      after fun v => either ih normal
    exact after fun _ => (h body scope).round (fun flow => by cases flow <;> rfl) hagain

/-- So does a loop with a head, whose first round is executed in the scope of the head. -/
theorem forLoop (copies : Bool) (test update : Option Expr) (body : Stmt) (outer : ScopeRef) (n : Nat)
    (scope : ScopeRef) :
    EndsBy (onlyReturns body.leaks) (Run.forLoop ev copies test update body outer n scope) := by
  induction n generalizing scope with
  | zero => exact throw _
  | succ n ih =>
    have hagain : EndsBy (onlyReturns body.leaks)
        (Run.forRest ev copies update outer (Run.forLoop ev copies test update body outer n) scope) := by
      refine after fun scope => ?_
      cases update with
      | none => exact ih scope
      | some e => exact after fun _ => ih scope
    -- What comes after the body is the update and the rounds after it, whatever the test was.
    have hbody {f : Flow → Run Flow} (hf : ∀ flow, f flow = Run.afterRound
          (Run.forRest ev copies update outer (Run.forLoop ev copies test update body outer n) scope) flow)
        (goesOn : Bool) :
        EndsBy (onlyReturns body.leaks) (if goesOn then ev.exec body scope >>= f else Pure.pure .normal) :=
      either ((h body scope).round hf hagain) normal
    have hround : EndsBy (onlyReturns body.leaks) (Run.forRound ev copies test update body outer
        (Run.forLoop ev copies test update body outer n) scope) := by
      refine after fun _ => ?_
      cases test with
      | none => exact hbody (fun flow => by cases flow <;> rfl) true
      | some e => exact after fun v => hbody (fun flow => by cases flow <;> rfl) v.truthy
    cases test <;> cases update <;> exact hround

theorem execFor (init : Option Stmt) (test update : Option Expr) (body : Stmt) (outer : ScopeRef) :
    EndsBy (onlyReturns body.leaks) (Run.execFor ev init test update body outer) := by
  refine after fun scope => ?_
  -- How the head ends does not matter, not even if there were a jump in it.
  cases init with
  | none => exact after fun n => h.forLoop _ test update body outer n scope
  | some s => exact after fun _ => after fun n => h.forLoop _ test update body outer n scope

theorem forEach (isMutable : Bool) (target : Target) (body : Stmt) (outer : ScopeRef) (vs : List Value) :
    EndsBy (onlyReturns body.leaks) (Run.forEach ev isMutable target body outer vs) := by
  induction vs with
  | nil => exact normal
  | cons v rest ih =>
    refine after fun _ => after fun scope => after fun _ => ?_
    exact (h body scope).round (fun flow => by cases flow <;> rfl) ih

theorem handle (param : Option Target) (handler : List Stmt) (v : Value) (outer : ScopeRef) :
    EndsBy (anyLeak · handler) (Run.handle ev param handler v outer) := by
  refine after fun scope => ?_
  cases param with
  | none => exact h.execAll handler scope
  | some target => exact after fun _ => h.execAll handler scope

theorem guarded (block : List Stmt) (param : Option Target) (handler : Option (List Stmt)) (scope : ScopeRef) :
    EndsBy (fun x => anyLeak x block || blockLeaks x handler) (Run.guarded ev block param handler scope) := by
  refine bind (h.execBlock block scope).outcome fun result hresult => ?_
  -- The block may have ended by a fault, after which it is the handler that counts.
  split
  · refine after fun v? => ?_
    cases v? with
    | none => exact throw _
    | some v => exact (h.handle param _ v scope).right
  · exact ofOutcome fun flow hflow => (hresult flow hflow).left

/-- A finalizer that jumps decides how the statement ends; one that does not leaves it as it was. -/
theorem finish (finalizer : List Stmt) {result : Except Fault Flow}
    (hresult : ∀ flow, result = .ok flow → flow.Within may) (scope : ScopeRef) :
    EndsBy (fun x => may x || anyLeak x finalizer) (Run.finish ev finalizer result scope) := by
  have hstands : EndsBy (fun x => may x || anyLeak x finalizer) (Run.ofOutcome result) :=
    ofOutcome fun flow hflow => (hresult flow hflow).left
  refine either hstands (bind (h.execBlock finalizer scope) fun flow hflow => ?_)
  -- A jump of the finalizer takes the place of the result.
  cases flow with
  | normal => exact hstands
  | _ => exact pure hflow.right

/-- A statement with a block, a handler and a finalizer ends by a jump of one of them. -/
theorem execTry (block : List Stmt) (param : Option Target) (handler finalizer : Option (List Stmt))
    (scope : ScopeRef) :
    EndsBy (fun x => anyLeak x block || (blockLeaks x handler || blockLeaks x finalizer))
      (Run.execTry ev block param handler finalizer scope) := by
  cases finalizer with
  | none =>
    refine (h.guarded block param handler scope).mono fun x hx => ?_
    rw [← Bool.or_assoc]
    exact Bool.or_eq_true_iff.mpr (Or.inl hx)
  | some finalizer =>
    refine bind (h.guarded block param handler scope).outcome fun result hresult => ?_
    refine (h.finish finalizer hresult scope).mono fun x hx => ?_
    rw [← Bool.or_assoc]
    exact hx

omit h in
/-- The cases that are executed are those from the first match on. -/
theorem matchingCases?_suffix (scope : ScopeRef) (v : Value) (cases : List Case) :
    Upholds Any (fun found? => ∀ found, found? = some found → found <:+ cases)
      (Run.matchingCases? ev scope v cases) := by
  induction cases with
  | nil => exact pure fun _ hfound => by cases hfound
  | cons case rest ih =>
    obtain ⟨test?, body⟩ := case
    have hlater : Upholds Any (fun found? => ∀ found, found? = some found → found <:+ .mk test? body :: rest)
        (Run.matchingCases? ev scope v rest) :=
      ih.imp fun _ hsuffix found hfound => (hsuffix found hfound).trans (List.suffix_cons _ _)
    cases test? with
    | none => exact hlater
    | some test =>
      refine bind (anyState _) fun w _ => Upholds.ite (fun _ => pure ?_) fun _ => hlater
      rintro _ ⟨⟩
      exact List.suffix_refl _

/-- Within the cases a `break` ends the statement and not the loop around it. -/
theorem execCases (cases : List Case) (scope : ScopeRef) :
    EndsBy (noBreaks (casesLeak · cases)) (Run.execCases ev scope cases) := by
  induction cases with
  | nil => exact normal
  | cons case rest ih =>
    obtain ⟨test?, body⟩ := case
    refine bind (h.execAll body scope) fun flow hflow => ?_
    cases flow with
    | broken => exact normal
    | normal => exact ih.mono (noBreaks_mono fun x hx => Bool.or_eq_true_iff.mpr (Or.inr hx))
    | _ => exact pure (hflow.left.noBreaks Flow.noConfusion)

theorem execSelect (subject : Expr) (cases : List Case) (scope : ScopeRef) :
    EndsBy (noBreaks (casesLeak · cases)) (Run.execSelect ev subject cases scope) := by
  refine after fun v => bind (matchingCases?_suffix scope v cases) fun found? hfound => ?_
  split
  · next found heq =>
    -- Whether a test has chosen them or the default, the cases that are run are among those written.
    have hsuffix : found <:+ cases := by
      cases found? with
      | some found' =>
        obtain rfl := Option.some.inj heq
        exact hfound found' rfl
      | none => exact defaultCases?_suffix heq
    exact after fun scope => (h.execCases found scope).mono (noBreaks_mono fun _ => casesLeak_of_suffix hsuffix)
  · exact normal

/-- A statement ends by jumps that are loose in it, if what is inside of it does. -/
theorem execStmt (s : Stmt) (scope : ScopeRef) : EndsBy s.leaks (Run.execStmt ev s scope) := by
  cases s with
  | expr e => exact after fun _ => normal
  | decl kind bindings => exact execBindings scope _ bindings
  | function f => exact normal
  | empty => exact normal
  | classDef c => exact after fun _ => after fun _ => normal
  | returns value =>
    have hreturned (v : Value) : (Flow.returned v).Within (Stmt.returns value).leaks := by
      rintro _ ⟨⟩
      rfl
    cases value with
    | none => exact pure (hreturned _)
    | some e => exact after fun v => pure (hreturned v)
  | cond test yes no =>
    cases no with
    | none => exact after fun _ => either (h yes scope) normal
    | some no =>
      exact after fun _ => either (h yes scope).left (h no scope).right
  | whileLoop test body => exact after fun n => h.whileLoop test body scope n
  | doLoop body test => exact after fun n => h.doLoop body test scope n
  | forLoop init test update body => exact h.execFor init test update body scope
  | forEach keys kind target subject body =>
    exact after fun _ => after fun vs => h.forEach _ target body scope vs
  | breaks =>
    -- A jump may leave the statement exactly because it is one.
    refine pure ?_
    rintro _ ⟨⟩
    rfl
  | continues =>
    refine pure ?_
    rintro _ ⟨⟩
    rfl
  | throws e => exact after fun _ => throw _
  | attempt block param handler finalizer => exact h.execTry block param handler finalizer scope
  | select subject cases => exact h.execSelect subject cases scope
  | block statements => exact h.execBlock statements scope

end Evaluator.Jumps

/-- By induction on the depth, whatever the rule is by which calls are entered. -/
theorem evaluatorUnder_jumps {σ : Type} (rule : CallRule σ) (n : Nat) (s : σ) :
    (evaluatorUnder rule n s).Jumps := by
  induction n with
  | zero => exact fun _ _ => Upholds.throw _
  | succ n ih => exact ih.execStmt

theorem evaluator_jumps (n : Nat) : (evaluator n).Jumps := by
  rw [← evaluatorUnder_free]
  exact evaluatorUnder_jumps .free n ()

end Snippet.Script
