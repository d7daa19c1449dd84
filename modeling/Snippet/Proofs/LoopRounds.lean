import Snippet.Proofs.ScopeApart

/-!
The rounds of a loop whose head declares variables with `let`. Every round but the first has a scope of its
own, made as a copy of the last one's when the body of that has been run, and so what is evaluated in one of
them does not reach the variables of another, unless it calls a function that was made there. The first round
has the scope of the head.
-/

namespace Snippet.Script

namespace Heap

variable {h h' : Heap} {outer s t : ScopeRef}

structure IsRound (h : Heap) (outer s : ScopeRef) : Prop where
  global_rooted : h.Rooted globalScope
  outer_rooted : h.Rooted outer
  lt_size : s.address < h.scopes.size
  parent_eq : (h.scope s).parent = some outer
  younger : outer.address < s.address

namespace IsRound

theorem rooted (hs : h.IsRound outer s) : h.Rooted s := .inner hs.lt_size hs.parent_eq hs.younger hs.outer_rooted

theorem not_within_global (hs : h.IsRound outer s) : ¬ h.Within s globalScope := by
  intro hwithin
  have hle : s.address ≤ 0 := hs.global_rooted.le_of_within hwithin
  exact Nat.not_lt_zero _ (Nat.lt_of_lt_of_le hs.younger hle)

theorem not_within_outer (hs : h.IsRound outer s) : ¬ h.Within s outer := fun hwithin =>
  Nat.not_lt_of_le (hs.outer_rooted.le_of_within hwithin) hs.younger

/-- Two rounds that stand in the same scope have nothing to do with each other. -/
theorem not_within (hs : h.IsRound outer s) (ht : h.IsRound outer t) (hne : t ≠ s) : ¬ h.Within s t := by
  intro hwithin
  cases hwithin with
  | self _ => exact hne rfl
  | inner _ hparent hp =>
    rw [ht.parent_eq] at hparent
    cases hparent
    exact hs.not_within_outer hp

theorem outlasts {declares : ScopeRef → String → Prop} (hs : h.IsRound outer s)
    (hold : Outlasts declares h h') : h'.IsRound outer s where
  global_rooted := hs.global_rooted.outlasts hold
  outer_rooted := hs.outer_rooted.outlasts hold
  lt_size := Nat.lt_of_lt_of_le hs.lt_size hold.size_le
  parent_eq := (hold.parent_eq s hs.lt_size).trans hs.parent_eq
  younger := hs.younger

theorem spared {declares : ScopeRef → String → Prop} {α : Type} {x : Run α} {m m' : Machine} {a : α}
    (hs : m.heap.IsRound outer s) (hx : x.Spares declares) (hok : x m = .ok a m') :
    m'.heap.IsRound outer s := by
  have hold := hx m
  rw [hok] at hold
  exact hs.outlasts hold

/-- A scope that is made within another one may be that of a round. -/
theorem made (hg : h.Rooted globalScope) (ho : h.Rooted outer) (bindings : List (String × Binding)) :
    Heap.IsRound { h with scopes := h.scopes.push { bindings, parent := some outer } } outer
      ⟨h.scopes.size⟩ := by
  have hold : Outlasts nowhere h { h with scopes := h.scopes.push { bindings, parent := some outer } } :=
    (Outlasts.refl h).push _
  refine ⟨hg.outlasts hold, ho.outlasts hold, Array.size_push _ ▸ Nat.lt_succ_self _, ?_, ho.lt_size⟩
  rw [scope_push_self]

end IsRound

end Heap

/-- The next round has a copy of the scope of the last one. -/
theorem run_nextRound (outer scope : ScopeRef) (m : Machine) :
    Run.nextRound true outer scope m = .ok ⟨m.heap.scopes.size⟩
      { m with
        heap := { m.heap with
          scopes := m.heap.scopes.push
            { bindings := (m.heap.scope scope).bindings, parent := some outer } }
        charged := m.charged + 64 } :=
  rfl

/-- A loop whose head declares variables with `let`. -/
structure LetLoop where
  bindings : List (Target × Option Expr)
  test : Option Expr
  update : Option Expr
  body : Stmt

namespace LetLoop

variable (l : LetLoop) (ev : Evaluator) (outer : ScopeRef)

def stmt : Stmt := .forLoop (some (.decl .letDecl l.bindings)) l.test l.update l.body

def declared (scope : ScopeRef) : Run ScopeRef := do
  discard (ev.exec (.decl .letDecl l.bindings) scope)
  return scope

def head : Run ScopeRef := Run.childScope outer >>= l.declared ev

def goesOn (scope : ScopeRef) : Run Bool := do
  Run.checkpoint
  match l.test with
  | some e => return (← ev.eval e scope).truthy
  | none => return true

def updated (scope : ScopeRef) : Run ScopeRef := do
  if let some e := l.update then discard (ev.eval e scope)
  return scope

def next (scope : ScopeRef) : Run ScopeRef := Run.nextRound true outer scope >>= l.updated ev

def rounds : Nat → ScopeRef → Run Flow := Run.forLoop ev true l.test l.update l.body outer

def rest (k : Nat) (scope : ScopeRef) : Run Flow := Run.forRest ev true l.update outer (l.rounds ev outer k) scope

/-- A round, told by its scope and the state in which it begins, goes on to the next one: its body ends
normally or with `continue`. -/
def Leads (a b : ScopeRef × Machine) : Prop :=
  ∃ m₁ flow m₂, l.goesOn ev a.1 a.2 = .ok true m₁ ∧ ev.exec l.body a.1 m₁ = .ok flow m₂ ∧
    (flow = .normal ∨ flow = .continued) ∧ l.next ev outer a.1 m₂ = .ok b.1 b.2

theorem rest_eq (k : Nat) (scope : ScopeRef) :
    l.rest ev outer k scope = l.next ev outer scope >>= l.rounds ev outer k := by
  unfold rest next updated Run.forRest
  cases l.update <;> simp only [bind_assoc, pure_bind]

theorem rounds_succ (k : Nat) (scope : ScopeRef) :
    l.rounds ev outer (k + 1) scope = (do
      if ← l.goesOn ev scope then
        match ← ev.exec l.body scope with
        | .broken => return .normal
        | .returned v => return .returned v
        | _ => l.rest ev outer k scope
      else return .normal) := by
  obtain ⟨bindings, test, update, body⟩ := l
  unfold rounds goesOn Run.forLoop
  cases test <;> cases update <;> simp only [bind_assoc, pure_bind] <;> rfl

theorem exec_stmt (n : Nat) :
    (evaluator (n + 1)).exec l.stmt outer = (do
      let scope ← l.head (evaluator n) outer
      l.rounds (evaluator n) outer (← Run.rounds) scope) := by
  unfold head declared rounds
  simp only [bind_assoc, pure_bind]
  rfl

section Upholding

variable {S : Machine → Prop} {home : ScopeRef → Prop} {free : ScopeRef → String → Prop}
variable [DeclarationRules S home free] {ev} {outer}

theorem goesOn_upholds (h : ev.Sustains S home free) {scope : ScopeRef} (hscope : home scope) :
    Upholds S Any (l.goesOn ev scope) := by
  refine Upholds.bind Upholds.checkpoint fun _ _ => ?_
  cases l.test with
  | none => exact Upholds.pure trivial
  | some e => exact Upholds.bind (h.eval e hscope) fun _ _ => Upholds.pure trivial

omit [DeclarationRules S home free] in
theorem declared_upholds (h : ev.Sustains S home free) {scope : ScopeRef} (hscope : home scope)
    (hfree : ∀ name, free scope name) : Upholds S (fun s => s = scope) (l.declared ev scope) :=
  Upholds.bind (h.exec _ hscope fun name _ => hfree name).discard fun _ _ => Upholds.pure rfl

omit [DeclarationRules S home free] in
theorem updated_upholds (h : ev.Sustains S home free) {scope : ScopeRef} (hscope : home scope) :
    Upholds S (fun s => s = scope) (l.updated ev scope) := by
  unfold updated
  cases l.update with
  | none => exact Upholds.pure rfl
  | some e => exact Upholds.bind (h.eval e hscope).discard fun _ _ => Upholds.pure rfl

theorem next_upholds (h : ev.Sustains S home free) (houter : home outer) (scope : ScopeRef) :
    Upholds S (Fresh home free) (l.next ev outer scope) := by
  refine Upholds.bind (Upholds.nextRound houter nofun) fun scope hscope => ?_
  exact (l.updated_upholds h hscope.home).imp fun s hs => hs ▸ hscope

theorem rest_upholds (h : ev.Sustains S home free) (houter : home outer) (k : Nat) (scope : ScopeRef) :
    Upholds S Any (l.rest ev outer k scope) := by
  rw [rest_eq]
  exact Upholds.bind (l.next_upholds h houter scope) fun scope hscope => h.forLoop hscope houter _ _ _ _ k

end Upholding

section Refining

variable {c : Nat} {ev ev' : Evaluator} {outer} (h : EvaluatorsRelated refining c Any ev ev')
include h

theorem goesOn_refines (scope : ScopeRef) : Refines c Any (l.goesOn ev scope) (l.goesOn ev' scope) := by
  refine Refines.checkpoint ?_
  cases l.test with
  | none => exact Refines.pure trivial
  | some e => exact Refines.bind (h.eval e scope trivial) fun _ _ => Refines.pure trivial

/-- Where evaluation is refined, so is a round. -/
theorem next_refines (scope : ScopeRef) : Refines c Any (l.next ev outer scope) (l.next ev' outer scope) := by
  refine Refines.bind (refining.quiet (Quiet.nextRound true outer scope)) fun scope _ => ?_
  unfold updated
  cases l.update with
  | none => exact Refines.pure trivial
  | some e =>
    have he : Refines c Any (discard (ev.eval e scope)) (discard (ev'.eval e scope)) :=
      (refining.compositional c).discard (h.eval e scope trivial)
    exact Refines.bind he fun _ _ => Refines.pure trivial

/-- The rounds of a loop under two evaluators, by induction on how many there may be. -/
theorem rounds_refines (k : Nat) (scope : ScopeRef) :
    Refines c Any (l.rounds ev outer k scope) (l.rounds ev' outer k scope) := by
  induction k generalizing scope with
  | zero => exact Refines.exhausted _
  | succ k ih =>
    rw [rounds_succ, rounds_succ, rest_eq, rest_eq]
    refine Refines.bind (l.goesOn_refines h scope) fun goesOn _ => ?_
    cases goesOn with
    | false => exact Refines.pure trivial
    | true =>
      have hnext : Refines c Any (l.next ev outer scope) (l.next ev' outer scope) := l.next_refines h scope
      have hrest := hnext.bind fun scope _ => ih scope
      refine Refines.bind (h.exec l.body scope trivial) fun flow _ => ?_
      cases flow with
      | broken => exact Refines.pure trivial
      | returned v => exact Refines.pure trivial
      | _ => exact hrest

theorem rest_refines (k : Nat) (scope : ScopeRef) :
    Refines c Any (l.rest ev outer k scope) (l.rest ev' outer k scope) := by
  rw [rest_eq, rest_eq]
  exact Refines.bind (l.next_refines h scope) fun scope _ => l.rounds_refines h k scope

end Refining

variable {l} {ev} {outer} {n : Nat} {a b : ScopeRef × Machine}

/-- The loop goes on as the next round does. -/
theorem Leads.rounds_eq (hab : l.Leads ev outer a b) (k : Nat) :
    l.rounds ev outer (k + 1) a.1 a.2 = l.rounds ev outer k b.1 b.2 := by
  obtain ⟨m₁, flow, m₂, hgoes, hbody, hflow, hnext⟩ := hab
  rw [rounds_succ, run_bind_ok hgoes, if_pos rfl, run_bind_ok hbody]
  have hrest : l.rest ev outer k a.1 m₂ = l.rounds ev outer k b.1 b.2 := by
    rw [rest_eq, run_bind_ok hnext]
  obtain rfl | rfl := hflow <;> exact hrest

/-- The update keeps the scope in which it is evaluated. -/
theorem outlasts_of_updated {s s' : ScopeRef} {m m' : Machine}
    (hok : l.updated (evaluator n) s m = .ok s' m') : s' = s ∧ m.heap.Outlasts nowhere m'.heap := by
  have hupdated : Upholds (Heap.OutlastsUpTo nowhere m.heap) (fun t => t = s) (l.updated (evaluator n) s) :=
    l.updated_upholds (evaluator_spares n) trivial
  have hends := hupdated m (Heap.Outlasts.refl _)
  rw [hok] at hends
  exact hends

/-- The scope of the next round is a new one, and those of the rounds before it are kept. -/
theorem isRound_of_next {s s' : ScopeRef} {m m' : Machine} (hs : m.heap.IsRound outer s)
    (hok : l.next (evaluator n) outer s m = .ok s' m') :
    m'.heap.IsRound outer s' ∧ s'.address = m.heap.scopes.size ∧
      ∀ t, m.heap.IsRound outer t → m'.heap.IsRound outer t := by
  unfold next at hok
  rw [run_bind_ok (run_nextRound outer s m)] at hok
  obtain ⟨rfl, hold⟩ := outlasts_of_updated hok
  have hmade := Heap.IsRound.made hs.global_rooted hs.outer_rooted (m.heap.scope s).bindings
  refine ⟨hmade.outlasts hold, rfl, fun t ht => ?_⟩
  have hpush : m.heap.Outlasts nowhere { m.heap with
      scopes := m.heap.scopes.push { bindings := (m.heap.scope s).bindings, parent := some outer } } :=
    (Heap.Outlasts.refl _).push _
  exact (ht.outlasts hpush).outlasts hold

/-- A round makes a scope beyond all that there were, and every round before it stays one. -/
theorem Leads.isRound (hab : l.Leads (evaluator n) outer a b) (ha : a.2.heap.IsRound outer a.1) :
    b.2.heap.IsRound outer b.1 ∧ a.1.address < b.1.address ∧
      ∀ t, a.2.heap.IsRound outer t → b.2.heap.IsRound outer t := by
  obtain ⟨m₁, flow, m₂, hgoes, hbody, -, hnext⟩ := hab
  have hgoesOn : (l.goesOn (evaluator n) a.1).Spares nowhere :=
    .of_upholds fun _ => l.goesOn_upholds (evaluator_spares n) trivial
  have hbefore (t : ScopeRef) (ht : a.2.heap.IsRound outer t) : m₂.heap.IsRound outer t :=
    (ht.spared hgoesOn hgoes).spared (.exec n l.body a.1) hbody
  obtain ⟨hb, hnew, hkept⟩ := isRound_of_next (hbefore a.1 ha) hnext
  exact ⟨hb, hnew ▸ (hbefore a.1 ha).lt_size, fun t ht => hkept t (hbefore t ht)⟩

/-- All rounds after one have scopes of their own, by induction on the rounds between. -/
theorem isRound_of_later (hab : Relation.TransGen (l.Leads (evaluator n) outer) a b)
    (ha : a.2.heap.IsRound outer a.1) :
    b.2.heap.IsRound outer b.1 ∧ a.1.address < b.1.address ∧ b.2.heap.IsRound outer a.1 := by
  induction hab with
  | single hab =>
    obtain ⟨hb, hless, hkept⟩ := hab.isRound ha
    exact ⟨hb, hless, hkept _ ha⟩
  | tail _ hbc ih =>
    obtain ⟨hb, hless, hkept⟩ := ih
    obtain ⟨hc, hless', hkept'⟩ := hbc.isRound hb
    exact ⟨hc, Nat.lt_trans hless hless', hkept' _ hkept⟩

theorem outlasts_of_declared {s s' : ScopeRef} {m m' : Machine}
    (hok : l.declared (evaluator n) s m = .ok s' m') :
    s' = s ∧ m.heap.Outlasts (fun _ _ => True) m'.heap := by
  have hdeclared : Upholds (Heap.OutlastsUpTo (fun _ _ => True) m.heap) (fun t => t = s)
      (l.declared (evaluator n) s) :=
    l.declared_upholds (evaluator_spares n) trivial fun _ => .inr trivial
  have hends := hdeclared m (Heap.Outlasts.refl _)
  rw [hok] at hends
  exact hends

/-- The head of a loop declares its variables in the scope of the first round. -/
theorem isRound_of_head {s : ScopeRef} {m m' : Machine} (hg : m.heap.Rooted globalScope)
    (ho : m.heap.Rooted outer) (hok : l.head (evaluator n) outer m = .ok s m') :
    m'.heap.IsRound outer s := by
  unfold head at hok
  rw [run_bind_ok (x := Run.childScope outer) (a := ⟨m.heap.scopes.size⟩) rfl] at hok
  obtain ⟨rfl, hold⟩ := outlasts_of_declared hok
  exact (Heap.IsRound.made hg ho []).outlasts hold

end LetLoop

structure RoundIsLeftAlone (m : Machine) (outer s : ScopeRef) : Prop where
  -- From a state on, nothing that is evaluated outside of a round of a loop, nor the rest of the
  -- loop after the body of that round, changes what functions of the round see, up to where one of
  -- them is called.
  rest : ∀ (l : LetLoop) k n, LeavesAlone s m (fun ev => l.rest ev outer k s) n
  expression : ∀ e t n, ¬ m.heap.Within s t → LeavesAlone s m (fun ev => ev.eval e t) n
  assignment : ∀ e v t n, ¬ m.heap.Within s t → LeavesAlone s m (fun ev => ev.assign e v t) n
  statement : ∀ a t n, ¬ m.heap.Within s t → LeavesAlone s m (fun ev => ev.exec a t) n
  call : ∀ f receiver arguments n, LeavesAlone s m (fun ev => ev.call f receiver arguments) n
  construction : ∀ f arguments label n, LeavesAlone s m (fun ev => ev.construct f arguments label) n
  timers : ∀ n, LeavesAlone s m (fun ev => do Run.runTimers ev (← Run.rounds)) n

/-- The scopes of a round are apart from everything that is evaluated outside of it. -/
theorem Heap.IsRound.isLeftAlone {m : Machine} {outer s : ScopeRef} (hs : m.heap.IsRound outer s)
    (hdepth : m.callDepth ≤ maxCallDepth) : RoundIsLeftAlone m outer s := by
  have halone {α : Type} {V W : α → Prop} {x : Evaluator → Run α} :=
    LeavesAlone.of_sustains (x := x) (V := V) (W := W) hs.rooted hs.not_within_global hdepth
  have hholds (vs : List Value) : AllHold Any vs := fun v _ => v.holds_any
  exact
    { rest := fun l k => halone (fun _ h => l.rest_upholds h hs.not_within_outer k s)
        fun _ _ _ h => l.rest_refines h k s
      expression := fun e t n ht => halone (fun _ h => h.eval e ht) (fun _ _ _ h => h.eval e t trivial) n
      assignment := fun e v t n ht => halone (fun _ h => h.assign e v ht)
        (fun _ _ _ h => h.assign e v t trivial (Or.inr trivial) v.holds_any) n
      statement := fun a t n ht => halone (fun _ h => h.exec a ht fun _ _ => ht)
        (fun _ _ _ h => h.exec a t trivial) n
      call := fun f receiver arguments => halone (fun _ h => h.call f receiver arguments)
        fun _ _ _ h => h.call trivial f receiver arguments f.holds_any receiver.holds_any (hholds _)
      construction := fun f arguments label => halone (fun _ h => h.construct f arguments label)
        fun _ _ _ h => h.construct trivial f arguments label f.holds_any (hholds _)
      timers := halone (fun _ h => Upholds.bind Upholds.rounds fun k _ => h.runTimers k)
        fun _ _ _ h => h.runTimers refining_runsTimers trivial }

structure ScopesAreRooted : Prop where
  -- Scopes under which evaluation takes place: the one around all others, and those made within
  -- others.
  start : ∀ stdin k, (Machine.start stdin k).heap.Rooted globalScope
  child : ∀ s t (m m' : Machine), m.heap.Rooted s → Run.childScope s m = .ok t m' → m'.heap.Rooted t
  kept : ∀ declares α (x : Run α) (m : Machine) t, x.Spares declares → m.heap.Rooted t →
    (finalState (x m)).heap.Rooted t

/-- The rounds of a loop whose head declares variables with `let`, within a scope and evaluated to some depth. -/
structure RoundsAreApart (l : LetLoop) (n : Nat) (outer : ScopeRef) : Prop where
  rooted : ScopesAreRooted
  /-- The first round has the scope of the head. -/
  begins : ∀ s (m m' : Machine), m.heap.Rooted globalScope → m.heap.Rooted outer →
    l.head (evaluator n) outer m = .ok s m' →
    m'.heap.IsRound outer s ∧
      (evaluator (n + 1)).exec l.stmt outer m = l.rounds (evaluator n) outer (m'.checkpoints + 1) s m'
  goesOn : ∀ k a b, l.Leads (evaluator n) outer a b →
    l.rounds (evaluator n) outer (k + 1) a.1 a.2 = l.rounds (evaluator n) outer k b.1 b.2
  /-- Every further one has a copy of the scope of the last one. -/
  copied : ∀ s (m : Machine), ∃ s' m', Run.nextRound true outer s m = .ok s' m' ∧
    m'.heap.scope s' = { bindings := (m.heap.scope s).bindings, parent := some outer } ∧
    ∀ t, t ≠ s' → m'.heap.scope t = m.heap.scope t
  apart : ∀ a b, a.2.heap.IsRound outer a.1 → Relation.TransGen (l.Leads (evaluator n) outer) a b →
    b.2.heap.IsRound outer a.1 ∧ b.2.heap.IsRound outer b.1 ∧
      ¬ b.2.heap.Within a.1 b.1 ∧ ¬ b.2.heap.Within b.1 a.1
  leftAlone : ∀ (m : Machine) s, m.heap.IsRound outer s → m.callDepth ≤ maxCallDepth →
    RoundIsLeftAlone m outer s
  /-- From within a round its variables are seen, if not others made within the round. -/
  seen : ∀ (h : Heap) s t name b, h.Within s t → h.Rooted t → h.own? s name = some b →
    ∃ o c, h.Sees name t o c ∧ h.Within s o
  /-- An assignment to a declared name changes the binding of the scope in which it is found, for all that see
  it, and no other one. -/
  assigned : ∀ (m : Machine) name s o b v, m.heap.Sees name s o b →
    (evaluator (n + 1)).assign (.name name) v s m =
      (if b.mutable then .ok () { m with heap := m.heap.declare o name ⟨v, true⟩ }
        else .error (.raised .constantAssignment) m) ∧
    (∀ t x, (m.heap.declare o name ⟨v, true⟩).own? t x =
      if t = o ∧ x = name then some ⟨v, true⟩ else m.heap.own? t x) ∧
    ∀ t c, m.heap.Sees name t o c → (m.heap.declare o name ⟨v, true⟩).Sees name t o ⟨v, true⟩

theorem scopes_are_rooted : ScopesAreRooted where
  start _ _ := .top Nat.zero_lt_one rfl
  child s t m m' hs hok := by
    cases hok
    exact hs.child []
  kept _ _ _ m _ hx ht := ht.outlasts (hx m)

/-- What is evaluated for one round of a loop, by whatever is evaluated elsewhere and by the rest of the loop,
does not change what functions of another round see, unless it calls one of them. -/
theorem rounds_are_apart (l : LetLoop) (n : Nat) (outer : ScopeRef) : RoundsAreApart l n outer where
  rooted := scopes_are_rooted
  begins s m m' hg ho hok := by
    refine ⟨LetLoop.isRound_of_head hg ho hok, ?_⟩
    rw [l.exec_stmt outer n, run_bind_ok hok]
    rfl
  goesOn k _ _ hab := hab.rounds_eq k
  copied s m := by
    refine ⟨_, _, run_nextRound outer s m, Heap.scope_push_self, fun t ht => ?_⟩
    exact Heap.scope_push_of_ne fun heq => ht (congrArg ScopeRef.mk heq)
  apart a b ha hab := by
    obtain ⟨hb, hless, hkept⟩ := LetLoop.isRound_of_later hab ha
    have hne : b.1 ≠ a.1 := fun heq => Nat.ne_of_gt hless (congrArg ScopeRef.address heq)
    exact ⟨hkept, hb, hkept.not_within hb hne, hb.not_within hkept hne.symm⟩
  leftAlone _ _ hs hdepth := hs.isLeftAlone hdepth
  seen _ _ _ _ _ hwithin ht hb := hwithin.sees ht hb
  assigned m name s o b v hsees := by
    refine ⟨?_, fun t x => Heap.own?_declare hsees.lt_size, fun _ _ h => h.declare _⟩
    split
    · next hb => exact run_assignName_variable hsees hb v
    · next hb => exact run_assignName_constant hsees (Bool.eq_false_iff.mpr hb) v

/-- The update of a loop calls a function that was made in its head, and a function that was made in the body
of the first round sees what that assigns. -/
theorem head_shares_scope_with_first_round :
    (evaluate ("const fs = []; for (let i = 0, inc = () => \x7b i++; \x7d; fs.length < 3; inc()) " ++
      "fs.push(() => i); console.log(fs[0]());") "" ⟨20000⟩).bind Draft.output = some "3\n" := by
  decide +kernel

end Snippet.Script
