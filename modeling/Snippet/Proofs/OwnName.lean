import Snippet.Proofs.ScopeApart
import Snippet.Proofs.VariableValue

/-!
The names of functions and classes. A declaration binds the name in the scope in which the function or the class
is made, so that it finds itself there; an expression binds nothing, and inside of it the name is what it is
around it.
-/

namespace Snippet.Script

def Stmt.functionName? : Stmt → Option String
  | .function f => f.name?
  | _ => none

variable {scope : ScopeRef} {name : String} {m : Machine}

/-- A function that is declared is made and bound to its name. -/
theorem hoist_function {f : Func} (hf : f.name? = some name) (hs : scope.address < m.heap.scopes.size)
    (rest : List Stmt) :
    ∃ m₁, Run.hoist scope (.function f :: rest) m = Run.hoist scope rest m₁ ∧
      m₁.heap.scopes.size = m.heap.scopes.size ∧
      m₁.heap.own? scope name = some ⟨.function (.closure f scope) m.identities, true⟩ ∧
      ∀ x, x ≠ name → m₁.heap.own? scope x = m.heap.own? scope x := by
  obtain ⟨name?, params, body, arrow⟩ := f
  obtain rfl : name? = some name := hf
  refine ⟨{ m with
    heap := m.heap.declare scope name
      ⟨.function (.closure (.mk (some name) params body arrow) scope) m.identities, true⟩
    charged := m.charged + 48
    identities := m.identities + 1 }, rfl, Heap.size_declare, ?_, fun x hx => ?_⟩
  · exact (Heap.own?_declare hs).trans (if_pos ⟨rfl, rfl⟩)
  · exact (Heap.own?_declare hs).trans (if_neg fun hc => hx hc.2)

/-- Hoisting a statement binds at most its own name, and makes no scope. -/
theorem hoist_cons (s : Stmt) (hs : scope.address < m.heap.scopes.size) (rest : List Stmt) :
    ∃ m₁, Run.hoist scope (s :: rest) m = Run.hoist scope rest m₁ ∧
      m₁.heap.scopes.size = m.heap.scopes.size ∧
      ∀ x, s.functionName? ≠ some x → m₁.heap.own? scope x = m.heap.own? scope x := by
  cases s with
  | function f =>
    obtain ⟨name?, params, body, arrow⟩ := f
    cases name? with
    | none => exact ⟨m, rfl, rfl, fun _ _ => rfl⟩
    | some name =>
      obtain ⟨m₁, hrun, hsize, -, hothers⟩ := hoist_function (f := .mk (some name) params body arrow) rfl hs rest
      exact ⟨m₁, hrun, hsize, fun x hx => hothers x fun heq => hx (congrArg some heq.symm)⟩
  | _ => exact ⟨m, rfl, rfl, fun _ _ => rfl⟩

/-- Of several functions of one name the last one is bound to it, by induction on the statements around it. -/
theorem own?_of_hoist {before after : List Stmt} {f : Func} (hf : f.name? = some name)
    (hlast : ∀ s ∈ after, s.functionName? ≠ some name) (hs : scope.address < m.heap.scopes.size) :
    ∃ id m', Run.hoist scope (before ++ .function f :: after) m = .ok () m' ∧
      m'.heap.own? scope name = some ⟨.function (.closure f scope) id, true⟩ := by
  induction before generalizing m with
  | cons s before ih =>
    obtain ⟨m₁, hrun, hsize, -⟩ := hoist_cons s hs (before ++ .function f :: after)
    obtain ⟨id, m', hok, hown⟩ := ih (m := m₁) (hsize ▸ hs)
    exact ⟨id, m', hrun.trans hok, hown⟩
  | nil =>
    obtain ⟨m₁, hrun, hsize, hown, -⟩ := hoist_function hf hs after
    refine ⟨m.identities, ?_⟩
    rw [List.nil_append, hrun]
    clear hrun
    -- What is declared after it has other names.
    induction after generalizing m₁ with
    | nil => exact ⟨m₁, rfl, hown⟩
    | cons s after ih =>
      obtain ⟨m₂, hrun, hsize', hothers⟩ := hoist_cons s (hsize ▸ hs) after
      rw [hrun]
      refine ih (fun s hmem => hlast s (List.mem_cons_of_mem _ hmem)) m₂ (hsize'.trans hsize) ?_
      exact (hothers name (hlast s List.mem_cons_self)).trans hown

namespace Heap

variable {h h' : Heap} {x : String} {s t u o : ScopeRef} {b : Binding}

/-- A name is still the same within a scope if nothing between binds it. -/
theorem Sees.within (hsees : h.Sees x t o b) (hu : h.Rooted u) (hwithin : h.Within t u)
    (hunbound : ∀ v, h.Within t v → h.Within v u → v ≠ t → h.own? v x = none) : h.Sees x u o b := by
  induction hwithin with
  | self _ => exact hsees
  | @inner u p hsize hparent hp ih =>
    cases hu with
    | top _ htop =>
      rw [htop] at hparent
      cases hparent
    | inner _ hparent' hless hrooted =>
      rw [hparent] at hparent'
      cases hparent'
      -- A scope is younger than the one around it, so the name is passed on from there.
      have hne : u ≠ t := by
        rintro rfl
        exact Nat.not_lt_of_le (hrooted.le_of_within hp) hless
      refine .around hsize (hunbound u (.inner hsize hparent hp) (.self hsize) hne) hparent hless (ih hrooted ?_)
      exact fun v hv hvp => hunbound v hv (.inner hsize hparent hvp)

/-- A name that no scope around binds is not found. By induction on the scopes that are searched. -/
theorem resolveWithin?_none (hunbound : ∀ v, h.Within v u → h.own? v x = none) (fuel : Nat) :
    h.resolveWithin? x fuel u = none := by
  induction fuel generalizing u with
  | zero => rfl
  | succ fuel ih =>
    unfold resolveWithin?
    by_cases hu : u.address < h.scopes.size
    · have hown : (h.scope u).bindings.lookup x = none := hunbound u (.self hu)
      dsimp only
      rw [hown]
      cases hparent : (h.scope u).parent with
      | none => rfl
      | some p => exact ih fun v hv => hunbound v (.inner hu hparent hv)
    · unfold scope
      rw [Array.getD_eq_getD_getElem?, Array.getElem?_eq_none (Nat.le_of_not_lt hu)]
      rfl

theorem resolve?_none (hunbound : ∀ v, h.Within v u → h.own? v x = none)
    (hglobal : h.own? globalScope x = none) : h.resolve? u x = none := by
  unfold resolve?
  rw [resolveWithin?_none hunbound]
  exact Option.map_eq_none_iff.mpr hglobal

end Heap

/-- Each method that is made is a function of the class with the given scope. -/
theorem mem_madeMethods (scope : ScopeRef) (identity : Nat) (methods : List (String × Func)) :
    ∀ e ∈ madeMethods scope identity methods,
      ∃ f id, (e.1, f) ∈ methods ∧ e.2 = .function (.closure f scope) id := by
  induction methods generalizing identity with
  | nil => exact fun e he => absurd he List.not_mem_nil
  | cons method rest ih =>
    intro e he
    obtain rfl | he := List.mem_cons.mp he
    · exact ⟨method.2, identity, List.mem_cons_self, rfl⟩
    · obtain ⟨g, id, hg, heq⟩ := ih _ e he
      exact ⟨g, id, List.mem_cons_of_mem _ hg, heq⟩

theorem makeMethods_made (scope : ScopeRef) (methods : List (String × Func)) (m : Machine) :
    ∃ made m', Run.makeMethods scope methods m = .ok made m' ∧ m'.heap = m.heap ∧
      ∀ e ∈ made, ∃ f id, (e.1, f) ∈ methods ∧ e.2 = .function (.closure f scope) id :=
  ⟨_, _, run_makeMethods scope methods m, rfl, mem_madeMethods scope _ methods⟩

/-- What a call declares in its scope are the names that the function binds. -/
theorem prepare_spares (n : Nat) (f : Func) (receiver : Value) (arguments : List Value) (scope : ScopeRef) :
    (Run.prepare (evaluator n) f receiver arguments scope).Spares
      fun t name => t = scope ∧ name ∈ f.bound := by
  refine .of_upholds (V := Any) fun old => ?_
  exact (evaluator_spares n).prepare (P := Any) (fun vs _ => Upholds.makeArray vs) (fun _ _ => trivial) trivial
    (fun name hname => .inr ⟨rfl, hname⟩) receiver trivial

/-- From the scope of its call a function sees, when its body is run, what is seen from where it was made and
what it does not bind itself. -/
theorem sees_at_body {n : Nat} {f : Func} {receiver : Value} {arguments : List Value} {m₁ m₂ : Machine}
    {t o : ScopeRef} {x : String} {b : Binding} (hsees : m.heap.Sees x scope o b) (hx : x ∉ f.bound)
    (hchild : Run.childScope scope m = .ok t m₁)
    (hprepare : Run.prepare (evaluator n) f receiver arguments t m₁ = .ok () m₂) :
    ∃ b', m₂.heap.Sees x t o b' := by
  cases hchild
  have hold := prepare_spares n f receiver arguments ⟨m.heap.scopes.size⟩
    { m with
      heap := { m.heap with scopes := m.heap.scopes.push { parent := some scope } }
      charged := m.charged + 64 }
  rw [hprepare] at hold
  exact hsees.child.outlasts hold fun _ _ _ hc => hx hc.2

structure NamesComeFromAround (scope : ScopeRef) (name : String) : Prop where
  /-- Of the functions of the name that statements declare the last one is bound to it. -/
  declared : ∀ before f after (m : Machine), scope.address < m.heap.scopes.size → f.name? = some name →
    (∀ s ∈ after, s.functionName? ≠ some name) →
    ∃ id m', Run.hoist scope (before ++ .function f :: after) m = .ok () m' ∧
      m'.heap.own? scope name = some ⟨.function (.closure f scope) id, true⟩
  /-- A class of the name that is declared is bound to it. -/
  classDeclared : ∀ n c (m : Machine), scope.address < m.heap.scopes.size → c.name = name →
    ∃ id m', (evaluator (n + 1)).exec (.classDef c) scope m = .ok .normal m' ∧
      m'.heap.own? scope name = some ⟨.function (.classDef c scope) id, true⟩
  /-- The methods of its instances are made in the scope. -/
  methods : ∀ methods (m : Machine), ∃ made m', Run.makeMethods scope methods m = .ok made m' ∧
    m'.heap = m.heap ∧ ∀ e ∈ made, ∃ f id, (e.1, f) ∈ methods ∧ e.2 = .function (.closure f scope) id
  /-- Its own methods are made there too. -/
  statics : ∀ c key f (m : Machine), c.statics.lookup key = some f →
    ∃ id m', Run.classMember c scope key m = .ok (.function (.closure f scope) id) m' ∧ m'.heap = m.heap
  /-- What is evaluated keeps the binding that a scope has for the name, if it does not declare the name there
  anew, up to where the script assigns it. -/
  kept : ∀ n (m : Machine) o, m.callDepth ≤ maxCallDepth →
    (∀ e t, KeepsBinding o name m (fun ev => ev.eval e t) n) ∧
    (∀ s t, (t = o → name ∉ s.declared) → KeepsBinding o name m (fun ev => ev.exec s t) n) ∧
    (∀ f receiver arguments, KeepsBinding o name m (fun ev => ev.call f receiver arguments) n) ∧
    (∀ f arguments label, KeepsBinding o name m (fun ev => ev.construct f arguments label) n) ∧
    KeepsBinding o name m (fun ev => do Run.runTimers ev (← Run.rounds)) n
  /-- A function that is declared by a statement is not made again when it is run. -/
  passed : ∀ n f (m : Machine), (evaluator (n + 1)).exec (.function f) scope m = .ok .normal m
  /-- A call has a scope within that in which the function was made. -/
  entered : ∀ ev f receiver arguments, Run.invoke ev f scope receiver arguments = (do
    let scope ← Run.childScope scope
    Run.prepare ev f receiver arguments scope
    Run.runBody ev f.body scope)
  /-- In the body, and in whatever state that comes about there, the name, if it is not bound between, has the
  value of the variable as which it is seen where the function was made. -/
  referred : ∀ n k declares f receiver arguments (m m₁ m₂ m₃ : Machine) t u o b v,
    m.heap.Sees name scope o b → name ∉ f.bound → Run.childScope scope m = .ok t m₁ →
    Run.prepare (evaluator n) f receiver arguments t m₁ = .ok () m₂ → m₂.heap.Outlasts declares m₃.heap →
    (∀ w : ScopeRef, o.address < w.address → w.address ≤ t.address → ¬ declares w name) →
    m₃.heap.Rooted u → m₃.heap.Within t u →
    (∀ w, m₃.heap.Within t w → m₃.heap.Within w u → w ≠ t → m₃.heap.own? w name = none) →
    ((evaluator (k + 1)).eval (.name name) u m₃ = .ok v m₃ ↔ ∃ c, m₃.heap.own? o name = some ⟨v, c⟩)
  /-- An expression makes a function and binds nothing. -/
  expression : ∀ n f (m : Machine), ∃ id m',
    (evaluator (n + 1)).eval (.function f) scope m = .ok (.function (.closure f scope) id) m' ∧
      m'.heap = m.heap
  classExpression : ∀ n c (m : Machine), ∃ id m',
    (evaluator (n + 1)).eval (.classDef c) scope m = .ok (.function (.classDef c scope) id) m' ∧
      m'.heap = m.heap
  /-- If nothing around binds the name, it is not defined. -/
  missing : ∀ n u (m : Machine), (∀ v, m.heap.Within v u → m.heap.own? v name = none) →
    m.heap.own? globalScope name = none →
    (evaluator (n + 1)).eval (.name name) u m = .error (.raised (.notDefined name)) m

theorem names_come_from_around (scope : ScopeRef) (name : String) : NamesComeFromAround scope name where
  declared before f after m hs hf hlast := own?_of_hoist hf hlast hs
  classDeclared n c m hs hc :=
    ⟨m.identities, _, rfl, (Heap.own?_declare hs).trans (if_pos ⟨rfl, hc.symm⟩)⟩
  methods methods m := makeMethods_made scope methods m
  statics c key f m hf := by
    refine ⟨m.identities, { m with charged := m.charged + 48, identities := m.identities + 1 }, ?_, rfl⟩
    unfold Run.classMember
    rw [hf]
    rfl
  kept n m o hdepth := by
    have hholds (vs : List Value) : AllHold Any vs := fun v _ => v.holds_any
    refine ⟨fun e t => .of_sustains hdepth (fun _ _ h => h.eval e trivial) (fun _ _ _ h => h.eval e t trivial) n,
      fun s t hs => ?_,
      fun f receiver arguments => .of_sustains hdepth (fun _ _ h => h.call f receiver arguments)
        (fun _ _ _ h => h.call trivial f receiver arguments f.holds_any receiver.holds_any (hholds _)) n,
      fun f arguments label => .of_sustains hdepth (fun _ _ h => h.construct f arguments label)
        (fun _ _ _ h => h.construct trivial f arguments label f.holds_any (hholds _)) n,
      .of_sustains hdepth (fun _ _ h => Upholds.bind Upholds.rounds fun k _ => h.runTimers k)
        (fun _ _ _ h => h.runTimers refining_runsTimers trivial) n⟩
    refine .of_sustains hdepth (fun _ _ h => h.exec s trivial fun x hx heq => ?_)
      (fun _ _ _ h => h.exec s t trivial) n
    rintro rfl
    exact hs heq hx
  passed _ _ _ := rfl
  entered ev f receiver arguments := invoke_eq ev f scope receiver arguments
  referred n k declares f receiver arguments m m₁ m₂ m₃ t u o b v hsees hx hchild hprepare hold hnot hu
      hwithin hunbound := by
    obtain ⟨b₂, hbody⟩ := sees_at_body hsees hx hchild hprepare
    obtain ⟨b₃, hlater⟩ := hbody.outlasts hold hnot
    -- From the body on inwards the name is the same variable, and its value is what that one has by then.
    have hinside := hlater.within hu hwithin hunbound
    rw [eval_name_of_sees hinside k, hinside.own?_eq]
    constructor
    · rintro hvalue
      obtain ⟨rfl, -⟩ := EStateM.Result.ok.inj hvalue
      exact ⟨b₃.mutable, rfl⟩
    · rintro ⟨c, hc⟩
      cases hc
      rfl
  expression n f m := ⟨m.identities, _, rfl, rfl⟩
  classExpression n c m := ⟨m.identities, _, rfl, rfl⟩
  missing n u m hunbound hglobal := by
    have hnone : Run.lookup? u name m = .ok none m := by
      unfold Run.lookup? Heap.lookup?
      rw [Heap.resolve?_none hunbound hglobal]
      rfl
    exact run_bind_ok hnone

/-- A function that is written as an expression does not find itself. -/
theorem named_expression_is_not_defined_inside :
    (evaluate ("const run = function fact(n) \x7b return n < 2 ? 1 : n * fact(n - 1); \x7d; " ++
      "console.log(run(5));") "" ⟨20000⟩).bind Draft.error = some "ReferenceError: fact is not defined" := by
  decide +kernel

end Snippet.Script
