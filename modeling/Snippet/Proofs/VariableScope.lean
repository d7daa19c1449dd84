import Snippet.Proofs.ScopeBinding

/-!
The variables of `var`. A declaration binds them in the scope in which it stands, as one of `let` does, and not
in that of the function around. There they stay for good, and whatever sees them from within sees one and the
same variable.
-/

namespace Snippet.Script

-- What a declaration that ends well has done: every name of its targets is bound in the scope, to a
-- variable or a constant as its kind says, whatever the name was bound to before.

def nowhere (_ : ScopeRef) (_ : String) : Prop := False

def Heap.Binds (h : Heap) (scope : ScopeRef) (isMutable : Bool) (name : String) : Prop :=
  ∃ v, h.own? scope name = some ⟨v, isMutable⟩

theorem Heap.Outlasts.binds {h h' : Heap} (hold : Outlasts nowhere h h') {scope : ScopeRef} {isMutable : Bool}
    {name : String} (hs : scope.address < h.scopes.size) (hb : h.Binds scope isMutable name) :
    h'.Binds scope isMutable name := by
  obtain ⟨v, hv⟩ := hb
  cases isMutable with
  | true => exact hold.assignable scope name ⟨v, true⟩ hs id hv rfl
  | false => exact ⟨v, hold.constant scope name ⟨v, false⟩ hs id hv rfl⟩

def Run.Binds (scope : ScopeRef) (isMutable : Bool) (names : List String) {α : Type} (x : Run α) : Prop :=
  -- A computation that binds names in a scope if it ends well, and leaves bound in the same way
  -- what was.
  ∀ (m : Machine) a m', scope.address < m.heap.scopes.size → x m = .ok a m' →
    scope.address < m'.heap.scopes.size ∧
      ∀ name, name ∈ names ∨ m.heap.Binds scope isMutable name → m'.heap.Binds scope isMutable name

namespace Run.Binds

variable {scope : ScopeRef} {isMutable : Bool} {names names' : List String} {α β : Type} {x : Run α}

theorem of_spares (hx : x.Spares nowhere) : Run.Binds scope isMutable [] x := by
  intro m a m' hs hok
  have hold := hx m
  rw [hok] at hold
  refine ⟨Nat.lt_of_lt_of_le hs hold.size_le, fun name hname => ?_⟩
  obtain hmem | hb := hname
  · cases hmem
  · exact hold.binds hs hb

theorem pure (a : α) : Run.Binds scope isMutable [] (Pure.pure a : Run α) :=
  of_spares fun _ => Heap.Outlasts.refl _

theorem throw (e : Fault) : Run.Binds scope isMutable names (MonadExcept.throw e : Run α) := by
  intro m a m' hs hok
  cases hok

/-- Two computations in sequence bind the names of both. -/
theorem bind {f : α → Run β} (hx : Run.Binds scope isMutable names x)
    (hf : ∀ a, Run.Binds scope isMutable names' (f a)) :
    Run.Binds scope isMutable (names ++ names') (x >>= f) := by
  intro m b m' hs hok
  cases h : x m with
  | error e m₁ =>
    rw [run_bind_error h] at hok
    cases hok
  | ok a m₁ =>
    rw [run_bind_ok h] at hok
    obtain ⟨hs₁, hfirst⟩ := hx m a m₁ hs h
    obtain ⟨hs', hsecond⟩ := hf a m₁ b m' hs₁ hok
    refine ⟨hs', fun name hname => hsecond name ?_⟩
    -- What has been bound first may be bound once more, in the same way.
    obtain hmem | hb := hname
    · obtain hmem | hmem := List.mem_append.mp hmem
      · exact .inr (hfirst name (.inl hmem))
      · exact .inl hmem
    · exact .inr (hfirst name (.inr hb))

/-- What is done first declares nothing. -/
theorem after {f : α → Run β} (hx : x.Spares nowhere) (hf : ∀ a, Run.Binds scope isMutable names (f a)) :
    Run.Binds scope isMutable names (x >>= f) :=
  bind (of_spares hx) hf

/-- A declaration binds its own name. -/
theorem declare (name : String) (v : Value) :
    Run.Binds scope isMutable [name] (Run.declare scope name v isMutable) := by
  intro m a m' hs hok
  cases hok
  refine ⟨Heap.size_declare.symm ▸ hs, fun x hx => ?_⟩
  by_cases heq : x = name
  · exact ⟨v, by rw [Heap.own?_declare hs, if_pos ⟨rfl, heq⟩]⟩
  · obtain hmem | ⟨w, hw⟩ := hx
    · exact absurd (List.mem_singleton.mp hmem) heq
    · exact ⟨w, by rw [Heap.own?_declare hs, if_neg fun hc => heq hc.2, hw]⟩

mutual

/-- Binding a target binds its names, in patterns of any depth. -/
theorem bindTarget (scope : ScopeRef) (isMutable : Bool) (target : Target) (v : Value) :
    Run.Binds scope isMutable target.names (Run.bind scope isMutable target v) := by
  cases target with
  | name name => exact declare name v
  | array elements =>
    have hitems : (Run.iterate v).Spares nowhere := .of_upholds fun _ => Upholds.iterate v
    exact after hitems fun xs => bindElements scope isMutable elements _
  | object members =>
    unfold Run.bind
    split
    · have htext : (Run.toText v).Spares nowhere := .of_upholds fun _ => Upholds.toText v
      exact after htext fun _ => throw _
    · exact bindMembers scope isMutable members v

theorem bindElements (scope : ScopeRef) (isMutable : Bool) (elements : List (Option Target))
    (vs : List Value) :
    Run.Binds scope isMutable (elementNames elements) (Run.bindElements scope isMutable elements vs) := by
  cases elements with
  | nil => exact pure ()
  | cons element? rest =>
    cases element? with
    | none => exact bindElements scope isMutable rest _
    | some element =>
      exact bind (bindTarget scope isMutable element _) fun _ => bindElements scope isMutable rest _

theorem bindMembers (scope : ScopeRef) (isMutable : Bool) (members : List (String × Target)) (v : Value) :
    Run.Binds scope isMutable (memberNames members) (Run.bindMembers scope isMutable v members) := by
  cases members with
  | nil => exact pure ()
  | cons member rest =>
    obtain ⟨key, target⟩ := member
    have hmember : (Run.getMember v key).Spares nowhere := .of_upholds fun _ => Upholds.getMember v key
    refine after hmember fun w => ?_
    exact bind (bindTarget scope isMutable target w) fun _ => bindMembers scope isMutable rest v

end

/-- A statement of declarations binds the names of all its targets. -/
theorem execBindings (n : Nat) (scope : ScopeRef) (isMutable : Bool)
    (bindings : List (Target × Option Expr)) :
    Run.Binds scope isMutable (bindings.flatMap fun binding => binding.1.names)
      (Run.execBindings (evaluator n) scope isMutable bindings) := by
  induction bindings with
  | nil => exact pure _
  | cons binding rest ih =>
    obtain ⟨target, e?⟩ := binding
    rw [List.flatMap_cons]
    have hdeclare (v : Value) := bind (bindTarget scope isMutable target v) fun _ => ih
    cases e? with
    | none => exact hdeclare .undefined
    | some e => exact after (Run.Spares.eval n e scope) hdeclare

end Run.Binds

/-- A declaration that ends well has bound the names of its targets. -/
theorem exec_decl_binds {n : Nat} {kind : DeclKind} {bindings : List (Target × Option Expr)}
    {scope : ScopeRef} {m m' : Machine} {flow : Flow} (hs : scope.address < m.heap.scopes.size)
    (hok : (evaluator n).exec (.decl kind bindings) scope m = .ok flow m') {name : String}
    (hname : name ∈ Stmt.declared (.decl kind bindings)) :
    m'.heap.Binds scope (kind != .constDecl) name := by
  cases n with
  | zero => cases hok
  | succ n =>
    rw [evaluator_succ] at hok
    exact (Run.Binds.execBindings n scope _ bindings m flow m' hs hok).2 name (.inl hname)

namespace Heap.Sees

variable {h : Heap} {name : String} {s o : ScopeRef} {b : Binding}

theorem from_lt_size (hsees : h.Sees name s o b) : s.address < h.scopes.size := by
  cases hsees with
  | own hs _ => exact hs
  | around hs _ _ _ _ => exact hs

/-- A new scope changes nothing for the others. -/
theorem push (hsees : h.Sees name s o b) (scope : Scope) :
    Heap.Sees { h with scopes := h.scopes.push scope } name s o b := by
  have hsize : h.scopes.size ≤ (h.scopes.push scope).size := Array.size_push scope ▸ Nat.le_succ _
  have hown {s : ScopeRef} (hs : s.address < h.scopes.size) :
      Heap.own? { h with scopes := h.scopes.push scope } s name = h.own? s name := by
    unfold own?
    rw [scope_push hs]
  induction hsees with
  | own hs hb => exact .own (Nat.lt_of_lt_of_le hs hsize) ((hown hs).trans hb)
  | around hs hunbound hparent hless hp ih =>
    refine .around (Nat.lt_of_lt_of_le hs hsize) ((hown hs).trans hunbound) ?_ hless ih
    rw [scope_push hs]
    exact hparent

/-- A scope that is made within another one sees what that sees. -/
theorem child (hsees : h.Sees name s o b) :
    Heap.Sees { h with scopes := h.scopes.push { parent := some s } } name ⟨h.scopes.size⟩ o b := by
  refine .around ?_ ?_ ?_ hsees.from_lt_size (hsees.push _)
  · exact Array.size_push _ ▸ Nat.lt_succ_self _
  · unfold own?
    rw [scope_push_self]
    rfl
  · rw [scope_push_self]

/-- All that see a variable see what it becomes. -/
theorem declare (hsees : h.Sees name s o b) (c : Binding) : (h.declare o name c).Sees name s o c := by
  have hsize : (h.declare o name c).scopes.size = h.scopes.size := size_declare
  induction hsees with
  | own hs hb => exact .own (hsize.symm ▸ hs) (by rw [own?_declare hs, if_pos ⟨rfl, rfl⟩])
  | @around s p o b hs hunbound hparent hless hp ih =>
    refine .around (hsize.symm ▸ hs) ?_ (parent_declare.trans hparent) hless (ih hsize)
    -- The scope does not bind the name, so it is not the one that does.
    have hne : s ≠ o := by
      rintro rfl
      cases hp.own?_eq.symm.trans hunbound
    rw [own?_declare hp.lt_size, if_neg fun hc => hne hc.1]
    exact hunbound

end Heap.Sees

def Run.KeepsVariables (redeclares : ScopeRef → String → Prop) {α : Type} (x : Run α) : Prop :=
  -- A computation after which a variable is still the one that is seen by all that saw it, unless
  -- its name has been declared in a scope between, and after which it may still be assigned, unless
  -- it has been declared again.
  ∀ (m : Machine) name s o v, m.heap.Sees name s o ⟨v, true⟩ →
    (∀ u : ScopeRef, o.address < u.address → u.address ≤ s.address → ¬ redeclares u name) →
    ∃ b, (finalState (x m)).heap.Sees name s o b ∧ (¬ redeclares o name → b.mutable = true)

theorem Run.Spares.keepsVariables {redeclares : ScopeRef → String → Prop} {α : Type} {x : Run α}
    (hx : x.Spares redeclares) : x.KeepsVariables redeclares := by
  intro m name s o v hsees hbetween
  obtain ⟨b, hb⟩ := hsees.outlasts (hx m) hbetween
  refine ⟨b, hb, ?_⟩
  intro hagain
  obtain ⟨w, hw⟩ := (hx m).assignable o name ⟨v, true⟩ hsees.lt_size hagain hsees.own?_eq rfl
  rw [hb.own?_eq] at hw
  cases hw
  rfl

/-- The variables of `var` are those of `let`, but for the head of a loop, in which every round has a copy of
those of `let` only. A variable belongs to the scope in which its declaration stands: it is bound there once
the declaration has been executed, and then it is one and the same for everything within that scope. -/
structure VariablesBelongToScopes : Prop where
  asLet : ∀ n bindings scope, (evaluator n).exec (.decl .varDecl bindings) scope =
    (evaluator n).exec (.decl .letDecl bindings) scope
  asLetInHead : ∀ n keys target subject body scope,
    (evaluator n).exec (.forEach keys .varDecl target subject body) scope =
      (evaluator n).exec (.forEach keys .letDecl target subject body) scope
  sharedByRounds : ∀ bindings outer scope (m : Machine),
    Run.nextRound (Run.declaresPerRound (some (.decl .varDecl bindings))) outer scope m = .ok scope m
  declared : ∀ n bindings scope (m m' : Machine) flow, scope.address < m.heap.scopes.size →
    (evaluator n).exec (.decl .varDecl bindings) scope m = .ok flow m' →
    ∀ name ∈ Stmt.declared (.decl .varDecl bindings), ∃ v, m'.heap.Sees name scope scope ⟨v, true⟩
  /-- A scope that is made within one that sees a variable sees it too. -/
  within : ∀ (m : Machine) name s o b, m.heap.Sees name s o b →
    ∃ t m', Run.childScope s m = .ok t m' ∧ m'.heap.Sees name t o b ∧
      ∀ s b, m.heap.Sees name s o b → m'.heap.Sees name s o b
  read : ∀ n (m : Machine) name s o b, m.heap.Sees name s o b →
    (evaluator (n + 1)).eval (.name name) s m = .ok b.value m
  /-- An assignment from anywhere is an assignment for all. -/
  assigned : ∀ n (m : Machine) name s o v w, m.heap.Sees name s o ⟨v, true⟩ →
    ∃ m', (evaluator (n + 1)).assign (.name name) w s m = .ok () m' ∧
      ∀ t b, m.heap.Sees name t o b → m'.heap.Sees name t o ⟨w, true⟩
  expression : ∀ n e scope, ((evaluator n).eval e scope).KeepsVariables nowhere
  assignment : ∀ n target v scope, ((evaluator n).assign target v scope).KeepsVariables nowhere
  call : ∀ n f receiver arguments, ((evaluator n).call f receiver arguments).KeepsVariables nowhere
  construction : ∀ n f arguments label,
    ((evaluator n).construct f arguments label).KeepsVariables nowhere
  timers : ∀ n rounds, (Run.runTimers (evaluator n) rounds).KeepsVariables nowhere
  statement : ∀ n s scope, ((evaluator n).exec s scope).KeepsVariables
    fun t name => t = scope ∧ name ∈ s.declared
  statements : ∀ n list scope, (Run.execAll (evaluator n) list scope).KeepsVariables
    fun t name => t = scope ∧ name ∈ declaredBy list
  rest : ∀ n list scope, (Run.execEach (evaluator n) scope list).KeepsVariables
    fun t name => t = scope ∧ name ∈ declaredBy list

/-- A variable of `var` is that of the scope in which it is declared, for all that sees it, in every state. -/
theorem variables_belong_to_scopes : VariablesBelongToScopes where
  asLet n bindings scope := by cases n <;> rfl
  asLetInHead n keys target subject body scope := by cases n <;> rfl
  sharedByRounds _ _ _ _ := rfl
  declared _ _ scope _ _ _ hs hok name hname := by
    obtain ⟨v, hv⟩ := exec_decl_binds hs hok hname
    exact ⟨v, .own (Heap.lt_size_of_own? hv) hv⟩
  within m name s o b hsees := ⟨_, _, rfl, hsees.child, fun _ _ h => h.push _⟩
  read n m name s o b hsees := by
    have hfound : Run.lookup? s name m = .ok (some b.value) m := by
      unfold Run.lookup?
      rw [hsees.lookup?_eq]
    exact run_bind_ok hfound
  assigned n m name s o v w hsees :=
    ⟨_, run_assignName_variable hsees rfl w, fun _ _ h => h.declare _⟩
  expression n e scope := (Run.Spares.eval n e scope).keepsVariables
  assignment n target v scope := (Run.Spares.assign n target v scope).keepsVariables
  call n f receiver arguments := (Run.Spares.call n f receiver arguments).keepsVariables
  construction n f arguments label := (Run.Spares.construct n f arguments label).keepsVariables
  timers n rounds := (Run.Spares.runTimers n rounds).keepsVariables
  statement n s scope := (Run.Spares.exec n s scope).keepsVariables
  statements n list scope := (Run.Spares.execAll n list scope).keepsVariables
  rest n list scope := (Run.Spares.execEach n list scope).keepsVariables

/-- A variable of a block is not there after the block. -/
theorem var_ends_with_its_block :
    (evaluate "\x7b var x = 1; \x7d console.log(x);" "" ⟨20000⟩).bind Draft.error =
      some "ReferenceError: x is not defined" := by
  decide +kernel

end Snippet.Script
