import Snippet.Proofs.UpholdingCall
import Snippet.Proofs.Timeout

/-!
The bindings that scopes have for names: what a declaration changes, what a search finds, and which of them
outlast a part of a run.
-/

namespace Snippet.Script

namespace Scope

/-- Putting a binding into a list changes that of its own name only. -/
theorem lookup_put {name : String} {b : Binding} {bindings bindings' : List (String × Binding)}
    (h : put name b bindings = some bindings') (x : String) :
    bindings'.lookup x = if x = name then some b else bindings.lookup x := by
  induction bindings generalizing bindings' with
  | nil => cases h
  | cons e rest ih =>
    obtain ⟨k, c⟩ := e
    unfold put at h
    by_cases hk : (k == name) = true
    · rw [if_pos hk] at h
      cases h
      obtain rfl := eq_of_beq hk
      by_cases hx : x = k
      · subst hx
        rw [if_pos rfl, List.lookup_cons_self]
      · rw [if_neg hx, List.lookup_cons, List.lookup_cons, beq_false_of_ne hx]
    · rw [if_neg hk] at h
      obtain ⟨rest', hrest, rfl⟩ := Option.map_eq_some_iff.mp h
      rw [List.lookup_cons, List.lookup_cons, ih hrest]
      by_cases hx : x = k
      · subst hx
        have hne : x ≠ name := fun heq => hk (beq_iff_eq.mpr heq)
        rw [beq_self_eq_true, if_neg hne, if_neg hne]
      · rw [beq_false_of_ne hx]

/-- A declaration changes the binding of its own name only. -/
theorem lookup_declare (s : Scope) (name : String) (b : Binding) (x : String) :
    (s.declare name b).bindings.lookup x = if x = name then some b else s.bindings.lookup x := by
  unfold declare
  cases hput : put name b s.bindings with
  | some bindings => exact lookup_put hput x
  | none =>
    change List.lookup x ((name, b) :: s.bindings) = _
    rw [List.lookup_cons]
    by_cases hx : x = name
    · rw [if_pos hx, beq_iff_eq.mpr hx]
    · rw [if_neg hx, beq_false_of_ne hx]

theorem parent_declare (s : Scope) (name : String) (b : Binding) :
    (s.declare name b).parent = s.parent := by
  unfold declare
  cases put name b s.bindings <;> rfl

end Scope

namespace Heap

variable {h h' : Heap} {s t : ScopeRef} {name x : String} {b : Binding}

def own? (h : Heap) (s : ScopeRef) (name : String) : Option Binding := (h.scope s).bindings.lookup name

/-- Only a scope that there is binds names. -/
theorem lt_size_of_own? (hb : h.own? s name = some b) : s.address < h.scopes.size := by
  refine Nat.lt_of_not_le fun hs => ?_
  unfold own? scope at hb
  rw [Array.getD_eq_getD_getElem?, Array.getElem?_eq_none hs] at hb
  cases hb

/-- A declaration changes its own scope only, and only where there is one. -/
theorem scope_declare (h : Heap) (t : ScopeRef) (name : String) (b : Binding) (s : ScopeRef) :
    (h.declare t name b).scope s =
      if s = t ∧ t.address < h.scopes.size then (h.scope s).declare name b else h.scope s := by
  unfold scope declare
  rw [Array.getD_eq_getD_getElem?, Array.getD_eq_getD_getElem?, Array.getElem?_modify]
  by_cases hst : s = t
  · subst hst
    rw [if_pos rfl]
    by_cases hs : s.address < h.scopes.size
    · rw [if_pos ⟨rfl, hs⟩, Array.getElem?_eq_getElem hs]
      rfl
    · rw [if_neg fun hc => hs hc.2, Array.getElem?_eq_none (Nat.le_of_not_lt hs)]
      rfl
  · have hne : t.address ≠ s.address := fun heq => hst (by cases s; cases t; exact congrArg _ heq.symm)
    rw [if_neg hne, if_neg fun hc => hst hc.1]

/-- A declaration changes one binding of one scope. -/
theorem own?_declare (ht : t.address < h.scopes.size) :
    (h.declare t name b).own? s x = if s = t ∧ x = name then some b else h.own? s x := by
  unfold own?
  rw [scope_declare]
  by_cases hst : s = t
  · rw [if_pos ⟨hst, ht⟩, Scope.lookup_declare]
    by_cases hx : x = name
    · rw [if_pos hx, if_pos ⟨hst, hx⟩]
    · rw [if_neg hx, if_neg fun hc => hx hc.2]
  · rw [if_neg fun hc => hst hc.1, if_neg fun hc => hst hc.1]

/-- Nothing is declared in a scope that there is not. -/
theorem own?_declare_of_le (ht : h.scopes.size ≤ t.address) : (h.declare t name b).own? s x = h.own? s x := by
  unfold own?
  rw [scope_declare, if_neg fun hc => Nat.not_lt_of_le ht hc.2]

theorem parent_declare : ((h.declare t name b).scope s).parent = (h.scope s).parent := by
  rw [scope_declare]
  split
  · exact Scope.parent_declare _ _ _
  · rfl

theorem size_declare : (h.declare t name b).scopes.size = h.scopes.size := Array.size_modify

theorem scope_push_of_ne {scope : Scope} (hs : s.address ≠ h.scopes.size) :
    Heap.scope { h with scopes := h.scopes.push scope } s = h.scope s := by
  unfold Heap.scope
  rw [Array.getD_eq_getD_getElem?, Array.getD_eq_getD_getElem?, Array.getElem?_push, if_neg hs]

theorem scope_push_self {scope : Scope} :
    Heap.scope { h with scopes := h.scopes.push scope } ⟨h.scopes.size⟩ = scope := by
  unfold Heap.scope
  rw [Array.getD_eq_getD_getElem?, Array.getElem?_push_size]
  rfl

theorem scope_push {scope : Scope} (hs : s.address < h.scopes.size) :
    Heap.scope { h with scopes := h.scopes.push scope } s = h.scope s :=
  scope_push_of_ne (Nat.ne_of_lt hs)

/-- What is found is bound in the scope in which it is found. -/
theorem own?_of_resolveWithin? {fuel : Nat} {o : ScopeRef}
    (hr : h.resolveWithin? name fuel s = some (o, b)) : h.own? o name = some b := by
  induction fuel generalizing s with
  | zero => cases hr
  | succ fuel ih =>
    unfold resolveWithin? at hr
    dsimp only at hr
    split at hr
    · next hb =>
      cases hr
      exact hb
    · split at hr
      · exact ih hr
      · cases hr

/-- Where a name resolves to, it is bound there itself. -/
theorem own?_of_resolve? {o : ScopeRef} (hr : h.resolve? s name = some (o, b)) :
    h.own? o name = some b := by
  unfold resolve? at hr
  cases hfound : h.resolveWithin? name (s.address + 1) s with
  | some found =>
    rw [hfound] at hr
    cases hr
    exact own?_of_resolveWithin? hfound
  | none =>
    rw [hfound] at hr
    obtain ⟨b', hb, heq⟩ := Option.map_eq_some_iff.mp hr
    cases heq
    exact hb

/-- What is not found is not bound in the scope around all others. -/
theorem own?_of_resolve?_none (hr : h.resolve? s name = none) : h.own? globalScope name = none := by
  unfold resolve? at hr
  cases hfound : h.resolveWithin? name (s.address + 1) s with
  | some found =>
    rw [hfound] at hr
    cases hr
  | none =>
    rw [hfound] at hr
    exact Option.map_eq_none_iff.mp hr

/-- What outlasts a part of a run in the scopes that there are at its beginning, where names may be declared
in some of them. Scopes keep the scopes around them, and names stay bound. A name that is not declared keeps
its binding if that is constant, and otherwise stays one that may be assigned; outside of the scope around
all others it is not bound where it was not. -/
structure Outlasts (declares : ScopeRef → String → Prop) (h h' : Heap) : Prop where
  size_le : h.scopes.size ≤ h'.scopes.size
  parent_eq : ∀ s : ScopeRef, s.address < h.scopes.size → (h'.scope s).parent = (h.scope s).parent
  bound : ∀ (s : ScopeRef) name b, s.address < h.scopes.size → h.own? s name = some b →
    ∃ b', h'.own? s name = some b'
  constant : ∀ (s : ScopeRef) name b, s.address < h.scopes.size → ¬ declares s name →
    h.own? s name = some b → b.mutable = false → h'.own? s name = some b
  assignable : ∀ (s : ScopeRef) name b, s.address < h.scopes.size → ¬ declares s name →
    h.own? s name = some b → b.mutable = true → ∃ v, h'.own? s name = some ⟨v, true⟩
  unbound : ∀ (s : ScopeRef) name, s.address < h.scopes.size → s ≠ globalScope → ¬ declares s name →
    h.own? s name = none → h'.own? s name = none

namespace Outlasts

variable {declares : ScopeRef → String → Prop} {old : Heap}

theorem refl (h : Heap) : Outlasts declares h h where
  size_le := Nat.le_refl _
  parent_eq _ _ := rfl
  bound _ _ b _ hb := ⟨b, hb⟩
  constant _ _ _ _ _ hb _ := hb
  assignable _ _ b _ _ hb hm := ⟨b.value, by rw [hb, ← hm]⟩
  unbound _ _ _ _ _ hb := hb

/-- Nothing has changed in the scopes that there were at the beginning. -/
theorem of_eq (hold : Outlasts declares old h) (hsize : h.scopes.size ≤ h'.scopes.size)
    (hparent : ∀ s : ScopeRef, s.address < old.scopes.size → (h'.scope s).parent = (h.scope s).parent)
    (hown : ∀ (s : ScopeRef) x, s.address < old.scopes.size → h'.own? s x = h.own? s x) :
    Outlasts declares old h' := by
  refine ⟨Nat.le_trans hold.size_le hsize, fun s hs => (hparent s hs).trans (hold.parent_eq s hs), ?_, ?_, ?_, ?_⟩
  · exact fun s name b hs hb => hown s name hs ▸ hold.bound s name b hs hb
  · exact fun s name b hs hd hb hm => hown s name hs ▸ hold.constant s name b hs hd hb hm
  · exact fun s name b hs hd hb hm => hown s name hs ▸ hold.assignable s name b hs hd hb hm
  · exact fun s name hs hg hd hb => hown s name hs ▸ hold.unbound s name hs hg hd hb

/-- Only the scopes matter. -/
theorem of_scopes_eq (hold : Outlasts declares old h) (heq : h'.scopes = h.scopes) :
    Outlasts declares old h' := by
  have hscope (s : ScopeRef) : h'.scope s = h.scope s := by
    unfold Heap.scope
    rw [heq]
  refine hold.of_eq (heq ▸ Nat.le_refl _) (fun s _ => by rw [hscope]) fun s x _ => ?_
  unfold own?
  rw [hscope]

/-- A new scope changes nothing in the others. -/
theorem push (hold : Outlasts declares old h) (scope : Scope) :
    Outlasts declares old { h with scopes := h.scopes.push scope } := by
  have hscope {s : ScopeRef} (hs : s.address < old.scopes.size) :
      Heap.scope { h with scopes := h.scopes.push scope } s = h.scope s :=
    scope_push (Nat.lt_of_lt_of_le hs hold.size_le)
  refine hold.of_eq (Array.size_push scope ▸ Nat.le_succ _) (fun s hs => by rw [hscope hs]) fun s x hs => ?_
  unfold own?
  rw [hscope hs]

/-- Changing one binding: what is asked of it depends on what it was at the beginning. -/
theorem declare (hold : Outlasts declares old h) (t : ScopeRef) (name : String) (b : Binding)
    (hconstant : ∀ c, t.address < old.scopes.size → ¬ declares t name → old.own? t name = some c →
      c.mutable = false → b = c)
    (hassignable : ∀ c, t.address < old.scopes.size → ¬ declares t name → old.own? t name = some c →
      c.mutable = true → b.mutable = true)
    (hunbound : t.address < old.scopes.size → t ≠ globalScope → ¬ declares t name →
      old.own? t name ≠ none) :
    Outlasts declares old (h.declare t name b) := by
  by_cases ht : t.address < h.scopes.size
  · refine ⟨Nat.le_trans hold.size_le (Nat.le_of_eq size_declare.symm),
      fun s hs => parent_declare.trans (hold.parent_eq s hs), ?_, ?_, ?_, ?_⟩
    · -- A name is bound as before, or it is the one that has been declared.
      intro s x c hs hc
      rw [own?_declare ht]
      split
      · exact ⟨b, rfl⟩
      · exact hold.bound s x c hs hc
    · intro s x c hs hd hc hm
      rw [own?_declare ht]
      split
      · next heq =>
        obtain ⟨rfl, rfl⟩ := heq
        rw [hconstant c hs hd hc hm]
      · exact hold.constant s x c hs hd hc hm
    · intro s x c hs hd hc hm
      rw [own?_declare ht]
      split
      · next heq =>
        obtain ⟨rfl, rfl⟩ := heq
        exact ⟨b.value, by rw [← hassignable c hs hd hc hm]⟩
      · exact hold.assignable s x c hs hd hc hm
    · intro s x hs hg hd hc
      rw [own?_declare ht]
      split
      · next heq =>
        obtain ⟨rfl, rfl⟩ := heq
        exact absurd hc (hunbound hs hg hd)
      · exact hold.unbound s x hs hg hd hc
  · -- There is no such scope, so the declaration changes none.
    refine hold.of_eq (Nat.le_of_eq size_declare.symm) (fun _ _ => parent_declare) fun _ _ _ => ?_
    exact own?_declare_of_le (Nat.le_of_not_lt ht)

/-- An assignment changes a variable that may be assigned, or makes one in the scope around all others. -/
theorem assign (hold : Outlasts declares old h) {o : ScopeRef} (v : Value)
    (ho : (∃ b, h.own? o name = some b ∧ b.mutable = true) ∨ o = globalScope ∧ h.own? o name = none) :
    Outlasts declares old (h.declare o name ⟨v, true⟩) := by
  refine hold.declare o name ⟨v, true⟩ ?_ (fun _ _ _ _ _ => rfl) ?_
  · intro c hs hd hc hm
    have hsame := hold.constant o name c hs hd hc hm
    obtain ⟨b, hb, hmutable⟩ | ⟨-, hnone⟩ := ho
    · rw [hsame] at hb
      cases hb
      rw [hm] at hmutable
      cases hmutable
    · rw [hsame] at hnone
      cases hnone
  · intro hs hg hd hc
    have hsame := hold.unbound o name hs hg hd hc
    obtain ⟨b, hb, -⟩ | ⟨hglobal, -⟩ := ho
    · rw [hsame] at hb
      cases hb
    · exact hg hglobal

end Outlasts

inductive Sees (h : Heap) (name : String) : ScopeRef → ScopeRef → Binding → Prop where
  -- From a scope a name is seen as a binding of another one: that is the nearest one around it, or
  -- the scope itself, that binds the name.
  | own {s : ScopeRef} {b : Binding} (hs : s.address < h.scopes.size) (hb : h.own? s name = some b) :
    Sees h name s s b
  | around {s p o : ScopeRef} {b : Binding} (hs : s.address < h.scopes.size)
    (hunbound : h.own? s name = none) (hparent : (h.scope s).parent = some p)
    (hless : p.address < s.address) (hp : Sees h name p o b) : Sees h name s o b

namespace Sees

variable {o : ScopeRef}

theorem own?_eq (hsees : h.Sees name s o b) : h.own? o name = some b := by
  induction hsees with
  | own hs hb => exact hb
  | around hs hunbound hparent hless hp ih => exact ih

theorem lt_size (hsees : h.Sees name s o b) : o.address < h.scopes.size := by
  induction hsees with
  | own hs hb => exact hs
  | around hs hunbound hparent hless hp ih => exact ih

theorem le_address (hsees : h.Sees name s o b) : o.address ≤ s.address := by
  induction hsees with
  | own hs hb => exact Nat.le_refl _
  | around hs hunbound hparent hless hp ih => exact Nat.le_trans ih (Nat.le_of_lt hless)

/-- A binding that is seen is found within as many steps as the scope has an address. -/
theorem resolveWithin? (hsees : h.Sees name s o b) {fuel : Nat} (hfuel : s.address < fuel) :
    h.resolveWithin? name fuel s = some (o, b) := by
  induction hsees generalizing fuel with
  | own hs hb =>
    obtain ⟨n, rfl⟩ := Nat.exists_eq_succ_of_ne_zero (Nat.ne_of_gt (Nat.zero_lt_of_lt hfuel))
    unfold Heap.resolveWithin?
    dsimp only
    unfold own? at hb
    rw [hb]
  | around hs hunbound hparent hless hp ih =>
    -- The scope around is older, so there is fuel left for it.
    obtain ⟨n, rfl⟩ := Nat.exists_eq_succ_of_ne_zero (Nat.ne_of_gt (Nat.zero_lt_of_lt hfuel))
    unfold Heap.resolveWithin?
    dsimp only
    unfold own? at hunbound
    rw [hunbound, hparent]
    exact ih (Nat.lt_of_lt_of_le hless (Nat.le_of_lt_succ hfuel))

theorem resolve?_eq (hsees : h.Sees name s o b) : h.resolve? s name = some (o, b) := by
  unfold resolve?
  rw [hsees.resolveWithin? (Nat.lt_succ_self _)]
  rfl

/-- The value of a name is that of the binding as which it is seen. -/
theorem lookup?_eq (hsees : h.Sees name s o b) : h.lookup? s name = some b.value := by
  unfold lookup?
  rw [hsees.resolve?_eq]
  rfl

/-- What is seen is still seen after a part of a run that declares the name in none of the scopes between. -/
theorem outlasts {declares : ScopeRef → String → Prop} (hsees : h.Sees name s o b)
    (hold : Outlasts declares h h')
    (hdeclares : ∀ u : ScopeRef, o.address < u.address → u.address ≤ s.address → ¬ declares u name) :
    ∃ b', h'.Sees name s o b' := by
  induction hsees with
  | own hs hb =>
    obtain ⟨b', hb'⟩ := hold.bound _ _ _ hs hb
    exact ⟨b', .own (Nat.lt_of_lt_of_le hs hold.size_le) hb'⟩
  | @around s p o b hs hunbound hparent hless hp ih =>
    have hinside : o.address < s.address := Nat.lt_of_le_of_lt hp.le_address hless
    obtain ⟨b', hb'⟩ := ih fun u ho hu => hdeclares u ho (Nat.le_trans hu (Nat.le_of_lt hless))
    refine ⟨b', .around (Nat.lt_of_lt_of_le hs hold.size_le) ?_ ?_ hless hb'⟩
    · refine hold.unbound s name hs ?_ (hdeclares s hinside (Nat.le_refl _)) hunbound
      -- The scope around all others, in which assignments make variables, has no other one around it.
      rintro rfl
      exact Nat.not_lt_zero _ hinside
    · exact (hold.parent_eq s hs).trans hparent

/-- A constant that is seen is still the same. -/
theorem outlasts_constant {declares : ScopeRef → String → Prop} (hsees : h.Sees name s o b)
    (hold : Outlasts declares h h') (hdeclares : ∀ u, ¬ declares u name) (hb : b.mutable = false) :
    h'.Sees name s o b := by
  obtain ⟨b', hb'⟩ := hsees.outlasts hold fun u _ _ => hdeclares u
  have hsame := hold.constant o name b hsees.lt_size (hdeclares o) hsees.own?_eq hb
  rw [hb'.own?_eq] at hsame
  cases hsame
  exact hb'

end Sees

end Heap

namespace Heap

def MayDeclare (declares : ScopeRef → String → Prop) (old : Heap) (s : ScopeRef) (name : String) : Prop :=
  old.scopes.size ≤ s.address ∨ declares s name

def OutlastsUpTo (declares : ScopeRef → String → Prop) (old : Heap) (m : Machine) : Prop :=
  old.Outlasts declares m.heap

/-- By looking a name up before it is assigned an assignment is sure not to change a constant. -/
theorem upholds_assignName (declares : ScopeRef → String → Prop) (old : Heap) (name : String) (v : Value)
    (scope : ScopeRef) : Upholds (OutlastsUpTo declares old) Any (Run.assignName name v scope) := by
  intro m hm
  unfold Run.assignName
  rw [run_bind_ok (x := Run.heap) rfl]
  cases hr : m.heap.resolve? scope name with
  | none =>
    -- A name that is not found is declared in the scope around all others, which does not bind it.
    exact ⟨trivial, Outlasts.assign hm v (.inr ⟨rfl, own?_of_resolve?_none hr⟩)⟩
  | some found =>
    obtain ⟨owner, b⟩ := found
    dsimp only
    split
    · next hb => exact ⟨trivial, Outlasts.assign hm v (.inl ⟨b, own?_of_resolve? hr, hb⟩)⟩
    · exact ⟨trivial, hm⟩

instance (declares : ScopeRef → String → Prop) (old : Heap) :
    ScopeCondition (OutlastsUpTo declares old) where
  stable hm heq := Outlasts.of_scopes_eq hm heq

instance (declares : ScopeRef → String → Prop) (old : Heap) :
    DeclarationRules (OutlastsUpTo declares old) Any (MayDeclare declares old) where
  declare {scope name} hfree v isMutable m hm := by
    refine ⟨trivial, Outlasts.declare hm scope name ⟨v, isMutable⟩ ?_ ?_ ?_⟩
    · exact fun c hs hd _ _ => (hfree.elim (Nat.not_le_of_lt hs) hd).elim
    · exact fun c hs hd _ _ => (hfree.elim (Nat.not_le_of_lt hs) hd).elim
    · exact fun hs _ hd => (hfree.elim (Nat.not_le_of_lt hs) hd).elim
  makeScope {s} _ m hm := ⟨⟨trivial, fun _ => .inl hm.size_le⟩, Outlasts.push hm s⟩
  assignName name v {scope} _ := upholds_assignName declares old name v scope

end Heap

/-- Wherever evaluation takes place, what it spares of the scopes is the same. -/
theorem evaluator_spares {declares : ScopeRef → String → Prop} {old : Heap} (n : Nat) :
    (evaluator n).Sustains (Heap.OutlastsUpTo declares old) Any (Heap.MayDeclare declares old) :=
  evaluator_sustains (fun _ => trivial) n

def Run.Spares (declares : ScopeRef → String → Prop) {α : Type} (x : Run α) : Prop :=
  -- The scopes that there are at its beginning outlast a computation that declares names in some of
  -- them.
  ∀ m : Machine, m.heap.Outlasts declares (finalState (x m)).heap

namespace Run.Spares

variable {declares : ScopeRef → String → Prop} {α : Type}

theorem of_upholds {V : α → Prop} {x : Run α}
    (hx : ∀ old, Upholds (Heap.OutlastsUpTo declares old) V x) : x.Spares declares :=
  fun m => (hx m.heap m (Heap.Outlasts.refl _)).final

-- Evaluation declares names in scopes that there are only by statements of their own.

theorem eval (n : Nat) (e : Expr) (scope : ScopeRef) : ((evaluator n).eval e scope).Spares declares :=
  of_upholds fun _ => (evaluator_spares n).eval e trivial

theorem assign (n : Nat) (target : Expr) (v : Value) (scope : ScopeRef) :
    ((evaluator n).assign target v scope).Spares declares :=
  of_upholds fun _ => (evaluator_spares n).assign target v trivial

theorem call (n : Nat) (f receiver : Value) (arguments : List Value) :
    ((evaluator n).call f receiver arguments).Spares declares :=
  of_upholds fun _ => (evaluator_spares n).call f receiver arguments

theorem construct (n : Nat) (f : Value) (arguments : List Value) (label : String) :
    ((evaluator n).construct f arguments label).Spares declares :=
  of_upholds fun _ => (evaluator_spares n).construct f arguments label

theorem runTimers (n rounds : Nat) : (Run.runTimers (evaluator n) rounds).Spares declares :=
  of_upholds fun _ => (evaluator_spares n).runTimers rounds

theorem exec (n : Nat) (s : Stmt) (scope : ScopeRef) :
    ((evaluator n).exec s scope).Spares fun t name => t = scope ∧ name ∈ s.declared :=
  of_upholds fun _ => (evaluator_spares n).exec s trivial fun _ hname => .inr ⟨rfl, hname⟩

theorem execAll (n : Nat) (statements : List Stmt) (scope : ScopeRef) :
    (Run.execAll (evaluator n) statements scope).Spares
      fun t name => t = scope ∧ name ∈ declaredBy statements :=
  of_upholds fun _ => (evaluator_spares n).execAll trivial fun _ hname => .inr ⟨rfl, hname⟩

theorem execEach (n : Nat) (statements : List Stmt) (scope : ScopeRef) :
    (Run.execEach (evaluator n) scope statements).Spares
      fun t name => t = scope ∧ name ∈ declaredBy statements :=
  of_upholds fun _ => (evaluator_spares n).execEach trivial fun _ hname => .inr ⟨rfl, hname⟩

theorem program (statements : List Stmt) :
    (Run.program statements).Spares fun t name => t = globalScope ∧ name ∈ declaredBy statements := by
  refine of_upholds (V := Any) fun _ => Upholds.bind Upholds.rounds fun n _ => ?_
  exact (evaluator_spares _).programBy trivial statements fun _ hname => .inr ⟨rfl, hname⟩

end Run.Spares

/-- Assigning a name that is seen as a constant fails, and nothing changes. -/
theorem run_assignName_constant {m : Machine} {name : String} {s o : ScopeRef} {b : Binding}
    (hsees : m.heap.Sees name s o b) (hb : b.mutable = false) (v : Value) :
    Run.assignName name v s m = .error (.raised .constantAssignment) m := by
  unfold Run.assignName
  rw [run_bind_ok (x := Run.heap) rfl, hsees.resolve?_eq]
  dsimp only
  rw [hb]
  rfl

/-- Assigning a name that is seen as a variable changes this variable. -/
theorem run_assignName_variable {m : Machine} {name : String} {s o : ScopeRef} {b : Binding}
    (hsees : m.heap.Sees name s o b) (hb : b.mutable = true) (v : Value) :
    Run.assignName name v s m = .ok () { m with heap := m.heap.declare o name ⟨v, true⟩ } := by
  unfold Run.assignName
  rw [run_bind_ok (x := Run.heap) rfl, hsees.resolve?_eq]
  dsimp only
  rw [hb]
  rfl

end Snippet.Script
