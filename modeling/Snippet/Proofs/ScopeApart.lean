import Snippet.Proofs.CallNesting
import Snippet.Proofs.VariableScope

/-!
Evaluation outside of a scope. What is evaluated elsewhere than in a scope and in those that were made within
it leaves them all alone, up to where a function is called that was made there.
-/

namespace Snippet.Script

namespace Heap

variable {h h' : Heap} {s t o : ScopeRef} {name : String} {b : Binding}

inductive Within (h : Heap) (s : ScopeRef) : ScopeRef → Prop where
  | self (hs : s.address < h.scopes.size) : Within h s s
  | inner {t p : ScopeRef} (ht : t.address < h.scopes.size) (hparent : (h.scope t).parent = some p)
    (hp : Within h s p) : Within h s t

inductive Rooted (h : Heap) : ScopeRef → Prop where
  | top {t : ScopeRef} (ht : t.address < h.scopes.size) (hparent : (h.scope t).parent = none) : Rooted h t
  | inner {t p : ScopeRef} (ht : t.address < h.scopes.size) (hparent : (h.scope t).parent = some p)
    (hless : p.address < t.address) (hp : Rooted h p) : Rooted h t

theorem Within.lt_size (ht : h.Within s t) : t.address < h.scopes.size := by
  cases ht with
  | self hs => exact hs
  | inner ht _ _ => exact ht

/-- A scope around one that is not within `s` is not within it either. -/
theorem not_within_parent (ht : ¬ h.Within s t) {p : ScopeRef} (hparent : (h.scope t).parent = some p) :
    ¬ h.Within s p := by
  intro hp
  refine ht (.inner (Nat.lt_of_not_le fun hsize => ?_) hparent hp)
  -- Nothing is around a scope that there is not.
  unfold scope at hparent
  rw [Array.getD_eq_getD_getElem?, Array.getElem?_eq_none hsize] at hparent
  cases hparent

namespace Rooted

theorem lt_size (ht : h.Rooted t) : t.address < h.scopes.size := by
  cases ht with
  | top ht _ => exact ht
  | inner ht _ _ _ => exact ht

/-- What was made within a scope is younger. -/
theorem le_of_within (ht : h.Rooted t) (hwithin : h.Within s t) : s.address ≤ t.address := by
  induction ht with
  | top _ htop =>
    cases hwithin with
    | self _ => exact Nat.le_refl _
    | inner _ hparent _ =>
      rw [htop] at hparent
      cases hparent
  | inner _ hparent hless _ ih =>
    cases hwithin with
    | self _ => exact Nat.le_refl _
    | inner _ hparent' hp =>
      rw [hparent] at hparent'
      cases hparent'
      exact Nat.le_trans (ih hp) (Nat.le_of_lt hless)

/-- Whatever scope is seen from a rooted one is rooted. -/
theorem of_sees (ht : h.Rooted t) (hsees : h.Sees name t o b) : h.Rooted o := by
  induction hsees with
  | own _ _ => exact ht
  | around _ _ hparent _ _ ih =>
    cases ht with
    | top _ htop =>
      rw [htop] at hparent
      cases hparent
    | inner _ hparent' _ hp =>
      rw [hparent] at hparent'
      cases hparent'
      exact ih hp

/-- A scope stays where it is, whatever is declared. -/
theorem outlasts {declares : ScopeRef → String → Prop} (ht : h.Rooted t) (hold : Outlasts declares h h') :
    h'.Rooted t := by
  induction ht with
  | top ht htop => exact .top (Nat.lt_of_lt_of_le ht hold.size_le) ((hold.parent_eq _ ht).trans htop)
  | inner ht hparent hless _ ih =>
    exact .inner (Nat.lt_of_lt_of_le ht hold.size_le) ((hold.parent_eq _ ht).trans hparent) hless ih

/-- A scope that is made within another one is younger. -/
theorem child (ht : h.Rooted t) (bindings : List (String × Binding)) :
    Heap.Rooted { h with scopes := h.scopes.push { bindings, parent := some t } } ⟨h.scopes.size⟩ := by
  refine .inner (p := t) ?_ ?_ ht.lt_size ?_
  · exact Array.size_push _ ▸ Nat.lt_succ_self _
  · rw [scope_push_self]
  · have hpush : h.Outlasts nowhere { h with scopes := h.scopes.push { bindings, parent := some t } } :=
      (Outlasts.refl h).push _
    exact ht.outlasts hpush

end Rooted

/-- A name that a scope binds is seen, from everywhere within the scope, as a binding of a scope within it. -/
theorem Within.sees (hwithin : h.Within s t) (ht : h.Rooted t) (hb : h.own? s name = some b) :
    ∃ o c, h.Sees name t o c ∧ h.Within s o := by
  induction hwithin with
  | self hs => exact ⟨s, b, .own hs hb, .self hs⟩
  | @inner t p hsize hparent hp ih =>
    cases hown : h.own? t name with
    | some c => exact ⟨t, c, .own hsize hown, .inner hsize hparent hp⟩
    | none =>
      cases ht with
      | top _ htop =>
        rw [htop] at hparent
        cases hparent
      | inner _ hparent' hless hrooted =>
        rw [hparent] at hparent'
        cases hparent'
        obtain ⟨o, c, hsees, ho⟩ := ih hrooted
        exact ⟨o, c, .around hsize hown hparent hless hsees, ho⟩

/-- What is seen within a scope as a binding within it is still so if nothing has changed there. -/
theorem Sees.kept (hsees : h.Sees name t o b) (hs : h.Rooted s) (ht : h.Within s t) (ho : h.Within s o)
    (hsize : h.scopes.size ≤ h'.scopes.size) (hkept : ∀ u, h.Within s u → h'.scope u = h.scope u) :
    h'.Sees name t o b := by
  induction hsees with
  | own hlt hb =>
    refine .own (Nat.lt_of_lt_of_le hlt hsize) ?_
    unfold own? at hb ⊢
    rw [hkept _ ht]
    exact hb
  | @around t p o b hlt hunbound hparent hless hp ih =>
    have hsame := hkept _ ht
    have hinner : h.Within s p := by
      cases ht with
      | self hsize =>
        -- From the scope itself the name would be seen as a binding further out.
        have hsees : h.Sees name s o b := .around hsize hunbound hparent hless hp
        have hle : s.address ≤ o.address := (hs.of_sees hsees).le_of_within ho
        exact absurd (Nat.lt_of_le_of_lt hp.le_address hless) (Nat.not_lt_of_le hle)
      | inner _ hparent' hp' =>
        rw [hparent] at hparent'
        cases hparent'
        exact hp'
    refine .around (Nat.lt_of_lt_of_le hlt hsize) ?_ ?_ hless (ih hinner ho)
    · unfold own? at hunbound ⊢
      rw [hsame]
      exact hunbound
    · rw [hsame]
      exact hparent

end Heap

structure KeptApart (inner : ScopeRef → Prop) (old : Heap) (m : Machine) : Prop where
  lt_size : ∀ s, inner s → s.address < old.scopes.size
  global : ¬ inner globalScope
  size_le : old.scopes.size ≤ m.heap.scopes.size
  kept : ∀ s, inner s → m.heap.scope s = old.scope s
  outside : ∀ s p, ¬ inner s → (m.heap.scope s).parent = some p → ¬ inner p

namespace KeptApart

variable {inner : ScopeRef → Prop} {old : Heap} {m m' : Machine}

theorem of_scopes_eq (hm : KeptApart inner old m) (heq : m'.heap.scopes = m.heap.scopes) :
    KeptApart inner old m' := by
  have hscope (s : ScopeRef) : m'.heap.scope s = m.heap.scope s := by
    unfold Heap.scope
    rw [heq]
  refine ⟨hm.lt_size, hm.global, heq ▸ hm.size_le, fun s hs => (hscope s).trans (hm.kept s hs), ?_⟩
  intro s p hs hparent
  rw [hscope] at hparent
  exact hm.outside s p hs hparent

/-- A declaration elsewhere leaves the scopes within alone. -/
theorem declare (hm : KeptApart inner old m) {t : ScopeRef} (ht : ¬ inner t) (name : String) (b : Binding) :
    KeptApart inner old { m with heap := m.heap.declare t name b } := by
  refine ⟨hm.lt_size, hm.global, Nat.le_trans hm.size_le (Nat.le_of_eq Heap.size_declare.symm), ?_, ?_⟩
  · intro s hs
    have hne : s ≠ t := fun heq => ht (heq ▸ hs)
    change (m.heap.declare t name b).scope s = _
    rw [Heap.scope_declare, if_neg fun hc => hne hc.1]
    exact hm.kept s hs
  · intro s p hs hparent
    exact hm.outside s p hs (Heap.parent_declare.symm.trans hparent)

/-- A search that begins outside ends there. -/
theorem resolveWithin? (hm : KeptApart inner old m) {name : String} {fuel : Nat} {s o : ScopeRef} {b : Binding}
    (hs : ¬ inner s) (hfound : m.heap.resolveWithin? name fuel s = some (o, b)) : ¬ inner o := by
  induction fuel generalizing s with
  | zero => cases hfound
  | succ fuel ih =>
    unfold Heap.resolveWithin? at hfound
    dsimp only at hfound
    split at hfound
    · cases hfound
      exact hs
    · split at hfound
      · next p hparent => exact ih (hm.outside s p hs hparent) hfound
      · cases hfound

/-- What a name resolves to from outside of a scope stands outside of it. -/
theorem resolve? (hm : KeptApart inner old m) {name : String} {s o : ScopeRef} {b : Binding}
    (hs : ¬ inner s) (hfound : m.heap.resolve? s name = some (o, b)) : ¬ inner o := by
  unfold Heap.resolve? at hfound
  cases hwithin : m.heap.resolveWithin? name (s.address + 1) s with
  | some found =>
    rw [hwithin] at hfound
    cases hfound
    exact hm.resolveWithin? hs hwithin
  | none =>
    rw [hwithin] at hfound
    obtain ⟨c, -, heq⟩ := Option.map_eq_some_iff.mp hfound
    cases heq
    exact hm.global

instance : ScopeCondition (KeptApart inner old) := ⟨of_scopes_eq⟩

instance : DeclarationRules (KeptApart inner old) (fun s => ¬ inner s) (fun s _ => ¬ inner s) where
  declare hfree v isMutable m hm := ⟨trivial, hm.declare hfree _ _⟩
  makeScope {scope} hparent m hm := by
    have hnew : ¬ inner ⟨m.heap.scopes.size⟩ := fun hc =>
      Nat.not_lt_of_le hm.size_le (hm.lt_size _ hc)
    refine ⟨⟨hnew, fun _ => hnew⟩, hm.lt_size, hm.global, ?_, ?_, ?_⟩
    · exact Nat.le_trans hm.size_le (Array.size_push scope ▸ Nat.le_succ _)
    · intro s hs
      have hne : s.address ≠ m.heap.scopes.size := fun heq => hnew (heq ▸ hs)
      exact (Heap.scope_push_of_ne hne).trans (hm.kept s hs)
    · intro s p hs hp
      change (Heap.scope { m.heap with scopes := m.heap.scopes.push scope } s).parent = some p at hp
      by_cases hlast : s.address = m.heap.scopes.size
      · obtain rfl : s = ⟨m.heap.scopes.size⟩ := congrArg ScopeRef.mk hlast
        rw [Heap.scope_push_self] at hp
        exact hparent p hp
      · rw [Heap.scope_push_of_ne hlast] at hp
        exact hm.outside s p hs hp
  assignName name v {s} hs m hm := by
    unfold Run.assignName
    rw [run_bind_ok (x := Run.heap) rfl]
    cases hr : m.heap.resolve? s name with
    | none => exact ⟨trivial, hm.declare hm.global _ _⟩
    | some found =>
      obtain ⟨o, b⟩ := found
      dsimp only
      split
      · exact ⟨trivial, hm.declare (hm.resolve? hs hr) _ _⟩
      · exact ⟨trivial, hm⟩

end KeptApart

/-- Evaluation upholds a condition on the scopes if it enters only functions that were made in its homes. -/
theorem evaluatorUnder_sustains {S : Machine → Prop} {home : ScopeRef → Prop}
    {free : ScopeRef → String → Prop} [ScopeCondition S] [DeclarationRules S home free] {σ : Type}
    {rule : CallRule σ}
    (hrule : ∀ s f s' scope, rule s f = some s' → f.scope? = some scope → home scope) (n : Nat) (s : σ) :
    (evaluatorUnder rule n s).Sustains S home free := by
  induction n generalizing s with
  | zero => exact evaluator_zero_sustains
  | succ n ih =>
    have henter {α : Type} {f : Value} {x : σ → Run α}
        (hx : ∀ s', (∀ scope, f.scope? = some scope → home scope) → Upholds S Any (x s')) :
        Upholds S Any (rule.enter s f x) := by
      unfold CallRule.enter
      cases hs : rule s f with
      | none => exact Upholds.throw _
      | some s' => exact hx s' fun scope hscope => hrule s f s' scope hs hscope
    exact (ih s).layerWith
      (fun f receiver arguments => henter fun s' => (ih s').runCall f receiver arguments)
      fun f arguments label => henter fun s' => (ih s').runConstruct f arguments label

open Classical in
noncomputable def CallRule.outside (inner : ScopeRef → Prop) : CallRule Unit := fun _ f =>
  if ∃ s, f.scope? = some s ∧ inner s then none else some ()

noncomputable def evaluatorOutside (inner : ScopeRef → Prop) (n : Nat) : Evaluator :=
  evaluatorUnder (.outside inner) n ()

theorem evaluatorOutside_sustains (inner : ScopeRef → Prop) (old : Heap) (n : Nat) :
    (evaluatorOutside inner n).Sustains (KeptApart inner old) (fun s => ¬ inner s) (fun s _ => ¬ inner s) := by
  refine evaluatorUnder_sustains (fun _ f _ scope hf hscope hinner => ?_) n ()
  unfold CallRule.outside at hf
  rw [if_pos ⟨scope, hscope, hinner⟩] at hf
  cases hf

theorem evaluatorOutside_refines (inner : ScopeRef → Prop) (n c : Nat) :
    EvaluatorsRelated refining c Any (evaluatorOutside inner n) (evaluator n) := by
  rw [← evaluatorUnder_free]
  exact evaluatorUnder_refines (follows_free _) n trivial

structure LeavesAlone (s : ScopeRef) (m : Machine) {α : Type} (x : Evaluator → Run α) (n : Nat) : Prop where
  -- From a state on, what is evaluated leaves a scope and those within it alone unless it calls a
  -- function that was made there: up to such a call nothing changes in them, and from within them
  -- everything that they bind is seen as before.
  kept : ∀ t, m.heap.Within s t →
    (finalState (x (evaluatorOutside (m.heap.Within s) n) m)).heap.scope t = m.heap.scope t
  seen : ∀ name t o b, m.heap.Within s t → m.heap.Within s o → m.heap.Sees name t o b →
    (finalState (x (evaluatorOutside (m.heap.Within s) n) m)).heap.Sees name t o b
  same : CutOff (x (evaluatorOutside (m.heap.Within s) n) m) ∨
    x (evaluator n) m = x (evaluatorOutside (m.heap.Within s) n) m

/-- What upholds all that evaluation outside of a scope upholds, and follows its refinement, leaves the scope
alone. -/
theorem LeavesAlone.of_sustains {s : ScopeRef} {m : Machine} {α : Type} {V W : α → Prop}
    {x : Evaluator → Run α} (hs : m.heap.Rooted s) (hglobal : ¬ m.heap.Within s globalScope)
    (hdepth : m.callDepth ≤ maxCallDepth)
    (hx : ∀ ev : Evaluator, ev.Sustains (KeptApart (m.heap.Within s) m.heap) (fun t => ¬ m.heap.Within s t)
      (fun t _ => ¬ m.heap.Within s t) → Upholds (KeptApart (m.heap.Within s) m.heap) V (x ev))
    (hrefines : ∀ c ev ev', EvaluatorsRelated refining c Any ev ev' → Refines c W (x ev) (x ev'))
    (n : Nat) : LeavesAlone s m x n := by
  have hapart : KeptApart (m.heap.Within s) m.heap m :=
    ⟨fun _ => Heap.Within.lt_size, hglobal, Nat.le_refl _, fun _ _ => rfl,
      fun _ _ ht hp => Heap.not_within_parent ht hp⟩
  have hfinal := (hx _ (evaluatorOutside_sustains (m.heap.Within s) m.heap n) m hapart).final
  refine ⟨hfinal.kept, fun _ _ _ _ ht ho hsees => hsees.kept hs ht ho hfinal.size_le hfinal.kept, ?_⟩
  have hsame := hrefines (maxCallDepth - m.callDepth) _ _ (evaluatorOutside_refines (m.heap.Within s) n _)
  exact (hsame m (Nat.add_sub_cancel' hdepth)).imp id And.left

end Snippet.Script
