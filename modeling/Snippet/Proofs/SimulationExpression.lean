import Snippet.Proofs.Simulation

/-!
A simulation that relates two evaluators on the parts of an expression relates them on the expression. The
cases follow the constructors of expressions.
-/

namespace Snippet.Script

namespace EvaluatorsRelated

variable {Q : Func → Prop} {ι : Type} {C : Simulation Q ι} {i : ι} {W : Part → Prop}
variable {ev ev' : Evaluator} (h : EvaluatorsRelated C i W ev ev')
include h

theorem keyOf {key : Key} (hkey : ∀ p ∈ key.parts, W p) (scope : ScopeRef) :
    C.Rel i Any (Run.keyOf ev scope key) (Run.keyOf ev' scope key) := by
  cases key with
  | named name => exact C.pure trivial
  | computed e =>
    refine C.bind (h.eval e scope (hkey _ List.mem_cons_self)) fun v _ => ?_
    exact C.quiet (Quiet.toText v)

theorem templateText {pieces : List Piece} (hpieces : ∀ p ∈ pieces.flatMap Piece.parts, W p)
    (scope : ScopeRef) (done : String) :
    C.Rel i Any (Run.templateText ev scope done pieces) (Run.templateText ev' scope done pieces) := by
  induction pieces generalizing done with
  | nil => exact C.pure trivial
  | cons piece rest ih =>
    rw [List.flatMap_cons] at hpieces
    have hrest := ih fun p hp => hpieces p (List.mem_append_right _ hp)
    cases piece with
    | text s => exact hrest _
    | value e =>
      have he : W (.expr e) := hpieces _ (List.mem_append_left _ List.mem_cons_self)
      refine C.bind (h.eval e scope he) fun v _ => ?_
      exact C.bind (C.quiet (Quiet.toStrictText v)) fun text _ => hrest _

/-- Elements and arguments, by induction on their list. -/
theorem evalItems {items : List Item} (hitems : ∀ p ∈ items.flatMap Item.parts, W p)
    (scope : ScopeRef) {done : List Value} (hd : AllHold Q done) :
    C.Rel i (AllHold Q) (Run.evalItems ev scope done items)
      (Run.evalItems ev' scope done items) := by
  induction items generalizing done with
  | nil => exact C.pure (allHold_reverse hd)
  | cons item rest ih =>
    obtain ⟨spread, e⟩ := item
    rw [List.flatMap_cons] at hitems
    have he : W (.expr e) := hitems _ (List.mem_append_left _ List.mem_cons_self)
    have hrest {done : List Value} := @ih (fun p hp => hitems p (List.mem_append_right _ hp)) done
    refine C.bind (h.eval e scope he) fun v hv => C.ite (fun _ => ?_) fun _ => ?_
    · refine C.bind (C.quiet (Quiet.iterate v)) fun xs hx => hrest ?_
      exact allHold_append (allHold_reverse (allHold_toList hx)) hd
    · exact hrest (allHold_cons hv hd)

/-- The members of an object literal are evaluated one by one, so related evaluators give related objects. -/
theorem evalMembers {members : List Member} (hmembers : ∀ p ∈ members.flatMap Member.parts, W p)
    (scope : ScopeRef) {o : Object} (ho : o.Holds Q) :
    C.Rel i (Object.Holds Q) (Run.evalMembers ev scope o members)
      (Run.evalMembers ev' scope o members) := by
  induction members generalizing o with
  | nil => exact C.pure ho
  | cons member rest ih =>
    rw [List.flatMap_cons] at hmembers
    have hmember (p : Part) (hp : p ∈ member.parts) : W p :=
      hmembers p (List.mem_append_left _ hp)
    have hrest {o : Object} := @ih (fun p hp => hmembers p (List.mem_append_right _ hp)) o
    cases member with
    | init key e =>
      have hkey (p : Part) (hp : p ∈ key.parts) : W p := hmember p (List.mem_append_left _ hp)
      have he : W (.expr e) := hmember _ (List.mem_append_right _ List.mem_cons_self)
      refine C.bind (h.keyOf hkey scope) fun key _ => C.bind (h.eval e scope he) fun v hv => ?_
      exact hrest (Object.holds_set ho key hv)
    | spread e =>
      refine C.bind (h.eval e scope (hmember _ List.mem_cons_self)) fun v hv => ?_
      exact C.bind (C.quiet (Quiet.spreadInto ho hv)) fun o ho => hrest ho

theorem evalSequence {items : List Expr} (hitems : ∀ p ∈ items.map Part.expr, W p)
    (scope : ScopeRef) {last : Value} (hl : last.Holds Q) :
    C.Rel i (Value.Holds Q) (Run.evalSequence ev scope last items)
      (Run.evalSequence ev' scope last items) := by
  induction items generalizing last with
  | nil => exact C.pure hl
  | cons e rest ih =>
    refine C.bind (h.eval e scope (hitems _ List.mem_cons_self)) fun v hv => ?_
    exact ih (fun p hp => hitems p (List.mem_cons_of_mem _ hp)) hv

theorem evalTypeOf {operand : Expr} (ho : W (.expr operand)) (scope : ScopeRef) :
    C.Rel i (Value.Holds Q) (Run.evalTypeOf ev scope operand)
      (Run.evalTypeOf ev' scope operand) := by
  unfold Run.evalTypeOf
  split
  · exact C.quiet (Quiet.bind (Quiet.lookup? scope _) fun _ _ => Quiet.pure trivial)
  · exact C.bind (h.eval _ scope ho) fun _ _ => C.pure trivial

theorem evalDelete {operand : Expr} (ho : W (.expr operand)) (scope : ScopeRef) :
    C.Rel i (Value.Holds Q) (Run.evalDelete ev scope operand)
      (Run.evalDelete ev' scope operand) := by
  have hparts := h.parts operand ho
  cases operand with
  | member subject key isOptional =>
    refine C.bind (h.eval subject scope (hparts _ List.mem_cons_self)) fun v _ => ?_
    refine C.bind (h.keyOf (fun p hp => hparts p (List.mem_cons_of_mem _ hp)) scope) fun key _ => ?_
    cases v with
    | object o =>
      refine C.bind (C.quiet (Quiet.modifyObject o fun object ho => ?_)) fun _ _ => C.pure trivial
      exact Object.holds_remove ho key
    | _ => exact C.pure trivial
  | _ => exact C.pure trivial

theorem evalUnary (op : UnaryOp) {operand : Expr} (ho : W (.expr operand)) (scope : ScopeRef) :
    C.Rel i (Value.Holds Q) (Run.evalUnary ev scope op operand)
      (Run.evalUnary ev' scope op operand) := by
  have hnumber {make : Float → Value} (hmake : ∀ x, (make x).isFunction = false) :
      C.Rel i (Value.Holds Q)
        (ev.eval operand scope >>= fun v => Run.toNumber v >>= fun x => pure (make x))
        (ev'.eval operand scope >>= fun v => Run.toNumber v >>= fun x => pure (make x)) := by
    refine C.bind (h.eval operand scope ho) fun v _ => C.quiet (Quiet.bind (Quiet.toNumber v) ?_)
    exact fun x _ => Quiet.pureValue (hmake x)
  cases op with
  | typeOf => exact h.evalTypeOf ho scope
  | delete => exact h.evalDelete ho scope
  | discard =>
    exact C.bind ((C.compositional i).discard (h.eval operand scope ho)) fun _ _ => C.pure trivial
  | neg => exact hnumber fun _ => rfl
  | plus => exact hnumber fun _ => rfl
  | bitNot => exact hnumber fun _ => rfl
  | not => exact C.bind (h.eval operand scope ho) fun _ _ => C.pure trivial

theorem evalUpdate (increment before : Bool) {target : Expr} (ht : W (.expr target))
    (hassigns : C.Assigns target) (scope : ScopeRef) :
    C.Rel i (Value.Holds Q) (Run.evalUpdate ev scope increment before target)
      (Run.evalUpdate ev' scope increment before target) := by
  refine C.bind (h.eval target scope ht) fun v _ => ?_
  refine C.bind (C.quiet (Quiet.toNumber v)) fun old _ => ?_
  exact C.bind (h.assign target _ scope ht hassigns trivial) fun _ _ => C.pure trivial

/-- An assignment respects a relation, for all targets and with or without an operator. -/
theorem evalAssign (op : Option BinaryOp) {target value : Expr} (ht : W (.expr target))
    (hassigns : C.Assigns target) (hv : W (.expr value)) (scope : ScopeRef) :
    C.Rel i (Value.Holds Q) (Run.evalAssign ev scope op target value)
      (Run.evalAssign ev' scope op target value) := by
  have hstore (v : Value) (hv : v.Holds Q) :
      C.Rel i (Value.Holds Q) (ev.assign target v scope >>= fun _ => pure v)
        (ev'.assign target v scope >>= fun _ => pure v) :=
    C.bind (h.assign target v scope ht hassigns hv) fun _ _ => C.pure hv
  cases op with
  | none => exact C.bind (h.eval value scope hv) hstore
  | some op =>
    refine C.bind (h.eval target scope ht) fun current hcurrent => ?_
    refine C.bind (h.eval value scope hv) fun operand hoperand => ?_
    exact C.bind (C.quiet (Quiet.binary op hcurrent hoperand)) hstore

theorem evalMember {subject : Expr} {key : Key} (hs : W (.expr subject))
    (hkey : ∀ p ∈ key.parts, W p) (isOptional : Bool) (scope : ScopeRef) :
    C.Rel i (Value.Holds Q) (Run.evalMember ev scope subject key isOptional)
      (Run.evalMember ev' scope subject key isOptional) := by
  refine C.bind (h.eval subject scope hs) fun v hv => C.ite (fun _ => C.pure trivial) fun _ => ?_
  exact C.bind (h.keyOf hkey scope) fun key _ => C.quiet (Quiet.getMember hv key)

/-- A callee and its receiver, if there is a callee, hold functions of `Q` only. -/
theorem evalCallee {callee : Expr} (hc : W (.expr callee)) (scope : ScopeRef) :
    C.Rel i (fun r => ∀ f receiver, r = some (f, receiver) → f.Holds Q ∧ receiver.Holds Q)
      (Run.evalCallee ev scope callee) (Run.evalCallee ev' scope callee) := by
  have hsome {f receiver : Value} (hf : f.Holds Q) (hr : receiver.Holds Q) :
      ∀ f' receiver', some (f, receiver) = some (f', receiver') →
        f'.Holds Q ∧ receiver'.Holds Q := by
    intro f' receiver' heq
    obtain ⟨rfl, rfl⟩ := Prod.mk.inj (Option.some.inj heq)
    exact ⟨hf, hr⟩
  have hparts := h.parts callee hc
  unfold Run.evalCallee
  split
  · refine C.bind (h.eval _ scope (hparts _ List.mem_cons_self)) fun receiver hr => ?_
    refine C.ite (fun _ => C.pure fun f receiver heq => nomatch heq) fun _ => ?_
    refine C.bind (h.keyOf (fun p hp => hparts p (List.mem_cons_of_mem _ hp)) scope) fun key _ => ?_
    exact C.bind (C.quiet (Quiet.getMember hr key)) fun f hf => C.pure (hsome hf hr)
  · exact C.bind (h.eval _ scope hc) fun f hf => C.pure (hsome hf holds_undefined)

theorem evalCall {callee : Expr} {arguments : List Item} (hcall : W .call)
    (hc : W (.expr callee)) (ha : ∀ p ∈ arguments.flatMap Item.parts, W p) (isOptional : Bool)
    (scope : ScopeRef) :
    C.Rel i (Value.Holds Q) (Run.evalCall ev scope callee arguments isOptional)
      (Run.evalCall ev' scope callee arguments isOptional) := by
  refine C.bind (h.evalCallee hc scope) fun r hr => ?_
  cases r with
  | none => exact C.pure trivial
  | some found =>
    obtain ⟨f, receiver⟩ := found
    obtain ⟨hf, hreceiver⟩ := hr f receiver rfl
    refine C.ite (fun _ => C.pure trivial) fun _ => C.ite (fun _ => ?_) fun _ => C.raise rfl
    refine C.bind (h.evalItems ha scope allHold_nil) fun vs hvs => ?_
    exact h.call hcall f receiver vs hf hreceiver hvs

theorem evalConstruct {callee : Expr} {arguments : List Item} (hcall : W .call)
    (hc : W (.expr callee)) (ha : ∀ p ∈ arguments.flatMap Item.parts, W p) (scope : ScopeRef) :
    C.Rel i (Value.Holds Q) (Run.evalConstruct ev scope callee arguments)
      (Run.evalConstruct ev' scope callee arguments) := by
  refine C.bind (h.eval callee scope hc) fun f hf => ?_
  refine C.bind (h.evalItems ha scope allHold_nil) fun vs hvs => ?_
  exact h.construct hcall f vs _ hf hvs

/-- Expressions whose parts are in the class. -/
theorem evalExpr {e : Expr} (he : ∀ p ∈ e.parts, W p)
    (hassigns : ∀ target, e.assigned? = some target → C.Assigns target) (scope : ScopeRef) :
    C.Rel i (Value.Holds Q) (Run.evalExpr ev e scope) (Run.evalExpr ev' e scope) := by
  cases e with
  | this =>
    refine C.quiet (Quiet.bind (Quiet.lookup? scope "this") fun v? hv => Quiet.pure ?_)
    cases v? with
    | none => exact holds_undefined
    | some v => exact hv v rfl
  | name name => exact C.quiet (Quiet.evalName scope name)
  | template pieces =>
    exact C.bind (h.templateText he scope "") fun text _ => C.quiet (Quiet.makeString text)
  | array items =>
    exact C.bind (h.evalItems he scope allHold_nil) fun vs hvs => C.quiet (Quiet.makeArray hvs)
  | object members =>
    refine C.bind (h.evalMembers he scope Object.holds_empty) fun o ho => ?_
    exact C.quiet (Quiet.makeObject ho)
  | function f =>
    exact C.quiet (Quiet.makeClosure (h.functions f (he _ List.mem_cons_self)) scope)
  | classDef c =>
    refine C.quiet (Quiet.makeClass (fun f hf => h.functions f (he _ ?_)) scope)
    exact List.mem_map.mpr ⟨f, hf, rfl⟩
  | unary op operand => exact h.evalUnary op (he _ List.mem_cons_self) scope
  | update increment before target =>
    exact h.evalUpdate increment before (he _ List.mem_cons_self) (hassigns target rfl) scope
  | binary op left right =>
    refine C.bind (h.eval left scope (he _ List.mem_cons_self)) fun v hv => ?_
    refine C.bind (h.eval right scope (he _ (List.mem_cons_of_mem _ List.mem_cons_self)))
      fun w hw => ?_
    exact C.quiet (Quiet.binary op hv hw)
  | logical op left right =>
    refine C.bind (h.eval left scope (he _ List.mem_cons_self)) fun v hv => ?_
    refine C.ite (fun _ => C.pure hv) fun _ => ?_
    exact h.eval right scope (he _ (List.mem_cons_of_mem _ List.mem_cons_self))
  | assign op target value =>
    exact h.evalAssign op (he _ List.mem_cons_self) (hassigns target rfl)
      (he _ (List.mem_cons_of_mem _ List.mem_cons_self)) scope
  | conditional test yes no =>
    refine C.bind (h.eval test scope (he _ List.mem_cons_self)) fun v _ =>
      C.ite (fun _ => h.eval yes scope (he _ ?_)) fun _ => h.eval no scope (he _ ?_)
    · exact List.mem_cons_of_mem _ List.mem_cons_self
    · exact List.mem_cons_of_mem _ (List.mem_cons_of_mem _ List.mem_cons_self)
  | member subject key isOptional =>
    exact h.evalMember (he _ List.mem_cons_self) (fun p hp => he p (List.mem_cons_of_mem _ hp))
      isOptional scope
  | call callee arguments isOptional =>
    refine h.evalCall (he _ List.mem_cons_self) (he _ ?_) (fun p hp => he p ?_) isOptional scope
    · exact List.mem_cons_of_mem _ List.mem_cons_self
    · exact List.mem_cons_of_mem _ (List.mem_cons_of_mem _ hp)
  | construct callee arguments =>
    refine h.evalConstruct (he _ List.mem_cons_self) (he _ ?_) (fun p hp => he p ?_) scope
    · exact List.mem_cons_of_mem _ List.mem_cons_self
    · exact List.mem_cons_of_mem _ (List.mem_cons_of_mem _ hp)
  | sequence items => exact h.evalSequence he scope holds_undefined
  -- Literals have no parts.
  | _ => exact C.pure trivial

theorem assignItems {items : List Item} (hitems : ∀ p ∈ items.flatMap Item.parts, W p)
    (hassigns : C.Assigns (.array items)) (scope : ScopeRef) {vs : List Value} (hv : AllHold Q vs) :
    C.Rel i Any (Run.assignItems ev scope items vs) (Run.assignItems ev' scope items vs) := by
  induction items generalizing vs with
  | nil => exact C.pure trivial
  | cons item rest ih =>
    obtain ⟨spread, e⟩ := item
    rw [List.flatMap_cons] at hitems
    have he : W (.expr e) := hitems _ (List.mem_append_left _ List.mem_cons_self)
    obtain ⟨hfirst, hrest⟩ := hassigns.cons_item
    refine C.ite (fun _ => ?_) fun _ => ?_
    · refine C.bind (C.quiet (Quiet.makeArray hv)) fun w hw => h.assign e w scope he hfirst hw
    · refine C.bind (h.assign e _ scope he hfirst (holds_headD hv)) fun _ _ => ?_
      exact ih (fun p hp => hitems p (List.mem_append_right _ hp)) hrest (holds_tail hv)

/-- Assigning to a pattern of members respects a relation, defaults included. -/
theorem assignMembers {members : List Member}
    (hmembers : ∀ p ∈ members.flatMap Member.parts, W p) (hassigns : C.Assigns (.object members))
    (scope : ScopeRef) {v : Value} (hv : v.Holds Q) :
    C.Rel i Any (Run.assignMembers ev scope v members)
      (Run.assignMembers ev' scope v members) := by
  induction members with
  | nil => exact C.pure trivial
  | cons member rest ih =>
    rw [List.flatMap_cons] at hmembers
    have hmember (p : Part) (hp : p ∈ member.parts) : W p :=
      hmembers p (List.mem_append_left _ hp)
    have hrest := ih fun p hp => hmembers p (List.mem_append_right _ hp)
    cases member with
    | spread e => exact hrest hassigns
    | init key e =>
      obtain ⟨hfirst, hothers⟩ := hassigns.cons_init
      have hkey (p : Part) (hp : p ∈ key.parts) : W p := hmember p (List.mem_append_left _ hp)
      have he : W (.expr e) := hmember _ (List.mem_append_right _ List.mem_cons_self)
      refine C.bind (h.keyOf hkey scope) fun key _ => ?_
      refine C.bind (C.quiet (Quiet.getMember hv key)) fun w hw => ?_
      exact C.bind (h.assign e w scope he hfirst hw) fun _ _ => hrest hothers

/-- Assignments to expressions whose parts are in the class. -/
theorem assignExpr {target : Expr} (ht : ∀ p ∈ target.parts, W p) (hassigns : C.Assigns target)
    {v : Value} (hv : v.Holds Q) (scope : ScopeRef) :
    C.Rel i Any (Run.assignExpr ev target v scope) (Run.assignExpr ev' target v scope) := by
  cases target with
  | name name => exact C.quiet (Quiet.assignName name hv scope)
  | member subject key isOptional =>
    refine C.bind (h.eval subject scope (ht _ List.mem_cons_self)) fun w _ => ?_
    refine C.bind (h.keyOf (fun p hp => ht p (List.mem_cons_of_mem _ hp)) scope) fun key _ => ?_
    exact C.quiet (Quiet.setMember w key hv)
  | array items =>
    refine C.bind (C.quiet (Quiet.iterate v)) fun xs hx => ?_
    exact h.assignItems ht hassigns scope (allHold_toList hx)
  | object members => exact h.assignMembers ht hassigns scope hv
  | _ => exact C.thrown (hassigns.resolve_left Bool.false_ne_true)

end EvaluatorsRelated

end Snippet.Script
