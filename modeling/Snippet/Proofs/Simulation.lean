import Snippet.Proofs.Steady
import Snippet.Script.Tree

/-!
Simulations: families of relations between computations that every step of evaluation respects. To show
that evaluation respects a family, it is enough to show it for returning, for running one computation after
the other, for the elementary steps and for loops; the rest is the same for all families.
-/

namespace Snippet.Script

-- What values can be assigned to: names, members, and patterns that consist of such targets.

mutual

def Expr.isTarget : Expr → Bool
  | .name _ => true
  | .member _ _ _ => true
  | .array items => areItemTargets items
  | .object members => areMemberTargets members
  | _ => false

def areItemTargets : List Item → Bool
  | [] => true
  | .mk _ e :: rest => e.isTarget && areItemTargets rest

def areMemberTargets : List Member → Bool
  | [] => true
  | .init _ e :: rest => e.isTarget && areMemberTargets rest
  | .spread _ :: rest => areMemberTargets rest

end

def Expr.assigned? : Expr → Option Expr
  | .update _ _ target => some target
  | .assign _ target _ => some target
  | _ => none

/-- Loops that are given the same number of rounds, by induction on it: what holds of loops that are cut off
and is kept by a round holds of them. -/
theorem loops_related {α σ : Type} {R : Run α → Run α → Prop} {f g : Nat → σ → Run α}
    {F G : (σ → Run α) → σ → Run α} (hzero : ∀ s, R (f 0 s) (g 0 s))
    (hf : ∀ n s, f (n + 1) s = F (f n) s) (hg : ∀ n s, g (n + 1) s = G (g n) s)
    (hstep : ∀ x y, (∀ s, R (x s) (y s)) → ∀ s, R (F x s) (G y s)) (n : Nat) (s : σ) :
    R (f n s) (g n s) := by
  induction n generalizing s with
  | zero => exact hzero s
  | succ n ih =>
    rw [hf, hg]
    exact hstep (f n) (g n) ih s

structure FaultClass (Q : Func → Prop) where
  Has : Fault → Prop
  plain {e : Fault} : Has e → e.Plain Q

def plainFaults (Q : Func → Prop) : FaultClass Q := ⟨Fault.Plain Q, id⟩

def ordinaryFaults (Q : Func → Prop) : FaultClass Q := ⟨Fault.Ordinary Q, Fault.Ordinary.plain⟩

/-- A family of relations between computations, given what is true of the results, that everything
evaluation is made of respects. `After` tells at which indices a computation may stand that comes after a
checkpoint, and `Inside` at which ones the inside of a function may stand. -/
structure Simulation (Q : Func → Prop) (ι : Type) where
  Rel : ι → ∀ {α : Type}, (α → Prop) → Run α → Run α → Prop
  After : ι → ι → Prop
  Inside : ι → ι → Prop
  /-- The indices at which a computation may have effects. -/
  Effects : ι → Prop
  /-- The indices at which a computation may read a line. -/
  Reads : ι → Prop
  /-- The faults that a script may come to and handle. -/
  faults : FaultClass Q
  thrown {i : ι} {α : Type} {V : α → Prop} {e : Fault} : faults.Has e →
    Rel i V (throw e : Run α) (throw e)
  compositional (i : ι) : Compositional (Rel i)
  quiet {i : ι} {α : Type} {V : α → Prop} {x : Run α} : Quiet Q V x → Rel i V x x
  steady {i : ι} {α : Type} {V : α → Prop} {x : Run α} : Effects i → Steady Q Command.IsCall V x →
    Deaf x → Rel i V x x
  prompt {i : ι} : Reads i → Rel i (Value.Holds Q) Run.prompt Run.prompt
  later {i j : ι} {α : Type} {V : α → Prop} {x y : Run α} : After i j → Rel i V x y → Rel j V x y
  checkpoint {i : ι} {α : Type} {V : α → Prop} {x y : Run α} : (∀ j, After i j → Rel j V x y) →
    Rel i V (Run.checkpoint >>= fun _ => x) (Run.checkpoint >>= fun _ => y)
  nested {i : ι} {α : Type} {V : α → Prop} {x y : Run α} : (∀ j, Inside i j → Rel j V x y) →
    Rel i V (Run.nested x) (Run.nested y)
  /-- What is done with an outcome does not matter if the outcome ends the run at once, as long as it is
  handed on. -/
  outcome {i : ι} {α β : Type} {V : α → Prop} {W : β → Prop} {x y : Run α}
    {f g : Except Fault α → Run β} : Rel i V x y →
    (∀ a, V a → Rel i W (f (.ok a)) (g (.ok a))) →
    (∀ e, faults.Has e → e.isFinal = false → Rel i W (f (.error e)) (g (.error e))) →
    (∀ e, e.isFinal = true → f (.error e) = throw e ∧ g (.error e) = throw e) →
    Rel i W (Run.outcome x >>= f) (Run.outcome y >>= g)
  /-- Two loops are related if their rounds are, given that the loops are related once a checkpoint has
  been passed. -/
  loop {i : ι} {α σ : Type} {V : α → Prop} {f g : Nat → σ → Run α} {F G : (σ → Run α) → σ → Run α} :
    (∀ s, f 0 s = throw .exhausted) → (∀ s, g 0 s = throw .exhausted) →
    (∀ n s, f (n + 1) s = F (f n) s) → (∀ n s, g (n + 1) s = G (g n) s) →
    (∀ j, j = i ∨ After i j → ∀ x y, (∀ k, After j k → ∀ s, Rel k V (x s) (y s)) →
      ∀ s, Rel j V (F x s) (G y s)) →
    ∀ s, Rel i V (Run.rounds >>= fun n => f n s) (Run.rounds >>= fun n => g n s)

def Simulation.Assigns {Q : Func → Prop} {ι : Type} (C : Simulation Q ι) (e : Expr) : Prop :=
  -- A value may be assigned to an expression: it is a target, or the fault that it is none may
  -- happen.
  e.isTarget = true ∨ C.faults.Has (.raised .invalidTarget)

structure Simulation.RunsTimers {Q : Func → Prop} {ι : Type} (C : Simulation Q ι) : Prop where
  waiting {i : ι} : C.Rel i Any Run.waiting Run.waiting
  next {i j : ι} : C.After i j →
    C.Rel j (fun t? => ∀ t, t? = some t → t.Holds Q) Run.nextTimer? Run.nextTimer?

section Assigns

variable {Q : Func → Prop} {ι : Type} {C : Simulation Q ι}

theorem Simulation.Assigns.cons_item {spread : Bool} {e : Expr} {rest : List Item}
    (h : C.Assigns (.array (.mk spread e :: rest))) : C.Assigns e ∧ C.Assigns (.array rest) := by
  obtain h | h := h
  · obtain ⟨he, hrest⟩ := Bool.and_eq_true_iff.mp h
    exact ⟨Or.inl he, Or.inl hrest⟩
  · exact ⟨Or.inr h, Or.inr h⟩

theorem Simulation.Assigns.cons_init {key : Key} {e : Expr} {rest : List Member}
    (h : C.Assigns (.object (.init key e :: rest))) : C.Assigns e ∧ C.Assigns (.object rest) := by
  obtain h | h := h
  · obtain ⟨he, hrest⟩ := Bool.and_eq_true_iff.mp h
    exact ⟨Or.inl he, Or.inl hrest⟩
  · exact ⟨Or.inr h, Or.inr h⟩

end Assigns

/-- How a statement ends holds functions of `Q` only. -/
def Flow.Holds (Q : Func → Prop) : Flow → Prop
  | .returned v => v.Holds Q
  | _ => True

def CallersRelated {Q : Func → Prop} {ι : Type} (C : Simulation Q ι) (i : ι) (call call' : Caller) :
    Prop :=
  ∀ f receiver arguments, f.Holds Q → receiver.Holds Q → AllHold Q arguments →
    C.Rel i (Value.Holds Q) (call f receiver arguments) (call' f receiver arguments)

structure EvaluatorsRelated {Q : Func → Prop} {ι : Type} (C : Simulation Q ι) (i : ι)
    (W : Part → Prop) (ev ev' : Evaluator) : Prop where
  eval : ∀ e scope, W (.expr e) → C.Rel i (Value.Holds Q) (ev.eval e scope) (ev'.eval e scope)
  assign : ∀ e v scope, W (.expr e) → C.Assigns e → v.Holds Q →
    C.Rel i Any (ev.assign e v scope) (ev'.assign e v scope)
  exec : ∀ s scope, W (.stmt s) → C.Rel i (Flow.Holds Q) (ev.exec s scope) (ev'.exec s scope)
  call : W .call → CallersRelated C i ev.call ev'.call
  construct : W .call → ∀ f arguments label, f.Holds Q → AllHold Q arguments →
    C.Rel i (Value.Holds Q) (ev.construct f arguments label) (ev'.construct f arguments label)
  /-- The parts of an expression of the class are in the class. -/
  parts : ∀ e, W (.expr e) → ∀ p ∈ e.parts, W p
  /-- Functions of the class belong to `Q`, and so do those that statements of the class declare. -/
  functions : ∀ f, W (.func f) → Q f
  declared : ∀ f, W (.stmt (.function f)) → Q f

namespace Simulation

variable {Q : Func → Prop} {ι : Type} (C : Simulation Q ι) {i j : ι} {α β : Type}
variable {V : α → Prop} {U : β → Prop}

theorem pure {a : α} (ha : V a) : C.Rel i V (Pure.pure a) (Pure.pure a) :=
  (C.compositional i).pure ha

theorem bind {x y : Run α} {f g : α → Run β} (hx : C.Rel i V x y)
    (hf : ∀ a, V a → C.Rel i U (f a) (g a)) : C.Rel i U (x >>= f) (y >>= g) :=
  (C.compositional i).bind hx hf

theorem ite {c : Prop} [Decidable c] {x x' y y' : Run α} (hx : c → C.Rel i V x y)
    (hy : ¬ c → C.Rel i V x' y') : C.Rel i V (if c then x else x') (if c then y else y') :=
  Compositional.ite hx hy

theorem raise {e : RuntimeError} (he : e.isOffTarget = false) :
    C.Rel i V (Run.raise e) (Run.raise e) :=
  C.quiet (Quiet.raise he)

end Simulation

namespace EvaluatorsRelated

variable {Q : Func → Prop} {ι : Type} {C : Simulation Q ι} {i j : ι} {W : Part → Prop}
variable {ev ev' : Evaluator}

/-- Evaluators that are related stay so once a checkpoint has been passed. -/
theorem later (h : EvaluatorsRelated C i W ev ev') (hij : C.After i j) :
    EvaluatorsRelated C j W ev ev' where
  eval e scope he := C.later hij (h.eval e scope he)
  assign e v scope he ht hv := C.later hij (h.assign e v scope he ht hv)
  exec s scope hs := C.later hij (h.exec s scope hs)
  call hc f receiver arguments hf hr ha := C.later hij (h.call hc f receiver arguments hf hr ha)
  construct hc f arguments label hf ha := C.later hij (h.construct hc f arguments label hf ha)
  parts := h.parts
  functions := h.functions
  declared := h.declared

end EvaluatorsRelated

-- A simulation relates the methods and the built-in functions that call functions of the script, as
-- soon as it relates the calls. All other methods and built-in functions are the same on both
-- sides.

def Builtin.hasEffect : Builtin → Bool
  | .print _ | .prompt | .random => true
  | .setTimeout | .setInterval | .clearTimeout | .clearInterval => true
  | _ => false

namespace Simulation

variable {Q : Func → Prop} {ι : Type} (C : Simulation Q ι) {i : ι}

section Strings

variable {call call' : Value → List Value → Run Value}
variable (hcall : ∀ f arguments, f.Holds Q → AllHold Q arguments →
  C.Rel i (Value.Holds Q) (call f arguments) (call' f arguments))
include hcall

theorem replacementFor (pattern : List Char) {replacement : Value} (hr : replacement.Holds Q)
    (place : Nat) :
    C.Rel i Any (Run.replacementFor call pattern replacement place)
      (Run.replacementFor call' pattern replacement place) := by
  refine C.ite (fun _ => ?_) fun _ => ?_
  · have ha : AllHold Q [.ofChars pattern, .ofNat place] :=
      allHold_cons trivial (allHold_cons trivial allHold_nil)
    refine C.bind (hcall replacement _ hr ha) fun v _ => ?_
    exact C.quiet (Quiet.bind (Quiet.toText v) fun _ _ => Quiet.pure trivial)
  · exact C.quiet (Quiet.bind (Quiet.toText replacement) fun _ _ => Quiet.pure trivial)

/-- By induction on the steps in which a pattern may be replaced. -/
theorem replaceWithin (all : Bool) (pattern : List Char) {replacement : Value}
    (hr : replacement.Holds Q) (fuel passed : Nat) (done rest : List Char) :
    C.Rel i Any (Run.replaceWithin call all pattern replacement fuel passed done rest)
      (Run.replaceWithin call' all pattern replacement fuel passed done rest) := by
  induction fuel generalizing passed done rest with
  | zero => exact C.pure trivial
  | succ fuel ih =>
    unfold Run.replaceWithin
    cases Text.breakOn? pattern [] rest with
    | none => exact C.pure trivial
    | some found =>
      obtain ⟨before, after⟩ := found
      refine C.bind (C.replacementFor hcall pattern hr _) fun text _ => ?_
      refine C.ite (fun _ => C.pure trivial) fun _ => C.ite (fun _ => ?_) fun _ => ih _ _ _
      cases after with
      | nil => exact C.pure trivial
      | cons c after => exact ih _ _ _

theorem replaced (all : Bool) (s : String) {arguments : List Value} (ha : AllHold Q arguments) :
    C.Rel i (Value.Holds Q) (Run.replaced call all s arguments)
      (Run.replaced call' all s arguments) := by
  refine C.bind (C.quiet (Quiet.textArgument arguments 0)) fun pattern _ => ?_
  refine C.bind (C.replaceWithin hcall all pattern (holds_argument ha 1) _ _ _ _) fun text _ => ?_
  exact C.quiet (Quiet.makeString _)

/-- Of the methods of strings only the replacements call functions. -/
theorem stringMethod (s : String) (m : StringMethod) {arguments : List Value}
    (ha : AllHold Q arguments) :
    C.Rel i (Value.Holds Q) (Run.stringMethod call s m arguments)
      (Run.stringMethod call' s m arguments) := by
  cases m with
  | replace => exact C.replaced hcall false s ha
  | replaceAll => exact C.replaced hcall true s ha
  | _ => exact C.quiet (Quiet.stringMethod call s rfl arguments)

end Strings

section Sorting

variable {swap swap' : SwapTest}
variable (hswap : ∀ v w, v.Holds Q → w.Holds Q → C.Rel i Any (swap v w) (swap' v w))
include hswap

/-- Merging respects a relation: it calls the comparison and puts values behind one another. -/
theorem merge {done left right : List Value} (fuel : Nat) (hd : AllHold Q done)
    (hl : AllHold Q left) (hr : AllHold Q right) :
    C.Rel i (AllHold Q) (Run.merge swap done fuel left right)
      (Run.merge swap' done fuel left right) := by
  -- Running out of steps leaves the rest in order, so no case of the merge is cut off.
  induction fuel generalizing done left right with
  | zero => exact C.pure (allHold_append (allHold_reverse hd) (allHold_append hl hr))
  | succ fuel ih =>
    cases left with
    | nil => exact C.pure (allHold_append (allHold_reverse hd) hr)
    | cons a left =>
      cases right with
      | nil => exact C.pure (allHold_append (allHold_reverse hd) hl)
      | cons b right =>
        have ha : a.Holds Q := hl a List.mem_cons_self
        have hb : b.Holds Q := hr b List.mem_cons_self
        refine C.bind (hswap a b ha hb) fun swaps _ => C.ite (fun _ => ?_) fun _ => ?_
        · exact ih (allHold_cons hb hd) hl fun v hv => hr v (List.mem_cons_of_mem _ hv)
        · exact ih (allHold_cons ha hd) (fun v hv => hl v (List.mem_cons_of_mem _ hv)) hr

theorem sortWithin (fuel : Nat) {xs : List Value} (hx : AllHold Q xs) :
    C.Rel i (AllHold Q) (Run.sortWithin swap fuel xs) (Run.sortWithin swap' fuel xs) := by
  induction fuel generalizing xs with
  | zero => exact C.pure hx
  | succ fuel ih =>
    refine C.ite (fun _ => C.pure hx) fun _ => ?_
    have hleft : AllHold Q (xs.splitAt (xs.length / 2)).1 := by
      rw [List.splitAt_eq]
      exact fun v hv => hx v (List.mem_of_mem_take hv)
    have hright : AllHold Q (xs.splitAt (xs.length / 2)).2 := by
      rw [List.splitAt_eq]
      exact allHold_drop hx _
    refine C.bind (ih hleft) fun left hl => C.bind (ih hright) fun right hr => ?_
    exact C.merge hswap _ allHold_nil hl hr

theorem sort {xs : List Value} (hx : AllHold Q xs) :
    C.Rel i (AllHold Q) (Run.sort swap xs) (Run.sort swap' xs) :=
  C.sortWithin hswap xs.length hx

end Sorting

section Timers

theorem setTimer (heffects : C.Effects i) (repeated : Bool) {arguments : List Value}
    (ha : AllHold Q arguments) :
    C.Rel i (Value.Holds Q) (Run.setTimer repeated arguments) (Run.setTimer repeated arguments) := by
  refine C.ite (fun _ => ?_) fun _ => C.raise rfl
  refine C.bind (C.quiet (Quiet.numberArgument? arguments 1)) fun delay? _ => ?_
  exact C.steady heffects (Steady.schedule (holds_argument ha 0) _ (allHold_drop ha 2) repeated)
    fun _ _ => rfl

theorem clearTimer (heffects : C.Effects i) (arguments : List Value) :
    C.Rel i (Value.Holds Q) (Run.clearTimer arguments) (Run.clearTimer arguments) := by
  refine C.bind (C.quiet (Quiet.numberArgument? arguments 0)) fun x? _ => ?_
  cases x?.bind timerId? with
  | none => exact C.pure trivial
  | some id => exact C.steady heffects (Steady.cancel id) fun _ _ => rfl

end Timers

section Calls

variable {call call' : Caller} (hcall : CallersRelated C i call call')
include hcall

theorem reduce {callback array acc : Value} (hc : callback.Holds Q) (ha : array.Holds Q)
    (hacc : acc.Holds Q) {xs : List (Nat × Value)} (hx : ∀ e ∈ xs, e.2.Holds Q) :
    C.Rel i (Value.Holds Q) (Run.reduce call callback array acc xs)
      (Run.reduce call' callback array acc xs) := by
  induction xs generalizing acc with
  | nil => exact C.pure hacc
  | cons e rest ih =>
    obtain ⟨place, v⟩ := e
    have hv : v.Holds Q := hx _ List.mem_cons_self
    have harguments : AllHold Q [acc, v, .ofNat place, array] :=
      allHold_cons hacc (allHold_cons hv (allHold_cons trivial (allHold_cons ha allHold_nil)))
    refine C.bind (hcall callback .undefined _ hc trivial harguments) fun acc hacc => ?_
    exact ih hacc fun e he => hx e (List.mem_cons_of_mem _ he)

theorem reduceFrom {callback array : Value} (hc : callback.Holds Q) (ha : array.Holds Q)
    {start : Option Value} (hs : ∀ v, start = some v → v.Holds Q) {xs : List (Nat × Value)}
    (hx : ∀ e ∈ xs, e.2.Holds Q) :
    C.Rel i (Value.Holds Q) (Run.reduceFrom call callback array start xs)
      (Run.reduceFrom call' callback array start xs) := by
  cases start with
  | some acc => exact C.reduce hcall hc ha (hs acc rfl) hx
  | none =>
    cases xs with
    | nil => exact C.raise rfl
    | cons e rest =>
      have he : e.2.Holds Q := hx e List.mem_cons_self
      exact C.reduce hcall hc ha he fun e he => hx e (List.mem_cons_of_mem _ he)

theorem visit (m : Visit) {callback receiver array : Value} (hc : callback.Holds Q)
    (hr : receiver.Holds Q) (ha : array.Holds Q) {done : List Value} (hd : AllHold Q done)
    {xs : List (Nat × Value)} (hx : ∀ e ∈ xs, e.2.Holds Q) :
    C.Rel i (Value.Holds Q) (Run.visit call m callback receiver array done xs)
      (Run.visit call' m callback receiver array done xs) := by
  induction xs generalizing done with
  | nil => exact C.quiet (Quiet.visitResult m hd)
  | cons e rest ih =>
    obtain ⟨place, item⟩ := e
    have hitem : item.Holds Q := hx _ List.mem_cons_self
    -- The visit goes on with the elements from its beginning, whatever the call has done to the array.
    have harguments : AllHold Q [item, .ofNat place, array] :=
      allHold_cons hitem (allHold_cons trivial (allHold_cons ha allHold_nil))
    refine C.bind (hcall callback receiver _ hc hr harguments) fun result hresult => ?_
    refine C.bind (C.quiet (Quiet.visitStep m hd place hitem hresult)) fun step hstep => ?_
    cases step with
    | error result => exact C.pure hstep
    | ok done => exact ih hstep fun e he => hx e (List.mem_cons_of_mem _ he)

theorem functionOrder {f : Value} (hf : f.Holds Q) {v w : Value} (hv : v.Holds Q)
    (hw : w.Holds Q) :
    C.Rel i Any (Run.functionOrder (fun x y => call f .undefined [x, y]) v w)
      (Run.functionOrder (fun x y => call' f .undefined [x, y]) v w) := by
  have ha : AllHold Q [v, w] := allHold_cons hv (allHold_cons hw allHold_nil)
  refine C.bind (hcall f .undefined _ hf trivial ha) fun result _ => ?_
  exact C.quiet (Quiet.bind (Quiet.toNumber result) fun _ _ => Quiet.pure trivial)

/-- The orders that a sort may ask for are related, so what is done with them is if it takes related
orders to related computations. -/
theorem sortOrder {α : Type} {V : α → Prop} {arguments : List Value} (ha : AllHold Q arguments)
    {f g : SwapTest → Run α}
    (hf : ∀ swap swap' : SwapTest,
      (∀ v w, v.Holds Q → w.Holds Q → C.Rel i Any (swap v w) (swap' v w)) →
        C.Rel i V (f swap) (g swap')) :
    C.Rel i V (Run.sortOrder call arguments >>= f) (Run.sortOrder call' arguments >>= g) := by
  have hargument := holds_argument ha 0
  unfold Run.sortOrder
  split
  · exact hf _ _ fun v w _ _ => C.quiet (Quiet.textOrder v w)
  · split
    · exact hf _ _ fun v w hv hw => C.functionOrder hcall hargument hv hw
    · exact C.raise rfl

omit hcall in
theorem holds_indexed {xs : List Value} (hx : AllHold Q xs) : ∀ e ∈ indexed xs, e.2.Holds Q := by
  intro e he
  obtain ⟨⟨v, place⟩, hm, rfl⟩ := List.mem_map.mp he
  exact hx v (List.fst_mem_of_mem_zipIdx hm)

/-- Of the methods of arrays only the sort, the reductions and the visits call functions. -/
theorem arrayMethod (a : ArrayRef) (m : ArrayMethod) {arguments : List Value}
    (ha : AllHold Q arguments) :
    C.Rel i (Value.Holds Q) (Run.arrayMethod call a m arguments)
      (Run.arrayMethod call' a m arguments) := by
  -- The elements of arrays and the arguments hold only what the heap holds.
  have hcallback : Quiet Q (Value.Holds Q) (Run.callbackArgument arguments m.name) :=
    Quiet.callbackArgument ha m.name
  have hstart (v : Value) (hv : arguments[1]? = some v) : v.Holds Q :=
    ha v (List.mem_of_getElem? hv)
  have hindexed {xs : Array Value} (hx : ∀ v ∈ xs, v.Holds Q) :
      ∀ e ∈ indexed xs.toList, e.2.Holds Q :=
    holds_indexed (allHold_toList hx)
  have hreversed {es : List (Nat × Value)} (he : ∀ e ∈ es, e.2.Holds Q) :
      ∀ e ∈ es.reverse, e.2.Holds Q :=
    fun e hm => he e (List.mem_reverse.mp hm)
  cases m with
  | sort =>
    refine C.sortOrder hcall ha fun swap swap' hswap => ?_
    refine C.bind (C.quiet (Quiet.items a)) fun xs hx => ?_
    refine C.bind (C.sort hswap (allHold_toList hx)) fun sorted hsorted => ?_
    refine C.quiet (Quiet.bind (Quiet.modifyItems a fun _ _ v hv => ?_) fun _ _ =>
      Quiet.pure trivial)
    exact hsorted v (List.mem_toArray.mp hv)
  | reduce =>
    refine C.bind (C.quiet hcallback) fun callback hc => ?_
    refine C.bind (C.quiet (Quiet.items a)) fun xs hx => ?_
    exact C.reduceFrom hcall hc (holds_array a) hstart (hindexed hx)
  | reduceRight =>
    refine C.bind (C.quiet hcallback) fun callback hc => ?_
    refine C.bind (C.quiet (Quiet.items a)) fun xs hx => ?_
    exact C.reduceFrom hcall hc (holds_array a) hstart (hreversed (hindexed hx))
  | visit v =>
    refine C.bind (C.quiet hcallback) fun callback hc => ?_
    refine C.bind (C.quiet (Quiet.items a)) fun xs hx => ?_
    refine C.visit hcall v hc (holds_argument ha 1) (holds_array a) allHold_nil ?_
    split
    · exact hreversed (hindexed hx)
    · exact hindexed hx
  -- All other methods call no function, so they are quiet.
  | _ => exact C.quiet (Quiet.arrayMethod call a rfl ha)

theorem arrayFrom {arguments : List Value} (ha : AllHold Q arguments) :
    C.Rel i (Value.Holds Q) (Run.arrayFrom call arguments) (Run.arrayFrom call' arguments) := by
  refine C.bind (C.quiet (Quiet.sourceItems _)) fun items hitems => ?_
  refine C.ite (fun _ => ?_) fun _ => C.quiet (Quiet.makeArray hitems)
  have hmade : C.Rel i (AllHold Q)
      ((indexed items).mapM fun e =>
        call (Run.argument arguments 1) .undefined [e.2, .ofNat e.1])
      ((indexed items).mapM fun e =>
        call' (Run.argument arguments 1) .undefined [e.2, .ofNat e.1]) := by
    refine (C.compositional i).mapM fun e he => ?_
    have hv : AllHold Q [e.2, .ofNat e.1] :=
      allHold_cons (holds_indexed hitems e he) (allHold_cons trivial allHold_nil)
    exact hcall _ .undefined _ (holds_argument ha 1) trivial hv
  exact C.bind hmade fun vs hvs => C.quiet (Quiet.makeArray hvs)

/-- Of the built-in functions only the one that makes arrays from sequences calls functions. Those that
have effects need an index that allows for them, and the one that reads a line needs one that allows for
that. -/
theorem callBuiltin (b : Builtin) (heffects : b.hasEffect = true → C.Effects i)
    (hreads : b = .prompt → C.Reads i) {arguments : List Value} (ha : AllHold Q arguments) :
    C.Rel i (Value.Holds Q) (Run.callBuiltin call b arguments)
      (Run.callBuiltin call' b arguments) := by
  have hnumber (j : Nat) : Quiet Q Any (Run.numberOf arguments j) := Quiet.numberOf arguments j
  have hargument (j : Nat) : (Run.argument arguments j).Holds Q := holds_argument ha j
  have hplain {x : Run Float} {make : Float → Value} (hx : Quiet Q Any x)
      (hmake : ∀ a, (make a).isFunction = false) :
      Quiet Q (Value.Holds Q) (x >>= fun a => Pure.pure (make a)) :=
    Quiet.bind hx fun a _ => Quiet.pureValue (hmake a)
  -- First those with effects and the one that calls; all others are quiet.
  cases b with
  | print channel =>
    refine C.bind (C.quiet (Quiet.consoleLine arguments)) fun line _ => ?_
    refine C.bind (V := Any) (C.steady (heffects rfl) ?_ fun _ _ => rfl) fun _ _ => C.pure trivial
    exact Steady.pushLine channel line
  | prompt => exact C.prompt (hreads rfl)
  | setTimeout => exact C.setTimer (heffects rfl) false ha
  | setInterval => exact C.setTimer (heffects rfl) true ha
  | clearTimeout => exact C.clearTimer (heffects rfl) arguments
  | clearInterval => exact C.clearTimer (heffects rfl) arguments
  | random =>
    exact C.bind (C.steady (heffects rfl) Steady.random fun _ _ => rfl) fun _ _ => C.pure trivial
  | arrayFrom => exact C.arrayFrom hcall ha
  | parseInt => exact C.quiet (Quiet.readInteger arguments)
  | numberParseInt => exact C.quiet (Quiet.readInteger arguments)
  | parseFloat => exact C.quiet (Quiet.readNumber arguments)
  | numberParseFloat => exact C.quiet (Quiet.readNumber arguments)
  | isNaN => exact C.quiet (hplain (hnumber 0) fun _ => rfl)
  | isFinite => exact C.quiet (hplain (hnumber 0) fun _ => rfl)
  | number => exact C.quiet (Quiet.convertToNumber arguments)
  | string => exact C.quiet (Quiet.convertToString arguments)
  | boolean => exact C.quiet (Quiet.convertToBool arguments)
  | object => exact C.quiet (Quiet.newObject ha)
  | array => exact C.quiet (Quiet.newArray ha)
  | error kind => exact C.quiet (Quiet.newError kind arguments)
  | mathFunction f => exact C.quiet (hplain (hnumber 0) fun _ => rfl)
  | atan2 => exact C.quiet (Quiet.bind (hnumber 0) fun _ _ => hplain (hnumber 1) fun _ => rfl)
  | pow => exact C.quiet (Quiet.bind (hnumber 0) fun _ _ => hplain (hnumber 1) fun _ => rfl)
  | hypot => exact C.quiet (Quiet.hypotenuse arguments)
  | min => exact C.quiet (Quiet.extremeOf _ _ arguments)
  | max => exact C.quiet (Quiet.extremeOf _ _ arguments)
  | jsonText => exact C.quiet (Quiet.jsonText arguments)
  | jsonParse => exact C.quiet (Quiet.parseJson arguments)
  | keys =>
    refine C.quiet (Quiet.bind (Quiet.ownKeys _) fun keys _ => Quiet.makeArray ?_)
    exact allHold_of_map (fun _ => rfl) keys
  | values =>
    refine C.quiet (Quiet.bind (Quiet.ownKeys _) fun keys _ => ?_)
    exact Quiet.bind (Quiet.memberValues (hargument 0) keys) fun vs hvs => Quiet.makeArray hvs
  | entries =>
    refine C.quiet (Quiet.bind (Quiet.ownKeys _) fun keys _ => ?_)
    exact Quiet.bind (Quiet.memberPairs (hargument 0) keys) fun vs hvs => Quiet.makeArray hvs
  | assign =>
    refine C.quiet (Quiet.bind (Quiet.forIn fun source hs => ?_) fun _ _ =>
      Quiet.pure (hargument 0))
    refine Quiet.bind (Quiet.copyMembers _ ?_) fun _ _ => Quiet.pure rfl
    exact allHold_drop ha 1 source hs
  | fromEntries => exact C.quiet (Quiet.objectOfPairs _)
  | isArray =>
    refine C.quiet ?_
    unfold Run.callBuiltin
    dsimp only
    split
    · exact Quiet.pure trivial
    · exact Quiet.pure trivial
  | arrayOf => exact C.quiet (Quiet.makeArray ha)
  | isInteger => exact C.quiet (Quiet.testNumber _ arguments)
  | isSafeInteger => exact C.quiet (Quiet.testNumber _ arguments)
  | numberIsFinite => exact C.quiet (Quiet.testNumber _ arguments)
  | numberIsNaN => exact C.quiet (Quiet.testNumber _ arguments)
  | fromCharCode =>
    refine C.quiet (Quiet.bind (Quiet.mapM fun v _ => Quiet.toNumber v) fun _ _ => ?_)
    exact Quiet.makeString _
  | console => exact C.raise rfl
  | math => exact C.raise rfl
  | json => exact C.raise rfl

end Calls

end Simulation

end Snippet.Script
