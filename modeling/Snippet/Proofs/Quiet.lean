import Snippet.Proofs.Holding

/-!
Quiet computations: those that work on the store of a run, its heap and its tallies, and neither read nor
change anything else of the state. They may fail, but neither by running out of time nor of depth. All
operations on values are quiet.
-/

namespace Snippet.Script

-- Relations between computations on the state of a run that putting computations together
-- preserves. What such a relation says of the elementary steps, it says of everything that
-- evaluation is made of.

structure Compositional (R : ∀ {α : Type}, (α → Prop) → Run α → Run α → Prop) : Prop where
  -- A relation between two computations, given what is true of the results of the first one, that
  -- returning and running one after the other preserve.
  pure {α : Type} {V : α → Prop} {a : α} : V a → R V (pure a) (pure a)
  bind {α β : Type} {V : α → Prop} {W : β → Prop} {x y : Run α} {f g : α → Run β} :
    R V x y → (∀ a, V a → R W (f a) (g a)) → R W (x >>= f) (y >>= g)

theorem discard_eq_bind {α : Type} (x : Run α) :
    (discard x : Run PUnit) = x >>= fun _ => pure ⟨⟩ := by
  funext m
  change EStateM.map _ x m = EStateM.bind x _ m
  unfold EStateM.map EStateM.bind
  cases x m <;> rfl

theorem map_eq_bind {α β : Type} (f : α → β) (x : Run α) : f <$> x = x >>= fun a => pure (f a) := by
  funext m
  change EStateM.map f x m = EStateM.bind x _ m
  unfold EStateM.map EStateM.bind
  cases x m <;> rfl

namespace Compositional

variable {R : ∀ {α : Type}, (α → Prop) → Run α → Run α → Prop} (hR : Compositional R)
variable {α β : Type} {V : α → Prop} {W : β → Prop}
include hR

theorem map {f : α → β} {x y : Run α} (h : R V x y) (hf : ∀ a, V a → W (f a)) :
    R W (f <$> x) (f <$> y) := by
  rw [map_eq_bind, map_eq_bind]
  exact hR.bind h fun a ha => hR.pure (hf a ha)

theorem discard {x y : Run α} (h : R V x y) : R Any (discard x) (discard y) := by
  rw [discard_eq_bind, discard_eq_bind]
  exact hR.bind h fun _ _ => hR.pure trivial

omit hR in
theorem ite {c : Prop} [Decidable c] {x x' y y' : Run α} (hx : c → R V x y)
    (hy : ¬ c → R V x' y') : R V (if c then x else x') (if c then y else y') := by
  by_cases hc : c
  · simpa only [if_pos hc] using hx hc
  · simpa only [if_neg hc] using hy hc

/-- Going through a list, each element related. -/
theorem mapM {f g : α → Run β} {xs : List α} (h : ∀ a ∈ xs, R W (f a) (g a)) :
    R (fun ys => ∀ y ∈ ys, W y) (xs.mapM f) (xs.mapM g) := by
  induction xs with
  | nil =>
    rw [List.mapM_nil, List.mapM_nil]
    exact hR.pure fun y hy => absurd hy List.not_mem_nil
  | cons a rest ih =>
    rw [List.mapM_cons, List.mapM_cons]
    refine hR.bind (h a List.mem_cons_self) fun b hb => ?_
    refine hR.bind (ih fun a ha => h a (List.mem_cons_of_mem _ ha)) fun bs hbs => ?_
    apply hR.pure
    intro y hy
    obtain rfl | hy := List.mem_cons.mp hy
    · exact hb
    · exact hbs y hy

/-- Going through a list with a value that is handed on. -/
theorem foldlM {f g : β → α → Run β} {xs : List α}
    (h : ∀ b, W b → ∀ a ∈ xs, R W (f b a) (g b a)) {b : β} (hb : W b) :
    R W (xs.foldlM f b) (xs.foldlM g b) := by
  induction xs generalizing b with
  | nil =>
    rw [List.foldlM_nil, List.foldlM_nil]
    exact hR.pure hb
  | cons a rest ih =>
    rw [List.foldlM_cons, List.foldlM_cons]
    refine hR.bind (h b hb a List.mem_cons_self) fun b' hb' => ?_
    exact ih (fun b hb a ha => h b hb a (List.mem_cons_of_mem _ ha)) hb'

/-- Going through a list to the end for the sake of the effects. -/
theorem forIn {f g : α → PUnit → Run (ForInStep PUnit)} {xs : List α}
    (h : ∀ a ∈ xs, R (fun r => r = .yield ⟨⟩) (f a ⟨⟩) (g a ⟨⟩)) :
    R Any (forIn xs PUnit.unit f) (forIn xs PUnit.unit g) := by
  induction xs with
  | nil =>
    rw [List.forIn_nil, List.forIn_nil]
    exact hR.pure trivial
  | cons a rest ih =>
    rw [List.forIn_cons, List.forIn_cons]
    refine hR.bind (h a List.mem_cons_self) fun r hr => ?_
    rw [hr]
    exact ih fun a ha => h a (List.mem_cons_of_mem _ ha)

end Compositional

def Machine.over (m o : Machine) : Machine :=
  { o with heap := m.heap, charged := m.charged, identities := m.identities }

def Fault.Plain (Q : Func → Prop) : Fault → Prop
  | .thrown v => v.Holds Q
  | .raised _ | .endless => True
  | .timeout _ | .exhausted => False

def RuntimeError.isOffTarget : RuntimeError → Bool
  | .invalidTarget => true
  | _ => false

def Fault.Ordinary (Q : Func → Prop) : Fault → Prop
  -- A plain fault that operations on values may come to: all but that of an assignment to what
  -- cannot be assigned to.
  | .raised e => e.isOffTarget = false
  | e => e.Plain Q

theorem Fault.Ordinary.plain {Q : Func → Prop} {e : Fault} (he : e.Ordinary Q) : e.Plain Q := by
  cases e with
  | raised e => trivial
  | _ => exact he

def Ends {α : Type} (V : α → Prop) (E : Fault → Prop) (S : Machine → Prop) :
    EStateM.Result Fault Machine α → Prop
  -- What a computation comes to: a result, or a fault, in a state, each of which satisfies a
  -- condition.
  | .ok a m => V a ∧ S m
  | .error e m => E e ∧ S m

theorem Ends.imp {α : Type} {V V' : α → Prop} {E E' : Fault → Prop} {S S' : Machine → Prop}
    {r : EStateM.Result Fault Machine α} (h : Ends V E S r) (hV : ∀ a, V a → V' a)
    (hE : ∀ e, E e → E' e) (hS : ∀ m, S m → S' m) : Ends V' E' S' r := by
  cases r with
  | ok a m => exact ⟨hV a h.1, hS m h.2⟩
  | error e m => exact ⟨hE e h.1, hS m h.2⟩

/-- A result that satisfies a condition, or an ordinary fault, with a heap that holds functions of `Q`. -/
def Settled (Q : Func → Prop) {α : Type} (V : α → Prop) (r : EStateM.Result Fault Machine α) : Prop :=
  Ends V (Fault.Ordinary Q) (fun m => m.heap.Holds Q) r

def onState {α : Type} (f : Machine → Machine) :
    EStateM.Result Fault Machine α → EStateM.Result Fault Machine α
  | .ok a m => .ok a (f m)
  | .error e m => .error e (f m)

def Quiet (Q : Func → Prop) {α : Type} (V : α → Prop) (x : Run α) : Prop :=
  -- A computation that comes to the same result with any state around the store, which it leaves
  -- alone.
  ∀ m : Machine, m.heap.Holds Q →
    Settled Q V (x m) ∧ ∀ o, x (m.over o) = onState (fun m => m.over o) (x m)

variable {Q : Func → Prop}

theorem run_bind_ok {α β : Type} {x : Run α} {f : α → Run β} {m m' : Machine} {a : α}
    (h : x m = .ok a m') : (x >>= f) m = f a m' := by
  change EStateM.bind x f m = f a m'
  unfold EStateM.bind
  rw [h]

theorem run_bind_error {α β : Type} {x : Run α} {f : α → Run β} {m m' : Machine} {e : Fault}
    (h : x m = .error e m') : (x >>= f) m = .error e m' := by
  change EStateM.bind x f m = .error e m'
  unfold EStateM.bind
  rw [h]

/-- What ends well has ended well in its first part. -/
theorem of_run_bind {α β : Type} {x : Run α} {f : α → Run β} {m m' : Machine} {b : β}
    (h : (x >>= f) m = .ok b m') : ∃ a m₁, x m = .ok a m₁ ∧ f a m₁ = .ok b m' := by
  cases hx : x m with
  | error e m₁ =>
    rw [run_bind_error hx] at h
    cases h
  | ok a m₁ =>
    rw [run_bind_ok hx] at h
    exact ⟨a, m₁, rfl, h⟩

theorem run_bind_congr {α β : Type} {x y : Run α} {f : α → Run β} {m : Machine} (h : x m = y m) :
    (x >>= f) m = (y >>= f) m := by
  cases hy : y m with
  | ok a m' => rw [run_bind_ok (h.trans hy), run_bind_ok hy]
  | error e m' => rw [run_bind_error (h.trans hy), run_bind_error hy]

/-- Quiet computations may follow one another. -/
theorem Quiet.compositional : Compositional fun V x _ => Quiet Q V x where
  pure ha m hm := ⟨⟨ha, hm⟩, fun _ => rfl⟩
  bind {α β V W x y f g} hx hf m hm := by
    obtain ⟨hs, ho⟩ := hx m hm
    cases h : x m with
    | ok a m' =>
      rw [h] at hs ho
      obtain ⟨hs', ho'⟩ := hf a hs.1 m' hs.2
      rw [run_bind_ok h]
      exact ⟨hs', fun o => (run_bind_ok (ho o)).trans (ho' o)⟩
    | error e m' =>
      rw [h] at hs ho
      rw [run_bind_error h]
      exact ⟨hs, fun o => run_bind_error (ho o)⟩

namespace Quiet

variable {α β : Type} {V : α → Prop} {W : β → Prop}

theorem pure {a : α} (ha : V a) : Quiet Q V (Pure.pure a : Run α) := compositional.pure ha

theorem bind {x : Run α} {f : α → Run β} (hx : Quiet Q V x) (hf : ∀ a, V a → Quiet Q W (f a)) :
    Quiet Q W (x >>= f) :=
  compositional.bind (y := x) (g := f) hx hf

theorem map {x : Run α} {f : α → β} (hx : Quiet Q V x) (hf : ∀ a, V a → W (f a)) :
    Quiet Q W (f <$> x) :=
  compositional.map (y := x) hx hf

theorem ite {c : Prop} [Decidable c] {x y : Run α} (hx : c → Quiet Q V x) (hy : ¬ c → Quiet Q V y) :
    Quiet Q V (if c then x else y) := by
  by_cases hc : c
  · simpa only [if_pos hc] using hx hc
  · simpa only [if_neg hc] using hy hc

theorem mapM {f : α → Run β} {xs : List α} (h : ∀ a ∈ xs, Quiet Q W (f a)) :
    Quiet Q (fun ys => ∀ y ∈ ys, W y) (xs.mapM f) :=
  compositional.mapM (g := f) h

theorem foldlM {f : β → α → Run β} {xs : List α} (h : ∀ b, W b → ∀ a ∈ xs, Quiet Q W (f b a))
    {b : β} (hb : W b) : Quiet Q W (xs.foldlM f b) :=
  compositional.foldlM (g := f) h hb

theorem forIn {f : α → PUnit → Run (ForInStep PUnit)} {xs : List α}
    (h : ∀ a ∈ xs, Quiet Q (fun r => r = .yield ⟨⟩) (f a ⟨⟩)) :
    Quiet Q Any (forIn xs PUnit.unit f) :=
  compositional.forIn (g := f) h

theorem throw {e : Fault} (he : e.Ordinary Q) : Quiet Q V (MonadExcept.throw e : Run α) :=
  fun _ hm => ⟨⟨he, hm⟩, fun _ => rfl⟩

theorem raise {e : RuntimeError} (he : e.isOffTarget = false) : Quiet Q V (Run.raise e) :=
  throw he

theorem ofExcept {r : Except RuntimeError α} (hV : ∀ a, r = .ok a → V a)
    (hE : ∀ e, r = .error e → e.isOffTarget = false) : Quiet Q V (Run.ofExcept r) := by
  cases r with
  | ok a => exact pure (hV a rfl)
  | error e => exact raise (hE e rfl)

theorem ofText {r : Except TextFault α} : Quiet Q Any (Run.ofText r) := by
  cases r with
  | ok a => exact pure trivial
  | error e =>
    cases e with
    | tooDeep => exact raise rfl
    | endless => exact throw trivial

theorem heap : Quiet Q (Heap.Holds Q) Run.heap := fun _ hm => ⟨⟨hm, hm⟩, fun _ => rfl⟩

theorem modifyHeap {f : Heap → Heap} (hf : ∀ h : Heap, h.Holds Q → (f h).Holds Q) :
    Quiet Q Any (Run.modifyHeap f) :=
  fun m hm => ⟨⟨trivial, hf m.heap hm⟩, fun _ => rfl⟩

theorem charge (bytes : Nat) : Quiet Q Any (Run.charge bytes) :=
  fun _ hm => ⟨⟨trivial, hm⟩, fun _ => rfl⟩

theorem makeFunction {f : Function} (hf : f.Holds Q) :
    Quiet Q (Value.Holds Q) (Run.makeFunction f) :=
  fun _ hm => ⟨⟨hf, hm⟩, fun _ => rfl⟩

theorem makeScope {s : Scope} (hs : ∀ b ∈ s.bindings, b.2.value.Holds Q) :
    Quiet Q Any (Run.makeScope s) := by
  intro m hm
  refine ⟨⟨trivial, ⟨?_, hm.arrays, hm.objects⟩⟩, fun _ => rfl⟩
  intro scope hscope
  obtain hscope | rfl := Array.mem_push.mp hscope
  · exact hm.scopes scope hscope
  · exact hs

theorem childScope (parent : ScopeRef) : Quiet Q Any (Run.childScope parent) :=
  makeScope fun _ hb => absurd hb List.not_mem_nil

theorem makeArrayOf {xs : Array Value} (hx : ∀ v ∈ xs, v.Holds Q) :
    Quiet Q (Value.Holds Q) (Run.makeArrayOf xs) := by
  intro m hm
  refine ⟨⟨trivial, ⟨hm.scopes, ?_, hm.objects⟩⟩, fun _ => rfl⟩
  intro ys hys
  obtain hys | rfl := Array.mem_push.mp hys
  · exact hm.arrays ys hys
  · exact hx

theorem makeArray {xs : List Value} (hx : ∀ v ∈ xs, v.Holds Q) :
    Quiet Q (Value.Holds Q) (Run.makeArray xs) :=
  makeArrayOf fun v hv => hx v (List.mem_toArray.mp hv)

theorem makeObject {o : Object} (ho : o.Holds Q) : Quiet Q (Value.Holds Q) (Run.makeObject o) := by
  intro m hm
  refine ⟨⟨trivial, ⟨hm.scopes, hm.arrays, ?_⟩⟩, fun _ => rfl⟩
  intro object hobject
  obtain hobject | rfl := Array.mem_push.mp hobject
  · exact hm.objects object hobject
  · exact ho

theorem makeString (s : String) : Quiet Q (Value.Holds Q) (Run.makeString s) :=
  ite (fun _ => raise rfl) fun _ => bind (charge _) fun _ _ => pure trivial

theorem makeError (kind : ErrorKind) (message : String) :
    Quiet Q (Value.Holds Q) (Run.makeError kind message) :=
  makeObject (Object.holds_error kind message)

theorem makeClosure {f : Func} (hf : Q f) (scope : ScopeRef) :
    Quiet Q (Value.Holds Q) (Run.makeClosure f scope) :=
  bind (charge _) fun _ _ => makeFunction hf

theorem makeClass {c : ClassDef} (hc : ∀ f ∈ c.functions, Q f) (scope : ScopeRef) :
    Quiet Q (Value.Holds Q) (Run.makeClass c scope) :=
  bind (charge _) fun _ _ => makeFunction hc

theorem declare (scope : ScopeRef) (name : String) {v : Value} (hv : v.Holds Q) (isMutable : Bool) :
    Quiet Q Any (Run.declare scope name v isMutable) :=
  modifyHeap fun _ hh => Heap.holds_declare hh scope name hv

theorem lookup? (scope : ScopeRef) (name : String) :
    Quiet Q (fun v? => ∀ v, v? = some v → v.Holds Q) (Run.lookup? scope name) :=
  fun _ hm => ⟨⟨fun _ hv => Heap.holds_lookup? hm hv, hm⟩, fun _ => rfl⟩

theorem items (a : ArrayRef) : Quiet Q (fun xs => ∀ v ∈ xs, v.Holds Q) (Run.items a) :=
  fun _ hm => ⟨⟨Heap.holds_items hm a, hm⟩, fun _ => rfl⟩

theorem modifyItems (a : ArrayRef) {f : Array Value → Array Value}
    (hf : ∀ xs : Array Value, (∀ v ∈ xs, v.Holds Q) → ∀ v ∈ f xs, v.Holds Q) :
    Quiet Q Any (Run.modifyItems a f) :=
  modifyHeap fun _ hh => Heap.holds_modifyItems hh a hf

theorem object (o : ObjectRef) : Quiet Q (Object.Holds Q) (Run.object o) :=
  fun _ hm => ⟨⟨Heap.holds_object hm o, hm⟩, fun _ => rfl⟩

theorem modifyObject (o : ObjectRef) {f : Object → Object}
    (hf : ∀ object : Object, object.Holds Q → (f object).Holds Q) :
    Quiet Q Any (Run.modifyObject o f) :=
  modifyHeap fun _ hh => Heap.holds_modifyObject hh o hf

/-- The number of a value, which the heap alone decides. -/
theorem run_toNumber {v : Value} {x : Float} {m : Machine} (h : m.heap.number? v = some x) :
    Run.toNumber v m = .ok x m := by
  cases v with
  | number y =>
    obtain rfl : y = x := Option.some.inj h
    rfl
  | _ =>
    unfold Run.toNumber
    simp only [h]

theorem run_toNumber_endless {v : Value} {m : Machine} (h : m.heap.number? v = none) :
    Run.toNumber v m = .error .endless m := by
  cases v with
  | number y => cases h
  | _ =>
    unfold Run.toNumber
    simp only [h]

/-- A number is found without changing anything, or not at all. -/
theorem toNumber (v : Value) : Quiet Q Any (Run.toNumber v) := by
  intro m hm
  cases hv : m.heap.number? v with
  | some x =>
    rw [run_toNumber hv]
    exact ⟨⟨trivial, hm⟩, fun _ => run_toNumber hv⟩
  | none =>
    rw [run_toNumber_endless hv]
    exact ⟨⟨trivial, hm⟩, fun _ => run_toNumber_endless hv⟩

theorem toText (v : Value) : Quiet Q Any (Run.toText v) := by
  cases v with
  | string s => exact pure trivial
  | _ => exact bind heap fun _ _ => ofText

theorem toStrictText (v : Value) : Quiet Q Any (Run.toStrictText v) := by
  cases v with
  | string s => exact pure trivial
  | _ => exact bind heap fun _ _ => ofText

theorem toPrinted (v : Value) : Quiet Q Any (Run.toPrinted v) := bind heap fun _ _ => ofText

end Quiet

end Snippet.Script
