import Snippet.Proofs.ObjectKeys
import Snippet.Proofs.Steady

/-!
Conditions on the state of a run that a computation upholds. Most operations on values neither make nor change
arrays or scopes, so they uphold every condition to which nothing else matters.
-/

namespace Snippet.Script

def Upholds (S : Machine → Prop) {α : Type} (V : α → Prop) (x : Run α) : Prop :=
  -- A computation at whose end a condition on states is true again, whether it fails or not, given
  -- what is true of its results.
  ∀ m : Machine, S m → Ends V Any S (x m)

def Object.MadeAlike (o o' : Object) : Prop := o'.className = o.className ∧ o'.isError = o.isError

theorem Object.madeAlike_set (o : Object) (key : String) (v : Value) : o.MadeAlike (o.set key v) := by
  unfold Object.set
  split
  · exact ⟨rfl, rfl⟩
  · split <;> exact ⟨rfl, rfl⟩

theorem Object.madeAlike_remove (o : Object) (key : String) : o.MadeAlike (o.remove key) := ⟨rfl, rfl⟩

structure Object.Becomes (o o' : Object) : Prop where
  -- An object that the other one may become: it could have been made by the same, hides members of
  -- the same keys, and has no two members of one key if the other one had none.
  alike : o.MadeAlike o'
  hidden : o'.hidden.map Prod.fst = o.hidden.map Prod.fst
  tidy : o.Tidy → o'.Tidy

theorem Object.becomes_set (o : Object) (key : String) (v : Value) : o.Becomes (o.set key v) :=
  ⟨o.madeAlike_set key v, (o.keys_set key v).1, fun h => h.set key v⟩

theorem Object.becomes_remove (o : Object) (key : String) : o.Becomes (o.remove key) :=
  ⟨o.madeAlike_remove key, rfl, fun h => h.remove key⟩

class StoreCondition (S : Machine → Prop) : Prop where
  -- A condition on states to which nothing matters but the store, and which is upheld where an
  -- object is made without two members of one key, and where an object is changed to one that it
  -- may become.
  unchanged {m m' : Machine} : S m → m'.heap = m.heap → S m'
  makeObject {o : Object} (ho : o.memberKeys.Nodup) : Upholds S Any (Run.makeObject o)
  modifyObject (o : ObjectRef) {f : Object → Object} (hf : ∀ x : Object, x.Becomes (f x)) :
    Upholds S Any (Run.modifyObject o f)

class InstanceCondition (S : Machine → Prop) : Prop extends StoreCondition S where
  -- A condition on the store that is upheld where an instance is made, whose methods may have any
  -- names.
  makeInstance {o : Object} (ho : o.entries = []) : Upholds S Any (Run.makeObject o)

class HeapCondition (S : Machine → Prop) : Prop where
  stable {m m' : Machine} : S m → m'.heap.arrays = m.heap.arrays → m'.heap.scopes = m.heap.scopes → S m'

instance (S : Machine → Prop) [HeapCondition S] : InstanceCondition S where
  unchanged hm heq := HeapCondition.stable hm (heq ▸ rfl) (heq ▸ rfl)
  makeObject _ _ hm := ⟨trivial, HeapCondition.stable hm rfl rfl⟩
  makeInstance _ _ hm := ⟨trivial, HeapCondition.stable hm rfl rfl⟩
  modifyObject _ _ _ _ hm := ⟨trivial, HeapCondition.stable hm rfl rfl⟩

class ScopeCondition (S : Machine → Prop) : Prop where
  stable {m m' : Machine} : S m → m'.heap.scopes = m.heap.scopes → S m'

instance (S : Machine → Prop) [ScopeCondition S] : HeapCondition S :=
  ⟨fun hm _ => ScopeCondition.stable hm⟩

theorem Upholds.compositional (S : Machine → Prop) : Compositional fun V x _ => Upholds S V x where
  pure ha _ hm := ⟨ha, hm⟩
  bind {α β V W x y f g} hx hf m hm := by
    have hends := hx m hm
    cases h : x m with
    | ok a m' =>
      rw [h] at hends
      rw [run_bind_ok h]
      exact hf a hends.1 m' hends.2
    | error e m' =>
      rw [h] at hends
      rw [run_bind_error h]
      exact ⟨trivial, hends.2⟩

namespace Upholds

variable {S : Machine → Prop} {α β : Type} {V : α → Prop} {W : β → Prop}

theorem pure {a : α} (ha : V a) : Upholds S V (Pure.pure a : Run α) := (compositional S).pure ha

theorem bind {x : Run α} {f : α → Run β} (hx : Upholds S V x) (hf : ∀ a, V a → Upholds S W (f a)) :
    Upholds S W (x >>= f) :=
  (compositional S).bind (y := x) (g := f) hx hf

theorem map {x : Run α} {f : α → β} (hx : Upholds S V x) (hf : ∀ a, V a → W (f a)) :
    Upholds S W (f <$> x) :=
  (compositional S).map (y := x) hx hf

theorem ite {c : Prop} [Decidable c] {x y : Run α} (hx : c → Upholds S V x) (hy : ¬ c → Upholds S V y) :
    Upholds S V (if c then x else y) := by
  split
  · exact hx ‹c›
  · exact hy ‹¬ c›

theorem mapM {f : α → Run β} {xs : List α} (h : ∀ a ∈ xs, Upholds S W (f a)) :
    Upholds S (fun ys => ∀ y ∈ ys, W y) (xs.mapM f) :=
  (compositional S).mapM (g := f) h

theorem foldlM {f : β → α → Run β} {xs : List α} (h : ∀ b, W b → ∀ a ∈ xs, Upholds S W (f b a))
    {b : β} (hb : W b) : Upholds S W (xs.foldlM f b) :=
  (compositional S).foldlM (g := f) h hb

theorem forIn {f : α → PUnit → Run (ForInStep PUnit)} {xs : List α}
    (h : ∀ a ∈ xs, Upholds S (fun r => r = .yield ⟨⟩) (f a ⟨⟩)) :
    Upholds S Any (forIn xs PUnit.unit f) :=
  (compositional S).forIn (g := f) h

theorem imp {V' : α → Prop} {x : Run α} (hx : Upholds S V x) (hV : ∀ a, V a → V' a) : Upholds S V' x :=
  fun m hm => (hx m hm).imp hV (fun _ h => h) fun _ h => h

/-- Nothing is asked of the results any more. -/
theorem any {x : Run α} (hx : Upholds S V x) : Upholds S Any x := hx.imp fun _ _ => trivial

theorem throw (e : Fault) : Upholds S V (MonadExcept.throw e : Run α) := fun _ hm => ⟨trivial, hm⟩

theorem raise (e : RuntimeError) : Upholds S V (Run.raise e : Run α) := throw _

theorem ofExcept {r : Except RuntimeError α} : Upholds S Any (Run.ofExcept r) := by
  cases r with
  | ok a => exact pure trivial
  | error e => exact raise e

theorem ofText {r : Except TextFault α} : Upholds S Any (Run.ofText r) := by
  cases r with
  | ok a => exact pure trivial
  | error e => cases e <;> exact throw _

theorem heap : Upholds S Any Run.heap := fun _ hm => ⟨trivial, hm⟩

theorem discard {x : Run α} (hx : Upholds S V x) : Upholds S Any (discard x) :=
  (compositional S).discard (y := x) hx

/-- Where nothing is asked of states, every computation upholds it. -/
theorem anyState (x : Run α) : Upholds Any Any x := by
  intro m _
  cases x m <;> exact ⟨trivial, trivial⟩

/-- The outcome of a computation is a value that satisfies what its results do, or a fault. -/
theorem outcome {x : Run α} (hx : Upholds S V x) :
    Upholds S (fun r => ∀ a, r = .ok a → V a) (Run.outcome x) := by
  intro m hm
  have hends := hx m hm
  unfold Run.outcome
  cases h : x m with
  | ok a m' =>
    rw [h] at hends
    refine ⟨fun b hb => ?_, hends.2⟩
    obtain rfl := Except.ok.inj hb
    exact hends.1
  | error e m' =>
    rw [h] at hends
    refine ⟨fun _ hb => ?_, hends.2⟩
    cases hb

theorem ofOutcome {r : Except Fault α} (hr : ∀ a, r = .ok a → V a) : Upholds S V (Run.ofOutcome r) := by
  cases r with
  | ok a => exact pure (hr a rfl)
  | error e => exact throw e

theorem rounds : Upholds S Any Run.rounds := fun _ hm => ⟨trivial, hm⟩

theorem waiting : Upholds S Any Run.waiting := fun _ hm => ⟨trivial, hm⟩

theorem lookup? (scope : ScopeRef) (name : String) : Upholds S Any (Run.lookup? scope name) :=
  fun _ hm => ⟨trivial, hm⟩

theorem items (a : ArrayRef) : Upholds S Any (Run.items a) := fun _ hm => ⟨trivial, hm⟩

theorem object (o : ObjectRef) : Upholds S Any (Run.object o) := fun _ hm => ⟨trivial, hm⟩

theorem toNumber (v : Value) : Upholds S Any (Run.toNumber v) := by
  intro m hm
  cases hv : m.heap.number? v with
  | some x =>
    rw [Quiet.run_toNumber hv]
    exact ⟨trivial, hm⟩
  | none =>
    rw [Quiet.run_toNumber_endless hv]
    exact ⟨trivial, hm⟩

theorem toText (v : Value) : Upholds S Any (Run.toText v) := by
  cases v with
  | string s => exact pure trivial
  | _ => exact bind heap fun _ _ => ofText

theorem toStrictText (v : Value) : Upholds S Any (Run.toStrictText v) := by
  cases v with
  | string s => exact pure trivial
  | _ => exact bind heap fun _ _ => ofText

theorem toPrinted (v : Value) : Upholds S Any (Run.toPrinted v) := bind heap fun _ _ => ofText

theorem ownKeys (v : Value) : Upholds S Any (Run.ownKeys v) := bind heap fun _ _ => pure trivial

theorem describe (v : Value) : Upholds S Any (Run.describe v) := by
  unfold Run.describe
  split
  · exact pure trivial
  · exact pure trivial
  · exact pure trivial
  · exact pure trivial
  · exact toText _

theorem toPrimitive (v : Value) : Upholds S Any (Run.toPrimitive v) := by
  cases v with
  | array a => exact bind (toText _) fun _ _ => pure trivial
  | object o => exact bind (toText _) fun _ _ => pure trivial
  | _ => exact pure trivial

theorem numeric (f : Float → Float → Float) (v w : Value) : Upholds S Any (Run.numeric f v w) :=
  bind (toNumber v) fun _ _ => bind (toNumber w) fun _ _ => pure trivial

theorem equalNumbers (v w : Value) :
    Upholds S Any (Run.toNumber v >>= fun x => Run.toNumber w >>= fun y =>
      (Pure.pure (x == y) : Run Bool)) :=
  bind (toNumber v) fun _ _ => bind (toNumber w) fun _ _ => pure trivial

theorem isIn (key container : Value) : Upholds S Any (Run.isIn key container) := by
  refine bind (toText key) fun _ _ => ?_
  split
  · exact bind (object _) fun _ _ => pure trivial
  · exact bind (items _) fun _ _ => pure trivial
  · exact bind (toText _) fun _ _ => raise _

theorem instanceOf (v f : Value) : Upholds S Any (Run.instanceOf v f) := by
  cases f with
  | function f identity =>
    cases v with
    | object o => exact bind (object o) fun _ _ => pure trivial
    | _ => exact pure trivial
  | _ => exact raise _

theorem numberArgument? (arguments : List Value) (i : Nat) :
    Upholds S Any (Run.numberArgument? arguments i) := by
  unfold Run.numberArgument?
  split
  · exact pure trivial
  · exact map (toNumber _) fun _ _ => trivial

theorem textArgument (arguments : List Value) (i : Nat) :
    Upholds S Any (Run.textArgument arguments i) :=
  bind (toText _) fun _ _ => pure trivial

theorem evalName (scope : ScopeRef) (name : String) : Upholds S Any (Run.evalName scope name) := by
  refine bind (lookup? scope name) fun v? _ => ?_
  cases v? with
  | some v => exact pure trivial
  | none => exact raise _

theorem directiveText (d : Directive) (v : Value) : Upholds S Any (Run.directiveText d v) := by
  cases d with
  | text =>
    unfold Run.directiveText
    dsimp only
    split
    · exact bind (toPrinted _) fun _ _ => pure trivial
    · exact bind (toPrinted _) fun _ _ => pure trivial
    · exact bind (toText _) fun _ _ => pure trivial
  | number => exact bind (toNumber v) fun _ _ => pure trivial
  | integer => exact bind (toNumber v) fun _ _ => pure trivial
  | float => exact bind (toText v) fun _ _ => pure trivial
  | json => exact bind heap fun _ _ => pure trivial
  | skip => exact pure trivial
  | printed => exact bind (toPrinted v) fun _ _ => pure trivial

theorem numberOf (arguments : List Value) (i : Nat) : Upholds S Any (Run.numberOf arguments i) := by
  unfold Run.numberOf
  split
  · exact toNumber _
  · exact pure trivial

theorem convertToNumber (arguments : List Value) : Upholds S Any (Run.convertToNumber arguments) := by
  cases arguments with
  | nil => exact pure trivial
  | cons v rest => exact bind (toNumber v) fun _ _ => pure trivial

theorem convertToString (arguments : List Value) : Upholds S Any (Run.convertToString arguments) := by
  cases arguments with
  | nil => exact pure trivial
  | cons v rest => exact bind (toStrictText v) fun _ _ => pure trivial

theorem testNumber (test : Float → Bool) (arguments : List Value) :
    Upholds S Any (Run.testNumber test arguments) := by
  unfold Run.testNumber
  split
  · exact pure trivial
  · exact pure trivial

theorem extremeOf (precedes : Float → Float → Bool) (best : Float) (arguments : List Value) :
    Upholds S Any (Run.extremeOf precedes best arguments) := by
  induction arguments generalizing best with
  | nil => exact pure trivial
  | cons v rest ih =>
    refine bind (toNumber v) fun x _ => ?_
    split
    · exact pure trivial
    · exact ih _

theorem iterate (v : Value) : Upholds S Any (Run.iterate v) := by
  have hother (v : Value) :
      Upholds S Any
        (Run.describe v >>= fun label => Run.raise (.notIterable label) : Run (Array Value)) :=
    bind (describe v) fun _ _ => raise _
  cases v with
  | array a => exact (items a).any
  | string s => exact pure trivial
  | _ => exact hother _

theorem toSummand (v : Value) : Upholds S Any (Run.toSummand v) := by
  unfold Run.toSummand
  split
  · exact bind (toStrictText _) fun _ _ => pure trivial
  · exact toPrimitive v

theorem comparison (holds : Ordering → Bool) (v w : Value) :
    Upholds S Any (Run.comparison holds v w) := by
  have hcompare : Upholds S Any (Run.compare? v w) := by
    unfold Run.compare?
    refine bind (toPrimitive v) fun a _ => bind (toPrimitive w) fun b _ => ?_
    split
    · exact pure trivial
    · exact bind (toNumber _) fun _ _ => bind (toNumber _) fun _ _ => pure trivial
  exact bind hcompare fun _ _ => pure trivial

theorem looseEqPrimitive (v w : Value) : Upholds S Any (Run.looseEqPrimitive v w) := by
  unfold Run.looseEqPrimitive
  split
  · exact equalNumbers _ _
  · exact equalNumbers _ _
  · exact pure trivial

theorem numberMethod (x : Float) (m : NumberMethod) (arguments : List Value) :
    Upholds S Any (Run.numberMethod x m arguments) := by
  cases m with
  | valueOf => exact pure trivial
  | toLocaleString => exact pure trivial
  | toFixed =>
    refine bind (numberArgument? arguments 0) fun _ _ => ?_
    exact ite (fun _ => pure trivial) fun _ => raise _
  | text =>
    refine bind (numberArgument? arguments 0) fun radix? _ => ?_
    cases radix? with
    | none => exact pure trivial
    | some radix => exact ite (fun _ => pure trivial) fun _ => raise _

theorem charArgument? (s : List Char) (arguments : List Value) :
    Upholds S Any (Run.charArgument? s arguments) :=
  bind (numberArgument? arguments 0) fun _ _ => pure trivial

theorem padded (atStart : Bool) (s : String) (arguments : List Value) :
    Upholds S Any (Run.padded atStart s arguments) := by
  refine bind (numberArgument? arguments 0) fun _ _ => ite (fun _ => raise _) fun _ => ?_
  have hfill (fill : List Char) (target : Nat) :
      Upholds S Any
        (if (decide (target ≤ s.length) || fill.isEmpty) = true then Pure.pure (.string s)
        else
          let padding := String.ofList (cycle (target - s.length) fill)
          Pure.pure (.string (if atStart then padding ++ s else s ++ padding)) : Run Value) :=
    ite (fun _ => pure trivial) fun _ => pure trivial
  dsimp only
  split
  · exact hfill [' '] _
  · exact bind (toText _) fun text _ => hfill text.toList _

theorem format (done : List Char) (arguments : List Value) (s : List Char) :
    Upholds S Any (Run.format done arguments s) := by
  fun_induction Run.format done arguments s with
  | case1 => exact pure trivial
  | case2 => exact pure trivial
  | case3 done arguments rest ih => exact ih
  | case4 done letter rest hne d v vs hd ih => exact bind (directiveText d v) fun text _ => ih text
  | case5 done arguments letter rest hne hother ih => exact ih
  | case6 done arguments c rest _ _ _ ih => exact ih

theorem readInteger (arguments : List Value) : Upholds S Any (Run.readInteger arguments) :=
  bind (textArgument arguments 0) fun _ _ =>
    bind (numberArgument? arguments 1) fun _ _ => pure trivial

theorem readNumber (arguments : List Value) : Upholds S Any (Run.readNumber arguments) :=
  bind (textArgument arguments 0) fun _ _ => pure trivial

/-- A comparison with `==` only looks at the heap and converts. -/
theorem looseEq (v w : Value) : Upholds S Any (Run.looseEq v w) := by
  have hprimitive (v w : Value) :
      Upholds S Any (Run.toPrimitive v >>= fun a => Run.toPrimitive w >>= fun b =>
        Run.looseEqPrimitive a b) :=
    bind (toPrimitive v) fun _ _ => bind (toPrimitive w) fun _ _ => looseEqPrimitive _ _
  unfold Run.looseEq
  split
  · exact pure trivial
  · exact pure trivial
  · exact pure trivial
  · exact pure trivial
  · exact equalNumbers _ _
  · exact equalNumbers _ _
  all_goals first
    | exact hprimitive _ _
    | exact looseEqPrimitive _ _

theorem visited (keys : Bool) (subject : Value) : Upholds S Any (Run.visited keys subject) :=
  ite (fun _ => bind (ownKeys subject) fun _ _ => pure trivial) fun _ =>
    bind (iterate subject) fun _ _ => pure trivial

theorem consoleLine (arguments : List Value) : Upholds S Any (Run.consoleLine arguments) := by
  have hplain (vs : List Value) :
      Upholds S Any (vs.mapM Run.toPrinted >>= fun parts =>
        (Pure.pure (" ".intercalate parts) : Run String)) :=
    bind (mapM fun v _ => toPrinted v) fun _ _ => pure trivial
  unfold Run.consoleLine
  split
  · refine ite (fun _ => ?_) fun _ => hplain _
    exact bind (format _ _ _) fun r _ => bind (mapM fun v _ => toPrinted v) fun _ _ => pure trivial
  · exact hplain _

section Strings

variable {call : Value → List Value → Run Value} (hcall : ∀ f arguments, Upholds S Any (call f arguments))
include hcall

theorem replacementFor (pattern : List Char) (replacement : Value) (place : Nat) :
    Upholds S Any (Run.replacementFor call pattern replacement place) := by
  refine ite (fun _ => ?_) fun _ => bind (toText replacement) fun _ _ => pure trivial
  exact bind (hcall replacement _) fun v _ => bind (toText v) fun _ _ => pure trivial

/-- By induction on the steps in which a pattern may be replaced. -/
theorem replaceWithin (all : Bool) (pattern : List Char) (replacement : Value) (fuel passed : Nat)
    (done rest : List Char) :
    Upholds S Any (Run.replaceWithin call all pattern replacement fuel passed done rest) := by
  induction fuel generalizing passed done rest with
  | zero => exact pure trivial
  | succ fuel ih =>
    unfold Run.replaceWithin
    cases Text.breakOn? pattern [] rest with
    | none => exact pure trivial
    | some found =>
      obtain ⟨before, after⟩ := found
      refine bind (replacementFor hcall pattern replacement _) fun text _ => ?_
      refine ite (fun _ => pure trivial) fun _ => ite (fun _ => ?_) fun _ => ih _ _ _
      cases after with
      | nil => exact pure trivial
      | cons c after => exact ih _ _ _

end Strings

theorem callbackArgument (arguments : List Value) (method : String) :
    Upholds S Any (Run.callbackArgument arguments method) := by
  cases arguments with
  | nil => exact raise _
  | cons f rest => exact ite (fun _ => pure trivial) fun _ => bind (toPrinted f) fun _ _ => raise _

section Sorting

variable {swap : SwapTest} (hswap : ∀ v w, Upholds S Any (swap v w))
include hswap

theorem merge (fuel : Nat) (done left right : List Value) :
    Upholds S Any (Run.merge swap done fuel left right) := by
  induction fuel generalizing done left right with
  | zero => exact pure trivial
  | succ fuel ih =>
    cases left with
    | nil => exact pure trivial
    | cons a left =>
      cases right with
      | nil => exact pure trivial
      | cons b right => exact bind (hswap a b) fun _ _ => ite (fun _ => ih _ _ _) fun _ => ih _ _ _

theorem sortWithin (fuel : Nat) (xs : List Value) : Upholds S Any (Run.sortWithin swap fuel xs) := by
  induction fuel generalizing xs with
  | zero => exact pure trivial
  | succ fuel ih =>
    refine ite (fun _ => pure trivial) fun _ => ?_
    exact bind (ih _) fun _ _ => bind (ih _) fun _ _ => merge hswap _ _ _ _

end Sorting

theorem checkGrowth (a : ArrayRef) (arguments : List Value) :
    Upholds S Any (Run.checkGrowth a arguments) :=
  bind (items a) fun _ _ => ite (fun _ => raise _) fun _ => pure trivial

theorem lengthValue (a : ArrayRef) : Upholds S Any (Run.lengthValue a) :=
  bind (items a) fun _ _ => pure trivial

theorem visitStep (v : Visit) (done : List Value) (i : Nat) (item result : Value) :
    Upholds S Any (Run.visitStep v done i item result) := by
  cases v with
  | flatMap =>
    cases result with
    | array inner => exact bind (items inner) fun _ _ => pure trivial
    | _ => exact pure trivial
  | _ => exact pure trivial

/-- Flattening only puts elements behind one another. -/
theorem flattenWithin (depth : Float) (room : Nat) (done xs : List Value) :
    Upholds S Any (Run.flattenWithin depth room done xs) := by
  induction room generalizing depth done xs with
  | zero => exact raise _
  | succ room ih =>
    refine foldlM (W := Any) (fun done _ v _ => ?_) trivial
    cases v with
    | array inner => exact ite (fun _ => bind (items inner) fun _ _ => ih _ _ _) fun _ => pure trivial
    | _ => exact pure trivial

theorem sourceItems (v : Value) : Upholds S Any (Run.sourceItems v) := by
  have hlength (length : Float) :
      Upholds S Any
        (if 0.0 ≤ length && length ≤ Float.ofNat maxArraySize then
          Pure.pure (List.replicate (Number.toNatClamped length) .undefined)
        else Run.raise .arrayLength : Run (List Value)) :=
    ite (fun _ => pure trivial) fun _ => raise _
  unfold Run.sourceItems
  split
  · refine bind (object _) fun o _ => ?_
    dsimp only
    split
    · exact bind (toNumber _) fun length _ => hlength length
    · exact hlength 0.0
  · exact bind (iterate _) fun _ _ => pure trivial

section Calls

variable {call : Caller} (hcall : ∀ f receiver arguments, Upholds S Any (call f receiver arguments))
include hcall

theorem reduce (callback array acc : Value) (xs : List (Nat × Value)) :
    Upholds S Any (Run.reduce call callback array acc xs) := by
  induction xs generalizing acc with
  | nil => exact pure trivial
  | cons e rest ih => exact bind (hcall callback .undefined _) fun acc _ => ih acc

theorem reduceFrom (callback array : Value) (start : Option Value) (xs : List (Nat × Value)) :
    Upholds S Any (Run.reduceFrom call callback array start xs) := by
  cases start with
  | some acc => exact reduce hcall callback array acc xs
  | none =>
    cases xs with
    | nil => exact raise _
    | cons e rest => exact reduce hcall callback array e.2 rest

/-- The orders that a sort may ask for. -/
theorem sortOrder (arguments : List Value) :
    Upholds S (fun swap => ∀ v w, Upholds S Any (swap v w)) (Run.sortOrder call arguments) := by
  have htextOrder (v w : Value) : Upholds S Any (Run.textOrder v w) := by
    unfold Run.textOrder
    split
    · exact pure trivial
    · exact pure trivial
    · exact pure trivial
    · exact bind (toText _) fun _ _ => bind (toText _) fun _ _ => pure trivial
  unfold Run.sortOrder
  split
  · exact pure htextOrder
  · refine ite (fun _ => pure fun v w => ?_) fun _ => raise _
    exact bind (hcall _ .undefined _) fun result _ => bind (toNumber result) fun _ _ => pure trivial

end Calls

-- Steps that change the state, but neither arrays nor scopes.

section Store

variable [StoreCondition S]

/-- A change of anything but the store. -/
theorem change {a : α} {f : Machine → Machine} (ha : V a) (hf : ∀ m, (f m).heap = m.heap) :
    Upholds S V (fun m => .ok a (f m)) :=
  fun m hm => ⟨ha, StoreCondition.unchanged hm (hf m)⟩

theorem charge (bytes : Nat) : Upholds S Any (Run.charge bytes) := change trivial fun _ => rfl

theorem makeFunction (f : Function) : Upholds S Any (Run.makeFunction f) :=
  fun _ hm => ⟨trivial, StoreCondition.unchanged hm rfl⟩

theorem modifyTranscript (f : Transcript → Transcript) : Upholds S Any (Run.modifyTranscript f) :=
  change trivial fun _ => rfl

theorem random : Upholds S Any Run.random := by
  intro m hm
  unfold Run.random
  exact ⟨trivial, StoreCondition.unchanged hm rfl⟩

theorem nextTimer? : Upholds S Any Run.nextTimer? := by
  intro m hm
  unfold Run.nextTimer?
  cases m.timers.next? with
  | none => exact ⟨trivial, hm⟩
  | some found => exact ⟨trivial, StoreCondition.unchanged hm rfl⟩

theorem checkpoint : Upholds S Any Run.checkpoint := by
  intro m hm
  unfold Run.checkpoint
  cases m.checkpoints with
  | zero => exact ⟨trivial, hm⟩
  | succ n => exact ⟨trivial, StoreCondition.unchanged hm rfl⟩

theorem nested {x : Run α} (hx : Upholds S V x) : Upholds S V (Run.nested x) := by
  intro m hm
  refine Ends.nested (S := fun _ => S) trivial hm (fun _ h => StoreCondition.unchanged h rfl) ?_
  exact hx _ (StoreCondition.unchanged hm rfl)

theorem makeString (s : String) : Upholds S Any (Run.makeString s) :=
  ite (fun _ => raise _) fun _ => bind (charge _) fun _ _ => pure trivial

theorem makeError (kind : ErrorKind) (message : String) : Upholds S Any (Run.makeError kind message) :=
  StoreCondition.makeObject (o := .error kind message) (show ["name", "message"].Nodup by decide)

theorem makeEmpty (className : Option String) : Upholds S Any (Run.makeObject { className }) :=
  StoreCondition.makeObject (o := { className }) List.nodup_nil

theorem makeClosure (f : Func) (scope : ScopeRef) : Upholds S Any (Run.makeClosure f scope) :=
  bind (charge _) fun _ _ => makeFunction _

theorem makeClass (c : ClassDef) (scope : ScopeRef) : Upholds S Any (Run.makeClass c scope) :=
  bind (charge _) fun _ _ => makeFunction _

theorem makeMethod (f? : Option Function) : Upholds S Any (Run.makeMethod f?) := by
  cases f? with
  | none => exact pure trivial
  | some f => exact makeFunction f

theorem stringMember (s key : String) : Upholds S Any (Run.stringMember s key) := by
  refine ite (fun _ => pure trivial) fun _ => ?_
  cases indexOfKey? key with
  | none => exact makeMethod _
  | some i => exact pure trivial

theorem arrayMember (a : ArrayRef) (key : String) : Upholds S Any (Run.arrayMember a key) := by
  refine ite (fun _ => bind (items a) fun _ _ => pure trivial) fun _ => ?_
  cases indexOfKey? key with
  | none => exact makeMethod _
  | some i => exact bind (items a) fun _ _ => pure trivial

theorem objectMember (o : ObjectRef) (key : String) : Upholds S Any (Run.objectMember o key) := by
  refine bind (object o) fun object _ => ?_
  cases object.get? key with
  | none => exact makeMethod _
  | some v => exact pure trivial

theorem builtinMember (b : Builtin) (key : String) : Upholds S Any (Run.builtinMember b key) := by
  unfold Run.builtinMember
  cases b.constant? key with
  | some x => exact pure trivial
  | none => exact ite (fun _ => pure trivial) fun _ => makeMethod _

theorem classMember (c : ClassDef) (scope : ScopeRef) (key : String) :
    Upholds S Any (Run.classMember c scope key) := by
  unfold Run.classMember
  cases c.statics.lookup key with
  | some method => exact makeClosure method scope
  | none => exact pure trivial

theorem getMember (v : Value) (key : String) : Upholds S Any (Run.getMember v key) := by
  cases v with
  | undefined => exact raise _
  | null => exact raise _
  | bool b => exact makeMethod _
  | number x => exact makeMethod _
  | string s => exact stringMember s key
  | array a => exact arrayMember a key
  | object o => exact objectMember o key
  | function f identity =>
    cases f with
    | builtin b => exact builtinMember b key
    | classDef c scope => exact classMember c scope key
    | _ => exact pure trivial

theorem add (v w : Value) : Upholds S Any (Run.add v w) := by
  unfold Run.add
  split
  · exact pure trivial
  · refine bind (toSummand _) fun a _ => bind (toSummand _) fun b _ => ?_
    split
    · exact bind (toText _) fun _ _ => makeString _
    · exact bind (toText _) fun _ _ => makeString _
    · exact bind (toNumber _) fun _ _ => bind (toNumber _) fun _ _ => pure trivial

theorem binary (op : BinaryOp) (v w : Value) : Upholds S Any (Run.binary op v w) := by
  cases op with
  | add => exact add v w
  | looseEq => exact bind (looseEq v w) fun _ _ => pure trivial
  | looseNe => exact bind (looseEq v w) fun _ _ => pure trivial
  | strictEq => exact pure trivial
  | strictNe => exact pure trivial
  | lt => exact comparison _ v w
  | le => exact comparison _ v w
  | gt => exact comparison _ v w
  | ge => exact comparison _ v w
  | isIn => exact isIn v w
  | instanceOf => exact instanceOf v w
  | _ => exact numeric _ v w

theorem repeated (s : String) (arguments : List Value) :
    Upholds S Any (Run.repeated s arguments) := by
  refine bind (numberArgument? arguments 0) fun _ _ => ite (fun _ => raise _) fun _ => ?_
  exact ite (fun _ => raise _) fun _ => makeString _

theorem replaced {call : Value → List Value → Run Value}
    (hcall : ∀ f arguments, Upholds S Any (call f arguments)) (all : Bool) (s : String)
    (arguments : List Value) :
    Upholds S Any (Run.replaced call all s arguments) := by
  refine bind (textArgument arguments 0) fun pattern _ => ?_
  exact bind (replaceWithin hcall all pattern _ _ _ _ _) fun text _ => makeString _

/-- Members are set one after the other, so that no key comes twice. -/
theorem spreadInto {o : Object} (ho : o.memberKeys.Nodup) (v : Value) :
    Upholds S (fun o => o.memberKeys.Nodup) (Run.spreadInto o v) := by
  refine bind (ownKeys v) fun keys _ => foldlM (fun o ho key _ => ?_) ho
  exact bind (getMember v key) fun w _ => pure (Object.nodup_set ho key w)

theorem caught? (e : Fault) : Upholds S Any (Run.caught? e) := by
  cases e with
  | raised e => exact map (makeError e.kind e.message) fun _ _ => trivial
  | _ => exact pure trivial

theorem prompt : Upholds S Any Run.prompt := by
  intro m hm
  cases hlines : m.stdin.lines with
  | nil =>
    rw [run_prompt_nil hlines]
    exact ⟨trivial, hm⟩
  | cons line rest =>
    rw [run_prompt_cons hlines]
    refine makeString line m.prompted (StoreCondition.unchanged hm ?_)
    rw [Machine.prompted_cons hlines]

theorem setTimer (repeated : Bool) (arguments : List Value) :
    Upholds S Any (Run.setTimer repeated arguments) := by
  refine ite (fun _ => ?_) fun _ => raise _
  exact bind (numberArgument? arguments 1) fun delay? _ m hm => ⟨trivial, StoreCondition.unchanged hm rfl⟩

theorem clearTimer (arguments : List Value) : Upholds S Any (Run.clearTimer arguments) := by
  refine bind (numberArgument? arguments 0) fun x? _ => ?_
  cases x?.bind timerId? with
  | none => exact pure trivial
  | some id => exact change trivial fun _ => rfl

theorem jsonText (arguments : List Value) : Upholds S Any (Run.jsonText arguments) := by
  refine bind heap fun h _ => bind ofExcept fun json? _ => ?_
  cases json? with
  | none => exact pure trivial
  | some json => exact makeString _

theorem objectOfPairs (v : Value) : Upholds S Any (Run.objectOfPairs v) := by
  refine bind (iterate v) fun pairs _ => bind
    (foldlM (W := fun o => o.memberKeys.Nodup) (fun o ho pair _ => ?_) List.nodup_nil)
    fun o ho => StoreCondition.makeObject ho
  exact bind (iterate pair) fun xs _ => bind (toText _) fun key _ => pure (Object.nodup_set ho key _)

theorem newError (kind : ErrorKind) (arguments : List Value) :
    Upholds S Any (Run.newError kind arguments) := by
  unfold Run.newError
  split
  · exact makeError kind ""
  · exact bind (toText _) fun _ _ => makeError kind _

theorem newObject (arguments : List Value) : Upholds S Any (Run.newObject arguments) := by
  unfold Run.newObject
  split
  · exact pure trivial
  · exact pure trivial
  · exact pure trivial
  · exact makeEmpty none

theorem joined (separator : String) (xs : List Value) : Upholds S Any (Run.joined separator xs) := by
  have hpart (v : Value) : Upholds S Any (if v.isNullish then Pure.pure "" else Run.toStrictText v) :=
    ite (fun _ => pure trivial) fun _ => toStrictText v
  exact bind (mapM fun v _ => hpart v) fun _ _ => makeString _

end Store

end Upholds

end Snippet.Script
