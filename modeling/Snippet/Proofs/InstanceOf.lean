import Snippet.Proofs.DataTree
import Snippet.Proofs.Timeout
import Snippet.Proofs.UpholdingCall

/-!
Objects and what made them. An object keeps the name of the class or the function that has made it, and
`instanceof` compares this name with that of its right operand: two classes of one name have the same
instances, and a function without a name has none.
-/

namespace Snippet.Script

def Function.makerName? : Function → Option String
  | .closure f _ => f.name?
  | .classDef c _ => some c.name
  | _ => none

namespace Object

theorem becomes_refl (o : Object) : o.Becomes o := ⟨⟨rfl, rfl⟩, rfl, id⟩

theorem Becomes.trans {o o' o'' : Object} (h : o.Becomes o') (h' : o'.Becomes o'') : o.Becomes o'' where
  alike := ⟨h'.alike.1.trans h.alike.1, h'.alike.2.trans h.alike.2⟩
  hidden := h'.hidden.trans h.hidden
  tidy htidy := h'.tidy (h.tidy htidy)

end Object

namespace Heap

/-- Changing an object leaves every object what it may become. -/
theorem object_modifyObject (h : Heap) (o : ObjectRef) {f : Object → Object} (hf : ∀ x : Object, x.Becomes (f x))
    (x : ObjectRef) : (h.object x).Becomes ((h.modifyObject o f).object x) := by
  unfold object modifyObject
  rw [Array.getD_eq_getD_getElem?, Array.getD_eq_getD_getElem?, Array.getElem?_modify]
  split
  · cases h.objects[x.address]? with
    | none => exact Object.becomes_refl _
    | some object => exact hf object
  · exact Object.becomes_refl _

structure IsMade (h : Heap) (x : ObjectRef) (name? : Option String) : Prop where
  lt_size : x.address < h.objects.size
  className : (h.object x).className = name?
  noError : (h.object x).isError = false

end Heap

structure KeepsMakers (old : Heap) (m : Machine) : Prop where
  -- The objects of a heap are still there, as what they may have become; what made them is known as
  -- it was.
  size_le : old.objects.size ≤ m.heap.objects.size
  becomes : ∀ x : ObjectRef, x.address < old.objects.size → (old.object x).Becomes (m.heap.object x)

namespace KeepsMakers

variable {old : Heap} {m m' : Machine}

theorem of_objects_eq (hm : KeepsMakers old m) (heq : m'.heap.objects = m.heap.objects) : KeepsMakers old m' := by
  refine ⟨heq ▸ hm.size_le, fun x hx => ?_⟩
  have hsame : m'.heap.object x = m.heap.object x := by
    unfold Heap.object
    rw [heq]
  rw [hsame]
  exact hm.becomes x hx

/-- An object that is made changes no other one. -/
theorem makeObject (o : Object) : Upholds (KeepsMakers old) Any (Run.makeObject o) := by
  intro m hm
  refine ⟨trivial, Nat.le_trans hm.size_le (Array.size_push o ▸ Nat.le_succ _), fun x hx => ?_⟩
  have hsame : (m.heap.pushObject o).object x = m.heap.object x :=
    (m.heap.growsTo_pushObject o).object x (Nat.lt_of_lt_of_le hx hm.size_le)
  exact hsame ▸ hm.becomes x hx

instance : ArrayFreeCondition (KeepsMakers old) where
  unchanged hm heq := hm.of_objects_eq (heq ▸ rfl)
  indifferent hm _ heq := hm.of_objects_eq heq
  makeObject _ := makeObject _
  modifyObject o _ hf m hm := by
    refine ⟨trivial, Nat.le_trans hm.size_le (Nat.le_of_eq Array.size_modify.symm), fun x hx => ?_⟩
    exact (hm.becomes x hx).trans (m.heap.object_modifyObject o hf x)

instance : InstanceCondition (KeepsMakers old) where
  makeInstance _ := makeObject _

instance : DeclarationRules (KeepsMakers old) Any (fun _ => Any) :=
  declarationRules_of_scopeFree fun hm _ hobjects => hm.of_objects_eq hobjects

theorem isMade (hm : KeepsMakers old m) {x : ObjectRef} {name? : Option String} (hx : old.IsMade x name?) :
    m.heap.IsMade x name? where
  lt_size := Nat.lt_of_lt_of_le hx.lt_size hm.size_le
  className := (hm.becomes x hx.lt_size).alike.1.trans hx.className
  noError := (hm.becomes x hx.lt_size).alike.2.trans hx.noError

end KeepsMakers

theorem keepsMakers_self (m : Machine) : KeepsMakers m.heap m :=
  ⟨Nat.le_refl _, fun x _ => (m.heap.object x).becomes_refl⟩

/-- What evaluation takes to be the maker of an object it never changes. -/
theorem evaluator_keepsMakers (old : Heap) (n : Nat) :
    (evaluator n).Sustains (KeepsMakers old) Any (fun _ => Any) :=
  evaluator_sustains (fun _ => trivial) n

theorem upholds_callClosure (old : Heap) (n : Nat) (f : Func) (scope : ScopeRef) (receiver : Value)
    (arguments : List Value) :
    Upholds (KeepsMakers old) Any (Run.callClosure (evaluator n) f scope receiver arguments) :=
  (evaluator_keepsMakers old n).callClosure (P := Any) (fun vs _ => Upholds.makeArray vs) (fun _ _ => trivial) f
    trivial receiver trivial

def Run.KeepsMade {α : Type} (r : Run α) : Prop :=
  ∀ (m : Machine) x name?, m.heap.IsMade x name? → (finalState (r m)).heap.IsMade x name?

namespace Run.KeepsMade

variable {α : Type} {r : Run α} {m m' : Machine} {x : ObjectRef} {name? : Option String}

theorem of_upholds {V : α → Prop} (hr : ∀ old, Upholds (KeepsMakers old) V r) : r.KeepsMade := by
  intro m x name? hx
  exact (hr m.heap m (keepsMakers_self m)).final.isMade hx

theorem ok {a : α} (hr : r.KeepsMade) (hok : r m = .ok a m') (hx : m.heap.IsMade x name?) :
    m'.heap.IsMade x name? := by
  have hfinal := hr m x name? hx
  rw [hok] at hfinal
  exact hfinal

theorem callClosure (n : Nat) (f : Func) (scope : ScopeRef) (receiver : Value) (arguments : List Value) :
    (Run.callClosure (evaluator n) f scope receiver arguments).KeepsMade :=
  of_upholds fun old => upholds_callClosure old n f scope receiver arguments

end Run.KeepsMade

/-- A new object is one that was not there. -/
theorem of_makeObject {o : Object} {m m' : Machine} {v : Value} (h : Run.makeObject o m = .ok v m') :
    ∃ x, v = .object x ∧ m.heap.objects.size ≤ x.address ∧ x.address < m'.heap.objects.size ∧
      m'.heap.object x = o := by
  cases h
  exact ⟨_, rfl, Nat.le_refl _, Array.size_push o ▸ Nat.lt_succ_self _, m.heap.object_pushObject o⟩

/-- It is known as made under the name that it is given. -/
theorem isMade_of_makeObject {o : Object} {m m' : Machine} {v : Value} (ho : o.isError = false)
    (h : Run.makeObject o m = .ok v m') : ∃ x, v = .object x ∧ m'.heap.IsMade x o.className := by
  obtain ⟨x, rfl, -, hx, hobject⟩ := of_makeObject h
  exact ⟨x, rfl, hx, congrArg Object.className hobject, (congrArg Object.isError hobject).trans ho⟩

/-- The instance of a class is made with the methods as hidden members. In this state the constructor is called,
which may change the instance, but not by what it was made. -/
theorem of_instantiate {n : Nat} {c : ClassDef} {scope : ScopeRef} {arguments : List Value} {m m' : Machine}
    {v : Value} (h : Run.instantiate (evaluator n) c scope arguments m = .ok v m') :
    ∃ x m₁, v = .object x ∧ x.address < m₁.heap.objects.size ∧
      m₁.heap.object x = { className := some c.name, hidden := madeMethods scope m.identities c.methods } ∧
      (match c.constructor? with
        | none => m₁ = m'
        | some f => ∃ w, Run.callClosure (evaluator n) f scope v arguments m₁ = .ok w m') ∧
      KeepsMakers m₁.heap m' := by
  obtain ⟨methods, m₁, hmethods, h⟩ := of_run_bind h
  rw [run_makeMethods] at hmethods
  obtain ⟨rfl, -⟩ := EStateM.Result.ok.inj hmethods
  obtain ⟨made, m₂, hmade, h⟩ := of_run_bind h
  obtain ⟨x, rfl, -, hx, hobject⟩ := of_makeObject hmade
  cases hc : c.constructor? with
  | none =>
    rw [hc] at h
    cases h
    exact ⟨x, m', rfl, hx, hobject, rfl, keepsMakers_self m'⟩
  | some f =>
    rw [hc] at h
    obtain ⟨_, m₃, hdone, hv⟩ := of_run_bind h
    rw [discard_eq_bind] at hdone
    obtain ⟨w, m₄, hcall, hw⟩ := of_run_bind hdone
    cases hw
    cases hv
    -- The constructor may do anything to the instance that may be done to an object that is there.
    have hends := upholds_callClosure m₂.heap n f scope (.object x) arguments m₂ (keepsMakers_self m₂)
    rw [hcall] at hends
    exact ⟨x, m₂, rfl, hx, hobject, ⟨w, hcall⟩, hends.2⟩

/-- An instance of a class is known as made under the name of the class. -/
theorem isMade_of_instantiate {n : Nat} {c : ClassDef} {scope : ScopeRef} {arguments : List Value} {m m' : Machine}
    {v : Value} (h : Run.instantiate (evaluator n) c scope arguments m = .ok v m') :
    ∃ x, v = .object x ∧ m'.heap.IsMade x (some c.name) := by
  obtain ⟨x, m₁, rfl, hx, hobject, -, hkeeps⟩ := of_instantiate h
  exact ⟨x, rfl, hkeeps.isMade ⟨hx, congrArg Object.className hobject, congrArg Object.isError hobject⟩⟩

def Value.isContainer : Value → Bool
  | .object _ | .array _ => true
  | _ => false

/-- An object that a function of the script makes is known as made under the name of the function. It is what
the construction gives unless the body returns something else that the heap holds. -/
theorem isMade_of_constructByClosure {n : Nat} {f : Func} {scope : ScopeRef} {arguments : List Value}
    {m m' : Machine} {v : Value} (h : Run.constructByClosure (evaluator n) f scope arguments m = .ok v m') :
    ∃ x m₁ w, m'.heap.IsMade x f.name? ∧
      Run.callClosure (evaluator n) f scope (.object x) arguments m₁ = .ok w m' ∧
      v = if w.isContainer then w else .object x := by
  obtain ⟨made, m₁, hmade, h⟩ := of_run_bind h
  obtain ⟨x, rfl, hx⟩ := isMade_of_makeObject rfl hmade
  obtain ⟨w, m₂, hcall, h⟩ := of_run_bind h
  -- The body runs with the object as receiver and may change it, but not by whom it was made.
  have hmade' := (Run.KeepsMade.callClosure n f scope _ arguments).ok hcall hx
  have hm' : m₂ = m' ∧ v = if w.isContainer then w else .object x := by
    cases w <;> cases h <;> exact ⟨rfl, rfl⟩
  obtain ⟨rfl, hv⟩ := hm'
  exact ⟨_, m₁, w, hmade', hcall, hv⟩

/-- What `instanceof` says of an object. -/
theorem run_instanceOf (g : Function) (id : Nat) {x : ObjectRef} {name? : Option String} {m : Machine}
    (hx : m.heap.IsMade x name?) :
    ∃ b, Run.instanceOf (.object x) (.function g id) m = .ok (.bool b) m ∧
      (b = true ↔ (∃ name, g.makerName? = some name ∧ name? = some name) ∨ g = .builtin .object) := by
  obtain ⟨-, rfl, hnoError⟩ := hx
  cases g with
  | classDef c scope =>
    refine ⟨(m.heap.object x).className == some c.name, rfl, ?_⟩
    simp [Function.makerName?, beq_iff_eq]
  | closure f scope =>
    refine ⟨f.name?.isSome && (m.heap.object x).className == f.name?, rfl, ?_⟩
    cases hname : f.name? <;> simp [Function.makerName?, hname]
  | builtin b =>
    cases b with
    | error kind =>
      -- Errors know that they are, and by which function they could have been made.
      cases kind <;> refine ⟨_, rfl, ?_⟩ <;> simp [Function.makerName?, hnoError]
    | object => exact ⟨true, rfl, by simp⟩
    | _ => exact ⟨false, rfl, by simp [Function.makerName?]⟩
  | _ =>
    refine ⟨false, rfl, ?_⟩
    simp [Function.makerName?]

structure InstancesGoByName : Prop where
  byClass : ∀ n c scope id arguments label (m m' : Machine) v,
    (evaluator (n + 1)).construct (.function (.classDef c scope) id) arguments label m = .ok v m' →
    ∃ x, v = .object x ∧ m'.heap.IsMade x (some c.name)
  byFunction : ∀ n f scope id arguments label (m m' : Machine) v,
    (evaluator (n + 1)).construct (.function (.closure f scope) id) arguments label m = .ok v m' →
    ∃ x m₁ w, m'.heap.IsMade x f.name? ∧
      Run.callClosure (evaluator n) f scope (.object x) arguments m₁ = .ok w m' ∧
      v = if w.isContainer then w else .object x
  /-- Nothing that is evaluated later changes it. -/
  expression : ∀ n e scope, ((evaluator n).eval e scope).KeepsMade
  assignment : ∀ n target v scope, ((evaluator n).assign target v scope).KeepsMade
  statement : ∀ n s scope, ((evaluator n).exec s scope).KeepsMade
  call : ∀ n f receiver arguments, ((evaluator n).call f receiver arguments).KeepsMade
  construction : ∀ n f arguments label, ((evaluator n).construct f arguments label).KeepsMade
  timers : ∀ n rounds, (Run.runTimers (evaluator n) rounds).KeepsMade
  test : ∀ g id x name? (m : Machine), m.heap.IsMade x name? →
    ∃ b, Run.instanceOf (.object x) (.function g id) m = .ok (.bool b) m ∧
      (b = true ↔ (∃ name, g.makerName? = some name ∧ name? = some name) ∨ g = .builtin .object)

/-- Classes and functions are told by name wherever an instance is made or tested. -/
theorem instances_go_by_name : InstancesGoByName where
  byClass n c scope id arguments label m m' v h := by
    obtain ⟨-, m₁, -, h⟩ := of_run_bind h
    exact isMade_of_instantiate h
  byFunction n f scope id arguments label m m' v h := by
    obtain ⟨-, m₁, -, h⟩ := of_run_bind h
    have hmade : (if f.arrow then Run.raise (.notConstructor label)
        else Run.constructByClosure (evaluator n) f scope arguments) m₁ = .ok v m' := h
    cases harrow : f.arrow with
    | true =>
      rw [harrow] at hmade
      cases hmade
    | false =>
      rw [harrow] at hmade
      exact isMade_of_constructByClosure hmade
  expression n e scope := .of_upholds fun old => (evaluator_keepsMakers old n).eval e trivial
  assignment n target v scope := .of_upholds fun old => (evaluator_keepsMakers old n).assign target v trivial
  statement n s scope := .of_upholds fun old => (evaluator_keepsMakers old n).exec s trivial fun _ _ => trivial
  call n f receiver arguments := .of_upholds fun old => (evaluator_keepsMakers old n).call f receiver arguments
  construction n f arguments label :=
    .of_upholds fun old => (evaluator_keepsMakers old n).construct f arguments label
  timers n rounds := .of_upholds fun old => (evaluator_keepsMakers old n).runTimers rounds
  test g id _ _ _ hx := run_instanceOf g id hx

/-- A class has the instances of another one of its name. -/
theorem class_has_instances_of_namesake :
    (evaluate ("class A \x7b\x7d const B = A; " ++
      "\x7b class A \x7b\x7d console.log(new A() instanceof B, A === B); \x7d") "" ⟨20000⟩).bind Draft.output =
        some "true false\n" := by
  decide +kernel

end Snippet.Script
