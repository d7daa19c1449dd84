import Snippet.Proofs.CallNesting
import Snippet.Proofs.InstanceOf

/-!
The keys of the members of the objects of a run. No operation gives an object two members of one key, but the one
that makes an instance of a class: it takes over the methods as they are written, and of several methods of one
name, as of several static ones, the first one is found. Evaluation that is cut off where such a class would be
called keeps all keys distinct, and it is the same as evaluation itself where it is not cut off.
-/

namespace Snippet.Script

class ObjectCondition (P : Object → Prop) : Prop where
  -- A condition that objects without two members of one key satisfy, and with an object all that it
  -- may become.
  distinct {o : Object} : o.memberKeys.Nodup → P o
  becomes {o o' : Object} : o.Becomes o' → P o → P o'

def Machine.AllObjects (P : Object → Prop) (m : Machine) : Prop := ∀ o ∈ m.heap.objects, P o

namespace Machine.AllObjects

variable {P : Object → Prop} {m m' : Machine}

theorem of_objects_eq (h : m.AllObjects P) (heq : m'.heap.objects = m.heap.objects) : m'.AllObjects P := by
  unfold AllObjects
  rw [heq]
  exact h

theorem start (stdin : String) (checkpoints : Nat) : (Machine.start stdin checkpoints).AllObjects P :=
  fun _ ho => nomatch ho

/-- An object that is there satisfies the condition. -/
theorem object (h : m.AllObjects P) {x : ObjectRef} (hx : x.address < m.heap.objects.size) :
    P (m.heap.object x) := by
  unfold Heap.object
  rw [Array.getD_eq_getD_getElem?, Array.getElem?_eq_getElem hx]
  exact h _ (Array.getElem_mem hx)

theorem makeObject {o : Object} (ho : P o) : Upholds (Machine.AllObjects P) Any (Run.makeObject o) := by
  intro m hm
  refine ⟨trivial, fun x hx => ?_⟩
  obtain hx | rfl := Array.mem_push.mp hx
  · exact hm x hx
  · exact ho

variable [ObjectCondition P]

instance : ArrayFreeCondition (Machine.AllObjects P) where
  unchanged hm heq := hm.of_objects_eq (heq ▸ rfl)
  indifferent hm _ heq := hm.of_objects_eq heq
  makeObject ho := makeObject (ObjectCondition.distinct ho)
  modifyObject _ _ hf _ hm := ⟨trivial, forall_mem_modify hm _ fun x => ObjectCondition.becomes (hf x)⟩

instance : DeclarationRules (Machine.AllObjects P) Any (fun _ => Any) :=
  declarationRules_of_scopeFree fun hm _ hobjects => hm.of_objects_eq hobjects

end Machine.AllObjects

instance : ObjectCondition Object.Tidy where
  distinct ho := (Object.nodup_memberKeys_iff.mp ho).1
  becomes h := h.tidy

instance : ObjectCondition fun o => o.memberKeys.Nodup where
  distinct := id
  becomes h ho := by
    obtain ⟨htidy, hhidden⟩ := Object.nodup_memberKeys_iff.mp ho
    exact Object.nodup_memberKeys_iff.mpr ⟨h.tidy htidy, h.hidden ▸ hhidden⟩

instance : InstanceCondition (Machine.AllObjects Object.Tidy) where
  makeInstance {o} ho := by
    refine Machine.AllObjects.makeObject ⟨?_, ?_⟩ <;> rw [ho]
    · exact List.nodup_nil
    · exact fun _ hkey => absurd hkey List.not_mem_nil

def Value.NamesMethodsOnce (f : Value) : Prop := ∀ c ∈ f.classDef?, (c.methods.map Prod.fst).Nodup

instance (f : Value) : Decidable f.NamesMethodsOnce :=
  inferInstanceAs (Decidable (∀ c ∈ f.classDef?, (c.methods.map Prod.fst).Nodup))

def CallRule.methodsOnce : CallRule Unit := fun _ f => if f.NamesMethodsOnce then some () else none

/-- A call that may be entered is none of a class that names a method twice. -/
theorem CallRule.enter_methodsOnce {α : Type} {S : Machine → Prop} {V : α → Prop} {f : Value} {x : Unit → Run α}
    (hx : f.NamesMethodsOnce → Upholds S V (x ())) : Upholds S V (CallRule.methodsOnce.enter () f x) := by
  unfold CallRule.enter CallRule.methodsOnce
  split
  · exact Upholds.throw _
  next hf =>
    split at hf
    next honce => exact hx honce
    next => cases hf

/-- Evaluation that calls no class that names a method twice keeps the keys of all members distinct, by induction on
its depth. -/
theorem evaluatorUnder_keepsDistinct (n : Nat) :
    (evaluatorUnder .methodsOnce n ()).Sustains (Machine.AllObjects fun o => o.memberKeys.Nodup) Any
      (fun _ => Any) := by
  induction n with
  | zero => exact evaluator_zero_sustains
  | succ n ih =>
    refine ih.layerWith (fun f receiver arguments => ?_) fun f arguments label => ?_
    · exact CallRule.enter_methodsOnce fun _ => ih.runCall f receiver arguments fun _ _ => trivial
    · -- The keys of an instance are the names of the methods, all other objects are made member by member.
      refine CallRule.enter_methodsOnce fun honce => ?_
      refine ih.runConstructOf f arguments label (fun _ _ => trivial) fun c hc o hentries hhidden => ?_
      refine Machine.AllObjects.makeObject ?_
      rw [Object.memberKeys, hentries, List.nil_append, hhidden]
      exact honce c hc

namespace Job

def NamesMethodsOnce (j : Job) : Prop := ¬ CutOff (j.runUnder .methodsOnce ())

theorem tidy_objects (j : Job) : (finalState j.run).AllObjects Object.Tidy := by
  have hsustains : (evaluator _).Sustains (Machine.AllObjects Object.Tidy) Any (fun _ => Any) :=
    evaluator_sustains (fun _ => trivial) (depthBound (j.checkpoints + 1) j.statements)
  exact (hsustains.programBy trivial j.statements (fun _ _ => trivial) _ (.start j.stdin j.checkpoints)).final

theorem distinct_of_namesMethodsOnce {j : Job} (h : j.NamesMethodsOnce) :
    (finalState j.run).AllObjects fun o => o.memberKeys.Nodup := by
  have hsustains := evaluatorUnder_keepsDistinct (depthBound (j.checkpoints + 1) j.statements)
  rw [← runUnder_eq_run h]
  exact (hsustains.programBy trivial j.statements (fun _ _ => trivial) _ (.start j.stdin j.checkpoints)).final

end Job

-- The methods of a class, which are looked up in the order in which they are written.

variable {m m' : Machine}

/-- Under a name, the methods that have been made hold the function that the class has under it. -/
theorem lookup_madeMethods (scope : ScopeRef) (identity : Nat) {methods : List (String × Func)} {key : String}
    {f : Func} (h : methods.lookup key = some f) :
    ∃ id, (madeMethods scope identity methods).lookup key = some (.function (.closure f scope) id) := by
  induction methods generalizing identity with
  | nil => cases h
  | cons method rest ih =>
    obtain ⟨name, g⟩ := method
    rw [lookup_cons_eq_ite] at h
    rw [madeMethods, lookup_cons_eq_ite]
    split at h
    next heq =>
      cases h
      exact ⟨identity, if_pos heq⟩
    next hne =>
      obtain ⟨id, hid⟩ := ih (identity + 1) h
      exact ⟨id, (if_neg hne).trans hid⟩

theorem run_getMember_object {x : ObjectRef} {key : String} {v : Value} (h : (m.heap.object x).get? key = some v) :
    Run.getMember (.object x) key m = .ok v m := by
  change Run.objectMember x key m = _
  unfold Run.objectMember
  rw [run_bind_ok (x := Run.object x) rfl, h]
  rfl

theorem run_getMember_static {c : ClassDef} {key : String} {f : Func} (h : c.statics.lookup key = some f)
    (scope : ScopeRef) (identity : Nat) :
    Run.getMember (.function (.classDef c scope) identity) key = Run.makeClosure f scope := by
  change Run.classMember c scope key = _
  unfold Run.classMember
  rw [h]

/-- Of the methods of one name an instance has the first one, in the state in which the constructor is called. -/
theorem method_of_instantiate {n : Nat} {c : ClassDef} {scope : ScopeRef} {arguments : List Value} {v : Value}
    (h : Run.instantiate (evaluator n) c scope arguments m = .ok v m') :
    ∃ m₁, (match c.constructor? with
        | none => m₁ = m'
        | some f => ∃ w, Run.callClosure (evaluator n) f scope v arguments m₁ = .ok w m') ∧
      ∀ before key f after, c.methods = before ++ (key, f) :: after → key ∉ before.map Prod.fst →
        ∃ id, Run.getMember v key m₁ = .ok (.function (.closure f scope) id) m₁ := by
  obtain ⟨x, m₁, rfl, -, hobject, hconstructor, -⟩ := of_instantiate h
  refine ⟨m₁, hconstructor, fun before key f after heq hbefore => ?_⟩
  obtain ⟨id, hid⟩ := lookup_madeMethods scope m.identities (heq ▸ lookup_append_cons hbefore f after)
  refine ⟨id, run_getMember_object ?_⟩
  rw [hobject, Object.get?_eq_lookup]
  exact hid

/-- The keys of an instance are distinct exactly if the names of the methods are. -/
theorem nodup_of_instantiate {n : Nat} {c : ClassDef} {scope : ScopeRef} {arguments : List Value} {v : Value}
    (h : Run.instantiate (evaluator n) c scope arguments m = .ok v m') :
    ∃ x, v = .object x ∧ x.address < m'.heap.objects.size ∧
      ((m'.heap.object x).memberKeys.Nodup ↔ (c.methods.map Prod.fst).Nodup) := by
  obtain ⟨x, m₁, rfl, hx, hobject, -, hkeeps⟩ := of_instantiate h
  refine ⟨x, rfl, Nat.lt_of_lt_of_le hx hkeeps.size_le, ?_⟩
  have hbecomes := hkeeps.becomes x hx
  rw [hobject] at hbecomes
  have hhidden : (m'.heap.object x).hidden.map Prod.fst = c.methods.map Prod.fst :=
    hbecomes.hidden.trans (keys_madeMethods scope _ c.methods)
  have htidy : (m'.heap.object x).Tidy :=
    hbecomes.tidy ⟨List.nodup_nil, fun _ hkey => absurd hkey List.not_mem_nil⟩
  rw [Object.nodup_memberKeys_iff, hhidden]
  exact and_iff_right htidy

structure MembersGoByKey (j : Job) (c : ClassDef) : Prop where
  /-- At the end of a run, and so at every checkpoint of a longer one, the entries of an object have distinct keys,
  and none of them has the key of a hidden member. -/
  tidy : (finalState j.run).AllObjects Object.Tidy
  /-- If no class is called that names a method twice, all members have distinct keys. -/
  distinct : j.NamesMethodsOnce → (finalState j.run).AllObjects fun o => o.memberKeys.Nodup
  /-- Between checkpoints it is the same for every part of the script that is evaluated. -/
  tidyThroughout : ∀ n, (evaluator n).Sustains (Machine.AllObjects Object.Tidy) Any (fun _ => Any)
  distinctThroughout : ∀ n,
    (evaluatorUnder .methodsOnce n ()).Sustains (Machine.AllObjects fun o => o.memberKeys.Nodup) Any (fun _ => Any)
  /-- The instances of a class have members of distinct keys exactly if it names no method twice. -/
  made : ∀ n scope id arguments label (m m' : Machine) v,
    (evaluator (n + 1)).construct (.function (.classDef c scope) id) arguments label m = .ok v m' →
    ∃ x, v = .object x ∧ x.address < m'.heap.objects.size ∧
      ((m'.heap.object x).memberKeys.Nodup ↔ (c.methods.map Prod.fst).Nodup)
  /-- It stays so, whatever is evaluated later: the keys of hidden members are never changed. -/
  keeps : ∀ n old, (evaluator n).Sustains (KeepsMakers old) Any (fun _ => Any)
  /-- The first method of a name is found in an instance, which is the last one where the names are distinct. -/
  method : ∀ n scope id arguments label (m m' : Machine) v,
    (evaluator (n + 1)).construct (.function (.classDef c scope) id) arguments label m = .ok v m' →
    ∃ m₁, (match c.constructor? with
        | none => m₁ = m'
        | some f => ∃ w, Run.callClosure (evaluator n) f scope v arguments m₁ = .ok w m') ∧
      ∀ before key f after, c.methods = before ++ (key, f) :: after → key ∉ before.map Prod.fst →
        ∃ id, Run.getMember v key m₁ = .ok (.function (.closure f scope) id) m₁
  /-- It is the same with the methods of the class itself. -/
  static : ∀ scope id before key f after, c.statics = before ++ (key, f) :: after →
    key ∉ before.map Prod.fst → Run.getMember (.function (.classDef c scope) id) key = Run.makeClosure f scope
  /-- Of the values that a member is given the last one is found. -/
  set : ∀ (o : Object) key v other, (o.set key v).get? other = if other = key then some v else o.get? other

/-- Only the methods of a class can be there twice. -/
theorem members_go_by_key (j : Job) (c : ClassDef) : MembersGoByKey j c where
  tidy := j.tidy_objects
  distinct := Job.distinct_of_namesMethodsOnce
  tidyThroughout := evaluator_sustains fun _ => trivial
  distinctThroughout := evaluatorUnder_keepsDistinct
  made n scope id arguments label m m' v h := by
    obtain ⟨-, m₁, -, h⟩ := of_run_bind h
    exact nodup_of_instantiate h
  keeps n old := evaluator_keepsMakers old n
  method n scope id arguments label m m' v h := by
    obtain ⟨-, m₁, -, h⟩ := of_run_bind h
    exact method_of_instantiate h
  static scope id before key f after heq hbefore :=
    run_getMember_static (heq ▸ lookup_append_cons hbefore f after) scope id
  set := Object.get?_set

/-- Of two methods of one name the first one is called, both of an instance and of the class. -/
theorem first_method_of_name_is_called :
    (evaluate ("class A \x7b m() \x7b return 1; \x7d m() \x7b return 2; \x7d " ++
      "static s() \x7b return 1; \x7d static s() \x7b return 2; \x7d \x7d " ++
      "console.log(new A().m(), A.s());") "" ⟨20000⟩).bind Draft.output = some "1 1\n" := by
  decide +kernel

end Snippet.Script
