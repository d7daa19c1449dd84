import Snippet.Proofs.PatternReading
import Snippet.Proofs.VariableScope

/-!
Patterns that are assigned to. A declaration and an assignment take the same parts of the same value in the same
order, so they leave the same values in the variables, or fail together. Two patterns are exceptions: one that
leaves out an element cannot be assigned to, and one without members takes a missing value where it is assigned
to.
-/

namespace Snippet.Script

namespace Target

def HasHole (t : Target) : Prop := ∃ elements, t.Contains (.array elements) ∧ none ∈ elements

structure IsPlain (t : Target) : Prop where
  noHole : ¬ t.HasHole
  noEmpty : ¬ t.Contains (.object [])

theorem IsPlain.contains {t u : Target} (ht : t.IsPlain) (hu : ∀ w, u.Contains w → t.Contains w) : u.IsPlain where
  noHole := fun ⟨elements, h, hnone⟩ => ht.noHole ⟨elements, hu _ h, hnone⟩
  noEmpty h := ht.noEmpty (hu _ h)

end Target

def Fault.IsTypeError (f : Fault) : Prop := ∃ e, f = .raised e ∧ e.kind = .type

def Machine.withScopes (m : Machine) (scopes : Array Scope) : Machine :=
  { m with heap := { m.heap with scopes } }

def Machine.SameBut (m₁ m₂ : Machine) : Prop := m₂ = m₁.withScopes m₂.heap.scopes

structure Run.Reads {α : Type} (x : Run α) : Prop where
  apart : ∀ (m : Machine) scopes, x (m.withScopes scopes) = onState (fun m => m.withScopes scopes) (x m)
  fault : ∀ m f m', x m = .error f m' → f.IsTypeError

namespace Run.Reads

variable {α β : Type} {x : Run α}

theorem pure (a : α) : Run.Reads (Pure.pure a : Run α) where
  apart _ _ := rfl
  fault _ _ _ h := by cases h

theorem raise {e : RuntimeError} (he : e.kind = .type) : Run.Reads (Run.raise e : Run α) where
  apart _ _ := rfl
  fault _ _ _ h := by
    cases h
    exact ⟨e, rfl, he⟩

theorem bind {f : α → Run β} (hx : x.Reads) (hf : ∀ a, (f a).Reads) : (x >>= f).Reads where
  apart m scopes := by
    have hfirst := hx.apart m scopes
    cases h : x m with
    | ok a m' =>
      rw [h] at hfirst
      rw [run_bind_ok h, run_bind_ok hfirst]
      exact (hf a).apart m' scopes
    | error e m' =>
      rw [h] at hfirst
      rw [run_bind_error h, run_bind_error hfirst]
      rfl
  fault m e m' herror := by
    cases h : x m with
    | ok a m₁ =>
      rw [run_bind_ok h] at herror
      exact (hf a).fault m₁ e m' herror
    | error e₁ m₁ =>
      rw [run_bind_error h] at herror
      cases herror
      exact hx.fault m e m' h

/-- It leaves its own scopes alone. -/
theorem scopes_eq (hx : x.Reads) (m : Machine) : (finalState (x m)).heap.scopes = m.heap.scopes := by
  have hsame := hx.apart m m.heap.scopes
  change x m = _ at hsame
  rw [hsame]
  cases x m <;> rfl

theorem ite {c : Prop} [Decidable c] {y : Run α} (hx : x.Reads) (hy : y.Reads) : (if c then x else y).Reads := by
  split
  · exact hx
  · exact hy

theorem items (a : ArrayRef) : (Run.items a).Reads where
  apart _ _ := rfl
  fault _ _ _ h := by cases h

theorem object (o : ObjectRef) : (Run.object o).Reads where
  apart _ _ := rfl
  fault _ _ _ h := by cases h

theorem makeMethod (f? : Option Function) : (Run.makeMethod f?).Reads := by
  cases f? with
  | none => exact pure _
  | some f => exact ⟨fun _ _ => rfl, fun _ _ _ h => by cases h⟩

theorem makeClosure (f : Func) (scope : ScopeRef) : (Run.makeClosure f scope).Reads where
  apart _ _ := rfl
  fault _ _ _ h := by cases h

theorem stringMember (s key : String) : (Run.stringMember s key).Reads := by
  unfold Run.stringMember
  refine ite (pure _) ?_
  cases indexOfKey? key with
  | some i => exact pure _
  | none => exact makeMethod _

theorem arrayMember (a : ArrayRef) (key : String) : (Run.arrayMember a key).Reads := by
  unfold Run.arrayMember
  refine ite (bind (items a) fun _ => pure _) ?_
  cases indexOfKey? key with
  | some i => exact bind (items a) fun _ => pure _
  | none => exact makeMethod _

theorem objectMember (o : ObjectRef) (key : String) : (Run.objectMember o key).Reads := by
  refine bind (object o) fun object => ?_
  cases object.get? key with
  | some v => exact pure v
  | none => exact makeMethod _

theorem builtinMember (b : Builtin) (key : String) : (Run.builtinMember b key).Reads := by
  unfold Run.builtinMember
  cases b.constant? key with
  | some x => exact pure _
  | none => exact ite (pure _) (makeMethod _)

theorem classMember (c : ClassDef) (scope : ScopeRef) (key : String) : (Run.classMember c scope key).Reads := by
  unfold Run.classMember
  cases c.statics.lookup key with
  | some method => exact makeClosure method scope
  | none => exact pure _

theorem functionMember (f : Function) (key : String) : (Run.functionMember f key).Reads := by
  cases f with
  | builtin b => exact builtinMember b key
  | classDef c scope => exact classMember c scope key
  | _ => exact pure _

/-- The members of a value depend on no variable. -/
theorem getMember (v : Value) (key : String) : (Run.getMember v key).Reads := by
  cases v with
  | undefined => exact raise rfl
  | null => exact raise rfl
  | bool b => exact makeMethod _
  | number x => exact makeMethod _
  | string s => exact stringMember s key
  | array a => exact arrayMember a key
  | object o => exact objectMember o key
  | function f identity => exact functionMember f key

/-- Neither do its elements; a value without elements is a type error. -/
theorem iterate (v : Value) : (Run.iterate v).Reads := by
  cases v with
  | array a => exact items a
  | string s => exact pure _
  | _ => exact ⟨fun _ _ => rfl, fun _ _ _ h => by cases h; exact ⟨_, rfl, rfl⟩⟩

end Run.Reads

/-- The names of `done` have been set, each in its own place, and all else about the scopes is as it was. -/
structure Heap.HasSet (place : String → ScopeRef) (done : List String) (h h' : Heap) : Prop where
  size : h'.scopes.size = h.scopes.size
  parent : ∀ s, (h'.scope s).parent = (h.scope s).parent
  others : ∀ s x, (x ∈ done → s ≠ place x) → h'.own? s x = h.own? s x

namespace Heap.HasSet

variable {place : String → ScopeRef} {done done' : List String} {h h₁ h₂ : Heap}

theorem of_scopes_eq (heq : h₁.scopes = h.scopes) : h.HasSet place done h₁ := by
  have hscope (s : ScopeRef) : h₁.scope s = h.scope s := by
    unfold Heap.scope
    rw [heq]
  refine ⟨congrArg Array.size heq, fun s => by rw [hscope], fun s x _ => ?_⟩
  unfold own?
  rw [hscope]

theorem trans (hfirst : h.HasSet place done h₁) (hsecond : h₁.HasSet place done' h₂) :
    h.HasSet place (done ++ done') h₂ where
  size := hsecond.size.trans hfirst.size
  parent s := (hsecond.parent s).trans (hfirst.parent s)
  others s x hx := by
    rw [hsecond.others s x fun hmem => hx (List.mem_append_right _ hmem)]
    exact hfirst.others s x fun hmem => hx (List.mem_append_left _ hmem)

theorem declare {name : String} {b : Binding} (hplace : (place name).address < h.scopes.size) :
    h.HasSet place [name] (h.declare (place name) name b) where
  size := size_declare
  parent _ := parent_declare
  others s x hx := by
    rw [own?_declare hplace, if_neg]
    rintro ⟨rfl, rfl⟩
    exact hx (List.mem_singleton.mpr rfl) rfl

/-- What is seen in its own place is still seen there. -/
theorem sees {x : String} {s o : ScopeRef} {b b' : Binding} (hset : h.HasSet place done h₁)
    (hsees : h.Sees x s o b) (hplace : x ∈ done → o = place x) (hb : h₁.own? o x = some b') :
    h₁.Sees x s o b' := by
  induction hsees with
  | own hs _ => exact .own (hset.size ▸ hs) hb
  | @around s p o b hs hunbound hparent hless hp ih =>
    -- A scope that does not bind the name is not its place, so it still does not.
    have hne : s ≠ o := by
      rintro rfl
      cases hp.own?_eq.symm.trans hunbound
    refine .around (hset.size ▸ hs) ?_ ((hset.parent s).trans hparent) hless (ih hplace hb)
    rw [hset.others s x fun hmem => hplace hmem ▸ hne]
    exact hunbound

/-- A name that has not been set is found where it was before. -/
theorem resolveWithin?_eq (hset : h.HasSet place done h₁) {x : String} (hx : x ∉ done) (fuel : Nat)
    (s : ScopeRef) : h₁.resolveWithin? x fuel s = h.resolveWithin? x fuel s := by
  induction fuel generalizing s with
  | zero => rfl
  | succ fuel ih =>
    have hown : (h₁.scope s).bindings.lookup x = (h.scope s).bindings.lookup x :=
      hset.others s x fun hmem => absurd hmem hx
    unfold resolveWithin?
    dsimp only
    rw [hown, hset.parent s]
    split
    · rfl
    · split
      · exact ih _
      · rfl

/-- A name that has not been set has the value that it had. -/
theorem lookup?_eq (hset : h.HasSet place done h₁) {x : String} (hx : x ∉ done) (s : ScopeRef) :
    h₁.lookup? s x = h.lookup? s x := by
  have hown : (h₁.scope globalScope).bindings.lookup x = (h.scope globalScope).bindings.lookup x :=
    hset.others globalScope x fun hmem => absurd hmem hx
  unfold lookup? resolve?
  rw [hset.resolveWithin?_eq hx, hown]

end Heap.HasSet

/-- How two runs end that set the variables of `names` side by side: both well, with all of them set, or both
with a type error, when they have set the same ones, which are the first of them. `R` tells what holds of the
states when some variables have been set. -/
inductive EndAlike (R : List String → Machine → Machine → Prop) (names : List String) {α β : Type} :
    EStateM.Result Fault Machine α → EStateM.Result Fault Machine β → Prop where
  | well {a : α} {b : β} {m₁ m₂ : Machine} (hR : R names m₁ m₂) : EndAlike R names (.ok a m₁) (.ok b m₂)
  | failed {f₁ f₂ : Fault} {done : List String} {m₁ m₂ : Machine} (hR : R done m₁ m₂) (hdone : done <+: names)
    (hf₁ : f₁.IsTypeError) (hf₂ : f₂.IsTypeError) : EndAlike R names (.error f₁ m₁) (.error f₂ m₂)

theorem EndAlike.imp {R R' : List String → Machine → Machine → Prop} {names : List String} {α β : Type}
    {r₁ : EStateM.Result Fault Machine α} {r₂ : EStateM.Result Fault Machine β} (h : EndAlike R names r₁ r₂)
    (himp : ∀ done m₁ m₂, done <+: names → R done m₁ m₂ → R' done m₁ m₂) : EndAlike R' names r₁ r₂ := by
  cases h with
  | well hR => exact .well (himp _ _ _ List.prefix_rfl hR)
  | failed hR hdone hf₁ hf₂ => exact .failed (himp _ _ _ hdone hR) hdone hf₁ hf₂

section Mirroring

-- Names are declared in `home` by one of two runs, and assigned by the other one where they are seen from `site`.
variable {home site : ScopeRef} {owner : String → ScopeRef}

structure Facing (home site : ScopeRef) (owner : String → ScopeRef) (names : List String) (m₁ m₂ : Machine) :
    Prop where
  -- The states from which two runs begin: names may be declared in a scope in one of them, and in
  -- the other one they are variables that may be assigned.
  same : m₁.SameBut m₂
  home_lt : home.address < m₁.heap.scopes.size
  seen : ∀ x ∈ names, ∃ w, m₂.heap.Sees x site (owner x) ⟨w, true⟩

structure SetAlike (home : ScopeRef) (owner : String → ScopeRef) (m₁ m₂ : Machine) (done : List String)
    (m₁' m₂' : Machine) : Prop where
  same : m₁'.SameBut m₂'
  declared : m₁.heap.HasSet (fun _ => home) done m₁'.heap
  assigned : m₂.heap.HasSet owner done m₂'.heap
  value : ∀ x ∈ done, ∃ w, m₁'.heap.own? home x = some ⟨w, true⟩ ∧ m₂'.heap.own? (owner x) x = some ⟨w, true⟩

def Mirrors (home site : ScopeRef) (owner : String → ScopeRef) (names : List String) {α β : Type} (x : Run α)
    (y : Run β) : Prop :=
  ∀ m₁ m₂, Facing home site owner names m₁ m₂ → EndAlike (SetAlike home owner m₁ m₂) names (x m₁) (y m₂)

variable {names names' done done' : List String} {m₁ m₂ m₁' m₂' m₁'' m₂'' : Machine}

/-- Setting some names alike and then others sets all of them alike. -/
theorem SetAlike.trans (hfirst : SetAlike home owner m₁ m₂ done m₁' m₂')
    (hsecond : SetAlike home owner m₁' m₂' done' m₁'' m₂'') :
    SetAlike home owner m₁ m₂ (done ++ done') m₁'' m₂'' where
  same := hsecond.same
  declared := hfirst.declared.trans hsecond.declared
  assigned := hfirst.assigned.trans hsecond.assigned
  value x hx := by
    by_cases hlater : x ∈ done'
    · exact hsecond.value x hlater
    · -- What is not set once more keeps the value that it got first.
      obtain ⟨w, hw₁, hw₂⟩ := hfirst.value x ((List.mem_append.mp hx).resolve_right hlater)
      refine ⟨w, ?_, ?_⟩
      · rw [hsecond.declared.others home x fun hmem => absurd hmem hlater, hw₁]
      · rw [hsecond.assigned.others (owner x) x fun hmem => absurd hmem hlater, hw₂]

/-- When nothing has been set yet. -/
theorem SetAlike.begin (hsame : m₁'.SameBut m₂') (h₁ : m₁'.heap.scopes = m₁.heap.scopes)
    (h₂ : m₂'.heap.scopes = m₂.heap.scopes) : SetAlike home owner m₁ m₂ [] m₁' m₂' where
  same := hsame
  declared := .of_scopes_eq h₁
  assigned := .of_scopes_eq h₂
  value x hx := by cases hx

/-- What follows when names have been set adds to them. -/
theorem SetAlike.endAlike {α β : Type} {r₁ : EStateM.Result Fault Machine α}
    {r₂ : EStateM.Result Fault Machine β} (hset : SetAlike home owner m₁ m₂ names m₁' m₂')
    (h : EndAlike (SetAlike home owner m₁' m₂') names' r₁ r₂) :
    EndAlike (SetAlike home owner m₁ m₂) (names ++ names') r₁ r₂ := by
  cases h with
  | well hset' => exact .well (hset.trans hset')
  | failed hset' hdone hf₁ hf₂ =>
    exact .failed (hset.trans hset') ((List.prefix_append_right_inj _).mpr hdone) hf₁ hf₂

/-- Two runs that have set the first names alike face the others. -/
theorem Facing.later (h : Facing home site owner names m₁ m₂) (hset : SetAlike home owner m₁ m₂ done m₁' m₂') :
    Facing home site owner names m₁' m₂' where
  same := hset.same
  home_lt := hset.declared.size ▸ h.home_lt
  seen x hx := by
    obtain ⟨w, hsees⟩ := h.seen x hx
    have hplace : x ∈ done → owner x = owner x := fun _ => rfl
    by_cases hmem : x ∈ done
    · obtain ⟨w', -, hw'⟩ := hset.value x hmem
      exact ⟨w', hset.assigned.sees hsees hplace hw'⟩
    · refine ⟨w, hset.assigned.sees hsees hplace ?_⟩
      rw [hset.assigned.others (owner x) x fun hmem' => absurd hmem' hmem]
      exact hsees.own?_eq

theorem Facing.mono (h : Facing home site owner names m₁ m₂) (hsub : ∀ x ∈ names', x ∈ names) :
    Facing home site owner names' m₁ m₂ :=
  ⟨h.same, h.home_lt, fun x hx => h.seen x (hsub x hx)⟩

namespace Mirrors

variable {α β γ δ : Type}

theorem pure (a : α) (b : β) : Mirrors home site owner [] (Pure.pure a : Run α) (Pure.pure b : Run β) :=
  fun _ _ h => .well (.begin h.same rfl rfl)

/-- What two runs have set alike is followed by what they set alike from there. -/
theorem bind {x : Run α} {y : Run β} {x' : α → Run γ} {y' : β → Run δ} (hx : Mirrors home site owner names x y)
    (hx' : ∀ a b, Mirrors home site owner names' (x' a) (y' b)) :
    Mirrors home site owner (names ++ names') (x >>= x') (y >>= y') := by
  intro m₁ m₂ h
  have hfirst := hx m₁ m₂ (h.mono fun x hx => List.mem_append_left _ hx)
  -- Both end well or both fail, so the results are told apart together.
  generalize h₁ : x m₁ = r₁ at hfirst
  generalize h₂ : y m₂ = r₂ at hfirst
  cases hfirst with
  | well hset =>
    rw [run_bind_ok h₁, run_bind_ok h₂]
    exact hset.endAlike (hx' _ _ _ _ ((h.later hset).mono fun x hx => List.mem_append_right _ hx))
  | failed hset hdone hf₁ hf₂ =>
    rw [run_bind_error h₁, run_bind_error h₂]
    exact .failed hset (hdone.trans (List.prefix_append _ _)) hf₁ hf₂

/-- What two runs read before they set names is the same. -/
theorem after {x : Run α} {x' : α → Run γ} {y' : α → Run δ} (hx : x.Reads)
    (hx' : ∀ a, Mirrors home site owner names (x' a) (y' a)) :
    Mirrors home site owner names (x >>= x') (x >>= y') := by
  intro m₁ m₂ h
  have hsecond : x m₂ = onState (fun m => m.withScopes m₂.heap.scopes) (x m₁) := by
    rw [h.same]
    exact hx.apart m₁ _
  have hscopes := hx.scopes_eq m₁
  cases hfirst : x m₁ with
  | ok a m₁' =>
    rw [hfirst] at hsecond hscopes
    have hset : SetAlike home owner m₁ m₂ [] m₁' (m₁'.withScopes m₂.heap.scopes) := .begin rfl hscopes rfl
    rw [run_bind_ok hfirst, run_bind_ok hsecond]
    exact hset.endAlike (hx' a _ _ (h.later hset))
  | error f m₁' =>
    rw [hfirst] at hsecond hscopes
    have hset : SetAlike home owner m₁ m₂ [] m₁' (m₁'.withScopes m₂.heap.scopes) := .begin rfl hscopes rfl
    have hfault := hx.fault m₁ f m₁' hfirst
    rw [run_bind_error hfirst, run_bind_error hsecond]
    exact .failed hset List.nil_prefix hfault hfault

/-- A variable is declared, or assigned where it is seen. -/
theorem name (n : Nat) (x : String) (v : Value) :
    Mirrors home site owner [x] (Run.declare home x v true) ((evaluator (n + 1)).assign (.name x) v site) := by
  intro m₁ m₂ h
  obtain ⟨w, hsees⟩ := h.seen x (List.mem_singleton.mpr rfl)
  have hassign : (evaluator (n + 1)).assign (.name x) v site m₂ =
      .ok () { m₂ with heap := m₂.heap.declare (owner x) x ⟨v, true⟩ } := run_assignName_variable hsees rfl v
  rw [hassign]
  refine .well ⟨?_, .declare h.home_lt, .declare hsees.lt_size, fun y hy => ⟨v, ?_⟩⟩
  · unfold Machine.SameBut
    rw [h.same]
    rfl
  · obtain rfl := List.mem_singleton.mp hy
    rw [Heap.own?_declare h.home_lt, Heap.own?_declare hsees.lt_size, if_pos ⟨rfl, rfl⟩, if_pos ⟨rfl, rfl⟩]
    exact ⟨rfl, rfl⟩

/-- A missing value has no members: it is refused as a whole where it is declared, and its first member where it
is assigned. -/
theorem ofNullish {v : Value} (hv : v.isNullish = true) (n : Nat) (key : String) (t : Target)
    (rest : List (String × Target)) :
    Mirrors home site owner names (Run.bind home true (.object ((key, t) :: rest)) v)
      (Run.assignMembers (evaluator n) site v (memberLiterals ((key, t) :: rest))) := by
  intro m₁ m₂ h
  cases v with
  | undefined | null =>
    exact .failed (.begin h.same rfl rfl) List.nil_prefix ⟨_, rfl, rfl⟩ ⟨_, rfl, rfl⟩
  | _ => cases hv

mutual

/-- By recursion on the target, whose height the depth of the evaluation has room for. -/
theorem ofTarget (n : Nat) (t : Target) (ht : t.IsPlain) (hn : t.height ≤ n) (v : Value) :
    Mirrors home site owner t.names (Run.bind home true t v) ((evaluator n).assign t.literal v site) := by
  cases n with
  | zero => cases t <;> cases hn
  | succ n =>
    cases t with
    | name x => exact name n x v
    | array elements =>
      have hplain {t : Target} (hmem : some t ∈ elements) : t.IsPlain :=
        ht.contains fun _ hw => .element hmem hw
      have hnone : none ∉ elements := fun hnone => ht.noHole ⟨_, .itself _, hnone⟩
      exact after (.iterate v) fun vs => ofElements n elements hnone hplain (Nat.le_of_succ_le_succ hn) _
    | object members =>
      have hplain {key : String} {t : Target} (hmem : (key, t) ∈ members) : t.IsPlain :=
        ht.contains fun _ hw => .member hmem hw
      have hn : targetsHeight members ≤ n := Nat.le_of_succ_le_succ hn
      -- A declaration looks for a missing value first, an assignment finds it out with the first member.
      cases hv : v.isNullish with
      | false =>
        have hbind : Run.bind home true (.object members) v = Run.bindMembers home true v members := by
          unfold Run.bind
          rw [hv]
          rfl
        rw [hbind]
        exact ofMembers n members hplain hn v
      | true =>
        cases members with
        | nil => exact absurd (.itself _) ht.noEmpty
        | cons member rest => exact ofNullish hv n member.1 member.2 rest

/-- Elements are set one after the other, each in its place; by induction on the elements. -/
theorem ofElements (n : Nat) (elements : List (Option Target)) (hnone : none ∉ elements)
    (hplain : ∀ {t : Target}, some t ∈ elements → t.IsPlain) (hn : elementsHeight elements ≤ n)
    (vs : List Value) :
    Mirrors home site owner (elementNames elements) (Run.bindElements home true elements vs)
      (Run.assignItems (evaluator n) site (elementLiterals elements) vs) := by
  cases elements with
  | nil => exact pure () ()
  | cons element? rest =>
    cases element? with
    | none => exact absurd List.mem_cons_self hnone
    | some t =>
      have hn := Nat.max_le.mp hn
      refine bind (ofTarget n t (hplain List.mem_cons_self) hn.1 _) fun _ _ => ?_
      exact ofElements n rest (fun h => hnone (List.mem_cons_of_mem _ h))
        (fun h => hplain (List.mem_cons_of_mem _ h)) hn.2 _

/-- Members are set one after the other, each from its key; by induction on the members. -/
theorem ofMembers (n : Nat) (members : List (String × Target))
    (hplain : ∀ {key : String} {t : Target}, (key, t) ∈ members → t.IsPlain) (hn : targetsHeight members ≤ n)
    (v : Value) :
    Mirrors home site owner (memberNames members) (Run.bindMembers home true v members)
      (Run.assignMembers (evaluator n) site v (memberLiterals members)) := by
  cases members with
  | nil => exact pure () ()
  | cons member rest =>
    obtain ⟨key, t⟩ := member
    have hn := Nat.max_le.mp hn
    refine after (.getMember v key) fun w => ?_
    refine bind (ofTarget n t (hplain List.mem_cons_self) hn.1 w) fun _ _ => ?_
    exact ofMembers n rest (fun h => hplain (List.mem_cons_of_mem _ h)) hn.2 v

end

end Mirrors

end Mirroring

def Run.Fails {α : Type} (x : Run α) : Prop := ∀ m, ∃ f m', x m = .error f m'

namespace Run.Fails

variable {α β : Type} {x : Run α}

theorem first (hx : x.Fails) (f : α → Run β) : (x >>= f).Fails := by
  intro m
  obtain ⟨e, m', h⟩ := hx m
  exact ⟨e, m', run_bind_error h⟩

theorem after {f : α → Run β} (hf : ∀ a, (f a).Fails) : (x >>= f).Fails := by
  intro m
  cases h : x m with
  | ok a m' =>
    rw [run_bind_ok h]
    exact hf a m'
  | error e m' => exact ⟨e, m', run_bind_error h⟩

theorem assignItems {ev : Evaluator} {scope : ScopeRef} {elements : List (Option Target)}
    {element? : Option Target} (hmem : element? ∈ elements)
    (h : ∀ v, (ev.assign (elementLiteral element?) v scope).Fails) (vs : List Value) :
    (Run.assignItems ev scope (elementLiterals elements) vs).Fails := by
  induction elements generalizing vs with
  | nil => cases hmem
  | cons first rest ih =>
    obtain rfl | hrest := List.mem_cons.mp hmem
    · exact (h _).first _
    · exact after fun _ => ih hrest _

/-- A target among the members that cannot be assigned to is one for the whole pattern. -/
theorem assignMembers {ev : Evaluator} {scope : ScopeRef} {members : List (String × Target)} {key : String}
    {t : Target} (hmem : (key, t) ∈ members) (h : ∀ v, (ev.assign t.literal v scope).Fails) (v : Value) :
    (Run.assignMembers ev scope v (memberLiterals members)).Fails := by
  induction members with
  | nil => cases hmem
  | cons member rest ih =>
    refine after fun _ => after fun w => ?_
    obtain rfl | hrest := List.mem_cons.mp hmem
    · exact (h w).first _
    · exact after fun _ => ih hrest

theorem assignZero (e : Expr) (v : Value) (scope : ScopeRef) : ((evaluator 0).assign e v scope).Fails :=
  fun _ => ⟨_, _, rfl⟩

/-- Undefined, which stands for an element that is left out, is nothing that can be assigned to. -/
theorem assignUndefined (n : Nat) (v : Value) (scope : ScopeRef) :
    ((evaluator n).assign .undefined v scope).Fails := by
  cases n with
  | zero => exact assignZero _ v scope
  | succ n => exact fun _ => ⟨_, _, rfl⟩

/-- An element that is left out fails, however deep it stands in the pattern. -/
theorem assignHole {t u : Target} (h : t.Contains u) {elements : List (Option Target)}
    (hu : u = .array elements) (hnone : none ∈ elements) (n : Nat) (v : Value) (scope : ScopeRef) :
    ((evaluator n).assign t.literal v scope).Fails := by
  induction h generalizing n v with
  | itself t =>
    subst hu
    cases n with
    | zero => exact assignZero _ v scope
    | succ n => exact after fun vs => assignItems hnone (fun v => assignUndefined n v scope) _
  | element ht _ ih =>
    cases n with
    | zero => exact assignZero _ v scope
    | succ n => exact after fun vs => assignItems ht (fun v => ih hu n v) _
  | member ht _ ih =>
    cases n with
    | zero => exact assignZero _ v scope
    | succ n => exact assignMembers ht (fun v => ih hu n v) v

end Run.Fails

/-- As seen from where they are set, the variables of `done` have the same values after two runs, and all others
those that they had before. -/
structure SameValues (home site : ScopeRef) (m₁ m₂ : Machine) (done : List String) (m₁' m₂' : Machine) : Prop where
  same : m₁'.SameBut m₂'
  value : ∀ x ∈ done, ∃ w, m₁'.heap.lookup? home x = some w ∧ m₂'.heap.lookup? site x = some w
  others : ∀ x, x ∉ done → ∀ s, m₁'.heap.lookup? s x = m₁.heap.lookup? s x ∧
    m₂'.heap.lookup? s x = m₂.heap.lookup? s x

theorem SetAlike.sameValues {home site : ScopeRef} {owner : String → ScopeRef} {names done : List String}
    {m₁ m₂ m₁' m₂' : Machine} (h : Facing home site owner names m₁ m₂) (hdone : done <+: names)
    (hset : SetAlike home owner m₁ m₂ done m₁' m₂') : SameValues home site m₁ m₂ done m₁' m₂' where
  same := hset.same
  value x hx := by
    obtain ⟨w, hw₁, hw₂⟩ := hset.value x hx
    have hdeclared : m₁'.heap.Sees x home home ⟨w, true⟩ := .own (hset.declared.size ▸ h.home_lt) hw₁
    obtain ⟨w', hassigned⟩ := (h.later hset).seen x (hdone.subset hx)
    obtain rfl : w' = w := by
      rw [hassigned.own?_eq] at hw₂
      cases hw₂
      rfl
    exact ⟨w', hdeclared.lookup?_eq, hassigned.lookup?_eq⟩
  others x hx s := ⟨hset.declared.lookup?_eq hx s, hset.assigned.lookup?_eq hx s⟩

/-- Declaring names without values changes only scopes. -/
theorem run_execBindings_names (ev : Evaluator) (scope : ScopeRef) (names : List String) (m : Machine) :
    ∃ scopes, Run.execBindings ev scope true (names.map fun x => (.name x, none)) m =
      .ok .normal (m.withScopes scopes) := by
  induction names generalizing m with
  | nil => exact ⟨m.heap.scopes, rfl⟩
  | cons x rest ih => exact ih { m with heap := m.heap.declare scope x ⟨.undefined, true⟩ }

/-- Names that have been declared before may be assigned where they could be declared as well. -/
theorem facing_of_declared {n : Nat} {scope : ScopeRef} {m m' : Machine} {names : List String} {flow : Flow}
    (hscope : scope.address < m.heap.scopes.size)
    (hok : (evaluator n).exec (.decl .letDecl (names.map fun x => (.name x, none))) scope m = .ok flow m') :
    Facing scope scope (fun _ => scope) names m m' := by
  cases n with
  | zero => cases hok
  | succ n =>
    obtain ⟨scopes, hrun⟩ := run_execBindings_names (evaluator n) scope names m
    obtain ⟨-, rfl⟩ := EStateM.Result.ok.inj (hrun.symm.trans hok)
    refine ⟨rfl, hscope, fun x hx => ?_⟩
    have hname : x ∈ Stmt.declared (.decl .letDecl (names.map fun x => (.name x, none))) :=
      List.mem_flatMap.mpr ⟨(.name x, none), List.mem_map.mpr ⟨x, hx, rfl⟩, List.mem_singleton.mpr rfl⟩
    obtain ⟨w, hw⟩ := exec_decl_binds hscope hok hname
    exact ⟨w, .own (Heap.lt_size_of_own? hw) hw⟩

/-- A pattern that is declared with the value of an expression, against the same one that is assigned to. -/
structure PatternSetsAlike (t : Target) (e : Expr) : Prop where
  /-- What is read as a target and its value in a declaration is read as the literal of the target and that value
  in an assignment. -/
  read : ∀ n s u v, Parse.target s = .ok (t, u) → t.IsReadable (n + 1) →
    Parse.initializer (Parse.descent n) u = .ok (some e, v) →
    Parse.assignment (Parse.descent n) s = .ok (.assign none t.literal e, v)
  /-- Without elements left out and patterns without members, both set the same variables to the same values,
  whether they end well or fail, where the value is the same and the variables may be assigned. -/
  plain : ∀ n v home site owner m₁ m₂ m₁' m₂', t.IsPlain → t.height ≤ n →
    (evaluator n).eval e home m₁ = .ok v m₁' → (evaluator n).eval e site m₂ = .ok v m₂' →
    Facing home site owner t.names m₁' m₂' →
    EndAlike (SameValues home site m₁' m₂') t.names
      ((evaluator (n + 1)).exec (.decl .letDecl [(t, some e)]) home m₁)
      ((evaluator (n + 1)).eval (.assign none t.literal e) site m₂)
  /-- So it is for variables that have been declared before. -/
  declared : ∀ n scope (m m' : Machine) flow, scope.address < m.heap.scopes.size →
    (evaluator n).exec (.decl .letDecl (t.names.map fun x => (.name x, none))) scope m = .ok flow m' →
    Facing scope scope (fun _ => scope) t.names m m'
  /-- If an element is left out, however far inside, the assignment fails for all values. -/
  hole : ∀ n site, t.HasHole → ((evaluator n).eval (.assign none t.literal e) site).Fails
  /-- A pattern without members cannot be declared with a missing value, but assigned. -/
  empty : ∀ n v home site m, t = .object [] → v.isNullish = true →
    (∃ f, f.IsTypeError ∧ Run.bind home true t v m = .error f m) ∧
      (evaluator (n + 1)).assign t.literal v site m = .ok () m

theorem patterns_set_alike (t : Target) (e : Expr) : PatternSetsAlike t e where
  read _ _ _ _ h ht hvalue := Parse.assignment_of_initialized h ht hvalue
  plain n v home site owner m₁ m₂ m₁' m₂' ht hn he₁ he₂ h := by
    have hdecl : (evaluator (n + 1)).exec (.decl .letDecl [(t, some e)]) home m₁ =
        (Run.bind home true t v >>= fun _ => pure Flow.normal) m₁' := run_bind_ok he₁
    have hassign : (evaluator (n + 1)).eval (.assign none t.literal e) site m₂ =
        ((evaluator n).assign t.literal v site >>= fun _ => pure v) m₂' := run_bind_ok he₂
    have hmirrors : Mirrors home site owner (t.names ++ [])
        (Run.bind home true t v >>= fun _ => pure Flow.normal)
        ((evaluator n).assign t.literal v site >>= fun _ => pure v) :=
      .bind (.ofTarget n t ht hn v) fun _ _ => .pure _ _
    rw [List.append_nil] at hmirrors
    rw [hdecl, hassign]
    exact (hmirrors m₁' m₂' h).imp fun _ _ _ hdone hset => hset.sameValues h hdone
  declared _ _ _ _ _ hscope hok := facing_of_declared hscope hok
  hole n site h := by
    obtain ⟨elements, hmem, hnone⟩ := h
    cases n with
    | zero => exact fun m => ⟨_, _, rfl⟩
    | succ n => exact Run.Fails.after fun v => (Run.Fails.assignHole hmem rfl hnone n v site).first _
  empty n v home site m ht hv := by
    subst ht
    cases v with
    | undefined | null => exact ⟨⟨_, ⟨_, rfl, rfl⟩, rfl⟩, rfl⟩
    | _ => cases hv

/-- An element that is left out is passed over in a declaration, but not in an assignment. -/
theorem hole_cannot_be_assigned :
    (evaluate "let a, b; [a, , b] = [1, 2, 3]; console.log(a, b);" "" ⟨20000⟩).bind Draft.error =
      some "SyntaxError: Invalid left-hand side in assignment (line 0)" := by
  decide +kernel

end Snippet.Script
