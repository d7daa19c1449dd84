import Mathlib.Data.List.Forall2
import Snippet.Proofs.DataTree
import Snippet.Proofs.MemberKeys

/-!
Copies of objects. Spreading an object into a new one, assigning its members to an empty one and making an object of
its entries all set the same members one after the other. Since no key comes twice, this gives the same entries in
the same order, which is also the order in which the members are listed.
-/

namespace Snippet.Script

namespace Object

def setAll (o : Object) (es : List (String × Value)) : Object := es.foldl (fun o e => o.set e.1 e.2) o

/-- Entries of distinct keys that are set one after the other come in this order. -/
theorem setAll_of_nodup (done : List (String × Value)) {es : List (String × Value)}
    (h : ((done ++ es).map Prod.fst).Nodup) : setAll { entries := done } es = { entries := done ++ es } := by
  induction es generalizing done with
  | nil =>
    rw [List.append_nil]
    rfl
  | cons e rest ih =>
    have hnew : e.1 ∉ memberKeys { entries := done } := by
      rw [List.map_append, List.nodup_append] at h
      rw [memberKeys, List.append_nil]
      exact fun hmem => h.2.2 e.1 hmem e.1 List.mem_cons_self rfl
    rw [List.append_cons] at h
    change setAll (set { entries := done } e.1 e.2) rest = _
    rw [set_of_notMem hnew, ih _ h, List.append_assoc]
    rfl

end Object

/-- Changing the object that was made last is making another one. -/
theorem Heap.modifyObject_pushObject (h : Heap) (o : Object) (f : Object → Object) :
    (h.pushObject o).modifyObject ⟨h.objects.size⟩ f = h.pushObject (f o) := by
  refine congrArg (fun objects => { h with objects }) (Array.ext_getElem? fun i => ?_)
  change ((h.objects.push o).modify h.objects.size f)[i]? = _
  rw [Array.getElem?_modify, Array.getElem?_push, Array.getElem?_push]
  by_cases hi : i = h.objects.size
  · rw [if_pos hi.symm, if_pos hi, if_pos hi]
    rfl
  · rw [if_neg fun heq => hi heq.symm, if_neg hi, if_neg hi]

variable {m m' : Machine} {o : ObjectRef} {es : List (String × Value)}

/-- A member that is listed is found. -/
theorem run_getMember_entry (htidy : (m.heap.object o).Tidy) {e : String × Value}
    (he : e ∈ (m.heap.object o).entries) : Run.getMember (.object o) e.1 m = .ok e.2 m := by
  refine run_getMember_object ?_
  rw [Object.get?_eq_lookup, List.lookup_append, lookup_of_mem htidy.nodup he]
  rfl

theorem run_ownKeys (o : ObjectRef) (m : Machine) :
    Run.ownKeys (.object o) m = .ok ((m.heap.object o).entries.map Prod.fst) m := rfl

theorem run_makeObject (o : Object) (m : Machine) :
    ∃ m', Run.makeObject o m = .ok (.object ⟨m.heap.objects.size⟩) m' ∧ m'.heap = m.heap.pushObject o :=
  ⟨_, rfl, rfl⟩

/-- Assigning entry by entry is assigning all of them. -/
theorem run_foldlM_set {v : Value} (hget : ∀ e ∈ es, Run.getMember v e.1 m = .ok e.2 m) (start : Object) :
    ((es.map Prod.fst).foldlM (fun o key => return o.set key (← Run.getMember v key)) start : Run Object) m =
      .ok (start.setAll es) m := by
  induction es generalizing start with
  | nil => rfl
  | cons e rest ih =>
    obtain ⟨he, hrest⟩ := List.forall_mem_cons.mp hget
    have hstep : (do return start.set e.1 (← Run.getMember v e.1) : Run Object) m =
        .ok (start.set e.1 e.2) m := run_bind_ok he
    rw [List.map_cons, List.foldlM_cons]
    exact (run_bind_ok hstep).trans (ih hrest _)

theorem run_spreadInto (htidy : (m.heap.object o).Tidy) :
    Run.spreadInto {} (.object o) m = .ok { entries := (m.heap.object o).entries } m := by
  refine (run_bind_ok (run_ownKeys o m)).trans ?_
  rw [run_foldlM_set fun e he => run_getMember_entry htidy he]
  exact congrArg (EStateM.Result.ok · m) (Object.setAll_of_nodup [] htidy.nodup)

/-- By induction on the members that are left: the ones before have been set. -/
theorem run_forIn_setMember {h : Heap} (source : Value) (es : List (String × Value))
    (hget : ∀ m : Machine, (∃ c, m.heap = h.pushObject c) → ∀ e ∈ es, Run.getMember source e.1 m = .ok e.2 m)
    {c : Object} (hm : m.heap = h.pushObject c) :
    ∃ m', (forIn (es.map Prod.fst) PUnit.unit fun key _ => do
        Run.setMember (.object ⟨h.objects.size⟩) key (← Run.getMember source key)
        pure (ForInStep.yield PUnit.unit) : Run PUnit) m = .ok PUnit.unit m' ∧
      m'.heap = h.pushObject (c.setAll es) := by
  induction es generalizing m c with
  | nil => exact ⟨m, rfl, hm⟩
  | cons e rest ih =>
    have hstep : (do
        Run.setMember (.object ⟨h.objects.size⟩) e.1 (← Run.getMember source e.1)
        pure (ForInStep.yield PUnit.unit) : Run (ForInStep PUnit)) m =
          .ok (.yield ⟨⟩) { m with heap := h.pushObject (c.set e.1 e.2) } := by
      refine (run_bind_ok (hget m ⟨c, hm⟩ e List.mem_cons_self)).trans ?_
      rw [← h.modifyObject_pushObject c fun o => o.set e.1 e.2, ← hm]
      rfl
    obtain ⟨m', hrun, hheap⟩ := ih (m := { m with heap := h.pushObject (c.set e.1 e.2) })
      (fun m hm e he => hget m hm e (List.mem_cons_of_mem _ he)) rfl
    refine ⟨m', ?_, hheap⟩
    rw [List.map_cons, List.forIn_cons]
    exact (run_bind_ok hstep).trans hrun

/-- Assigning an object to an empty one makes a copy. -/
theorem run_assign (call : Caller) (htidy : (m.heap.object o).Tidy) (ho : o.address < m.heap.objects.size)
    (hm : m'.heap = m.heap.pushObject {}) :
    ∃ m'', Run.callBuiltin call .assign [.object ⟨m.heap.objects.size⟩, .object o] m' =
        .ok (.object ⟨m.heap.objects.size⟩) m'' ∧
      m''.heap = m.heap.pushObject { entries := (m.heap.object o).entries } := by
  have hsource (c : Object) : (m.heap.pushObject c).object o = m.heap.object o :=
    (m.heap.growsTo_pushObject c).object o ho
  -- While members are copied only the new object changes, so that the next ones are found as before.
  obtain ⟨m'', hloop, hheap⟩ := run_forIn_setMember (.object o) (m.heap.object o).entries
    (fun m₁ ⟨c, hc⟩ e he => by
      have hobject : m₁.heap.object o = m.heap.object o := hc ▸ hsource c
      exact run_getMember_entry (hobject ▸ htidy) (hobject ▸ he)) hm
  rw [Object.setAll_of_nodup [] htidy.nodup] at hheap
  have hkeys : Run.ownKeys (.object o) m' = .ok ((m.heap.object o).entries.map Prod.fst) m' := by
    rw [run_ownKeys, hm, hsource]
  have hcopy : Run.copyMembers (.object ⟨m.heap.objects.size⟩) (.object o) m' = .ok () m'' :=
    (run_bind_ok hkeys).trans (run_bind_ok hloop)
  have hstep : (do
      Run.copyMembers (.object ⟨m.heap.objects.size⟩) (.object o)
      pure (ForInStep.yield PUnit.unit) : Run (ForInStep PUnit)) m' = .ok (.yield ⟨⟩) m'' := run_bind_ok hcopy
  refine ⟨m'', ?_, hheap⟩
  unfold Run.callBuiltin
  dsimp only
  rw [List.drop_one, List.tail_cons, List.forIn_cons]
  exact run_bind_ok (run_bind_ok hstep)

def IsPair (h : Heap) (v : Value) (e : String × Value) : Prop :=
  ∃ a : ArrayRef, v = .array a ∧ a.address < h.arrays.size ∧ h.items a = #[.string e.1, e.2]

theorem IsPair.mono {h h' : Heap} {v : Value} {e : String × Value} (hv : IsPair h v e) (hg : h.GrowsTo h') :
    IsPair h' v e := by
  obtain ⟨a, rfl, ha, hitems⟩ := hv
  exact ⟨a, rfl, Nat.lt_of_lt_of_le ha hg.arrays, (hg.items a ha).trans hitems⟩

/-- By induction on the members: a pair stays what it is while further ones are made. -/
theorem run_memberPairs (v : Value) (es : List (String × Value))
    (hget : ∀ m' : Machine, m'.heap.objects = m.heap.objects → ∀ e ∈ es, Run.getMember v e.1 m' = .ok e.2 m') :
    ∃ vs m', Run.memberPairs v (es.map Prod.fst) m = .ok vs m' ∧ m.heap.GrowsTo m'.heap ∧
      List.Forall₂ (IsPair m'.heap) vs es := by
  induction es generalizing m with
  | nil => exact ⟨[], m, rfl, m.heap.growsTo_refl, .nil⟩
  | cons e rest ih =>
    have hgrows := m.heap.growsTo_pushArray #[.string e.1, e.2]
    have hstep : ∃ m₁, (do Run.makeArray [.string e.1, ← Run.getMember v e.1] : Run Value) m =
        .ok (.array ⟨m.heap.arrays.size⟩) m₁ ∧ m₁.heap = m.heap.pushArray #[.string e.1, e.2] :=
      ⟨_, run_bind_ok (hget m rfl e List.mem_cons_self), rfl⟩
    obtain ⟨m₁, hmade, hm₁⟩ := hstep
    rw [← hm₁] at hgrows
    have hpair : IsPair m₁.heap (.array ⟨m.heap.arrays.size⟩) e := by
      rw [hm₁]
      exact ⟨_, rfl, Array.size_push _ ▸ Nat.lt_succ_self _, m.heap.items_pushArray _⟩
    have hobjects : m₁.heap.objects = m.heap.objects := hm₁ ▸ rfl
    obtain ⟨vs, m', hrun, hgrows', hpairs⟩ := ih (m := m₁) fun m' hm' e he =>
      hget m' (hm'.trans hobjects) e (List.mem_cons_of_mem _ he)
    refine ⟨.array ⟨m.heap.arrays.size⟩ :: vs, m', ?_, hgrows.trans hgrows', .cons (hpair.mono hgrows') hpairs⟩
    unfold Run.memberPairs at hrun ⊢
    rw [List.map_cons, List.mapM_cons]
    exact (run_bind_ok hmade).trans (run_bind_ok hrun)

/-- The pairs of an object are arrays of a key and its value, in the order of the keys. -/
theorem run_entries (call : Caller) (htidy : (m.heap.object o).Tidy) :
    ∃ p m', Run.callBuiltin call .entries [.object o] m = .ok (.array p) m' ∧ m.heap.GrowsTo m'.heap ∧
      List.Forall₂ (IsPair m'.heap) (m'.heap.items p).toList (m.heap.object o).entries := by
  -- Pairs are arrays, so making them leaves the objects as they are.
  obtain ⟨vs, m₁, hrun, hgrows, hpairs⟩ := run_memberPairs (m := m) (.object o)
    (m.heap.object o).entries fun m' hm' e he => by
      have hobject : m'.heap.object o = m.heap.object o := congrArg (·.getD o.address {}) hm'
      exact run_getMember_entry (hobject ▸ htidy) (hobject ▸ he)
  have hgrows' := m₁.heap.growsTo_pushArray vs.toArray
  refine ⟨⟨m₁.heap.arrays.size⟩, _, (run_bind_ok (run_ownKeys o m)).trans (run_bind_ok hrun),
    hgrows.trans hgrows', ?_⟩
  change List.Forall₂ (IsPair (m₁.heap.pushArray vs.toArray))
    ((m₁.heap.pushArray vs.toArray).items ⟨m₁.heap.arrays.size⟩).toList _
  rw [Heap.items_pushArray]
  exact hpairs.imp fun _ _ hpair => hpair.mono hgrows'

/-- Setting members from pairs is setting all of the entries. -/
theorem run_foldlM_pairs {vs : List Value} (hpairs : List.Forall₂ (IsPair m.heap) vs es) (start : Object) :
    (vs.foldlM (fun o pair => do
        let pair := (← Run.iterate pair).toList
        return o.set (← Run.toText (Run.argument pair 0)) (Run.argument pair 1)) start : Run Object) m =
      .ok (start.setAll es) m := by
  induction hpairs generalizing start with
  | nil => rfl
  | @cons v e vs es hpair _ ih =>
    obtain ⟨a, rfl, -, hitems⟩ := hpair
    have hiterate : Run.iterate (.array a) m = .ok #[.string e.1, e.2] m :=
      congrArg (EStateM.Result.ok · m) hitems
    have hstep : (do
        let pair := (← Run.iterate (.array a)).toList
        return start.set (← Run.toText (Run.argument pair 0)) (Run.argument pair 1) : Run Object) m =
          .ok (start.set e.1 e.2) m := run_bind_ok hiterate
    rw [List.foldlM_cons]
    exact (run_bind_ok hstep).trans (ih _)

theorem run_fromEntries (call : Caller) {p : ArrayRef}
    (hpairs : List.Forall₂ (IsPair m.heap) (m.heap.items p).toList es) (hkeys : (es.map Prod.fst).Nodup) :
    ∃ m', Run.callBuiltin call .fromEntries [.array p] m = .ok (.object ⟨m.heap.objects.size⟩) m' ∧
      m'.heap = m.heap.pushObject { entries := es } := by
  have hfold := run_foldlM_pairs hpairs {}
  rw [Object.setAll_of_nodup [] hkeys] at hfold
  exact ⟨_, (run_bind_ok (x := Run.iterate (.array p)) rfl).trans (run_bind_ok hfold), rfl⟩

/-- The values are read key by key, and reading changes nothing. -/
theorem run_memberValues {v : Value} (hget : ∀ e ∈ es, Run.getMember v e.1 m = .ok e.2 m) :
    Run.memberValues v (es.map Prod.fst) m = .ok (es.map Prod.snd) m := by
  induction es with
  | nil => rfl
  | cons e rest ih =>
    obtain ⟨he, hrest⟩ := List.forall_mem_cons.mp hget
    have hrun := ih hrest
    unfold Run.memberValues at hrun ⊢
    rw [List.map_cons, List.mapM_cons]
    exact (run_bind_ok he).trans (run_bind_ok hrun)

theorem run_visited (o : ObjectRef) (m : Machine) :
    Run.visited true (.object o) m = .ok ((m.heap.object o).entries.map fun e => .string e.1) m := by
  refine (run_bind_ok (run_ownKeys o m)).trans ?_
  rw [List.map_map]
  rfl

def Machine.Lists (m : Machine) (x : Run Value) (vs : List Value) : Prop :=
  ∃ a m', x m = .ok (.array a) m' ∧ m.heap.arrays.size ≤ a.address ∧ m.heap.GrowsTo m'.heap ∧
    (m'.heap.items a).toList = vs

theorem Machine.Lists.of_makeArray {x : Run Value} {vs : List Value} (h : x m = Run.makeArray vs m) :
    m.Lists x vs := by
  refine ⟨⟨m.heap.arrays.size⟩, _, h, Nat.le_refl _, m.heap.growsTo_pushArray vs.toArray, ?_⟩
  exact congrArg Array.toList (m.heap.items_pushArray vs.toArray)

structure Machine.HasCopy (m : Machine) (o c : ObjectRef) (m' : Machine) : Prop where
  fresh : m.heap.objects.size ≤ c.address
  there : c.address < m'.heap.objects.size
  same : m'.heap.object c = { entries := (m.heap.object o).entries }
  grows : m.heap.GrowsTo m'.heap

theorem Machine.HasCopy.of_pushObject {h : Heap} (hgrows : m.heap.GrowsTo h)
    (hm' : m'.heap = h.pushObject { entries := (m.heap.object o).entries }) :
    m.HasCopy o ⟨h.objects.size⟩ m' where
  fresh := hgrows.objects
  there := hm' ▸ Array.size_push _ ▸ Nat.lt_succ_self _
  same := hm' ▸ h.object_pushObject _
  grows := hm' ▸ hgrows.trans (h.growsTo_pushObject _)

structure CopiesAgree (m : Machine) (o : ObjectRef) : Prop where
  keysOnce : ((m.heap.object o).entries.map Prod.fst).Nodup
  /-- A literal into which an expression is spread that gives the object. -/
  spread : ∀ n e scope m₀, (evaluator n).eval e scope m₀ = .ok (.object o) m →
    ∃ c m', (evaluator (n + 1)).eval (.object [.spread e]) scope m₀ = .ok (.object c) m' ∧ m.HasCopy o c m'
  /-- `Object.assign` to an empty literal. -/
  assigned : ∀ n scope call, ∃ c m', (do
      let t ← (evaluator (n + 1)).eval (.object []) scope
      Run.callBuiltin call .assign [t, .object o]) m = .ok (.object c) m' ∧ m.HasCopy o c m'
  /-- `Object.fromEntries` of `Object.entries`. -/
  remade : ∀ call, ∃ c m', (do
      let pairs ← Run.callBuiltin call .entries [.object o]
      Run.callBuiltin call .fromEntries [pairs]) m = .ok (.object c) m' ∧ m.HasCopy o c m'
  keys : ∀ call, m.Lists (Run.callBuiltin call .keys [.object o])
    ((m.heap.object o).entries.map fun e => .string e.1)
  values : ∀ call, m.Lists (Run.callBuiltin call .values [.object o]) ((m.heap.object o).entries.map Prod.snd)
  /-- A `for`...`in` loop over an expression that gives the object has a round for each key. -/
  visits : ∀ n kind target subject body scope m₀, (evaluator n).eval subject scope m₀ = .ok (.object o) m →
    (evaluator (n + 1)).exec (.forEach true kind target subject body) scope m₀ =
      Run.forEach (evaluator n) (kind != .constDecl) target body scope
        ((m.heap.object o).entries.map fun e => .string e.1) m

theorem copiesAgree (htidy : (m.heap.object o).Tidy) (ho : o.address < m.heap.objects.size) : CopiesAgree m o where
  keysOnce := htidy.nodup
  spread n e scope m₀ he := by
    obtain ⟨m', hmade, hheap⟩ := run_makeObject { entries := (m.heap.object o).entries } m
    have hmembers : Run.evalMembers (evaluator n) scope {} [.spread e] m₀ =
        .ok { entries := (m.heap.object o).entries } m :=
      (run_bind_ok he).trans (run_bind_ok (run_spreadInto htidy))
    exact ⟨_, m', (run_bind_ok hmembers).trans hmade, .of_pushObject m.heap.growsTo_refl hheap⟩
  assigned n scope call := by
    obtain ⟨m₁, hmade, hm₁⟩ := run_makeObject {} m
    obtain ⟨m', hrun, hheap⟩ := run_assign call htidy ho hm₁
    exact ⟨_, m', (run_bind_ok hmade).trans hrun, .of_pushObject m.heap.growsTo_refl hheap⟩
  remade call := by
    obtain ⟨p, m₁, hentries, hgrows, hpairs⟩ := run_entries call htidy
    obtain ⟨m', hrun, hheap⟩ := run_fromEntries call hpairs htidy.nodup
    exact ⟨_, m', (run_bind_ok hentries).trans hrun, .of_pushObject hgrows hheap⟩
  keys call := by
    refine .of_makeArray ((run_bind_ok (run_ownKeys o m)).trans ?_)
    rw [List.map_map]
    rfl
  values call := by
    have hvalues := run_memberValues (m := m) fun e he => run_getMember_entry htidy he
    exact .of_makeArray ((run_bind_ok (run_ownKeys o m)).trans (run_bind_ok hvalues))
  visits n kind target subject body scope m₀ hsubject := by
    refine (run_bind_ok hsubject).trans ?_
    exact run_bind_ok (run_visited o m)

/-- All ways of copying agree for every object that there is at the end of a run, and so at every checkpoint of a
longer one. Between checkpoints it is the same: what is evaluated gives no object two entries of one key, and this is
all that matters. -/
theorem copies_agree :
    (∀ (j : Job) o, o.address < (finalState j.run).heap.objects.size → CopiesAgree (finalState j.run) o) ∧
      (∀ n, (evaluator n).Sustains (Machine.AllObjects Object.Tidy) Any (fun _ => Any)) ∧
      ∀ (m : Machine) o, m.AllObjects Object.Tidy → o.address < m.heap.objects.size → CopiesAgree m o :=
  ⟨fun j _ ho => copiesAgree (j.tidy_objects.object ho) ho, evaluator_sustains fun _ => trivial,
    fun _ _ hm ho => copiesAgree (hm.object ho) ho⟩

end Snippet.Script
