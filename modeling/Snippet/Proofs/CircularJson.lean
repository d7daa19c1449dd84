import Mathlib.Data.List.Nodup
import Snippet.Proofs.JsonRoundTrip
import Snippet.Proofs.TextRing

/-!
Which values have a JSON form. Containers around a value are remembered, so writing it ends where one of them
is met again. Whether that happens does not depend on the order in which parts are written nor on how often a
container is met: it happens exactly if a container that is reached from the value is reached from itself.
-/

namespace Snippet.Script

theorem Container.value_injective {c d : Container} (h : c.value = d.value) : c = d := by
  cases c <;> cases d <;> cases h <;> rfl

namespace Heap

def jsonParts (h : Heap) : Container → List Value
  -- The values that a container is written from: the elements of an array, the values of an
  -- object's entries.
  | .array a => (h.items a).toList
  | .object o => (h.object o).entries.map Prod.snd

def Nests (h : Heap) (c d : Container) : Prop := d.value ∈ h.jsonParts c

def HoldsRing (h : Heap) (v : Value) : Prop :=
  ∃ c d, v = c.value ∧ Relation.ReflTransGen h.Nests c d ∧ Relation.TransGen h.Nests d d

/-- No path of different containers from a value, each one standing in the one before and none among those
given, is longer than `n`. -/
def PathsWithin (h : Heap) (around : List Container) (n : Nat) (v : Value) : Prop :=
  ∀ c l, v = c.value → (c :: l).IsChain h.Nests → (c :: l).Nodup → (∀ d ∈ c :: l, d ∉ around) →
    (c :: l).length ≤ n

end Heap

mutual

inductive Heap.JsonOf (h : Heap) : Value → Option Json → Prop
  | undefined : JsonOf h .undefined none
  | function (f : Function) (identity : Nat) : JsonOf h (.function f identity) none
  | null : JsonOf h .null (some .null)
  | bool (b : Bool) : JsonOf h (.bool b) (some (.bool b))
  | number (x : Float) : JsonOf h (.number x) (some (numberJson x))
  | string (s : String) : JsonOf h (.string s) (some (.string s))
  | array {a : ArrayRef} {items : List Json} :
    ItemsJson h (h.items a).toList items → JsonOf h (.array a) (some (.array items))
  | object {o : ObjectRef} {members : List (String × Json)} :
    MembersJson h (h.object o).entries members → JsonOf h (.object o) (some (.object members))

/-- The JSON forms of elements, with `null` where there is none. -/
inductive Heap.ItemsJson (h : Heap) : List Value → List Json → Prop
  | nil : ItemsJson h [] []
  | missing {v : Value} {vs : List Value} {items : List Json} :
    JsonOf h v none → ItemsJson h vs items → ItemsJson h (v :: vs) (.null :: items)
  | present {v : Value} {item : Json} {vs : List Value} {items : List Json} :
    JsonOf h v (some item) → ItemsJson h vs items → ItemsJson h (v :: vs) (item :: items)

inductive Heap.MembersJson (h : Heap) : List (String × Value) → List (String × Json) → Prop
  | nil : MembersJson h [] []
  | missing {key : String} {v : Value} {es : List (String × Value)} {members : List (String × Json)} :
    JsonOf h v none → MembersJson h es members → MembersJson h ((key, v) :: es) members
  | present {key : String} {v : Value} {member : Json} {es : List (String × Value)}
    {members : List (String × Json)} :
    JsonOf h v (some member) → MembersJson h es members →
      MembersJson h ((key, v) :: es) ((key, member) :: members)

end

section Outcomes

variable {ε α β : Type} {f : α → Except ε β} {xs : List α}

theorem exists_ok_of_mapM {ys : List β} (h : xs.mapM f = .ok ys) {a : α} (ha : a ∈ xs) :
    ∃ b, f a = .ok b := by
  cases hf : f a with
  | ok b => exact ⟨b, rfl⟩
  | error e =>
    obtain ⟨e', he'⟩ := exists_mapM_error ha ⟨e, hf⟩
    rw [h] at he'
    cases he'

theorem of_except_bind_ok {x : Except ε α} {g : α → Except ε β} {b : β} (h : (x >>= g) = .ok b) :
    ∃ a, x = .ok a ∧ g a = .ok b := by
  cases x with
  | ok a => exact ⟨a, rfl, h⟩
  | error e => cases h

theorem of_except_bind_error {x : Except ε α} {g : α → Except ε β} {e : ε} (h : (x >>= g) = .error e)
    (hg : ∀ a, g a ≠ .error e) : x = .error e := by
  cases x with
  | ok a => exact absurd h (hg a)
  | error e' =>
    cases h
    rfl

end Outcomes

namespace Heap

variable {h : Heap} {around : List Container} {depth : Nat} {v w : Value} {c d : Container}

/-- A value is a container, or its JSON form is that of its kind. -/
theorem exists_container_or_ok (h : Heap) (depth : Nat) (around : List Container) (v : Value) :
    (∃ c : Container, v = c.value) ∨ ∃ j?, h.jsonWithin? depth around v = .ok j? ∧ h.JsonOf v j? := by
  cases v with
  | array a => exact Or.inl ⟨.array a, rfl⟩
  | object o => exact Or.inl ⟨.object o, rfl⟩
  | undefined => exact Or.inr ⟨none, by cases depth <;> rfl, .undefined⟩
  | function f i => exact Or.inr ⟨none, by cases depth <;> rfl, .function f i⟩
  | null => exact Or.inr ⟨_, by cases depth <;> rfl, .null⟩
  | bool b => exact Or.inr ⟨_, by cases depth <;> rfl, .bool b⟩
  | number x => exact Or.inr ⟨_, by cases depth <;> rfl, .number x⟩
  | string s => exact Or.inr ⟨_, by cases depth <;> rfl, .string s⟩

theorem contains_eq_false (hc : c ∉ around) : around.contains c = false := by
  simpa using hc

/-- A container inside of itself is found among those around it. -/
theorem jsonWithin?_of_mem (hc : c ∈ around) : h.jsonWithin? depth around c.value = .error .circularJson := by
  have hcontains : around.contains c = true := List.contains_iff_mem.mpr hc
  cases c with
  | array a =>
    change h.jsonWithin? depth around (.array a) = _
    rw [jsonWithin?.eq_def]
    simp only [hcontains, if_true]
  | object o =>
    change h.jsonWithin? depth around (.object o) = _
    rw [jsonWithin?.eq_def]
    simp only [hcontains, if_true]

/-- Below the deepest level there is no room for another container. -/
theorem jsonWithin?_full (hc : c ∉ around) : h.jsonWithin? 0 around c.value = .error .stackOverflow := by
  have hcontains : around.contains c = false := contains_eq_false hc
  cases c with
  | array a =>
    change h.jsonWithin? 0 around (.array a) = _
    rw [jsonWithin?.eq_def]
    simp only [hcontains, Bool.false_eq_true, if_false]
  | object o =>
    change h.jsonWithin? 0 around (.object o) = _
    rw [jsonWithin?.eq_def]
    simp only [hcontains, Bool.false_eq_true, if_false]

/-- Why a value is not written: its container is met again, there is no room for it, or a part of it is not
written. -/
theorem of_json_error {e : RuntimeError} (he : h.jsonWithin? depth around v = .error e) :
    ∃ c : Container, v = c.value ∧
      ((c ∈ around ∧ e = .circularJson) ∨
        (c ∉ around ∧ depth = 0 ∧ e = .stackOverflow) ∨
        (c ∉ around ∧ ∃ room, depth = room + 1 ∧
          ∃ w ∈ h.jsonParts c, h.jsonWithin? room (c :: around) w = .error e)) := by
  obtain ⟨c, rfl⟩ | ⟨k?, hk, -⟩ := h.exists_container_or_ok depth around v
  case inr =>
    rw [hk] at he
    cases he
  refine ⟨c, rfl, ?_⟩
  -- An element around itself is refused before anything else is looked at.
  by_cases hc : c ∈ around
  · rw [jsonWithin?_of_mem hc] at he
    cases he
    exact Or.inl ⟨hc, rfl⟩
  refine Or.inr ?_
  cases depth with
  | zero =>
    rw [jsonWithin?_full hc] at he
    cases he
    exact Or.inl ⟨hc, rfl, rfl⟩
  | succ room =>
    refine Or.inr ⟨hc, room, rfl, ?_⟩
    -- Further down the fault comes from a part, which is converted with one level less.
    have hcontains : around.contains c = false := contains_eq_false hc
    cases c with
    | array a =>
      change h.jsonWithin? (room + 1) around (.array a) = _ at he
      rw [jsonWithin?_array hcontains] at he
      have hitems := of_except_bind_error he fun items => ok_ne_error _ _
      obtain ⟨w, hw, hwe⟩ := exists_error_of_mapM hitems
      exact ⟨w, hw, of_except_bind_error hwe fun j? => ok_ne_error _ _⟩
    | object o =>
      change h.jsonWithin? (room + 1) around (.object o) = _ at he
      rw [jsonWithin?_object hcontains] at he
      have hmembers := of_except_bind_error he fun members => ok_ne_error _ _
      obtain ⟨entry, hentry, hwe⟩ := exists_error_of_mapM hmembers
      exact ⟨entry.2, List.mem_map_of_mem hentry, of_except_bind_error hwe fun j? => ok_ne_error _ _⟩

/-- A container that is written is not met again, there is room for it, and all of its parts are written. -/
theorem of_json_ok {j? : Option Json} (hj : h.jsonWithin? depth around c.value = .ok j?) :
    c ∉ around ∧ ∃ room, depth = room + 1 ∧
      ∀ w ∈ h.jsonParts c, ∃ w?, h.jsonWithin? room (c :: around) w = .ok w? := by
  have hc : c ∉ around := by
    intro hc
    rw [jsonWithin?_of_mem hc] at hj
    cases hj
  refine ⟨hc, ?_⟩
  cases depth with
  | zero =>
    rw [jsonWithin?_full hc] at hj
    cases hj
  | succ room =>
    -- There is a form of the whole only if there is one of every part.
    refine ⟨room, rfl, fun w hw => ?_⟩
    have hcontains : around.contains c = false := contains_eq_false hc
    cases c with
    | array a =>
      change h.jsonWithin? (room + 1) around (.array a) = _ at hj
      rw [jsonWithin?_array hcontains] at hj
      obtain ⟨items, hitems, -⟩ := of_except_bind_ok hj
      obtain ⟨item, hitem⟩ := exists_ok_of_mapM hitems hw
      obtain ⟨w?, hw?, -⟩ := of_except_bind_ok hitem
      exact ⟨w?, hw?⟩
    | object o =>
      change h.jsonWithin? (room + 1) around (.object o) = _ at hj
      rw [jsonWithin?_object hcontains] at hj
      obtain ⟨members, hmembers, -⟩ := of_except_bind_ok hj
      obtain ⟨entry, hentry, rfl⟩ := List.mem_map.mp hw
      obtain ⟨member, hmember⟩ := exists_ok_of_mapM hmembers hentry
      obtain ⟨w?, hw?, -⟩ := of_except_bind_ok hmember
      exact ⟨w?, hw?⟩

/-- The forms of elements are those of the array, with `null` where an element has none. -/
theorem itemsJson_of_mapM {f : Value → Except RuntimeError (Option Json)} {vs : List Value}
    (hf : ∀ v j?, f v = .ok j? → h.JsonOf v j?) {items : List Json}
    (hitems : (vs.mapM fun v => do return (← f v).getD .null) = .ok items) : h.ItemsJson vs items := by
  induction vs generalizing items with
  | nil =>
    cases hitems
    exact .nil
  | cons v rest ih =>
    rw [List.mapM_cons] at hitems
    obtain ⟨item, hitem, hitems⟩ := of_except_bind_ok hitems
    obtain ⟨more, hmore, hall⟩ := of_except_bind_ok hitems
    obtain ⟨j?, hj, hget⟩ := of_except_bind_ok hitem
    cases hall
    cases hget
    cases j? with
    | none => exact .missing (hf v none hj) (ih hmore)
    | some json => exact .present (hf v (some json) hj) (ih hmore)

/-- The forms of members are those of the object, less the members that have none. -/
theorem membersJson_of_mapM {f : Value → Except RuntimeError (Option Json)} {es : List (String × Value)}
    (hf : ∀ v j?, f v = .ok j? → h.JsonOf v j?) {members : List (Option (String × Json))}
    (hmembers : (es.mapM fun e => do return (← f e.2).map fun json => (e.1, json)) = .ok members) :
    h.MembersJson es (members.filterMap id) := by
  induction es generalizing members with
  | nil =>
    cases hmembers
    exact .nil
  | cons e rest ih =>
    rw [List.mapM_cons] at hmembers
    obtain ⟨member, hmember, hmembers⟩ := of_except_bind_ok hmembers
    obtain ⟨more, hmore, hall⟩ := of_except_bind_ok hmembers
    obtain ⟨j?, hj, hmap⟩ := of_except_bind_ok hmember
    cases hall
    cases hmap
    have hrest : h.MembersJson rest (more.filterMap id) := ih hmore
    cases j? with
    | none => exact .missing (hf e.2 none hj) hrest
    | some json => exact .present (hf e.2 (some json) hj) hrest

/-- What is written is the JSON form. -/
theorem jsonOf_of_ok {j? : Option Json} (hj : h.jsonWithin? depth around v = .ok j?) : h.JsonOf v j? := by
  induction depth generalizing around v j? with
  | zero =>
    obtain ⟨c, rfl⟩ | ⟨k?, hk, hform⟩ := h.exists_container_or_ok 0 around v
    · obtain ⟨-, room, hroom, -⟩ := of_json_ok hj
      cases hroom
    · rw [hk] at hj
      cases hj
      exact hform
  | succ depth ih =>
    obtain ⟨c, rfl⟩ | ⟨k?, hk, hform⟩ := h.exists_container_or_ok (depth + 1) around v
    · have hcontains : around.contains c = false := contains_eq_false (of_json_ok hj).1
      cases c with
      | array a =>
        change h.jsonWithin? (depth + 1) around (.array a) = _ at hj
        rw [jsonWithin?_array hcontains] at hj
        obtain ⟨items, hitems, hall⟩ := of_except_bind_ok hj
        cases hall
        exact .array (itemsJson_of_mapM (fun _ _ => ih) hitems)
      | object o =>
        change h.jsonWithin? (depth + 1) around (.object o) = _ at hj
        rw [jsonWithin?_object hcontains] at hj
        obtain ⟨members, hmembers, hall⟩ := of_except_bind_ok hj
        cases hall
        exact .object (membersJson_of_mapM (fun _ _ => ih) hmembers)
    · rw [hk] at hj
      cases hj
      exact hform

/-- A container on a ring, or above one, has a part of which the same is true. -/
theorem HoldsRing.exists_part (hc : h.HoldsRing c.value) : ∃ d, h.Nests c d ∧ h.HoldsRing d.value := by
  obtain ⟨c', d, hvalue, hreach, hring⟩ := hc
  obtain rfl := Container.value_injective hvalue
  obtain rfl | ⟨c', hstep, hrest⟩ := Relation.ReflTransGen.cases_head hreach
  · -- The container is on the ring itself, and so is the next one on it.
    obtain ⟨c', hstep, hrest⟩ := Relation.TransGen.head'_iff.mp hring
    exact ⟨c', hstep, c', c, rfl, hrest, hring⟩
  · exact ⟨c', hstep, c', d, rfl, hrest, hring⟩

theorem HoldsRing.of_part (hcd : h.Nests c d) (hd : h.HoldsRing d.value) : h.HoldsRing c.value := by
  obtain ⟨d', e, hvalue, hreach, hring⟩ := hd
  obtain rfl := Container.value_injective hvalue
  exact ⟨c, e, rfl, .head hcd hreach, hring⟩

/-- What is written holds no ring: one goes on along it for more containers than there is room for. -/
theorem not_holdsRing_of_ok {j? : Option Json} (hj : h.jsonWithin? depth around v = .ok j?) :
    ¬ h.HoldsRing v := by
  intro hring
  have hcontainer : ∃ c : Container, v = c.value := by
    obtain ⟨c, -, rfl, -, -⟩ := hring
    exact ⟨c, rfl⟩
  obtain ⟨c, rfl⟩ := hcontainer
  induction depth generalizing around c j? with
  | zero =>
    obtain ⟨-, room, hroom, -⟩ := of_json_ok hj
    cases hroom
  | succ depth ih =>
    obtain ⟨-, room, hroom, hparts⟩ := of_json_ok hj
    cases hroom
    obtain ⟨d, hnests, hbelow⟩ := hring.exists_part
    obtain ⟨w?, hw⟩ := hparts d.value hnests
    exact ih d hw hbelow

/-- Where a container is met again, there is a ring, as all containers around lead to the value. -/
theorem holdsRing_of_circular
    (haround : ∀ c ∈ around, ∀ d : Container, v = d.value → Relation.TransGen h.Nests c d)
    (hfail : h.jsonWithin? depth around v = .error .circularJson) : h.HoldsRing v := by
  induction depth generalizing around v with
  | zero =>
    obtain ⟨c, rfl, ⟨hc, -⟩ | ⟨-, -, he⟩ | ⟨-, room, hroom, -⟩⟩ := of_json_error hfail
    · exact ⟨c, c, rfl, .refl, haround c hc c rfl⟩
    · cases he
    · cases hroom
  | succ depth ih =>
    obtain ⟨c, rfl, ⟨hc, -⟩ | ⟨-, -, he⟩ | ⟨-, room, hroom, w, hw, hwe⟩⟩ := of_json_error hfail
    · exact ⟨c, c, rfl, .refl, haround c hc c rfl⟩
    · cases he
    · cases hroom
      -- The part is one step further for all that is around it, and the first one for the container itself.
      have hinside : ∀ c' ∈ c :: around, ∀ d : Container, w = d.value → Relation.TransGen h.Nests c' d := by
        rintro c' hc' d rfl
        obtain rfl | hc' := List.mem_cons.mp hc'
        · exact .single hw
        · exact (haround c' hc' c rfl).tail hw
      have hring : h.HoldsRing w := ih hinside hwe
      obtain ⟨d, -, rfl, -⟩ := id hring
      exact hring.of_part hw

/-- What stands in a container has paths that are shorter by it. -/
theorem PathsWithin.part (hv : h.PathsWithin around (depth + 1) c.value) (hc : c ∉ around)
    (hw : w ∈ h.jsonParts c) : h.PathsWithin (c :: around) depth w := by
  rintro d l rfl hchain hnodup houtside
  -- The path does not come back to the container around it, so it can begin there.
  have hne : c ∉ d :: l := fun hin => houtside c hin List.mem_cons_self
  have hlength : (c :: d :: l).length ≤ depth + 1 := by
    apply hv c (d :: l) rfl
    · exact List.isChain_cons_cons.mpr ⟨hw, hchain⟩
    · exact List.nodup_cons.mpr ⟨hne, hnodup⟩
    · intro e he
      obtain rfl | he := List.mem_cons.mp he
      · exact hc
      · exact fun hin => houtside e he (List.mem_cons_of_mem c hin)
  exact Nat.le_of_succ_le_succ hlength

theorem PathsWithin.pos (hv : h.PathsWithin around depth c.value) (hc : c ∉ around) : 0 < depth := by
  -- The container by itself is a path.
  apply hv c [] rfl (List.isChain_singleton c) (List.nodup_singleton c)
  intro d hd
  rwa [List.mem_singleton.mp hd]

/-- Where there is room for all paths, meeting a container again is the only reason not to be written. -/
theorem PathsWithin.circular_of_error (hv : h.PathsWithin around depth v) {e : RuntimeError}
    (he : h.jsonWithin? depth around v = .error e) : e = .circularJson := by
  induction depth generalizing around v with
  | zero =>
    obtain ⟨c, rfl, ⟨-, rfl⟩ | ⟨hc, -, -⟩ | ⟨-, room, hroom, -⟩⟩ := of_json_error he
    · rfl
    · exact absurd (hv.pos hc) (Nat.lt_irrefl 0)
    · cases hroom
  | succ depth ih =>
    obtain ⟨c, rfl, ⟨-, rfl⟩ | ⟨-, hzero, -⟩ | ⟨hc, room, hroom, w, hw, hwe⟩⟩ := of_json_error he
    · rfl
    · cases hzero
    · cases hroom
      exact ih (hv.part hc hw) hwe

theorem json?_circular_iff (hv : h.PathsWithin [] maxDepth v) :
    h.json? v = .error .circularJson ↔ h.HoldsRing v := by
  constructor
  · exact holdsRing_of_circular fun c hc => absurd hc List.not_mem_nil
  · intro hring
    cases hj : h.json? v with
    | ok j? => exact absurd hring (not_holdsRing_of_ok hj)
    | error e => rw [hv.circular_of_error hj]

def containers (h : Heap) : List Container :=
  (List.range h.arrays.size).map (fun n => .array ⟨n⟩) ++ (List.range h.objects.size).map fun n => .object ⟨n⟩

theorem length_containers : h.containers.length = h.arrays.size + h.objects.size := by
  simp [containers]

/-- Whatever is nested in another container is one of those in the heap. -/
theorem mem_containers_of_nests (hcd : h.Nests c d) : c ∈ h.containers := by
  cases c with
  | array a =>
    have ha : a.address < h.arrays.size := by
      by_contra hout
      have hnone : h.items a = #[] := Array.getD_eq_getD_getElem?.trans (by simp [hout])
      simp [Nests, jsonParts, hnone] at hcd
    exact List.mem_append_left _ (List.mem_map.mpr ⟨a.address, List.mem_range.mpr ha, rfl⟩)
  | object o =>
    have ho : o.address < h.objects.size := by
      by_contra hout
      have hnone : h.object o = {} := Array.getD_eq_getD_getElem?.trans (by simp [hout])
      simp [Nests, jsonParts, hnone] at hcd
    exact List.mem_append_right _ (List.mem_map.mpr ⟨o.address, List.mem_range.mpr ho, rfl⟩)

/-- All containers of a path but the last one have parts. -/
theorem mem_containers_of_mem_dropLast {l : List Container} (hchain : (c :: l).IsChain h.Nests)
    (hd : d ∈ (c :: l).dropLast) : d ∈ h.containers := by
  induction l generalizing c with
  | nil => cases hd
  | cons c' rest ih =>
    obtain ⟨hcc', hrest⟩ := List.isChain_cons_cons.mp hchain
    obtain rfl | hd := List.mem_cons.mp hd
    · exact mem_containers_of_nests hcc'
    · exact ih hrest hd

/-- No path is longer than the number of containers, one more being counted for one that is not there. -/
theorem pathsWithin_of_size {n : Nat} (hn : h.arrays.size + h.objects.size < n) (around : List Container)
    (v : Value) : h.PathsWithin around n v := by
  intro c l _ hchain hnodup _
  have hdistinct : (c :: l).dropLast.Nodup := hnodup.sublist (List.dropLast_sublist _)
  have hsubset : (c :: l).dropLast ⊆ h.containers := fun d => mem_containers_of_mem_dropLast hchain
  have hle : (c :: l).dropLast.length ≤ h.containers.length := (hdistinct.subperm hsubset).length_le
  rw [length_containers, List.length_dropLast, List.length_cons] at hle
  rw [List.length_cons]
  omega

end Heap

namespace Run

variable {m : Machine} {v : Value}

theorem jsonText_error {e : RuntimeError} (he : m.heap.json? v = .error e) (rest : List Value) :
    Run.jsonText (v :: rest) m = .error (.raised e) m := by
  have hform : (ofExcept (m.heap.json? v) : Run (Option Json)) m = .error (.raised e) m := by
    rw [he]
    rfl
  exact (run_bind_ok (rfl : heap m = .ok m.heap m)).trans (run_bind_error hform)

def jsonResult (indent : Value) : Option Json → Run Value
  | none => pure .undefined
  | some json => makeString (String.ofList (Json.write (layoutOf indent) json))

theorem jsonText_ok {j? : Option Json} (hj : m.heap.json? v = .ok j?) (rest : List Value) :
    Run.jsonText (v :: rest) m = jsonResult (argument (v :: rest) 2) j? m := by
  have hform : (ofExcept (m.heap.json? v) : Run (Option Json)) m = .ok j? m := by
    rw [hj]
    rfl
  refine (run_bind_ok (rfl : heap m = .ok m.heap m)).trans ((run_bind_ok hform).trans ?_)
  cases j? <;> rfl

theorem jsonResult_ne_circular (indent : Value) (j? : Option Json) (m : Machine) :
    jsonResult indent j? m ≠ .error (.raised .circularJson) m := by
  cases j? with
  | none => rintro ⟨⟩
  | some json =>
    change makeString _ m ≠ _
    unfold makeString
    split <;> rintro ⟨⟩

end Run

/-- Writing a value as JSON finds rings and nothing else. Where no path of different containers from the
value is longer than 1000, it fails as circular exactly if a container that is reached from the value is
reached from itself. All other values are written in their JSON form, however often they share a container:
missing values and functions are left out of objects and are `null` in arrays. -/
theorem circular_json_iff_ring {m : Machine} {v : Value} (hv : m.heap.PathsWithin [] maxDepth v)
    (call : Caller) (rest : List Value) :
    (Run.callBuiltin call .jsonText (v :: rest) m = .error (.raised .circularJson) m ↔
      m.heap.HoldsRing v) ∧
    (¬ m.heap.HoldsRing v → ∃ j?, m.heap.JsonOf v j? ∧
      Run.callBuiltin call .jsonText (v :: rest) m = Run.jsonResult (Run.argument (v :: rest) 2) j? m) ∧
    RuntimeError.circularJson.report = "TypeError: Converting circular structure to JSON" := by
  have hring := Heap.json?_circular_iff hv
  have hok : ¬ m.heap.HoldsRing v → ∃ j?, m.heap.json? v = .ok j? := by
    intro hnone
    cases hj : m.heap.json? v with
    | ok j? => exact ⟨j?, rfl⟩
    | error e => 
      rw [hv.circular_of_error hj] at hj
      exact absurd (hring.mp hj) hnone
  refine ⟨⟨?_, ?_⟩, ?_, rfl⟩
  · intro hfail
    by_contra hnone
    obtain ⟨j?, hj⟩ := hok hnone
    have hresult : Run.callBuiltin call .jsonText (v :: rest) m = _ := Run.jsonText_ok hj rest
    rw [hresult] at hfail
    exact Run.jsonResult_ne_circular _ _ _ hfail
  · exact fun h => Run.jsonText_error (hring.mpr h) rest
  · intro hnone
    obtain ⟨j?, hj⟩ := hok hnone
    exact ⟨j?, Heap.jsonOf_of_ok hj, Run.jsonText_ok hj rest⟩

def sharedAndRing : Heap :=
  -- A heap with an array in which one object stands twice, and an array that stands in its own
  -- object.
  { arrays := #[#[.object ⟨0⟩, .object ⟨0⟩, .undefined], #[.null, .object ⟨1⟩]]
    objects :=
      #[{ entries := [("missing", .undefined), ("there", .bool true)] }, { entries := [("own", .array ⟨1⟩)] }] }

/-- An array that holds itself has no JSON text. -/
theorem ring_is_circular_json :
    let m : Machine := { stdin := ⟨[]⟩, checkpoints := 0, heap := sharedAndRing }
    Run.callBuiltin (evaluator 1).call .jsonText [.array ⟨1⟩] m = .error (.raised .circularJson) m ∧
    Run.callBuiltin (evaluator 1).call .jsonText [.array ⟨0⟩] m ≠ .error (.raised .circularJson) m := by
  intro m
  have hpaths (v : Value) : m.heap.PathsWithin [] maxDepth v :=
    Heap.pathsWithin_of_size (by decide) [] v
  constructor
  · have hfirst : m.heap.Nests (.array ⟨1⟩) (.object ⟨1⟩) :=
      List.mem_cons_of_mem _ List.mem_cons_self
    have hsecond : m.heap.Nests (.object ⟨1⟩) (.array ⟨1⟩) := List.mem_cons_self
    have hring : m.heap.HoldsRing (.array ⟨1⟩) :=
      ⟨.array ⟨1⟩, .array ⟨1⟩, rfl, .refl, (Relation.TransGen.single hfirst).tail hsecond⟩
    exact (circular_json_iff_ring (hpaths _) _ []).1.mpr hring
  · have hwritten : m.heap.json? (.array ⟨0⟩) =
        .ok (some (.array [.object [("there", .bool true)], .object [("there", .bool true)], .null])) := rfl
    intro hfail
    exact Heap.not_holdsRing_of_ok hwritten ((circular_json_iff_ring (hpaths _) _ []).1.mp hfail)

end Snippet.Script
