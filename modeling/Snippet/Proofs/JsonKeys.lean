import Snippet.Json.Reader

/-!
The keys of JSON values that have been read. A text may give a key of an object more than once; the value that is
read has it once.
-/

namespace Snippet.Json

mutual

def Distinct : Json → Prop
  | .array items => itemsDistinct items
  | .object members => (members.map Prod.fst).Nodup ∧ membersDistinct members
  | _ => True

def itemsDistinct : List Json → Prop
  | [] => True
  | j :: rest => j.Distinct ∧ itemsDistinct rest

def membersDistinct : List (String × Json) → Prop
  | [] => True
  | (_, j) :: rest => j.Distinct ∧ membersDistinct rest

end

theorem itemsDistinct_iff {items : List Json} : itemsDistinct items ↔ ∀ j ∈ items, j.Distinct := by
  induction items with
  | nil => exact iff_of_true trivial fun _ h => absurd h List.not_mem_nil
  | cons j rest ih => rw [itemsDistinct, ih, List.forall_mem_cons]

theorem membersDistinct_iff {members : List (String × Json)} :
    membersDistinct members ↔ ∀ m ∈ members, m.2.Distinct := by
  induction members with
  | nil => exact iff_of_true trivial fun _ h => absurd h List.not_mem_nil
  | cons m rest ih => rw [membersDistinct, ih, List.forall_mem_cons]

/-- A key that is put is there once, whether it was there or not. -/
theorem keys_put (key : String) (j : Json) (members : List (String × Json)) :
    (key ∈ members.map Prod.fst ∧ (put key j members).map Prod.fst = members.map Prod.fst) ∨
      (key ∉ members.map Prod.fst ∧ (put key j members).map Prod.fst = members.map Prod.fst ++ [key]) := by
  induction members with
  | nil => exact Or.inr ⟨List.not_mem_nil, rfl⟩
  | cons m rest ih =>
    obtain ⟨k, v⟩ := m
    rw [put, List.map_cons, List.mem_cons]
    by_cases hk : k = key
    · subst hk
      rw [if_pos (beq_self_eq_true k)]
      exact Or.inl ⟨Or.inl rfl, rfl⟩
    · rw [if_neg (mt beq_iff_eq.mp hk), List.map_cons]
      refine ih.imp ?_ ?_
      · rintro ⟨hmem, hkeys⟩
        exact ⟨Or.inr hmem, congrArg (k :: ·) hkeys⟩
      · rintro ⟨hnew, hkeys⟩
        exact ⟨not_or.mpr ⟨fun heq => hk heq.symm, hnew⟩, congrArg (k :: ·) hkeys⟩

/-- What is put under a key is new, and everything else was there before. -/
theorem mem_put {key : String} {j : Json} {members : List (String × Json)} {m : String × Json}
    (h : m ∈ put key j members) : m.2 = j ∨ m ∈ members := by
  induction members with
  | nil => exact Or.inl (congrArg Prod.snd (List.mem_singleton.mp h))
  | cons e rest ih =>
    obtain ⟨k, v⟩ := e
    rw [put] at h
    split at h
    · obtain rfl | hrest := List.mem_cons.mp h
      · exact Or.inl rfl
      · exact Or.inr (List.mem_cons_of_mem _ hrest)
    · obtain rfl | hrest := List.mem_cons.mp h
      · exact Or.inr List.mem_cons_self
      · exact (ih hrest).imp id (List.mem_cons_of_mem _)

/-- Members that are put one after the other have distinct keys, and the values that were put. -/
theorem distinct_ofMembers {members : List (String × Json)} (h : ∀ m ∈ members, m.2.Distinct) :
    Distinct (.object (ofMembers members)) := by
  have hfold (done more : List (String × Json)) (hkeys : (done.map Prod.fst).Nodup)
      (hdone : ∀ m ∈ done, m.2.Distinct) (hmore : ∀ m ∈ more, m.2.Distinct) :
      Distinct (.object (more.foldl (fun acc member => put member.1 member.2 acc) done)) := by
    -- What has been put is what is kept distinct while the rest is put.
    induction more generalizing done with
    | nil => exact ⟨hkeys, membersDistinct_iff.mpr hdone⟩
    | cons m rest ih =>
      obtain ⟨hm, hrest⟩ := List.forall_mem_cons.mp hmore
      refine ih (put m.1 m.2 done) ?_ (fun e he => ?_) hrest
      · obtain ⟨-, heq⟩ | ⟨hnew, heq⟩ := keys_put m.1 m.2 done
        · exact heq ▸ hkeys
        · rw [heq, List.nodup_append]
          exact ⟨hkeys, List.pairwise_singleton _ _, fun a ha b hb hab =>
            hnew (List.mem_singleton.mp hb ▸ hab ▸ ha)⟩
      · obtain heq | he := mem_put he
        · exact heq ▸ hm
        · exact hdone e he
  exact hfold [] members List.nodup_nil (fun _ hm => absurd hm List.not_mem_nil) h

def Reads (r : Reading Json) : Prop := ∀ j c, r = .ok (j, c) → j.Distinct

namespace Reads

theorem error (e : Failure) : Reads (.error e) := nofun

theorem failHere (c : Cursor) (fault : Fault) : Reads (c.failHere fault) := error _

theorem failNext (c : Cursor) (fault : Fault) : Reads (c.failNext fault) := error _

theorem ok {j : Json} (hj : j.Distinct) (c : Cursor) : Reads (.ok (j, c)) := by
  rintro _ _ ⟨⟩
  exact hj

theorem map {α : Type} {r : Except Failure α} {f : α → Json × Cursor} (hf : ∀ a, (f a).1.Distinct) :
    Reads (r.map f) := by
  cases r with
  | error e => exact error e
  | ok a => exact ok (hf a) _

theorem finish (negative : Bool) (c : Cursor) (x? : Option Float) : Reads (finish negative c x?) := by
  cases x? with
  | none => exact failHere _ _
  | some x => exact ok (by exact trivial) c

theorem readExponent (negative : Bool) (significand : Nat) (exponent : Int) (c : Cursor) :
    Reads (readExponent negative significand exponent c) := by
  unfold Json.readExponent
  split
  split
  · exact failHere _ _
  split
  · dsimp only
    split
    · split
      · exact failHere _ _
      · exact finish _ _ _
    · exact finish _ _ _
  · exact failHere _ _

theorem readFraction (negative : Bool) (significand : Nat) (exponent : Int) (c : Cursor) :
    Reads (readFraction negative significand exponent c) := by
  unfold Json.readFraction readAfterDigits
  dsimp only
  split
  · split <;> exact failNext _ _
  · split
    · exact readExponent _ _ _ _
    · exact readExponent _ _ _ _
    · exact finish _ _ _

/-- The number that has been read is within the text. -/
theorem readNumber (negative : Bool) (c : Cursor) : Reads (readNumber negative c) := by
  unfold Json.readNumber
  dsimp only
  split
  · exact failHere _ _
  split
  · exact failHere _ _
  split
  · exact failNext _ _
  split
  · exact readFraction _ _ _ _
  · exact readExponent _ _ _ _
  · exact readExponent _ _ _ _
  split
  · exact finish _ _ _
  split
  · exact ok (by exact trivial) _
  split
  · exact ok (by exact trivial) _
  · exact ok (by exact trivial) _

end Reads

/-- Values, elements and members, by induction on how much may still be read. -/
theorem reads_within (fuel : Nat) :
    (∀ room c, Reads (readValue room fuel c)) ∧
      (∀ room first done c, (∀ j ∈ done, Distinct j) → Reads (readItems room first done fuel c)) ∧
      ∀ room first done c, (∀ m ∈ done, m.2.Distinct) → Reads (readMembers room first done fuel c) := by
  induction fuel with
  | zero =>
    exact ⟨fun _ _ => Reads.failHere _ _, fun _ _ _ _ _ => Reads.failHere _ _,
      fun _ _ _ _ _ => Reads.failHere _ _⟩
  | succ fuel ih =>
    obtain ⟨hvalue, hitems, hmembers⟩ := ih
    -- The three readers call each other with one round less, so they are taken together.
    refine ⟨fun room c => ?_, fun room first done c hdone => ?_, fun room first done c hdone => ?_⟩
    · rw [readValue]
      dsimp only
      split
      · exact Reads.failNext _ _
      · exact Reads.map fun _ => trivial
      · exact Reads.map fun _ => trivial
      · exact Reads.map fun _ => trivial
      · exact Reads.readNumber _ _
      · exact Reads.map fun _ => trivial
      · split
        · exact Reads.failNext _ _
        · exact hitems _ _ _ _ fun _ hj => absurd hj List.not_mem_nil
      · split
        · exact Reads.failNext _ _
        · exact hmembers _ _ _ _ fun _ hj => absurd hj List.not_mem_nil
      · split
        · exact Reads.readNumber _ _
        · exact Reads.failNext _ _
    · rw [readItems]
      dsimp only
      split
      · exact Reads.failNext _ _
      · refine Reads.ok (j := .array done.reverse) ?_ _
        exact itemsDistinct_iff.mpr fun j hj => hdone j (List.mem_reverse.mp hj)
      · split
        · exact Reads.error _
        · split
          · exact Reads.error _
          next item c' hitem =>
            exact hitems _ _ _ _ (List.forall_mem_cons.mpr ⟨hvalue _ _ item c' hitem, hdone⟩)
    · rw [readMembers]
      dsimp only
      split
      · exact Reads.failNext _ _
      · -- A key that is read twice replaces the value before it, so the keys of an object are distinct.
        exact Reads.ok (distinct_ofMembers fun m hm => hdone m (List.mem_reverse.mp hm)) _
      · split
        · exact Reads.error _
        · split
          · exact Reads.error _
          · split
            · exact Reads.failNext _ _
            · split
              · exact Reads.error _
              next value c' hread =>
                exact hmembers _ _ _ _ (List.forall_mem_cons.mpr ⟨hvalue _ _ value c' hread, hdone⟩)
            · exact Reads.failNext _ _

/-- No object that is read from a text has two members with the same key. -/
theorem distinct_of_read {text : List Char} {j : Json} (h : read text = .ok j) : j.Distinct := by
  unfold read at h
  split at h
  · cases h
  next value c hvalue =>
    dsimp only at h
    split at h
    · cases h
      exact (reads_within _).1 _ _ j c hvalue
    · cases h

end Snippet.Json
