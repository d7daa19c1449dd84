import Snippet.Script.Heap

/-!
The keys of the members of an object, its entries and its hidden members together. An object that is made without
two members of one key gets none by having members set and entries removed.
-/

namespace Snippet.Script

theorem lookup_cons_eq_ite {α : Type} (key : String) (a : α) (es : List (String × α)) (other : String) :
    ((key, a) :: es).lookup other = if other = key then some a else es.lookup other := by
  rw [List.lookup_cons]
  by_cases h : other = key
  · rw [if_pos h, beq_iff_eq.mpr h]
  · rw [if_neg h, beq_eq_false_iff_ne.mpr h]

theorem lookup_eq_none_of_notMem {α : Type} {key : String} {es : List (String × α)} (h : key ∉ es.map Prod.fst) :
    es.lookup key = none := by
  refine List.lookup_eq_none_iff.mpr fun e he => bne_iff_ne.mpr ?_
  rintro rfl
  exact h (List.mem_map_of_mem he)

/-- Of several entries of a key the first one is found. -/
theorem lookup_append_cons {α : Type} {key : String} {before : List (String × α)} (h : key ∉ before.map Prod.fst)
    (a : α) (after : List (String × α)) : (before ++ (key, a) :: after).lookup key = some a := by
  rw [List.lookup_append, lookup_eq_none_of_notMem h, List.lookup_cons_self]
  rfl

/-- Where no key comes twice every entry is found. -/
theorem lookup_of_mem {α : Type} {e : String × α} {es : List (String × α)} (hkeys : (es.map Prod.fst).Nodup)
    (h : e ∈ es) : es.lookup e.1 = some e.2 := by
  obtain ⟨before, after, rfl⟩ := List.append_of_mem h
  rw [List.map_append, List.nodup_append] at hkeys
  exact lookup_append_cons (fun hmem => hkeys.2.2 e.1 hmem e.1 List.mem_cons_self rfl) e.2 after

/-- The keys stay as they are where one of them gets another value. -/
theorem keys_putEntry {key : String} {es : List (String × Value)} (h : key ∈ es.map Prod.fst) (v : Value) :
    (putEntry key v es).map Prod.fst = es.map Prod.fst := by
  induction es with
  | nil => cases h
  | cons e rest ih =>
    obtain ⟨k, w⟩ := e
    unfold putEntry
    split
    · rfl
    next hne =>
      obtain rfl | hrest := List.mem_cons.mp h
      · exact absurd (beq_self_eq_true key) hne
      · rw [List.map_cons, ih hrest]
        rfl

/-- Only the value of the key that is put changes. -/
theorem lookup_putEntry {key : String} {es : List (String × Value)} (h : key ∈ es.map Prod.fst) (v : Value)
    (other : String) : (putEntry key v es).lookup other = if other = key then some v else es.lookup other := by
  induction es with
  | nil => cases h
  | cons e rest ih =>
    obtain ⟨k, w⟩ := e
    unfold putEntry
    by_cases hk : k = key
    · subst hk
      rw [if_pos (beq_self_eq_true k), lookup_cons_eq_ite, lookup_cons_eq_ite]
      split <;> rfl
    · have hrest : key ∈ rest.map Prod.fst := (List.mem_cons.mp h).resolve_left fun heq => hk heq.symm
      rw [if_neg (mt beq_iff_eq.mp hk), lookup_cons_eq_ite, lookup_cons_eq_ite, ih hrest]
      by_cases ho : other = k
      · rw [if_pos ho, if_pos ho, if_neg (ho ▸ hk)]
      · rw [if_neg ho, if_neg ho]

namespace Object

variable {o : Object} {key : String}

def memberKeys (o : Object) : List String := (o.entries ++ o.hidden).map Prod.fst

structure Tidy (o : Object) : Prop where
  nodup : (o.entries.map Prod.fst).Nodup
  apart : ∀ key ∈ o.entries.map Prod.fst, key ∉ o.hidden.map Prod.fst

/-- All keys are distinct exactly if the visible ones are, the hidden ones are, and no key is both. -/
theorem nodup_memberKeys_iff : o.memberKeys.Nodup ↔ o.Tidy ∧ (o.hidden.map Prod.fst).Nodup := by
  unfold memberKeys
  rw [List.map_append, List.nodup_append]
  constructor
  · rintro ⟨hentries, hhidden, hapart⟩
    exact ⟨⟨hentries, fun key hkey hmem => hapart key hkey key hmem rfl⟩, hhidden⟩
  · rintro ⟨⟨hentries, hapart⟩, hhidden⟩
    exact ⟨hentries, hhidden, fun a ha b hb heq => hapart a ha (heq ▸ hb)⟩

theorem any_key_iff (es : List (String × Value)) :
    (es.any fun e => e.1 == key) = true ↔ key ∈ es.map Prod.fst := by
  rw [List.any_eq_true, List.mem_map]
  exact exists_congr fun e => and_congr_right fun _ => beq_iff_eq

/-- A member of a new key comes last among the entries. -/
theorem set_of_notMem (h : key ∉ o.memberKeys) (v : Value) :
    o.set key v = { o with entries := o.entries ++ [(key, v)] } := by
  unfold memberKeys at h
  rw [List.map_append, List.mem_append, not_or, ← any_key_iff, ← any_key_iff] at h
  unfold set hasOwn
  rw [if_neg h.1, if_neg h.2]

/-- Setting a member changes no key that is there; a key that is new comes last among the entries. -/
theorem keys_set (o : Object) (key : String) (v : Value) :
    (o.set key v).hidden.map Prod.fst = o.hidden.map Prod.fst ∧
      ((o.set key v).entries.map Prod.fst = o.entries.map Prod.fst ∨
        key ∉ o.memberKeys ∧ (o.set key v).entries.map Prod.fst = o.entries.map Prod.fst ++ [key]) := by
  unfold set hasOwn
  split
  next h => exact ⟨rfl, Or.inl (keys_putEntry ((any_key_iff o.entries).mp h) v)⟩
  next hentries =>
    -- A key that is not listed may be hidden; then it stays hidden.
    split
    next h => exact ⟨keys_putEntry ((any_key_iff o.hidden).mp h) v, Or.inl rfl⟩
    next hhidden =>
      refine ⟨rfl, Or.inr ⟨?_, List.map_append⟩⟩
      unfold memberKeys
      rw [List.map_append, List.mem_append, ← any_key_iff, ← any_key_iff]
      exact not_or.mpr ⟨hentries, hhidden⟩

/-- Setting a member keeps the keys distinct. -/
theorem Tidy.set (h : o.Tidy) (key : String) (v : Value) : (o.set key v).Tidy := by
  obtain ⟨hhidden, hentries | ⟨hnew, hentries⟩⟩ := o.keys_set key v
  · exact ⟨hentries ▸ h.nodup, hhidden ▸ hentries ▸ h.apart⟩
  · unfold memberKeys at hnew
    rw [List.map_append, List.mem_append, not_or] at hnew
    refine ⟨?_, fun k hk => ?_⟩
    · rw [hentries, List.nodup_append]
      exact ⟨h.nodup, List.pairwise_singleton _ key, fun a ha b hb heq =>
        hnew.1 (List.mem_singleton.mp hb ▸ heq ▸ ha)⟩
    · rw [hhidden]
      rw [hentries, List.mem_append, List.mem_singleton] at hk
      obtain hk | rfl := hk
      · exact h.apart k hk
      · exact hnew.2

theorem Tidy.remove (h : o.Tidy) (key : String) : (o.remove key).Tidy := by
  have hsub : ((o.remove key).entries.map Prod.fst).Sublist (o.entries.map Prod.fst) :=
    List.filter_sublist.map Prod.fst
  exact ⟨h.nodup.sublist hsub, fun k hk => h.apart k (hsub.subset hk)⟩

/-- A member is looked up among the entries first. -/
theorem get?_eq_lookup (o : Object) (key : String) : o.get? key = (o.entries ++ o.hidden).lookup key := by
  unfold get?
  rw [List.lookup_append]
  cases o.entries.lookup key <;> rfl

/-- The member that is set is the one that is found, and no other one has changed. -/
theorem get?_set (o : Object) (key : String) (v : Value) (other : String) :
    (o.set key v).get? other = if other = key then some v else o.get? other := by
  rw [get?_eq_lookup, get?_eq_lookup, List.lookup_append, List.lookup_append]
  unfold set hasOwn
  split
  next h =>
    rw [lookup_putEntry ((any_key_iff o.entries).mp h)]
    split <;> rfl
  next hentries =>
    have hnone : o.entries.lookup key = none := lookup_eq_none_of_notMem (mt (any_key_iff o.entries).mpr hentries)
    split
    next h =>
      rw [lookup_putEntry ((any_key_iff o.hidden).mp h)]
      split
      next heq =>
        rw [heq, hnone]
        rfl
      next => rfl
    next =>
      rw [List.lookup_append, lookup_cons_eq_ite]
      split
      next heq =>
        rw [heq, hnone]
        rfl
      next => rw [List.lookup_nil, Option.or_none]

/-- Setting a member keeps the keys of all members distinct. -/
theorem nodup_set (h : o.memberKeys.Nodup) (key : String) (v : Value) : (o.set key v).memberKeys.Nodup := by
  obtain ⟨htidy, hhidden⟩ := nodup_memberKeys_iff.mp h
  exact nodup_memberKeys_iff.mpr ⟨htidy.set key v, (o.keys_set key v).1 ▸ hhidden⟩

end Object

end Snippet.Script
