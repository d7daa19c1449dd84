import Mathlib.Data.List.Basic
import Mathlib.Order.Bounds.Defs
import Snippet.Text.Search

/-!
Where a text occurs in another one. The places that are found are the first one and the last one at which it
stands there, and the parts of a text between the occurrences of a separator make up the text again.
-/

namespace Snippet.Text

variable {needle separator replacement s rest before after : List Char} {c : Char} {i j : Nat}

def OccursAt (needle s : List Char) (i : Nat) : Prop := i ≤ s.length ∧ needle <+: s.drop i

theorem occursAt_zero : OccursAt needle s 0 ↔ needle <+: s :=
  and_iff_right (Nat.zero_le _)

theorem occursAt_succ : OccursAt needle (c :: s) (i + 1) ↔ OccursAt needle s i :=
  and_congr_left' Nat.succ_le_succ_iff

theorem occursAt_nil : OccursAt needle [] i ↔ i = 0 ∧ needle = [] := by
  constructor
  · rintro ⟨hi, hprefix⟩
    obtain rfl := Nat.le_zero.mp hi
    exact ⟨rfl, List.prefix_nil.mp hprefix⟩
  · rintro ⟨rfl, rfl⟩
    exact occursAt_zero.mpr (List.prefix_refl [])

/-- A text that is found is found at the first one of its places. -/
theorem firstIndex?_spec (needle s : List Char) (start : Nat) :
    (∃ i, IsLeast {j | OccursAt needle s j} i ∧ firstIndex? needle start s = some (start + i)) ∨
      (∀ j, ¬ OccursAt needle s j) ∧ firstIndex? needle start s = none := by
  -- The induction is on the text: the first place is here, or else it is the first one further on.
  induction s generalizing start with
  | nil =>
    unfold firstIndex?
    by_cases hempty : needle = []
    · left
      refine ⟨0, ⟨occursAt_nil.mpr ⟨rfl, hempty⟩, fun j _ => Nat.zero_le j⟩, ?_⟩
      rw [if_pos (List.isEmpty_iff.mpr hempty)]
      rfl
    · right
      refine ⟨fun j hj => hempty (occursAt_nil.mp hj).2, ?_⟩
      rw [if_neg (fun h => hempty (List.isEmpty_iff.mp h))]
  | cons c rest ih =>
    unfold firstIndex?
    by_cases hprefix : needle <+: c :: rest
    · left
      refine ⟨0, ⟨occursAt_zero.mpr hprefix, fun j _ => Nat.zero_le j⟩, ?_⟩
      rw [if_pos (List.isPrefixOf_iff_prefix.mpr hprefix)]
      rfl
    · -- The needle does not stand here, so its places are those of the rest, moved by one.
      have hnot : ¬ needle.isPrefixOf (c :: rest) = true :=
        fun h => hprefix (List.isPrefixOf_iff_prefix.mp h)
      rw [if_neg hnot]
      obtain ⟨i, ⟨hi, hleast⟩, hfound⟩ | ⟨hnone, hfound⟩ := ih (start + 1)
      · left
        refine ⟨i + 1, ⟨occursAt_succ.mpr hi, fun j hj => ?_⟩, ?_⟩
        · cases j with
          | zero => exact absurd (occursAt_zero.mp hj) hprefix
          | succ j => exact Nat.succ_le_succ (hleast (occursAt_succ.mp hj))
        · rw [hfound, Nat.add_assoc, Nat.add_comm 1 i]
      · right
        refine ⟨fun j hj => ?_, hfound⟩
        cases j with
        | zero => exact hprefix (occursAt_zero.mp hj)
        | succ j => exact hnone j (occursAt_succ.mp hj)

/-- What has been found last stays found if there is no further place. -/
theorem lastIndex?_spec (needle s : List Char) (start : Nat) (found : Option Nat) :
    (∃ i, IsGreatest {j | OccursAt needle s j} i ∧
        lastIndex? needle start found s = some (start + i)) ∨
      (∀ j, ¬ OccursAt needle s j) ∧ lastIndex? needle start found s = found := by
  induction s generalizing start found with
  | nil =>
    unfold lastIndex?
    by_cases hempty : needle = []
    · left
      refine ⟨0, ⟨occursAt_nil.mpr ⟨rfl, hempty⟩, fun j hj => Nat.le_of_eq (occursAt_nil.mp hj).1⟩, ?_⟩
      rw [if_pos (List.isEmpty_iff.mpr hempty)]
      rfl
    · right
      refine ⟨fun j hj => hempty (occursAt_nil.mp hj).2, ?_⟩
      rw [if_neg (fun h => hempty (List.isEmpty_iff.mp h))]
  | cons c rest ih =>
    unfold lastIndex?
    -- What has been found so far gives way to any place further on.
    obtain ⟨i, ⟨hi, hgreatest⟩, hfound⟩ | ⟨hnone, hfound⟩ :=
      ih (start + 1) (if needle.isPrefixOf (c :: rest) then some start else found)
    · left
      refine ⟨i + 1, ⟨occursAt_succ.mpr hi, fun j hj => ?_⟩, ?_⟩
      · cases j with
        | zero => exact Nat.zero_le _
        | succ j => exact Nat.succ_le_succ (hgreatest (occursAt_succ.mp hj))
      · rw [hfound, Nat.add_assoc, Nat.add_comm 1 i]
    · -- No place is left behind the first one, which is the last one then.
      have hlater (j : Nat) : ¬ OccursAt needle (c :: rest) (j + 1) :=
        fun hj => hnone j (occursAt_succ.mp hj)
      rw [hfound]
      by_cases hprefix : needle <+: c :: rest
      · left
        refine ⟨0, ⟨occursAt_zero.mpr hprefix, fun j hj => ?_⟩, ?_⟩
        · cases j with
          | zero => exact Nat.le_refl 0
          | succ j => exact absurd hj (hlater j)
        · rw [if_pos (List.isPrefixOf_iff_prefix.mpr hprefix)]
          rfl
      · right
        refine ⟨fun j hj => ?_, if_neg fun h => hprefix (List.isPrefixOf_iff_prefix.mp h)⟩
        cases j with
        | zero => exact hprefix (occursAt_zero.mp hj)
        | succ j => exact hlater j hj

/-- The searches from both ends find something or do not. -/
theorem found_or_missing (needle s : List Char) :
    (∃ i j, IsLeast {k | OccursAt needle s k} i ∧ firstIndex? needle 0 s = some i ∧
        IsGreatest {k | OccursAt needle s k} j ∧ lastIndex? needle 0 none s = some j) ∨
      (∀ k, ¬ OccursAt needle s k) ∧ firstIndex? needle 0 s = none ∧ lastIndex? needle 0 none s = none := by
  obtain ⟨i, hi, hfirst⟩ | ⟨hnone, hfirst⟩ := firstIndex?_spec needle s 0
  · obtain ⟨j, hj, hlast⟩ | ⟨hnone, -⟩ := lastIndex?_spec needle s 0 none
    · rw [Nat.zero_add] at hfirst hlast
      exact Or.inl ⟨i, j, hi, hfirst, hj, hlast⟩
    · exact absurd hi.1 (hnone i)
  · obtain ⟨j, hj, -⟩ | ⟨-, hlast⟩ := lastIndex?_spec needle s 0 none
    · exact absurd hj.1 (hnone j)
    · exact Or.inr ⟨hnone, hfirst, hlast⟩

theorem isPrefixOf_iff_least {i : Nat} (hi : IsLeast {k | OccursAt needle s k} i) :
    needle.isPrefixOf s = true ↔ i = 0 := by
  rw [List.isPrefixOf_iff_prefix, ← occursAt_zero]
  constructor
  · intro hzero
    exact Nat.le_zero.mp (hi.2 hzero)
  · rintro rfl
    exact hi.1

/-- What is in front of the first occurrence, the occurrence and the rest make up the text. -/
theorem append_of_breakOn? {passed : List Char} (h : breakOn? needle passed s = some (before, after)) :
    passed.reverse ++ s = before ++ needle ++ after := by
  induction s generalizing passed with
  | nil =>
    unfold breakOn? at h
    split at h
    · rename_i hempty
      cases h
      rw [List.isEmpty_iff.mp hempty, List.append_nil, List.append_nil]
    · cases h
  | cons c rest ih =>
    unfold breakOn? at h
    split at h
    · rename_i hprefix
      cases h
      obtain ⟨tail, htail⟩ := List.isPrefixOf_iff_prefix.mp hprefix
      rw [← htail, List.drop_left, List.append_assoc]
    · rw [← ih h, List.reverse_cons, List.append_assoc]
      rfl

theorem eq_of_breakOn? (h : breakOn? needle [] s = some (before, after)) : s = before ++ needle ++ after :=
  append_of_breakOn? h

theorem length_after_lt (hne : needle ≠ []) (h : breakOn? needle [] s = some (before, after)) :
    after.length < s.length := by
  have hpos : 0 < needle.length := List.length_pos_of_ne_nil hne
  rw [eq_of_breakOn? h, List.length_append, List.length_append]
  omega

theorem breakOn?_eq_none (h : ¬ needle <:+: s) : breakOn? needle [] s = none := by
  cases hbreak : breakOn? needle [] s with
  | none => rfl
  | some parts => exact absurd ⟨parts.1, parts.2, (eq_of_breakOn? hbreak).symm⟩ h

/-- Parts that are complete stay in front of those that are still to come. -/
theorem splitWithin_append (done : List (List Char)) (n : Nat) (s : List Char) :
    splitWithin separator done n s = done.reverse ++ splitWithin separator [] n s := by
  induction n generalizing done s with
  | zero => exact List.reverse_cons
  | succ n ih =>
    unfold splitWithin
    cases breakOn? separator [] s with
    | none => exact List.reverse_cons
    | some parts =>
      dsimp only
      rw [ih (parts.1 :: done), ih [parts.1], List.reverse_cons, List.append_assoc]
      rfl

/-- Splitting gives at least one part. -/
theorem splitWithin_ne_nil (n : Nat) (s : List Char) : splitWithin separator [] n s ≠ [] := by
  cases n with
  | zero => exact List.cons_ne_nil _ _
  | succ n =>
    unfold splitWithin
    cases breakOn? separator [] s with
    | none => exact List.cons_ne_nil _ _
    | some parts =>
      dsimp only
      rw [splitWithin_append]
      exact List.cons_ne_nil _ _

theorem splitWithin_some (n : Nat) (h : breakOn? separator [] s = some (before, after)) :
    splitWithin separator [] (n + 1) s = before :: splitWithin separator [] n after := by
  have hstep : splitWithin separator [] (n + 1) s = splitWithin separator [before] n after := by
    rw [splitWithin, h]
  rw [hstep, splitWithin_append]
  rfl

theorem splitWithin_none (n : Nat) (h : breakOn? separator [] s = none) :
    splitWithin separator [] n s = [s] := by
  cases n with
  | zero => rfl
  | succ n =>
    unfold splitWithin
    rw [h]
    rfl

theorem intercalate_cons_of_ne_nil {parts : List (List Char)} (hne : parts ≠ []) (part : List Char) :
    separator.intercalate (part :: parts) = part ++ separator ++ separator.intercalate parts := by
  obtain ⟨next, more, rfl⟩ := List.exists_cons_of_ne_nil hne
  rw [List.intercalate_cons_cons, List.append_assoc]

/-- The parts between the occurrences of a separator make up the text again with the separator between
them. -/
theorem intercalate_splitWithin (n : Nat) (s : List Char) :
    separator.intercalate (splitWithin separator [] n s) = s := by
  induction n generalizing s with
  | zero => exact List.intercalate_singleton
  | succ n ih =>
    cases hbreak : breakOn? separator [] s with
    | none =>
      rw [splitWithin_none (n + 1) hbreak]
      exact List.intercalate_singleton
    | some parts =>
      obtain ⟨before, after⟩ := parts
      rw [splitWithin_some n hbreak, intercalate_cons_of_ne_nil (splitWithin_ne_nil n after), ih after,
        ← eq_of_breakOn? hbreak]

/-- A text in which something does not occur is as it was after this has been replaced. -/
theorem replaceAll_of_not_infix (h : ¬ needle <:+: s) : replaceAll needle replacement s = s := by
  unfold replaceAll splitOn
  rw [splitWithin_none s.length (breakOn?_eq_none h)]
  exact List.intercalate_singleton

end Snippet.Text
