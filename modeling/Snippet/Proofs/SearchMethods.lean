import Snippet.Proofs.DataTree
import Snippet.Proofs.TextCap
import Snippet.Proofs.TextRoutes
import Snippet.Proofs.TextSearch
import Snippet.Proofs.WholeNumber

/-!
The methods of strings that search. What splits a string at a text, replaces the text, finds it or asks whether
it is there takes the same places for its occurrences, and they are counted in characters.
-/

namespace Snippet.Script

/-- A text has no more characters than bytes. -/
theorem length_le_utf8ByteSize (s : String) : s.toList.length ≤ s.utf8ByteSize := by
  have hle (cs : List Char) : cs.length ≤ (String.ofList cs).utf8ByteSize := by
    induction cs with
    | nil => exact Nat.zero_le _
    | cons c rest ih =>
      have hpos : 0 < c.utf8Size := c.utf8Size_pos
      rw [List.length_cons, String.ofList_cons, String.utf8ByteSize_append, String.utf8ByteSize_singleton]
      omega
  have hs := hle s.toList
  rwa [String.ofList_toList] at hs

namespace Run

variable {call : Value → List Value → Run Value} {caller : Caller} {m : Machine} {s t r : String}

def partsOf (separator s : List Char) : List (List Char) :=
  if separator.isEmpty then s.map fun c => [c] else Text.splitOn separator s

/-- Joining the characters of a text with nothing between them gives the text. -/
theorem intercalate_singletons (s : List Char) : List.intercalate [] (s.map fun c => [c]) = s := by
  induction s with
  | nil => rfl
  | cons c rest ih =>
    cases rest with
    | nil => rfl
    | cons d more =>
      rw [List.map_cons] at ih
      rw [List.map_cons, List.map_cons, List.intercalate_cons_cons, ih]
      rfl

theorem intercalate_partsOf (separator s : List Char) : separator.intercalate (partsOf separator s) = s := by
  unfold partsOf
  split
  · rename_i hempty
    rw [List.isEmpty_iff.mp hempty]
    exact intercalate_singletons s
  · exact Text.intercalate_splitWithin s.length s

/-- Splitting a string at a separator makes an array of the parts between its occurrences. -/
theorem run_split (s t : String) (m : Machine) :
    stringMethod call s .split [.string t] m = makeArray ((partsOf t.toList s.toList).map .ofChars) m := by
  have hparts : (partsOf t.toList s.toList).map Value.ofChars =
      if t.toList.isEmpty then s.toList.map .ofChar else (Text.splitOn t.toList s.toList).map .ofChars := by
    unfold partsOf
    split
    · rw [List.map_map]
      rfl
    · rfl
  rw [hparts]
  rfl

/-- Strings are their own texts. -/
theorem run_stringTexts (parts : List (List Char)) (m : Machine) :
    ((parts.map Value.ofChars).mapM fun v : Value => if v.isNullish then pure "" else toStrictText v) m =
      .ok (parts.map String.ofList) m := by
  induction parts with
  | nil => rfl
  | cons part rest ih =>
    have hpart : (if (Value.ofChars part).isNullish then pure "" else toStrictText (Value.ofChars part)) m =
        .ok (String.ofList part) m := rfl
    rw [List.map_cons, List.map_cons, List.mapM_cons]
    exact (run_bind_ok hpart).trans (run_bind_ok ih)

theorem intercalate_map_ofList (u : String) (parts : List (List Char)) :
    u.intercalate (parts.map String.ofList) = String.ofList (u.toList.intercalate parts) := by
  have hparts : (parts.map String.ofList).map String.toList = parts := by
    rw [List.map_map]
    exact (List.map_congr_left fun part _ => String.toList_ofList).trans (List.map_id parts)
  rw [← String.toList_inj, String.toList_intercalate, String.toList_ofList, hparts]

/-- Joining strings puts a separator between them and makes a string of the result. -/
theorem run_join {a : ArrayRef} {parts : List (List Char)}
    (ha : (m.heap.items a).toList = parts.map Value.ofChars) (u : String) :
    arrayMethod caller a .join [.string u] m = makeString (String.ofList (u.toList.intercalate parts)) m := by
  change joined u (m.heap.items a).toList m = _
  rw [ha, ← intercalate_map_ofList]
  exact run_bind_ok (run_stringTexts parts m)

theorem run_replacementFor (hr : ¬ ['$', '&'] <:+: r.toList) (pattern : List Char) (place : Nat) :
    replacementFor call pattern (.string r) place m = .ok r.toList m := by
  have hplain : Text.replaceAll ['$', '&'] pattern r.toList = r.toList := Text.replaceAll_of_not_infix hr
  change EStateM.Result.ok (Text.replaceAll ['$', '&'] pattern r.toList) m = _
  rw [hplain]

/-- Replacing all occurrences puts the replacement between the parts that splitting gives; by induction on the
rounds, each of which takes the pattern away. -/
theorem run_replaceWithin {pattern : List Char} (hpattern : pattern ≠ []) (hr : ¬ ['$', '&'] <:+: r.toList)
    {fuel n passed : Nat} {done rest : List Char} (hfuel : rest.length < fuel) (hn : rest.length ≤ n) :
    replaceWithin call true pattern (.string r) fuel passed done rest m =
      .ok (done.reverse ++ r.toList.intercalate (Text.splitWithin pattern [] n rest)) m := by
  induction fuel generalizing n passed done rest with
  | zero => exact absurd hfuel (Nat.not_lt_zero _)
  | succ fuel ih =>
    unfold replaceWithin
    cases hbreak : Text.breakOn? pattern [] rest with
    | none =>
      rw [Text.splitWithin_none n hbreak, List.intercalate_singleton]
      rfl
    | some parts =>
      obtain ⟨before, after⟩ := parts
      -- The pattern is not empty, so less is left, and there is fuel for it in both functions.
      have hshorter : after.length < rest.length := Text.length_after_lt hpattern hbreak
      obtain ⟨n, rfl⟩ : ∃ k, n = k + 1 := ⟨n - 1, by omega⟩
      refine (run_bind_ok (run_replacementFor hr pattern (passed + before.length))).trans ?_
      have hall : ¬ (!true) = true := Bool.false_ne_true
      have hless : after.length < fuel := by omega
      have hle : after.length ≤ n := by omega
      rw [if_neg hall, if_neg fun h => hpattern (List.isEmpty_iff.mp h), ih hless hle,
        Text.splitWithin_some n hbreak, Text.intercalate_cons_of_ne_nil (Text.splitWithin_ne_nil n after)]
      simp only [List.reverse_append, List.reverse_reverse, List.append_assoc]

/-- Replacing all occurrences joins the parts between them with the replacement, if that refers to no match.
-/
theorem run_replaceAll (ht : t ≠ "") (hr : ¬ ['$', '&'] <:+: r.toList) :
    stringMethod call s .replaceAll [.string t, .string r] m =
      makeString (String.ofList (r.toList.intercalate (partsOf t.toList s.toList))) m := by
  have hpattern : t.toList ≠ [] := fun h => ht (String.toList_eq_nil_iff.mp h)
  have hparts : partsOf t.toList s.toList = Text.splitWithin t.toList [] s.toList.length s.toList :=
    if_neg fun h => hpattern (List.isEmpty_iff.mp h)
  let chars := s.toList
  have hrun : stringMethod call s .replaceAll [.string t, .string r] m =
      (replaceWithin call true t.toList (.string r) (chars.length + 1) 0 [] chars >>= fun text =>
        makeString (String.ofList text)) m := rfl
  have htext : replaceWithin call true t.toList (.string r) (chars.length + 1) 0 [] chars m =
      .ok (r.toList.intercalate (Text.splitWithin t.toList [] chars.length chars)) m :=
    run_replaceWithin hpattern hr (Nat.lt_succ_self _) (Nat.le_refl _)
  rw [hparts, hrun, run_bind_ok htext]

def placeNumber (i? : Option Nat) : Float := (i?.map Float.ofNat).getD (-1.0)

theorem value_placeNumber (i? : Option Nat) :
    (i?.map Value.ofNat).getD (.number (-1.0)) = .number (placeNumber i?) := by
  cases i? <;> rfl

theorem run_indexOf (s t : String) (m : Machine) :
    stringMethod call s .indexOf [.string t] m =
      .ok (.number (placeNumber (Text.firstIndex? t.toList 0 s.toList))) m := by
  rw [← value_placeNumber]
  rfl

theorem run_lastIndexOf (s t : String) (m : Machine) :
    stringMethod call s .lastIndexOf [.string t] m =
      .ok (.number (placeNumber (Text.lastIndex? t.toList 0 none s.toList))) m := by
  rw [← value_placeNumber]
  rfl

theorem exists_run_makeString (hs : s.utf8ByteSize ≤ maxStringSize) (m : Machine) :
    ∃ m', makeString s m = .ok (.string s) m' := by
  unfold makeString
  rw [if_neg (Nat.not_lt.mpr hs)]
  exact ⟨_, rfl⟩

/-- Two strings of the same text are made or refused alike. -/
theorem makeString_twice (text : String) (m m₁ : Machine) :
    (∃ m₂ m₃, makeString text m = .ok (.string text) m₂ ∧ makeString text m₁ = .ok (.string text) m₃) ∨
      makeString text m = .error (.raised .stringLength) m ∧
        makeString text m₁ = .error (.raised .stringLength) m₁ := by
  obtain hfits | hlong := Nat.lt_or_ge maxStringSize text.utf8ByteSize |>.symm
  · obtain ⟨m₂, hm⟩ := exists_run_makeString hfits m
    obtain ⟨m₃, hm₁⟩ := exists_run_makeString hfits m₁
    exact Or.inl ⟨m₂, m₃, hm, hm₁⟩
  · exact Or.inr ⟨GivesShort.run_makeString_full hlong m, GivesShort.run_makeString_full hlong m₁⟩

end Run

open Run in
/-- Searching, splitting and replacing agree, for all texts that are no longer than a string may be. A string
that is split at a text and joined with it is the string again. Where the text is not empty, replacing it by
another one, which does not mention it, is splitting at it and joining with the other one: both give the
same string or are refused as too long. The places that are found are the first and the last one at which
the text stands in the string, counted in characters, or `-1` both; asking whether it is there and whether the
string begins with it agrees with them. -/
theorem searching_agrees (call : Value → List Value → Run Value) (caller : Caller) (m : Machine) (s t : String)
    (hs : s.utf8ByteSize ≤ maxStringSize) :
    (∃ a m₁, stringMethod call s .split [.string t] m = .ok (.array a) m₁ ∧
      (∃ m₂, arrayMethod caller a .join [.string t] m₁ = .ok (.string s) m₂) ∧
      (t ≠ "" → ∀ r : String, ¬ ['$', '&'] <:+: r.toList →
        (∃ text m₂ m₃, stringMethod call s .replaceAll [.string t, .string r] m = .ok (.string text) m₂ ∧
          arrayMethod caller a .join [.string r] m₁ = .ok (.string text) m₃) ∨
        stringMethod call s .replaceAll [.string t, .string r] m = .error (.raised .stringLength) m ∧
          arrayMethod caller a .join [.string r] m₁ = .error (.raised .stringLength) m₁)) ∧
    (∃ x y b c, stringMethod call s .indexOf [.string t] m = .ok (.number x) m ∧
      stringMethod call s .lastIndexOf [.string t] m = .ok (.number y) m ∧
      stringMethod call s .includes [.string t] m = .ok (.bool b) m ∧
      stringMethod call s .startsWith [.string t] m = .ok (.bool c) m ∧
      (b = true ↔ 0.0 ≤ x) ∧ (b = true ↔ 0.0 ≤ y) ∧ (c = true ↔ x = 0.0) ∧
      ((∃ i j, IsLeast {k | Text.OccursAt t.toList s.toList k} i ∧ x = Float.ofNat i ∧
          IsGreatest {k | Text.OccursAt t.toList s.toList k} j ∧ y = Float.ofNat j) ∨
        (∀ k, ¬ Text.OccursAt t.toList s.toList k) ∧ x = -1.0 ∧ y = -1.0)) := by
  constructor
  · let items := ((partsOf t.toList s.toList).map Value.ofChars).toArray
    let m₁ : Machine :=
      { m with charged := m.charged + (32 + items.size * 16), heap := m.heap.pushArray items }
    have hitems : (m₁.heap.items ⟨m.heap.arrays.size⟩).toList = (partsOf t.toList s.toList).map .ofChars := by
      change ((m.heap.pushArray items).items ⟨m.heap.arrays.size⟩).toList = _
      rw [Heap.items_pushArray]
    refine ⟨⟨m.heap.arrays.size⟩, m₁, run_split s t m, ?_, fun ht r hr => ?_⟩
    · -- What is joined is the string itself, which is not too long.
      rw [run_join hitems, intercalate_partsOf, String.ofList_toList]
      exact exists_run_makeString hs m₁
    · rw [run_replaceAll ht hr, run_join hitems]
      obtain ⟨m₂, m₃, hm, hm₁⟩ | hrefused := makeString_twice _ m m₁
      · exact Or.inl ⟨_, m₂, m₃, hm, hm₁⟩
      · exact Or.inr hrefused
  · refine ⟨_, _, _, _, run_indexOf s t m, run_lastIndexOf s t m, rfl, rfl, ?_⟩
    -- Places are small enough for numbers that are not rounded.
    have hsize : s.toList.length < 2 ^ 53 :=
      Nat.lt_of_le_of_lt (Nat.le_trans (length_le_utf8ByteSize s) hs) (by decide)
    obtain ⟨i, j, hi, hfirst, hj, hlast⟩ | ⟨hnone, hfirst, hlast⟩ := Text.found_or_missing t.toList s.toList
    · have hismall : i < 2 ^ 53 := Nat.lt_of_le_of_lt hi.1.1 hsize
      have hjsmall : j < 2 ^ 53 := Nat.lt_of_le_of_lt hj.1.1 hsize
      rw [hfirst, hlast]
      refine ⟨?_, ?_, ?_, Or.inl ⟨i, j, hi, rfl, hj, rfl⟩⟩
      · exact iff_of_true rfl (Clock.zero_le_ofNat hismall)
      · exact iff_of_true rfl (Clock.zero_le_ofNat hjsmall)
      · exact (Text.isPrefixOf_iff_least hi).trans (Clock.ofNat_eq_zero hismall).symm
    · have hnotfirst : ¬ t.toList.isPrefixOf s.toList = true := by
        intro hprefix
        exact hnone 0 (Text.occursAt_zero.mpr (List.isPrefixOf_iff_prefix.mp hprefix))
      have hnegative : ¬ (0.0 : Float) ≤ -1.0 := by decide
      have hnonzero : (-1.0 : Float) ≠ 0.0 := by
        intro hzero
        rw [hzero] at hnegative
        exact hnegative (by decide)
      rw [hfirst, hlast]
      refine ⟨?_, ?_, ?_, Or.inr ⟨hnone, rfl, rfl⟩⟩
      · exact iff_of_false Bool.false_ne_true hnegative
      · exact iff_of_false Bool.false_ne_true hnegative
      · exact iff_of_false hnotfirst hnonzero

open Run in
/-- The string `"añaña"` and the text `"ña"`, which stands in it twice. -/
theorem accented_text_is_found :
    let call := (evaluator 1).call
    let m : Machine := { stdin := ⟨[]⟩, checkpoints := 0 }
    (∃ a m₁ m₂, stringMethod (fun f => call f .undefined) "añaña" .split [.string "ña"] m = .ok (.array a) m₁ ∧
      arrayMethod call a .join [.string "ña"] m₁ = .ok (.string "añaña") m₂) ∧
    ∃ x, stringMethod (fun f => call f .undefined) "añaña" .indexOf [.string "ña"] m = .ok (.number x) m ∧
      0.0 ≤ x := by
  intro call m
  obtain ⟨⟨a, m₁, hsplit, ⟨m₂, hjoin⟩, -⟩, x, y, b, c, hindex, -, hincludes, -, hx, -⟩ :=
    searching_agrees (fun f => call f .undefined) call m "añaña" "ña" (by decide)
  have hthere : stringMethod (fun f => call f .undefined) "añaña" .includes [.string "ña"] m =
      .ok (.bool true) m := rfl
  rw [hthere] at hincludes
  cases hincludes
  exact ⟨⟨a, m₁, m₂, hsplit, hjoin⟩, x, hindex, hx.mp rfl⟩

end Snippet.Script
