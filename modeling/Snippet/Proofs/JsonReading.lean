import Snippet.Json.Reader
import Snippet.Json.Writer

/-!
The parts of a JSON text read back: blanks are passed, whole numbers are found again in their digits, and
strings in the way their characters are written, whatever characters these are.
-/

namespace Snippet.Json

def AllBlank (s : List Char) : Prop := ∀ c ∈ s, isJsonBlank c = true

/-- Where a text begins with something else than a blank, the blanks in front of it are passed. -/
theorem skipBlanks_append {blanks : List Char} (hb : AllBlank blanks) {c : Char}
    (hc : isJsonBlank c = false) (tail : List Char) (offset : Nat) :
    (⟨blanks ++ c :: tail, offset⟩ : Cursor).skipBlanks = ⟨c :: tail, offset + blanks.length⟩ := by
  have hstop : ¬ isJsonBlank c = true := by rw [hc]; exact Bool.false_ne_true
  unfold Cursor.skipBlanks
  rw [List.dropWhile_append_of_pos hb, List.takeWhile_append_of_pos hb, List.dropWhile_cons_of_neg hstop,
    List.takeWhile_cons_of_neg hstop, List.append_nil]

def Ends (rest : List Char) : Prop := ∀ c ∈ rest.head?, c ∈ [',', ']', '}', '\n']

theorem ends_cons {c : Char} (hc : c ∈ [',', ']', '}', '\n']) (tail : List Char) : Ends (c :: tail) := by
  intro x hx
  obtain rfl := Option.some.inj hx
  exact hc

theorem Ends.not_digit {rest : List Char} (h : Ends rest) : ∀ c ∈ rest.head?, c.isDigit = false := by
  intro c hc
  have hmem := h c hc
  simp only [List.mem_cons, List.not_mem_nil, or_false] at hmem
  obtain rfl | rfl | rfl | rfl := hmem <;> rfl

section Numbers

/-- The first digit of a number is not zero, unless the number is. -/
theorem head_digits_ne_zero {n : Nat} (hn : 0 < n) : ∀ c ∈ (Number.digits n).head?, c ≠ '0' := by
  induction n using Nat.strongRecOn with
  | ind n ih =>
    unfold Number.digits at ih ⊢
    obtain hlt | hge := Nat.lt_or_ge n 10
    · rw [Nat.toDigits_of_lt_base hlt]
      intro c hc
      obtain rfl := Option.some.inj hc
      exact fun h => absurd (Nat.digitChar_eq_zero.mp h) (Nat.ne_of_gt hn)
    · have hfirst := ih (n / 10) (by omega) (by omega)
      -- The first digit is that of the number without its last one.
      rw [Nat.toDigits_of_base_le (by decide) hge]
      cases hmore : Nat.toDigits 10 (n / 10) with
      | nil => exact absurd hmore Nat.toDigits_ne_nil
      | cons d ds =>
        rw [hmore] at hfirst
        exact hfirst

theorem isDigit_of_mem_digits {n : Nat} {c : Char} (h : c ∈ Number.digits n) : c.isDigit = true :=
  Nat.isDigit_of_mem_toDigits (by decide) (by decide) h

/-- A number has a first digit. -/
theorem digits_eq_cons (n : Nat) : ∃ d ds, Number.digits n = d :: ds ∧ d.isDigit = true := by
  cases hdigits : Number.digits n with
  | nil => exact absurd hdigits Nat.toDigits_ne_nil
  | cons d ds =>
    have hmem : d ∈ Number.digits n := by
      rw [hdigits]
      exact List.mem_cons_self
    exact ⟨d, ds, rfl, isDigit_of_mem_digits hmem⟩

/-- As many digits as fit into a word are taken at once. -/
theorem takeWord_digits {ds : List Char} {acc : Nat} (h : Nat.ofDigitChars 10 ds acc < Number.twoTo 64)
    (count : Nat) :
    takeWord acc count ds = (Nat.ofDigitChars 10 ds acc, count + ds.length, []) := by
  induction ds generalizing acc count with
  | nil => rfl
  | cons d ds ih =>
    rw [Nat.ofDigitChars_cons, Nat.mul_comm] at h
    -- The number of the first digits is not greater than that of all.
    have hle : acc * 10 + (d.toNat - '0'.toNat) < Number.twoTo 64 := by
      rw [Nat.ofDigitChars_eq_ofDigitChars_zero] at h
      have hmul := Nat.le_mul_of_pos_left (acc * 10 + (d.toNat - '0'.toNat))
        (Nat.pow_pos (by decide : 0 < 10) : 0 < Nat.pow 10 ds.length)
      exact Nat.lt_of_le_of_lt (Nat.le_trans hmul (Nat.le_add_right _ _)) h
    unfold takeWord
    rw [if_neg (Nat.not_le.mpr hle), ih h, Nat.ofDigitChars_cons, Nat.mul_comm 10, List.length_cons]
    congr 2
    omega

/-- The digits of a number end where something else begins. -/
theorem takeWhile_digits (n : Nat) {rest : List Char} (h : Ends rest) :
    (Number.digits n ++ rest).takeWhile Char.isDigit = Number.digits n := by
  have hall : ∀ c ∈ Number.digits n, c.isDigit = true := fun _ hc => isDigit_of_mem_digits hc
  have hnone : rest.takeWhile Char.isDigit = [] := by
    cases rest with
    | nil => rfl
    | cons c tail =>
      have hc := h.not_digit c rfl
      exact List.takeWhile_cons_of_neg (by rw [hc]; exact Bool.false_ne_true)
  rw [List.takeWhile_append_of_pos hall, hnone, List.append_nil]

/-- A natural number is read from its digits, with or without a sign in front. -/
theorem readNumber_digits (negative : Bool) {n : Nat} (hn : n < Number.twoTo 63) (hsign : negative = true → 0 < n)
    {rest : List Char} (hrest : Ends rest) (offset : Nat) :
    ∃ offset', readNumber negative ⟨Number.digits n ++ rest, offset⟩ =
      .ok (.integer (if negative then -(n : Int) else n), ⟨rest, offset'⟩) := by
  have htake := takeWhile_digits n hrest
  have hvalue : Nat.ofDigitChars 10 (Number.digits n) 0 = n := Nat.ofDigitChars_ten_toDigits
  have hfits : Nat.ofDigitChars 10 (Number.digits n) 0 < Number.twoTo 64 := by
    rw [hvalue]
    exact Nat.lt_trans hn (by decide)
  have hword := takeWord_digits hfits 0
  rw [hvalue] at hword
  have hdrop : (⟨Number.digits n ++ rest, offset⟩ : Cursor).skip (Number.digits n).length =
      ⟨rest, offset + (Number.digits n).length⟩ := by
    unfold Cursor.skip
    rw [List.drop_left]
  refine ⟨offset + (Number.digits n).length, ?_⟩
  obtain ⟨d, ds, hdigits, hd⟩ := digits_eq_cons n
  have hzero : (d == '0' && (d :: ds).length != 1) = false := by
    obtain rfl | hpos := Nat.eq_zero_or_pos n
    · obtain ⟨rfl, rfl⟩ := List.cons.inj (hdigits.symm.trans rfl : d :: ds = ['0'])
      rfl
    · have hne := head_digits_ne_zero hpos d (by rw [hdigits]; rfl)
      rw [beq_eq_false_iff_ne.mpr hne]
      rfl
  rw [hdigits, List.cons_append] at htake hdrop ⊢
  rw [hdigits] at hword
  unfold readNumber
  simp only [htake, hd, hzero, hword, hdrop, Bool.not_true, Bool.false_eq_true, if_false]
  -- Neither a fraction nor an exponent follows.
  split
  · exact absurd (hrest '.' rfl) (by decide)
  · exact absurd (hrest 'e' rfl) (by decide)
  · exact absurd (hrest 'E' rfl) (by decide)
  · cases negative with
    | false => rfl
    | true =>
      have hpos : (n == 0) = false := beq_eq_false_iff_ne.mpr (Nat.ne_of_gt (hsign rfl))
      have hfits : ¬ Number.twoTo 63 < n := Nat.not_lt_of_gt hn
      rw [hpos, decide_eq_false hfits]
      rfl

end Numbers

section Strings

/-- The escape of a control character is read as the character. -/
theorem readHex4_control {n : Nat} (hn : n < 32) (rest : List Char) (offset : Nat) :
    readHex4 ⟨'0' :: '0' :: hexDigit (n / 16) :: hexDigit (n % 16) :: rest, offset⟩ =
      .ok (n, ⟨rest, offset + 4⟩) := by
  have hall : ∀ n < 32,
      Number.digitsValue? 16 0 ['0', '0', hexDigit (n / 16), hexDigit (n % 16)] = some n ∧
        ['0', '0', hexDigit (n / 16), hexDigit (n % 16)].foldl (fun k x => k + x.utf8Size) 0 = 4 := by
    decide
  obtain ⟨hvalue, hbytes⟩ := hall n hn
  unfold readHex4
  simp only [List.take_succ_cons, List.take_zero, hvalue, hbytes]
  rfl

/-- A control character is read from its code. -/
theorem readEscape_control {c : Char} (hc : c.toNat < 32) (rest : List Char) (offset : Nat) :
    readEscape ⟨'u' :: '0' :: '0' :: hexDigit (c.toNat / 16) :: hexDigit (c.toNat % 16) :: rest, offset⟩ =
      .ok (c, ⟨rest, offset + 5⟩) := by
  have hlow : ¬ (0xDC00 ≤ c.toNat ∧ c.toNat ≤ 0xDFFF) := by omega
  have hhigh : ¬ (0xD800 ≤ c.toNat ∧ c.toNat ≤ 0xDBFF) := by omega
  unfold readEscape
  dsimp only
  rw [readHex4_control hc]
  dsimp only
  rw [if_neg hlow, if_neg hhigh, Char.ofNat_toNat]
  rfl

theorem eq_ofNat_of_toNat {c : Char} {n : Nat} (h : (c.toNat == n) = true) : c = Char.ofNat n := by
  rw [← beq_iff_eq.mp h, Char.ofNat_toNat]

/-- An escape stands for one character of the string. -/
theorem readStringFrom_escape {tail : List Char} {offset : Nat} {x : Char} {after : Cursor}
    (h : readEscape ⟨tail, offset + 1⟩ = .ok (x, after)) (done : List Char) (fuel : Nat) :
    readStringFrom done (fuel + 1) ⟨'\\' :: tail, offset⟩ = readStringFrom (x :: done) fuel after := by
  rw [readStringFrom]
  dsimp only
  split
  · next heq => cases heq
  · next heq => exact absurd (List.cons.inj heq).1 (by decide)
  · next heq =>
    obtain ⟨-, rfl⟩ := List.cons.inj heq
    rw [h]
  · next hne heq => exact absurd (List.cons.inj heq).1.symm hne

/-- A character is read back from the way it is written. -/
theorem readStringFrom_char (c : Char) (rest done : List Char) (fuel offset : Nat) :
    ∃ offset', readStringFrom done (fuel + 1) ⟨escapeChar c ++ rest, offset⟩ =
      readStringFrom (c :: done) fuel ⟨rest, offset'⟩ := by
  -- The short escapes are read by computation.
  unfold escapeChar
  split
  · next h => obtain rfl := beq_iff_eq.mp h; exact ⟨_, rfl⟩
  split
  · next h => obtain rfl := beq_iff_eq.mp h; exact ⟨_, rfl⟩
  split
  · next h => obtain rfl := beq_iff_eq.mp h; exact ⟨_, rfl⟩
  split
  · next h => obtain rfl := beq_iff_eq.mp h; exact ⟨_, rfl⟩
  split
  · next h => obtain rfl := beq_iff_eq.mp h; exact ⟨_, rfl⟩
  split
  · next h => obtain rfl := eq_ofNat_of_toNat h; exact ⟨_, rfl⟩
  split
  · next h => obtain rfl := eq_ofNat_of_toNat h; exact ⟨_, rfl⟩
  split
  · next h =>
    refine ⟨offset + 1 + 5, ?_⟩
    exact readStringFrom_escape (readEscape_control h rest (offset + 1)) done fuel
  · next hquote hbackslash _ _ _ _ _ hcontrol =>
    refine ⟨offset + c.utf8Size, ?_⟩
    change readStringFrom done (fuel + 1) ⟨c :: rest, offset⟩ = _
    rw [readStringFrom]
    split
    · next heq => cases heq
    · next heq => exact absurd (beq_iff_eq.mpr (List.cons.inj heq).1) hquote
    · next heq => exact absurd (beq_iff_eq.mpr (List.cons.inj heq).1) hbackslash
    · next heq =>
      obtain ⟨rfl, rfl⟩ := List.cons.inj heq
      rw [if_neg hcontrol]

/-- The characters of a string are read back one by one. -/
theorem readStringFrom_escaped (s rest done : List Char) (fuel : Nat) (hfuel : s.length < fuel)
    (offset : Nat) :
    ∃ offset', readStringFrom done fuel ⟨s.flatMap escapeChar ++ '"' :: rest, offset⟩ =
      .ok (String.ofList (done.reverse ++ s), ⟨rest, offset'⟩) := by
  induction s generalizing done fuel offset with
  | nil =>
    obtain ⟨fuel, rfl⟩ : ∃ n, fuel = n + 1 := ⟨fuel - 1, by rw [List.length_nil] at hfuel; omega⟩
    rw [List.append_nil]
    exact ⟨offset + 1, rfl⟩
  | cons c s ih =>
    rw [List.length_cons] at hfuel
    obtain ⟨fuel, rfl⟩ : ∃ n, fuel = n + 1 := ⟨fuel - 1, by omega⟩
    obtain ⟨offset₁, hfirst⟩ :=
      readStringFrom_char c (s.flatMap escapeChar ++ '"' :: rest) done fuel offset
    obtain ⟨offset₂, hmore⟩ := ih (c :: done) fuel (by omega) offset₁
    refine ⟨offset₂, ?_⟩
    rw [List.flatMap_cons, List.append_assoc, hfirst, hmore, List.reverse_cons, List.append_assoc]
    rfl

theorem length_le_escaped (s : List Char) : s.length ≤ (s.flatMap escapeChar).length := by
  induction s with
  | nil => exact Nat.le_refl _
  | cons c s ih =>
    have hone : 1 ≤ (escapeChar c).length := by
      unfold escapeChar
      repeat' split
      all_goals exact Nat.succ_le_succ (Nat.zero_le _)
    rw [List.flatMap_cons, List.length_append, List.length_cons]
    omega

/-- A string is read back from its text; the cursor has passed the opening quote. -/
theorem readString_quote (s : String) (rest : List Char) {fuel : Nat} (hfuel : (quote s).length ≤ fuel)
    (offset : Nat) :
    ∃ offset', readString fuel ((⟨quote s ++ rest, offset⟩ : Cursor).skip 1) =
      .ok (s, ⟨rest, offset'⟩) := by
  have hlength := length_le_escaped s.toList
  have hquote : (quote s).length = (s.toList.flatMap escapeChar).length + 1 + 1 := by
    rw [quote, List.length_cons, List.length_append, List.length_singleton]
  obtain ⟨offset', hread⟩ :=
    readStringFrom_escaped s.toList rest [] fuel (by omega) (offset + 1)
  refine ⟨offset', ?_⟩
  have hskip : (⟨quote s ++ rest, offset⟩ : Cursor).skip 1 =
      ⟨s.toList.flatMap escapeChar ++ '"' :: rest, offset + 1⟩ := by
    change (⟨s.toList.flatMap escapeChar ++ ['"'] ++ rest, offset + 1⟩ : Cursor) = _
    rw [List.append_assoc]
    rfl
  rw [hskip]
  refine hread.trans ?_
  rw [List.reverse_nil, List.nil_append, String.ofList_toList]

end Strings

end Snippet.Json
