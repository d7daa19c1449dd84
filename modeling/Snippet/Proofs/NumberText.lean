import Snippet.Proofs.ArrayStore
import Snippet.Proofs.NearestNumber
import Snippet.Proofs.RadixDigits

/-!
The texts of numbers. Digits with a sign are read as the floating number that is nearest to the integer they denote,
and what the program writes for a number can be read as a number again.
-/

namespace Snippet.Text

/-- Where a test ends to hold a text is cut in two. -/
theorem span_eq {p : Char → Bool} {x y : List Char} (hx : ∀ c ∈ x, p c = true)
    (hy : ∀ c ∈ y.head?, p c = false) : (x ++ y).takeWhile p = x ∧ (x ++ y).dropWhile p = y := by
  rw [List.takeWhile_append_of_pos hx, List.dropWhile_append_of_pos hx]
  cases y with
  | nil => exact ⟨List.append_nil x, rfl⟩
  | cons c y =>
    have hc : ¬ p c = true := Bool.eq_false_iff.mp (hy c rfl)
    rw [List.takeWhile_cons_of_neg hc, List.dropWhile_cons_of_neg hc, List.append_nil]
    exact ⟨rfl, rfl⟩

theorem trim_of_noBlank {s : List Char} (h : ∀ c ∈ s, isBlank c = false) : trim s = s := by
  have htight : Tight s :=
    ⟨fun c hc => h c (List.mem_of_mem_head? hc), fun c hc => h c (List.mem_of_getLast? hc)⟩
  exact htight.trim_eq

end Snippet.Text

namespace Snippet.Number

open Script (Denotes denotes_iff IsNumeral readInt64?_eq_some_iff toNat_toLower)

/-- A letter stands for a digit from ten on, so in decimal numbers only digits do. -/
theorem isDigit_of_digitValue? {c : Char} {d : Nat} (h : digitValue? 10 c = some d) : c.isDigit = true := by
  obtain ⟨hvalue, hless⟩ := Option.filter_eq_some_iff.mp h
  have hle (x y : Char) : (x ≤ y) = (x.toNat ≤ y.toNat) := propext UInt32.le_iff_toNat_le
  have hd : d < 10 := of_decide_eq_true hless
  have hcode : 48 ≤ c.toNat ∧ c.toNat ≤ 57 := by
    simp only [hle, Char.reduceToNat] at hvalue
    grind
  simpa [Char.isDigit, UInt32.le_iff_toNat_le] using hcode

/-- What has a value in the decimal system consists of digits. -/
theorem isDigit_of_digitsValue? {ds : List Char} {acc n : Nat} (h : digitsValue? 10 acc ds = some n) :
    ∀ c ∈ ds, c.isDigit = true := by
  induction ds generalizing acc with
  | nil => exact List.forall_mem_nil _
  | cons c ds ih =>
    rw [digitsValue?] at h
    cases hc : digitValue? 10 c with
    | none =>
      rw [hc] at h
      cases h
    | some d =>
      rw [hc] at h
      exact List.forall_mem_cons.mpr ⟨isDigit_of_digitValue? hc, ih h⟩

theorem isDigit_of_denotes {ds : List Char} {n : Nat} (h : Denotes 10 ds n) : ∀ c ∈ ds, c.isDigit = true :=
  isDigit_of_digitsValue? ((denotes_iff (by decide)).mp h).2

theorem code_of_isDigit {c : Char} (hc : c.isDigit = true) : 48 ≤ c.toNat ∧ c.toNat ≤ 57 := by
  simpa [Char.isDigit, UInt32.le_iff_toNat_le] using hc

theorem isBlank_of_isDigit {c : Char} (hc : c.isDigit = true) : Text.isBlank c = false := by
  have hcode := code_of_isDigit hc
  rw [Bool.eq_false_iff]
  intro hblank
  simp only [Text.isBlank, Bool.or_eq_true, Bool.and_eq_true, decide_eq_true_eq, beq_iff_eq] at hblank
  omega

section First

variable {c : Char} {rest : List Char} (hc : c.isDigit = true ∨ c = '.')

include hc

theorem code_of_first : 46 ≤ c.toNat ∧ c.toNat ≤ 57 := by
  rcases hc with hc | rfl
  · have hcode := code_of_isDigit hc
    omega
  · decide

/-- Only a sign in front is taken. -/
theorem takeSign_of_first (negative : Bool) : takeSign (signed negative (c :: rest)) = (negative, c :: rest) := by
  have hcode := code_of_first hc
  have hne {k : Char} (hk : k.toNat < 46) : c ≠ k := by
    rintro rfl
    omega
  cases negative with
  | true => rfl
  | false =>
    change takeSign (c :: rest) = _
    unfold takeSign
    split
    · next h => exact absurd (List.cons.inj h).1 (hne (by decide))
    · next h => exact absurd (List.cons.inj h).1 (hne (by decide))
    · rfl

/-- What begins neither with a sign nor with a letter is read as a decimal number without a sign. -/
theorem readFloat?_of_takeSign {s : List Char} {negative : Bool} (hsign : takeSign s = (negative, c :: rest)) :
    readFloat? s = (readUnsigned? (c :: rest)).map fun x => if negative then -x else x := by
  have hcode := code_of_first hc
  have hlower : c.toLower.toNat = c.toNat := by
    rw [toNat_toLower, if_neg (by omega)]
  have hword {d : Char} {more : List Char} (hd : 57 < d.toNat) :
      ((c :: rest).map Char.toLower == d :: more) = false := by
    rw [beq_eq_false_iff_ne]
    intro h
    have hfirst := congrArg Char.toNat (List.cons.inj h).1
    omega
  have hinf : "inf".toList = 'i' :: "nf".toList := rfl
  have hinfinity : "infinity".toList = 'i' :: "nfinity".toList := rfl
  have hnan : "nan".toList = 'n' :: "an".toList := rfl
  unfold readFloat?
  rw [hsign]
  dsimp only
  rw [hinf, hinfinity, hnan, hword (by decide), hword (by decide), hword (by decide)]
  rfl

end First

/-- Digits without a point or an exponent are the number that they denote. -/
theorem readUnsigned?_of_denotes {ds : List Char} {n : Nat} (h : Denotes 10 ds n) :
    readUnsigned? ds = some (ofDecimal n 0) := by
  have hdigits := isDigit_of_denotes h
  obtain ⟨hne, hvalue⟩ := (denotes_iff (by decide)).mp h
  have hnonempty : ¬ (ds.isEmpty && ([] : List Char).isEmpty) = true := by
    simp [hne]
  unfold readUnsigned?
  rw [List.takeWhile_eq_self_iff.mpr hdigits, List.dropWhile_eq_nil_iff.mpr hdigits]
  dsimp only
  rw [if_neg hnonempty, List.append_nil, hvalue]
  rfl

inductive IsFraction : List Char → Prop where
  | none : IsFraction []
  | point {ds : List Char} (hds : ∀ c ∈ ds, c.isDigit = true) : IsFraction ('.' :: ds)

inductive IsExponent : List Char → Prop where
  | none : IsExponent []
  | letter {c : Char} {s : List Char} (hc : c = 'e' ∨ c = 'E') (hne : (takeSign s).2 ≠ [])
    (hds : ∀ c ∈ (takeSign s).2, c.isDigit = true) : IsExponent (c :: s)

/-- Every digit has a value, and nothing else has. -/
theorem digitsValue?_isSome_iff {ds : List Char} (acc : Nat) :
    (digitsValue? 10 acc ds).isSome = true ↔ ∀ c ∈ ds, c.isDigit = true := by
  constructor
  · intro h
    obtain ⟨n, hn⟩ := Option.isSome_iff_exists.mp h
    exact isDigit_of_digitsValue? hn
  · intro h
    rw [digitsValue?_of_isDigit h]
    rfl

def takeFraction (s : List Char) : List Char × List Char :=
  match s with
  | '.' :: rest => (rest.takeWhile Char.isDigit, rest.dropWhile Char.isDigit)
  | _ => ([], s)

def exponent? : List Char → Option Int
  | [] => some 0
  | c :: rest => if c == 'e' || c == 'E' then readExponent? rest else none

theorem readUnsigned?_eq (s : List Char) :
    readUnsigned? s =
      if (s.takeWhile Char.isDigit).isEmpty && (takeFraction (s.dropWhile Char.isDigit)).1.isEmpty then none
      else
        match exponent? (takeFraction (s.dropWhile Char.isDigit)).2,
          digitsValue? 10 0 (s.takeWhile Char.isDigit ++ (takeFraction (s.dropWhile Char.isDigit)).1) with
        | some e, some n => some (ofDecimal n (e - (takeFraction (s.dropWhile Char.isDigit)).1.length))
        | _, _ => none :=
  rfl

/-- An exponent is a mark, a sign and at least one digit. -/
theorem isExponent_iff {s : List Char} : IsExponent s ↔ (exponent? s).isSome = true := by
  -- Both sides look at the first character and at the digits behind it.
  have hletter {c : Char} : (c == 'e' || c == 'E') = true ↔ c = 'e' ∨ c = 'E' := by
    rw [Bool.or_eq_true, beq_iff_eq, beq_iff_eq]
  have hread {rest : List Char} : (readExponent? rest).isSome = true ↔
      (takeSign rest).2 ≠ [] ∧ ∀ c ∈ (takeSign rest).2, c.isDigit = true := by
    unfold readExponent?
    dsimp only
    rw [← digitsValue?_isSome_iff 0]
    cases (takeSign rest).2 with
    | nil => simp
    | cons c ds =>
      rw [if_neg (by simp)]
      cases digitsValue? 10 0 (c :: ds) <;> simp
  constructor
  · intro h
    cases h with
    | none => rfl
    | @letter c rest hc hne hds =>
      unfold exponent?
      dsimp only
      rw [if_pos (hletter.mpr hc)]
      exact hread.mpr ⟨hne, hds⟩
  · intro h
    cases s with
    | nil => exact .none
    | cons c rest =>
      unfold exponent? at h
      dsimp only at h
      split at h
      · next hc =>
        obtain ⟨hne, hds⟩ := hread.mp h
        exact .letter (hletter.mp hc) hne hds
      · cases h

structure IsUnsigned (whole fraction exponent : List Char) : Prop where
  -- The parts of a decimal number without a sign: digits, a fraction and an exponent, with at least
  -- one digit in front of the exponent.
  isDigit : ∀ c ∈ whole, c.isDigit = true
  isFraction : IsFraction fraction
  isExponent : IsExponent exponent
  digit : whole ≠ [] ∨ fraction.drop 1 ≠ []

/-- A number without a sign has digits before the point or behind it, and nothing else but an exponent. -/
theorem readUnsigned?_isSome (s : List Char) :
    (readUnsigned? s).isSome = true ↔
      IsExponent (takeFraction (s.dropWhile Char.isDigit)).2 ∧
        (s.takeWhile Char.isDigit ≠ [] ∨ (takeFraction (s.dropWhile Char.isDigit)).1 ≠ []) := by
  have hdigits : ∀ c ∈ s.takeWhile Char.isDigit ++ (takeFraction (s.dropWhile Char.isDigit)).1, c.isDigit = true := by
    intro c hc
    rcases List.mem_append.mp hc with hc | hc
    · exact List.mem_takeWhile_imp hc
    · unfold takeFraction at hc
      split at hc
      · exact List.mem_takeWhile_imp hc
      · cases hc
  obtain ⟨n, hn⟩ := Option.isSome_iff_exists.mp ((digitsValue?_isSome_iff 0).mpr hdigits)
  rw [readUnsigned?_eq, isExponent_iff, hn, ← not_and_or, ← List.isEmpty_iff, ← List.isEmpty_iff, ← Bool.and_eq_true]
  split
  · next hempty => simp [hempty]
  · next hnonempty => cases exponent? (takeFraction (s.dropWhile Char.isDigit)).2 <;> simp [hnonempty]

/-- What is read as a decimal number without a sign has these parts, and what has them is read as one. -/
theorem readUnsigned?_isSome_iff {s : List Char} :
    (readUnsigned? s).isSome = true ↔
      ∃ whole fraction exponent, s = whole ++ (fraction ++ exponent) ∧ IsUnsigned whole fraction exponent := by
  rw [readUnsigned?_isSome]
  constructor
  · rintro ⟨hexponent, hdigit⟩
    have hwhole : ∀ c ∈ s.takeWhile Char.isDigit, c.isDigit = true := fun c hc => List.mem_takeWhile_imp hc
    have hs := List.takeWhile_append_dropWhile (p := Char.isDigit) (l := s)
    generalize s.takeWhile Char.isDigit = whole at *
    generalize s.dropWhile Char.isDigit = after at *
    subst hs
    unfold takeFraction at hexponent hdigit
    split at hexponent
    · next rest =>
      refine ⟨whole, '.' :: rest.takeWhile Char.isDigit, rest.dropWhile Char.isDigit, ?_, ?_⟩
      · rw [List.cons_append, List.takeWhile_append_dropWhile]
      · exact ⟨hwhole, .point fun c hc => List.mem_takeWhile_imp hc, hexponent, hdigit⟩
    · exact ⟨whole, [], after, rfl, hwhole, .none, hexponent, by simpa using hdigit⟩
  · rintro ⟨whole, fraction, exponent, rfl, hwhole, hfraction, hexponent, hdigit⟩
    -- The letter of the exponent is what ends the digits in front of it.
    have hletter : ∀ c ∈ exponent.head?, c.isDigit = false ∧ c ≠ '.' := by
      cases hexponent with
      | none => rintro c ⟨⟩
      | letter hc _ _ =>
        rintro c ⟨⟩
        rcases hc with rfl | rfl <;> decide
    cases hfraction with
    | none =>
      obtain ⟨htake, hdrop⟩ := Text.span_eq (y := exponent) hwhole fun c hc => (hletter c hc).1
      have hnone : takeFraction exponent = ([], exponent) := by
        unfold takeFraction
        split
        · exact absurd rfl (hletter '.' rfl).2
        · rfl
      rw [List.nil_append, htake, hdrop, hnone]
      exact ⟨hexponent, by simpa using hdigit⟩
    | @point ds hds =>
      obtain ⟨htake, hdrop⟩ := Text.span_eq (y := '.' :: (ds ++ exponent)) hwhole (by rintro c ⟨⟩; decide)
      obtain ⟨htake', hdrop'⟩ := Text.span_eq (y := exponent) hds fun c hc => (hletter c hc).1
      have hpoint : takeFraction ('.' :: (ds ++ exponent)) = (ds, exponent) := by
        change ((ds ++ exponent).takeWhile Char.isDigit, (ds ++ exponent).dropWhile Char.isDigit) = _
        rw [htake', hdrop']
      rw [List.cons_append, htake, hdrop, hpoint]
      exact ⟨hexponent, hdigit⟩

/-- Such a number begins with a digit or a point. -/
theorem IsUnsigned.first {whole fraction exponent : List Char} (h : IsUnsigned whole fraction exponent) :
    ∃ c rest, whole ++ (fraction ++ exponent) = c :: rest ∧ (c.isDigit = true ∨ c = '.') := by
  cases whole with
  | cons c whole => exact ⟨c, _, rfl, .inl (h.isDigit c List.mem_cons_self)⟩
  | nil =>
    cases h.isFraction with
    | none => exact absurd h.digit (by simp)
    | point hds => exact ⟨'.', _, rfl, .inr rfl⟩

def IsDecimal (s : List Char) : Prop := (readUnsigned? (takeSign s).2).isSome = true

theorem IsUnsigned.isDecimal_signed {whole fraction exponent : List Char} (h : IsUnsigned whole fraction exponent)
    (negative : Bool) : IsDecimal (signed negative (whole ++ (fraction ++ exponent))) := by
  obtain ⟨c, rest, hcons, hc⟩ := h.first
  unfold IsDecimal
  rw [hcons, takeSign_of_first hc, ← hcons]
  exact readUnsigned?_isSome_iff.mpr ⟨whole, fraction, exponent, rfl, h⟩

theorem isDecimal_integerText (n : Int) : IsDecimal (integerText n) := by
  have hdigits : IsUnsigned (digits n.natAbs) [] [] :=
    ⟨fun c hc => Json.isDigit_of_mem_digits hc, .none, .none, .inl Nat.toDigits_ne_nil⟩
  unfold integerText
  split
  · simpa [signed] using hdigits.isDecimal_signed true
  · simpa [signed] using hdigits.isDecimal_signed false

def IsWord (s : List Char) : Prop :=
  -- A word for an infinity or for what is not a number, in any case and with a sign that may be
  -- missing.
  (takeSign s).2.map Char.toLower ∈ ["inf".toList, "infinity".toList, "nan".toList]

/-- What is read as a floating number is a decimal number or a word. -/
theorem readFloat?_isSome_iff {s : List Char} : (readFloat? s).isSome = true ↔ IsDecimal s ∨ IsWord s := by
  have hword : IsWord s ↔ ((takeSign s).2.map Char.toLower == "inf".toList ||
      (takeSign s).2.map Char.toLower == "infinity".toList) = true ∨
        ((takeSign s).2.map Char.toLower == "nan".toList) = true := by
    simp only [IsWord, List.mem_cons, List.not_mem_nil, or_false, Bool.or_eq_true, beq_iff_eq, or_assoc]
  unfold readFloat?
  dsimp only
  rw [Option.isSome_map, hword]
  split
  · next h => exact ⟨fun _ => .inr (.inl h), fun _ => rfl⟩
  split
  · next h => exact ⟨fun _ => .inr (.inr h), fun _ => rfl⟩
  · next h h' => exact (or_iff_left (not_or.mpr ⟨h, h'⟩)).symm

/-- What a word is read as is not finite. -/
theorem IsWord.not_isFinite {s : List Char} (h : IsWord s) {x : Float} (hx : readFloat? s = some x) :
    x.isFinite = false := by
  have hvalue : ∃ y, (y = infinity ∨ y = nan) ∧ (if (takeSign s).1 then -y else y) = x := by
    unfold IsWord at h
    unfold readFloat? at hx
    dsimp only at hx
    simp only [List.mem_cons, List.not_mem_nil, or_false] at h
    rcases h with h | h | h
    · rw [h] at hx
      exact ⟨infinity, .inl rfl, Option.some.inj hx⟩
    · rw [h] at hx
      exact ⟨infinity, .inl rfl, Option.some.inj hx⟩
    · rw [h] at hx
      exact ⟨nan, .inr rfl, Option.some.inj hx⟩
  obtain ⟨y, rfl | rfl, rfl⟩ := hvalue
  · split <;> decide +kernel
  · split <;> decide +kernel

theorem mem_of_takeSign {s : List Char} {c : Char} (hc : c ∈ s) : c ∈ ['-', '+'] ∨ c ∈ (takeSign s).2 := by
  unfold takeSign
  split
  · rcases List.mem_cons.mp hc with rfl | hc
    · exact .inl (by decide)
    · exact .inr hc
  · rcases List.mem_cons.mp hc with rfl | hc
    · exact .inl (by decide)
    · exact .inr hc
  · exact .inr hc

theorem takeSign_append {s : List Char} (hne : s ≠ []) (t : List Char) :
    takeSign (s ++ t) = ((takeSign s).1, (takeSign s).2 ++ t) := by
  obtain ⟨c, rest, rfl⟩ := List.exists_cons_of_ne_nil hne
  by_cases hminus : c = '-'
  · subst hminus
    rfl
  by_cases hplus : c = '+'
  · subst hplus
    rfl
  have hnone (x : List Char) : takeSign (c :: x) = (false, c :: x) := by
    unfold takeSign
    split
    · next h => exact absurd (List.cons.inj h).1 hminus
    · next h => exact absurd (List.cons.inj h).1 hplus
    · rfl
  rw [List.cons_append, hnone, hnone]
  rfl

/-- The characters of what is read as a floating number. -/
theorem mem_of_readFloat? {s : List Char} (h : (readFloat? s).isSome = true) {c : Char} (hc : c ∈ s) :
    c ∈ ['-', '+', '.'] ∨ c.isDigit = true ∨ (97 ≤ c.toLower.toNat ∧ c.toLower.toNat ≤ 122) := by
  have hsign {s : List Char} (hc : c ∈ s) : c ∈ ['-', '+', '.'] ∨ c ∈ (takeSign s).2 :=
    (mem_of_takeSign hc).imp_left fun h => by simpa [or_assoc] using Or.inl (List.mem_cons.mp h)
  rcases hsign hc with hc | hc
  · exact .inl hc
  rcases readFloat?_isSome_iff.mp h with hdecimal | hword
  · -- A decimal number: the character is in its whole part, its fraction or its exponent.
    obtain ⟨whole, fraction, exponent, hs, hwhole, hfraction, hexponent, -⟩ :=
      readUnsigned?_isSome_iff.mp hdecimal
    rw [hs] at hc
    rcases List.mem_append.mp hc with hc | hc
    · exact .inr (.inl (hwhole c hc))
    rcases List.mem_append.mp hc with hc | hc
    · cases hfraction with
      | none => cases hc
      | point hds =>
        rcases List.mem_cons.mp hc with rfl | hc
        · exact .inl (by decide)
        · exact .inr (.inl (hds c hc))
    · cases hexponent with
      | none => cases hc
      | letter hletter _ hds =>
        rcases List.mem_cons.mp hc with rfl | hc
        · refine .inr (.inr ?_)
          rcases hletter with rfl | rfl <;> decide
        · exact (hsign hc).imp_right fun hc => .inl (hds c hc)
  · -- A word for a number that is not finite.
    have hletters : ((takeSign s).2.map Char.toLower).all (fun d => 97 ≤ d.toNat && d.toNat ≤ 122) = true := by
      unfold IsWord at hword
      simp only [List.mem_cons, List.not_mem_nil, or_false] at hword
      rcases hword with h | h | h
      · rw [h]
        decide
      · rw [h]
        decide
      · rw [h]
        decide
    have hletter := List.all_eq_true.mp hletters c.toLower (List.mem_map_of_mem hc)
    rw [Bool.and_eq_true, decide_eq_true_eq, decide_eq_true_eq] at hletter
    exact .inr (.inr hletter)

/-- No blank stands in what is read as a floating number. -/
theorem trim_of_readFloat? {s : List Char} (h : (readFloat? s).isSome = true) : Text.trim s = s := by
  have hblank : ∀ c ∈ s, Text.isBlank c = false := by
    intro c hc
    rcases mem_of_readFloat? h hc with hc | hc | hc
    · simp only [List.mem_cons, List.not_mem_nil, or_false] at hc
      rcases hc with rfl | rfl | rfl <;> rfl
    · exact isBlank_of_isDigit hc
    · rw [toNat_toLower] at hc
      rw [Bool.eq_false_iff]
      intro hblank
      simp only [Text.isBlank, Bool.or_eq_true, Bool.and_eq_true, decide_eq_true_eq, beq_iff_eq] at hblank
      split at hc <;> omega
  exact Text.trim_of_noBlank hblank

/-- What neither begins with a digit nor with a point is read as no decimal number. -/
theorem readUnsigned?_of_first {c : Char} {rest : List Char} (h : ¬ (c.isDigit = true ∨ c = '.')) :
    readUnsigned? (c :: rest) = none := by
  rw [← Option.not_isSome_iff_eq_none, readUnsigned?_isSome_iff]
  rintro ⟨whole, fraction, exponent, hs, hunsigned⟩
  obtain ⟨d, more, hcons, hd⟩ := hunsigned.first
  rw [← hs] at hcons
  obtain ⟨rfl, -⟩ := List.cons.inj hcons
  exact h hd

/-- Behind a sign no second one is read. -/
theorem readFloat?_of_two_signs (s : List Char) : readFloat? ('-' :: '-' :: s) = none := by
  rw [← Option.not_isSome_iff_eq_none, readFloat?_isSome_iff]
  rintro (hdecimal | hword)
  · unfold IsDecimal at hdecimal
    change (readUnsigned? ('-' :: s)).isSome = true at hdecimal
    rw [readUnsigned?_of_first (by decide)] at hdecimal
    cases hdecimal
  · have hfirst : ∀ w ∈ ["inf".toList, "infinity".toList, "nan".toList], w.head? ≠ some '-' := by decide
    exact hfirst _ hword rfl

def nonFiniteTexts : List (List Char) := ["inf".toList, "-inf".toList, "NaN".toList]

def IsNumberText (s : List Char) : Prop := IsDecimal s ∨ s ∈ nonFiniteTexts

theorem IsNumberText.readable {s : List Char} (h : IsNumberText s) : (readFloat? s).isSome = true := by
  rcases h with hdecimal | hmem
  · exact readFloat?_isSome_iff.mpr (.inl hdecimal)
  · simp only [nonFiniteTexts, List.mem_cons, List.not_mem_nil, or_false] at hmem
    rcases hmem with rfl | rfl | rfl <;> rfl

theorem isNumberText_nonFiniteText (x : Float) : IsNumberText (nonFiniteText x) := by
  refine .inr ?_
  unfold nonFiniteText
  split
  · decide
  · cases isNegative x <;> decide

theorem isUnsigned_of_isDigit {ds : List Char} (hds : ∀ c ∈ ds, c.isDigit = true) (hne : ds ≠ []) :
    IsUnsigned ds [] [] :=
  ⟨hds, .none, .none, .inl hne⟩

/-- Digits with a point somewhere behind the first of them are a decimal number. -/
theorem exists_isUnsigned_pointed {ds : List Char} (hds : ∀ c ∈ ds, c.isDigit = true) (hne : ds ≠ []) (places : Nat) :
    ∃ whole fraction, pointed ds places = whole ++ (fraction ++ []) ∧ IsUnsigned whole fraction [] := by
  unfold pointed
  split
  · exact ⟨ds, [], (List.append_nil ds).symm, isUnsigned_of_isDigit hds hne⟩
  · have hlength : places < (List.replicate (places + 1 - ds.length) '0' ++ ds).length := by
      rw [List.length_append, List.length_replicate]
      omega
    have hpadded : ∀ c ∈ List.replicate (places + 1 - ds.length) '0' ++ ds, c.isDigit = true := by
      intro c hc
      rcases List.mem_append.mp hc with hc | hc
      · rw [List.eq_of_mem_replicate hc]
        rfl
      · exact hds c hc
    generalize List.replicate (places + 1 - ds.length) '0' ++ ds = padded at hlength hpadded
    dsimp only
    refine ⟨padded.take (padded.length - places), '.' :: padded.drop (padded.length - places), ?_, ?_⟩
    · rw [List.append_nil]
    · refine ⟨fun c hc => hpadded c (List.mem_of_mem_take hc), .point fun c hc => hpadded c (List.mem_of_mem_drop hc),
        .none, .inl ?_⟩
      rw [Ne, List.take_eq_nil_iff, ← List.length_eq_zero_iff]
      omega

theorem isNumberText_pointed (negative : Bool) (n places : Nat) :
    IsNumberText (signed negative (pointed (digits n) places)) := by
  obtain ⟨whole, fraction, hpointed, hunsigned⟩ :=
    exists_isUnsigned_pointed (fun c hc => Json.isDigit_of_mem_digits hc) (Nat.toDigits_ne_nil : digits n ≠ []) places
  rw [hpointed]
  exact .inl (hunsigned.isDecimal_signed negative)

theorem isNumberText_fixed (places : Nat) (x : Float) : IsNumberText (fixed places x) := by
  unfold fixed
  split
  · exact isNumberText_nonFiniteText x
  · exact isNumberText_pointed _ _ places

/-- Without an exponent a number is written as digits with a point at most. -/
theorem isNumberText_plain (x : Float) : IsNumberText (plain x) := by
  unfold plain
  split
  · exact isNumberText_nonFiniteText x
  unfold Decimal.positional
  split
  · next b _ _ =>
    have hdigits : ∀ c ∈ digits (b.shortest .up).coefficient ++ List.replicate (b.shortest .up).exponent.toNat '0',
        c.isDigit = true := by
      intro c hc
      rcases List.mem_append.mp hc with hc | hc
      · exact Json.isDigit_of_mem_digits hc
      · rw [List.eq_of_mem_replicate hc]
        rfl
    have hunsigned := isUnsigned_of_isDigit hdigits (by simp [digits, Nat.toDigits_ne_nil])
    have hdecimal := hunsigned.isDecimal_signed b.negative
    rw [List.nil_append, List.append_nil] at hdecimal
    exact .inl hdecimal
  · exact isNumberText_pointed _ _ _

/-- A decimal number with neither a point nor an exponent stays one if it is given a fraction. -/
theorem IsDecimal.append_fraction {s : List Char} (h : IsDecimal s) (hplain : ∀ c ∈ s, c ≠ '.' ∧ c ≠ 'e' ∧ c ≠ 'E') :
    IsDecimal (s ++ ['.', '0']) := by
  have hsub {c : Char} (hc : c ∈ (takeSign s).2) : c ∈ s := by
    unfold takeSign at hc
    split at hc
    · exact List.mem_cons_of_mem _ hc
    · exact List.mem_cons_of_mem _ hc
    · exact hc
  have hne : s ≠ [] := by
    rintro rfl
    cases h
  obtain ⟨whole, fraction, exponent, hs, hwhole, hfraction, hexponent, hdigit⟩ := readUnsigned?_isSome_iff.mp h
  rw [hs] at hsub
  unfold IsDecimal
  rw [takeSign_append hne, hs]
  -- Without a point and without an exponent only the digits in front are left, and these may be followed by a point.
  cases hfraction with
  | point _ => exact absurd rfl (hplain '.' (hsub (by simp))).1
  | none =>
    cases hexponent with
    | @letter c _ hletter _ _ =>
      have hboth := (hplain c (hsub (by simp))).2
      rcases hletter with rfl | rfl
      · exact absurd rfl hboth.1
      · exact absurd rfl hboth.2
    | none =>
      refine readUnsigned?_isSome_iff.mpr ⟨whole, ['.', '0'], [], ?_, hwhole, .point ?_, .none, .inr (by simp)⟩
      · simp only [List.append_nil]
      · exact List.forall_mem_singleton.mpr rfl

/-- An integer below `2 ^ 64` is read as the floating number that is made from it. -/
theorem ofDecimal_integer {n : Nat} (hlt : n < 2 ^ 64) : ofDecimal n 0 = Float.ofNat n := by
  unfold ofDecimal
  dsimp only
  by_cases hzero : n = 0
  · subst hzero
    rfl
  · have hlog : n.log2 < 64 := (Nat.log2_lt hzero).mpr hlt
    rw [if_neg (by simp [hzero]), if_neg (by omega), if_neg (by omega)]
    rfl

/-- Digits with a sign that are read as an integer are read as a floating number as well, and that number is
truncated to the integer as far as floating numbers hold it. -/
theorem readFloat?_of_readInt64? {s : List Char} {n : Int} (h : readInt64? 10 s = some n) :
    ∃ x, readFloat? s = some x ∧ toInt64Clamped (truncate x) = throughFloat n := by
  obtain ⟨hnumeral, hfits⟩ := (readInt64?_eq_some_iff (by decide)).mp h
  have hbounds : -(twoTo 63 : Int) ≤ n ∧ n < (twoTo 63 : Int) := by
    simpa only [fitsInt64, Bool.and_eq_true, decide_eq_true_eq] using hfits
  have htwo : (twoTo 63 : Int) = 9223372036854775808 := rfl
  -- The sign only decides whether the value of the digits is negated.
  have hread (negative : Bool) {ds : List Char} {m : Nat} (hds : Denotes 10 ds m)
      (hvalue : n = if negative then -(m : Int) else m)
      (hsign : ∀ c rest, ds = c :: rest → c.isDigit = true → takeSign s = (negative, c :: rest)) :
      ∃ x, readFloat? s = some x ∧ toInt64Clamped (truncate x) = throughFloat n := by
    have hlt : m < 2 ^ 64 := by
      cases negative <;> simp at hvalue <;> omega
    obtain ⟨c, rest, rfl⟩ := List.exists_cons_of_ne_nil hds.ne_nil
    have hc : c.isDigit = true := isDigit_of_denotes hds c List.mem_cons_self
    refine ⟨if negative then -Float.ofNat m else Float.ofNat m, ?_, ?_⟩
    · rw [readFloat?_of_takeSign (.inl hc) (hsign c rest rfl hc), readUnsigned?_of_denotes hds,
        ofDecimal_integer hlt]
      rfl
    · rw [hvalue, toInt64Clamped_truncate hlt]
  cases hnumeral with
  | plain hds =>
    refine hread false hds rfl ?_
    rintro c rest rfl hc
    exact takeSign_of_first (.inl hc) false
  | plus hds =>
    refine hread false hds rfl ?_
    rintro c rest rfl hc
    rfl
  | minus _ hds =>
    refine hread true hds rfl ?_
    rintro c rest rfl hc
    rfl

end Snippet.Number

namespace Snippet.Scan

open Script (Denotes denotes_iff)

def numberBehind? (sign digits : List Char) : Option (List Char) :=
  -- A number behind its sign: what is left of the term without separators and the letters of a
  -- type, or the decimal digits of what is left if that is hexadecimal.
  match (dropStart? "0x".toList digits).or (dropStart? "0X".toList digits) with
  | some hex =>
    let hex := ungroup (Text.dropEndWhile (fun c => "LluU".toList.contains c) hex)
    (Number.readInt64? 16 hex).map fun n => sign ++ Number.integerText n
  | none =>
    let digits := ungroup (Text.dropEndWhile (fun c => "LlfFdDuU".toList.contains c) digits)
    match digits with
    | c :: _ => if (c.isDigit || c == '.') && (Number.readFloat? digits).isSome then some (sign ++ digits) else none
    | [] => none

theorem number?_minus (rest : List Char) : number? ('-' :: rest) = numberBehind? ['-'] (Text.trimStart rest) := rfl

theorem number?_plain {term : List Char} (h : ∀ rest, term ≠ '-' :: rest) :
    number? term = numberBehind? [] term := by
  unfold number?
  split
  next sign digits hsign =>
  split at hsign
  · next rest => exact absurd rfl (h rest)
  · cases hsign
    rfl

theorem denotes_digits (n : Nat) : Denotes 10 (Number.digits n) n := by
  have hdigits : ∀ c ∈ Number.digits n, c.isDigit = true := fun c hc => Json.isDigit_of_mem_digits hc
  rw [denotes_iff (by decide), Number.digitsValue?_of_isDigit hdigits]
  exact ⟨Nat.toDigits_ne_nil, congrArg some (Nat.ofDigitChars_ten_toDigits)⟩

/-- What begins no hexadecimal number is a number without the letters of a type and without separators. -/
theorem numberBehind?_of_notMem {digits : List Char} (hx : 'x' ∉ digits) (hX : 'X' ∉ digits) (sign : List Char) :
    numberBehind? sign digits =
      match ungroup (Text.dropEndWhile (fun c => "LlfFdDuU".toList.contains c) digits) with
      | c :: rest =>
        if (c.isDigit || c == '.') && (Number.readFloat? (c :: rest)).isSome then some (sign ++ c :: rest) else none
      | [] => none := by
  have hhex {x : Char} (hnone : x ∉ digits) : dropStart? ['0', x] digits = none := by
    unfold dropStart?
    rw [if_neg]
    intro hprefix
    exact hnone ((List.isPrefixOf_iff_prefix.mp hprefix).subset (by simp))
  unfold numberBehind?
  rw [show "0x".toList = ['0', 'x'] from rfl, show "0X".toList = ['0', 'X'] from rfl, hhex hx, hhex hX,
    Option.or_none]
  dsimp only
  cases ungroup (Text.dropEndWhile (fun c => "LlfFdDuU".toList.contains c) digits) <;> rfl

theorem dropEndWhile_of_last {p : Char → Bool} {text : List Char} (h : ∀ c ∈ text.getLast?, p c = false) :
    Text.dropEndWhile p text = text := by
  apply List.rdropWhile_eq_self_iff.mpr
  intro hne hlast
  rw [h _ (List.getLast?_eq_some_getLast hne)] at hlast
  cases hlast

theorem notSuffix_of_isDigit {c : Char} (hc : c.isDigit = true) : "LlfFdDuU".toList.contains c = false := by
  rw [Bool.eq_false_iff]
  intro hmem
  have hletter : c ∈ ['L', 'l', 'f', 'F', 'd', 'D', 'u', 'U'] := List.contains_iff_mem.mp hmem
  simp only [List.mem_cons, List.not_mem_nil, or_false] at hletter
  rcases hletter with rfl | rfl | rfl | rfl | rfl | rfl | rfl | rfl <;> cases hc

/-- Digits with separators between them are the number that they are without these. -/
theorem numberBehind?_grouped {text : List Char} (hchars : ∀ c ∈ text, c.isDigit = true ∨ c = '\'')
    (hfirst : ∀ c ∈ text.head?, c.isDigit = true) (hlast : ∀ c ∈ text.getLast?, c.isDigit = true) (hne : text ≠ [])
    (sign : List Char) : numberBehind? sign text = some (sign ++ ungroup text) := by
  -- Whatever is neither a digit nor a separator is not in the text.
  have hnone {k : Char} (hk : k.isDigit = false ∧ k ≠ '\'') : k ∉ text := by
    intro hmem
    rcases hchars k hmem with h | h
    · rw [hk.1] at h
      cases h
    · exact hk.2 h
  have hsuffix : Text.dropEndWhile (fun c => "LlfFdDuU".toList.contains c) text = text :=
    dropEndWhile_of_last fun c hc => notSuffix_of_isDigit (hlast c hc)
  rw [numberBehind?_of_notMem (hnone (by decide)) (hnone (by decide)), hsuffix]
  have hdigits : ∀ c ∈ ungroup text, c.isDigit = true := by
    intro c hc
    obtain ⟨hmem, hmark⟩ := List.mem_filter.mp hc
    rcases hchars c hmem with h | rfl
    · exact h
    · cases hmark
  obtain ⟨c, rest, rfl⟩ := List.exists_cons_of_ne_nil hne
  have hc : c.isDigit = true := hfirst c rfl
  have hcons : ungroup (c :: rest) = c :: ungroup rest := by
    apply List.filter_cons_of_pos
    rw [Bool.and_eq_true, bne_iff_ne, bne_iff_ne]
    constructor <;> rintro rfl <;> cases hc
  have hread : (Number.readFloat? (c :: ungroup rest)).isSome = true := by
    rw [hcons] at hdigits
    have hunsigned := Number.isUnsigned_of_isDigit hdigits (List.cons_ne_nil _ _)
    have hdecimal := hunsigned.isDecimal_signed false
    rw [List.append_nil, List.append_nil] at hdecimal
    exact Number.readFloat?_isSome_iff.mpr (.inl hdecimal)
  rw [hcons]
  dsimp only
  rw [hc, hread]
  rfl

/-- No number ends in a semicolon. -/
theorem number?_of_semicolon {text : List Char} (hminus : '-' ∉ text) (hx : 'x' ∉ text) (hX : 'X' ∉ text) :
    number? (text ++ [';']) = none := by
  have hnone {k : Char} (h : k ∉ text) (hk : k ≠ ';') : k ∉ text ++ [';'] := by simp [h, hk]
  have hplain (rest : List Char) : text ++ [';'] ≠ '-' :: rest := by
    intro h
    exact hnone hminus (by decide) (h ▸ List.mem_cons_self)
  have hsuffix : Text.dropEndWhile (fun c => "LlfFdDuU".toList.contains c) (text ++ [';']) = text ++ [';'] := by
    apply dropEndWhile_of_last
    rw [List.getLast?_concat]
    rintro c ⟨⟩
    decide
  have hmem : ';' ∈ ungroup (text ++ [';']) := List.mem_filter.mpr ⟨by simp, by decide⟩
  rw [number?_plain hplain, numberBehind?_of_notMem (hnone hx (by decide)) (hnone hX (by decide)), hsuffix]
  generalize ungroup (text ++ [';']) = digits at hmem
  cases digits with
  | nil => rfl
  | cons c rest =>
    have hread : ¬ (Number.readFloat? (c :: rest)).isSome = true := by
      intro hread
      have hsemicolon := Number.mem_of_readFloat? hread hmem
      revert hsemicolon
      decide
    dsimp only
    rw [if_neg]
    rw [Bool.and_eq_true, not_and]
    exact fun _ => hread

/-- Digits are a number as they are. -/
theorem numberBehind?_digits (sign : List Char) (m : Nat) :
    numberBehind? sign (Number.digits m) = some (sign ++ Number.digits m) := by
  have hdigits : ∀ c ∈ Number.digits m, c.isDigit = true := fun c hc => Json.isDigit_of_mem_digits hc
  have hgroups : ungroup (Number.digits m) = Number.digits m := by
    apply List.filter_eq_self.mpr
    intro c hc
    rw [Bool.and_eq_true, bne_iff_ne, bne_iff_ne]
    constructor <;> rintro rfl <;> cases hdigits _ hc
  rw [numberBehind?_grouped (fun c hc => .inl (hdigits c hc)) (fun c hc => hdigits c (List.mem_of_mem_head? hc))
    (fun c hc => hdigits c (List.mem_of_mem_getLast? hc)) Nat.toDigits_ne_nil, hgroups]

/-- The digits of an integer with its sign are a number as they are. -/
theorem number?_integerText (n : Int) : number? (Number.integerText n) = some (Number.integerText n) := by
  obtain ⟨c, rest, hcons, hc⟩ := Json.digits_eq_cons n.natAbs
  unfold Number.integerText
  split
  · have htrim : Text.trimStart (Number.digits n.natAbs) = Number.digits n.natAbs := by
      rw [hcons]
      exact List.dropWhile_cons_of_neg (by rw [Number.isBlank_of_isDigit hc]; exact Bool.false_ne_true)
    rw [number?_minus, htrim, numberBehind?_digits]
    rfl
  · rw [number?_plain, numberBehind?_digits]
    · rfl
    · intro more h
      rw [hcons] at h
      cases h
      cases hc

/-- A number behind its sign is one of the texts of numbers, unless it is a hexadecimal number below zero and so has
a sign already. -/
theorem isNumberText_of_numberBehind? (negative : Bool) {digits s : List Char}
    (h : numberBehind? (Number.signed negative []) digits = some s) :
    Number.IsNumberText s ∨
      ∃ n, s = Number.signed negative ('-' :: Number.digits n) ∧ number? digits = some ('-' :: Number.digits n) := by
  -- The sign is put in front of the digits.
  have hsigned (x : List Char) : Number.signed negative [] ++ x = Number.signed negative x := by
    cases negative <;> rfl
  unfold numberBehind? at h
  split at h
  · -- The digits of a hexadecimal number are written anew, with a sign if the number is below zero.
    next hex hhex =>
    have hplain : ∀ rest, digits ≠ '-' :: rest := by
      rintro rest rfl
      cases hhex
    obtain ⟨i, hi, rfl⟩ := Option.map_eq_some_iff.mp h
    rw [number?_plain hplain, numberBehind?, hhex, hsigned]
    dsimp only
    rw [hi]
    unfold Number.integerText
    split
    · exact .inr ⟨i.natAbs, rfl, congrArg some (if_pos ‹i < 0›)⟩
    · exact .inl (Number.isNumberText_pointed negative i.natAbs 0)
  · dsimp only at h
    split at h
    · next c rest hdigits =>
      split at h
      · next hfirst =>
        obtain rfl := Option.some.inj h
        rw [hdigits, Bool.and_eq_true, Bool.or_eq_true, beq_iff_eq] at hfirst
        obtain ⟨hc, hread⟩ := hfirst
        -- The digits have no sign of their own, so they are read as a whole.
        have hplain : Number.takeSign (c :: rest) = (false, c :: rest) := Number.takeSign_of_first hc false
        rw [Number.readFloat?_of_takeSign hc hplain, Option.isSome_map] at hread
        rw [hdigits, hsigned]
        refine .inl (.inl ?_)
        unfold Number.IsDecimal
        rw [Number.takeSign_of_first hc]
        exact hread
      · cases h
    · cases h

/-- A number in a term is one of the texts of numbers, unless it has two minus signs: its own and, behind that, the one
of a hexadecimal number. -/
theorem isNumberText_of_number? {term s : List Char} (h : number? term = some s) :
    Number.IsNumberText s ∨
      ∃ rest n, term = '-' :: rest ∧ number? (Text.trimStart rest) = some ('-' :: Number.digits n) ∧
        s = '-' :: '-' :: Number.digits n := by
  by_cases hminus : ∃ rest, term = '-' :: rest
  · obtain ⟨rest, rfl⟩ := hminus
    rw [number?_minus] at h
    rcases isNumberText_of_numberBehind? true h with htext | ⟨n, hs, hbehind⟩
    · exact .inl htext
    · exact .inr ⟨rest, n, rfl, hbehind, hs⟩
  · rw [number?_plain fun rest hterm => hminus ⟨rest, hterm⟩] at h
    rcases isNumberText_of_numberBehind? false h with htext | ⟨n, rfl, -⟩
    · exact .inl htext
    · exact .inl (Number.isNumberText_pointed true n 0)

example : number? "-0x-1F".toList = some "--31".toList := by decide

theorem interpolates_of_ne {c : Char} (hsmall : c ≠ 'f') (hcapital : c ≠ 'F') (style : Style) :
    (style.interpolates && (c == 'f' || c == 'F')) = false := by
  rw [beq_eq_false_iff_ne.mpr hsmall, beq_eq_false_iff_ne.mpr hcapital]
  exact Bool.and_false _

/-- A term that begins with a digit, a point or a minus sign is nothing else if it is a number. -/
theorem resolveWithin?_of_number? {c : Char} {rest ds : List Char} (hc : c = '-' ∨ c = '.' ∨ c.isDigit = true)
    (htrim : Text.trim (c :: rest) = c :: rest) (hnumber : number? (c :: rest) = some ds) (style : Style)
    (store : Store) (fuel : Nat) : resolveWithin? style store (fuel + 1) (c :: rest) = some (.number ds) := by
  have hne {k : Char} (hk : k ≠ '-' ∧ k ≠ '.' ∧ k.isDigit = false) : c ≠ k := by
    rintro rfl
    rcases hc with h | h | h
    · exact hk.1 h
    · exact hk.2.1 h
    · rw [h] at hk
      exact Bool.noConfusion hk.2.2
  have hquoted := quoted?_of_ne (hne (by decide)) (hne (by decide)) rest
  have htemplate := interpolates_of_ne (hne (by decide)) (hne (by decide)) style
  rw [resolveWithin?, htrim]
  simp only [List.isEmpty_cons, Bool.false_eq_true, if_false, hquoted, htemplate, hnumber]

/-- A term without parentheses that begins with a digit is a number or nothing. -/
theorem resolveWithin?_of_isDigit {c : Char} {rest : List Char} (hc : c.isDigit = true)
    (htrim : Text.trim (c :: rest) = c :: rest) (hcall : '(' ∉ c :: rest) (style : Style) (store : Store)
    (fuel : Nat) : resolveWithin? style store (fuel + 1) (c :: rest) = (number? (c :: rest)).map .number := by
  have hne {k : Char} (hk : k.isDigit = false) : c ≠ k := by
    rintro rfl
    rw [hc] at hk
    cases hk
  cases hnumber : number? (c :: rest) with
  | some ds => exact resolveWithin?_of_number? (.inr (.inr hc)) htrim hnumber style store fuel
  | none =>
    have hquoted := quoted?_of_ne (hne (by decide)) (hne (by decide)) rest
    have htemplate := interpolates_of_ne (hne (by decide)) (hne (by decide)) style
    have hword : literalWord? (c :: rest) = none := by
      apply literalWord?_of_notMem
      intro word hmem hword
      have hwords : ∀ word ∈ literalWords, word.toList.head?.any Char.isDigit = false := by decide
      have hfirst := hwords word hmem
      rw [← hword] at hfirst
      exact Bool.noConfusion (hc.symm.trans hfirst)
    have hname : isName (c :: rest) = false := Bool.and_eq_false_iff.mpr (.inl (isNameStart_of_isDigit hc))
    rw [resolveWithin?, htrim]
    simp only [List.isEmpty_cons, Bool.false_eq_true, if_false, hquoted, htemplate, hnumber, hword,
      dropStart?_of_notMem hcall, Option.bind_none, firstWrapped?_of_notMem hcall, hname, Option.map_none]

end Snippet.Scan
