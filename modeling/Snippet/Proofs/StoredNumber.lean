import Snippet.Proofs.NumberText
import Snippet.Proofs.StoredValue

/-!
The texts of stored numbers. What is kept for a number can be read as a floating number, so numbers add and numeric
directives accept them. Two kinds of texts cannot be read: those of a number that has been given a second minus sign,
and those of a number that is not finite and has been given a fraction.
-/

namespace Snippet.Scan

open Number (IsNumberText nonFiniteTexts readFloat?)

/-- The texts of numbers that are not read as numbers: with two signs, or with a fraction behind a text that has no
digits or two signs. -/
inductive IsMisshapen : List Char → Prop where
  | signs (n : Nat) : IsMisshapen ('-' :: '-' :: Number.digits n)
  | signsAndFraction (n : Nat) : IsMisshapen ('-' :: '-' :: (Number.digits n ++ ['.', '0']))
  | fraction {s : List Char} (h : s ∈ nonFiniteTexts) : IsMisshapen (s ++ ['.', '0'])

theorem IsMisshapen.unreadable {s : List Char} (h : IsMisshapen s) : readFloat? s = none := by
  cases h with
  | signs n => exact Number.readFloat?_of_two_signs _
  | signsAndFraction n => exact Number.readFloat?_of_two_signs _
  | fraction h =>
    simp only [nonFiniteTexts, List.mem_cons, List.not_mem_nil, or_false] at h
    rcases h with rfl | rfl | rfl <;> rfl

/-- No blank stands at the ends of such a text. -/
theorem IsMisshapen.trim_eq {s : List Char} (h : IsMisshapen s) : Text.trim s = s := by
  have hsigns {x : List Char} (hx : ∀ c ∈ x, c.isDigit = true ∨ c = '.') :
      Text.trim ('-' :: '-' :: x) = '-' :: '-' :: x := by
    refine Text.trim_of_noBlank (List.forall_mem_cons.mpr ⟨rfl, List.forall_mem_cons.mpr ⟨rfl, ?_⟩⟩)
    intro c hc
    rcases hx c hc with hdigit | rfl
    · exact Number.isBlank_of_isDigit hdigit
    · rfl
  have hdigits {n : Nat} {c : Char} (hc : c ∈ Number.digits n) : c.isDigit = true :=
    Json.isDigit_of_mem_digits hc
  cases h with
  | signs n => exact hsigns fun c hc => .inl (hdigits hc)
  | signsAndFraction n =>
    refine hsigns fun c hc => ?_
    rcases List.mem_append.mp hc with hc | hc
    · exact .inl (hdigits hc)
    · simp only [List.mem_cons, List.not_mem_nil, or_false] at hc
      rcases hc with rfl | rfl
      · exact .inr rfl
      · exact .inl rfl
  | fraction h =>
    simp only [nonFiniteTexts, List.mem_cons, List.not_mem_nil, or_false] at h
    rcases h with rfl | rfl | rfl <;> rfl

/-- A number that a term stands for is one that is written in some term, or one that is stored. -/
theorem number_of_resolveWithin? {style : Style} {store : Store} {fuel : Nat} {term s : List Char}
    (h : resolveWithin? style store fuel term = some (.number s)) :
    (∃ part, number? part = some s) ∨ ∃ name, store.get? name = some (.number s) := by
  -- A term is a number, a stored name, or has another term inside of it that is looked up.
  induction fuel generalizing term with
  | zero => cases h
  | succ fuel ih =>
    rw [resolveWithin?] at h
    dsimp only at h
    split at h
    · cases h
    split at h
    · cases h
    split at h
    · -- A template stands for a text.
      obtain ⟨t, -, ht⟩ := Option.map_eq_some_iff.mp h
      cases ht
    split at h
    · next digits hnumber =>
      cases h
      exact .inl ⟨_, hnumber⟩
    split at h
    · next value hword =>
      obtain rfl := Option.some.inj h
      unfold literalWord? at hword
      split at hword
      · cases hword
      split at hword
      · cases hword
      split at hword
      · cases hword
      · cases hword
    split at h
    · exact ih h
    split at h
    · obtain ⟨v, -, hv⟩ := Option.map_eq_some_iff.mp h
      cases hv
    split at h
    · exact .inr ⟨_, h⟩
    · cases h

theorem isNumberText_floatText (style : Style) (x : Float) : IsNumberText (floatText style x) := by
  unfold floatText
  split
  · exact Number.isNumberText_fixed 1 x
  · exact Number.isNumberText_plain x

/-- What a line is read as is one of the texts of numbers, if it is a number. -/
theorem isNumberText_of_convert {style : Style} {line s : List Char} {conversion : Conversion}
    (h : convert style line conversion = .number s) : IsNumberText s := by
  unfold convert at h
  dsimp only at h
  split at h
  · cases h
  · cases h
  · split at h
    · next x hx =>
      split at h
      · next hfinite =>
        obtain rfl := Literal.number.inj h
        rcases Number.readFloat?_isSome_iff.mp (Option.isSome_of_eq_some hx) with hdecimal | hword
        · exact .inl hdecimal
        · rw [hword.not_isFinite hx] at hfinite
          cases hfinite
      · cases h
    · cases h
  · split at h
    · next n _ =>
      obtain rfl := Literal.number.inj h
      exact .inl (Number.isDecimal_integerText n)
    · cases h
  · split at h
    · next x _ =>
      obtain rfl := Literal.number.inj h
      exact isNumberText_floatText style x
    · cases h

/-- A sum is one of the texts of numbers, if it is a number. -/
theorem isNumberText_of_plus {style : Style} {left right : Literal} {s : List Char}
    (h : plus style left right = .number s) : IsNumberText s := by
  unfold plus at h
  dsimp only at h
  split at h
  · next a b =>
    split at h
    · next sum hsum =>
      obtain rfl := Literal.number.inj h
      rcases Option.or_eq_some_iff.mp hsum with hinteger | ⟨-, hfloat⟩
      · unfold integerSum? at hinteger
        split at hinteger
        · split at hinteger
          · obtain rfl := Option.some.inj hinteger
            exact .inl (Number.isDecimal_integerText _)
          · cases hinteger
        · cases hinteger
      · unfold floatSum? at hfloat
        split at hfloat
        · obtain rfl := Option.some.inj hfloat
          exact isNumberText_floatText style _
        · cases hfloat
    · cases h
  · cases h

/-- A variable holds a number as it is, or with a fraction behind digits that have none. -/
theorem typed_number (g : Grammar) (type : Option (List Char)) (s : List Char) :
    typed g type (.number s) = .number s ∨
      typed g type (.number s) = .number (s ++ ['.', '0']) ∧ g.style.pointsWhole = true ∧
        (type = some "double".toList ∨ type = some "float".toList) ∧ ∀ c ∈ s, c ≠ '.' ∧ c ≠ 'e' ∧ c ≠ 'E' := by
  unfold typed
  dsimp only
  split
  · next h =>
    simp only [Bool.and_eq_true, Bool.or_eq_true, beq_iff_eq, Bool.not_eq_true', List.any_eq_false, not_or] at h
    obtain ⟨⟨htype, hpoints⟩, hplain⟩ := h
    exact .inr ⟨rfl, hpoints, htype, fun c hc => ⟨(hplain c hc).1.1, (hplain c hc).1.2, (hplain c hc).2⟩⟩
  · exact .inl rfl

theorem number_of_typed {g : Grammar} {type : Option (List Char)} {v : Literal} {s : List Char}
    (h : typed g type v = .number s) : ∃ t, v = .number t := by
  cases v with
  | number t => exact ⟨t, rfl⟩
  | text t => cases h
  | bool b => cases h
  | null => cases h

/-- A variable holds what is one of the texts of numbers as one of them, unless it gives a fraction to what is not
finite. -/
theorem isNumberText_of_typed {g : Grammar} {type : Option (List Char)} {s t : List Char} (hs : IsNumberText s)
    (h : typed g type (.number s) = .number t) :
    IsNumberText t ∨ s ∈ nonFiniteTexts ∧ t = s ++ ['.', '0'] ∧ g.style.pointsWhole = true ∧
      (type = some "double".toList ∨ type = some "float".toList) := by
  rcases typed_number g type s with hsame | ⟨hfraction, hpoints, htype, hplain⟩
  · obtain rfl := Literal.number.inj (hsame.symm.trans h)
    exact .inl hs
  · obtain rfl := Literal.number.inj (hfraction.symm.trans h)
    rcases hs with hdecimal | hmem
    · exact .inl (.inl (hdecimal.append_fraction hplain))
    · exact .inr ⟨hmem, rfl, hpoints, htype⟩

def KeepsNumbers (store : Store) : Prop :=
  ∀ name s, store.get? name = some (.number s) → IsNumberText s ∨ IsMisshapen s

namespace KeepsNumbers

variable {store : Store}

/-- What a term stands for is such a number, if it is a number. -/
theorem resolve? (h : KeepsNumbers store) {style : Style} {term s : List Char}
    (hterm : Scan.resolve? style store term = some (.number s)) : IsNumberText s ∨ IsMisshapen s := by
  rcases number_of_resolveWithin? hterm with ⟨part, hpart⟩ | ⟨name, hname⟩
  · rcases isNumberText_of_number? hpart with htext | ⟨_, n, -, -, rfl⟩
    · exact .inl htext
    · exact .inr (.signs n)
  · exact h name s hname

/-- A step of a scan gives such numbers. -/
theorem gives {g : Grammar} {st : State} (h : KeepsNumbers st.store) {name : List Char} {v : Literal}
    (hgives : Gives g st name v) : ∀ s, v = .number s → IsNumberText s ∨ IsMisshapen s := by
  intro s hs
  cases hgives with
  | assigned hsearch hvalue =>
    obtain ⟨t, rfl⟩ := number_of_typed hs
    rcases h.resolve? hvalue with htext | hmisshapen
    · rcases isNumberText_of_typed htext hs with htext | ⟨hmem, rfl, -, -⟩
      · exact .inl htext
      · exact .inr (.fraction hmem)
    · -- A fraction is only given to a text without a point, so no text gets two of them.
      rcases typed_number g _ t with hsame | ⟨hfraction, -, -, hplain⟩
      · obtain rfl := Literal.number.inj (hsame.symm.trans hs)
        exact .inr hmisshapen
      · obtain rfl := Literal.number.inj (hfraction.symm.trans hs)
        cases hmisshapen with
        | signs n => exact .inr (.signsAndFraction n)
        | signsAndFraction n => exact absurd rfl (hplain '.' (by simp)).1
        | fraction _ => exact absurd rfl (hplain '.' (by simp)).1
  | read _ _ _ => exact .inl (isNumberText_of_convert hs)

end KeepsNumbers

theorem AtMoment.keepsNumbers {g : Grammar} {source stdin : String} {st : State} (h : AtMoment g source stdin st) :
    KeepsNumbers st.store := by
  intro name s hstored
  refine h.forall_stored (P := fun _ v => ∀ s, v = .number s → IsNumberText s ∨ IsMisshapen s) ?_ hstored s rfl
  intro st name v hstore hgives
  exact KeepsNumbers.gives (fun other t ht => hstore other _ ht t rfl) hgives

def numericLetters : List Char := "diufFeExX".toList

/-- Under a numeric letter a value is printed exactly if it stands for a number. -/
theorem isSome_convertText?_numeric {letter : Char} (h : letter ∈ numericLetters) (style : Style)
    (places : Option Nat) (v : Literal) :
    (convertText? style letter places v).isSome = v.float?.isSome := by
  change letter ∈ ['d', 'i', 'u', 'f', 'F', 'e', 'E', 'x', 'X'] at h
  simp only [List.mem_cons, List.not_mem_nil, or_false] at h
  rcases h with rfl | rfl | rfl | rfl | rfl | rfl | rfl | rfl | rfl <;> exact Option.isSome_map

/-- A text that is accepted as a number: it is read as one, it is added to every other one, and every numeric
directive prints it. -/
structure IsAccepted (style : Style) (s : List Char) : Prop where
  readable : (readFloat? s).isSome = true
  adds : ∀ t, (readFloat? t).isSome = true → ∃ sum, plus style (.number s) (.number t) = .number sum
  prints : ∀ letter ∈ numericLetters, ∀ places, (convertText? style letter places (.number s)).isSome = true

/-- A text that is refused as a number: it is not read as one, it is joined to every other one, and no numeric
directive prints it. -/
structure IsRefused (style : Style) (s : List Char) : Prop where
  unreadable : readFloat? s = none
  joinsRight : ∀ t, plus style (.number s) (.number t) = .text (s ++ t)
  joinsLeft : ∀ t, plus style (.number t) (.number s) = .text (t ++ s)
  omits : ∀ letter ∈ numericLetters, ∀ places, convertText? style letter places (.number s) = none

/-- A text of a number can be read and is taken by all conversions. -/
theorem isAccepted_of_isNumberText {s : List Char} (h : IsNumberText s) (style : Style) : IsAccepted style s where
  readable := h.readable
  adds t ht := by
    obtain ⟨x, hx⟩ := Option.isSome_iff_exists.mp h.readable
    obtain ⟨y, hy⟩ := Option.isSome_iff_exists.mp ht
    have hsum : ((integerSum? s t).or (floatSum? style s t)).isSome = true := by
      unfold floatSum?
      rw [hx, hy]
      exact Option.isSome_or.trans (Bool.or_true _)
    obtain ⟨sum, hsum⟩ := Option.isSome_iff_exists.mp hsum
    refine ⟨sum, ?_⟩
    unfold plus
    dsimp only
    rw [hsum]
  prints letter hletter places := by
    rw [isSome_convertText?_numeric hletter]
    unfold Literal.float?
    dsimp only
    rw [Number.trim_of_readFloat? h.readable]
    exact h.readable

/-- A misshapen text cannot be read, so every conversion refuses it. -/
theorem IsMisshapen.isRefused {s : List Char} (h : IsMisshapen s) (style : Style) : IsRefused style s := by
  -- What is read as an integer is read as a floating number as well.
  have hinteger : Number.readInt64? 10 s = none := by
    rw [Option.eq_none_iff_forall_not_mem]
    intro n hn
    obtain ⟨x, hx, -⟩ := Number.readFloat?_of_readInt64? hn
    rw [h.unreadable] at hx
    cases hx
  refine ⟨h.unreadable, fun t => ?_, fun t => ?_, fun letter hletter places => ?_⟩
  · unfold plus integerSum? floatSum?
    dsimp only
    rw [hinteger, h.unreadable]
    rfl
  · have hnone : (integerSum? t s).or (floatSum? style t s) = none := by
      unfold integerSum? floatSum?
      rw [hinteger, h.unreadable]
      cases Number.readInt64? 10 t <;> cases readFloat? t <;> rfl
    unfold plus
    dsimp only
    rw [hnone]
    rfl
  · rw [← Option.not_isSome_iff_eq_none, isSome_convertText?_numeric hletter]
    unfold Literal.float?
    dsimp only
    rw [h.trim_eq, h.unreadable]
    exact Bool.false_ne_true

/-- At every moment of a scan, the numbers that are stored and those that terms stand for are accepted as numbers or
misshapen, and misshapen ones are refused; what lines are read as and what sums come to is accepted. A number becomes
misshapen only where a minus sign stands before a hexadecimal number that is written with one of its own, or where a
variable whose numbers have fractions is assigned what is not finite. -/
theorem stored_numbers_are_accepted_or_misshapen {g : Grammar} {source stdin : String} {st : State}
    (h : AtMoment g source stdin st) :
    (∀ name s, st.store.get? name = some (.number s) → IsNumberText s ∨ IsMisshapen s) ∧
    (∀ term s, resolve? g.style st.store term = some (.number s) → IsNumberText s ∨ IsMisshapen s) ∧
    (∀ line conversion s, convert g.style line conversion = .number s → IsNumberText s) ∧
    (∀ left right s, plus g.style left right = .number s → IsNumberText s) ∧
    (∀ s, IsNumberText s → IsAccepted g.style s) ∧
    (∀ s, IsMisshapen s → IsRefused g.style s) ∧
    (∀ term s, number? term = some s → IsNumberText s ∨
      ∃ rest n, term = '-' :: rest ∧ number? (Text.trimStart rest) = some ('-' :: Number.digits n) ∧
        s = '-' :: '-' :: Number.digits n) ∧
    (∀ type s t, IsNumberText s → typed g type (.number s) = .number t → IsNumberText t ∨
      s ∈ nonFiniteTexts ∧ t = s ++ ['.', '0'] ∧ g.style.pointsWhole = true ∧
        (type = some "double".toList ∨ type = some "float".toList)) := by
  have hstore := h.keepsNumbers
  refine ⟨hstore, fun term s hterm => hstore.resolve? hterm, fun line conversion s hs => isNumberText_of_convert hs,
    fun left right s hs => isNumberText_of_plus hs, fun s hs => isAccepted_of_isNumberText hs g.style,
    fun s hs => hs.isRefused g.style, fun term s hs => isNumberText_of_number? hs,
    fun type s t hs ht => isNumberText_of_typed hs ht⟩

/-- A program that reads a number, assigns it to a variable of type `double` and prints a sum with it. -/
def addsToNumber : String :=
  "public class Main \x7b\npublic static void main(String[] args) \x7b\n" ++
    "Scanner sc = new Scanner(System.in);\ndouble y = sc.nextDouble();\ndouble z = y;\n" ++
      "System.out.println(z + 1);\n\x7d\n\x7d\n"

/-- When an infinity is read, its text is stored with a fraction, and no directive prints that. -/
theorem infinity_with_fraction_is_refused :
    ∃ st, AtMoment Java.grammar addsToNumber "Infinity\n" st ∧
      st.store.get? "z".toList = some (.number "inf.0".toList) ∧ IsRefused Java.style "inf.0".toList := by
  have hmoment := atMoment_lines Java.grammar addsToNumber "Infinity\n" 5
  obtain ⟨-, -, -, -, -, hrefused, -, -⟩ := stored_numbers_are_accepted_or_misshapen hmoment
  refine ⟨_, hmoment, by decide +kernel, hrefused _ ?_⟩
  exact .fraction (s := "inf".toList) (by decide)

/-- What is stored for a number is not always accepted as one: a sum with an infinity is joined. -/
theorem infinity_is_joined :
    (scan .java addsToNumber "Infinity\n" (Budget.ofMilliseconds 5000)).output = some "Infinity\ninf.01\n" := by
  decide +kernel

end Snippet.Scan
