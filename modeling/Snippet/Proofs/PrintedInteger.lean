import Snippet.Proofs.NumberText
import Snippet.Proofs.VariableStore

/-!
Integers in formatted prints. A directive for integers prints its argument in a column: its digits behind its sign,
with blanks or zeros that make up the width. The argument goes through a floating number on the way, so it is
printed exactly if 53 bits are enough for it.
-/

namespace Snippet.Scan

open Pattern

structure IntegerDirective where
  flags : List Char
  width : Nat
  sizes : List Char
  letter : Char
  flags_isFlag : ∀ c ∈ flags, isFlag c = true
  width_le : width ≤ maxField
  sizes_isSize : ∀ c ∈ sizes, isSize c = true
  letter_mem : letter ∈ ['d', 'i', 'u']

namespace IntegerDirective

variable (d : IntegerDirective)

def widthText : List Char := if d.width = 0 then [] else Number.digits d.width

def body : List Char := d.flags ++ (d.widthText ++ (d.sizes ++ [d.letter]))

def written : List Char := '%' :: d.body

/-- An integer as the directive is to print it: to the left of the blanks that make up the width if a minus sign is
among the flags, behind as many zeros as make it up if a zero is, and else to the right of the blanks. The sign
stands in front of the zeros. -/
def column (n : Int) : List Char :=
  let missing := d.width - (Number.integerText n).length
  if '-' ∈ d.flags then Number.integerText n ++ List.replicate missing ' '
  else if '0' ∈ d.flags then
    Number.signed (decide (n < 0)) (List.replicate missing '0' ++ Number.digits n.natAbs)
  else List.replicate missing ' ' ++ Number.integerText n

end IntegerDirective

theorem integerText_eq (n : Int) :
    Number.integerText n = Number.signed (decide (n < 0)) (Number.digits n.natAbs) := by
  unfold Number.integerText Number.signed
  simp

section Reading

variable (d : IntegerDirective)

/-- Of the digits only zero is a flag. -/
theorem isFlag_of_digit {c : Char} (hc : c.isDigit = true) (hzero : c ≠ '0') : isFlag c = false := by
  have hcode := Number.code_of_isDigit hc
  have hne {k : Char} (hk : k.toNat < 48) : c ≠ k := by
    rintro rfl
    omega
  unfold isFlag
  rw [Bool.eq_false_iff]
  intro h
  rw [List.contains_iff_mem] at h
  change c ∈ ['-', '+', ' ', '0', '#'] at h
  simp only [List.mem_cons, List.not_mem_nil, or_false] at h
  rcases h with rfl | rfl | rfl | rfl | rfl
  · exact hne (by decide) rfl
  · exact hne (by decide) rfl
  · exact hne (by decide) rfl
  · exact hzero rfl
  · exact hne (by decide) rfl

/-- What stands behind the width is no flag, no digit and no point. -/
theorem first_behind (rest : List Char) :
    ∃ c more, d.sizes ++ d.letter :: rest = c :: more ∧ isFlag c = false ∧ c.isDigit = false ∧ c ≠ '.' := by
  have hletter : isFlag d.letter = false ∧ d.letter.isDigit = false ∧ d.letter ≠ '.' := by
    have hmem := d.letter_mem
    simp only [List.mem_cons, List.not_mem_nil, or_false] at hmem
    rcases hmem with h | h | h <;> rw [h] <;> decide
  cases hsizes : d.sizes with
  | nil => exact ⟨_, _, rfl, hletter⟩
  | cons c more =>
    have hsize : isSize c = true := d.sizes_isSize c (hsizes ▸ List.mem_cons_self)
    have hc : isFlag c = false ∧ c.isDigit = false ∧ c ≠ '.' := by
      simp only [isSize, Bool.or_eq_true, beq_iff_eq] at hsize
      rcases hsize with (rfl | rfl) | rfl <;> decide
    exact ⟨_, _, rfl, hc⟩

/-- The parts of a directive are found again in it. -/
theorem read_body (rest : List Char) :
    Directive.read (d.body ++ rest) = (⟨d.flags, d.widthText, none⟩, d.letter :: rest) := by
  obtain ⟨c, more, hbehind, hflag, hdigit, hpoint⟩ := first_behind d rest
  -- The flags end at the width, since a width does not begin with a zero, and the width ends at what is behind it.
  have hwidth : ∀ k ∈ d.widthText, k.isDigit = true := by
    unfold IntegerDirective.widthText
    split
    · exact List.forall_mem_nil _
    · exact fun k hk => Json.isDigit_of_mem_digits hk
  have hfirst : ∀ k ∈ (d.widthText ++ (c :: more)).head?, isFlag k = false := by
    unfold IntegerDirective.widthText
    split
    · rintro k ⟨⟩
      exact hflag
    · next hzero =>
      obtain ⟨k, ks, hdigits, hk⟩ := Json.digits_eq_cons d.width
      have hne := Json.head_digits_ne_zero (Nat.pos_of_ne_zero hzero)
      rw [hdigits] at hne ⊢
      rintro _ ⟨⟩
      exact isFlag_of_digit hk (hne k rfl)
  obtain ⟨hflags, hbehindFlags⟩ := Text.span_eq d.flags_isFlag hfirst
  obtain ⟨hwidths, hbehindWidth⟩ := Text.span_eq (y := c :: more) hwidth (by rintro _ ⟨⟩; exact hdigit)
  have hletter : isSize d.letter = false := by
    have hmem := d.letter_mem
    simp only [List.mem_cons, List.not_mem_nil, or_false] at hmem
    rcases hmem with h | h | h <;> rw [h] <;> decide
  have hsizes := (Text.span_eq (y := d.letter :: rest) d.sizes_isSize (by rintro _ ⟨⟩; exact hletter)).2
  have hparts : d.body ++ rest = d.flags ++ (d.widthText ++ (c :: more)) := by
    rw [← hbehind]
    simp [IntegerDirective.body]
  unfold Directive.read
  rw [hparts, hflags, hbehindFlags]
  dsimp only
  rw [hwidths, hbehindWidth]
  split
  · next h => exact absurd (List.cons.inj h).1 hpoint
  · dsimp only
    rw [← hbehind, hsizes]

/-- The width is read from its digits. -/
theorem field?_widthText : field? d.widthText = some d.width := by
  have hwidth := d.width_le
  unfold field? IntegerDirective.widthText
  by_cases hzero : d.width = 0
  · rw [if_pos hzero, hzero]
    rfl
  · have hword : Number.readWord? 64 10 (Number.digits d.width) = some d.width := by
      have hlt : d.width < 2 ^ 64 := Nat.lt_of_le_of_lt hwidth (by decide)
      exact (Script.readWord?_eq_some_iff (by decide)).mpr ⟨.plain (denotes_digits d.width), hlt⟩
    have hnonempty : ¬ (Number.digits d.width).isEmpty = true :=
      fun h => Nat.toDigits_ne_nil (List.isEmpty_iff.mp h)
    rw [if_neg hzero, if_neg hnonempty, hword, Option.filter_some, decide_eq_true hwidth]
    rfl

end Reading

def Literal.IsInteger (v : Literal) (n : Int) : Prop :=
  ∃ ds, v = .number ds ∧ Number.readInt64? 10 ds = some n

/-- No blank stands in what reads as an integer. -/
theorem tight_of_readInt64? {ds : List Char} {n : Int} (h : Number.readInt64? 10 ds = some n) : Text.Tight ds := by
  have hsign {k : Char} (hk : Text.isBlank k = false) {body : List Char} {m : Nat}
      (hbody : Script.Denotes 10 body m) : ∀ c ∈ k :: body, Text.isBlank c = false :=
    List.forall_mem_cons.mpr ⟨hk, fun c hc => Number.isBlank_of_isDigit (Number.isDigit_of_denotes hbody c hc)⟩
  have hall : ∀ c ∈ ds, Text.isBlank c = false := by
    cases ((Script.readInt64?_eq_some_iff (by decide)).mp h).1 with
    | plain hds => exact fun c hc => Number.isBlank_of_isDigit (Number.isDigit_of_denotes hds c hc)
    | plus hds => exact hsign (by decide) hds
    | minus _ hds => exact hsign (by decide) hds
  exact ⟨fun c hc => hall c (List.mem_of_mem_head? hc), fun c hc => hall c (List.mem_of_mem_getLast? hc)⟩

/-- Each of the three directives for integers prints the number that goes through a float. -/
theorem convertText?_integer (style : Style) {letter : Char} (hletter : letter ∈ ['d', 'i', 'u'])
    (places : Option Nat) {v : Literal} {n : Int} (hv : v.IsInteger n) :
    convertText? style letter places v = some (Number.integerText (Number.throughFloat n)) := by
  obtain ⟨ds, rfl, hread⟩ := hv
  obtain ⟨x, hx, hvalue⟩ := Number.readFloat?_of_readInt64? hread
  have hfloat : (Literal.number ds).float? = some x := by
    change Number.readFloat? (Text.trim ds) = some x
    rw [(tight_of_readInt64? hread).trim_eq, hx]
  have htest : (letter == 'd' || letter == 'i' || letter == 'u') = true := by
    simp only [List.mem_cons, List.not_mem_nil, or_false] at hletter
    rcases hletter with rfl | rfl | rfl <;> rfl
  unfold convertText?
  rw [if_pos htest, hfloat, Option.map_some, hvalue]

/-- Widening is what makes a column. -/
theorem pad_eq_column (d : IntegerDirective) (n : Int) :
    Directive.pad ⟨d.flags, d.widthText, none⟩ d.letter d.width (Number.integerText n) = d.column n := by
  have hletter : (d.letter != 's') = true := by
    have hmem := d.letter_mem
    simp only [List.mem_cons, List.not_mem_nil, or_false] at hmem
    rcases hmem with h | h | h <;> rw [h] <;> decide
  unfold Directive.pad IntegerDirective.column
  dsimp only
  rw [hletter, Bool.and_true]
  simp only [List.contains_iff_mem]
  split
  · rfl
  · split
    · rw [integerText_eq]
      by_cases hneg : n < 0
      · rw [decide_eq_true hneg]
        rfl
      · obtain ⟨c, rest, hdigits, hc⟩ := Json.digits_eq_cons n.natAbs
        have hplain (text : List Char) : Number.signed false text = text := rfl
        rw [decide_eq_false hneg, hplain, hplain, hdigits]
        split
        · next h =>
          cases h
          cases hc
        · rfl
    · rfl

/-- A directive in a format prints the next argument, wherever it stands in the format. -/
theorem formatAfter?_written (style : Style) (d : IntegerDirective) {v : Literal} {n : Int} (hv : v.IsInteger n)
    (done rest : List Char) (values : List Literal) (fuel : Nat) :
    formatAfter? style done (fuel + 1) (v :: values) (d.written ++ rest) =
      formatAfter? style ((d.column (Number.throughFloat n)).reverse ++ done) fuel values rest := by
  have hdirective : renderDirective? style d.letter none (v :: values) =
      some (Number.integerText (Number.throughFloat n), values) := by
    have hmem := d.letter_mem
    have hother : ¬ (d.letter == '%') = true ∧ ¬ (d.letter == 'n') = true := by
      simp only [List.mem_cons, List.not_mem_nil, or_false] at hmem
      rcases hmem with h | h | h <;> rw [h] <;> decide
    unfold renderDirective?
    rw [if_neg hother.1, if_neg hother.2]
    dsimp only
    rw [convertText?_integer style hmem none hv]
    rfl
  change formatAfter? style done (fuel + 1) (v :: values) ('%' :: (d.body ++ rest)) = _
  rw [formatAfter?, read_body]
  dsimp only [Directive.places?]
  rw [hdirective, field?_widthText]
  dsimp only
  rw [pad_eq_column]

section Literals

variable {n : Int} (hn : Number.fitsInt64 n = true)

/-- The text of an integer is a numeral for it. -/
theorem isNumeral_integerText (n : Int) : Script.IsNumeral true 10 (Number.integerText n) n := by
  rw [integerText_eq]
  by_cases hneg : n < 0
  · have hminus : Script.IsNumeral true 10 ('-' :: Number.digits n.natAbs) (-(n.natAbs : Int)) :=
      .minus rfl (denotes_digits n.natAbs)
    rw [show -(n.natAbs : Int) = n by omega] at hminus
    rw [decide_eq_true hneg]
    exact hminus
  · have hplain : Script.IsNumeral true 10 (Number.digits n.natAbs) (n.natAbs : Int) :=
      .plain (denotes_digits n.natAbs)
    rw [show (n.natAbs : Int) = n by omega] at hplain
    rw [decide_eq_false hneg]
    exact hplain

include hn in
theorem readInt64?_integerText : Number.readInt64? 10 (Number.integerText n) = some n :=
  (Script.readInt64?_eq_some_iff (by decide)).mpr ⟨isNumeral_integerText n, hn⟩

/-- The digits of an integer with its sign are one term for every reader. -/
theorem isTerm_integerText (n : Int) : IsTerm (Number.integerText n) := by
  -- An integer is written in digits with a minus sign at most.
  have hchars : ∀ c ∈ Number.integerText n, c = '-' ∨ c.isDigit = true := by
    have hdigits : ∀ c ∈ Number.digits n.natAbs, c = '-' ∨ c.isDigit = true :=
      fun c hc => .inr (Json.isDigit_of_mem_digits hc)
    unfold Number.integerText
    split
    · exact List.forall_mem_cons.mpr ⟨.inl rfl, hdigits⟩
    · exact hdigits
  have hnone {k : Char} (hk : k ≠ '-' ∧ k.isDigit = false) : k ∉ Number.integerText n := by
    intro hmem
    rcases hchars k hmem with h | h
    · exact hk.1 h
    · rw [hk.2] at h
      cases h
  have hskips {r : Reader} (hr : r ∈ Reader.ofLine ++ Reader.ofArguments) : r.Skips (Number.integerText n) := by
    apply Reader.Skips.of_ignores
    apply List.all_eq_true.mpr
    intro c hc
    rcases hchars c hc with rfl | hdigit
    · revert r
      decide
    · exact ignores_of_isNameChar (by simp [isNameChar, Char.isAlphanum, hdigit]) hr
  have hblank {c : Char} (hc : c ∈ Number.integerText n) : Text.isBlank c = false := by
    rcases hchars c hc with rfl | hdigit
    · decide
    · exact Number.isBlank_of_isDigit hdigit
  constructor
  · constructor
    · intro hnil
      have hlength := congrArg List.length hnil
      unfold Number.integerText at hlength
      split at hlength
      · cases hlength
      · exact Nat.toDigits_ne_nil (List.length_eq_zero_iff.mp hlength)
    · exact ⟨fun c hc => hblank (List.mem_of_mem_head? hc), fun c hc => hblank (List.mem_of_mem_getLast? hc)⟩
    · exact hnone (by decide)
    · exact fun r hr => hskips (List.mem_append_left _ hr)
    · exact fun hlast => hnone (k := ';') (by decide) (List.mem_of_mem_getLast? hlast)
  · exact fun r hr => hskips (List.mem_append_right _ hr)
  · -- Without an equals sign it is no keyword.
    have hequals : (Number.integerText n).dropWhile (· != '=') = [] := by
      apply List.dropWhile_eq_nil_iff.mpr
      intro c hc
      rw [bne_iff_ne]
      rintro rfl
      exact hnone (by decide) hc
    unfold keyword?
    rw [hequals]

/-- The digits of an integer with its sign are a literal for it. -/
theorem resolveWithin?_integerText (n : Int) (style : Style) (store : Store) (fuel : Nat) :
    resolveWithin? style store (fuel + 1) (Number.integerText n) = some (.number (Number.integerText n)) := by
  have htrim := (isTerm_integerText n).tight.trim_eq
  have hnumber := number?_integerText n
  obtain ⟨c, rest, hcons, hc⟩ : ∃ c rest, Number.integerText n = c :: rest ∧ (c = '-' ∨ c = '.' ∨ c.isDigit = true) := by
    obtain ⟨c, rest, hdigits, hc⟩ := Json.digits_eq_cons n.natAbs
    unfold Number.integerText
    split
    · exact ⟨'-', _, rfl, .inl rfl⟩
    · exact ⟨c, rest, hdigits, .inr (.inr hc)⟩
  rw [hcons] at htrim hnumber ⊢
  exact resolveWithin?_of_number? hc htrim hnumber style store fuel

end Literals

/-- Ways in which an argument comes to be an integer: as the literal of the integer, as a variable that a statement has
assigned one, unless it is declared as a floating number, and as a variable that has been read as an integer. -/
inductive Supplies (g : Grammar) (n : Int) : State → List Char → Prop where
  | literal (st : State) (hn : Number.fitsInt64 n = true) : Supplies g n st (Number.integerText n)
  | assigned {st st' : State} {statement name : List Char} {m : Match}
    (hsearch : g.assignment.search? statement = some m) (hname : m.get? "name" = some name)
    (htype : m.get? "type" ∉ [some "double".toList, some "float".toList])
    (hvalue : ∃ v, resolve? g.style st.store ((m.get? "value").getD []) = some v ∧ v.IsInteger n)
    (hassign : assign? g st statement = some st') (hlooked : IsLookedUp name) : Supplies g n st' name
  | read {st : State} {slot : Slot} {name : List Char} (hslot : slot.name = some name)
    (hconversion : slot.conversion = .integer)
    (hline : Number.readInt64? 10 (firstToken (st.stdin.lines.head?.getD "").toList) = some n)
    (hlooked : IsLookedUp name) : Supplies g n (st.fill g slot) name

namespace Supplies

variable {g : Grammar} {n : Int} {st : State} {term : List Char}

theorem isTerm (h : Supplies g n st term) : IsTerm term := by
  cases h with
  | literal _ => exact isTerm_integerText n
  | assigned _ _ _ _ _ hlooked => exact isTerm_of_isName hlooked.identifier
  | read _ _ _ hlooked => exact isTerm_of_isName hlooked.identifier

theorem fits (h : Supplies g n st term) : Number.fitsInt64 n = true := by
  have hread {ds : List Char} (h : Number.readInt64? 10 ds = some n) : Number.fitsInt64 n = true :=
    ((Script.readInt64?_eq_some_iff (by decide)).mp h).2
  cases h with
  | literal _ hn => exact hn
  | assigned _ _ _ hvalue =>
    obtain ⟨_, _, _, _, hds⟩ := hvalue
    exact hread hds
  | read _ _ hline => exact hread hline

theorem resolves_of_get? {style : Style} {store : Store} {name : List Char} {v : Literal} (hlooked : IsLookedUp name)
    (hget : store.get? name = some v) (hv : v.IsInteger n) :
    ∃ v, v.IsInteger n ∧ ∀ fuel, resolveWithin? style store (fuel + 1) name = some v :=
  ⟨v, hv, fun fuel => (resolveWithin?_of_isName hlooked style store fuel).trans hget⟩

/-- A term that supplies an integer resolves to it, whatever the fuel. -/
theorem resolves (h : Supplies g n st term) :
    ∃ v, v.IsInteger n ∧ ∀ fuel, resolveWithin? g.style st.store (fuel + 1) term = some v := by
  cases h with
  | literal _ hn =>
    exact ⟨_, ⟨_, rfl, readInt64?_integerText hn⟩, resolveWithin?_integerText n g.style st.store⟩
  | @assigned st _ statement name m hsearch hname htype hvalue hassign hlooked =>
    obtain ⟨v, hv, ds, rfl, hread⟩ := hvalue
    have htyped : typed g (m.get? "type") (.number ds) = .number ds := by
      simp only [List.mem_cons, List.not_mem_nil, or_false, not_or] at htype
      unfold typed
      rw [beq_eq_false_iff_ne.mpr htype.1, beq_eq_false_iff_ne.mpr htype.2]
      rfl
    unfold assign? at hassign
    rw [hsearch, Option.bind_some, hv, hname, Option.map_some, htyped] at hassign
    obtain rfl := Option.some.inj hassign
    refine resolves_of_get? hlooked (v := .number ds) ?_ ⟨ds, rfl, hread⟩
    change (st.store.put term (.number ds)).get? term = _
    rw [Store.get?_put, Function.update_self]
  | @read st slot name hslot hconversion hline hlooked =>
    have hvalue : convert g.style (st.stdin.lines.head?.getD "").toList .integer =
        .number (Number.integerText n) := by
      unfold convert
      dsimp only
      rw [hline]
    have hfits := ((Script.readInt64?_eq_some_iff (by decide)).mp hline).2
    rw [State.fill_eq, hslot, hconversion, hvalue]
    refine resolves_of_get? hlooked ?_ ⟨Number.integerText n, rfl, readInt64?_integerText hfits⟩
    change (st.store.put term (.number (Number.integerText n))).get? term = _
    rw [Store.get?_put, Function.update_self]

end Supplies

def formattedText : Scanned → List Char → List Char
  | .java, a => "System.out.printf(".toList ++ (a ++ [')'])
  | _, a => "printf(".toList ++ (a ++ [')'])

def formatArguments (format term : List Char) : List Char := literalOf format ++ ',' :: ' ' :: term

variable {l : Scanned} {a : List Char}

/-- Where no blank stands, no mark behind blanks does but the first character. -/
theorem not_leaves_blanks {c k : Char} (hc : Text.isBlank c = false) (hk : c ≠ k) {q : Pattern} {rest y : List Char} :
    ¬ (Pattern.both blanks (.both (Pattern.char k) q)).Leaves (c :: rest) y := by
  rintro ⟨z, ⟨passed, hpassed, hz⟩, hchar⟩
  cases passed with
  | nil =>
    obtain rfl : c :: rest = z := hz
    exact not_leaves_char hk hchar
  | cons d passed =>
    obtain ⟨rfl, -⟩ := List.cons.inj hz
    rw [hpassed c List.mem_cons_self] at hc
    cases hc

/-- The print rules find a formatted print, behind those that do not match it, and capture its arguments. -/
theorem exists_firstPrint?_formatted (hl : l ≠ .python) (ha : ∀ c ∈ a, (c != '\n') = true) :
    ∃ rule m, firstPrint? (formattedText l a) (grammarOf l).prints = some (rule, m) ∧
      rule.formatted = true ∧ m.get? "args" = some a := by
  have hcall := (Takes.char '(').before (Takes.captureUpTo "args" ')' ha rfl)
  cases l with
  | python => exact absurd rfl hl
  | java =>
    have hmethod := (Takes.first_word "printf" ["format"]).before ((Takes.no_blanks rfl).before hcall)
    have hstream := (Takes.first_word "out" ["err"]).before ((Takes.char '.').before hmethod)
    have htakes := (Takes.word "System.").before hstream
    refine ⟨_, _, (firstPrint?_cons_none rfl ?_).trans (firstPrint?_of_takes rfl htakes), rfl, rfl⟩
    have htext : formattedText .java a =
        "System.".toList ++ ("out".toList ++ ('.' :: ("print".toList ++ ('f' :: '(' :: (a ++ [')']))))) := by
      have hname : "System.out.printf(".toList =
          "System.".toList ++ ("out".toList ++ ('.' :: ("print".toList ++ ['f', '(']))) := by decide
      change "System.out.printf(".toList ++ (a ++ [')']) = _
      rw [hname]
      simp only [List.append_assoc, List.cons_append, List.nil_append]
    rw [htext]
    rintro y ⟨_, hsystem, _, hstream, _, ⟨c, hc, hpoint⟩, _, ⟨_, hprint, hline⟩, hcall⟩
    obtain rfl := List.append_cancel_left hsystem
    rcases hstream with hstream | hstream
    · obtain rfl := List.append_cancel_left hstream
      obtain ⟨-, rfl⟩ := List.cons.inj hpoint
      obtain rfl := List.append_cancel_left hprint
      -- The name of the method goes on where the other rule wants a parenthesis.
      rcases hline with hline | rfl
      · cases hline
      · exact not_leaves_blanks (by decide) (by decide) hcall
    · cases hstream
  | cpp =>
    have hname := (Takes.word "printf").before ((Takes.no_blanks rfl).before hcall)
    have htakes := Takes.before (p := Cpp.std) (x := []) (Takes.optional_none ?_) hname
    · refine ⟨_, _, (firstPrint?_cons_none rfl ?_).trans (firstPrint?_of_takes rfl htakes), rfl, rfl⟩
      rintro y ⟨_, hstd | hstd, _, hstream, -⟩
      · cases hstd
      · cases hstd
        rcases hstream with hstream | hstream <;> cases hstream
    · rintro z h
      cases h

/-- A formatted print is no statement that is passed over: it begins with another letter. -/
theorem formattedText_not_skipped (hl : l ≠ .python) (a : List Char) :
    ¬ (grammarOf l).skip.occursIn (formattedText l a) = true := by
  cases l with
  | python => exact absurd rfl hl
  | java =>
    refine not_occursIn_of_leaves ?_
    rintro y ⟨z, h | h, -⟩ <;> cases h
  | cpp =>
    refine not_occursIn_of_leaves ?_
    rintro y (⟨c, hc, h⟩ | ⟨z, h, -⟩)
    · cases h
      cases hc
    · cases h

theorem formattedText_ne_nil (l : Scanned) (a : List Char) : formattedText l a ≠ [] := by
  cases l <;> exact List.cons_ne_nil _ _

/-- A formatted print prints what its arguments make of the format, if they are known, and does nothing else. -/
theorem statement_formatted (hl : l ≠ .python) (ha : ∀ c ∈ a, (c != '\n') = true) (st : State) :
    State.statement (grammarOf l) st (formattedText l a) =
      match renderFormat? (grammarOf l).style st.store a with
      | some text => st.emit text
      | none => st := by
  obtain ⟨rule, m, hfirst, hformatted, hargs⟩ := exists_firstPrint?_formatted hl ha
  have hprinted : printed? (grammarOf l) st.store rule m = renderFormat? (grammarOf l).style st.store a := by
    unfold printed?
    rw [hformatted, hargs]
    rfl
  rw [statement_of_firstPrint? (formattedText_ne_nil l a) (formattedText_not_skipped hl a) hfirst]
  generalize printed? (grammarOf l) st.store rule m = shown at hprinted ⊢
  subst hprinted
  cases renderFormat? (grammarOf l).style st.store a <;> rfl

theorem newline_notMem_formatArguments (format : List Char) {term : List Char} (hterm : IsTerm term) :
    ∀ c ∈ formatArguments format term, (c != '\n') = true := by
  intro c hc
  rw [bne_iff_ne]
  rintro rfl
  rcases List.mem_append.mp hc with h | h
  · exact newline_notMem_literalOf format h
  · simp only [List.mem_cons, hterm.oneLine, or_false] at h
    rcases h with h | h <;> cases h

/-- A format that is one directive for an integer prints the argument in its column. -/
theorem renderFormat?_integer {g : Grammar} {st : State} {term : List Char} {n : Int} (d : IntegerDirective)
    (h : Supplies g n st term) :
    renderFormat? g.style st.store (formatArguments d.written term) = some (d.column (Number.throughFloat n)) := by
  have hterm := h.isTerm
  obtain ⟨v, hinteger, hv⟩ := h.resolves
  have hspace : (Reader.separator ',').Skips (' ' :: term) :=
    Reader.Skips.append (x := [' ']) (.of_ignores rfl) (hterm.inArguments _ (by simp [Reader.ofArguments]))
  have hformat : (Reader.separator ',').Skips (literalOf d.written) :=
    (isTerm_literalOf d.written).inArguments _ (by simp [Reader.ofArguments])
  have hspaced : resolve? g.style st.store (' ' :: term) = some v := by
    have htrim : Text.trim (' ' :: term) = term :=
      Text.Tight.trim_append (x := [' ']) (List.forall_mem_singleton.mpr rfl) hterm.tight
    exact (resolveWithin?_of_trim hterm.tight htrim g.style st.store _).trans (hv _)
  have hparts : splitTopLevel [','] (literalOf d.written ++ ',' :: ' ' :: term) =
      [literalOf d.written, ' ' :: term] := by
    have htexts : splitTopLevel [','] (List.intercalate [','] [literalOf d.written, ' ' :: term]) = _ :=
      splitTopLevel_intercalate rfl (List.cons_ne_nil _ _)
        (List.forall_mem_cons.mpr ⟨hformat, List.forall_mem_singleton.mpr hspace⟩)
    rwa [List.intercalate_cons_cons, List.intercalate_singleton, List.append_assoc, List.singleton_append] at htexts
  have hdirective := formatAfter?_written g.style d hinteger [] [] [] d.written.length
  unfold renderFormat? formatArguments
  rw [hparts]
  dsimp only
  rw [resolve?_literalOf, List.mapM_cons, hspaced, List.mapM_nil]
  dsimp only [Option.bind_eq_bind, Option.bind_some, Option.pure_def]
  rw [List.append_nil] at hdirective
  rw [hdirective]
  simp [formatAfter?, IntegerDirective.written]

/-- A formatted print of an integer prints it in a column, as the literal of the integer or as a variable that has been
assigned it or been read as it. The integer that is printed is the one that a floating number makes of it, so it is
the integer itself exactly if it is a multiple of the power of two with which 53 bits are left, or if it is the greatest
one. -/
theorem integers_are_printed_through_floats {l : Scanned} (hl : l ≠ .python) {n : Int} {st : State} {term : List Char}
    (h : Supplies (grammarOf l) n st term) (d : IntegerDirective) :
    State.statement (grammarOf l) st (formattedText l (formatArguments d.written term)) =
        st.emit (d.column (Number.throughFloat n)) ∧
      (Number.throughFloat n = n ↔ 2 ^ (n.natAbs.log2 - 52) ∣ n.natAbs ∨ n = 2 ^ 63 - 1) := by
  constructor
  · rw [statement_formatted hl (newline_notMem_formatArguments _ h.isTerm), renderFormat?_integer d h]
  · have hfits := h.fits
    simp only [Number.fitsInt64, Bool.and_eq_true, decide_eq_true_eq] at hfits
    have htwo : (Number.twoTo 63 : Int) = 2 ^ 63 := rfl
    exact Number.throughFloat_eq_self_iff (by omega) (by omega)

/-- Zeros make up the width behind the sign, and the last digit is not that of the integer. -/
theorem negative_column_is_rounded :
    Scanned.cpp ≠ .python ∧
      Supplies (grammarOf .cpp) (-9007199254740993) (State.start "") "-9007199254740993".toList ∧
      (State.statement (grammarOf .cpp) (State.start "")
          "printf(\"%020lld\", -9007199254740993)".toList).records = ["-0009007199254740992\n".toList] ∧
        ¬ (2 ^ ((-9007199254740993 : Int).natAbs.log2 - 52) ∣ (-9007199254740993 : Int).natAbs ∨
          (-9007199254740993 : Int) = 2 ^ 63 - 1) := by
  have hl : Scanned.cpp ≠ .python := by decide
  have hterm : Supplies (grammarOf .cpp) (-9007199254740993) (State.start "") "-9007199254740993".toList :=
    .literal _ (by decide +kernel)
  let d : IntegerDirective := ⟨['0'], 20, ['l', 'l'], 'd', by simp [isFlag], by decide, by simp [isSize], by simp⟩
  obtain ⟨hprinted, hexact⟩ := integers_are_printed_through_floats hl hterm d
  have hrounded : Number.throughFloat (-9007199254740993) = -9007199254740992 := by decide +kernel
  refine ⟨hl, hterm, ?_, ?_⟩
  · have htext : formattedText .cpp (formatArguments d.written "-9007199254740993".toList) =
        "printf(\"%020lld\", -9007199254740993)".toList := by
      decide +kernel
    rw [← htext, hprinted, hrounded]
    decide +kernel
  · rw [← hexact, hrounded]
    decide

/-- A directive does not print every integer of 64 bits exactly: the first integer beyond `2 ^ 53` is printed as that
power. -/
theorem printed_integer_is_rounded :
    (scan .cpp "int main() \x7b\nprintf(\"%lld\\n\", 9007199254740993);\n\x7d\n" ""
        (Budget.ofMilliseconds 5000)).output = some "9007199254740992\n" := by
  decide +kernel

end Snippet.Scan
