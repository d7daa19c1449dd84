import Snippet.Proofs.VariableName
import Snippet.Proofs.SourceLine
import Snippet.Script.BuiltinCall
import Snippet.Script.Expression

/-!
Numbers in the digits of a radix. Where a text is read as such a number as a whole, it is a run of digits of the
radix with at most one sign in front, and everything else is refused: in the escapes of literals, where scripts
convert texts, and in the terms that are scanned.
-/

namespace Snippet.Script

/-- A text of digits of a radix, of which there is at least one, and the number it denotes. Letters are small or
capital. -/
inductive Denotes (radix : Nat) : List Char → Nat → Prop where
  | digit {c : Char} {d : Nat} (hd : d < radix) (hc : c.toLower = digitChar d) : Denotes radix [c] d
  | more {s : List Char} {n d : Nat} {c : Char} (h : Denotes radix s n) (hd : d < radix)
    (hc : c.toLower = digitChar d) : Denotes radix (s ++ [c]) (n * radix + d)

inductive IsNumeral (signed : Bool) (radix : Nat) : List Char → Int → Prop where
  -- A numeral: digits with a plus sign or, among signed ones, a minus sign in front, or without a
  -- sign.
  | plain {s : List Char} {n : Nat} (h : Denotes radix s n) : IsNumeral signed radix s n
  | plus {s : List Char} {n : Nat} (h : Denotes radix s n) : IsNumeral signed radix ('+' :: s) n
  | minus {s : List Char} {n : Nat} (hsigned : signed = true) (h : Denotes radix s n) :
    IsNumeral signed radix ('-' :: s) (-n)

/-- The code of a character in lower case: that of a capital letter is 32 more. -/
theorem toNat_toLower (c : Char) :
    c.toLower.toNat = if 65 ≤ c.toNat ∧ c.toNat ≤ 90 then c.toNat + 32 else c.toNat := by
  have hA : ('A'.val ≤ c.val) = (65 ≤ c.toNat) := propext UInt32.le_iff_toNat_le
  have hZ : (c.val ≤ 'Z'.val) = (c.toNat ≤ 90) := propext UInt32.le_iff_toNat_le
  unfold Char.toLower
  by_cases h : 65 ≤ c.toNat ∧ c.toNat ≤ 90
  · have hval : c.val ≥ 'A'.val ∧ c.val ≤ 'Z'.val := by rwa [ge_iff_le, hA, hZ]
    rw [dif_pos hval, if_pos h]
    have hsum : c.toNat + 32 < UInt32.size := Nat.lt_of_le_of_lt (Nat.add_le_add_right h.2 32) (by decide)
    exact (UInt32.toNat_add c.val ('a'.val - 'A'.val)).trans (Nat.mod_eq_of_lt hsum)
  · have hval : ¬ (c.val ≥ 'A'.val ∧ c.val ≤ 'Z'.val) := by rwa [ge_iff_le, hA, hZ]
    rw [dif_neg hval, if_neg h]

theorem toNat_digitChar : ∀ d < 36, (digitChar d).toNat = if d < 10 then 48 + d else 87 + d := by decide

/-- A character is read as the digit that it is written as. -/
theorem digitValue?_eq_some_iff {radix d : Nat} (hradix : radix ≤ 36) {c : Char} :
    Number.digitValue? radix c = some d ↔ d < radix ∧ c.toLower = digitChar d := by
  have hle (x y : Char) : (x ≤ y) = (x.toNat ≤ y.toNat) := propext UInt32.le_iff_toNat_le
  have hlower := toNat_toLower c
  constructor
  · intro h
    obtain ⟨hvalue, hless⟩ := Option.filter_eq_some_iff.mp h
    have hd : d < radix := of_decide_eq_true hless
    have hdigit := toNat_digitChar d (Nat.lt_of_lt_of_le hd hradix)
    -- Both characters are compared by their codes.
    refine ⟨hd, Char.toNat_inj.mp ?_⟩
    rw [hlower, hdigit]
    simp only [hle, Char.reduceToNat] at hvalue
    grind
  · rintro ⟨hd, hc⟩
    have hdigit := toNat_digitChar d (Nat.lt_of_lt_of_le hd hradix)
    rw [← hc, hlower] at hdigit
    refine Option.filter_eq_some_iff.mpr ⟨?_, decide_eq_true hd⟩
    simp only [hle, Char.reduceToNat]
    grind

/-- The value of a numeral with one digit more. -/
theorem digitsValue?_append (radix acc : Nat) (s : List Char) (c : Char) :
    Number.digitsValue? radix acc (s ++ [c]) =
      (Number.digitsValue? radix acc s).bind fun n => (Number.digitValue? radix c).map (n * radix + ·) := by
  induction s generalizing acc with
  | nil =>
    cases hdigit : Number.digitValue? radix c with
    | none => simp [Number.digitsValue?, hdigit]
    | some d => simp [Number.digitsValue?, hdigit]
  | cons x rest ih =>
    rw [List.cons_append, Number.digitsValue?, Number.digitsValue?]
    cases Number.digitValue? radix x with
    | none => rfl
    | some d => exact ih _

theorem Denotes.ne_nil {radix n : Nat} {s : List Char} (h : Denotes radix s n) : s ≠ [] := by
  cases h with
  | digit => exact List.cons_ne_nil _ _
  | more => exact List.append_ne_nil_of_right_ne_nil _ (List.cons_ne_nil _ _)

/-- Digits are read as the number that they denote; by induction from their end. -/
theorem denotes_iff {radix n : Nat} (hradix : radix ≤ 36) {s : List Char} :
    Denotes radix s n ↔ s ≠ [] ∧ Number.digitsValue? radix 0 s = some n := by
  constructor
  · intro h
    refine ⟨h.ne_nil, ?_⟩
    induction h with
    | digit hd hc =>
      have hdigit := (digitValue?_eq_some_iff hradix).mpr ⟨hd, hc⟩
      simp [Number.digitsValue?, hdigit]
    | more _ hd hc ih =>
      rw [digitsValue?_append, ih, (digitValue?_eq_some_iff hradix).mpr ⟨hd, hc⟩]
      rfl
  · rintro ⟨hne, hvalue⟩
    induction s using List.reverseRecOn generalizing n with
    | nil => exact absurd rfl hne
    | append_singleton s c ih =>
      rw [digitsValue?_append] at hvalue
      obtain ⟨m, hm, hlast⟩ := Option.bind_eq_some_iff.mp hvalue
      obtain ⟨d, hd, rfl⟩ := Option.map_eq_some_iff.mp hlast
      obtain ⟨hless, hc⟩ := (digitValue?_eq_some_iff hradix).mp hd
      by_cases hs : s = []
      · subst hs
        obtain rfl : 0 = m := Option.some.inj hm
        rw [Nat.zero_mul, Nat.zero_add]
        exact .digit hless hc
      · exact .more (ih hs hm) hless hc

/-- Neither sign is a digit. -/
theorem not_denotes_sign {radix n : Nat} (hradix : radix ≤ 36) {c : Char} (hc : c = '+' ∨ c = '-')
    (s : List Char) : ¬ Denotes radix (c :: s) n := by
  intro h
  have hvalue := ((denotes_iff hradix).mp h).2
  have hnone : Number.digitValue? radix c = none := by
    rcases hc with rfl | rfl
    · rfl
    · rfl
  rw [Number.digitsValue?, hnone] at hvalue
  cases hvalue

-- Numerals. What the two readers accept is what a numeral denotes, as far as it fits.

/-- Without a sign a numeral is a run of digits of its radix. -/
theorem isNumeral_of_plain {signed : Bool} {radix : Nat} {s : List Char} {i : Int}
    (hplus : ∀ rest, s ≠ '+' :: rest) (hminus : ∀ rest, s ≠ '-' :: rest) :
    IsNumeral signed radix s i ↔ ∃ n : Nat, i = n ∧ Denotes radix s n := by
  constructor
  · intro h
    cases h with
    | plain h => exact ⟨_, rfl, h⟩
    | plus _ => exact absurd rfl (hplus _)
    | minus _ _ => exact absurd rfl (hminus _)
  · rintro ⟨n, rfl, h⟩
    exact .plain h

/-- A plus sign may stand in front of the digits. -/
theorem isNumeral_plus {signed : Bool} {radix : Nat} (hradix : radix ≤ 36) {s : List Char} {i : Int} :
    IsNumeral signed radix ('+' :: s) i ↔ ∃ n : Nat, i = n ∧ Denotes radix s n := by
  constructor
  · intro h
    cases h with
    | plain h => exact absurd h (not_denotes_sign hradix (.inl rfl) s)
    | plus h => exact ⟨_, rfl, h⟩
  · rintro ⟨n, rfl, h⟩
    exact .plus h

/-- A minus sign may stand in front of the digits where numbers have a sign. -/
theorem isNumeral_minus {signed : Bool} {radix : Nat} (hradix : radix ≤ 36) {s : List Char} {i : Int} :
    IsNumeral signed radix ('-' :: s) i ↔ signed = true ∧ ∃ n : Nat, i = -n ∧ Denotes radix s n := by
  constructor
  · intro h
    cases h with
    | plain h => exact absurd h (not_denotes_sign hradix (.inr rfl) s)
    | minus hsigned h => exact ⟨hsigned, _, rfl, h⟩
  · rintro ⟨hsigned, n, rfl, h⟩
    exact .minus hsigned h

/-- Digits of which there must be one. -/
theorem digits_eq_some_iff {radix n : Nat} (hradix : radix ≤ 36) {s : List Char} :
    (if s.isEmpty then none else Number.digitsValue? radix 0 s) = some n ↔ Denotes radix s n := by
  rw [denotes_iff hradix]
  cases s with
  | nil => simp
  | cons c rest => simp

/-- A word is read exactly from a numeral without a minus sign whose value has room in it. -/
theorem readWord?_eq_some_iff {bits radix n : Nat} (hradix : radix ≤ 36) {s : List Char} :
    Number.readWord? bits radix s = some n ↔ IsNumeral false radix s n ∧ n < 2 ^ bits := by
  have hbody (body : List Char) :
      (if body.isEmpty then none else (Number.digitsValue? radix 0 body).filter (· < Number.twoTo bits)) =
          some n ↔ Denotes radix body n ∧ n < 2 ^ bits := by
    rw [← digits_eq_some_iff hradix]
    split
    · simp
    · exact Option.filter_eq_some_iff.trans (and_congr_right fun _ => decide_eq_true_iff)
  have hvalue {body : List Char} : (∃ m : Nat, (n : Int) = m ∧ Denotes radix body m) ↔ Denotes radix body n :=
    ⟨fun ⟨m, hm, h⟩ => Int.ofNat.inj hm ▸ h, fun h => ⟨n, rfl, h⟩⟩
  unfold Number.readWord?
  dsimp only
  rw [hbody]
  split
  · rw [isNumeral_plus hradix, hvalue]
  · next hplus =>
    -- A minus sign in front is no digit either, as no signed number is read.
    by_cases hminus : ∃ rest, s = '-' :: rest
    · obtain ⟨rest, rfl⟩ := hminus
      rw [isNumeral_minus hradix]
      simp [not_denotes_sign hradix]
    · rw [isNumeral_of_plain hplus fun rest h => hminus ⟨rest, h⟩, hvalue]

/-- An integer of digits with a sign, if it fits. -/
theorem signed_eq_some_iff {radix : Nat} (hradix : radix ≤ 36) (fits : Int → Bool) (negative : Bool)
    {s : List Char} {i : Int} :
    (if s.isEmpty then none
      else
        match Number.digitsValue? radix 0 s with
        | none => none
        | some n =>
          let value : Int := if negative then -(n : Int) else n
          if fits value then some value else none) = some i ↔
      (∃ n : Nat, i = (if negative then -(n : Int) else n) ∧ Denotes radix s n) ∧ fits i = true := by
  simp only [← digits_eq_some_iff hradix]
  split
  · simp
  · cases Number.digitsValue? radix 0 s with
    | none => simp
    | some n =>
      dsimp only
      split <;> grind

/-- A signed number is read exactly from a numeral whose value has room in 64 bits. -/
theorem readInt64?_eq_some_iff {radix : Nat} (hradix : radix ≤ 36) {s : List Char} {i : Int} :
    Number.readInt64? radix s = some i ↔ IsNumeral true radix s i ∧ Number.fitsInt64 i = true := by
  unfold Number.readInt64?
  dsimp only
  split
  · exact (signed_eq_some_iff hradix Number.fitsInt64 true).trans (by rw [isNumeral_minus hradix]; simp)
  · exact (signed_eq_some_iff hradix Number.fitsInt64 false).trans (by rw [isNumeral_plus hradix]; simp)
  · next hminus hplus =>
    exact (signed_eq_some_iff hradix Number.fitsInt64 false).trans
      (by rw [isNumeral_of_plain hplus hminus]; simp)

/-- What is read is either a numeral that fits, and comes to what its value gives, or it is none, and is refused. -/
def ReadsNumeral {ρ : Type} (signed : Bool) (radix : Nat) (fits : Int → Prop) (s : List Char) (outcome : ρ)
    (accepted : Int → ρ) (refused : ρ) : Prop :=
  (∃ i, IsNumeral signed radix s i ∧ fits i ∧ outcome = accepted i) ∨
    (∀ i, IsNumeral signed radix s i → ¬ fits i) ∧ outcome = refused

theorem IsNumeral.of_unsigned {radix : Nat} {s : List Char} {i : Int} (h : IsNumeral false radix s i) :
    ∃ n : Nat, i = n := by
  cases h with
  | plain _ => exact ⟨_, rfl⟩
  | plus _ => exact ⟨_, rfl⟩
  | minus hsigned _ => cases hsigned

/-- The text of an escape behind its backslash, with the code that it gives: two characters, four characters, or
those in front of a closing brace. -/
inductive CodeEscape : List Char → List Char → Prop where
  | short {hex : List Char} (h : hex.length = 2) : CodeEscape hex ('x' :: hex)
  | long {hex : List Char} (h : hex.length = 4) (hbrace : hex.head? ≠ some '{') : CodeEscape hex ('u' :: hex)
  | braced {hex : List Char} (h : '}' ∉ hex) : CodeEscape hex ('u' :: '{' :: (hex ++ ['}']))

inductive CutOffEscape : List Char → List Char → Prop where
  | short {hex : List Char} (h : hex.length < 2) : CutOffEscape hex ('x' :: hex)
  | long {hex : List Char} (h : hex.length < 4) (hbrace : hex.head? ≠ some '{') : CutOffEscape hex ('u' :: hex)
  | braced {hex : List Char} (h : '}' ∉ hex) : CutOffEscape hex ('u' :: '{' :: hex)

/-- An escape stands for a character exactly if its digits are a numeral of a valid code point. -/
theorem codePoint?_eq_some_iff {hex : List Char} {c : Char} :
    codePoint? hex = some c ↔ ∃ n : Nat, IsNumeral false 16 hex n ∧ n.isValidChar ∧ c = Char.ofNat n := by
  unfold codePoint?
  rw [Option.bind_eq_some_iff]
  constructor
  · rintro ⟨n, hword, hc⟩
    obtain ⟨hvalid, hc⟩ := (Option.ite_none_right_eq_some).mp hc
    exact ⟨n, ((readWord?_eq_some_iff (by decide)).mp hword).1, hvalid, (Option.some.inj hc).symm⟩
  · rintro ⟨n, hnumeral, hvalid, rfl⟩
    have hfits : n < 2 ^ 32 := by
      unfold Nat.isValidChar at hvalid
      omega
    exact ⟨n, (readWord?_eq_some_iff (by decide)).mpr ⟨hnumeral, hfits⟩, if_pos hvalid⟩

def codeAt (hex : List Char) (after : Here) : Lexed (Option Char) :=
  match codePoint? hex with
  | some c => .ok (some c, after)
  | none => after.fail .invalidEscape

theorem skip_append (hex rest : List Char) (line : Nat) :
    (⟨hex ++ rest, line⟩ : Here).skip hex.length = ⟨rest, line + newlines hex⟩ := by
  unfold Here.skip
  rw [List.drop_left, List.take_left, Here.lineAfterText_eq]

theorem lexCode_append {n : Nat} {hex : List Char} (hn : hex.length = n) (rest : List Char) (line : Nat) :
    lexCode n ⟨hex ++ rest, line⟩ = codeAt hex ⟨rest, line + newlines hex⟩ := by
  subst hn
  unfold lexCode
  dsimp only
  rw [skip_append, List.take_left]
  rfl

theorem takeWhile_ne_append {hex : List Char} (h : '}' ∉ hex) (rest : List Char) :
    (hex ++ '}' :: rest).takeWhile (· != '}') = hex := by
  rw [List.takeWhile_append_of_pos, List.takeWhile_cons_of_neg (by decide), List.append_nil]
  intro c hc
  exact bne_iff_ne.mpr fun heq => h (heq ▸ hc)

theorem lexBracedCode_append {hex : List Char} (h : '}' ∉ hex) (rest : List Char) (line : Nat) :
    lexBracedCode ⟨hex ++ '}' :: rest, line⟩ = codeAt hex ⟨rest, line + newlines hex⟩ := by
  have hskip : (⟨hex ++ '}' :: rest, line⟩ : Here).skip (hex.length + 1) = ⟨rest, line + newlines hex⟩ := by
    have hpart := skip_append (hex ++ ['}']) rest line
    rwa [List.append_assoc, List.length_append, Here.newlines_append] at hpart
  unfold lexBracedCode
  dsimp only
  rw [takeWhile_ne_append h, hskip]
  rfl

/-- An escape comes to what its code does. -/
theorem CodeEscape.lexEscape_eq {hex text : List Char} (h : CodeEscape hex text) (rest : List Char) (line : Nat) :
    lexEscape ⟨text ++ rest, line⟩ = codeAt hex ⟨rest, line + newlines text⟩ := by
  cases h with
  | short hlength =>
    have hlines : newlines ('x' :: hex) = newlines hex := List.count_cons_of_ne (by decide)
    rw [hlines]
    exact lexCode_append hlength rest line
  | long hlength hbrace =>
    have hlines : newlines ('u' :: hex) = newlines hex := List.count_cons_of_ne (by decide)
    have hhead : (hex ++ rest).head? ≠ some '{' := by
      cases hex with
      | nil => cases hlength
      | cons c more => exact hbrace
    rw [hlines, ← lexCode_append hlength rest line]
    exact lexEscape_long hhead line
  | braced hclosing =>
    have hlines : newlines ('u' :: '{' :: (hex ++ ['}'])) = newlines hex := by
      unfold newlines
      rw [List.count_cons_of_ne (by decide), List.count_cons_of_ne (by decide), List.count_append]
      rfl
    rw [hlines, ← lexBracedCode_append hclosing rest line]
    exact congrArg (fun more => lexBracedCode ⟨more, line⟩) (List.append_assoc hex ['}'] rest)

/-- A literal goes on behind an escape with the character whose code it gives. -/
theorem CodeEscape.reads {ρ : Type} {hex text : List Char} (h : CodeEscape hex text) (rest : List Char) (line : Nat)
    (go : Option Char → Here → Except SyntaxFault ρ) :
    ReadsNumeral false 16 (fun i => i.toNat.isValidChar) hex
      (match lexEscape ⟨text ++ rest, line⟩ with
        | .ok (c, after) => go c after
        | .error e => .error e)
      (fun i => go (some (Char.ofNat i.toNat)) ⟨rest, line + newlines text⟩)
      (.error ⟨.invalidEscape, line + newlines text⟩) := by
  rw [h.lexEscape_eq, codeAt]
  cases hcode : codePoint? hex with
  | some c =>
    obtain ⟨n, hnumeral, hvalid, rfl⟩ := codePoint?_eq_some_iff.mp hcode
    exact .inl ⟨n, hnumeral, hvalid, rfl⟩
  | none =>
    refine .inr ⟨fun i hnumeral hvalid => ?_, rfl⟩
    obtain ⟨n, rfl⟩ := hnumeral.of_unsigned
    rw [codePoint?_eq_some_iff.mpr ⟨n, hnumeral, hvalid, rfl⟩] at hcode
    cases hcode

/-- Behind the beginning of an escape nothing is left. -/
theorem CutOffEscape.rest_eq {hex text : List Char} (h : CutOffEscape hex text) {line : Nat} {x : Option Char}
    {after : Here} (hlex : lexEscape ⟨text, line⟩ = .ok (x, after)) : after.rest = [] := by
  have hcode {n : Nat} (hn : hex.length < n) (hlex : lexCode n ⟨hex, line⟩ = .ok (x, after)) :
      after.rest = [] := by
    unfold lexCode at hlex
    dsimp only at hlex
    split at hlex
    · cases hlex
      exact List.drop_eq_nil_of_le (Nat.le_of_lt hn)
    · cases hlex
  cases h with
  | short hlength => exact hcode hlength hlex
  | long hlength hbrace => exact hcode hlength (lexEscape_long hbrace line ▸ hlex)
  | braced hclosing =>
    have hall : hex.takeWhile (· != '}') = hex :=
      List.takeWhile_eq_self_iff.mpr fun c hc => bne_iff_ne.mpr fun heq => hclosing (heq ▸ hc)
    change lexBracedCode ⟨hex, line⟩ = .ok (x, after) at hlex
    unfold lexBracedCode at hlex
    dsimp only at hlex
    rw [hall] at hlex
    split at hlex
    · cases hlex
      exact List.drop_eq_nil_of_le (Nat.le_succ _)
    · cases hlex

/-- A literal does not end behind the beginning of an escape. -/
theorem CutOffEscape.fails {ρ : Type} {hex text : List Char} (h : CutOffEscape hex text) (line : Nat)
    (go : Option Char → Here → Except SyntaxFault ρ) (hgo : ∀ c line, ∃ e, go c ⟨[], line⟩ = .error e) :
    ∃ e, (match lexEscape ⟨text, line⟩ with
      | .ok (c, after) => go c after
      | .error e => .error e) = .error e := by
  cases hlex : lexEscape ⟨text, line⟩ with
  | error e => exact ⟨e, rfl⟩
  | ok x =>
    obtain ⟨c, rest, line'⟩ := x
    obtain rfl : rest = [] := h.rest_eq hlex
    exact hgo c line'

def radixMarks : List (List Char × Nat) :=
  [(['0', 'x'], 16), (['0', 'X'], 16), (['0', 'b'], 2), (['0', 'B'], 2), (['0', 'o'], 8), (['0', 'O'], 8)]

theorem radixMarks_le : ∀ m ∈ radixMarks, m.2 ≤ 36 := by decide

theorem numberOfText_mark {mark digits : List Char} {radix : Nat} (hmark : (mark, radix) ∈ radixMarks) {s : String}
    (hs : Text.trim s.toList = mark ++ digits) : numberOfText s = radixNumber radix digits := by
  unfold numberOfText
  rw [hs]
  simp only [radixMarks, List.mem_cons, List.not_mem_nil, or_false, Prod.mk.injEq] at hmark
  rcases hmark with ⟨rfl, rfl⟩ | ⟨rfl, rfl⟩ | ⟨rfl, rfl⟩ | ⟨rfl, rfl⟩ | ⟨rfl, rfl⟩ | ⟨rfl, rfl⟩ <;> rfl

/-- Digits behind a radix prefix denote their value if it has room in 64 bits, and no number otherwise. -/
theorem radixNumber_reads {radix : Nat} (hradix : radix ≤ 36) (digits : List Char) :
    ReadsNumeral false radix (fun i => i.toNat < 2 ^ 64) digits (radixNumber radix digits)
      (fun i => (UInt64.ofNat i.toNat).toFloat) Number.nan := by
  unfold radixNumber
  cases hword : Number.readWord? 64 radix digits with
  | some n =>
    obtain ⟨hnumeral, hless⟩ := (readWord?_eq_some_iff hradix).mp hword
    exact .inl ⟨n, hnumeral, hless, rfl⟩
  | none =>
    refine .inr ⟨fun i hnumeral hless => ?_, rfl⟩
    obtain ⟨n, rfl⟩ := hnumeral.of_unsigned
    rw [(readWord?_eq_some_iff hradix).mpr ⟨hnumeral, hless⟩] at hword
    cases hword

section Terms

open Scan

/-- A term that begins as a hexadecimal number, perhaps a negative one, with what is written in front of the number
and with its digits: separators and the letters of a type are left out. -/
inductive HexTerm : List Char → List Char → List Char → Prop where
  | plain {term raw : List Char} {x : Char} (hx : x = 'x' ∨ x = 'X') (h : Text.trim term = '0' :: x :: raw) :
    HexTerm term [] (ungroup (Text.dropEndWhile (fun c => "LluU".toList.contains c) raw))
  | negated {term raw blanks : List Char} {x : Char} (hx : x = 'x' ∨ x = 'X')
    (hblanks : ∀ c ∈ blanks, Text.isBlank c = true) (h : Text.trim term = '-' :: (blanks ++ '0' :: x :: raw)) :
    HexTerm term ['-'] (ungroup (Text.dropEndWhile (fun c => "LluU".toList.contains c) raw))

theorem dropStart?_hex {x : Char} (hx : x = 'x' ∨ x = 'X') (raw : List Char) :
    (dropStart? "0x".toList ('0' :: x :: raw)).or (dropStart? "0X".toList ('0' :: x :: raw)) = some raw := by
  rcases hx with rfl | rfl <;> rfl

theorem HexTerm.number?_eq {term sign digits : List Char} (h : HexTerm term sign digits) :
    number? (Text.trim term) = (Number.readInt64? 16 digits).map fun n => sign ++ Number.integerText n := by
  cases h with
  | plain hx hterm =>
    rw [hterm]
    rcases hx with rfl | rfl
    · rfl
    · rfl
  | @negated raw blanks x hx hblanks hterm =>
    have hzero : Text.trimStart (blanks ++ '0' :: x :: raw) = '0' :: x :: raw := by
      unfold Text.trimStart
      rw [List.dropWhile_append_of_pos hblanks]
      rfl
    rw [hterm]
    simp only [number?, hzero, dropStart?_hex hx]

/-- The first character of such a term. -/
theorem HexTerm.first {term sign digits : List Char} (h : HexTerm term sign digits) :
    ∃ c more, Text.trim term = c :: more ∧ (c = '0' ∨ c = '-') := by
  cases h with
  | plain _ hterm => exact ⟨_, _, hterm, .inl rfl⟩
  | negated _ _ hterm => exact ⟨_, _, hterm, .inr rfl⟩

theorem firstWrapped?_of_ne {c : Char} {more : List Char} {wrappers : List String}
    (h : ∀ w ∈ wrappers, ∃ d rest, w.toList = d :: rest ∧ d ≠ c) : firstWrapped? (c :: more) wrappers = none := by
  induction wrappers with
  | nil => rfl
  | cons w wrappers ih =>
    obtain ⟨⟨d, rest, hw, hne⟩, hwrappers⟩ := List.forall_mem_cons.mp h
    unfold firstWrapped? wrapped?
    rw [hw, dropStart?_of_ne hne]
    exact ih hwrappers

/-- The names of conversions are no numbers. -/
theorem wrappers_begin (l : Scanned) {c : Char} (hc : c = '0' ∨ c = '-') :
    ∀ w ∈ (grammarOf l).style.wrappers, ∃ d rest, w.toList = d :: rest ∧ d ≠ c := by
  have hletter {d : Char} {rest : List Char} {w : String} (hw : w.toList = d :: rest)
      (hd : d ≠ '0' ∧ d ≠ '-') : ∃ d rest, w.toList = d :: rest ∧ d ≠ c := by
    refine ⟨d, rest, hw, ?_⟩
    rcases hc with rfl | rfl
    · exact hd.1
    · exact hd.2
  intro w hw
  cases l with
  | python =>
    obtain rfl : w = "str" := List.mem_singleton.mp hw
    exact hletter rfl (by decide)
  | java =>
    have hmem : w ∈ ["String.valueOf", "Integer.toString", "Double.toString"] := hw
    simp only [List.mem_cons, List.not_mem_nil, or_false] at hmem
    rcases hmem with rfl | rfl | rfl
    · exact hletter rfl (by decide)
    · exact hletter rfl (by decide)
    · exact hletter rfl (by decide)
  | cpp =>
    have hmem : w ∈ ["to_string", "std::to_string"] := hw
    simp only [List.mem_cons, List.not_mem_nil, or_false] at hmem
    rcases hmem with rfl | rfl
    · exact hletter rfl (by decide)
    · exact hletter rfl (by decide)

theorem literalWord?_of_first {c : Char} {more : List Char} (hc : c = '0' ∨ c = '-') :
    literalWord? (c :: more) = none := by
  rcases hc with rfl | rfl <;> simp [literalWord?]

/-- A term that begins as a hexadecimal number has no other value. -/
theorem HexTerm.resolve?_eq {term sign digits : List Char} (h : HexTerm term sign digits) (l : Scanned)
    (store : Store) :
    resolve? (grammarOf l).style store term =
      (Number.readInt64? 16 digits).map fun n => .number (sign ++ Number.integerText n) := by
  obtain ⟨c, more, hterm, hc⟩ := h.first
  have hnumber := h.number?_eq
  rw [hterm] at hnumber
  have hquoted : quoted? (c :: more) = none := by
    unfold quoted?
    rcases hc with rfl | rfl <;> rfl
  have htemplate : ((grammarOf l).style.interpolates && (c == 'f' || c == 'F')) = false := by
    rcases hc with rfl | rfl <;> exact Bool.and_false _
  have hparenthesis : dropStart? ['('] (c :: more) = none :=
    dropStart?_of_ne (by rcases hc with rfl | rfl <;> decide) _ _
  have hname : isName (c :: more) = false := by
    rcases hc with rfl | rfl <;> rfl
  -- None of the other forms of a term begins with a digit or a minus sign.
  unfold resolve?
  rw [resolveWithin?, hterm]
  simp only [List.isEmpty_cons, Bool.false_eq_true, if_false, hquoted, htemplate, hnumber]
  cases Number.readInt64? 16 digits with
  | some n => rfl
  | none =>
    simp only [Option.map_none, literalWord?_of_first hc, hparenthesis, Option.bind_none,
      firstWrapped?_of_ne (wrappers_begin l hc), hname, Bool.false_eq_true, if_false]

/-- A hexadecimal term stands for its value, with its sign, exactly if its digits are a numeral with room in
64 bits. -/
theorem HexTerm.reads {term sign digits : List Char} (h : HexTerm term sign digits) (l : Scanned) (store : Store) :
    ReadsNumeral true 16 (fun i => Number.fitsInt64 i = true) digits (resolve? (grammarOf l).style store term)
      (fun i => some (.number (sign ++ Number.integerText i))) none := by
  rw [h.resolve?_eq]
  cases hread : Number.readInt64? 16 digits with
  | some i =>
    obtain ⟨hnumeral, hfits⟩ := (readInt64?_eq_some_iff (by decide)).mp hread
    exact .inl ⟨i, hnumeral, hfits, rfl⟩
  | none =>
    refine .inr ⟨fun i hnumeral hfits => ?_, rfl⟩
    rw [(readInt64?_eq_some_iff (by decide)).mpr ⟨hnumeral, hfits⟩] at hread
    cases hread

/-- Wherever the digits of a radix are read as a whole, a numeral in range is accepted and everything else is
refused: a literal with such an escape is none, a text becomes no number and a term has no value. A numeral is one or
more digits behind at most one sign, so without a sign nothing but digits is accepted; only the scanned terms may
have a minus sign there. -/
theorem only_numerals_are_accepted (d : List Char) :
    (∀ text, CodeEscape d text → ∀ rest line fuel,
      (∀ quote done, ReadsNumeral false 16 (fun i => i.toNat.isValidChar) d
        (lexStringFrom quote done (fuel + 1) ⟨'\\' :: (text ++ rest), line⟩)
        (fun i => lexStringFrom quote (Char.ofNat i.toNat :: done) fuel ⟨rest, line + newlines text⟩)
        (.error ⟨.invalidEscape, line + newlines text⟩)) ∧
      ∀ inside chunks, ReadsNumeral false 16 (fun i => i.toNat.isValidChar) d
        (lexTemplateFrom inside chunks (fuel + 1) ⟨'\\' :: (text ++ rest), line⟩)
        (fun i => lexTemplateFrom (Char.ofNat i.toNat :: inside) chunks fuel ⟨rest, line + newlines text⟩)
        (.error ⟨.invalidEscape, line + newlines text⟩)) ∧
    (∀ text, CutOffEscape d text → ∀ line fuel,
      (∀ quote done, ∃ e, lexStringFrom quote done fuel ⟨'\\' :: text, line⟩ = .error e) ∧
      ∀ inside chunks, ∃ e, lexTemplateFrom inside chunks fuel ⟨'\\' :: text, line⟩ = .error e) ∧
    (∀ mark radix, (mark, radix) ∈ radixMarks → ∀ s, Text.trim s.toList = mark ++ d →
      ∃ x, ReadsNumeral false radix (fun i => i.toNat < 2 ^ 64) d x (fun i => (UInt64.ofNat i.toNat).toFloat)
          Number.nan ∧
        (∀ m, Run.convertToNumber [.string s] m = .ok (.number x) m) ∧
        ∀ ev scope operand m m', ev.eval operand scope m = .ok (.string s) m' →
          Run.evalUnary ev scope .plus operand m = .ok (.number x) m') ∧
    ∀ term sign, HexTerm term sign d → ∀ l store,
      ReadsNumeral true 16 (fun i => Number.fitsInt64 i = true) d (resolve? (grammarOf l).style store term)
        (fun i => some (.number (sign ++ Number.integerText i))) none := by
  refine ⟨fun text h rest line fuel => ⟨fun quote done => ?_, fun inside chunks => ?_⟩, fun text h line fuel => ?_,
    fun mark radix hmark s hs => ?_, fun term sign h l store => h.reads l store⟩
  · exact h.reads rest line (fun c after => lexStringFrom quote (consOption c done) fuel after)
  · exact h.reads rest line (fun c after => lexTemplateFrom (consOption c inside) chunks fuel after)
  · -- Out of rounds there is a fault in any case.
    cases fuel with
    | zero => exact ⟨fun _ _ => ⟨_, rfl⟩, fun _ _ => ⟨_, rfl⟩⟩
    | succ fuel =>
      refine ⟨fun quote done => ?_, fun inside chunks => ?_⟩
      · exact h.fails line (fun c after => lexStringFrom quote (consOption c done) fuel after) fun _ _ => by
          cases fuel <;> exact ⟨_, rfl⟩
      · exact h.fails line (fun c after => lexTemplateFrom (consOption c inside) chunks fuel after) fun _ _ => by
          cases fuel <;> exact ⟨_, rfl⟩
  · refine ⟨numberOfText s, ?_, fun _ => rfl, fun ev scope operand m m' heval => ?_⟩
    · rw [numberOfText_mark hmark hs]
      exact radixNumber_reads (radixMarks_le _ hmark) d
    · exact run_bind_ok heval

/-- A sign is taken for a digit: of the two digits of a code, among those of a number and in a scanned term. -/
theorem sign_is_no_digit :
    (∀ n, ¬ Denotes 16 ['+', '1'] n) ∧
      lexStringFrom '\'' [] 8 ⟨"\\x+1'".toList, 1⟩ = .ok (.string "\x01", ⟨[], 1⟩) ∧
      (∀ n, ¬ Denotes 16 "+1F".toList n) ∧ numberOfText "0x+1F" = 31 ∧
      (∀ n, ¬ Denotes 16 "-1F".toList n) ∧
      resolve? (grammarOf .python).style [] "0x-1F".toList = some (.number "-31".toList) := by
  have hdigits (c : Char) (hc : c = '+' ∨ c = '-') (s : List Char) : ∀ n, ¬ Denotes 16 (c :: s) n :=
    fun _ => not_denotes_sign (by decide) hc s
  exact ⟨hdigits _ (.inl rfl) _, rfl, hdigits _ (.inl rfl) _, rfl, hdigits _ (.inr rfl) _, rfl⟩

end Terms

end Snippet.Script
