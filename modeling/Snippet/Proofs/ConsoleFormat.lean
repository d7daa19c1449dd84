import Snippet.Script.BuiltinCall

/-!
What the directives of a format string do with the values behind it. A format string is cut into its parts in
one way only: characters, doubled percent signs and directives. Written with values, each directive takes the
next value as long as there is one, all other parts stand for themselves, and the values that are left over
follow behind.
-/

namespace Snippet.Script

inductive FormatPart where
  /-- A character that stands for itself. -/
  | char (c : Char)
  /-- Two percent signs, which stand for one. -/
  | percent
  /-- A percent sign and the letter of a directive. -/
  | directive (letter : Char) (d : Directive)
deriving DecidableEq, Repr

def LeavesPercent (rest : List Char) : Prop :=
  ∀ c ∈ rest.head?, c ≠ '%' ∧ Directive.ofChar? c = none

inductive FormatParts : List Char → List FormatPart → Prop where
  | nil : FormatParts [] []
  | char {c : Char} {rest : List Char} {parts : List FormatPart} (hc : c = '%' → LeavesPercent rest)
    (h : FormatParts rest parts) : FormatParts (c :: rest) (.char c :: parts)
  | percent {rest : List Char} {parts : List FormatPart} (h : FormatParts rest parts) :
    FormatParts ('%' :: '%' :: rest) (.percent :: parts)
  | directive {letter : Char} {d : Directive} {rest : List Char} {parts : List FormatPart}
    (hletter : Directive.ofChar? letter = some d) (h : FormatParts rest parts) :
    FormatParts ('%' :: letter :: rest) (.directive letter d :: parts)

namespace FormatPart

def plain : FormatPart → List Char
  | .char c => [c]
  | .percent => ['%']
  | .directive letter _ => ['%', letter]

def directive? : FormatPart → Option Directive
  | .directive _ d => some d
  | _ => none

def fill : List FormatPart → List (List Char) → List Char
  | [], _ => []
  | .directive _ _ :: parts, text :: texts => text ++ fill parts texts
  | part :: parts, texts => part.plain ++ fill parts texts

def directives (parts : List FormatPart) : List Directive := parts.filterMap directive?

end FormatPart

/-- The letters of directives. -/
theorem Directive.ofChar?_isSome (c : Char) :
    (Directive.ofChar? c).isSome = true ↔ c ∈ ['s', 'd', 'i', 'f', 'j', 'o', 'O', 'c'] := by
  simp only [List.mem_cons, List.not_mem_nil, or_false]
  constructor
  · intro h
    unfold Directive.ofChar? at h
    split at h
    all_goals simp at h ⊢
  · intro h
    rcases h with rfl | rfl | rfl | rfl | rfl | rfl | rfl | rfl <;> rfl

namespace FormatParts

/-- Every text can be cut; by induction on its length, as a percent sign takes the character behind it. -/
theorem exists_parts (text : List Char) : ∃ parts, FormatParts text parts := by
  induction hn : text.length using Nat.strongRecOn generalizing text with
  | ind n ih =>
    cases text with
    | nil => exact ⟨[], .nil⟩
    | cons c rest =>
      rw [List.length_cons] at hn
      by_cases hc : c = '%' → LeavesPercent rest
      · obtain ⟨parts, hparts⟩ := ih rest.length (by omega) rest rfl
        exact ⟨.char c :: parts, .char hc hparts⟩
      obtain ⟨rfl, hrest⟩ := Classical.not_imp.mp hc
      cases rest with
      | nil => exact absurd (fun x hx => by cases hx) hrest
      | cons letter more =>
        rw [List.length_cons] at hn
        obtain ⟨parts, hparts⟩ := ih more.length (by omega) more rfl
        by_cases hdouble : letter = '%'
        · subst hdouble
          exact ⟨.percent :: parts, .percent hparts⟩
        cases hletter : Directive.ofChar? letter with
        | some d => exact ⟨.directive letter d :: parts, .directive hletter hparts⟩
        | none =>
          refine absurd (fun x hx => ?_) hrest
          obtain rfl := Option.some.inj hx
          exact ⟨hdouble, hletter⟩

/-- Nothing about the parts is left open. -/
theorem eq_of_formatParts {text : List Char} {parts parts' : List FormatPart} (h : FormatParts text parts)
    (h' : FormatParts text parts') : parts' = parts := by
  induction h generalizing parts' with
  | nil =>
    cases h'
    rfl
  | char hc _ ih =>
    cases h' with
    | char _ h' => rw [ih h']
    | percent _ => exact absurd rfl (hc rfl '%' rfl).1
    | directive hletter _ =>
      rw [(hc rfl _ rfl).2] at hletter
      cases hletter
  | percent _ ih =>
    cases h' with
    | char hc _ => exact absurd rfl (hc rfl '%' rfl).1
    | percent h' => rw [ih h']
    | directive hletter _ => cases hletter
  | directive hletter _ ih =>
    cases h' with
    | char hc _ =>
      rw [(hc rfl _ rfl).2] at hletter
      cases hletter
    | percent _ => cases hletter
    | directive hletter' h' =>
      rw [hletter] at hletter'
      obtain rfl := Option.some.inj hletter'
      rw [ih h']

end FormatParts

namespace Run

variable {done text : List Char} {parts : List FormatPart} {arguments : List Value}

def directiveTexts (ds : List Directive) (arguments : List Value) : Run (List (List Char)) :=
  (ds.zip arguments).mapM fun use => directiveText use.1 use.2

theorem directiveTexts_nil (ds : List Directive) : directiveTexts ds [] = pure [] := by
  unfold directiveTexts
  rw [List.zip_nil_right, List.mapM_nil]

theorem directiveTexts_cons (d : Directive) (ds : List Directive) (v : Value) (arguments : List Value) :
    directiveTexts (d :: ds) (v :: arguments) = do
      let text ← directiveText d v
      let texts ← directiveTexts ds arguments
      return text :: texts := by
  unfold directiveTexts
  rw [List.zip_cons_cons, List.mapM_cons]

/-- A character other than a percent sign stands for itself. -/
theorem format_plain {c : Char} (hc : c ≠ '%') (rest : List Char) :
    format done arguments (c :: rest) = format (c :: done) arguments rest := by
  rw [format]
  · intro h _
    exact hc h
  · intro _ h _
    exact hc h
  · intro _ _ h _
    exact hc h

/-- So does a percent sign that begins nothing. -/
theorem format_percent {rest : List Char} (hrest : LeavesPercent rest) :
    format done arguments ('%' :: rest) = format ('%' :: done) arguments rest := by
  cases rest with
  | nil => rfl
  | cons letter more =>
    obtain ⟨hdouble, hletter⟩ := hrest letter rfl
    -- The letter is taken together with the percent sign on one side, and after it on the other one.
    rw [format_plain hdouble, format]
    · exact hdouble
    · intro d v more hd _
      rw [hletter] at hd
      cases hd

/-- A directive takes the next value. -/
theorem format_directive {letter : Char} {d : Directive} (hletter : Directive.ofChar? letter = some d)
    (v : Value) (rest : List Char) :
    format done (v :: arguments) ('%' :: letter :: rest) =
      directiveText d v >>= fun text => format (text.reverse ++ done) arguments rest := by
  have hdouble : letter ≠ '%' := by
    rintro rfl
    cases hletter
  rw [format]
  · exact hdouble
  · exact hletter

/-- A directive without a value stays as it is. -/
theorem format_spent {letter : Char} {d : Directive} (hletter : Directive.ofChar? letter = some d)
    (rest : List Char) :
    format done [] ('%' :: letter :: rest) = format (letter :: '%' :: done) [] rest := by
  have hdouble : letter ≠ '%' := by
    rintro rfl
    cases hletter
  rw [format]
  · exact hdouble
  · intro _ _ _ _ h
    cases h

/-- A format string is written part by part: its directives take as many of the values as there are of both, and
the other values are left over. By induction on the parts. -/
theorem format_eq (h : FormatParts text parts) :
    format done arguments text = do
      let texts ← directiveTexts (FormatPart.directives parts) arguments
      return (done.reverse ++ FormatPart.fill parts texts,
        arguments.drop (FormatPart.directives parts).length) := by
  -- The induction is on how the format is cut; a directive takes the next argument.
  induction h generalizing done arguments with
  | nil =>
    have hnone : directiveTexts (FormatPart.directives []) arguments = pure [] := rfl
    rw [hnone, pure_bind]
    simp only [FormatPart.fill, List.append_nil]
    rfl
  | @char c rest parts hc _ ih =>
    have hnext : format done arguments (c :: rest) = format (c :: done) arguments rest := by
      by_cases hpercent : c = '%'
      · subst hpercent
        exact format_percent (hc rfl)
      · exact format_plain hpercent rest
    have hdirectives : FormatPart.directives (.char c :: parts) = FormatPart.directives parts := rfl
    rw [hnext, ih, hdirectives]
    simp only [List.reverse_cons, List.append_assoc]
    rfl
  | @percent rest parts _ ih =>
    have hdirectives : FormatPart.directives (.percent :: parts) = FormatPart.directives parts := rfl
    rw [format, ih, hdirectives]
    simp only [List.reverse_cons, List.append_assoc]
    rfl
  | @directive letter d rest parts hletter _ ih =>
    have hdirectives : FormatPart.directives (.directive letter d :: parts) =
        d :: FormatPart.directives parts := rfl
    rw [hdirectives]
    -- Once the arguments are spent a directive stands for its own text.
    cases arguments with
    | nil =>
      rw [format_spent hletter, ih, directiveTexts_nil, directiveTexts_nil, pure_bind, pure_bind]
      simp only [FormatPart.fill, FormatPart.plain, List.reverse_cons, List.append_assoc, List.drop_nil]
      rfl
    | cons v arguments =>
      rw [format_directive hletter, directiveTexts_cons, bind_assoc]
      refine congrArg _ (funext fun text => ?_)
      rw [ih, bind_assoc]
      simp only [pure_bind, FormatPart.fill, List.reverse_append, List.reverse_reverse, List.append_assoc,
        List.length_cons, List.drop_succ_cons]

def printedLine (arguments : List Value) : Run String := do
  return " ".intercalate (← arguments.mapM toPrinted)

/-- A line that begins with a format string: its parts with texts put in, and behind them the printed form of
each value that no directive took, with a blank in front. -/
def formattedLine (parts : List FormatPart) (arguments : List Value) : Run String := do
  let texts ← directiveTexts (FormatPart.directives parts) arguments
  let left ← (arguments.drop (FormatPart.directives parts).length).mapM toPrinted
  return String.ofList (FormatPart.fill parts texts ++ left.flatMap fun text => ' ' :: text.toList)

/-- A blank between texts stands in front of each of them but the first one. -/
theorem intercalate_blank (text : List Char) (texts : List String) :
    " ".intercalate (String.ofList text :: texts) =
      String.ofList (text ++ texts.flatMap fun text => ' ' :: text.toList) := by
  induction texts generalizing text with
  | nil => rw [String.intercalate_singleton, List.flatMap_nil, List.append_nil]
  | cons t texts ih =>
    have hnext := ih t.toList
    rw [String.ofList_toList] at hnext
    rw [String.intercalate_cons_cons, hnext, List.flatMap_cons, String.append_assoc, String.ofList_append,
      String.ofList_append, String.ofList_append, String.ofList_cons]
    simp only [String.append_assoc, String.ofList_toList]
    rfl

/-- Without a value, or without a percent sign, the first text is printed like any value. -/
theorem consoleLine_printed {s : String} (h : arguments = [] ∨ '%' ∉ s.toList) :
    consoleLine (.string s :: arguments) = printedLine (.string s :: arguments) := by
  cases arguments with
  | nil => rfl
  | cons v rest =>
    have hnone : s.contains '%' = false := by
      obtain h | h := h
      · cases h
      · simpa using h
    unfold consoleLine
    simp only [hnone, Bool.false_eq_true, if_false]
    rfl

/-- With both, the text is a format. -/
theorem consoleLine_format {s : String} (hne : arguments ≠ []) (hs : '%' ∈ s.toList)
    (h : FormatParts s.toList parts) :
    consoleLine (.string s :: arguments) = formattedLine parts arguments := by
  obtain ⟨v, rest, rfl⟩ := List.exists_cons_of_ne_nil hne
  have hsome : s.contains '%' = true := by simpa using hs
  unfold consoleLine formattedLine
  simp only [hsome, if_true]
  rw [format_eq h, bind_assoc]
  refine congrArg _ (funext fun texts => ?_)
  rw [pure_bind]
  refine congrArg _ (funext fun left => ?_)
  rw [intercalate_blank, List.reverse_nil, List.nil_append]

end Run

/-- What the letter of a directive puts in for a value: `s` its text, but what the console prints for an array or an
object, `d` its number, `i` its number without a fraction, `f` the number that its text begins with, `j` its JSON, `o`
and `O` what the console prints for it on its own, and `c` nothing. -/
theorem letter_puts_in (v : Value) :
    let put (letter : Char) : Option (Run String) :=
      (Directive.ofChar? letter).map fun d => String.ofList <$> Run.directiveText d v
    put 's' =
        some (match v with
          | .array _ | .object _ => Run.printedLine [v]
          | _ => Run.toText v) ∧
      put 'd' = some ((fun x => String.ofList (numberText x)) <$> Run.toNumber v) ∧
      put 'i' = some ((fun x => String.ofList (numberText (Number.truncate x))) <$> Run.toNumber v) ∧
      put 'f' = some ((fun s => String.ofList (numberText (leadingNumber s.toList))) <$> Run.toText v) ∧
      put 'j' = some ((fun h => String.ofList (Heap.compactJson h v)) <$> Run.heap) ∧
      put 'o' = some (Run.printedLine [v]) ∧ put 'O' = some (Run.printedLine [v]) ∧ put 'c' = some (pure "") := by
  have hprinted : (String.ofList <$> do return (← Run.toPrinted v).toList) = Run.printedLine [v] := by
    simp [Run.printedLine]
  have htext : (String.ofList <$> do return (← Run.toText v).toList) = Run.toText v := by
    simp
  intro put
  refine ⟨?_, congrArg some ?_, congrArg some ?_, congrArg some ?_, congrArg some ?_, congrArg some hprinted,
    congrArg some hprinted, rfl⟩
  · cases v with
    | array | object => exact congrArg some hprinted
    | _ => exact congrArg some htext
  all_goals simp [Run.directiveText]

/-- A line of the console that begins with a string shows every other value once. Without further values or
without a percent sign the printed forms follow each other. Else the string has parts, in one way only; its
directives take one value each, from left to right, as long as there are values, a doubled percent sign stands
for one, everything else stays as it is, and the other values follow. -/
theorem console_uses_every_argument (call : Caller) (channel : Channel) (s : String) (arguments : List Value) :
    Run.callBuiltin call (.print channel) (.string s :: arguments) = (do
        let line ← Run.consoleLine (.string s :: arguments)
        Run.modifyTranscript fun t => t.pushLine line
        return .undefined) ∧
      (arguments = [] ∨ '%' ∉ s.toList →
        Run.consoleLine (.string s :: arguments) = Run.printedLine (.string s :: arguments)) ∧
      (∃ parts, (∀ parts', FormatParts s.toList parts' ↔ parts' = parts) ∧
        (arguments ≠ [] → '%' ∈ s.toList →
          Run.consoleLine (.string s :: arguments) = Run.formattedLine parts arguments)) ∧
      (∀ c, (Directive.ofChar? c).isSome = true ↔ c ∈ ['s', 'd', 'i', 'f', 'j', 'o', 'O', 'c']) ∧
      Directive.ofChar? 'c' = some .skip ∧ ∀ v, Run.directiveText .skip v = pure [] := by
  refine ⟨rfl, Run.consoleLine_printed, ?_, Directive.ofChar?_isSome, rfl, fun v => rfl⟩
  obtain ⟨parts, hparts⟩ := FormatParts.exists_parts s.toList
  refine ⟨parts, fun parts' => ⟨hparts.eq_of_formatParts, fun h => h ▸ hparts⟩, ?_⟩
  intro hne hs
  exact Run.consoleLine_format hne hs hparts

/-- Here `%x` is no directive, the last percent sign has no letter, and one value is left over. -/
example (m : Machine) :
    Run.format [] [.string "Ann", .string "style", .bool true, .null] "%s: 100%% %c%x %s%".toList m =
      .ok ("Ann: 100% %x true%".toList, [.null]) m := rfl

end Snippet.Script
