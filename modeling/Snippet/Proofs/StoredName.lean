import Snippet.Proofs.Interpolation
import Snippet.Proofs.NumberText
import Snippet.Proofs.StoredValue

/-!
The names under which values are stored. A stored value is read by the terms that are looked up under its name, and by
no other term; what is looked up are the names of ASCII characters that are no numbers.
-/

namespace Snippet.Scan

open Pattern

section Dependence

variable {style : Style} {store store' : Store}

/-- A term reads the store only where a name is looked up; by induction on the fuel. -/
theorem resolveWithin?_congr (h : ∀ name, IsLookedUp name → store.get? name = store'.get? name) (fuel : Nat)
    (term : List Char) : resolveWithin? style store fuel term = resolveWithin? style store' fuel term := by
  induction fuel generalizing term with
  | zero => rfl
  | succ fuel ih =>
    rw [resolveWithin?, resolveWithin?, funext ih]
    dsimp only
    split
    · rfl
    split
    · rfl
    split
    · rfl
    split
    · rfl
    split
    · rfl
    split
    · rfl
    split
    · rfl
    split
    · exact h _ ⟨‹_›, ‹_›, ‹_›⟩
    · rfl

/-- What is stored under a name that is not looked up is read by no term. -/
theorem resolve?_forget {name : List Char} (h : ¬ IsLookedUp name) (term : List Char) :
    resolve? style store term = resolve? style (store.forget name) term := by
  apply resolveWithin?_congr
  intro other hother
  have hne : other ≠ name := fun hsame => h (hsame ▸ hother)
  rw [Store.get?_forget, Function.update_of_ne hne]

end Dependence

/-- A name as a pattern takes it: an ASCII letter or an underscore, and word characters of any script after it. -/
structure IsWordName (name : List Char) : Prop where
  start : ∃ c ∈ name.head?, isNameStart c = true
  isWordChar : ∀ c ∈ name, Text.isWordChar c = true

/-- What the pattern of names takes from the front of a text is a word. -/
theorem isWordName_of_leaves {name y : List Char} (h : Pattern.name.Leaves (name ++ y) y) : IsWordName name := by
  obtain ⟨z, ⟨c, hc, hfirst⟩, rest, hrest, rfl⟩ := h
  obtain rfl : name = c :: rest := (List.append_left_inj y).mp hfirst
  have hstart : Text.isWordChar c = true := by
    apply isWordChar_of_isNameChar
    rcases Bool.or_eq_true_iff.mp hc with halpha | hunderscore
    · simp [isNameChar, Char.isAlphanum, halpha]
    · simp [isNameChar, eq_of_beq hunderscore]
  exact ⟨⟨c, rfl, hc⟩, List.forall_mem_cons.mpr ⟨hstart, hrest⟩⟩

namespace IsWordName

variable {name : List Char} (h : IsWordName name)

include h

theorem ne_nil : name ≠ [] := by
  rintro rfl
  obtain ⟨c, hc, -⟩ := h.start
  cases hc

theorem isTerm : IsTerm name := isTerm_of_isWordChar h.ne_nil h.isWordChar

/-- A name of ASCII characters is an identifier. -/
theorem exists_beyond (hname : isName name = false) : ∃ c ∈ name, 128 ≤ c.toNat := by
  by_contra hnone
  have hascii : ∀ c ∈ name, isNameChar c = true := by
    intro c hc
    have hword := h.isWordChar c hc
    unfold Text.isWordChar at hword
    rw [if_pos (Nat.not_le.mp fun hcode => hnone ⟨c, hc, hcode⟩)] at hword
    exact hword
  obtain ⟨c, hc, hstart⟩ := h.start
  cases name with
  | nil => cases hc
  | cons first rest =>
    obtain rfl : first = c := Option.some.inj hc
    have hrest : rest.all isNameChar = true :=
      List.all_eq_true.mpr fun d hd => hascii d (List.mem_cons_of_mem first hd)
    have hident : isName (first :: rest) = true := Bool.and_eq_true_iff.mpr ⟨hstart, hrest⟩
    rw [hident] at hname
    cases hname

/-- A print of a name that is no word for a line break prints the value of the name. -/
theorem statement_print {l : Scanned} (hbreak : l = .cpp → name ≠ "endl".toList) (st : State) :
    State.statement (grammarOf l) st (printText l name) =
      match resolve? (grammarOf l).style st.store name with
      | some v => st.emit (v.render (grammarOf l).style)
      | none => st := by
  rw [Scan.statement_print h.isTerm, renderArguments?_of_word h.ne_nil h.isWordChar hbreak]
  cases resolve? (grammarOf l).style st.store name <;> rfl

/-- What a name does not begin with. -/
theorem first_ne {c : Char} {rest : List Char} (hc : isNameStart c = false) : name ≠ c :: rest := by
  rintro rfl
  obtain ⟨d, hd, hstart⟩ := h.start
  obtain rfl : c = d := Option.some.inj hd
  rw [hc] at hstart
  cases hstart

/-- Only a name that begins with an underscore may be a number. -/
theorem exists_of_number? {ds : List Char} (hnumber : number? name = some ds) : ∃ rest, name = '_' :: rest := by
  obtain ⟨c, hc, hstart⟩ := h.start
  cases name with
  | nil => cases hc
  | cons first rest =>
    obtain rfl : first = c := Option.some.inj hc
    rcases Bool.or_eq_true_iff.mp hstart with halpha | hunderscore
    · rw [number?_of_isAlpha halpha] at hnumber
      cases hnumber
    · rw [eq_of_beq hunderscore]
      exact ⟨rest, rfl⟩

/-- A name with a character beyond ASCII is no number. -/
theorem number?_of_beyond {c : Char} (hc : c ∈ name) (hcode : 128 ≤ c.toNat) : number? name = none := by
  have hhex {x : Char} : dropStart? ['0', x] name = none := by
    cases name with
    | nil => rfl
    | cons first rest =>
      apply dropStart?_of_ne
      rintro rfl
      exact h.first_ne (by decide) rfl
  have hne {k : Char} (hk : k.toNat < 128) : c ≠ k := by
    rintro rfl
    omega
  -- The character is neither a separator nor a letter of a suffix, so it is still there when the digits are read.
  have hmem (p : Char → Bool) (hp : p c = false) : c ∈ ungroup (Text.dropEndWhile p name) := by
    have hkept : (c != '_' && c != '\'') = true := by
      rw [Bool.and_eq_true, bne_iff_ne, bne_iff_ne]
      exact ⟨hne (by decide), hne (by decide)⟩
    unfold ungroup Text.dropEndWhile
    rw [List.mem_filter, List.mem_reverse]
    exact ⟨mem_dropWhile hp (List.mem_reverse.mpr hc), hkept⟩
  have hunreadable {ds : List Char} (hds : c ∈ ds) : (Number.readFloat? ds).isSome = false := by
    rw [Bool.eq_false_iff]
    intro hread
    rcases Number.mem_of_readFloat? hread hds with hsign | hdigit | hletter
    · simp only [List.mem_cons, List.not_mem_nil, or_false] at hsign
      rcases hsign with rfl | rfl | rfl <;> exact absurd hcode (by decide)
    · have hdigit := Number.code_of_isDigit hdigit
      omega
    · rw [Script.toNat_toLower] at hletter
      split at hletter <;> omega
  have hsuffix : "LlfFdDuU".toList.contains c = false := by
    rw [Bool.eq_false_iff]
    intro hin
    have hletters : ("LlfFdDuU".toList.all fun k => k.toNat < 128) = true := by decide
    exact hne (of_decide_eq_true (List.all_eq_true.mp hletters c (List.contains_iff_mem.mp hin))) rfl
  rw [number?_plain fun rest => h.first_ne (by decide), numberBehind?]
  rw [show "0x".toList = ['0', 'x'] from rfl, show "0X".toList = ['0', 'X'] from rfl, hhex, hhex]
  have hdigits := hmem (fun c => "LlfFdDuU".toList.contains c) hsuffix
  dsimp only [Option.or]
  generalize ungroup (Text.dropEndWhile (fun c => "LlfFdDuU".toList.contains c) name) = ds at hdigits
  cases ds with
  | nil => rfl
  | cons d ds =>
    dsimp only
    rw [hunreadable hdigits, Bool.and_false]
    rfl

end IsWordName

theorem intercalate_singleton_cons {α : Type} (separator : α) (first : List α) (parts : List (List α)) :
    [separator].intercalate (first :: parts) = first ++ parts.flatMap (separator :: ·) := by
  induction parts generalizing first with
  | nil => simp [List.intercalate]
  | cons part parts ih =>
    have hrest := ih part
    simp only [List.intercalate] at hrest ⊢
    rw [List.intersperse_cons_cons, List.flatten_cons, List.flatten_cons, hrest]
    simp

def targetName (target : List Char) : List Char := Text.trim ((Text.trim target).dropWhile (· == '&'))

/-- The name of a target is found again, whatever blanks and marks stand around it. -/
theorem targetName_eq {name before between behind mark : List Char} (hname : IsWordName name)
    (hbefore : ∀ c ∈ before, Text.isBlank c = true) (hbetween : ∀ c ∈ between, Text.isBlank c = true)
    (hbehind : ∀ c ∈ behind, Text.isBlank c = true) (hmark : mark = ['&'] ∨ mark = []) :
    targetName (before ++ (mark ++ (between ++ (name ++ behind)))) = name := by
  -- Neither blanks nor the name hold the mark, so nothing but the mark in front is dropped.
  have hplain : ∀ c ∈ between ++ name, (c == '&') = false := by
    intro c hc
    rw [beq_eq_false_iff_ne]
    rintro rfl
    rcases List.mem_append.mp hc with hblank | hword
    · cases hbetween _ hblank
    · cases hname.isWordChar _ hword
  have hdrop : (between ++ name).dropWhile (· == '&') = between ++ name := by
    cases hcons : between ++ name with
    | nil => rfl
    | cons c rest =>
      have hc := hplain c (by rw [hcons]; exact List.mem_cons_self)
      exact List.dropWhile_cons_of_neg (by rw [hc]; exact Bool.false_ne_true)
  have hne := hname.ne_nil
  have htight := hname.isTerm.tight
  unfold targetName
  rcases hmark with rfl | rfl
  · have htight' : Text.Tight ('&' :: (between ++ name)) := by
      refine ⟨fun c hc => ?_, fun c hc => htight.last c ?_⟩
      · obtain rfl : '&' = c := Option.some.inj hc
        rfl
      · rw [List.getLast?_cons_of_ne_nil (by simp [hne]), List.getLast?_append_of_ne_nil _ hne] at hc
        exact hc
    have htrim : Text.trim (before ++ (['&'] ++ (between ++ (name ++ behind)))) = '&' :: (between ++ name) := by
      rw [← htight'.trim_between hbefore (List.cons_ne_nil _ _) hbehind]
      simp only [List.cons_append, List.nil_append, List.append_assoc]
    rw [htrim, List.dropWhile_cons_of_pos rfl, hdrop]
    exact Text.Tight.trim_append hbetween htight
  · have htrim : Text.trim (before ++ ([] ++ (between ++ (name ++ behind)))) = name := by
      rw [List.nil_append, ← List.append_assoc]
      refine htight.trim_between (fun c hc => ?_) hne hbehind
      exact (List.mem_append.mp hc).elim (hbefore c) (hbetween c)
    have hdrop' : name.dropWhile (· == '&') = name := by
      obtain ⟨c, rest, hcons⟩ := List.exists_cons_of_ne_nil hne
      have hc := hplain c (by rw [hcons]; simp)
      rw [hcons]
      exact List.dropWhile_cons_of_neg (by rw [hc]; exact Bool.false_ne_true)
    rw [htrim, hdrop']
    exact htight.trim_eq

def commaTarget : Pattern :=
  seq [Pattern.char ',', blanks, Pattern.optional (Pattern.char '&'), blanks, Pattern.name, blanks]

/-- What a pattern takes for a further target is a comma and a target whose name is one. -/
theorem exists_of_leaves_commaTarget {x y : List Char} (h : commaTarget.Leaves x y) :
    ∃ target, x = ',' :: (target ++ y) ∧ ',' ∉ target ∧ IsWordName (targetName target) := by
  obtain ⟨_, ⟨c, hc, rfl⟩, marked, ⟨before, hbefore, rfl⟩, _, hmarked, _, ⟨between, hbetween, rfl⟩, _,
    ⟨_, ⟨first, hfirst, rfl⟩, rest, hrest, rfl⟩, behind, hbehind, rfl⟩ := h
  obtain rfl := eq_of_beq hc
  have hname : IsWordName (first :: rest) :=
    isWordName_of_leaves (y := behind ++ y) ⟨_, ⟨first, hfirst, rfl⟩, rest, hrest, rfl⟩
  obtain ⟨mark, hmark, rfl⟩ : ∃ mark, (mark = ['&'] ∨ mark = []) ∧
      marked = mark ++ (between ++ (first :: (rest ++ (behind ++ y)))) := by
    rcases hmarked with ⟨d, hd, hmarked⟩ | hmarked
    · rw [eq_of_beq hd] at hmarked
      exact ⟨['&'], .inl rfl, hmarked⟩
    · exact ⟨[], .inr rfl, hmarked.symm⟩
  refine ⟨before ++ (mark ++ (between ++ ((first :: rest) ++ behind))), ?_, ?_, ?_⟩
  · simp only [List.append_assoc, List.cons_append]
  · simp only [List.mem_append, not_or]
    refine ⟨fun hin => ?_, ?_, fun hin => ?_, fun hin => ?_, fun hin => ?_⟩
    · cases hbefore _ hin
    · rcases hmark with rfl | rfl <;> simp
    · cases hbetween _ hin
    · cases hname.isWordChar _ hin
    · cases hbehind _ hin
  · rw [targetName_eq hname hbefore hbetween hbehind hmark]
    exact hname

/-- What a pattern takes for further targets are targets with a comma in front of each. -/
theorem exists_targets {text y : List Char} (h : (Pattern.many commaTarget).Leaves (text ++ y) y) :
    ∃ targets : List (List Char), text = targets.flatMap (',' :: ·) ∧
      ∀ target ∈ targets, ',' ∉ target ∧ IsWordName (targetName target) := by
  change Relation.ReflTransGen commaTarget.Leaves (text ++ y) y at h
  generalize hx : text ++ y = x at h
  induction h using Relation.ReflTransGen.head_induction_on generalizing text with
  | refl =>
    obtain rfl : text = [] := List.append_left_eq_self.mp hx
    exact ⟨[], rfl, List.forall_mem_nil _⟩
  | head hround hrest ih =>
    -- What is left behind the first target ends as the whole text does, so the other targets stand in front of that.
    obtain ⟨target, rfl, htarget⟩ := exists_of_leaves_commaTarget hround
    obtain ⟨rest, rfl⟩ := Leaves.suffix (p := .many commaTarget) hrest
    obtain ⟨targets, rfl, htargets⟩ := ih rfl
    obtain rfl : text = ',' :: (target ++ targets.flatMap (',' :: ·)) := by
      apply (List.append_left_inj y).mp
      rw [hx, List.cons_append, List.append_assoc]
    exact ⟨target :: targets, rfl, List.forall_mem_cons.mpr ⟨htarget, htargets⟩⟩

/-- The targets of a formatted reader are names. -/
theorem isWordName_of_mem_targets {text y : List Char} (h : (Pattern.many commaTarget).Leaves (text ++ y) y) :
    ∀ name ∈ Cpp.targets text, IsWordName name := by
  obtain ⟨targets, rfl, htargets⟩ := exists_targets h
  have hsplit : (targets.flatMap (',' :: ·)).splitOn ',' = [] :: targets := by
    have hall : ∀ part ∈ [] :: targets, ',' ∉ part :=
      List.forall_mem_cons.mpr ⟨List.not_mem_nil, fun target htarget => (htargets target htarget).1⟩
    rw [← List.splitOn_intercalate ',' hall (List.cons_ne_nil _ _), intercalate_singleton_cons, List.nil_append]
  intro name hname
  unfold Cpp.targets at hname
  rw [hsplit] at hname
  obtain ⟨hmem, hne⟩ := List.mem_filter.mp hname
  obtain ⟨target, htarget, rfl⟩ := List.mem_map.mp hmem
  rcases List.mem_cons.mp htarget with rfl | htarget
  · -- In front of the first comma stands nothing, and empty names are left out.
    cases hne
  · exact (htargets target htarget).2

/-- A name under which a scan of a language stores values: a name as patterns take it, or a target of a stream, which
may be any text without blanks at its ends. -/
inductive IsStoredName (l : Scanned) : List Char → Prop where
  | word {name : List Char} (h : IsWordName name) : IsStoredName l name
  | target {text : List Char} (hl : l = .cpp) (hne : Text.trim text ≠ []) : IsStoredName l (Text.trim text)

/-- The rule that takes a statement is one of the table, and its pattern is found in the statement. -/
theorem mem_of_firstInput? {statement : List Char} {rules : List InputRule} {rule : InputRule} {m : Match}
    (h : firstInput? statement rules = some (rule, m)) : rule ∈ rules ∧ rule.pattern.search? statement = some m := by
  induction rules with
  | nil => cases h
  | cons first rules ih =>
    unfold firstInput? at h
    split at h
    · next found hfound =>
      cases h
      exact ⟨List.mem_cons_self, hfound⟩
    · obtain ⟨hmem, hsearch⟩ := ih h
      exact ⟨List.mem_cons_of_mem first hmem, hsearch⟩

/-- What is captured as a name by a pattern that captures only names as such. -/
theorem isWordName_of_get? {p : Pattern} {text part : List Char} {m : Match} (hkept : p.keptAs "name" = [Pattern.name])
    (h : p.search? text = some m) (hpart : m.get? "name" = some part) : IsWordName part := by
  obtain ⟨inner, hinner, y, hleaves⟩ := exists_leaves_of_get? h hpart
  rw [hkept] at hinner
  obtain rfl := List.mem_singleton.mp hinner
  exact isWordName_of_leaves hleaves

/-- The names under which statements give values are stored names of the language. -/
theorem isStoredName_of_gives {l : Scanned} {st : State} {name : List Char} {v : Literal}
    (h : Gives (grammarOf l) st name v) : IsStoredName l name := by
  -- A name is given a value by an assignment or by a reader of input.
  cases h with
  | @assigned statement m _ hsearch _ =>
    have hkept : (grammarOf l).assignment.keptAs "name" = [Pattern.name] := by cases l <;> rfl
    have halways : (grammarOf l).assignment.alwaysKeeps "name" = true := by cases l <;> rfl
    obtain ⟨part, hpart⟩ := exists_get?_of_search? hsearch "name" halways
    rw [hpart]
    exact .word (isWordName_of_get? hkept hsearch hpart)
  | @read statement _ rule m slot hrule hslot hname =>
    obtain ⟨hmem, hsearch⟩ := mem_of_firstInput? hrule
    cases l with
    | python =>
      -- The readers of one line all capture the name.
      simp only [grammarOf, Python.grammar, List.mem_cons, List.not_mem_nil, or_false] at hmem
      rcases hmem with rfl | rfl
      · obtain rfl := List.mem_singleton.mp hslot
        exact .word (isWordName_of_get? rfl hsearch hname)
      · obtain rfl := List.mem_singleton.mp hslot
        exact .word (isWordName_of_get? rfl hsearch hname)
    | java =>
      obtain rfl := List.mem_singleton.mp hmem
      obtain rfl := List.mem_singleton.mp hslot
      exact .word (isWordName_of_get? rfl hsearch hname)
    | cpp =>
      simp only [grammarOf, Cpp.grammar, List.mem_cons, List.not_mem_nil, or_false] at hmem
      rcases hmem with rfl | rfl | rfl
      · -- The targets of a stream are taken as they stand between the marks.
        obtain ⟨text, htext, rfl⟩ := List.mem_map.mp hslot
        obtain rfl := Option.some.inj hname
        obtain ⟨hmem, hne⟩ := List.mem_filter.mp htext
        obtain ⟨part, -, rfl⟩ := List.mem_map.mp hmem
        refine .target rfl ?_
        rintro hnil
        rw [hnil] at hne
        cases hne
      · -- A reader of a whole line captures the name of its target.
        obtain ⟨part, hpart⟩ := exists_get?_of_search? hsearch "name" rfl
        obtain rfl := List.mem_singleton.mp hslot
        obtain rfl := Option.some.inj hname
        rw [hpart]
        exact .word (isWordName_of_get? rfl hsearch hpart)
      · -- A formatted reader captures all its targets at once.
        obtain ⟨⟨target, conversion⟩, hpair, rfl⟩ := List.mem_map.mp hslot
        obtain rfl := Option.some.inj hname
        obtain ⟨part, hpart⟩ := exists_get?_of_search? hsearch "targets" rfl
        obtain ⟨inner, hinner, y, hleaves⟩ := exists_leaves_of_get? hsearch hpart
        obtain rfl : inner = .many commaTarget := List.mem_singleton.mp hinner
        have htarget := (List.of_mem_zip hpair).1
        rw [hpart] at htarget
        exact .word (isWordName_of_mem_targets hleaves target htarget)

/-- Every name of a stored value has been given to it by a step of the scan. -/
theorem AtMoment.isStoredName {l : Scanned} {source stdin : String} {st : State}
    (h : AtMoment (grammarOf l) source stdin st) {name : List Char} {v : Literal}
    (hstored : st.store.get? name = some v) : IsStoredName l name :=
  h.forall_stored (P := fun name _ => IsStoredName l name) (fun _ hgives => isStoredName_of_gives hgives) hstored

theorem IsLookedUp.isWordName {name : List Char} (h : IsLookedUp name) : IsWordName name := by
  have hidentifier := h.identifier
  cases name with
  | nil => cases hidentifier
  | cons c rest => exact ⟨⟨c, rfl, (Bool.and_eq_true_iff.mp hidentifier).1⟩, isWordChar_of_isName hidentifier⟩

/-- At every moment of a scan, a name under which a value is stored, and which is no word for a value, is a name as
patterns take it or a target of a stream. If it is looked up, a print of it prints the value, except that the word for a
line break prints one. If it is not looked up, the value is read by no term. A name as patterns take it is not looked up
if it has a character beyond ASCII, and then a print of it prints nothing, or else if it is read as a number behind an
underscore, and then a print of it prints the number. -/
theorem stored_names_are_read_back {l : Scanned} {source stdin : String} {st : State}
    (h : AtMoment (grammarOf l) source stdin st) {name : List Char} {value : Literal}
    (hstored : st.store.get? name = some value) (hword : literalWord? name = none) :
    IsStoredName l name ∧
    (IsLookedUp name →
      resolve? (grammarOf l).style st.store name = some value ∧
        State.statement (grammarOf l) st (printText l name) =
          st.emit (if l = .cpp ∧ name = "endl".toList then ['\n'] else value.render (grammarOf l).style)) ∧
    (¬ IsLookedUp name → ∀ term,
      resolve? (grammarOf l).style st.store term = resolve? (grammarOf l).style (st.store.forget name) term) ∧
    (IsWordName name → (∃ c ∈ name, 128 ≤ c.toNat) →
      ¬ IsLookedUp name ∧ State.statement (grammarOf l) st (printText l name) = st) ∧
    (IsWordName name → (∀ c ∈ name, c.toNat < 128) → ¬ IsLookedUp name →
      ∃ rest ds, name = '_' :: rest ∧ number? name = some ds ∧
        State.statement (grammarOf l) st (printText l name) = st.emit ds) := by
  refine ⟨h.isStoredName hstored, fun hlooked => ?_, fun hnot => resolve?_forget hnot, ?_, ?_⟩
  · -- A name that is looked up has the value, and the term of that name is read by it.
    have hvalue : resolve? (grammarOf l).style st.store name = some value :=
      (resolve?_of_isName hlooked _ _).trans hstored
    refine ⟨hvalue, ?_⟩
    split
    · next hbreak =>
      obtain ⟨rfl, rfl⟩ := hbreak
      rw [statement_print hlooked.isWordName.isTerm]
      rfl
    · next hbreak =>
      rw [hlooked.isWordName.statement_print fun hl hsame => hbreak ⟨hl, hsame⟩, hvalue]
  · -- A name with such a character is neither an identifier nor a number, so it has no value.
    rintro hname ⟨c, hc, hcode⟩
    have hidentifier : isName name = false := by
      rw [Bool.eq_false_iff]
      intro hident
      have hchar := code_of_isNameChar (isNameChar_of_isName hident hc)
      omega
    have hbreak : l = .cpp → name ≠ "endl".toList := by
      rintro - rfl
      cases hidentifier
    have hvalue : resolve? (grammarOf l).style st.store name = none := by
      unfold resolve?
      rw [resolveWithin?_of_word hname.ne_nil hname.isWordChar, hname.number?_of_beyond hc hcode, hword, hidentifier]
      rfl
    refine ⟨fun hlooked => ?_, ?_⟩
    · rw [hlooked.identifier] at hidentifier
      cases hidentifier
    · rw [hname.statement_print hbreak, hvalue]
  · -- A name of ASCII characters is an identifier, so only a number may be in its way.
    intro hname hascii hnot
    cases hnumber : number? name with
    | some ds =>
      obtain ⟨rest, hrest⟩ := hname.exists_of_number? hnumber
      have hbreak : l = .cpp → name ≠ "endl".toList := by
        rintro - rfl
        cases hrest
      have hvalue : resolve? (grammarOf l).style st.store name = some (.number ds) := by
        unfold resolve?
        rw [resolveWithin?_of_word hname.ne_nil hname.isWordChar, hnumber]
      refine ⟨rest, ds, hrest, rfl, ?_⟩
      rw [hname.statement_print hbreak, hvalue]
      rfl
    | none =>
      have hidentifier : isName name = false := Bool.eq_false_iff.mpr fun hident => hnot ⟨hident, hnumber, hword⟩
      obtain ⟨c, hc, hcode⟩ := hname.exists_beyond hidentifier
      exact absurd (hascii c hc) (Nat.not_lt.mpr hcode)

def printsNames : String := "_1 = \"one\"\nnaïve = \"two\"\nprint(_1)\nprint(naïve)\n"

/-- Where a text has been stored under a name with a character beyond ASCII, a print of the name prints nothing. -/
theorem name_beyond_ascii_is_not_printed :
    ∃ st, AtMoment (grammarOf .python) printsNames "" st ∧
      st.store.get? "naïve".toList = some (.text "two".toList) ∧ literalWord? "naïve".toList = none ∧
        State.statement (grammarOf .python) st "print(naïve)".toList = st := by
  have hmoment := atMoment_lines (grammarOf .python) printsNames "" 2
  generalize hst : (State.start "").lines (grammarOf .python) ((Text.lines printsNames.toList).take 2) = st at hmoment
  have hstored : st.store.get? "naïve".toList = some (.text "two".toList) := by
    rw [← hst]
    decide +kernel
  have hword : literalWord? "naïve".toList = none := by decide
  have hname : IsWordName "naïve".toList :=
    ⟨⟨'n', rfl, rfl⟩, List.all_eq_true.mp (by decide +kernel : "naïve".toList.all Text.isWordChar = true)⟩
  obtain ⟨-, -, -, hprint, -⟩ := stored_names_are_read_back hmoment hstored hword
  exact ⟨st, hmoment, hstored, hword, (hprint hname ⟨'ï', by decide, by decide⟩).2⟩

/-- What is stored is not always read back: one of the two variables is read as a number, and the other one is not
looked up. -/
theorem name_is_not_read_back :
    (scan .python printsNames "" (Budget.ofMilliseconds 5000)).output = some "1\n" := by
  decide +kernel

end Snippet.Scan
