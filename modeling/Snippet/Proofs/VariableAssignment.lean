import Snippet.Proofs.VariableName

/-!
Assignments to a scanned program's variables. An assignment to a name is nothing else to any rule of a
language, and its value is all that stands behind the equals sign: the variable is given the value if it is
known, and is forgotten if it is not and nothing is read.
-/

namespace Snippet.Scan

open Pattern

variable {l : Scanned}

def assignText (name value : List Char) : List Char := name ++ (' ' :: '=' :: ' ' :: value)

-- What patterns leave of a text that begins with a name.

/-- A text without spaces in front of which a name and a space stand is the beginning of the name. -/
theorem exists_of_append_eq {name word tail y : List Char} (hword : ' ' ∉ word)
    (h : name ++ ' ' :: tail = word ++ y) : ∃ more, name = word ++ more ∧ y = more ++ ' ' :: tail := by
  rcases List.append_eq_append_iff.mp h with ⟨as, has, htail⟩ | ⟨more, hmore, hy⟩
  · cases as with
    | nil =>
      rw [List.append_nil] at has
      exact ⟨[], has.symm.trans (List.append_nil word).symm, htail.symm⟩
    | cons c as =>
      obtain ⟨rfl, -⟩ := List.cons.inj htail
      exact absurd (has ▸ List.mem_append_right name List.mem_cons_self) hword
  · exact ⟨more, hmore, hy⟩

namespace Variable

variable (x : Variable l) {tail value y z : List Char} (texts : List String) {q : Pattern}

/-- Behind a word at the beginning of a name stands the rest of the name. -/
theorem exists_of_leaves_words (hspace : ∀ word ∈ texts, ' ' ∉ word.toList)
    (h : (words texts).Leaves (x.name ++ ' ' :: tail) y) :
    ∃ more, (∀ c ∈ more, isNameChar c = true) ∧ (∃ word ∈ texts, x.name = word.toList ++ more) ∧
      y = more ++ ' ' :: tail := by
  obtain ⟨word, hword, heq⟩ := Pattern.exists_of_leaves_words h
  obtain ⟨more, hname, hy⟩ := exists_of_append_eq (hspace word hword) heq
  refine ⟨more, fun c hc => x.isNameChar_of_mem ?_, ⟨word, hword, hname⟩, hy⟩
  rw [hname]
  exact List.mem_append_right _ hc

/-- A name is no reserved word with a blank behind it. -/
theorem not_leaves_spaced (hspace : ∀ word ∈ texts, ' ' ∉ word.toList)
    (hreserved : ∀ word ∈ texts, word ∈ reserved l) (hq : q.Starts Text.isBlank) :
    ¬ (Pattern.both (words texts) q).Leaves (x.name ++ ' ' :: tail) y := by
  rintro ⟨z, hwords, hrest⟩
  obtain ⟨more, hmore, ⟨word, hword, hname⟩, rfl⟩ := x.exists_of_leaves_words texts hspace hwords
  obtain ⟨c, rest, hc, hz⟩ := hq _ y hrest
  cases more with
  | nil => exact x.not_reserved word (hreserved word hword) (hname.trans (List.append_nil _))
  | cons d more =>
    obtain ⟨rfl, -⟩ := List.cons.inj hz
    rw [isBlank_of_isNameChar (hmore d List.mem_cons_self)] at hc
    cases hc

/-- Behind a word at the beginning of an assignment, and blanks, stands the rest of the name or the equals
sign, and no other mark. -/
theorem not_leaves_call {k : Char} (hspace : ∀ word ∈ texts, ' ' ∉ word.toList) (hq : q.Starts (· == k))
    (hname : isNameChar k = false) (hmark : k ≠ '=') (hblank : Text.isBlank k = false) :
    ¬ (Pattern.both (words texts) (.both blanks q)).Leaves (assignText x.name value) y := by
  rintro ⟨z, hwords, w, ⟨passed, hpassed, hz⟩, hrest⟩
  obtain ⟨more, hmore, -, rfl⟩ := x.exists_of_leaves_words texts hspace hwords
  obtain ⟨c, rest, hc, rfl⟩ := hq w y hrest
  rw [beq_iff_eq] at hc
  subst hc
  -- What is passed between the word and the mark is blank.
  have hnot {d : Char} (hd : Text.isBlank d = false) : d ∉ passed := by
    intro hin
    rw [hpassed d hin] at hd
    cases hd
  rcases more with _ | ⟨d, more⟩
  · -- The whole name is the word: of what is behind it only the one space can have been passed.
    rcases passed with _ | ⟨e, _ | ⟨e', passed⟩⟩
    · obtain ⟨rfl, -⟩ := List.cons.inj hz
      cases hblank
    · obtain ⟨-, hz⟩ := List.cons.inj hz
      exact hmark (List.cons.inj hz).1.symm
    · obtain ⟨-, hz⟩ := List.cons.inj hz
      obtain ⟨rfl, -⟩ := List.cons.inj hz
      exact hnot (d := '=') (by decide) (List.mem_cons_of_mem e List.mem_cons_self)
  · -- More of the name is next, which is neither the mark nor a blank.
    have hd : isNameChar d = true := hmore d List.mem_cons_self
    rcases passed with _ | ⟨e, passed⟩
    · obtain ⟨rfl, -⟩ := List.cons.inj hz
      rw [hname] at hd
      cases hd
    · obtain ⟨rfl, -⟩ := List.cons.inj hz
      exact hnot (isBlank_of_isNameChar hd) List.mem_cons_self

/-- A name is no word with another character than letters, digits and underscores. -/
theorem not_leaves_word (text : String) {k : Char} (hspace : ' ' ∉ text.toList) (hk : k ∈ text.toList)
    (hname : isNameChar k = false) : ¬ (word text).Leaves (x.name ++ ' ' :: tail) y := by
  intro h
  obtain ⟨more, hmore, -⟩ := exists_of_append_eq hspace h
  apply x.notMem_name hname
  rw [hmore]
  exact List.mem_append_left more hk

theorem eq_of_leaves_std (h : Cpp.std.Leaves (x.name ++ ' ' :: tail) z) : z = x.name ++ ' ' :: tail := by
  rcases h with h | h
  · exact absurd h (x.not_leaves_word "std::" (k := ':') (by decide) (by decide) (by decide))
  · exact h

end Variable

section Other

variable (x : Variable l) (value : List Char)

/-- An assignment to a variable is no statement that is passed over. -/
theorem assignText_not_skipped : ¬ (grammarOf l).skip.occursIn (assignText x.name value) = true := by
  cases l with
  | python =>
    exact not_occursIn_of_leaves fun y =>
      x.not_leaves_spaced ["import", "from"] (by decide) (by decide) Starts.one
  | java =>
    exact not_occursIn_of_leaves fun y =>
      x.not_leaves_spaced ["import", "package"] (by decide) (by decide) Starts.one
  | cpp =>
    refine not_occursIn_of_leaves ?_
    rintro y (⟨c, hc, h⟩ | h)
    · cases h
      exact x.ne_first (by decide) (eq_of_beq hc)
    · exact x.not_leaves_spaced ["using"] (by decide) (by decide) Starts.one.both.both h

theorem firstPrint?_cons_none {rule : PrintRule} {rest : List PrintRule} {p : Pattern} {text : List Char}
    (hrule : rule.pattern = .both .textStart p) (h : ∀ y, ¬ p.Leaves text y) :
    firstPrint? text (rule :: rest) = firstPrint? text rest := by
  rw [firstPrint?, hrule, search?_eq_none h]

/-- An assignment to a variable is no print. -/
theorem firstPrint?_assignText : firstPrint? (assignText x.name value) (grammarOf l).prints = none := by
  cases l with
  | python =>
    refine (firstPrint?_cons_none rfl fun y => ?_).trans rfl
    -- A name may begin as the word does, but then no parenthesis is next.
    exact x.not_leaves_call ["print"] (by decide) Starts.one.both (by decide) (by decide) (by decide)
  | java =>
    have hstream {y : List Char} {q : Pattern} :
        ¬ (Pattern.both (word "System.") q).Leaves (assignText x.name value) y := by
      rintro ⟨z, h, -⟩
      exact x.not_leaves_word "System." (k := '.') (by decide) (by decide) (by decide) h
    exact (firstPrint?_cons_none rfl fun y => hstream).trans
      ((firstPrint?_cons_none rfl fun y => hstream).trans rfl)
  | cpp =>
    have hstd {y : List Char} {q : Pattern} (h : ∀ y, ¬ q.Leaves (assignText x.name value) y) :
        ¬ (Pattern.both Cpp.std q).Leaves (assignText x.name value) y := by
      rintro ⟨z, hz, hq⟩
      rw [x.eq_of_leaves_std hz] at hq
      exact h y hq
    have hcall (text : String) (hspace : ∀ word ∈ [text], ' ' ∉ word.toList) {q : Pattern} (y : List Char) :
        ¬ (Pattern.both (word text) (.both blanks (.both (Pattern.char '(') q))).Leaves
          (assignText x.name value) y :=
      x.not_leaves_call [text] hspace Starts.one.both (by decide) (by decide) (by decide)
    have hstream {q : Pattern} (y : List Char) :
        ¬ (Pattern.both (words ["cout", "cerr"]) (.both blanks (.both (word "<<") q))).Leaves
          (assignText x.name value) y :=
      x.not_leaves_call (k := '<') ["cout", "cerr"] (by decide) (Starts.literal rfl ['<']).both (by decide)
        (by decide) (by decide)
    refine (firstPrint?_cons_none rfl fun y => hstd hstream).trans ?_
    refine (firstPrint?_cons_none rfl fun y => hstd (hcall "printf" (by decide))).trans ?_
    exact (firstPrint?_cons_none rfl fun y => hcall "puts" (by decide) y).trans rfl

end Other

structure ReadsNothing (value : List Char) : Prop where
  marks : ∀ k ∈ ['.', '>', ',', '"'], k ∉ value
  call : '(' ∉ value ∨ 'i' ∉ value ∧ '=' ∉ value

theorem firstInput?_cons_none {rule : InputRule} {rest : List InputRule} {p : Pattern} {text : List Char}
    (hrule : rule.pattern = .both .textStart p) (h : ∀ y, ¬ p.Leaves text y) :
    firstInput? text (rule :: rest) = firstInput? text rest := by
  rw [firstInput?, hrule, search?_eq_none h]

/-- What stands behind a mark is known if the mark stands nowhere else. -/
theorem eq_of_mark_suffix {k : Char} {front tail rest : List Char} (hfront : k ∉ front) (htail : k ∉ tail)
    (h : k :: rest <:+ front ++ k :: tail) : rest = tail := by
  obtain ⟨passed, hpassed⟩ := h
  rcases List.append_eq_append_iff.mp hpassed with ⟨as, has, hrest⟩ | ⟨bs, hbs, hrest⟩
  · cases as with
    | nil => exact (List.cons.inj hrest).2
    | cons c as =>
      obtain ⟨rfl, -⟩ := List.cons.inj hrest
      exact absurd (has ▸ List.mem_append_right passed List.mem_cons_self) hfront
  · cases bs with
    | nil => exact (List.cons.inj hrest).2.symm
    | cons c bs =>
      obtain ⟨-, htail'⟩ := List.cons.inj hrest
      exact absurd (htail' ▸ List.mem_append_right bs List.mem_cons_self) htail

section Input

variable (x : Variable l) {value : List Char}

theorem notMem_assignText {k : Char} (hname : isNameChar k = false) (hspace : k ≠ ' ') (hequals : k ≠ '=')
    (hvalue : k ∉ value) : k ∉ assignText x.name value := by
  unfold assignText
  simp only [List.mem_append, List.mem_cons, not_or]
  exact ⟨x.notMem_name hname, hspace, hequals, hspace, hvalue⟩

/-- What is left behind a target is the whole assignment or stands behind its equals sign. -/
theorem leaves_maybeTarget {z : List Char} (hvalue : '=' ∉ value)
    (h : Python.maybeTarget.Leaves (assignText x.name value) z) :
    z = assignText x.name value ∨ z <:+ ' ' :: value := by
  rcases h with ⟨u, hname, v, hblanks, w, ⟨c, hc, hv⟩, hbehind⟩ | h
  · right
    rw [eq_of_beq hc] at hv
    have hsuffix : '=' :: w <:+ (x.name ++ [' ']) ++ '=' :: ' ' :: value := by
      rw [← hv, List.append_assoc]
      exact hblanks.suffix.trans hname.suffix
    have hfront : '=' ∉ x.name ++ [' '] := by
      simp [x.notMem_name (k := '=') (by decide)]
    have htail : '=' ∉ ' ' :: value := by simp [hvalue]
    rw [← eq_of_mark_suffix hfront htail hsuffix]
    exact hbehind.suffix
  · exact Or.inl h

/-- An assignment of a value that reads nothing is no statement that reads. -/
theorem firstInput?_assignText (hv : ReadsNothing value) :
    firstInput? (assignText x.name value) (grammarOf l).inputs = none := by
  cases l with
  | python =>
    have htarget {q : Pattern} (hcall : Needs '(' q) (hinput : Needs 'i' q)
        (hwhole : ∀ y, ¬ q.Leaves (assignText x.name value) y) (y : List Char) :
        ¬ (Pattern.both Python.maybeTarget q).Leaves (assignText x.name value) y := by
      intro h
      -- Without a parenthesis there is no call at all; else the call would stand behind the equals sign.
      rcases hv.call with hno | ⟨hno, hequals⟩
      · exact notMem_assignText x (by decide) (by decide) (by decide) hno (hcall.right _ _ h)
      · obtain ⟨z, hz, hrest⟩ := h
        rcases leaves_maybeTarget x hequals hz with rfl | hsuffix
        · exact hwhole y hrest
        · have hmem := hsuffix.subset (hinput z y hrest)
          simp [hno] at hmem
    refine (firstInput?_cons_none rfl (htarget ?_ ?_ fun y => ?_)).trans
      ((firstInput?_cons_none rfl (htarget ?_ ?_ fun y => ?_)).trans rfl)
    · exact (Needs.char '(').left.right.right
    · exact (Needs.literal (by decide)).left.left.right.right.right.right
    · exact x.not_leaves_call _ (by decide) Starts.one.both (by decide) (by decide) (by decide)
    · exact (Needs.char '(').left.right.right.left
    · exact (Needs.literal (by decide)).left.left
    · rintro ⟨w, hcall, -⟩
      exact x.not_leaves_call ["input"] (by decide) Starts.one.both (by decide) (by decide) (by decide) hcall
  | java =>
    have hnot : '.' ∉ assignText x.name value :=
      notMem_assignText x (by decide) (by decide) (by decide) (hv.marks '.' (by decide))
    refine (firstInput?_cons_none rfl fun y h => hnot ?_).trans rfl
    exact (Needs.char '.').left.right.right.right.right _ _ h
  | cpp =>
    -- Each rule needs a mark that stands nowhere in the assignment.
    have hnot {k : Char} (hk : k ∈ ['>', ',', '"']) : k ∉ assignText x.name value := by
      have hkind : isNameChar k = false ∧ k ≠ ' ' ∧ k ≠ '=' := by
        simp only [List.mem_cons, List.not_mem_nil, or_false] at hk
        rcases hk with rfl | rfl | rfl <;> decide
      exact notMem_assignText x hkind.1 hkind.2.1 hkind.2.2 (hv.marks k (List.mem_cons_of_mem _ hk))
    refine (firstInput?_cons_none rfl fun y h => hnot (k := '>') (by decide) ?_).trans
      ((firstInput?_cons_none rfl fun y h => hnot (k := ',') (by decide) ?_).trans
        ((firstInput?_cons_none rfl fun y h => hnot (k := '"') (by decide) ?_).trans rfl))
    · exact (Needs.literal (by decide)).left.right.right.right _ _ h
    · exact (Needs.char ',').left.right.right.right.right.right.right.right.right _ _ h
    · exact (Needs.char '"').left.right.right.right.right _ _ h

end Input

structure IsValue (value : List Char) : Prop extends IsStatement value where
  noEquals : value.head? ≠ some '='

section Assignment

variable (x : Variable l) {value : List Char}

theorem takes_name {tail : List Char} : Takes Pattern.name x.name (' ' :: tail) [] := by
  have hfirst : isNameStart x.first = true := by
    unfold isNameStart
    rw [x.first_isAlpha]
    rfl
  have hrest : ∀ c ∈ x.rest, Text.isWordChar c = true :=
    fun c hc => isWordChar_of_isNameChar (x.rest_isName c hc)
  exact (Takes.one hfirst).both (Takes.run_until hrest (by decide))

/-- The rest of an assignment is its value, if that does not begin with a second equals sign. -/
theorem takes_value (hv : IsArguments value) (hequals : value.head? ≠ some '=') :
    Takes
      (.both (Pattern.char '=')
        (.both blanks (.both (.capture "value" (.both (.one (· != '=')) anything)) .textEnd)))
      ('=' :: ' ' :: value) [] [("value", value)] := by
  obtain ⟨c, rest, rfl⟩ := List.exists_cons_of_ne_nil hv.ne_nil
  have hc : (c != '=') = true := bne_iff_ne.mpr fun h => hequals (congrArg some h)
  have hblank : Text.isBlank c = false := hv.tight.head c rfl
  have hrest : ∀ d ∈ rest, (d != '\n') = true := fun d hd => hv.all_anything d (List.mem_cons_of_mem c hd)
  have htext : Takes (.both (.one (· != '=')) anything) (c :: rest) [] [] :=
    Takes.before (p := .one (· != '=')) (Takes.one hc) (Takes.run_all hrest)
  have hcapture := (Takes.capture "value" htext).before Takes.textEnd
  rw [List.append_nil] at hcapture
  exact (Takes.char '=').before ((Takes.one_blank hblank).before hcapture)

theorem not_leaves_char {c k : Char} (h : c ≠ k) {q : Pattern} {rest y : List Char} :
    ¬ (Pattern.both (Pattern.char k) q).Leaves (c :: rest) y := by
  rintro ⟨z, ⟨d, hd, hz⟩, -⟩
  obtain ⟨rfl, -⟩ := List.cons.inj hz
  exact h (eq_of_beq hd)

/-- The assignment rule of a language finds an assignment and captures its name and value. -/
theorem exists_assignment (hv : IsValue value) :
    ∃ m, (grammarOf l).assignment.search? (assignText x.name value) = some m ∧
      m.get? "name" = some x.name ∧ m.get? "value" = some value := by
  have hequals := takes_value hv.toIsStatement.isArguments hv.noEquals
  cases l with
  | python =>
    have hnoType {tail : List Char} : Takes (Pattern.optional Python.annotation) [] ('=' :: tail) [] :=
      Takes.optional_none fun z => not_leaves_char (by decide)
    have hbehind := (Takes.one_blank rfl).before (hnoType.before hequals)
    have hname := (Takes.capture "name" (takes_name x)).before hbehind
    exact ⟨_, hname.search?_eq, rfl, rfl⟩
  | java =>
    have hbehind := (Takes.one_blank rfl).before hequals
    have hname := (Takes.capture "name" (takes_name x)).before hbehind
    -- Neither a modifier nor a type stands in front, as the name is none.
    refine ⟨_, Takes.search?_eq (Takes.before (x := []) (Takes.many_none fun z => ?_)
      (Takes.before (x := []) (Takes.optional_none fun z => ?_) hname)), rfl, rfl⟩
    · exact x.not_leaves_spaced _ (by decide) (by decide) Starts.one.both
    · exact x.not_leaves_spaced _ (by decide) (by decide) Starts.one.both
  | cpp =>
    have hindex {tail : List Char} :
        Takes (Pattern.optional (seq [Pattern.char '[', .run true Text.isDecimalDigit, Pattern.char ']'])) []
          (' ' :: tail) [] :=
      Takes.optional_none fun z => not_leaves_char (by decide)
    have hbehind := hindex.before ((Takes.one_blank rfl).before hequals)
    have hname := (Takes.capture "name" (takes_name x)).before hbehind
    refine ⟨_, Takes.search?_eq (Takes.before (x := []) (Takes.many_none fun z => ?_)
      (Takes.before (x := []) (Takes.optional_none fun z => ?_) hname)), rfl, rfl⟩
    · exact x.not_leaves_spaced _ (by decide) (by decide) Starts.one.both
    · -- A type may have a star behind it in place of blanks.
      rintro ⟨w, htype, hstar | hblanks⟩
      · exact x.not_leaves_call _ (by decide) Starts.one.both (by decide) (by decide) (by decide)
          ⟨w, htype, hstar⟩
      · exact x.not_leaves_spaced _ (by decide) (by decide) Starts.one.both ⟨w, htype, hblanks⟩

theorem isStatement_assignText (hv : IsValue value) : IsStatement (assignText x.name value) :=
  x.isTerm_name.toIsStatement.between (z := [' ', '=', ' ']) hv.toIsStatement (by decide) (by decide)

/-- An assignment is neither passed over nor a print. -/
theorem statement_assignText (st : State) :
    State.statement (grammarOf l) st (assignText x.name value) =
      match assign? (grammarOf l) st (assignText x.name value) with
      | some st => st
      | none =>
        match input? (grammarOf l) st (assignText x.name value) with
        | some st => st
        | none => st.passOver (grammarOf l) (assignText x.name value) := by
  have hgoes : ¬ ((assignText x.name value).isEmpty ||
      (grammarOf l).skip.occursIn (assignText x.name value)) = true := by
    rw [Bool.or_eq_true, not_or]
    exact ⟨Bool.false_ne_true, assignText_not_skipped x value⟩
  unfold State.statement print?
  rw [if_neg hgoes, firstPrint?_assignText]
  rfl

/-- An assignment gives the variable its value if it is a text that is known. -/
theorem statement_assign_known (hv : IsValue value) (st : State) {t : List Char}
    (hknown : resolve? (grammarOf l).style st.store value = some (.text t)) :
    State.statement (grammarOf l) st (assignText x.name value) =
      { st with store := st.store.put x.name (.text t) } := by
  obtain ⟨m, hsearch, hname, hvalue⟩ := exists_assignment x hv
  have hassign : assign? (grammarOf l) st (assignText x.name value) =
      some { st with store := st.store.put x.name (.text t) } := by
    unfold assign?
    rw [hsearch, Option.bind_some, hname, hvalue]
    simp only [Option.getD_some]
    rw [hknown]
    rfl
  rw [statement_assignText, hassign]

/-- An assignment of a value that is not known makes the variable unknown, unless it reads. -/
theorem statement_assign_unknown (hv : IsValue value) (hreads : ReadsNothing value) (st : State)
    (hunknown : resolve? (grammarOf l).style st.store value = none) :
    State.statement (grammarOf l) st (assignText x.name value) =
      { st with store := st.store.forget x.name } := by
  obtain ⟨m, hsearch, hname, hvalue⟩ := exists_assignment x hv
  have hassign : assign? (grammarOf l) st (assignText x.name value) = none := by
    unfold assign?
    rw [hsearch, Option.bind_some, hvalue, Option.getD_some, hunknown]
    rfl
  have hinput : input? (grammarOf l) st (assignText x.name value) = none := by
    unfold input?
    rw [firstInput?_assignText x hreads]
    rfl
  rw [statement_assignText, hassign, hinput]
  unfold State.passOver
  rw [hsearch]
  dsimp only
  rw [hname, Option.getD_some]

end Assignment

def declareText (name value : List Char) : List Char := "int ".toList ++ assignText name value

section Declaration

variable (x : Variable .cpp) {value : List Char}

theorem takes_int {y : List Char} :
    Takes
      (words
        ["std::string", "string", "int", "long", "short", "double", "float", "bool", "char", "auto", "size_t"])
      "int".toList y [] := by
  refine Takes.right (fun z h => ?_) (Takes.right (fun z h => ?_) (Takes.first_word "int" _))
  · cases h
  · cases h

/-- The assignment rule finds a declaration and captures its name and value. -/
theorem exists_declaration (hv : IsArguments value) (hequals : value.head? ≠ some '=') :
    ∃ m, (grammarOf .cpp).assignment.search? (declareText x.name value) = some m ∧
      m.get? "name" = some x.name ∧ m.get? "value" = some value := by
  have hindex {tail : List Char} :
      Takes (Pattern.optional (seq [Pattern.char '[', .run true Text.isDecimalDigit, Pattern.char ']'])) []
        (' ' :: tail) [] :=
    Takes.optional_none fun z => not_leaves_char (by decide)
  have hbehind := hindex.before ((Takes.one_blank rfl).before (takes_value hv hequals))
  have hname := (Takes.capture "name" (takes_name x)).before hbehind
  have hfirst : Text.isBlank x.first = false := isBlank_of_isNameChar (x.isNameChar_of_mem List.mem_cons_self)
  have hblanks {tail : List Char} : Takes someBlanks [' '] (x.name ++ tail) [] :=
    (Takes.one (c := ' ') rfl).both (Takes.no_blanks hfirst)
  -- The name and no star stands behind the blank.
  have hstar {tail z : List Char} :
      ¬ (seq [blanks, Pattern.char '*', blanks]).Leaves ([' '] ++ (x.name ++ tail)) z := by
    rintro ⟨w, ⟨passed, hpassed, hw⟩, w', ⟨c, hc, rfl⟩, -⟩
    rcases passed with _ | ⟨d, _ | ⟨d', passed⟩⟩
    · obtain ⟨rfl, -⟩ := List.cons.inj hw
      cases hc
    · obtain ⟨-, hw⟩ := List.cons.inj hw
      obtain ⟨hsame, -⟩ := List.cons.inj hw
      exact x.ne_first (by decide) (hsame.trans (eq_of_beq hc))
    · obtain ⟨-, hw⟩ := List.cons.inj hw
      obtain ⟨rfl, -⟩ := List.cons.inj hw
      rw [hpassed x.first (by simp)] at hfirst
      cases hfirst
  have htype :=
    ((Takes.capture "type" takes_int).both (Takes.right (fun z => hstar) hblanks)).optional_some.before hname
  refine ⟨_, Takes.search?_eq (Takes.before (x := []) (Takes.many_none fun z => ?_) htype), rfl, rfl⟩
  rintro ⟨w, h | h | h | h | h | h, -⟩ <;> cases h

theorem isStatement_declareText (hv : IsValue value) : IsStatement (declareText x.name value) := by
  have hint : IsTerm "int".toList := isTerm_of_isWordChar (by decide) (List.all_eq_true.mp (by decide))
  exact hint.toIsStatement.between (z := [' ']) (isStatement_assignText x hv) (by decide) (by decide)

/-- A declaration is nothing but an assignment: it gives the variable its value if that is known and forgets the
variable otherwise. -/
theorem statement_declareText (hv : IsArguments value) (hequals : value.head? ≠ some '=') (st : State) :
    State.statement (grammarOf .cpp) st (declareText x.name value) =
      { st with
        store :=
          match resolve? (grammarOf .cpp).style st.store value with
          | some v => st.store.put x.name v
          | none => st.store.forget x.name } := by
  obtain ⟨m, hsearch, hname, hvalue⟩ := exists_declaration x hv hequals
  have hskip : ¬ (grammarOf .cpp).skip.occursIn (declareText x.name value) = true := by
    refine not_occursIn_of_leaves ?_
    rintro y (⟨c, hc, h⟩ | ⟨z, h, -⟩)
    · cases h
      cases hc
    · cases h
  have hgoes : ¬ ((declareText x.name value).isEmpty ||
      (grammarOf .cpp).skip.occursIn (declareText x.name value)) = true := by
    rw [Bool.or_eq_true, not_or]
    exact ⟨Bool.false_ne_true, hskip⟩
  -- No other rule finds a statement that begins as a declaration does.
  have hprint : firstPrint? (declareText x.name value) (grammarOf .cpp).prints = none := by
    refine (firstPrint?_cons_none rfl ?_).trans ((firstPrint?_cons_none rfl ?_).trans
      ((firstPrint?_cons_none rfl ?_).trans rfl))
    · rintro y ⟨_, h | h, _, h' | h', -⟩ <;> cases h <;> cases h'
    · rintro y ⟨_, h | h, _, h', -⟩ <;> cases h
      cases h'
    · rintro y ⟨_, h, -⟩
      cases h
  have hinput : firstInput? (declareText x.name value) (grammarOf .cpp).inputs = none := by
    refine (firstInput?_cons_none rfl ?_).trans ((firstInput?_cons_none rfl ?_).trans
      ((firstInput?_cons_none rfl ?_).trans rfl))
    · rintro y ⟨_, h | h, _, h', -⟩ <;> cases h
      cases h'
    · rintro y ⟨_, h | h, _, h', -⟩ <;> cases h
      cases h'
    · rintro y ⟨_, h, -⟩
      cases h
  have htyped (type : Option (List Char)) (v : Literal) : typed (grammarOf .cpp) type v = v := by
    unfold typed
    cases v <;> simp [grammarOf, Cpp.grammar, Cpp.style]
  unfold State.statement print? assign? input? State.passOver
  rw [if_neg hgoes, hprint, hinput, hsearch]
  simp only [Option.map_none, Option.bind_some, hname, hvalue, Option.getD_some, htyped]
  cases resolve? (grammarOf .cpp).style st.store value <;> rfl

end Declaration

theorem isValue_literalOf (t : List Char) : IsValue (literalOf t) where
  toIsStatement := (isTerm_literalOf t).toIsStatement
  noEquals := by
    intro h
    cases h

namespace Variable

variable (x : Variable l)

theorem isValue_name : IsValue x.name where
  toIsStatement := x.isTerm_name.toIsStatement
  noEquals := fun h => x.ne_first (k := '=') (by decide) (Option.some.inj h)

theorem readsNothing_name : ReadsNothing x.name where
  marks := by
    intro k hk
    apply x.notMem_name
    simp only [List.mem_cons, List.not_mem_nil, or_false] at hk
    rcases hk with rfl | rfl | rfl | rfl <;> rfl
  call := Or.inl (x.notMem_name (by decide))

end Variable

def computeCall : List Char := "compute()".toList

theorem isValue_computeCall : IsValue computeCall where
  ne_nil := by decide
  tight := by
    constructor
    all_goals
      rintro c ⟨⟩
      decide
  oneLine := by decide
  inLine := by
    intro r hr
    have hname : ∀ r ∈ Reader.ofLine, "compute".toList.all r.ignores = true := by decide
    have hempty : r.Skips [] := .of_ignores rfl
    exact (Reader.Skips.of_ignores (hname r hr)).append (.between (Reader.pairs_parentheses r hr) hempty)
  last := by decide
  noEquals := by decide

theorem readsNothing_computeCall : ReadsNothing computeCall where
  marks := by
    intro k hk
    simp only [List.mem_cons, List.not_mem_nil, or_false] at hk
    rcases hk with rfl | rfl | rfl | rfl <;> decide
  call := Or.inr (by decide)

theorem resolve?_computeCall (l : Scanned) (store : Store) :
    resolve? (grammarOf l).style store computeCall = none := by
  cases l <;> rfl

end Snippet.Scan
