import Snippet.Proofs.PrintedLiteral

/-!
The names of a scanned program's variables. A name is a term like a literal; its value is what the store holds
for it, so a print of a variable prints the text that is known of it.
-/

namespace Snippet.Scan

def isNameChar (c : Char) : Bool := c.isAlphanum || c == '_'

def blankCodes : List Nat :=
  [9, 10, 11, 12, 13, 0x20, 0x85, 0xA0, 0x1680, 0x2000, 0x2001, 0x2002, 0x2003, 0x2004, 0x2005, 0x2006, 0x2007,
    0x2008, 0x2009, 0x200A, 0x2028, 0x2029, 0x202F, 0x205F, 0x3000]

section Characters

variable {c k : Char}

theorem code_of_isAlpha (h : c.isAlpha = true) :
    (65 ≤ c.toNat ∧ c.toNat ≤ 90) ∨ (97 ≤ c.toNat ∧ c.toNat ≤ 122) := by
  rcases Bool.or_eq_true_iff.mp (h : (c.isUpper || c.isLower) = true) with hupper | hlower
  · obtain ⟨hge, hle⟩ : 'A'.val ≤ c.val ∧ c.val ≤ 'Z'.val := of_decide_eq_true hupper
    exact Or.inl ⟨UInt32.le_iff_toNat_le.mp hge, UInt32.le_iff_toNat_le.mp hle⟩
  · obtain ⟨hge, hle⟩ := Bool.and_eq_true_iff.mp hlower
    exact Or.inr ⟨UInt32.le_iff_toNat_le.mp (of_decide_eq_true hge),
      UInt32.le_iff_toNat_le.mp (of_decide_eq_true hle)⟩

theorem ne_of_isAlpha (hc : c.isAlpha = true) (hk : k.isAlpha = false) : c ≠ k := by
  rintro rfl
  rw [hc] at hk
  cases hk

theorem isDigit_of_isAlpha (h : c.isAlpha = true) : c.isDigit = false := by
  have hletter := code_of_isAlpha h
  rw [Bool.eq_false_iff]
  intro hdigit
  have hcode : 48 ≤ c.toNat ∧ c.toNat ≤ 57 := Char.isDigit_iff_toNat.mp hdigit
  omega

/-- A digit begins no name. -/
theorem isNameStart_of_isDigit (h : c.isDigit = true) : Pattern.isNameStart c = false := by
  unfold Pattern.isNameStart
  rw [Bool.or_eq_false_iff]
  refine ⟨Bool.eq_false_iff.mpr fun halpha => ?_, beq_eq_false_iff_ne.mpr ?_⟩
  · rw [isDigit_of_isAlpha halpha] at h
    cases h
  · rintro rfl
    cases h

/-- The characters of names are digits, letters and the underscore. -/
theorem code_of_isNameChar (h : isNameChar c = true) :
    (48 ≤ c.toNat ∧ c.toNat ≤ 57) ∨ (65 ≤ c.toNat ∧ c.toNat ≤ 90) ∨ (97 ≤ c.toNat ∧ c.toNat ≤ 122) ∨
      c.toNat = 95 := by
  simp only [isNameChar, Char.isAlphanum, Bool.or_eq_true, beq_iff_eq] at h
  rcases h with (halpha | hdigit) | rfl
  · rcases code_of_isAlpha halpha with hupper | hlower
    · exact Or.inr (Or.inl hupper)
    · exact Or.inr (Or.inr (Or.inl hlower))
  · exact Or.inl (Char.isDigit_iff_toNat.mp hdigit)
  · exact Or.inr (Or.inr (Or.inr rfl))

theorem ne_of_isNameChar (hc : isNameChar c = true) (hk : isNameChar k = false) : c ≠ k := by
  rintro rfl
  rw [hc] at hk
  cases hk

theorem isWordChar_of_isNameChar (h : isNameChar c = true) : Text.isWordChar c = true := by
  have hcode := code_of_isNameChar h
  unfold Text.isWordChar
  rw [if_pos (by omega)]
  exact h

/-- A character of a word is no blank. -/
theorem isBlank_of_isWordChar (h : Text.isWordChar c = true) : Text.isBlank c = false := by
  have hnone : ∀ n ∈ blankCodes, Text.isWordChar (Char.ofNat n) = false := by decide +kernel
  rw [Bool.eq_false_iff]
  intro hblank
  have hcode : c.toNat ∈ blankCodes := by
    simp only [Text.isBlank, Bool.or_eq_true, Bool.and_eq_true, decide_eq_true_eq, beq_iff_eq] at hblank
    simp only [blankCodes, List.mem_cons, List.not_mem_nil, or_false]
    omega
  have hword := hnone c.toNat hcode
  rw [Char.ofNat_toNat, h] at hword
  cases hword

theorem isBlank_of_isNameChar (h : isNameChar c = true) : Text.isBlank c = false :=
  isBlank_of_isWordChar (isWordChar_of_isNameChar h)

theorem ne_of_isWordChar (hc : Text.isWordChar c = true) (hk : Text.isWordChar k = false) : c ≠ k := by
  rintro rfl
  rw [hc] at hk
  cases hk

/-- All readers ignore the characters of words. -/
theorem ignores_of_isWordChar (h : Text.isWordChar c = true) {r : Reader}
    (hr : r ∈ Reader.ofLine ++ Reader.ofArguments) : r.ignores c = true := by
  -- A character of a word is none of the marks that readers look at.
  have hne {k : Char} (hk : Text.isWordChar k = false) : (c == k) = false :=
    beq_eq_false_iff_ne.mpr (ne_of_isWordChar h hk)
  have hquote : isQuote c = false := by
    unfold isQuote
    rw [hne (by decide), hne (by decide)]
    rfl
  have hopens : opensAny c = false ∧ opensStatement c = false := by
    unfold opensAny opensStatement
    rw [hne (by decide), hne (by decide), hne (by decide)]
    exact ⟨rfl, rfl⟩
  have hcloses : closesAny c = false ∧ closesStatement c = false := by
    unfold closesAny closesStatement
    rw [hne (by decide), hne (by decide), hne (by decide)]
    exact ⟨rfl, rfl⟩
  have hends : endsStatement c = false := by
    unfold endsStatement
    rw [hne (by decide), hne (by decide), hne (by decide)]
    rfl
  have hmarker {k : Char} (hk : Text.isWordChar k = false) : (Reader.marker k).ignores c = true := by
    simp [Reader.ignores, Reader.marker, hquote, ne_of_isWordChar h hk]
  have hseparator {k : Char} (hk : Text.isWordChar k = false) : (Reader.separator k).ignores c = true := by
    simp [Reader.ignores, Reader.separator, hquote, hopens.1, hcloses.1, ne_of_isWordChar h hk]
  have hstatements : Reader.statements.ignores c = true := by
    simp [Reader.ignores, Reader.statements, hquote, hopens.2, hcloses.2, hends]
  simp only [Reader.ofLine, Reader.ofArguments, List.cons_append, List.nil_append, List.mem_cons,
    List.not_mem_nil, or_false] at hr
  rcases hr with rfl | rfl | rfl | rfl | rfl | rfl
  · exact hmarker (by decide)
  · exact hmarker (by decide)
  · exact hstatements
  · exact hseparator (by decide)
  · exact hseparator (by decide)
  · exact hseparator (by decide)

theorem ignores_of_isNameChar (h : isNameChar c = true) {r : Reader}
    (hr : r ∈ Reader.ofLine ++ Reader.ofArguments) : r.ignores c = true :=
  ignores_of_isWordChar (isWordChar_of_isNameChar h) hr

end Characters

-- Words, and identifiers, which are what a term may be looked up as.

/-- A word is one term for every reader: none of them finds anything in it to stop at. -/
theorem isTerm_of_isWordChar {word : List Char} (hne : word ≠ []) (h : ∀ c ∈ word, Text.isWordChar c = true) :
    IsTerm word where
  ne_nil := hne
  tight :=
    ⟨fun _ hc => isBlank_of_isWordChar (h _ (List.mem_of_mem_head? hc)),
      fun _ hc => isBlank_of_isWordChar (h _ (List.mem_of_mem_getLast? hc))⟩
  oneLine := fun hc => ne_of_isWordChar (h _ hc) (by decide) rfl
  inLine := fun r hr => .of_ignores (List.all_eq_true.mpr fun c hc =>
    ignores_of_isWordChar (h c hc) (List.mem_append_left _ hr))
  last := fun hlast => ne_of_isWordChar (k := ';') (h _ (List.mem_of_mem_getLast? hlast)) (by decide) rfl
  inArguments := fun r hr => .of_ignores (List.all_eq_true.mpr fun c hc =>
    ignores_of_isWordChar (h c hc) (List.mem_append_right _ hr))
  keyword := by
    have hnone : word.dropWhile (· != '=') = [] := by
      apply List.dropWhile_eq_nil_iff.mpr
      intro c hc
      exact bne_iff_ne.mpr (ne_of_isWordChar (h c hc) (by decide))
    unfold keyword?
    rw [hnone]

section Identifiers

variable {name : List Char}

theorem isNameChar_of_isName (h : isName name = true) {c : Char} (hc : c ∈ name) : isNameChar c = true := by
  cases name with
  | nil => cases hc
  | cons first rest =>
    obtain ⟨hfirst, hrest⟩ := Bool.and_eq_true_iff.mp h
    rcases List.mem_cons.mp hc with rfl | hc
    · rcases Bool.or_eq_true_iff.mp hfirst with halpha | hunderscore
      · simp [isNameChar, Char.isAlphanum, halpha]
      · simp [isNameChar, eq_of_beq hunderscore]
    · exact List.all_eq_true.mp hrest c hc

theorem notMem_of_isName (h : isName name = true) {k : Char} (hk : isNameChar k = false) : k ∉ name :=
  fun hmem => ne_of_isNameChar (isNameChar_of_isName h hmem) hk rfl

theorem isWordChar_of_isName (h : isName name = true) : ∀ c ∈ name, Text.isWordChar c = true :=
  fun _ hc => isWordChar_of_isNameChar (isNameChar_of_isName h hc)

theorem isTerm_of_isName (h : isName name = true) : IsTerm name := by
  apply isTerm_of_isWordChar
  · rintro rfl
    cases h
  · exact isWordChar_of_isName h

end Identifiers

def literalWords : List String := ["true", "True", "false", "False", "null", "None", "nullptr", "NULL"]

/-- A term that is none of the words for literals stands for none. -/
theorem literalWord?_of_notMem {term : List Char} (h : ∀ word ∈ literalWords, term ≠ word.toList) :
    literalWord? term = none := by
  have hne {word : String} (hword : word ∈ literalWords) : (term == word.toList) = false :=
    beq_eq_false_iff_ne.mpr (h word hword)
  have hnull : ¬ ["null".toList, "None".toList, "nullptr".toList, "NULL".toList].contains term = true := by
    intro hmem
    rw [List.contains_iff_mem] at hmem
    simp only [List.mem_cons, List.not_mem_nil, or_false] at hmem
    rcases hmem with hmem | hmem | hmem | hmem
    · exact h _ (by decide) hmem
    · exact h _ (by decide) hmem
    · exact h _ (by decide) hmem
    · exact h _ (by decide) hmem
  unfold literalWord?
  rw [hne (by decide), hne (by decide), hne (by decide), hne (by decide), if_neg hnull]
  rfl

def reserved : Scanned → List String
  -- The words of a language that cannot be names of variables: words for values, words that begin
  -- statements or declarations, names of types and the word for a line break.
  | .python => literalWords ++ ["import", "from"]
  | .java =>
    literalWords ++ ["import", "package", "final", "static", "private", "public", "protected"] ++
      ["String", "int", "long", "short", "byte", "double", "float", "boolean", "char", "var"]
  | .cpp =>
    literalWords ++ ["using", "endl", "const", "static", "unsigned", "signed"] ++
      ["std::string", "string", "int", "long", "short", "double", "float", "bool", "char", "auto", "size_t"]

/-- A variable of a program: its name begins with an ASCII letter, goes on with ASCII letters, digits and
underscores, and is no reserved word. -/
structure Variable (l : Scanned) where
  first : Char
  rest : List Char
  first_isAlpha : first.isAlpha = true
  rest_isName : ∀ c ∈ rest, isNameChar c = true
  not_reserved : ∀ word ∈ reserved l, first :: rest ≠ word.toList

namespace Variable

variable {l : Scanned} (x : Variable l)

def name : List Char := x.first :: x.rest

theorem isName_name : isName x.name = true := by
  have hrest : x.rest.all (fun c => c.isAlphanum || c == '_') = true := List.all_eq_true.mpr x.rest_isName
  unfold name isName
  dsimp only
  rw [x.first_isAlpha, hrest]
  rfl

theorem isNameChar_of_mem {c : Char} (hc : c ∈ x.name) : isNameChar c = true :=
  isNameChar_of_isName x.isName_name hc

theorem notMem_name {k : Char} (hk : isNameChar k = false) : k ∉ x.name := notMem_of_isName x.isName_name hk

theorem isTerm_name : IsTerm x.name := isTerm_of_isName x.isName_name

theorem ne_first {k : Char} (hk : k.isAlpha = false) : x.first ≠ k := ne_of_isAlpha x.first_isAlpha hk

end Variable

theorem dropStart?_of_ne {c d : Char} (h : c ≠ d) (more rest : List Char) :
    dropStart? (c :: more) (d :: rest) = none := by
  unfold dropStart?
  rw [List.isPrefixOf, beq_eq_false_iff_ne.mpr h, Bool.false_and, if_neg Bool.false_ne_true]

theorem dropStart?_of_notMem {c : Char} {text : List Char} (h : c ∉ text) :
    dropStart? [c] text = none := by
  cases text with
  | nil => rfl
  | cons d rest =>
    apply dropStart?_of_ne
    rintro rfl
    exact h List.mem_cons_self

/-- What is no call is no conversion. -/
theorem firstWrapped?_of_notMem {term : List Char} (h : '(' ∉ term) (wrappers : List String) :
    firstWrapped? term wrappers = none := by
  induction wrappers with
  | nil => rfl
  | cons wrapper wrappers ih =>
    have hwrapped : wrapped? wrapper.toList term = none := by
      unfold wrapped?
      cases hrest : dropStart? wrapper.toList term with
      | none => rfl
      | some rest =>
        have hmem : '(' ∉ Text.trimStart rest := by
          unfold dropStart? at hrest
          split at hrest
          · obtain rfl := Option.some.inj hrest
            exact fun hin => h (List.mem_of_mem_drop ((List.dropWhile_suffix _).subset hin))
          · cases hrest
        rw [Option.bind_some, dropStart?_of_notMem hmem]
        rfl
    unfold firstWrapped?
    rw [hwrapped]
    exact ih

theorem quoted?_of_ne {q : Char} (hdouble : q ≠ '"') (hsingle : q ≠ '\'') (rest : List Char) :
    quoted? (q :: rest) = none := by
  have hq : (q != '"' && q != '\'') = true := by
    rw [Bool.and_eq_true, bne_iff_ne, bne_iff_ne]
    exact ⟨hdouble, hsingle⟩
  unfold quoted?
  dsimp only
  rw [if_pos hq]

theorem quoted?_of_notMem {term : List Char} (hdouble : '"' ∉ term) (hsingle : '\'' ∉ term) :
    quoted? term = none := by
  cases term with
  | nil => rfl
  | cons q rest =>
    exact quoted?_of_ne (List.ne_of_not_mem_cons hdouble).symm (List.ne_of_not_mem_cons hsingle).symm rest

/-- What begins with a letter does not begin as a number does, not even without the letters that may end
numbers. -/
theorem number?_of_isAlpha {c : Char} (hc : c.isAlpha = true) (rest : List Char) : number? (c :: rest) = none := by
  -- A letter begins no prefix, no sign and no digits.
  have hhex (mark : Char) : dropStart? ['0', mark] (c :: rest) = none :=
    dropStart?_of_ne (ne_of_isAlpha hc (by decide)).symm _ _
  have hdigits (p : Char → Bool) :
      ungroup (Text.dropEndWhile p (c :: rest)) = [] ∨
        ∃ more, ungroup (Text.dropEndWhile p (c :: rest)) = c :: more := by
    rcases Text.dropEndWhile_cons p c rest with hnil | ⟨y, hy⟩
    · exact Or.inl (congrArg ungroup hnil)
    · right
      refine ⟨ungroup y, (congrArg ungroup hy).trans ?_⟩
      unfold ungroup
      rw [List.filter_cons_of_pos]
      rw [Bool.and_eq_true, bne_iff_ne, bne_iff_ne]
      exact ⟨ne_of_isAlpha hc (by decide), ne_of_isAlpha hc (by decide)⟩
  unfold number?
  split
  rename_i sign digits hsign
  have hparts : sign = [] ∧ digits = c :: rest := by
    split at hsign
    · rename_i more hname
      exact absurd (List.cons.inj hname).1 (ne_of_isAlpha hc (by decide))
    · cases hsign
      exact ⟨rfl, rfl⟩
  obtain ⟨rfl, rfl⟩ := hparts
  have hfirst : ¬ ((c.isDigit || c == '.') = true) := by
    rw [isDigit_of_isAlpha hc, beq_eq_false_iff_ne.mpr (ne_of_isAlpha hc (by decide))]
    exact Bool.false_ne_true
  have hnohex : (dropStart? "0x".toList (c :: rest)).or (dropStart? "0X".toList (c :: rest)) = none := by
    rw [show "0x".toList = ['0', 'x'] from rfl, show "0X".toList = ['0', 'X'] from rfl, hhex, hhex]
    rfl
  rw [hnohex]
  dsimp only
  -- What is left once the suffix is gone begins with the same letter, unless nothing is left.
  rcases hdigits fun c => "LlfFdDuU".toList.contains c with hnil | ⟨more, hmore⟩
  · rw [hnil]
  · rw [hmore]
    dsimp only
    rw [if_neg]
    rw [Bool.and_eq_true]
    exact fun h => hfirst h.1

/-- A term without quotes and parentheses is a number or a word for a value, or it is looked up if it is an
identifier. -/
theorem resolveWithin?_of_unmarked {term : List Char} (hne : term ≠ []) (htrim : Text.trim term = term)
    (hmarks : ∀ k ∈ ['"', '\'', '('], k ∉ term) (style : Style) (store : Store) (fuel : Nat) :
    resolveWithin? style store (fuel + 1) term =
      match number? term, literalWord? term with
      | some digits, _ => some (.number digits)
      | none, some value => some value
      | none, none => if isName term then store.get? term else none := by
  have hdouble : '"' ∉ term := hmarks _ (by decide)
  have hsingle : '\'' ∉ term := hmarks _ (by decide)
  have hparenthesis : '(' ∉ term := hmarks _ (by decide)
  have hnonempty : ¬ term.isEmpty = true := fun h => hne (List.isEmpty_iff.mp h)
  rw [resolveWithin?, htrim]
  dsimp only
  rw [if_neg hnonempty, quoted?_of_notMem hdouble hsingle]
  dsimp only
  split
  · -- A template would have a quote behind its first letter.
    rename_i body hbody
    cases term with
    | nil => cases hbody
    | cons c rest =>
      dsimp only at hbody
      rw [quoted?_of_notMem (fun h => hdouble (List.mem_cons_of_mem c h))
        (fun h => hsingle (List.mem_cons_of_mem c h)), ite_self] at hbody
      cases hbody
  · rw [dropStart?_of_notMem hparenthesis, firstWrapped?_of_notMem hparenthesis]
    cases number? term with
    | some digits => rfl
    | none => cases literalWord? term <;> rfl

section Words

variable {word : List Char} (hne : word ≠ []) (hword : ∀ c ∈ word, Text.isWordChar c = true)

include hne hword

/-- A word is a number or a word for a value, or it is looked up if it is an identifier. -/
theorem resolveWithin?_of_word (style : Style) (store : Store) (fuel : Nat) :
    resolveWithin? style store (fuel + 1) word =
      match number? word, literalWord? word with
      | some digits, _ => some (.number digits)
      | none, some value => some value
      | none, none => if isName word then store.get? word else none := by
  apply resolveWithin?_of_unmarked hne (isTerm_of_isWordChar hne hword).tight.trim_eq
  intro k hk hmem
  have hmark : Text.isWordChar k = false := by
    simp only [List.mem_cons, List.not_mem_nil, or_false] at hk
    rcases hk with rfl | rfl | rfl <;> rfl
  exact ne_of_isWordChar (hword k hmem) hmark rfl

/-- A print of a word that is none for a line break prints the value of the word. -/
theorem renderArguments?_of_word {l : Scanned} (hbreak : l = .cpp → word ≠ "endl".toList) (store : Store) :
    renderArguments? (grammarOf l).style store word =
      (resolve? (grammarOf l).style store word).map (Literal.render (grammarOf l).style) := by
  apply renderArguments?_term (isTerm_of_isWordChar hne hword)
  intro hany
  obtain ⟨text, hmem, hequal⟩ := List.any_eq_true.mp hany
  obtain rfl : text.toList = word := eq_of_beq hequal
  have hother {k : Char} (hk : Text.isWordChar k = false) : k ∉ text.toList :=
    fun hin => ne_of_isWordChar (hword k hin) hk rfl
  cases l with
  | python => cases hmem
  | java => cases hmem
  | cpp =>
    simp only [grammarOf, Cpp.grammar, Cpp.style, List.mem_cons, List.not_mem_nil, or_false] at hmem
    rcases hmem with rfl | rfl | rfl | rfl
    · exact absurd rfl (hbreak rfl)
    · exact absurd (by decide) (hother (k := ':') (by decide))
    · exact absurd (by decide) (hother (k := '\'') (by decide))
    · exact absurd (by decide) (hother (k := '"') (by decide))

end Words

/-- A name that is looked up where it stands as a term: an identifier that can be read as nothing else. -/
structure IsLookedUp (name : List Char) : Prop where
  identifier : isName name = true
  not_number : number? name = none
  not_word : literalWord? name = none

section Lookup

variable {name : List Char} (h : IsLookedUp name)

include h

/-- The value of such a name is what the store holds for it. -/
theorem resolveWithin?_of_isName (style : Style) (store : Store) (fuel : Nat) :
    resolveWithin? style store (fuel + 1) name = store.get? name := by
  rw [resolveWithin?_of_word (isTerm_of_isName h.identifier).ne_nil (isWordChar_of_isName h.identifier), h.not_number,
    h.not_word]
  exact if_pos h.identifier

theorem resolve?_of_isName (style : Style) (store : Store) : resolve? style store name = store.get? name :=
  resolveWithin?_of_isName h style store name.length

/-- A print of an identifier that is no word for a line break prints what the store holds for it. -/
theorem renderArguments?_of_isName {l : Scanned} (hbreak : l = .cpp → name ≠ "endl".toList) (store : Store) :
    renderArguments? (grammarOf l).style store name =
      (store.get? name).map (Literal.render (grammarOf l).style) := by
  rw [renderArguments?_of_word (isTerm_of_isName h.identifier).ne_nil (isWordChar_of_isName h.identifier) hbreak,
    resolve?_of_isName h]

end Lookup

namespace Variable

variable {l : Scanned} (x : Variable l)

theorem literalWords_reserved : ∀ word ∈ literalWords, word ∈ reserved l := by
  cases l <;> decide

theorem literalWord?_name : literalWord? x.name = none :=
  literalWord?_of_notMem fun word hword => x.not_reserved word (literalWords_reserved word hword)

/-- No other reading of a name as a term is possible. -/
theorem isLookedUp_name : IsLookedUp x.name :=
  ⟨x.isName_name, number?_of_isAlpha x.first_isAlpha x.rest, x.literalWord?_name⟩

theorem resolve?_name (style : Style) (store : Store) : resolve? style store x.name = store.get? x.name :=
  resolve?_of_isName x.isLookedUp_name style store

/-- A print of a variable prints what the store holds for it. -/
theorem renderArguments?_name (store : Store) :
    renderArguments? (grammarOf l).style store x.name =
      (store.get? x.name).map (Literal.render (grammarOf l).style) := by
  apply renderArguments?_of_isName x.isLookedUp_name
  rintro rfl
  exact x.not_reserved "endl" (by decide)

end Variable

end Snippet.Scan
