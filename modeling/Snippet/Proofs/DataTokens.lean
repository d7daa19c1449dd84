import Snippet.Proofs.PrintedForm

/-!
The tokens of printed data. A printed form is cut into the tokens of its tree whatever follows it, as long as
what follows does not go on with a name: quotes end where they should, keys without quotes are words, and
none of the marks that occur begins a longer one. As newlines are escaped, all tokens stand on one line.
-/

namespace Snippet.Script

namespace Data

def keyToken (key : String) : Token := if isPlainKey key.toList then .word key else .string key

mutual

def tokens : Data → List Token
  | .undefined => [.word "undefined"]
  | .null => [.word "null"]
  | .bool b => [.word (if b then "true" else "false")]
  | .integer n => [.number (Float.ofInt n)]
  | .string s => [.string s]
  | .array [] => [.mark "[", .mark "]"]
  | .array (d :: rest) => .mark "[" :: (d.tokens ++ (itemTokens rest ++ [.mark "]"]))
  | .object [] => [.mark "\x7b", .mark "\x7d"]
  | .object ((key, d) :: rest) =>
    .mark "\x7b" :: keyToken key :: .mark ":" :: (d.tokens ++ (memberTokens rest ++ [.mark "\x7d"]))

def itemTokens : List Data → List Token
  | [] => []
  | d :: rest => .mark "," :: (d.tokens ++ itemTokens rest)

def memberTokens : List (String × Data) → List Token
  | [] => []
  | (key, d) :: rest =>
    .mark "," :: keyToken key :: .mark ":" :: (d.tokens ++ memberTokens rest)

end

end Data

def wideBlanks : List Nat :=
  [0x85, 0xA0, 0x1680, 0x2000, 0x2001, 0x2002, 0x2003, 0x2004, 0x2005, 0x2006, 0x2007, 0x2008, 0x2009,
   0x200A, 0x2028, 0x2029, 0x202F, 0x205F, 0x3000]

theorem wideBlanks_are_no_letters :
    ∀ n ∈ wideBlanks, Text.countUpTo Text.letterBoundaries n 0 Text.letterBoundaries.size % 2 = 0 := by
  decide +kernel

/-- The code of a character that begins a name: it is a letter, one of `$` and `_`, or beyond ASCII and no
blank. -/
theorem code_of_startsWord {c : Char} (h : startsWord c = true) :
    (65 ≤ c.toNat ∧ c.toNat ≤ 90) ∨ (97 ≤ c.toNat ∧ c.toNat ≤ 122) ∨ c.toNat = 95 ∨ c.toNat = 36 ∨
      (128 ≤ c.toNat ∧ c.toNat ∉ wideBlanks) := by
  simp only [startsWord, Bool.or_eq_true, beq_iff_eq] at h
  obtain (h | rfl) | rfl := h
  · unfold Text.isLetter at h
    split at h
    · obtain hupper | hlower := Bool.or_eq_true_iff.mp (h : (c.isUpper || c.isLower) = true)
      · obtain ⟨hge, hle⟩ : 'A'.val ≤ c.val ∧ c.val ≤ 'Z'.val := of_decide_eq_true hupper
        exact .inl ⟨UInt32.le_iff_toNat_le.mp hge, UInt32.le_iff_toNat_le.mp hle⟩
      · obtain ⟨hge, hle⟩ := Bool.and_eq_true_iff.mp hlower
        exact .inr (.inl ⟨UInt32.le_iff_toNat_le.mp (of_decide_eq_true hge),
          UInt32.le_iff_toNat_le.mp (of_decide_eq_true hle)⟩)
    -- Beyond ASCII the table of letters decides, and no blank is in it.
    · have hwide : c.toNat ∉ wideBlanks := by
        intro hmem
        unfold Text.inBoundaries at h
        rw [wideBlanks_are_no_letters _ hmem] at h
        exact absurd h (by decide)
      exact .inr (.inr (.inr (.inr ⟨by omega, hwide⟩)))
  · exact .inr (.inr (.inl rfl))
  · exact .inr (.inr (.inr (.inl rfl)))

theorem isDigit_eq_false_of_startsWord {c : Char} (h : startsWord c = true) : c.isDigit = false := by
  have hcode := code_of_startsWord h
  rw [Bool.eq_false_iff]
  intro hdigit
  have hrange : 48 ≤ c.toNat ∧ c.toNat ≤ 57 := Char.isDigit_iff_toNat.mp hdigit
  omega

theorem isBlank_eq_false_of_startsWord {c : Char} (h : startsWord c = true) : Text.isBlank c = false := by
  have hcode := code_of_startsWord h
  rw [Bool.eq_false_iff]
  intro hblank
  simp only [Text.isBlank, Bool.or_eq_true, Bool.and_eq_true, decide_eq_true_eq, beq_iff_eq] at hblank
  simp only [wideBlanks, List.mem_cons, List.not_mem_nil, or_false] at hcode
  omega

theorem ne_of_startsWord {c x : Char} (h : startsWord c = true) (hx : startsWord x = false) : c ≠ x := by
  rintro rfl
  rw [h] at hx
  cases hx

def opensComment (text : List Char) : Bool := text.take 2 == ['/', '/'] || text.take 2 == ['/', '*']

theorem opensComment_eq_false {c : Char} {tail : List Char} (hline : ∀ rest, c :: tail ≠ '/' :: '/' :: rest)
    (hblock : ∀ rest, c :: tail ≠ '/' :: '*' :: rest) : opensComment (c :: tail) = false := by
  cases tail with
  | nil =>
    unfold opensComment
    simp
  | cons d tail =>
    have hline' : [c, d] ≠ ['/', '/'] := fun heq => hline tail (congrArg (· ++ tail) heq)
    have hblock' : [c, d] ≠ ['/', '*'] := fun heq => hblock tail (congrArg (· ++ tail) heq)
    exact Bool.or_eq_false_iff.mpr ⟨beq_eq_false_iff_ne.mpr hline', beq_eq_false_iff_ne.mpr hblock'⟩

/-- Where neither a blank nor a comment begins nothing is skipped. -/
theorem skipTrivia_stays {c : Char} {tail : List Char} (hc : Text.isBlank c = false)
    (hcomment : opensComment (c :: tail) = false) (fuel line : Nat) :
    skipTrivia (fuel + 1) ⟨c :: tail, line⟩ = .ok ⟨c :: tail, line⟩ := by
  unfold skipTrivia
  split
  · next heq =>
    obtain ⟨rfl, rfl⟩ := List.cons.inj heq
    cases hcomment
  · next heq =>
    obtain ⟨rfl, rfl⟩ := List.cons.inj heq
    cases hcomment
  · next heq =>
    obtain ⟨rfl, rfl⟩ := List.cons.inj heq
    rw [hc]
    rfl
  · next heq => cases heq

def isSolid (c : Char) : Bool := !Text.isBlank c && c != '/'

theorem isSolid_of_startsWord {c : Char} (h : startsWord c = true) : isSolid c = true := by
  have hslash : c ≠ '/' := ne_of_startsWord h (by decide)
  unfold isSolid
  rw [isBlank_eq_false_of_startsWord h, bne_iff_ne.mpr hslash]
  rfl

theorem skipTrivia_solid {c : Char} (hc : isSolid c = true) (fuel : Nat) (tail : List Char) (line : Nat) :
    skipTrivia (fuel + 1) ⟨c :: tail, line⟩ = .ok ⟨c :: tail, line⟩ := by
  unfold isSolid at hc
  rw [Bool.and_eq_true, Bool.not_eq_true', bne_iff_ne] at hc
  obtain ⟨hblank, hslash⟩ := hc
  refine skipTrivia_stays hblank (opensComment_eq_false ?_ ?_) fuel line
  · exact fun rest heq => hslash (List.cons.inj heq).1
  · exact fun rest heq => hslash (List.cons.inj heq).1

/-- A blank in front of a token makes no difference. -/
theorem tokensFrom_blank {c : Char} (hc : isSolid c = true) (done : List Placed) (fuel : Nat)
    (tail : List Char) :
    tokensFrom done (fuel + 2) ⟨' ' :: c :: tail, 1⟩ = tokensFrom done (fuel + 2) ⟨c :: tail, 1⟩ := by
  have hskip : skipTrivia (fuel + 2) ⟨' ' :: c :: tail, 1⟩ = skipTrivia (fuel + 1) ⟨c :: tail, 1⟩ := rfl
  unfold tokensFrom
  rw [hskip, skipTrivia_solid hc, skipTrivia_solid hc]

/-- One token is taken from a text that begins with neither a blank nor a comment. -/
theorem tokensFrom_token {c : Char} (hc : isSolid c = true) {done : List Placed} {fuel : Nat}
    {tail rest : List Char} {token : Token}
    (htoken : lexToken (fuel + 1) c tail 1 = .ok (token, ⟨rest, 1⟩)) :
    tokensFrom done (fuel + 1) ⟨c :: tail, 1⟩ = tokensFrom (⟨token, 1⟩ :: done) fuel ⟨rest, 1⟩ := by
  rw [tokensFrom, skipTrivia_solid hc]
  simp only [htoken]

def loneMarks : List (Char × String) :=
  [('[', "["), (']', "]"), ('{', "\x7b"), ('}', "\x7d"), ('(', "("), (')', ")"), (',', ","), (':', ":")]

theorem loneMarks_stand_alone : ∀ m ∈ loneMarks, ∀ (rest : List Char) (fuel : Nat),
    isSolid m.1 = true ∧ lexToken fuel m.1 rest 1 = .ok (.mark m.2, ⟨rest, 1⟩) := by
  unfold loneMarks
  simp only [List.forall_mem_cons, List.not_mem_nil, false_implies, implies_true, and_true]
  exact ⟨fun _ _ => ⟨rfl, rfl⟩, fun _ _ => ⟨rfl, rfl⟩, fun _ _ => ⟨rfl, rfl⟩, fun _ _ => ⟨rfl, rfl⟩,
    fun _ _ => ⟨rfl, rfl⟩, fun _ _ => ⟨rfl, rfl⟩, fun _ _ => ⟨rfl, rfl⟩, fun _ _ => ⟨rfl, rfl⟩⟩

def BeginsSolid (text : List Char) : Prop := ∃ c tail, text = c :: tail ∧ isSolid c = true

theorem BeginsSolid.append {text : List Char} (h : BeginsSolid text) (more : List Char) :
    BeginsSolid (text ++ more) := by
  obtain ⟨c, tail, rfl, hc⟩ := h
  exact ⟨c, tail ++ more, rfl, hc⟩

def Apart (rest : List Char) : Prop := ∀ c ∈ rest.head?, continuesWord c = false

theorem apart_cons {c : Char} (hc : continuesWord c = false) (tail : List Char) : Apart (c :: tail) := by
  intro x hx
  obtain rfl := Option.some.inj hx
  exact hc

def placed (tokens : List Token) : List Placed := tokens.map fun t => ⟨t, 1⟩

theorem placed_append (tokens more : List Token) : placed (tokens ++ more) = placed tokens ++ placed more :=
  List.map_append

def Spells (text : List Char) (tokens : List Token) : Prop :=
  ∀ rest, Apart rest → ∀ done fuel, (text ++ rest).length < fuel →
    ∃ fuel', rest.length < fuel' ∧
      tokensFrom done fuel ⟨text ++ rest, 1⟩ = tokensFrom ((placed tokens).reverse ++ done) fuel' ⟨rest, 1⟩

namespace Spells

variable {text more : List Char} {tokens moreTokens : List Token}

theorem nil : Spells [] [] := fun _ _ _ fuel hfuel => ⟨fuel, hfuel, rfl⟩

theorem append (h : Spells text tokens) (h' : Spells more moreTokens)
    (hapart : ∀ rest, Apart rest → Apart (more ++ rest)) : Spells (text ++ more) (tokens ++ moreTokens) := by
  intro rest hrest done fuel hfuel
  rw [List.append_assoc] at hfuel ⊢
  obtain ⟨fuel₁, hfuel₁, htokens⟩ := h (more ++ rest) (hapart rest hrest) done fuel hfuel
  obtain ⟨fuel₂, hfuel₂, hmore⟩ := h' rest hrest ((placed tokens).reverse ++ done) fuel₁ hfuel₁
  refine ⟨fuel₂, hfuel₂, ?_⟩
  rw [htokens, hmore, placed_append, List.reverse_append, List.append_assoc]

/-- A text that is one token. -/
theorem token {c : Char} {tail : List Char} {t : Token} (hc : isSolid c = true)
    (ht : ∀ rest fuel, Apart rest → (tail ++ rest).length < fuel →
      lexToken fuel c (tail ++ rest) 1 = .ok (t, ⟨rest, 1⟩)) : Spells (c :: tail) [t] := by
  intro rest hrest done fuel hfuel
  rw [List.cons_append] at hfuel ⊢
  rw [List.length_cons] at hfuel
  obtain ⟨fuel, rfl⟩ : ∃ n, fuel = n + 1 := ⟨fuel - 1, by omega⟩
  have hlength : (tail ++ rest).length = tail.length + rest.length := List.length_append
  refine ⟨fuel, by omega, ?_⟩
  exact tokensFrom_token hc (ht rest (fuel + 1) hrest (by omega))

/-- A mark is taken whatever follows it. -/
theorem mark {c : Char} {m : String} (hm : (c, m) ∈ loneMarks) (h : Spells text tokens) :
    Spells (c :: text) (.mark m :: tokens) := by
  intro rest hrest done fuel hfuel
  rw [List.cons_append] at hfuel ⊢
  rw [List.length_cons] at hfuel
  obtain ⟨fuel, rfl⟩ : ∃ n, fuel = n + 1 := ⟨fuel - 1, by omega⟩
  obtain ⟨fuel', hfuel', htokens⟩ := h rest hrest (⟨.mark m, 1⟩ :: done) fuel (by omega)
  obtain ⟨hc, htoken⟩ := loneMarks_stand_alone _ hm (text ++ rest) (fuel + 1)
  refine ⟨fuel', hfuel', ?_⟩
  rw [tokensFrom_token hc htoken, htokens]
  unfold placed
  rw [List.map_cons, List.reverse_cons, List.append_assoc]
  rfl

/-- A blank in front of a token is passed. -/
theorem blank (h : Spells text tokens) (hs : BeginsSolid text) : Spells (' ' :: text) tokens := by
  obtain ⟨c, tail, rfl, hc⟩ := hs
  intro rest hrest done fuel hfuel
  rw [List.cons_append, List.cons_append] at hfuel ⊢
  rw [List.length_cons, List.length_cons] at hfuel
  obtain ⟨fuel, rfl⟩ : ∃ n, fuel = n + 2 := ⟨fuel - 2, by omega⟩
  rw [tokensFrom_blank hc]
  exact h rest hrest done (fuel + 2) (by rw [List.cons_append, List.length_cons]; omega)

end Spells

/-- A word is read as far as its characters go. -/
theorem lexToken_word {c : Char} (hc : startsWord c = true) (fuel : Nat) (tail : List Char) (line : Nat) :
    lexToken fuel c tail line =
      .ok (.word (String.ofList (c :: tail.takeWhile continuesWord)), ⟨tail.dropWhile continuesWord, line⟩) := by
  have hpoint : c ≠ '.' := ne_of_startsWord hc (by decide)
  have hdouble : c ≠ '"' := ne_of_startsWord hc (by decide)
  have hsingle : c ≠ '\'' := ne_of_startsWord hc (by decide)
  have htick : c ≠ tick := ne_of_startsWord hc (by decide)
  unfold lexToken
  simp only [isDigit_eq_false_of_startsWord hc, beq_eq_false_iff_ne.mpr hpoint,
    beq_eq_false_iff_ne.mpr hdouble, beq_eq_false_iff_ne.mpr hsingle, beq_eq_false_iff_ne.mpr htick, hc,
    Bool.false_and, Bool.or_false, Bool.false_eq_true, if_false, if_true]

/-- A name is one token. -/
theorem Spells.word {name : List Char} (h : isPlainKey name = true) :
    Spells name [.word (String.ofList name)] := by
  cases name with
  | nil => cases h
  | cons c tail =>
    obtain ⟨hc, htail⟩ := Bool.and_eq_true_iff.mp h
    rw [List.all_eq_true] at htail
    refine Spells.token (isSolid_of_startsWord hc) ?_
    intro rest fuel hrest _
    have hnone : rest.takeWhile continuesWord = [] ∧ rest.dropWhile continuesWord = rest := by
      cases rest with
      | nil => exact ⟨rfl, rfl⟩
      | cons x more =>
        have hx : continuesWord x = false := hrest x rfl
        exact ⟨List.takeWhile_cons_of_neg (by rw [hx]; exact Bool.false_ne_true),
          List.dropWhile_cons_of_neg (by rw [hx]; exact Bool.false_ne_true)⟩
    rw [lexToken_word hc, List.takeWhile_append_of_pos htail, List.dropWhile_append_of_pos htail, hnone.1,
      hnone.2, List.append_nil]

theorem lineAfter_of_ne {c : Char} (h : c ≠ '\n') (line : Nat) : lineAfter c line = line := by
  unfold lineAfter
  rw [beq_eq_false_iff_ne.mpr h]
  rfl

/-- The characters of a string are read back one by one from the way they are written. -/
theorem lexStringFrom_escaped {quote : Char} (hquote : quote = '"' ∨ quote = '\'') (s rest done : List Char)
    (fuel : Nat) (hfuel : s.length < fuel) :
    lexStringFrom quote done fuel ⟨s.flatMap (escapeChar quote) ++ quote :: rest, 1⟩ =
      .ok (.string (String.ofList (done.reverse ++ s)), ⟨rest, 1⟩) := by
  induction s generalizing done fuel with
  | nil =>
    obtain ⟨fuel, rfl⟩ : ∃ n, fuel = n + 1 := ⟨fuel - 1, by rw [List.length_nil] at hfuel; omega⟩
    rw [List.append_nil]
    obtain rfl | rfl := hquote <;> rfl
  | cons c s ih =>
    rw [List.length_cons] at hfuel
    obtain ⟨fuel, rfl⟩ : ∃ n, fuel = n + 1 := ⟨fuel - 1, by omega⟩
    have hmore := ih (c :: done) fuel (by omega)
    rw [List.reverse_cons, List.append_assoc] at hmore
    rw [List.flatMap_cons, List.append_assoc]
    refine Eq.trans ?_ hmore
    -- The escapes are read back by computation; a plain character is none of those that are escaped.
    unfold escapeChar
    split
    · next h => obtain rfl := beq_iff_eq.mp h; rfl
    split
    · next h => obtain rfl := beq_iff_eq.mp h; rfl
    split
    · next h => obtain rfl := beq_iff_eq.mp h; rfl
    split
    · next h =>
      obtain rfl := beq_iff_eq.mp h
      obtain rfl | rfl := hquote <;> rfl
    · next hnewline _ hbackslash hclosing =>
      have hline : lineAfter c 1 = 1 := lineAfter_of_ne (fun h => hnewline (beq_iff_eq.mpr h)) 1
      change lexStringFrom quote done (fuel + 1) ⟨c :: (_ ++ quote :: rest), 1⟩ = _
      rw [lexStringFrom]
      simp only [hnewline, hbackslash, hclosing, hline, Bool.false_eq_true, if_false]

theorem quoteFor_eq (s : List Char) : quoteFor s = '"' ∨ quoteFor s = '\'' := by
  unfold quoteFor
  split
  · exact .inl rfl
  · exact .inr rfl

theorem length_le_escaped (quote : Char) (s : List Char) :
    s.length ≤ (s.flatMap (escapeChar quote)).length := by
  induction s with
  | nil => exact Nat.le_refl _
  | cons c s ih =>
    have hone : 1 ≤ (escapeChar quote c).length := by
      unfold escapeChar
      repeat' split
      all_goals exact Nat.succ_le_succ (Nat.zero_le _)
    rw [List.flatMap_cons, List.length_append, List.length_cons]
    omega

/-- A string in quotes is one token. -/
theorem Spells.string (s : List Char) : Spells (quoted s) [.string (String.ofList s)] := by
  have hquote := quoteFor_eq s
  have hsolid : isSolid (quoteFor s) = true := by
    obtain h | h := hquote <;> rw [h] <;> rfl
  refine Spells.token hsolid ?_
  intro rest fuel _ hfuel
  have hlength := length_le_escaped (quoteFor s) s
  have hstring : lexToken fuel (quoteFor s) ((s.flatMap (escapeChar (quoteFor s)) ++ [quoteFor s]) ++ rest) 1 =
      lexStringFrom (quoteFor s) [] fuel
        ⟨(s.flatMap (escapeChar (quoteFor s)) ++ [quoteFor s]) ++ rest, 1⟩ := by
    obtain h | h := hquote <;> rw [h] <;> rfl
  rw [List.length_append, List.length_append] at hfuel
  rw [hstring, List.append_assoc]
  exact lexStringFrom_escaped hquote s rest [] fuel (by omega)

namespace Data

theorem spells_keyText (key : String) : Spells (keyText key).toList [keyToken key] := by
  unfold keyText keyToken
  split
  · next h =>
    have hword := Spells.word h
    rwa [String.ofList_toList] at hword
  · have hstring := Spells.string key.toList
    rwa [String.ofList_toList, ← String.toList_ofList (l := quoted key.toList)] at hstring

theorem beginsSolid_quoted (s : List Char) : BeginsSolid (quoted s) := by
  refine ⟨quoteFor s, _, rfl, ?_⟩
  obtain h | h := quoteFor_eq s <;> rw [h] <;> rfl

theorem beginsSolid_keyText (key : String) : BeginsSolid (keyText key).toList := by
  unfold keyText
  split
  · next h =>
    generalize key.toList = name at h
    cases name with
    | nil => cases h
    | cons c tail => exact ⟨c, tail, rfl, isSolid_of_startsWord (Bool.and_eq_true_iff.mp h).1⟩
  · rw [String.toList_ofList]
    exact beginsSolid_quoted _

/-- The text of data begins like an operand, so a parenthesis in front of it takes nothing from it. -/
theorem beginsSolid_printed {d : Data} (hn : d.WithoutNumbers) : BeginsSolid d.printed := by
  cases d with
  | integer n => exact hn.elim
  | undefined => exact ⟨'u', _, rfl, rfl⟩
  | null => exact ⟨'n', _, rfl, rfl⟩
  | bool b => cases b with
    | true => exact ⟨'t', _, rfl, rfl⟩
    | false => exact ⟨'f', _, rfl, rfl⟩
  | string s => exact beginsSolid_quoted _
  | array items => cases items with
    | nil => exact ⟨'[', _, rfl, rfl⟩
    | cons d rest => exact ⟨'[', _, rfl, rfl⟩
  | object members => cases members with
    | nil => exact ⟨'{', _, rfl, rfl⟩
    | cons m rest => exact ⟨'{', _, rfl, rfl⟩

theorem apart_printedItems (items : List Data) {rest : List Char} (h : Apart rest) :
    Apart (printedItems items ++ rest) := by
  cases items with
  | nil => exact h
  | cons d items => exact apart_cons (by decide) _

theorem apart_printedMembers (members : List (String × Data)) {rest : List Char} (h : Apart rest) :
    Apart (printedMembers members ++ rest) := by
  cases members with
  | nil => exact h
  | cons m members => exact apart_cons (by decide) _

/-- A key with its colon, in front of a value. -/
theorem spells_member (key : String) {text : List Char} {tokens : List Token} (h : Spells text tokens)
    (hs : BeginsSolid text) :
    Spells ((keyText key).toList ++ ':' :: ' ' :: text) (keyToken key :: .mark ":" :: tokens) := 
  (spells_keyText key).append ((h.blank hs).mark (by decide)) fun _ _ => apart_cons (by decide) _

/-- A closing mark after a blank. -/
theorem spells_closing {c : Char} {m : String} (hm : (c, m) ∈ loneMarks) : Spells [' ', c] [.mark m] :=
  (Spells.nil.mark hm).blank ⟨c, [], rfl, (loneMarks_stand_alone _ hm [] 0).1⟩

mutual

/-- The printed form of a tree is cut into its tokens. -/
theorem spells_printed {d : Data} (hn : d.WithoutNumbers) : Spells d.printed d.tokens := by
  cases d with
  | integer n => exact hn.elim
  | undefined => exact Spells.word rfl
  | null => exact Spells.word rfl
  | bool b => cases b with
    | true => exact Spells.word rfl
    | false => exact Spells.word rfl
  | string s =>
    have hstring := Spells.string s.toList
    rwa [String.ofList_toList] at hstring
  | array items =>
    cases items with
    | nil => exact (Spells.nil.mark (by decide)).mark (by decide)
    | cons d rest =>
      -- Put together from the right: the bracket, the further elements, the first one, the other bracket.
      have htail := (spells_printedItems hn.2).append (spells_closing (c := ']') (m := "]") (by decide))
        fun _ _ => apart_cons (by decide) _
      have hfirst := (spells_printed hn.1).append htail fun r hr => by
        rw [List.append_assoc]
        exact apart_printedItems rest (apart_cons (by decide) _)
      exact (hfirst.blank ((beginsSolid_printed hn.1).append _)).mark (by decide)
  | object members =>
    cases members with
    | nil => exact (Spells.nil.mark (by decide)).mark (by decide)
    | cons m rest =>
      obtain ⟨key, d⟩ := m
      have htail := (spells_printedMembers hn.2).append (spells_closing (c := '}') (m := "\x7d") (by decide))
        fun _ _ => apart_cons (by decide) _
      have hfirst := (spells_printed hn.1).append htail fun r hr => by
        rw [List.append_assoc]
        exact apart_printedMembers rest (apart_cons (by decide) _)
      have hmember := spells_member key hfirst ((beginsSolid_printed hn.1).append _)
      exact (hmember.blank ((beginsSolid_keyText key).append _)).mark (by decide)

theorem spells_printedItems {items : List Data} (hn : itemsWithoutNumbers items) :
    Spells (printedItems items) (itemTokens items) := by
  cases items with
  | nil => exact Spells.nil
  | cons d rest =>
    have hfirst := (spells_printed hn.1).append (spells_printedItems hn.2) fun _ => apart_printedItems rest
    exact (hfirst.blank ((beginsSolid_printed hn.1).append _)).mark (by decide)

theorem spells_printedMembers {members : List (String × Data)} (hn : membersWithoutNumbers members) :
    Spells (printedMembers members) (memberTokens members) := by
  cases members with
  | nil => exact Spells.nil
  | cons m rest =>
    obtain ⟨key, d⟩ := m
    have hfirst := (spells_printed hn.1).append (spells_printedMembers hn.2) fun _ => apart_printedMembers rest
    have hmember := spells_member key hfirst ((beginsSolid_printed hn.1).append _)
    exact (hmember.blank ((beginsSolid_keyText key).append _)).mark (by decide)

end

def sourceTokens (d : Data) : List Placed :=
  ⟨.mark "(", 1⟩ :: (placed d.tokens ++ [⟨.mark ")", 1⟩, ⟨.stop, 1⟩])

/-- The text of data in parentheses is read as its tokens. -/
theorem tokenize_printed {d : Data} (hn : d.WithoutNumbers) :
    tokenize ('(' :: (d.printed ++ [')'])) = .ok d.sourceTokens := by
  have hclosed := (spells_printed hn).append (Spells.nil.mark (c := ')') (m := ")") (by decide))
    fun _ _ => apart_cons (by decide) _
  have hlexes : Spells ('(' :: (d.printed ++ [')'])) (.mark "(" :: (d.tokens ++ [.mark ")"])) :=
    hclosed.mark (by decide)
  obtain ⟨fuel, hfuel, htokens⟩ := hlexes [] (fun _ h => by cases h) []
    (('(' :: (d.printed ++ [')'])).length + 1) (by rw [List.append_nil]; exact Nat.lt_succ_self _)
  obtain ⟨fuel, rfl⟩ : ∃ n, fuel = n + 1 := ⟨fuel - 1, by omega⟩
  rw [List.append_nil] at htokens
  unfold tokenize
  rw [htokens]
  have hend (done : List Placed) : tokensFrom done (fuel + 1) ⟨[], 1⟩ = .ok (⟨.stop, 1⟩ :: done).reverse := rfl
  rw [hend, List.append_nil, List.reverse_cons, List.reverse_reverse]
  unfold sourceTokens placed
  rw [List.map_cons, List.map_append, List.cons_append, List.append_assoc]
  rfl

end Data

end Snippet.Script
