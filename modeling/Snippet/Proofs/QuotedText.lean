import Snippet.Scan.Arguments

/-!
Texts written as quoted literals. Whatever the text, none of the readers that cut lines and arguments finds
anything in its literal to cut at, and the literal stands for the text.
-/

namespace Snippet.Scan

def escapedChar (c : Char) : List Char :=
  if c == '\\' then ['\\', '\\']
  else if c == '"' then ['\\', '"']
  else if c == '\n' then ['\\', 'n']
  else [c]

def escaped (t : List Char) : List Char := t.flatMap escapedChar

def literalOf (t : List Char) : List Char := '"' :: (escaped t ++ ['"'])

/-- The characters that are written with a backslash in front are three; all others are written as
themselves. -/
theorem escapedChar_cases (c : Char) :
    (c = '\\' ∧ escapedChar c = ['\\', '\\']) ∨ (c = '"' ∧ escapedChar c = ['\\', '"']) ∨
      (c = '\n' ∧ escapedChar c = ['\\', 'n']) ∨
        (escapedChar c = [c] ∧ c ≠ '\\' ∧ c ≠ '"' ∧ c ≠ '\n') := by
  by_cases hbackslash : c = '\\'
  · exact Or.inl ⟨hbackslash, by rw [hbackslash]; rfl⟩
  by_cases hquote : c = '"'
  · exact Or.inr (Or.inl ⟨hquote, by rw [hquote]; rfl⟩)
  by_cases hnewline : c = '\n'
  · exact Or.inr (Or.inr (Or.inl ⟨hnewline, by rw [hnewline]; rfl⟩))
  refine Or.inr (Or.inr (Or.inr ⟨?_, hbackslash, hquote, hnewline⟩))
  simp [escapedChar, hbackslash, hquote, hnewline]

theorem escaped_cons (c : Char) (t : List Char) : escaped (c :: t) = escapedChar c ++ escaped t :=
  List.flatMap_cons

def escapes : List (Char × Char) :=
  [('n', '\n'), ('t', '\t'), ('r', '\r'), ('0', Char.ofNat 0), ('"', '"'), ('\'', '\''), ('\\', '\\')]

/-- The inside of a literal between two of the given quotes spells a text. A backslash that begins no escape
stands for itself. -/
inductive Spells (quote : Char) : List Char → List Char → Prop
  | nil : Spells quote [] []
  | plain {c : Char} {body text : List Char} (hc : c ∉ [quote, '\\', '\n']) (h : Spells quote body text) :
      Spells quote (c :: body) (c :: text)
  | escape {e c : Char} {body text : List Char} (he : (e, c) ∈ escapes) (h : Spells quote body text) :
      Spells quote ('\\' :: e :: body) (c :: text)
  | other {e : Char} {body text : List Char} (he : e ∉ '\n' :: escapes.map Prod.fst) (h : Spells quote body text) :
      Spells quote ('\\' :: e :: body) ('\\' :: e :: text)

namespace Spells

variable {quote e : Char} {body text : List Char}

/-- Behind a backslash any character may stand on the line. -/
theorem exists_backslash (he : e ≠ '\n') (h : Spells quote body text) :
    ∃ text', Spells quote ('\\' :: e :: body) text' := by
  by_cases hescape : e ∈ escapes.map Prod.fst
  · obtain ⟨⟨e, c⟩, hmem, rfl⟩ := List.mem_map.mp hescape
    exact ⟨_, .escape hmem h⟩
  · exact ⟨_, .other (List.not_mem_cons_of_ne_of_not_mem he hescape) h⟩

/-- Undoing the escapes gives what is spelled. -/
theorem unescapeAfter_eq (h : Spells quote body text) (done : List Char) :
    Text.unescapeAfter done body = done.reverse ++ text := by
  induction h generalizing done with
  | nil => exact (List.append_nil _).symm
  | @plain c body text hc _ ih =>
    have hbackslash : c ≠ '\\' := fun hmem => hc (by simp [hmem])
    have hstep : Text.unescapeAfter done (c :: body) = Text.unescapeAfter (c :: done) body := by
      rw [Text.unescapeAfter]
      · exact fun h => absurd h hbackslash
      · exact fun e rest h => absurd h hbackslash
    rw [hstep, ih, List.reverse_cons, List.append_assoc, List.singleton_append]
  | @escape e c body text he _ ih =>
    have hstep : Text.unescapeAfter done ('\\' :: e :: body) = Text.unescapeAfter (c :: done) body := by
      simp only [escapes, List.mem_cons, List.not_mem_nil, or_false] at he
      rcases he with h | h | h | h | h | h | h
      all_goals
        cases h
        rfl
    rw [hstep, ih, List.reverse_cons, List.append_assoc, List.singleton_append]
  | @other e body text he _ ih =>
    have hstep : Text.unescapeAfter done ('\\' :: e :: body) = Text.unescapeAfter (e :: '\\' :: done) body := by
      simp only [escapes, List.map_cons, List.map_nil, List.mem_cons, List.not_mem_nil, or_false, not_or] at he
      simp [Text.unescapeAfter, he]
    rw [hstep, ih]
    simp

theorem unescape_eq (h : Spells quote body text) : Text.unescape body = text := h.unescapeAfter_eq []

/-- The characters that a text is spelled with close no quote before the end. -/
theorem closedBody_eq (h : Spells quote body text) : closedBody quote body = true := by
  induction h with
  | nil => rfl
  | @plain c body text hc _ ih =>
    simp only [List.mem_cons, List.not_mem_nil, or_false, not_or] at hc
    rw [closedBody, ih, bne_iff_ne.mpr hc.1]
    · rfl
    · exact fun h => absurd h hc.2.1
    · exact fun e rest h => absurd h hc.2.1
  | escape _ _ ih => exact ih
  | other _ _ ih => exact ih

/-- The characters that a text is spelled with hold no newline. -/
theorem oneLine (h : Spells quote body text) : '\n' ∉ body := by
  have hmarks : '\n' ∉ escapes.map Prod.fst := by decide
  induction h with
  | nil => exact List.not_mem_nil
  | plain hc _ ih =>
    simp only [List.mem_cons, List.not_mem_nil, or_false, not_or] at hc
    exact List.not_mem_cons_of_ne_of_not_mem (Ne.symm hc.2.2) ih
  | escape he _ ih =>
    have hne : '\n' ≠ _ := fun hsame => hmarks (List.mem_map.mpr ⟨_, he, hsame.symm⟩)
    exact List.not_mem_cons_of_ne_of_not_mem (by decide) (List.not_mem_cons_of_ne_of_not_mem hne ih)
  | other he _ ih =>
    have hne := List.ne_of_not_mem_cons he
    exact List.not_mem_cons_of_ne_of_not_mem (by decide) (List.not_mem_cons_of_ne_of_not_mem hne.symm ih)

theorem quoted?_eq (h : Spells '"' body text) : quoted? ('"' :: (body ++ ['"'])) = some body := by
  unfold quoted?
  simp [h.closedBody_eq]

end Spells

/-- A text spells itself when it is written with escapes; by induction on it. -/
theorem spells_escaped (t : List Char) : Spells '"' (escaped t) t := by
  induction t with
  | nil => exact .nil
  | cons c t ih =>
    rw [escaped_cons]
    rcases escapedChar_cases c with ⟨rfl, h⟩ | ⟨rfl, h⟩ | ⟨rfl, h⟩ | ⟨h, hbackslash, hquote, hnewline⟩
    · rw [h]
      exact .escape (by decide) ih
    · rw [h]
      exact .escape (by decide) ih
    · rw [h]
      exact .escape (by decide) ih
    · rw [h]
      exact .plain (by simp [hbackslash, hquote, hnewline]) ih

/-- A literal stands on one line. -/
theorem newline_notMem_literalOf (t : List Char) : '\n' ∉ literalOf t := by
  unfold literalOf
  simp [(spells_escaped t).oneLine]

theorem unescape_escaped (t : List Char) : Text.unescape (escaped t) = t := (spells_escaped t).unescape_eq

theorem quoted?_literalOf (t : List Char) : quoted? (literalOf t) = some (escaped t) := (spells_escaped t).quoted?_eq

structure Reader where
  -- What a reader of a line heeds outside quotes: the brackets that it counts and the characters at
  -- which it may stop.
  opens : Char → Bool
  closes : Char → Bool
  stops : Char → Bool

namespace Reader

def marker (first : Char) : Reader := ⟨fun _ => false, fun _ => false, (· == first)⟩

def statements : Reader := ⟨opensStatement, closesStatement, endsStatement⟩

def separator (first : Char) : Reader := ⟨opensAny, closesAny, (· == first)⟩

inductive Passes (r : Reader) : Nesting → List Char → Nesting → Prop
  -- The reader passes a text from one state to another, and nowhere outside quotes does it come to
  -- a character at which it may stop.
  | nil (n : Nesting) : Passes r n [] n
  | cons {n n' : Nesting} {c : Char} {rest : List Char} (hc : n.quote = none → r.stops c = false)
      (hrest : Passes r (n.step r.opens r.closes c) rest n') : Passes r n (c :: rest) n'

variable {r : Reader} {n n' n'' : Nesting} {x y : List Char}

/-- Inside quotes the reader does not stop. -/
theorem Passes.cons_quoted {depth : Nat} {mark c : Char} {e : Bool} {rest : List Char}
    (hrest : r.Passes ((⟨depth, some mark, e⟩ : Nesting).step r.opens r.closes c) rest n') :
    r.Passes ⟨depth, some mark, e⟩ (c :: rest) n' :=
  .cons (by rintro ⟨⟩) hrest

/-- Inside quotes a text without a backslash and without the quote changes nothing. -/
theorem Passes.inside {mark : Char} (hx : ∀ c ∈ x, c ≠ '\\' ∧ c ≠ mark) (depth : Nat) :
    r.Passes ⟨depth, some mark, false⟩ x ⟨depth, some mark, false⟩ := by
  induction x with
  | nil => exact .nil _
  | cons c x ih =>
    obtain ⟨⟨hbackslash, hmark⟩, hx⟩ := List.forall_mem_cons.mp hx
    have hstep : (⟨depth, some mark, false⟩ : Nesting).step r.opens r.closes c = ⟨depth, some mark, false⟩ := by
      simp [Nesting.step, Nesting.inQuote, hbackslash, hmark]
    refine .cons_quoted ?_
    rw [hstep]
    exact ih hx

theorem Passes.append (hx : r.Passes n x n') (hy : r.Passes n' y n'') : r.Passes n (x ++ y) n'' := by
  induction hx with
  | nil n => exact hy
  | cons hc _ ih => exact .cons hc (ih hy)

def Skips (r : Reader) (x : List Char) : Prop :=
  ∀ depth, r.Passes ⟨depth, none, false⟩ x ⟨depth, none, false⟩

def ignores (r : Reader) (c : Char) : Bool :=
  !isQuote c && !r.opens c && !r.closes c && !r.stops c

def Pairs (r : Reader) (a b : Char) : Prop :=
  ∀ depth, ∃ inner, r.Passes ⟨depth, none, false⟩ [a] ⟨inner, none, false⟩ ∧
    r.Passes ⟨inner, none, false⟩ [b] ⟨depth, none, false⟩

namespace Skips

theorem append (hx : r.Skips x) (hy : r.Skips y) : r.Skips (x ++ y) :=
  fun depth => (hx depth).append (hy depth)

theorem flatMap {α : Type} {f : α → List Char} {items : List α} (h : ∀ a ∈ items, r.Skips (f a)) :
    r.Skips (items.flatMap f) := by
  induction items with
  | nil => exact fun depth => .nil _
  | cons a items ih =>
    obtain ⟨ha, hitems⟩ := List.forall_mem_cons.mp h
    rw [List.flatMap_cons]
    exact ha.append (ih hitems)

theorem of_ignores (hx : x.all r.ignores = true) : r.Skips x := by
  intro depth
  induction x with
  | nil => exact .nil _
  | cons c x ih =>
    rw [List.all_cons, Bool.and_eq_true] at hx
    obtain ⟨hc, hx⟩ := hx
    simp only [ignores, Bool.and_eq_true, Bool.not_eq_true'] at hc
    obtain ⟨⟨⟨hquote, hopens⟩, hcloses⟩, hstops⟩ := hc
    have hstep : (⟨depth, none, false⟩ : Nesting).step r.opens r.closes c = ⟨depth, none, false⟩ := by
      simp [Nesting.step, hquote, hopens, hcloses]
    refine .cons (fun _ => hstops) ?_
    rw [hstep]
    exact ih hx

theorem between {a b : Char} (hpairs : r.Pairs a b) (hx : r.Skips x) : r.Skips (a :: (x ++ [b])) := by
  intro depth
  obtain ⟨inner, ha, hb⟩ := hpairs depth
  exact ha.append ((hx inner).append hb)

/-- A literal is passed whatever it spells; by induction on what stands inside of the quotes. -/
theorem spelled {body text : List Char} (hquote : r.stops '"' = false) (h : Spells '"' body text) :
    r.Skips ('"' :: (body ++ ['"'])) := by
  intro depth
  have hinside : r.Passes ⟨depth, some '"', false⟩ body ⟨depth, some '"', false⟩ := by
    induction h with
    | nil => exact .nil _
    | @plain c body text hc _ ih =>
      simp only [List.mem_cons, List.not_mem_nil, or_false, not_or] at hc
      have hstep : (⟨depth, some '"', false⟩ : Nesting).step r.opens r.closes c = ⟨depth, some '"', false⟩ := by
        simp [Nesting.step, Nesting.inQuote, hc]
      refine .cons_quoted ?_
      rw [hstep]
      exact ih
    | escape _ _ ih => exact .cons_quoted (.cons_quoted ih)
    | other _ _ ih => exact .cons_quoted (.cons_quoted ih)
  have hopen : r.Passes ⟨depth, none, false⟩ ['"'] ⟨depth, some '"', false⟩ :=
    .cons (fun _ => hquote) (.nil _)
  have hclose : r.Passes ⟨depth, some '"', false⟩ ['"'] ⟨depth, none, false⟩ := .cons_quoted (.nil _)
  exact hopen.append (hinside.append hclose)

end Skips

def ofLine : List Reader := [marker '#', marker '/', statements]

def ofArguments : List Reader := [separator ',', separator '<', separator '+']

theorem pairs_parentheses : ∀ r ∈ ofLine, r.Pairs '(' ')' := by
  intro r hr depth
  have hstep {n n' : Nesting} {c : Char} (hstop : r.stops c = false)
      (hnext : n.step r.opens r.closes c = n') : r.Passes n [c] n' :=
    hnext ▸ .cons (fun _ => hstop) (.nil _)
  rcases List.mem_cons.mp hr with rfl | hr
  · exact ⟨depth, hstep rfl rfl, hstep rfl rfl⟩
  rcases List.mem_cons.mp hr with rfl | hr
  · exact ⟨depth, hstep rfl rfl, hstep rfl rfl⟩
  rcases List.mem_singleton.mp hr with rfl
  exact ⟨depth + 1, hstep rfl rfl, hstep rfl rfl⟩

end Reader

open Reader

section Cuts

variable {first c : Char} {more rest x y : List Char} {n n' : Nesting}

/-- Where a reader may not stop, the text does not begin with what it looks for. -/
theorem isPrefixOf_eq_false (h : (c == first) = false) :
    (first :: more).isPrefixOf (c :: rest) = false := by
  rw [List.isPrefixOf, Bool.beq_comm, h, Bool.false_and]

/-- A marker is not found in a text in which the reader does not stop. -/
theorem beforeMarkerAfter_of_passes (h : (marker first).Passes n x n') (passed : List Char) :
    beforeMarkerAfter (first :: more) n passed x = passed.reverse ++ x := by
  induction h generalizing passed with
  | nil n => exact (List.append_nil _).symm
  | @cons n n' c rest hc _ ih =>
    have hno : ¬ (n.quote.isNone && !isQuote c && (first :: more).isPrefixOf (c :: rest)) = true := by
      rw [Bool.and_eq_true, Bool.and_eq_true, Option.isNone_iff_eq_none]
      rintro ⟨⟨hquote, -⟩, hprefix⟩
      rw [isPrefixOf_eq_false (hc hquote)] at hprefix
      cases hprefix
    rw [beforeMarkerAfter, if_neg hno]
    refine (ih (c :: passed)).trans ?_
    rw [List.reverse_cons, List.append_assoc, List.singleton_append]

/-- A stretch that a splitter passes without a cut goes to the part that it is in. -/
theorem splitAfter_of_passes (h : (separator first).Passes n x n') (part : List Char)
    (parts : List (List Char)) :
    splitAfter (first :: more) n 0 part parts (x ++ y) =
      splitAfter (first :: more) n' 0 (x.reverse ++ part) parts y := by
  induction h generalizing part with
  | nil n => rfl
  | @cons n n' c rest hc _ ih =>
    have hno : ¬ (n.quote.isNone && !isMark opensAny closesAny c && n.depth == 0 &&
        (first :: more).isPrefixOf (c :: (rest ++ y))) = true := by
      rw [Bool.and_eq_true, Bool.and_eq_true, Bool.and_eq_true, Option.isNone_iff_eq_none]
      rintro ⟨⟨⟨hquote, -⟩, -⟩, hprefix⟩
      rw [isPrefixOf_eq_false (hc hquote)] at hprefix
      cases hprefix
    rw [List.cons_append, splitAfter, if_neg (Nat.lt_irrefl 0), if_neg hno]
    refine (ih (c :: part)).trans ?_
    rw [List.reverse_cons, List.append_assoc, List.singleton_append]

/-- A stretch without an end of a statement goes to the statement that it is in. -/
theorem statementsAfter_of_passes (h : Reader.statements.Passes n x n') (part : List Char)
    (parts : List (List Char)) :
    statementsAfter n part parts (x ++ y) = statementsAfter n' (x.reverse ++ part) parts y := by
  induction h generalizing part with
  | nil n => rfl
  | @cons n n' c rest hc _ ih =>
    have hno : ¬ (n.quote.isNone && n.depth == 0 && endsStatement c) = true := by
      rw [Bool.and_eq_true, Bool.and_eq_true, Option.isNone_iff_eq_none]
      rintro ⟨⟨hquote, -⟩, hends⟩
      rw [show endsStatement c = false from hc hquote] at hends
      cases hends
    rw [List.cons_append, statementsAfter, if_neg hno]
    refine (ih (c :: part)).trans ?_
    rw [List.reverse_cons, List.append_assoc, List.singleton_append]

theorem beforeMarker_of_skips (h : (marker first).Skips x) : beforeMarker (first :: more) x = x :=
  beforeMarkerAfter_of_passes (h 0) []

/-- The characters of a separator are passed. -/
theorem splitAfter_skip (separator : List Char) (n : Nesting) (passed part : List Char) (parts : List (List Char))
    (y : List Char) :
    splitAfter separator n passed.length part parts (passed ++ y) = splitAfter separator n 0 part parts y := by
  induction passed with
  | nil => rfl
  | cons c passed ih => exact ih

/-- Texts in which the reader does not stop are the parts between separators. -/
theorem splitTopLevel_intercalate (hfirst : isMark opensAny closesAny first = false) {texts : List (List Char)}
    (hne : texts ≠ []) (h : ∀ x ∈ texts, (separator first).Skips x) :
    splitTopLevel (first :: more) (List.intercalate (first :: more) texts) = texts := by
  have hparts (parts : List (List Char)) :
      splitAfter (first :: more) {} 0 [] parts (List.intercalate (first :: more) texts) = parts.reverse ++ texts := by
    induction texts generalizing parts with
    | nil => exact absurd rfl hne
    | cons x texts ih =>
      obtain ⟨hx, htexts⟩ := List.forall_mem_cons.mp h
      cases texts with
      | nil =>
        have hlast : splitAfter (first :: more) {} 0 [] parts (x ++ []) =
            splitAfter (first :: more) {} 0 (x.reverse ++ []) parts [] := splitAfter_of_passes (hx 0) [] parts
        rw [List.append_nil, List.append_nil] at hlast
        rw [List.intercalate_singleton, hlast, splitAfter, List.reverse_reverse, List.reverse_cons]
      | cons x' texts =>
        -- At a separator the part in front of it is put to the others, and the separator is passed.
        have hcut (y : List Char) : splitAfter (first :: more) {} 0 x.reverse parts (first :: (more ++ y)) =
            splitAfter (first :: more) {} more.length [] (x :: parts) (more ++ y) := by
          have hhere : (first :: more).isPrefixOf (first :: (more ++ y)) = true :=
            List.isPrefixOf_iff_prefix.mpr (List.prefix_append _ y)
          rw [splitAfter, if_neg (Nat.lt_irrefl 0), hfirst, hhere, List.reverse_reverse]
          rfl
        have hpassed (y : List Char) : splitAfter (first :: more) {} 0 [] parts (x ++ (first :: (more ++ y))) =
            splitAfter (first :: more) {} 0 (x.reverse ++ []) parts (first :: (more ++ y)) :=
          splitAfter_of_passes (hx 0) [] parts
        rw [List.intercalate_cons_cons, List.append_assoc, List.cons_append, hpassed, List.append_nil, hcut,
          splitAfter_skip, ih (List.cons_ne_nil _ _) htexts, List.reverse_cons, List.append_assoc,
          List.singleton_append]
  exact hparts []

/-- A text in which the reader does not stop is one part, even if a quote is left open. -/
theorem splitTopLevel_of_passes (h : (separator first).Passes {} x n) : splitTopLevel (first :: more) x = [x] := by
  have hpassed : splitAfter (first :: more) {} 0 [] [] (x ++ []) =
      splitAfter (first :: more) n 0 (x.reverse ++ []) [] [] := splitAfter_of_passes h [] []
  rw [List.append_nil, List.append_nil] at hpassed
  rw [splitTopLevel, hpassed, splitAfter, List.reverse_reverse]
  rfl

theorem splitTopLevel_of_skips (h : (separator first).Skips x) : splitTopLevel (first :: more) x = [x] :=
  splitTopLevel_of_passes (h 0)

/-- A text in which the reader does not stop is one statement, even if a quote is left open. -/
theorem splitStatements_of_passes (h : Reader.statements.Passes {} x n) : splitStatements x = [x] := by
  have hpassed : statementsAfter {} [] [] (x ++ []) = statementsAfter n (x.reverse ++ []) [] [] :=
    statementsAfter_of_passes h [] []
  rw [List.append_nil, List.append_nil] at hpassed
  rw [splitStatements, hpassed, statementsAfter, List.reverse_reverse]
  rfl

/-- Texts in which the reader does not stop, each with a semicolon behind it, are the statements of a line,
and nothing stands behind the last semicolon. -/
theorem splitStatements_of_skips {texts : List (List Char)} (h : ∀ x ∈ texts, Reader.statements.Skips x) :
    splitStatements (texts.flatMap (· ++ [';'])) = texts ++ [[]] := by
  have hparts (parts : List (List Char)) :
      statementsAfter {} [] parts (texts.flatMap (· ++ [';'])) = parts.reverse ++ (texts ++ [[]]) := by
    induction texts generalizing parts with
    | nil => exact List.reverse_cons
    | cons x texts ih =>
      obtain ⟨hx, htexts⟩ := List.forall_mem_cons.mp h
      have hends : statementsAfter {} (x.reverse ++ []) parts (';' :: texts.flatMap (· ++ [';'])) =
          statementsAfter {} [] (x :: parts) (texts.flatMap (· ++ [';'])) := by
        rw [statementsAfter, List.append_nil, List.reverse_reverse]
        rfl
      rw [List.flatMap_cons, List.append_assoc, statementsAfter_of_passes (hx 0)]
      refine hends.trans ?_
      rw [ih htexts, List.reverse_cons, List.append_assoc, List.singleton_append, List.cons_append]
  exact hparts []

end Cuts

end Snippet.Scan
