import Mathlib.Data.List.Infix
import Mathlib.Logic.Relation
import Snippet.Pattern

/-!
How patterns match. A pattern that matches leaves a rest of the text behind, whatever is tried after it; a
pattern that cannot leave any rest matches nowhere. What a match keeps under a name is matched by a pattern that is
kept under it. A pattern that prefers the right way at every turn takes a text and captures its parts.
-/

namespace Snippet.Pattern

/-- A match of the pattern in front of a text can leave the second text behind. What stands before the text
is not looked at, so edges of words and starts of lines are taken to be everywhere. -/
def Leaves : Pattern → List Char → List Char → Prop
  | .empty, x, y => y = x
  | .one test, x, y => ∃ c, test c = true ∧ x = c :: y
  | .run _ test, x, y => ∃ passed, (∀ c ∈ passed, test c = true) ∧ x = passed ++ y
  | .literal text, x, y => x = text ++ y
  | .both first second, x, y => ∃ z, Leaves first x z ∧ Leaves second z y
  | .either first second, x, y => Leaves first x y ∨ Leaves second x y
  | .many round, x, y => Relation.ReflTransGen (Leaves round) x y
  | .capture _ inner, x, y => Leaves inner x y
  | .textStart, x, y => y = x
  | .lineStart, x, y => y = x
  | .textEnd, x, y => x = [] ∧ y = x
  | .wordEdge, x, y => y = x

variable {p q : Pattern} {test : Char → Bool} {s t u : Spot} {next : Continuation} {captures found more : Captures}
  {r : Spot × Captures} {x y z : List Char}

def keptAs (name : String) : Pattern → List Pattern
  | .both first second => first.keptAs name ++ second.keptAs name
  | .either first second => first.keptAs name ++ second.keptAs name
  | .many round => round.keptAs name
  | .capture other inner => if other == name then inner :: inner.keptAs name else inner.keptAs name
  | _ => []

def alwaysKeeps (name : String) : Pattern → Bool
  | .both first second => first.alwaysKeeps name || second.alwaysKeeps name
  | .either first second => first.alwaysKeeps name && second.alwaysKeeps name
  | .capture other inner => other == name || inner.alwaysKeeps name
  | _ => false

def Spot.Reaches (s t : Spot) : Prop := ∃ passed, s.rest = passed ++ t.rest ∧ t.index = s.index + passed.length

namespace Spot.Reaches

theorem refl (s : Spot) : s.Reaches s := ⟨[], rfl, rfl⟩

theorem trans (hst : s.Reaches t) (htu : t.Reaches u) : s.Reaches u := by
  obtain ⟨passed, hrest, hindex⟩ := hst
  obtain ⟨passed', hrest', hindex'⟩ := htu
  refine ⟨passed ++ passed', ?_, ?_⟩
  · rw [hrest, hrest', List.append_assoc]
  · rw [hindex', hindex, List.length_append, Nat.add_assoc]

theorem textTo_append (h : s.Reaches t) : s.textTo t ++ t.rest = s.rest := by
  obtain ⟨passed, hrest, hindex⟩ := h
  unfold Spot.textTo
  rw [hindex, Nat.add_sub_cancel_left, hrest, List.take_left]

end Spot.Reaches

structure Passes (p : Pattern) (s t : Spot) (found : Captures) : Prop where
  reaches : s.Reaches t
  leaves : p.Leaves s.rest t.rest
  kept : ∀ name part, (name, part) ∈ found → ∃ inner ∈ p.keptAs name, ∃ y, inner.Leaves (part ++ y) y
  keeps : ∀ name, p.alwaysKeeps name = true → ∃ part, (name, part) ∈ found

namespace Passes

/-- Two patterns in a row take two parts of the text in a row. -/
theorem both (hp : p.Passes s t found) (hq : q.Passes t u more) : (Pattern.both p q).Passes s u (more ++ found) where
  reaches := hp.reaches.trans hq.reaches
  leaves := ⟨t.rest, hp.leaves, hq.leaves⟩
  kept name part hmem := by
    rcases List.mem_append.mp hmem with hmem | hmem
    · obtain ⟨inner, hinner, hpart⟩ := hq.kept name part hmem
      exact ⟨inner, List.mem_append_right _ hinner, hpart⟩
    · obtain ⟨inner, hinner, hpart⟩ := hp.kept name part hmem
      exact ⟨inner, List.mem_append_left _ hinner, hpart⟩
  keeps name hname := by
    rcases Bool.or_eq_true_iff.mp hname with hname | hname
    · obtain ⟨part, hpart⟩ := hp.keeps name hname
      exact ⟨part, List.mem_append_right _ hpart⟩
    · obtain ⟨part, hpart⟩ := hq.keeps name hname
      exact ⟨part, List.mem_append_left _ hpart⟩

theorem left (hp : p.Passes s t found) : (Pattern.either p q).Passes s t found where
  reaches := hp.reaches
  leaves := .inl hp.leaves
  kept name part hmem := by
    obtain ⟨inner, hinner, hpart⟩ := hp.kept name part hmem
    exact ⟨inner, List.mem_append_left _ hinner, hpart⟩
  keeps name hname := hp.keeps name (Bool.and_eq_true_iff.mp hname).1

theorem right (hq : q.Passes s t found) : (Pattern.either p q).Passes s t found where
  reaches := hq.reaches
  leaves := .inr hq.leaves
  kept name part hmem := by
    obtain ⟨inner, hinner, hpart⟩ := hq.kept name part hmem
    exact ⟨inner, List.mem_append_right _ hinner, hpart⟩
  keeps name hname := hq.keeps name (Bool.and_eq_true_iff.mp hname).2

/-- A capture takes what its pattern takes, and is found with that text. -/
theorem capture (name : String) (hp : p.Passes s t found) :
    (Pattern.capture name p).Passes s t ((name, s.textTo t) :: found) where
  reaches := hp.reaches
  leaves := hp.leaves
  kept other part hmem := by
    rw [keptAs]
    rcases List.mem_cons.mp hmem with hhere | hmem
    · cases hhere
      rw [if_pos (beq_self_eq_true name)]
      refine ⟨p, List.mem_cons_self, t.rest, ?_⟩
      rw [hp.reaches.textTo_append]
      exact hp.leaves
    · obtain ⟨inner, hinner, hpart⟩ := hp.kept other part hmem
      split
      · exact ⟨inner, List.mem_cons_of_mem p hinner, hpart⟩
      · exact ⟨inner, hinner, hpart⟩
  keeps other hother := by
    rcases Bool.or_eq_true_iff.mp hother with hhere | hother
    · rw [← eq_of_beq hhere]
      exact ⟨_, List.mem_cons_self⟩
    · obtain ⟨part, hpart⟩ := hp.keeps other hother
      exact ⟨part, List.mem_cons_of_mem _ hpart⟩

/-- A pattern without a name captures nothing. -/
theorem found_eq_nil (h : p.Passes s t found) (hnone : ∀ name, p.keptAs name = []) : found = [] := by
  cases found with
  | nil => rfl
  | cons entry found =>
    obtain ⟨inner, hinner, -⟩ := h.kept entry.1 entry.2 List.mem_cons_self
    rw [hnone] at hinner
    cases hinner

theorem many_refl (round : Pattern) (s : Spot) : (Pattern.many round).Passes s s [] where
  reaches := .refl s
  leaves := .refl
  kept := by rintro _ _ ⟨⟩
  keeps := by rintro _ ⟨⟩

theorem many_head (hp : p.Passes s t found) (hmany : (Pattern.many p).Passes t u more) :
    (Pattern.many p).Passes s u (more ++ found) where
  reaches := hp.reaches.trans hmany.reaches
  leaves := .head hp.leaves hmany.leaves
  kept name part hmem := (List.mem_append.mp hmem).elim (hmany.kept name part) (hp.kept name part)
  keeps := by rintro _ ⟨⟩

end Passes

/-- The first success among some places is a success at one of them. -/
theorem exists_of_firstSuccess {spots : List Spot} (h : firstSuccess captures next spots = some r) :
    ∃ t ∈ spots, next t captures = some r := by
  induction spots with
  | nil => cases h
  | cons t spots ih =>
    unfold firstSuccess at h
    cases ht : next t captures with
    | some found =>
      rw [ht] at h
      exact ⟨t, List.mem_cons_self, ht.trans h⟩
    | none =>
      rw [ht] at h
      obtain ⟨u, hu, hnext⟩ := ih h
      exact ⟨u, List.mem_cons_of_mem t hu, hnext⟩

/-- A run of characters stops at one of the places on its way, each of which has only such characters in
front. -/
theorem rest_of_mem_reach {passed : List Spot} {previous : Option Char} {index : Nat}
    (h : t ∈ Spot.reach test passed previous index x) :
    t ∈ passed ∨ ∃ run, (∀ c ∈ run, test c = true) ∧ x = run ++ t.rest ∧ t.index = index + run.length := by
  induction x generalizing passed previous index with
  | nil =>
    rcases List.mem_cons.mp h with rfl | h
    · exact Or.inr ⟨[], List.forall_mem_nil _, rfl, rfl⟩
    · exact Or.inl h
  | cons c x ih =>
    have hhere (hmem : t ∈ (⟨previous, c :: x, index⟩ : Spot) :: passed) :
        t ∈ passed ∨ ∃ run, (∀ c ∈ run, test c = true) ∧ c :: x = run ++ t.rest ∧ t.index = index + run.length := by
      rcases List.mem_cons.mp hmem with rfl | hmem
      · exact Or.inr ⟨[], List.forall_mem_nil _, rfl, rfl⟩
      · exact Or.inl hmem
    unfold Spot.reach at h
    dsimp only at h
    split at h
    · rename_i hc
      rcases ih h with hmem | ⟨run, hrun, hx, hindex⟩
      · exact hhere hmem
      · refine Or.inr ⟨c :: run, List.forall_mem_cons.mpr ⟨hc, hrun⟩, congrArg (c :: ·) hx, ?_⟩
        rw [hindex, List.length_cons, Nat.add_assoc, Nat.add_comm 1]
    · exact hhere h

/-- A text that is found at a place is passed. -/
theorem rest_of_after? {text : List Char} (h : s.after? text = some t) :
    s.rest = text ++ t.rest ∧ t.index = s.index + text.length := by
  induction text generalizing s with
  | nil =>
    cases h
    exact ⟨rfl, rfl⟩
  | cons c text ih =>
    unfold Spot.after? at h
    split at h
    · cases h
    · rename_i d rest hrest
      split at h
      · rename_i hdc
        obtain ⟨hstep, hindex⟩ := ih h
        refine ⟨?_, ?_⟩
        · rw [hrest, eq_of_beq hdc, List.cons_append, ← hstep]
          rfl
        · rw [hindex, List.length_cons, Nat.add_comm text.length, ← Nat.add_assoc]
          rfl
      · cases h

/-- Rounds of a repetition take parts of the text one after the other; by induction on the rounds. -/
theorem exists_passes_of_rounds {fuel : Nat}
    (hround : ∀ {s captures next}, p.matchAt s captures next = some r →
      ∃ t found, p.Passes s t found ∧ next t (found ++ captures) = some r)
    (h : rounds (fun t more next => p.matchAt t more next) next fuel s captures = some r) :
    ∃ t found, (Pattern.many p).Passes s t found ∧ next t (found ++ captures) = some r := by
  induction fuel generalizing s captures with
  | zero => exact ⟨s, [], .many_refl p s, h⟩
  | succ fuel ih =>
    unfold rounds at h
    dsimp only at h
    split at h
    · rename_i result hresult
      rw [h] at hresult
      obtain ⟨t, found, hst, hagain⟩ := hround hresult
      -- A round that passes nothing is not followed by another one.
      split at hagain
      · cases hagain
      · obtain ⟨u, more, htu, hnext⟩ := ih hagain
        rw [← List.append_assoc] at hnext
        exact ⟨u, more ++ found, hst.many_head htu, hnext⟩
    · exact ⟨s, [], .many_refl p s, h⟩

/-- A successful match leads to a place where the rest of it succeeds; by induction on the pattern. -/
theorem exists_passes_of_matchAt (h : p.matchAt s captures next = some r) :
    ∃ t found, p.Passes s t found ∧ next t (found ++ captures) = some r := by
  -- The induction is on the pattern, whose alternatives are tried in the order of the definition.
  induction p generalizing s captures next with
  | empty => exact ⟨s, [], ⟨.refl s, rfl, by rintro _ _ ⟨⟩, by rintro _ ⟨⟩⟩, h⟩
  | one test =>
    rw [matchAt] at h
    split at h
    · cases h
    · rename_i c rest hrest
      split at h
      · rename_i hc
        exact ⟨s.step c rest, [], ⟨⟨[c], hrest, rfl⟩, ⟨c, hc, hrest⟩, by rintro _ _ ⟨⟩, by rintro _ ⟨⟩⟩, h⟩
      · cases h
  | run greedy test =>
    obtain ⟨t, ht, hnext⟩ := exists_of_firstSuccess h
    -- A run may stop at any place that it reaches, from the first or from the last one on.
    have hreach : t ∈ Spot.reach test [] s.previous s.index s.rest := by
      cases greedy with
      | true => exact ht
      | false => exact List.mem_reverse.mp ht
    rcases rest_of_mem_reach hreach with hnone | ⟨run, hrun, hrest, hindex⟩
    · cases hnone
    · exact ⟨t, [], ⟨⟨run, hrest, hindex⟩, ⟨run, hrun, hrest⟩, by rintro _ _ ⟨⟩, by rintro _ ⟨⟩⟩, hnext⟩
  | literal text =>
    rw [matchAt] at h
    split at h
    · rename_i t ht
      obtain ⟨hrest, hindex⟩ := rest_of_after? ht
      exact ⟨t, [], ⟨⟨text, hrest, hindex⟩, hrest, by rintro _ _ ⟨⟩, by rintro _ ⟨⟩⟩, h⟩
    · cases h
  | both first second ihf ihs =>
    obtain ⟨t, found, hst, hsecond⟩ := ihf h
    obtain ⟨u, more, htu, hnext⟩ := ihs hsecond
    rw [← List.append_assoc] at hnext
    exact ⟨u, more ++ found, hst.both htu, hnext⟩
  | either first second ihf ihs =>
    rw [matchAt_either] at h
    rcases Option.or_eq_some_iff.mp h with hfirst | ⟨-, hsecond⟩
    · obtain ⟨t, found, hst, hnext⟩ := ihf hfirst
      exact ⟨t, found, hst.left, hnext⟩
    · obtain ⟨t, found, hst, hnext⟩ := ihs hsecond
      exact ⟨t, found, hst.right, hnext⟩
  | many round ih => exact exists_passes_of_rounds ih h
  | capture name inner ih =>
    obtain ⟨t, found, hst, hnext⟩ := ih h
    exact ⟨t, _, hst.capture name, hnext⟩
  | textStart =>
    rw [matchAt] at h
    split at h
    · exact ⟨s, [], ⟨.refl s, rfl, by rintro _ _ ⟨⟩, by rintro _ ⟨⟩⟩, h⟩
    · cases h
  | lineStart =>
    rw [matchAt] at h
    split at h
    · exact ⟨s, [], ⟨.refl s, rfl, by rintro _ _ ⟨⟩, by rintro _ ⟨⟩⟩, h⟩
    · cases h
  | textEnd =>
    rw [matchAt] at h
    split at h
    · rename_i hend
      exact ⟨s, [], ⟨.refl s, ⟨List.isEmpty_iff.mp hend, rfl⟩, by rintro _ _ ⟨⟩, by rintro _ ⟨⟩⟩, h⟩
    · cases h
  | wordEdge =>
    rw [matchAt] at h
    split at h
    · exact ⟨s, [], ⟨.refl s, rfl, by rintro _ _ ⟨⟩, by rintro _ ⟨⟩⟩, h⟩
    · cases h

theorem exists_of_matchAt_char {c : Char} (h : (Pattern.char c).matchAt s captures next = some r) :
    ∃ rest, s.rest = c :: rest ∧ next (s.step c rest) captures = some r := by
  rw [Pattern.char, matchAt] at h
  split at h
  · cases h
  · next d rest hrest =>
    split at h
    · next hd =>
      rw [eq_of_beq hd] at hrest h
      exact ⟨rest, hrest, h⟩
    · cases h

/-- A pattern that leaves nothing behind does not match. -/
theorem matchAt_eq_none (h : ∀ y, ¬ p.Leaves s.rest y) : p.matchAt s captures next = none := by
  by_contra hsome
  obtain ⟨r, hr⟩ := Option.ne_none_iff_exists'.mp hsome
  obtain ⟨t, _, hst, -⟩ := exists_passes_of_matchAt hr
  exact h t.rest hst.leaves

/-- What is left behind is the end of the text; by induction on the pattern. -/
theorem Leaves.suffix (h : p.Leaves x y) : y <:+ x := by
  induction p generalizing x y with
  | empty => exact h ▸ List.suffix_refl _
  | one test =>
    obtain ⟨c, -, rfl⟩ := h
    exact List.suffix_cons c y
  | run greedy test =>
    obtain ⟨passed, -, rfl⟩ := h
    exact List.suffix_append passed y
  | literal text => exact ⟨text, h.symm⟩
  | both first second ihf ihs =>
    obtain ⟨z, hfirst, hsecond⟩ := h
    exact (ihs hsecond).trans (ihf hfirst)
  | either first second ihf ihs => exact h.elim ihf ihs
  | many round ih =>
    change Relation.ReflTransGen round.Leaves x y at h
    induction h with
    | refl => exact List.suffix_refl x
    | tail _ hround hrest => exact (ih hround).trans hrest
  | capture name inner ih => exact ih h
  | textEnd => exact h.2 ▸ List.suffix_refl _
  | _ => exact h ▸ List.suffix_refl _

/-- One of the words is what the text begins with. -/
theorem exists_of_leaves_words {texts : List String} (h : (words texts).Leaves x y) :
    ∃ word ∈ texts, x = word.toList ++ y := by
  induction texts with
  | nil =>
    obtain ⟨c, hc, -⟩ := h
    cases hc
  | cons text texts ih =>
    cases texts with
    | nil => exact ⟨text, List.mem_cons_self, h⟩
    | cons text' texts =>
      rcases h with h | h
      · exact ⟨text, List.mem_cons_self, h⟩
      · obtain ⟨word, hword, hx⟩ := ih h
        exact ⟨word, List.mem_cons_of_mem text hword, hx⟩

def Starts (test : Char → Bool) (p : Pattern) : Prop :=
  ∀ x y, p.Leaves x y → ∃ c rest, test c = true ∧ x = c :: rest

namespace Starts

theorem one : Starts test (.one test) := fun _ y ⟨c, hc, hx⟩ => ⟨c, y, hc, hx⟩

theorem literal {c : Char} (hc : test c = true) (more : List Char) : Starts test (.literal (c :: more)) :=
  fun _ y hx => ⟨c, more ++ y, hc, hx⟩

theorem both (h : Starts test p) : Starts test (.both p q) := fun x _ ⟨z, hp, _⟩ => h x z hp

end Starts

def Needs (c : Char) (p : Pattern) : Prop := ∀ x y, p.Leaves x y → c ∈ x

namespace Needs

variable {c : Char}

theorem char (c : Char) : Needs c (Pattern.char c) := by
  rintro x y ⟨d, hd, rfl⟩
  rw [eq_of_beq hd]
  exact List.mem_cons_self

theorem literal {text : List Char} (h : c ∈ text) : Needs c (.literal text) := by
  rintro x y rfl
  exact List.mem_append_left y h

theorem left (h : Needs c p) : Needs c (.both p q) := by
  rintro x y ⟨z, hp, -⟩
  exact h x z hp

theorem right (h : Needs c q) : Needs c (.both p q) := by
  rintro x y ⟨z, hp, hq⟩
  exact hp.suffix.subset (h z y hq)

end Needs

/-- In front of a text followed by another one the pattern tries the whole first text at once, captures the
given parts of it, and so matches if what is tried next succeeds there. -/
def Takes (p : Pattern) (x y : List Char) (found : Captures) : Prop :=
  ∀ s : Spot, s.rest = x ++ y → ∃ t : Spot, t.rest = y ∧ t.index = s.index + x.length ∧
    ∀ captures next r, next t (found ++ captures) = some r → p.matchAt s captures next = some r

theorem firstSuccess_cons {spots : List Spot} (h : next t captures = some r) :
    firstSuccess captures next (t :: spots) = some r := by
  unfold firstSuccess
  rw [h]

/-- The places reached in a text begin behind the characters that satisfy the test. -/
theorem reach_append (hx : ∀ c ∈ x, test c = true) (passed : List Spot) (previous : Option Char)
    (index : Nat) : ∃ passed' previous', Spot.reach test passed previous index (x ++ y) =
      Spot.reach test passed' previous' (index + x.length) y := by
  induction x generalizing passed previous index with
  | nil => exact ⟨passed, previous, rfl⟩
  | cons c x ih =>
    obtain ⟨hc, hx⟩ := List.forall_mem_cons.mp hx
    obtain ⟨passed', previous', hreach⟩ := ih hx (⟨previous, c :: (x ++ y), index⟩ :: passed) (some c)
      (index + 1)
    refine ⟨passed', previous', ?_⟩
    rw [List.cons_append, Spot.reach, if_pos hc, hreach, List.length_cons, Nat.add_assoc, Nat.add_comm 1]

/-- A place has the text in front that it is found at. -/
theorem exists_after? {text : List Char} (h : s.rest = text ++ y) :
    ∃ t, s.after? text = some t ∧ t.rest = y ∧ t.index = s.index + text.length := by
  induction text generalizing s with
  | nil => exact ⟨s, rfl, h, rfl⟩
  | cons c text ih =>
    rw [List.cons_append] at h
    obtain ⟨t, ht, hrest, hindex⟩ := ih (s := s.step c (text ++ y)) rfl
    refine ⟨t, ?_, hrest, ?_⟩
    · unfold Spot.after?
      rw [h]
      dsimp only
      rw [if_pos (beq_self_eq_true c)]
      exact ht
    · rw [hindex, List.length_cons]
      change s.index + 1 + text.length = s.index + (text.length + 1)
      omega

namespace Takes

theorem empty : Takes .empty [] y [] := fun s hs => ⟨s, hs, rfl, fun _ _ _ h => h⟩

theorem one {c : Char} (hc : test c = true) : Takes (.one test) [c] y [] := by
  intro s hs
  refine ⟨s.step c y, rfl, rfl, fun captures next r h => ?_⟩
  rw [matchAt, hs]
  dsimp only [List.singleton_append]
  rw [if_pos hc]
  exact h

theorem literal {text : List Char} : Takes (.literal text) text y [] := by
  intro s hs
  obtain ⟨t, ht, hrest, hindex⟩ := exists_after? hs
  refine ⟨t, hrest, hindex, fun captures next r h => ?_⟩
  rw [matchAt, ht]
  exact h

/-- As many characters as possible are tried first. -/
theorem run (hx : ∀ c ∈ x, test c = true) (hy : ∀ c rest, y = c :: rest → test c = false) :
    Takes (.run true test) x y [] := by
  intro s hs
  obtain ⟨passed, previous, hreach⟩ := reach_append (y := y) hx [] s.previous s.index
  refine ⟨⟨previous, y, s.index + x.length⟩, rfl, rfl, fun captures next r h => ?_⟩
  rw [matchAt, hs, hreach]
  cases y with
  | nil => exact firstSuccess_cons h
  | cons c y =>
    unfold Spot.reach
    dsimp only
    rw [hy c y rfl]
    exact firstSuccess_cons h

theorem run_all (hx : ∀ c ∈ x, test c = true) : Takes (.run true test) x [] [] :=
  run hx (by rintro c y ⟨⟩)

theorem run_until {c : Char} (hx : ∀ d ∈ x, test d = true) (hc : test c = false) :
    Takes (.run true test) x (c :: y) [] := by
  apply run hx
  rintro d rest ⟨⟩
  exact hc

theorem word (text : String) : Takes (Pattern.word text) text.toList y [] := literal

theorem char (c : Char) : Takes (Pattern.char c) [c] y [] := one (beq_self_eq_true c)

theorem one_blank {c : Char} (hc : Text.isBlank c = false) : Takes Pattern.blanks [' '] (c :: y) [] :=
  run_until (List.forall_mem_singleton.mpr rfl) hc

theorem no_blanks {c : Char} (hc : Text.isBlank c = false) : Takes Pattern.blanks [] (c :: y) [] :=
  run_until (List.forall_mem_nil _) hc

/-- Two patterns take what each of them takes, in a row. -/
theorem both (hp : Takes p x (y ++ z) found) (hq : Takes q y z more) :
    Takes (.both p q) (x ++ y) z (more ++ found) := by
  intro s hs
  rw [List.append_assoc] at hs
  obtain ⟨t, hrest, hindex, hfirst⟩ := hp s hs
  obtain ⟨u, hrest', hindex', hsecond⟩ := hq t hrest
  refine ⟨u, hrest', ?_, fun captures next r h => ?_⟩
  · rw [hindex', hindex, List.length_append, Nat.add_assoc]
  · apply hfirst
    apply hsecond
    rw [← List.append_assoc]
    exact h

/-- A pattern in front of one that takes the rest of the text. -/
theorem before (hp : Takes p x y found) (hq : Takes q y [] more) :
    Takes (.both p q) (x ++ y) [] (more ++ found) := by
  rw [← List.append_nil y] at hp
  exact hp.both hq

/-- A capture takes what its pattern takes, under its name. -/
theorem capture (name : String) (hp : Takes p x y found) :
    Takes (.capture name p) x y ((name, x) :: found) := by
  intro s hs
  obtain ⟨t, hrest, hindex, hmatch⟩ := hp s hs
  refine ⟨t, hrest, hindex, fun captures next r h => hmatch _ _ _ ?_⟩
  have htext : s.textTo t = x := by
    unfold Spot.textTo
    rw [hindex, Nat.add_sub_cancel_left, hs, List.take_left]
  rw [htext]
  exact h

theorem left (hp : Takes p x y found) : Takes (.either p q) x y found := by
  intro s hs
  obtain ⟨t, hrest, hindex, hmatch⟩ := hp s hs
  refine ⟨t, hrest, hindex, fun captures next r h => ?_⟩
  rw [matchAt_either, hmatch _ _ _ h, Option.some_or]

/-- The second of two patterns is tried if the first one does not match at all. -/
theorem right (hp : ∀ z, ¬ p.Leaves (x ++ y) z) (hq : Takes q x y found) :
    Takes (.either p q) x y found := by
  intro s hs
  obtain ⟨t, hrest, hindex, hmatch⟩ := hq s hs
  refine ⟨t, hrest, hindex, fun captures next r h => ?_⟩
  rw [← hs] at hp
  rw [matchAt_either, matchAt_eq_none hp, Option.none_or]
  exact hmatch _ _ _ h

theorem first_word (text : String) (texts : List String) :
    Takes (Pattern.words (text :: texts)) text.toList y [] := by
  cases texts with
  | nil => exact word text
  | cons _ _ => exact left (word text)

theorem optional_some (hp : Takes p x y found) : Takes (Pattern.optional p) x y found := left hp

theorem optional_none (hp : ∀ z, ¬ p.Leaves y z) : Takes (Pattern.optional p) [] y [] := right hp empty

theorem many_none (hp : ∀ z, ¬ p.Leaves y z) : Takes (.many p) [] y [] := by
  intro s hs
  refine ⟨s, hs, rfl, fun captures next r h => ?_⟩
  rw [List.nil_append] at hs
  rw [← hs] at hp
  rw [matchAt, rounds, matchAt_eq_none hp]
  exact h

/-- Up to the last character of a text is taken what also that character would satisfy. -/
theorem captureUpTo (name : String) (c : Char) (hx : ∀ d ∈ x, test d = true) (hc : test c = true) :
    Takes (.both (.capture name (.run true test)) (.both (Pattern.char c) .textEnd)) (x ++ [c]) []
      [(name, x)] := by
  intro s hs
  rw [List.append_nil] at hs
  obtain ⟨passed, previous, hreach⟩ := reach_append (y := [c]) hx [] s.previous s.index
  let before : Spot := ⟨previous, [c], s.index + x.length⟩
  let behind : Spot := ⟨some c, [], s.index + x.length + 1⟩
  have hspots : Spot.reach test [] s.previous s.index s.rest = behind :: before :: passed := by
    rw [hs, hreach, Spot.reach, if_pos hc]
    rfl
  have htext : s.textTo before = x := by
    unfold Spot.textTo
    rw [Nat.add_sub_cancel_left, hs, List.take_left]
  refine ⟨behind, rfl, ?_, fun captures next r h => ?_⟩
  · rw [List.length_append]
    rfl
  · rw [matchAt, matchAt, matchAt, hspots, if_pos rfl]
    -- All characters are tried first, but then the last one is missing.
    unfold firstSuccess
    change firstSuccess captures _ (before :: passed) = some r
    apply firstSuccess_cons
    rw [htext]
    change (if (c == c) = true then _ else none) = some r
    rw [if_pos (beq_self_eq_true c)]
    exact h

theorem textEnd : Takes .textEnd [] [] [] := by
  intro s hs
  refine ⟨s, hs, rfl, fun captures next r h => ?_⟩
  rw [List.nil_append] at hs
  rw [matchAt, hs, if_pos List.isEmpty_nil]
  exact h

end Takes

variable {previous : Option Char} {index fuel : Nat} {m : Match} {text : List Char}

theorem of_matchHere? (h : p.matchHere? s = some (m, t)) :
    p.matchAt s [] (fun t found => some (t, found)) = some (t, m.captures) ∧ m.start = s.index ∧ m.stop = t.index := by
  obtain ⟨⟨t', captures⟩, hmatch, hm⟩ := Option.map_eq_some_iff.mp h
  cases hm
  exact ⟨hmatch, rfl, rfl⟩

theorem passes_of_matchHere? (h : p.matchHere? s = some (m, t)) : p.Passes s t m.captures := by
  obtain ⟨u, found, hpass, hfound⟩ := exists_passes_of_matchAt (of_matchHere? h).1
  rw [List.append_nil] at hfound
  cases hfound
  exact hpass

/-- A search finds a match at some place behind the one where it begins. -/
theorem exists_matchHere?_of_searchFrom? (h : p.searchFrom? previous index x = some (m, t)) :
    ∃ s : Spot, Spot.Reaches ⟨previous, x, index⟩ s ∧ p.matchHere? s = some (m, t) := by
  induction x generalizing previous index with
  | nil => exact ⟨_, .refl _, h⟩
  | cons c x ih =>
    unfold searchFrom? at h
    split at h
    · next found hfound => exact ⟨_, .refl _, hfound.trans h⟩
    · obtain ⟨s, hreaches, hmatch⟩ := ih h
      exact ⟨s, .trans ⟨[c], rfl, rfl⟩ hreaches, hmatch⟩

theorem exists_passes_of_search? (h : p.search? text = some m) : ∃ s t : Spot, p.Passes s t m.captures := by
  obtain ⟨⟨m', t⟩, hfound, rfl⟩ := Option.map_eq_some_iff.mp h
  obtain ⟨s, -, hmatch⟩ := exists_matchHere?_of_searchFrom? hfound
  exact ⟨s, t, passes_of_matchHere? hmatch⟩

/-- What a search has captured under a name is matched by one of the patterns that are kept under it. -/
theorem exists_leaves_of_get? {text part : List Char} {m : Match} {name : String} (h : p.search? text = some m)
    (hpart : m.get? name = some part) : ∃ inner ∈ p.keptAs name, ∃ y, inner.Leaves (part ++ y) y := by
  obtain ⟨s, t, hpass⟩ := exists_passes_of_search? h
  obtain ⟨later, earlier, hcaptures, -⟩ := List.lookup_eq_some_iff.mp hpart
  apply hpass.kept name part
  rw [hcaptures]
  exact List.mem_append_right later List.mem_cons_self

theorem exists_get?_of_search? {text : List Char} {m : Match} (h : p.search? text = some m) (name : String)
    (hname : p.alwaysKeeps name = true) : ∃ part, m.get? name = some part := by
  obtain ⟨s, t, hpass⟩ := exists_passes_of_search? h
  obtain ⟨part, hpart⟩ := hpass.keeps name hname
  exact Option.isSome_iff_exists.mp (List.lookup_isSome_iff.mpr ⟨_, hpart, beq_self_eq_true name⟩)

/-- Behind a match the others are looked for from its end on, or one character further if it is empty. -/
theorem matchesFrom_of_found (hfound : p.searchFrom? s.previous s.index s.rest = some (m, t)) (fuel : Nat) :
    p.matchesFrom (fuel + 1) s = [m] ∨
      ∃ u : Spot, t.Reaches u ∧ p.matchesFrom (fuel + 1) s = m :: p.matchesFrom fuel u := by
  rw [matchesFrom, hfound]
  dsimp only
  split
  · cases hrest : t.rest with
    | nil => exact .inl rfl
    | cons c rest => exact .inr ⟨t.step c rest, ⟨[c], hrest, rfl⟩, rfl⟩
  · exact .inr ⟨t, .refl t, rfl⟩

theorem matchesFrom_of_none (hnone : p.searchFrom? s.previous s.index s.rest = none) (fuel : Nat) :
    p.matchesFrom fuel s = [] := by
  cases fuel with
  | zero => rfl
  | succ fuel => rw [matchesFrom, hnone]

/-- A match starts at a place that the search comes to. -/
theorem exists_of_mem_matchesFrom (h : m ∈ p.matchesFrom fuel s) :
    ∃ s' t : Spot, s.Reaches s' ∧ p.matchHere? s' = some (m, t) := by
  induction fuel generalizing s with
  | zero => cases h
  | succ fuel ih =>
    cases hfound : p.searchFrom? s.previous s.index s.rest with
    | none =>
      rw [matchesFrom_of_none hfound] at h
      cases h
    | some found =>
      obtain ⟨m', t⟩ := found
      obtain ⟨s', hreaches, hmatch⟩ := exists_matchHere?_of_searchFrom? hfound
      have hbehind : s.Reaches t := Spot.Reaches.trans hreaches (passes_of_matchHere? hmatch).reaches
      rcases matchesFrom_of_found hfound fuel with hone | ⟨u, hu, hcons⟩
      · rw [hone, List.mem_singleton] at h
        subst h
        exact ⟨s', t, hreaches, hmatch⟩
      · rw [hcons] at h
        rcases List.mem_cons.mp h with rfl | hmem
        · exact ⟨s', t, hreaches, hmatch⟩
        · obtain ⟨s'', t', hlater, hmatch'⟩ := ih hmem
          exact ⟨s'', t', (hbehind.trans hu).trans hlater, hmatch'⟩

theorem Spot.Reaches.index_le (h : s.Reaches t) : s.index ≤ t.index := by
  obtain ⟨passed, -, hindex⟩ := h
  omega

/-- No match begins before the one in front of it ends. -/
theorem pairwise_matchesFrom (p : Pattern) (fuel : Nat) (s : Spot) :
    (p.matchesFrom fuel s).Pairwise fun a b => a.stop ≤ b.start := by
  induction fuel generalizing s with
  | zero => exact .nil
  | succ fuel ih =>
    cases hfound : p.searchFrom? s.previous s.index s.rest with
    | none =>
      rw [matchesFrom_of_none hfound]
      exact .nil
    | some found =>
      obtain ⟨m, t⟩ := found
      rcases matchesFrom_of_found hfound fuel with hone | ⟨u, hu, hcons⟩
      · rw [hone]
        exact List.pairwise_singleton _ m
      · rw [hcons]
        refine .cons (fun m' hmem => ?_) (ih u)
        obtain ⟨s', -, hmatch⟩ := exists_matchHere?_of_searchFrom? hfound
        obtain ⟨s'', t', hlater, hmatch'⟩ := exists_of_mem_matchesFrom hmem
        rw [(of_matchHere? hmatch).2.2, (of_matchHere? hmatch').2.1]
        exact (hu.trans hlater).index_le

theorem exists_of_mem_findAll (h : m ∈ p.findAll text) :
    ∃ s t : Spot, Spot.Reaches ⟨none, text, 0⟩ s ∧ p.matchHere? s = some (m, t) :=
  exists_of_mem_matchesFrom h

/-- The matches in a text come in order, and none overlaps another. -/
theorem pairwise_findAll (p : Pattern) (text : List Char) :
    (p.findAll text).Pairwise fun a b => a.stop ≤ b.start :=
  pairwise_matchesFrom p _ _

/-- There are no matches exactly if the pattern occurs nowhere. -/
theorem findAll_eq_nil_iff : p.findAll text = [] ↔ ¬ p.occursIn text = true := by
  unfold occursIn search?
  rw [Option.isSome_map, Bool.not_eq_true, Option.isSome_eq_false_iff, Option.isNone_iff_eq_none]
  constructor
  · intro h
    cases hfound : p.searchFrom? none 0 text with
    | none => rfl
    | some found =>
      obtain ⟨m, t⟩ := found
      rcases matchesFrom_of_found (s := ⟨none, text, 0⟩) hfound text.length with hone | ⟨u, -, hcons⟩
      · cases hone.symm.trans h
      · cases hcons.symm.trans h
  · exact fun hnone => matchesFrom_of_none (s := ⟨none, text, 0⟩) hnone _

/-- A pattern for the start of the text is found nowhere else. -/
theorem searchFrom?_of_late {previous : Option Char} {index : Nat} (hindex : 0 < index)
    (text : List Char) : (Pattern.both .textStart p).searchFrom? previous index text = none := by
  have hlate (s : Spot) (hs : 0 < s.index) : (Pattern.both .textStart p).matchHere? s = none := by
    unfold matchHere?
    rw [matchAt, matchAt, if_neg (by rw [beq_iff_eq]; exact hs.ne')]
    rfl
  induction text generalizing previous index with
  | nil => exact hlate _ hindex
  | cons c text ih =>
    rw [searchFrom?, hlate _ hindex]
    exact ih (Nat.succ_pos index)

/-- A pattern that begins at the start of a text is found there or nowhere. -/
theorem search?_textStart (text : List Char) :
    (Pattern.both .textStart p).search? text = (p.matchHere? ⟨none, text, 0⟩).map Prod.fst := by
  unfold search?
  cases text with
  | nil => rfl
  | cons c text =>
    rw [searchFrom?]
    have hhere : (Pattern.both .textStart p).matchHere? ⟨none, c :: text, 0⟩ =
        p.matchHere? ⟨none, c :: text, 0⟩ := rfl
    rw [hhere]
    cases p.matchHere? ⟨none, c :: text, 0⟩ with
    | some found => rfl
    | none =>
      dsimp only
      rw [searchFrom?_of_late Nat.one_pos]

theorem search?_eq_none {text : List Char} (h : ∀ y, ¬ p.Leaves text y) :
    (Pattern.both .textStart p).search? text = none := by
  rw [search?_textStart, matchHere?, matchAt_eq_none h]
  rfl

theorem Takes.search?_eq {text : List Char} {found : Captures} (h : p.Takes text [] found) :
    (Pattern.both .textStart p).search? text = some ⟨0, text.length, found⟩ := by
  obtain ⟨t, -, hindex, hmatch⟩ := h ⟨none, text, 0⟩ (List.append_nil text).symm
  rw [search?_textStart, matchHere?, hmatch [] _ (t, found ++ []) rfl, List.append_nil]
  rw [Nat.zero_add] at hindex
  rw [← hindex]
  rfl

end Snippet.Pattern
