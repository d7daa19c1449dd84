import Snippet.Idiom
import Snippet.Proofs.PrintedLiteral

/-!
What the idioms of printing claim of a source. Every match of an idiom is an opening with a literal behind it. The
idioms come one after the other, and each claims those of its matches that overlap nothing claimed before it came; its
own matches do not overlap each other, so no match is dropped because of its own idiom.
-/

namespace Snippet.Idiom

open Pattern Scan

/-- A print in a source: an opening, a quote, and what spells a text up to the next quote of this kind. -/
structure Print (opening : Pattern) (source : List Char) where
  front : List Char
  before : List Char
  quote : Char
  body : List Char
  behind : List Char
  text : List Char
  source_eq : source = front ++ (before ++ (quote :: (body ++ quote :: behind)))
  opens : opening.Leaves (before ++ (quote :: (body ++ quote :: behind))) (quote :: (body ++ quote :: behind))
  isQuote : quote ∈ ['"', '\'']
  spells : Spells quote body text

def Print.range {opening : Pattern} {source : List Char} (x : Print opening source) : Range :=
  ⟨x.front.length, x.front.length + x.before.length + x.body.length + 2⟩

def rangeOf (m : Match) : Range := ⟨m.start, m.stop⟩

def textOf? (m : Match) : Option (List Char) := ((m.get? "double").or (m.get? "single")).map Text.unescape

def inside (quote : Char) : Pattern :=
  .many
    (.either (.one fun c => c != quote && c != '\\' && c != '\n')
      (.both (Pattern.char '\\') (.one (· != '\n'))))

section Literals

variable {quote : Char} {key : String} {s : Spot} {captures : Captures} {next : Continuation} {r : Spot × Captures}
  {x y : List Char}

/-- The inside of a literal spells a text; by induction on its rounds. -/
theorem exists_spells (h : (inside quote).Leaves x y) : ∃ body text, x = body ++ y ∧ Spells quote body text := by
  change Relation.ReflTransGen _ x y at h
  induction h using Relation.ReflTransGen.head_induction_on with
  | refl => exact ⟨[], [], rfl, .nil⟩
  | head hround _ ih =>
    obtain ⟨body, text, rfl, hspells⟩ := ih
    rcases hround with ⟨c, hc, rfl⟩ | ⟨z, ⟨c, hc, rfl⟩, e, he, rfl⟩
    · simp only [Bool.and_eq_true, bne_iff_ne] at hc
      exact ⟨c :: body, c :: text, rfl, .plain (by simp [hc]) hspells⟩
    · rw [eq_of_beq hc]
      obtain ⟨text', hspells'⟩ := hspells.exists_backslash (bne_iff_ne.mp he)
      exact ⟨'\\' :: e :: body, text', rfl, hspells'⟩

/-- Where a literal matches stand a quote, what spells a text, and the quote again; what is between is captured. -/
theorem exists_of_matchAt_literalBody (h : (literalBody quote key).matchAt s captures next = some r) :
    ∃ (body text : List Char) (t : Spot), s.rest = quote :: (body ++ quote :: t.rest) ∧
      t.index = s.index + body.length + 2 ∧ Spells quote body text ∧ next t ((key, body) :: captures) = some r := by
  change (Pattern.both (Pattern.char quote) (.both (.capture key (inside quote)) (Pattern.char quote))).matchAt s
    captures next = some r at h
  rw [matchAt] at h
  obtain ⟨rest, hrest, h⟩ := exists_of_matchAt_char h
  rw [matchAt, matchAt] at h
  obtain ⟨t, found, hpass, h⟩ := exists_passes_of_matchAt h
  obtain rfl := hpass.found_eq_nil fun name => rfl
  obtain ⟨rest', hrest', h⟩ := exists_of_matchAt_char h
  obtain ⟨body, text, hbody, hspells⟩ := exists_spells hpass.leaves
  obtain ⟨passed, hpassed, hindex⟩ := hpass.reaches
  obtain rfl := List.append_cancel_right (hpassed.symm.trans hbody)
  have hcaptured : (s.step quote rest).textTo t = passed := by
    unfold Spot.textTo
    rw [hindex, Nat.add_sub_cancel_left, hpassed, List.take_left]
  rw [hcaptured, List.nil_append] at h
  refine ⟨passed, text, t.step quote rest', ?_, ?_, hspells, h⟩
  · change rest = passed ++ t.rest at hpassed
    rw [hrest, hpassed, hrest']
    rfl
  · change t.index = s.index + 1 + passed.length at hindex
    change t.index + 1 = _
    omega

end Literals

theorem keptAs_openings : ∀ opening ∈ openings, ∀ name, opening.keptAs name = [] := by
  simp only [openings, List.forall_mem_cons]
  refine ⟨?_, ?_, ?_, ?_, ?_, ?_, ?_, ?_, ?_, ?_, ?_, ?_, ?_, ?_, List.forall_mem_nil _⟩ <;> exact fun name => rfl

/-- Every match of an idiom is a print, and its text is what is spelled. -/
theorem exists_print {opening : Pattern} {source : List Char} {m : Match} (hopening : opening ∈ openings)
    (hm : m ∈ (Pattern.both opening literal).findAll source) :
    ∃ x : Print opening source, rangeOf m = x.range ∧ textOf? m = some x.text := by
  obtain ⟨s, t, ⟨front, hfront, hstart⟩, hmatch⟩ := exists_of_mem_findAll hm
  obtain ⟨hhere, hmstart, hmstop⟩ := of_matchHere? hmatch
  rw [matchAt] at hhere
  obtain ⟨u, found, hpass, hliteral⟩ := exists_passes_of_matchAt hhere
  obtain rfl := hpass.found_eq_nil (keptAs_openings opening hopening)
  obtain ⟨before, hbefore, hindex⟩ := hpass.reaches
  -- Both kinds of quotes give a print in the same way.
  have hprint {quote : Char} {key : String} (hquote : quote ∈ ['"', '\'']) (hkey : key = "double" ∨ key = "single")
      (h : (literalBody quote key).matchAt u [] (fun t found => some (t, found)) = some (t, m.captures)) :
      ∃ x : Print opening source, rangeOf m = x.range ∧ textOf? m = some x.text := by
    obtain ⟨body, text, t', hrest, hlength, hspells, hend⟩ := exists_of_matchAt_literalBody h
    obtain ⟨rfl, hcaptures⟩ := Prod.mk.inj (Option.some.inj hend)
    have hopens := hpass.leaves
    rw [hbefore, hrest] at hopens
    refine ⟨⟨front, before, quote, body, t'.rest, text, ?_, hopens, hquote, hspells⟩, ?_, ?_⟩
    · rw [← hrest, ← hbefore]
      exact hfront
    · change s.index = 0 + front.length at hstart
      simp only [rangeOf, Print.range, Range.mk.injEq]
      omega
    · have htext : textOf? m = some (Text.unescape body) := by
        unfold textOf? Match.get?
        rw [← hcaptures]
        rcases hkey with rfl | rfl <;> rfl
      exact htext.trans (congrArg some hspells.unescape_eq)
  rw [literal, matchAt_either] at hliteral
  rcases Option.or_eq_some_iff.mp hliteral with hdouble | ⟨-, hsingle⟩
  · exact hprint (by decide) (.inl rfl) hdouble
  · exact hprint (by decide) (.inr rfl) hsingle

theorem Range.overlaps_comm (a b : Range) : a.overlaps b = b.overlaps a := Bool.and_comm _ _

theorem not_overlaps_of_stop_le {a b : Range} (h : a.stop ≤ b.start) : ¬ b.overlaps a = true := by
  unfold Range.overlaps
  rw [Bool.and_eq_true, decide_eq_true_eq, decide_eq_true_eq]
  omega

def free (ranges : List Range) (found : List Match) : List Match :=
  found.filter fun m => !ranges.any (rangeOf m).overlaps

theorem free_reverse (ranges : List Range) (found : List Match) : free ranges.reverse found = free ranges found := by
  simp [free]

def recordOf (m : Match) : List Char := Text.asRecord ((textOf? m).getD [])

/-- A match is claimed if it overlaps nothing that has been claimed. -/
theorem add_eq (claims : Claims) {m : Match} (htext : (textOf? m).isSome = true) :
    claims.add m =
      if claims.ranges.any (rangeOf m).overlaps then claims
      else ⟨rangeOf m :: claims.ranges, recordOf m :: claims.records⟩ := by
  unfold Claims.add recordOf
  unfold textOf? at htext ⊢
  cases hbody : (m.get? "double").or (m.get? "single") with
  | none =>
    rw [hbody] at htext
    cases htext
  | some body => rfl

/-- The matches of one idiom do not get in each other's way: those are claimed that overlap nothing claimed before the
idiom came. By induction on the matches; those before, which are claimed already, lie in front of all others. -/
theorem foldl_add {found : List Match} (hpair : found.Pairwise fun a b => a.stop ≤ b.start)
    (htext : ∀ m ∈ found, (textOf? m).isSome = true) {own : List Range}
    (hown : ∀ m ∈ found, ∀ range ∈ own, ¬ (rangeOf m).overlaps range = true) (ranges : List Range)
    (records : List (List Char)) :
    found.foldl Claims.add ⟨own ++ ranges, records⟩ =
      ⟨((free ranges found).map rangeOf).reverse ++ (own ++ ranges),
        ((free ranges found).map recordOf).reverse ++ records⟩ := by
  induction found generalizing own records with
  | nil => rfl
  | cons m found ih =>
    obtain ⟨hm, hfound⟩ := List.forall_mem_cons.mp htext
    obtain ⟨hmown, hrest⟩ := List.forall_mem_cons.mp hown
    obtain ⟨hbehind, hpair⟩ := List.pairwise_cons.mp hpair
    have hany : (own ++ ranges).any (rangeOf m).overlaps = ranges.any (rangeOf m).overlaps := by
      rw [List.any_append, List.any_eq_false.mpr hmown, Bool.false_or]
    rw [List.foldl_cons, add_eq _ hm]
    dsimp only
    rw [hany]
    cases hfree : ranges.any (rangeOf m).overlaps with
    | true =>
      have hdropped : free ranges (m :: found) = free ranges found := by simp [free, hfree]
      rw [if_pos rfl, hdropped]
      exact ih hpair hfound hrest records
    | false =>
      have hkept : free ranges (m :: found) = m :: free ranges found := by simp [free, hfree]
      have hown' : ∀ m' ∈ found, ∀ range ∈ rangeOf m :: own, ¬ (rangeOf m').overlaps range = true :=
        fun m' hm' => List.forall_mem_cons.mpr ⟨not_overlaps_of_stop_le (hbehind m' hm'), hrest m' hm'⟩
      rw [if_neg Bool.false_ne_true, hkept, ← List.cons_append, ih hpair hfound hown']
      simp

structure Claim where
  rank : Nat
  range : Range
  text : List Char

def claimsOf (rank : Nat) (claims : List Claim) (found : List Match) : List Claim :=
  (free (claims.map Claim.range) found).map fun m => ⟨rank, rangeOf m, (textOf? m).getD []⟩

/-- The claims that some idioms make on a source, in order. Each is a match of its idiom, and a match is claimed if it
overlaps no claim of an earlier idiom, and only then. -/
structure Claimed (table : List Pattern) (source : List Char) (claims : List Claim) : Prop where
  made : claimAll table source =
    ⟨(claims.map Claim.range).reverse, (claims.map fun c => Text.asRecord c.text).reverse⟩
  found : ∀ c ∈ claims, ∃ idiom m, table[c.rank]? = some idiom ∧ m ∈ idiom.findAll source ∧ c.range = rangeOf m ∧
    textOf? m = some c.text
  claimed_iff : ∀ rank idiom m, table[rank]? = some idiom → m ∈ idiom.findAll source →
    ((∃ c ∈ claims, c.rank = rank ∧ c.range = rangeOf m) ↔
      ¬ ∃ c ∈ claims, c.rank < rank ∧ c.range.overlaps (rangeOf m) = true)
  ordered : claims.Pairwise fun a b => a.rank < b.rank ∨ a.rank = b.rank ∧ a.range.stop ≤ b.range.start
  disjoint : claims.Pairwise fun a b => ¬ a.range.overlaps b.range = true

namespace Claimed

variable {table : List Pattern} {source : List Char} {claims : List Claim}

theorem nil (source : List Char) : Claimed [] source [] where
  made := rfl
  found := List.forall_mem_nil _
  claimed_iff := by rintro rank idiom m ⟨⟩
  ordered := .nil
  disjoint := .nil

theorem rank_lt (h : Claimed table source claims) {c : Claim} (hc : c ∈ claims) : c.rank < table.length := by
  obtain ⟨idiom, m, hidiom, -⟩ := h.found c hc
  exact (List.getElem?_eq_some_iff.mp hidiom).1

theorem mem_claimsOf {rank : Nat} {found : List Match} {c : Claim} :
    c ∈ claimsOf rank claims found ↔
      ∃ m ∈ found, (¬ ∃ c' ∈ claims, c'.range.overlaps (rangeOf m) = true) ∧
        c = ⟨rank, rangeOf m, (textOf? m).getD []⟩ := by
  have hfree (m : Match) : (!(claims.map Claim.range).any (rangeOf m).overlaps) = true ↔
      ¬ ∃ c' ∈ claims, c'.range.overlaps (rangeOf m) = true := by
    rw [Bool.not_eq_true', List.any_eq_false, List.forall_mem_map]
    simp only [not_exists, not_and]
    exact forall₂_congr fun c' _ => by rw [Range.overlaps_comm]
  simp only [claimsOf, free, List.mem_map, List.mem_filter, hfree, and_assoc, eq_comm]

/-- What is said of claims of earlier idioms is said of the claims that there were. -/
theorem exists_earlier_iff {rank : Nat} {found : List Match} {P : Claim → Prop} (hP : ∀ c, P c → c.rank < rank) :
    (∃ c ∈ claims ++ claimsOf rank claims found, P c) ↔ ∃ c ∈ claims, P c := by
  constructor
  · rintro ⟨c, hc, hPc⟩
    rcases List.mem_append.mp hc with hc | hc
    · exact ⟨c, hc, hPc⟩
    · obtain ⟨m, -, -, rfl⟩ := mem_claimsOf.mp hc
      exact absurd (hP _ hPc) (Nat.lt_irrefl rank)
  · rintro ⟨c, hc, hPc⟩
    exact ⟨c, List.mem_append_left _ hc, hPc⟩

/-- The claims of one idiom come in order. -/
theorem pairwise_claimsOf (rank : Nat) (claims : List Claim) (idiom : Pattern) (source : List Char) :
    (claimsOf rank claims (idiom.findAll source)).Pairwise fun a b => a.rank = b.rank ∧ a.range.stop ≤ b.range.start :=
  List.pairwise_map.mpr (((pairwise_findAll idiom source).filter _).imp fun hstop => ⟨rfl, hstop⟩)

/-- One more idiom claims those of its matches that are still free. -/
theorem snoc (h : Claimed table source claims) {idiom : Pattern}
    (htext : ∀ m ∈ idiom.findAll source, (textOf? m).isSome = true) :
    Claimed (table ++ [idiom]) source (claims ++ claimsOf table.length claims (idiom.findAll source)) where
  made := by
    have hnone : ∀ m ∈ idiom.findAll source, ∀ range ∈ ([] : List Range), ¬ (rangeOf m).overlaps range = true :=
      fun _ _ => List.forall_mem_nil _
    -- The new matches are compared with the ranges there are, and among each other they do not overlap.
    have hfold := foldl_add (pairwise_findAll idiom source) htext hnone (claims.map Claim.range).reverse
      (claims.map fun c => Text.asRecord c.text).reverse
    have hmade : claimAll (table ++ [idiom]) source =
        (idiom.findAll source).foldl Claims.add (claimAll table source) := by
      simp [claimAll]
    rw [List.nil_append, free_reverse] at hfold
    rw [hmade, h.made, hfold]
    simp [claimsOf, recordOf, Function.comp_def]
  found := by
    intro c hc
    rcases List.mem_append.mp hc with hc | hc
    · obtain ⟨idiom', m, hidiom, hfound⟩ := h.found c hc
      exact ⟨idiom', m, (List.getElem?_append_left (h.rank_lt hc)).trans hidiom, hfound⟩
    · obtain ⟨m, hfound, -, rfl⟩ := mem_claimsOf.mp hc
      obtain ⟨text, htext⟩ := Option.isSome_iff_exists.mp (htext m hfound)
      exact ⟨idiom, m, by simp, hfound, rfl, by simp [htext]⟩
  claimed_iff := by
    intro rank idiom' m hidiom hm
    have hlength : rank < table.length + 1 := by
      simpa using (List.getElem?_eq_some_iff.mp hidiom).1
    rcases Nat.lt_succ_iff_lt_or_eq.mp hlength with hlt | rfl
    · -- The new claims are of a later idiom, so nothing changes for this match.
      rw [List.getElem?_append_left hlt] at hidiom
      rw [exists_earlier_iff fun c hc => hc.1.trans_lt hlt, exists_earlier_iff fun c hc => hc.1.trans hlt]
      exact h.claimed_iff rank idiom' m hidiom hm
    · -- All claims that there were are of earlier idioms, and these are what the new idiom has looked at.
      obtain rfl : idiom = idiom' := by simpa using hidiom
      rw [exists_earlier_iff (P := fun c => c.rank < table.length ∧ c.range.overlaps (rangeOf m) = true)
        fun c hc => hc.1]
      constructor
      · rintro ⟨c, hc, hrank, hrange⟩ ⟨c', hc', -, hoverlaps⟩
        rcases List.mem_append.mp hc with hc | hc
        · exact absurd hrank (h.rank_lt hc).ne
        · obtain ⟨m', -, hfree, rfl⟩ := mem_claimsOf.mp hc
          rw [← hrange] at hoverlaps
          exact hfree ⟨c', hc', hoverlaps⟩
      · intro hnone
        refine ⟨_, List.mem_append_right claims (mem_claimsOf.mpr ⟨m, hm, ?_, rfl⟩), rfl, rfl⟩
        rintro ⟨c, hc, hoverlaps⟩
        exact hnone ⟨c, hc, h.rank_lt hc, hoverlaps⟩
  ordered := by
    refine List.pairwise_append.mpr ⟨h.ordered, (pairwise_claimsOf _ _ _ _).imp .inr, fun a ha b hb => .inl ?_⟩
    obtain ⟨m, -, -, rfl⟩ := mem_claimsOf.mp hb
    exact h.rank_lt ha
  disjoint := by
    refine List.pairwise_append.mpr ⟨h.disjoint, (pairwise_claimsOf _ _ _ _).imp fun hstop => ?_, fun a ha b hb => ?_⟩
    · rw [Range.overlaps_comm]
      exact not_overlaps_of_stop_le hstop.2
    · obtain ⟨m, -, hfree, rfl⟩ := mem_claimsOf.mp hb
      exact fun hoverlaps => hfree ⟨a, ha, hoverlaps⟩

theorem exists_claimed (hidioms : ∀ idiom ∈ table, ∀ m ∈ idiom.findAll source, (textOf? m).isSome = true) :
    ∃ claims, Claimed table source claims := by
  induction table using List.reverseRecOn with
  | nil => exact ⟨[], nil source⟩
  | append_singleton table idiom ih =>
    obtain ⟨hbefore, hlast⟩ := List.forall_mem_append.mp hidioms
    obtain ⟨claims, h⟩ := ih hbefore
    exact ⟨_, h.snoc (List.forall_mem_singleton.mp hlast)⟩

/-- Nothing is claimed exactly if no idiom matches anywhere: what overlaps an earlier claim is not the only match. -/
theorem eq_nil_iff (h : Claimed table source claims) :
    claims = [] ↔ ∀ idiom ∈ table, ¬ idiom.occursIn source = true := by
  constructor
  · rintro rfl idiom hidiom
    obtain ⟨rank, hrank⟩ := List.mem_iff_getElem?.mp hidiom
    rw [← findAll_eq_nil_iff, List.eq_nil_iff_forall_not_mem]
    intro m hm
    obtain ⟨c, hc, -⟩ := (h.claimed_iff rank idiom m hrank hm).mpr (by simp)
    cases hc
  · intro hnone
    apply List.eq_nil_iff_forall_not_mem.mpr
    intro c hc
    obtain ⟨idiom, m, hidiom, hm, -⟩ := h.found c hc
    rw [findAll_eq_nil_iff.mpr (hnone idiom (List.mem_of_getElem? hidiom))] at hm
    cases hm

end Claimed

theorem exists_opening {rank : Nat} {idiom : Pattern} (h : idioms[rank]? = some idiom) :
    ∃ opening, openings[rank]? = some opening ∧ idiom = .both opening literal := by
  rw [idioms, List.getElem?_map] at h
  obtain ⟨opening, hopening, rfl⟩ := Option.map_eq_some_iff.mp h
  exact ⟨opening, hopening, rfl⟩

theorem exists_print_of_mem {idiom : Pattern} (hidiom : idiom ∈ idioms) {source : List Char} {m : Match}
    (hm : m ∈ idiom.findAll source) :
    ∃ opening ∈ openings, ∃ x : Print opening source, rangeOf m = x.range ∧ textOf? m = some x.text := by
  obtain ⟨opening, hopening, rfl⟩ := List.mem_map.mp hidiom
  exact ⟨opening, hopening, exists_print hopening hm⟩

theorem start_lt_stop {idiom : Pattern} (hidiom : idiom ∈ idioms) {source : List Char} {m : Match}
    (hm : m ∈ idiom.findAll source) : m.start < m.stop := by
  obtain ⟨opening, -, x, hrange, -⟩ := exists_print_of_mem hidiom hm
  obtain ⟨hstart, hstop⟩ := Range.mk.inj hrange
  omega

/-- The diagnostic does not end as a record does. -/
theorem getLast?_diagnostic (language source stdin : String) :
    (diagnostic language source stdin).toList.getLast? = some 's' := by
  have hend : " characters".toList ≠ [] := by decide
  have hlast (x y : String) : (x ++ (y ++ toString " characters")).toList.getLast? = " characters".toList.getLast? := by
    rw [String.toList_append, String.toList_append, ← List.append_assoc]
    exact List.getLast?_append_of_ne_nil _ hend
  exact hlast _ _

/-- The records of claims end in a newline. -/
theorem getLast?_records {claims : List Claim} (hne : claims ≠ []) :
    (claims.flatMap fun c => Text.asRecord c.text).getLast? = some '\n' := by
  rcases List.eq_nil_or_concat claims with rfl | ⟨front, c, rfl⟩
  · exact absurd rfl hne
  · rw [List.concat_eq_append, List.flatMap_append, List.flatMap_singleton, Text.asRecord, ← List.append_assoc,
      List.getLast?_concat]

namespace Claimed

variable {source : String} {claims : List Claim} (h : Claimed idioms source.toList claims)

include h

/-- A claim is a match of its idiom, and so a print. -/
theorem exists_print_of_claim {c : Claim} (hc : c ∈ claims) :
    ∃ opening, openings[c.rank]? = some opening ∧
      (∃ m ∈ (Pattern.both opening literal).findAll source.toList, c.range = ⟨m.start, m.stop⟩) ∧
      ∃ x : Print opening source.toList, c.range = x.range ∧ c.text = x.text := by
  obtain ⟨idiom, m, hidiom, hm, hrange, hshown⟩ := h.found c hc
  obtain ⟨opening, hopening, rfl⟩ := exists_opening hidiom
  obtain ⟨x, hx, htext⟩ := exists_print (List.mem_of_getElem? hopening) hm
  refine ⟨opening, hopening, ⟨m, hm, hrange⟩, x, hrange.trans hx, ?_⟩
  exact Option.some.inj (hshown.symm.trans htext)

theorem output_eq (language stdin : String) :
    (simulate language source stdin).output = some
      (if claims = [] then diagnostic language source stdin
      else String.ofList (claims.flatMap fun c => Text.asRecord c.text)) := by
  unfold simulate outputOf
  dsimp only
  rw [h.made]
  simp [List.flatMap_def]

/-- The output is the diagnostic exactly if nothing is claimed. -/
theorem output_eq_diagnostic_iff (language stdin : String) :
    (simulate language source stdin).output = some (diagnostic language source stdin) ↔ claims = [] := by
  rw [h.output_eq, Option.some_inj]
  constructor
  · intro hsame
    by_contra hne
    rw [if_neg hne] at hsame
    have hlast := getLast?_diagnostic language source stdin
    rw [← hsame, String.toList_ofList, getLast?_records hne] at hlast
    cases hlast
  · intro hnil
    rw [if_pos hnil]

end Claimed

/-- The idioms claim parts of the source, none of which overlaps another, in the order of the table and for one idiom
in that of the source. Each is a print, and a match of an idiom is claimed unless it overlaps a claim of an earlier
idiom. The output is one record for each claim: the text that its literal spells, with a newline behind it unless it
ends in one. It is the diagnostic exactly if no idiom matches anywhere. -/
theorem idioms_claim_in_order (language source stdin : String) :
    let text := source.toList
    ∃ claims : List Claim,
      (claimAll idioms text).ranges.reverse = claims.map Claim.range ∧
      (∀ idiom ∈ idioms, (idiom.findAll text).Pairwise (fun a b => a.stop ≤ b.start) ∧
        ∀ m ∈ idiom.findAll text, m.start < m.stop) ∧
      claims.Pairwise (fun a b => ¬ a.range.overlaps b.range = true) ∧
      claims.Pairwise (fun a b => a.rank < b.rank ∨ a.rank = b.rank ∧ a.range.stop ≤ b.range.start) ∧
      (∀ c ∈ claims, ∃ opening, openings[c.rank]? = some opening ∧
        (∃ m ∈ (Pattern.both opening literal).findAll text, c.range = ⟨m.start, m.stop⟩) ∧
        ∃ x : Print opening text, c.range = x.range ∧ c.text = x.text) ∧
      (∀ rank idiom m, idioms[rank]? = some idiom → m ∈ idiom.findAll text →
        ((∃ c ∈ claims, c.rank = rank ∧ c.range = ⟨m.start, m.stop⟩) ↔
          ¬ ∃ c ∈ claims, c.rank < rank ∧ c.range.overlaps ⟨m.start, m.stop⟩ = true)) ∧
      (simulate language source stdin).output = some
        (if claims = [] then diagnostic language source stdin
        else String.ofList
          (claims.flatMap fun c => if c.text.getLast? = some '\n' then c.text else c.text ++ ['\n'])) ∧
      ((simulate language source stdin).output = some (diagnostic language source stdin) ↔
        ∀ idiom ∈ idioms, ¬ idiom.occursIn text = true) := by
  intro text
  have htext (idiom : Pattern) (hidiom : idiom ∈ idioms) (m : Match) (hm : m ∈ idiom.findAll text) :
      (textOf? m).isSome = true := by
    obtain ⟨opening, -, x, -, htext⟩ := exists_print_of_mem hidiom hm
    rw [htext]
    rfl
  obtain ⟨claims, h⟩ := Claimed.exists_claimed htext
  refine ⟨claims, ?_, fun idiom hidiom => ⟨pairwise_findAll idiom text, fun m hm => start_lt_stop hidiom hm⟩,
    h.disjoint, h.ordered, fun c hc => h.exists_print_of_claim hc, h.claimed_iff, ?_, ?_⟩
  · rw [h.made, List.reverse_reverse]
  · simp only [← asRecord_eq]
    exact h.output_eq language stdin
  · rw [h.output_eq_diagnostic_iff, h.eq_nil_iff]

end Snippet.Idiom
