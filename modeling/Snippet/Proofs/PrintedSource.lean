import Snippet.Proofs.DataSource
import Snippet.Script.Program

/-!
The value of the literal of a tree: new containers that show the tree. With what is read from a printed
tree, this makes the printed form of data a source for the same data.
-/

namespace Snippet.Script

/-- A key that an object does not have is given a further entry. -/
theorem Object.set_new {entries : List (String × Value)} {key : String}
    (hkey : key ∉ entries.map Prod.fst) (v : Value) :
    ({ entries } : Object).set key v = { entries := entries ++ [(key, v)] } := by
  have hown : ({ entries } : Object).hasOwn key = false := by
    rw [Bool.eq_false_iff]
    intro h
    obtain ⟨e, he, heq⟩ := List.any_eq_true.mp h
    exact hkey (List.mem_map.mpr ⟨e, he, beq_iff_eq.mp heq⟩)
  unfold Object.set
  rw [hown]
  rfl

namespace Data

variable (scope : ScopeRef)

mutual

/-- The value of the literal of a tree shows the tree. -/
theorem makes_expr {d : Data} (hk : d.DistinctKeys) {n : Nat} (hheight : d.height < n) (m : Machine) :
    Makes ((evaluator n).eval d.expr scope) m d.ShownBy := by
  obtain ⟨n, rfl⟩ : ∃ k, n = k + 1 := ⟨n - 1, by omega⟩
  cases d with
  | array items =>
    have hinside : itemsHeight items + 1 < n + 1 := hheight
    have hitems := makes_itemExprs hk (Nat.lt_of_succ_lt_succ hinside) [] m
    refine Makes.bind hitems ?_
    rintro out m' - ⟨vs, rfl, hshown⟩
    exact makes_array hshown
  | object members =>
    have hinside : membersHeight members + 1 < n + 1 := hheight
    have hmembers := makes_memberExprs hk.2 (Nat.lt_of_succ_lt_succ hinside) [] hk.1 m
    refine Makes.bind hmembers ?_
    rintro out m' - ⟨entries, rfl, hshown⟩
    exact makes_object hshown
  | _ => exact Makes.pure rfl

/-- Elements are evaluated to values that show them; by induction on the elements. -/
theorem makes_itemExprs {items : List Data} (hk : itemsDistinct items) {n : Nat}
    (hheight : itemsHeight items < n) (done : List Value) (m : Machine) :
    Makes (Run.evalItems (evaluator n) scope done (itemExprs items)) m
      fun h out => ∃ vs, out = done.reverse ++ vs ∧ itemsShownBy h items vs := by
  cases items with
  | nil => exact Makes.pure ⟨[], (List.append_nil _).symm, rfl⟩
  | cons d items =>
    have hmax : itemsHeight (d :: items) = max d.height (itemsHeight items) := rfl
    have hrest : itemsHeight items < n := by omega
    refine (makes_expr hk.1 (by omega) m).bind ?_
    intro v m' _ hv
    obtain ⟨out, m'', hrun, hgrow, vs, hout, hvs⟩ := makes_itemExprs hk.2 hrest (v :: done) m'
    refine ⟨out, m'', hrun, hgrow, v :: vs, ?_, v, vs, rfl, hv.mono hgrow, hvs⟩
    rw [hout, List.reverse_cons, List.append_assoc]
    rfl

/-- Members are evaluated to entries that show them, under keys that are all new; by induction on the
members. -/
theorem makes_memberExprs {members : List (String × Data)} (hk : membersDistinct members) {n : Nat}
    (hheight : membersHeight members < n) (entries : List (String × Value))
    (hkeys : (entries.map Prod.fst ++ members.map Prod.fst).Nodup) (m : Machine) :
    Makes (Run.evalMembers (evaluator n) scope { entries } (memberExprs members)) m
      fun h out => ∃ more, out = { entries := entries ++ more } ∧ membersShownBy h members more := by
  cases members with
  | nil => exact Makes.pure ⟨[], by rw [List.append_nil], rfl⟩
  | cons m₀ members =>
    obtain ⟨key, d⟩ := m₀
    have hmax : membersHeight ((key, d) :: members) = max d.height (membersHeight members) := rfl
    have hrest : membersHeight members < n := by omega
    have hnew : key ∉ entries.map Prod.fst := by
      intro hmem
      exact (List.nodup_append.mp hkeys).2.2 key hmem key List.mem_cons_self rfl
    refine (makes_expr hk.1 (by omega) m).bind ?_
    intro v m' _ hv
    have hkeys' : ((entries ++ [(key, v)]).map Prod.fst ++ members.map Prod.fst).Nodup := by
      rw [List.map_append, List.append_assoc]
      exact hkeys
    obtain ⟨out, m'', hrun, hgrow, more, hout, hmore⟩ :=
      makes_memberExprs hk.2 hrest (entries ++ [(key, v)]) hkeys' m'
    rw [Object.set_new hnew]
    refine ⟨out, m'', hrun, hgrow, (key, v) :: more, ?_, v, more, rfl, hv.mono hgrow, hmore⟩
    rw [hout, List.append_assoc]
    rfl

end

end Data

/-- No tree is an error, and what is not a string on its own is printed as inside of a container. -/
theorem Data.ShownBy.printed {d : Data} {h : Heap} {v : Value} (hd : d.ShownBy h v)
    (hs : ∀ s, d ≠ .string s) : h.printed v = h.printedInside v := by
  have herror : h.isError v = false := by
    cases d with
    | array items => obtain ⟨a, rfl, -⟩ := hd; rfl
    | object members =>
      obtain ⟨o, rfl, -, entries, ho, -⟩ := hd
      change (h.object o).isError = false
      rw [ho]
    | _ => obtain rfl := hd; rfl
  unfold Heap.printed
  split
  · next s =>
    cases d with
    | string s => exact absurd rfl (hs s)
    | array items => obtain ⟨a, ha, -⟩ := hd; cases ha
    | object members => obtain ⟨o, ho, -⟩ := hd; cases ho
    | _ => cases hd
  · rw [herror]
    rfl

/-- The printed form of data is a source for the same data. Of a tree that is at most three containers high
and has no numbers, the printed form in parentheses is read as one expression, whose value shows the same tree
wherever it is evaluated, with the keys in the same order. The form is the one with all strings in quotes: only
a string alone is printed without them. -/
theorem printed_data_is_source {d : Data} (hn : d.WithoutNumbers) (hk : d.DistinctKeys)
    (hheight : d.height ≤ 3) {h : Heap} {v : Value} (hd : d.ShownBy h v) :
    ∃ text e, h.printedInside v = .ok text ∧ ((∀ s, d ≠ .string s) → h.printed v = .ok text) ∧
      parseProgram ("(" ++ text ++ ")") = .ok [.expr e] ∧
        ∀ n, 4 ≤ n → ∀ (scope : ScopeRef) (m : Machine),
          ∃ v' m', (evaluator n).eval e scope m = .ok v' m' ∧ d.ShownBy m'.heap v' := by
  have hprinted : h.printedInside v = .ok d.printedText :=
    hd.printedWithin hn (Heap.Encloses.nil h d.height) (printedDepth + 1) hheight
  refine ⟨d.printedText, d.expr, hprinted, fun hs => (hd.printed hs).trans hprinted,
    Data.parseProgram_printed hn ?_, ?_⟩
  · exact Nat.lt_of_le_of_lt (Nat.add_le_add_right hheight 2) (by decide)
  · intro n hle scope m
    obtain ⟨v', m', hrun, -, hshown⟩ := Data.makes_expr scope hk (by omega : d.height < n) m
    exact ⟨v', m', hrun, hshown⟩

/-- The tree `{ "don't": [ '"', true, undefined ], class: null }`. -/
def awkwardData : Data :=
  .object [("don't", .array [.string "\"", .bool true, .undefined]), ("class", .null)]

def awkwardHeap : Heap :=
  { arrays := #[#[.string "\"", .bool true, .undefined]]
    objects := #[{ entries := [("don't", .array ⟨0⟩), ("class", .null)] }] }

/-- Data with quotes, line breaks and keys that are no names is its own source. -/
theorem awkward_data_is_source :
    ∃ text e, awkwardHeap.printedInside (.object ⟨0⟩) = .ok text ∧
      awkwardHeap.printed (.object ⟨0⟩) = .ok text ∧ parseProgram ("(" ++ text ++ ")") = .ok [.expr e] ∧
        ∀ n, 4 ≤ n → ∀ (scope : ScopeRef) (m : Machine),
          ∃ v' m', (evaluator n).eval e scope m = .ok v' m' ∧ awkwardData.ShownBy m'.heap v' := by
  have hn : awkwardData.WithoutNumbers := ⟨⟨trivial, trivial, trivial, trivial⟩, trivial, trivial⟩
  have hk : awkwardData.DistinctKeys :=
    ⟨by decide, ⟨trivial, trivial, trivial, trivial⟩, trivial, trivial⟩
  have hshown : awkwardData.ShownBy awkwardHeap (.object ⟨0⟩) :=
    ⟨⟨0⟩, rfl, by decide, _, rfl, _, _, rfl,
      ⟨⟨0⟩, rfl, by decide, _, _, rfl, rfl, _, _, rfl, rfl, _, _, rfl, rfl, rfl⟩, _, _, rfl, rfl, rfl⟩
  obtain ⟨text, e, hinside, hprinted, hread, hshows⟩ := printed_data_is_source hn hk (by decide) hshown
  exact ⟨text, e, hinside, hprinted (fun _ h => by cases h), hread, hshows⟩

end Snippet.Script
