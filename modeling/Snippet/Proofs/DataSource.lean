import Snippet.Proofs.DataTokens
import Snippet.Proofs.OperandReading

/-!
Printed data as a source. The tokens of a tree are read back as the literal of the tree, in front of a comma
or a closing bracket and as far down as constructs may be nested.
-/

namespace Snippet.Script

namespace Data

mutual

def expr : Data → Expr
  | .undefined => .undefined
  | .null => .null
  | .bool b => .bool b
  | .integer n => .number (Float.ofInt n)
  | .string s => .string s
  | .array items => .array (itemExprs items)
  | .object members => .object (memberExprs members)

def itemExprs : List Data → List Item
  | [] => []
  | d :: rest => .mk false d.expr :: itemExprs rest

def memberExprs : List (String × Data) → List Member
  | [] => []
  | (key, d) :: rest => .init (.named key) d.expr :: memberExprs rest

end

end Data

namespace Parse

theorem primary_array {d : Descent} {tokens rest : List Placed} {size previous : Nat} {items : List Item}
    (h : arrayItems d ⟨tokens, size, 1, false⟩ = .ok (items, ⟨rest, size, 1, false⟩)) :
    primary d ⟨⟨.mark "[", 1⟩ :: tokens, size, previous, false⟩ =
      .ok (.array items, ⟨rest, size, 1, false⟩) := by
  have hliteral : (do return Expr.array (← arrayItems d) : Parse Expr) ⟨tokens, size, 1, false⟩ =
      .ok (.array items, ⟨rest, size, 1, false⟩) :=
    (parse_bind _ _ h).trans rfl
  exact hliteral

theorem primary_object {d : Descent} {tokens rest : List Placed} {size previous : Nat}
    {members : List Member}
    (h : listUntil "\x7d" (member d) ⟨tokens, size, 1, false⟩ = .ok (members, ⟨rest, size, 1, false⟩)) :
    primary d ⟨⟨.mark "\x7b", 1⟩ :: tokens, size, previous, false⟩ =
      .ok (.object members, ⟨rest, size, 1, false⟩) := by
  have hliteral : (do return Expr.object (← listUntil "\x7d" (member d)) : Parse Expr)
      ⟨tokens, size, 1, false⟩ = .ok (.object members, ⟨rest, size, 1, false⟩) :=
    (parse_bind _ _ h).trans rfl
  exact hliteral

/-- An expression in parentheses is read as itself. -/
theorem primary_parenthesis {d : Descent} {tokens rest : List Placed} {size previous : Nat} {e : Expr}
    (h : expression d ⟨tokens, size, 1, false⟩ = .ok (e, ⟨⟨.mark ")", 1⟩ :: rest, size, 1, false⟩)) :
    primary d ⟨⟨.mark "(", 1⟩ :: tokens, size, previous, false⟩ =
      .ok (e, ⟨rest, size, 1, false⟩) := by
  have hinside : withIn (expression d) ⟨tokens, size, 1, false⟩ =
      .ok (e, ⟨⟨.mark ")", 1⟩ :: rest, size, 1, false⟩) :=
    (parse_bind _ _ rfl).trans ((parse_bind _ _ rfl).trans ((parse_bind _ _ h).trans rfl))
  have hclosed : (do
      let e ← withIn (expression d)
      expectMark ")"
      return e : Parse Expr) ⟨tokens, size, 1, false⟩ = .ok (e, ⟨rest, size, 1, false⟩) :=
    (parse_bind _ _ hinside).trans rfl
  exact hclosed

def pastComma : List Placed → List Placed
  | ⟨.mark ",", _⟩ :: more => more
  | rest => rest

inductive SeparatedIn (close : String) : List Placed → Prop
  | comma (more : List Placed) : SeparatedIn close (⟨.mark ",", 1⟩ :: more)
  | last (more : List Placed) : SeparatedIn close (⟨.mark close, 1⟩ :: more)

theorem SeparatedIn.endsOperand {close : String} {rest : List Placed} (h : SeparatedIn close rest)
    (hclose : ∀ line more, EndsOperand (⟨.mark close, line⟩ :: more)) : EndsOperand rest := by
  cases h with
  | comma more => exact .comma 1 more
  | last more => exact hclose 1 more

/-- An element is read up to the comma or the bracket behind it. -/
theorem holesRound_item {d : Descent} {first : Token} {size : Nat} {tokens rest : List Placed} {e : Expr}
    (hfirst : BeginsOperand first) (hrest : SeparatedIn "]" rest)
    (he : d.assignment ⟨⟨first, 1⟩ :: tokens, size, 1, false⟩ = .ok (e, ⟨rest, size, 1, false⟩))
    (done : List Item) :
    holesRound "]" (.mk false .undefined) (item d) done ⟨⟨first, 1⟩ :: tokens, size, 1, false⟩ =
      .ok (.more (.mk false e :: done), ⟨pastComma rest, size, 1, false⟩) := by
  have hnot {m : String} (hm : m ∉ ["[", "\x7b", "("]) :
      eatMark m ⟨⟨first, 1⟩ :: tokens, size, 1, false⟩ =
        .ok (false, ⟨⟨first, 1⟩ :: tokens, size, 1, false⟩) :=
    eatMark_of_not (hfirst.isMarkToken hm)
  have hitem : item d ⟨⟨first, 1⟩ :: tokens, size, 1, false⟩ =
      .ok (.mk false e, ⟨rest, size, 1, false⟩) :=
    (parse_bind _ _ (hnot (by decide))).trans ((parse_bind _ _ he).trans rfl)
  refine (parse_bind _ _ (hnot (by decide))).trans ?_
  refine (parse_bind _ _ (hnot (by decide))).trans ?_
  refine (parse_bind _ _ hitem).trans ?_
  cases hrest <;> rfl

/-- A member is its key, a colon and its value. -/
theorem member_read {d : Descent} {key : String} {size previous : Nat} {tokens rest : List Placed}
    {e : Expr} (he : d.assignment ⟨tokens, size, 1, false⟩ = .ok (e, ⟨rest, size, 1, false⟩)) :
    member d ⟨⟨Data.keyToken key, 1⟩ :: ⟨.mark ":", 1⟩ :: tokens, size, previous, false⟩ =
      .ok (.init (.named key) e, ⟨rest, size, 1, false⟩) := by
  have hvalue : (do return Member.init (.named key) (← d.assignment)) (⟨tokens, size, 1, false⟩ : Input) =
      .ok (Member.init (.named key) e, ⟨rest, size, 1, false⟩) :=
    (parse_bind _ _ he).trans rfl
  unfold Data.keyToken
  split
  · -- The word `async` is a key like all others, as a colon follows it.
    refine (parse_bind _ _ (eatMark_of_not rfl)).trans ?_
    refine (parse_bind (key == "async") _ rfl).trans ?_
    refine (parse_bind (.mark ":") _ rfl).trans ?_
    cases key == "async" with
    | true => exact hvalue
    | false => exact hvalue
  · exact hvalue

theorem listRound_member {d : Descent} (key : String) {size : Nat} {tokens rest : List Placed} {e : Expr}
    (hrest : SeparatedIn "\x7d" rest)
    (he : d.assignment ⟨tokens, size, 1, false⟩ = .ok (e, ⟨rest, size, 1, false⟩))
    (done : List Member) :
    listRound "\x7d" (member d) done ⟨⟨Data.keyToken key, 1⟩ :: ⟨.mark ":", 1⟩ :: tokens, size, 1, false⟩ =
      .ok (.more (.init (.named key) e :: done), ⟨pastComma rest, size, 1, false⟩) := by
  have hnot : isMarkToken "\x7d" (Data.keyToken key) = false := by
    unfold Data.keyToken
    split <;> rfl
  refine (parse_bind _ _ (eatMark_of_not hnot)).trans ?_
  refine (parse_bind _ _ (member_read he)).trans ?_
  cases hrest <;> rfl

end Parse

namespace Data

open Parse

/-- The tokens of a tree begin with one that begins a literal. -/
theorem begins_tokens {d : Data} (hn : d.WithoutNumbers) :
    ∃ first more, d.tokens = first :: more ∧ BeginsOperand first := by
  cases d with
  | integer n => exact hn.elim
  | undefined => exact ⟨_, _, rfl, .word (by decide)⟩
  | null => exact ⟨_, _, rfl, .word (by decide)⟩
  | bool b => exact ⟨_, _, rfl, .word (by cases b <;> decide)⟩
  | string s => exact ⟨_, _, rfl, trivial⟩
  | array items => cases items with
    | nil => exact ⟨_, _, rfl, .mark (by decide)⟩
    | cons d rest => exact ⟨_, _, rfl, .mark (by decide)⟩
  | object members => cases members with
    | nil => exact ⟨_, _, rfl, .mark (by decide)⟩
    | cons m rest => exact ⟨_, _, rfl, .mark (by decide)⟩

/-- No literal begins like the parameters of an arrow function. -/
theorem leadsOperand_tokens {d : Data} (hn : d.WithoutNumbers) {rest : List Placed}
    (hrest : EndsOperand rest) : LeadsOperand (placed d.tokens ++ rest) := by
  obtain ⟨first, more, htokens, hfirst⟩ := begins_tokens hn
  have hbegins : BeginsOperand (tokenOf (placed d.tokens ++ rest)) := by
    rw [htokens]
    exact hfirst
  refine ⟨hbegins, ?_, ?_⟩
  · cases d with
    | integer n => exact hn.elim
    | bool b => cases b <;> rfl
    | undefined => cases hrest <;> rfl
    | array items => cases items <;> rfl
    | object members => cases members <;> rfl
    | _ => rfl
  · intro hasync
    cases d with
    | integer n => exact hn.elim
    | bool b => cases b <;> cases hasync
    | array items => cases items <;> cases hasync
    | object members => cases members <;> cases hasync
    | _ => cases hasync

theorem separated_itemTokens (items : List Data) (more : List Placed) :
    SeparatedIn "]" (placed (itemTokens items) ++ ⟨.mark "]", 1⟩ :: more) := by
  cases items with
  | nil => exact .last more
  | cons d items => exact .comma _

theorem separated_memberTokens (members : List (String × Data)) (more : List Placed) :
    SeparatedIn "\x7d" (placed (memberTokens members) ++ ⟨.mark "\x7d", 1⟩ :: more) := by
  cases members with
  | nil => exact .last more
  | cons m members => exact .comma _

theorem length_placed (tokens : List Token) : (placed tokens).length = tokens.length := List.length_map _

theorem length_le_itemTokens (items : List Data) : items.length ≤ (itemTokens items).length := by
  induction items with
  | nil => exact Nat.le_refl _
  | cons d items ih =>
    change items.length + 1 ≤ (d.tokens ++ itemTokens items).length + 1
    rw [List.length_append]
    omega

theorem length_le_memberTokens (members : List (String × Data)) :
    members.length ≤ (memberTokens members).length := by
  induction members with
  | nil => exact Nat.le_refl _
  | cons m members ih =>
    change members.length + 1 ≤ (m.2.tokens ++ memberTokens members).length + 1 + 1 + 1
    rw [List.length_append]
    omega

def elementTokens : List Data → List Token
  | [] => []
  | d :: rest => d.tokens ++ itemTokens rest

def entryTokens : List (String × Data) → List Token
  | [] => []
  | (key, d) :: rest => keyToken key :: .mark ":" :: (d.tokens ++ memberTokens rest)

theorem placed_array (items : List Data) (rest : List Placed) :
    placed (Data.array items).tokens ++ rest =
      ⟨.mark "[", 1⟩ :: (placed (elementTokens items) ++ ⟨.mark "]", 1⟩ :: rest) := by
  cases items with
  | nil => rfl
  | cons d items =>
    change ⟨.mark "[", 1⟩ :: (placed (d.tokens ++ (itemTokens items ++ [.mark "]"])) ++ rest) =
      ⟨.mark "[", 1⟩ :: (placed (d.tokens ++ itemTokens items) ++ ⟨.mark "]", 1⟩ :: rest)
    rw [← List.append_assoc, placed_append, List.append_assoc]
    rfl

theorem placed_object (members : List (String × Data)) (rest : List Placed) :
    placed (Data.object members).tokens ++ rest =
      ⟨.mark "\x7b", 1⟩ :: (placed (entryTokens members) ++ ⟨.mark "\x7d", 1⟩ :: rest) := by
  cases members with
  | nil => rfl
  | cons m members =>
    obtain ⟨key, d⟩ := m
    change ⟨.mark "\x7b", 1⟩ :: ⟨keyToken key, 1⟩ :: ⟨.mark ":", 1⟩ ::
        (placed (d.tokens ++ (memberTokens members ++ [.mark "\x7d"])) ++ rest) =
      ⟨.mark "\x7b", 1⟩ :: ⟨keyToken key, 1⟩ :: ⟨.mark ":", 1⟩ ::
        (placed (d.tokens ++ memberTokens members) ++ ⟨.mark "\x7d", 1⟩ :: rest)
    rw [← List.append_assoc, placed_append, List.append_assoc]
    rfl

theorem pastComma_itemTokens (items : List Data) (more : List Placed) :
    pastComma (placed (itemTokens items) ++ ⟨.mark "]", 1⟩ :: more) =
      placed (elementTokens items) ++ ⟨.mark "]", 1⟩ :: more := by
  cases items with
  | nil => rfl
  | cons d items => rfl

theorem pastComma_memberTokens (members : List (String × Data)) (more : List Placed) :
    pastComma (placed (memberTokens members) ++ ⟨.mark "\x7d", 1⟩ :: more) =
      placed (entryTokens members) ++ ⟨.mark "\x7d", 1⟩ :: more := by
  cases members with
  | nil => rfl
  | cons m members => rfl

theorem length_elementTokens_le (items : List Data) :
    (elementTokens items).length ≤ (itemTokens items).length := by
  cases items with
  | nil => exact Nat.le_refl _
  | cons d items => exact Nat.le_succ _

theorem length_entryTokens_le (members : List (String × Data)) :
    (entryTokens members).length ≤ (memberTokens members).length := by
  cases members with
  | nil => exact Nat.le_refl _
  | cons m members => exact Nat.le_succ _

theorem length_array (items : List Data) :
    (Data.array items).tokens.length = (elementTokens items).length + 2 := by
  have h := congrArg List.length (placed_array items [])
  simpa only [List.append_nil, List.length_append, List.length_cons, List.length_nil, length_placed]
    using h

theorem length_object (members : List (String × Data)) :
    (Data.object members).tokens.length = (entryTokens members).length + 2 := by
  have h := congrArg List.length (placed_object members [])
  simpa only [List.append_nil, List.length_append, List.length_cons, List.length_nil, length_placed]
    using h

theorem length_le_elementTokens {items : List Data} (hn : itemsWithoutNumbers items) :
    items.length ≤ (elementTokens items).length := by
  cases items with
  | nil => exact Nat.le_refl _
  | cons d items =>
    obtain ⟨first, more, htokens, -⟩ := begins_tokens hn.1
    have hrest := length_le_itemTokens items
    change items.length + 1 ≤ (d.tokens ++ itemTokens items).length
    rw [htokens, List.length_append, List.length_cons]
    omega

theorem length_le_entryTokens (members : List (String × Data)) :
    members.length ≤ (entryTokens members).length := by
  cases members with
  | nil => exact Nat.le_refl _
  | cons m members =>
    have hrest := length_le_memberTokens members
    change members.length + 1 ≤ (m.2.tokens ++ memberTokens members).length + 1 + 1
    rw [List.length_append]
    omega

variable {size : Nat}

mutual

/-- The tokens of a tree are read as its literal. -/
theorem assignment_tokens {n : Nat} {d : Data} (hn : d.WithoutNumbers) (hheight : d.height ≤ n)
    {rest : List Placed} (hrest : EndsOperand rest) (hsize : d.tokens.length + rest.length ≤ size)
    (previous : Nat) :
    assignment (descent n) ⟨placed d.tokens ++ rest, size, previous, false⟩ =
      .ok (d.expr, ⟨rest, size, 1, false⟩) := by
  have hprimary : primary (descent n) ⟨placed d.tokens ++ rest, size, previous, false⟩ =
      .ok (d.expr, ⟨rest, size, 1, false⟩) := by
    cases d with
    | integer n => exact hn.elim
    | bool b => cases b <;> rfl
    | array items =>
      have hinside : itemsHeight items + 1 ≤ n := hheight
      obtain ⟨n, rfl⟩ : ∃ k, n = k + 1 := ⟨n - 1, by omega⟩
      -- An element takes one round and has one token at least, so the rounds suffice.
      have hcount := length_le_elementTokens hn
      rw [length_array] at hsize
      rw [placed_array]
      exact primary_array (iterate_elementTokens hn (by omega) (by omega) [] (size + 1) (by omega))
    | object members =>
      have hinside : membersHeight members + 1 ≤ n := hheight
      obtain ⟨n, rfl⟩ : ∃ k, n = k + 1 := ⟨n - 1, by omega⟩
      have hcount := length_le_entryTokens members
      rw [length_object] at hsize
      rw [placed_object]
      exact primary_object (iterate_entryTokens hn (by omega) (by omega) [] (size + 1) (by omega))
    | _ => rfl
  exact assignment_of_primary (leadsOperand_tokens hn hrest) hrest hprimary

/-- The elements of an array that are left are read one by one. -/
theorem iterate_elementTokens {n : Nat} {items : List Data} (hn : itemsWithoutNumbers items)
    (hheight : itemsHeight items ≤ n) {more : List Placed}
    (hsize : (elementTokens items).length + more.length < size) (done : List Item) (fuel : Nat)
    (hfuel : items.length < fuel) :
    iterate (holesRound "]" (.mk false .undefined) (item (descent (n + 1)))) fuel done
        ⟨placed (elementTokens items) ++ ⟨.mark "]", 1⟩ :: more, size, 1, false⟩ =
      .ok (done.reverse ++ itemExprs items, ⟨more, size, 1, false⟩) := by
  obtain ⟨fuel, rfl⟩ : ∃ k, fuel = k + 1 := ⟨fuel - 1, by omega⟩
  cases items with
  | nil =>
    rw [itemExprs, List.append_nil]
    rfl
  | cons d items =>
    have hmax : itemsHeight (d :: items) = max d.height (itemsHeight items) := rfl
    have hlength : (elementTokens (d :: items)).length = d.tokens.length + (itemTokens items).length :=
      List.length_append
    have hle := length_elementTokens_le items
    have hsep := separated_itemTokens items more
    have htokens : placed (elementTokens (d :: items)) ++ ⟨.mark "]", 1⟩ :: more =
        placed d.tokens ++ (placed (itemTokens items) ++ ⟨.mark "]", 1⟩ :: more) := by
      change placed (d.tokens ++ itemTokens items) ++ _ = _
      rw [placed_append, List.append_assoc]
    have hvalue : (descent (n + 1)).assignment ⟨placed d.tokens ++
        (placed (itemTokens items) ++ ⟨.mark "]", 1⟩ :: more), size, 1, false⟩ =
          .ok (d.expr, ⟨placed (itemTokens items) ++ ⟨.mark "]", 1⟩ :: more, size, 1, false⟩) := by
      refine assignment_tokens hn.1 (by omega) (hsep.endsOperand .bracket) ?_ 1
      rw [List.length_append, List.length_cons, length_placed]
      omega
    -- A round takes the element and the comma behind it, up to the next element.
    have hround : holesRound "]" (.mk false .undefined) (item (descent (n + 1))) done ⟨placed d.tokens ++
        (placed (itemTokens items) ++ ⟨.mark "]", 1⟩ :: more), size, 1, false⟩ =
          .ok (.more (.mk false d.expr :: done),
            ⟨placed (elementTokens items) ++ ⟨.mark "]", 1⟩ :: more, size, 1, false⟩) := by
      obtain ⟨first, tail, hd, hfirst⟩ := begins_tokens hn.1
      rw [hd] at hvalue ⊢
      rw [← pastComma_itemTokens]
      exact holesRound_item hfirst hsep hvalue done
    rw [htokens]
    refine (parse_bind _ _ hround).trans ((iterate_elementTokens hn.2 (by omega) (by omega)
      (.mk false d.expr :: done) fuel (Nat.lt_of_succ_lt_succ hfuel)).trans ?_)
    rw [List.reverse_cons, List.append_assoc]
    rfl

/-- The members of an object that are left are read one by one. -/
theorem iterate_entryTokens {n : Nat} {members : List (String × Data)}
    (hn : membersWithoutNumbers members) (hheight : membersHeight members ≤ n) {more : List Placed}
    (hsize : (entryTokens members).length + more.length < size) (done : List Member) (fuel : Nat)
    (hfuel : members.length < fuel) :
    iterate (listRound "\x7d" (member (descent (n + 1)))) fuel done
        ⟨placed (entryTokens members) ++ ⟨.mark "\x7d", 1⟩ :: more, size, 1, false⟩ =
      .ok (done.reverse ++ memberExprs members, ⟨more, size, 1, false⟩) := by
  obtain ⟨fuel, rfl⟩ : ∃ k, fuel = k + 1 := ⟨fuel - 1, by omega⟩
  cases members with
  | nil =>
    rw [memberExprs, List.append_nil]
    rfl
  | cons m members =>
    obtain ⟨key, d⟩ := m
    -- A member is one round: its key, the value in a level less, and the comma behind it.
    have hmax : membersHeight ((key, d) :: members) = max d.height (membersHeight members) := rfl
    have hlength : (entryTokens ((key, d) :: members)).length =
        d.tokens.length + (memberTokens members).length + 2 :=
      congrArg (· + 2) List.length_append
    have hle := length_entryTokens_le members
    have hsep := separated_memberTokens members more
    have htokens : placed (entryTokens ((key, d) :: members)) ++ ⟨.mark "\x7d", 1⟩ :: more =
        ⟨keyToken key, 1⟩ :: ⟨.mark ":", 1⟩ ::
          (placed d.tokens ++ (placed (memberTokens members) ++ ⟨.mark "\x7d", 1⟩ :: more)) := by
      change ⟨keyToken key, 1⟩ :: ⟨.mark ":", 1⟩ :: (placed (d.tokens ++ memberTokens members) ++ _) = _
      rw [placed_append, List.append_assoc]
    have hvalue : (descent (n + 1)).assignment ⟨placed d.tokens ++
        (placed (memberTokens members) ++ ⟨.mark "\x7d", 1⟩ :: more), size, 1, false⟩ =
          .ok (d.expr, ⟨placed (memberTokens members) ++ ⟨.mark "\x7d", 1⟩ :: more, size, 1, false⟩) := by
      refine assignment_tokens hn.1 (by omega) (hsep.endsOperand .brace) ?_ 1
      rw [List.length_append, List.length_cons, length_placed]
      omega
    have hround := listRound_member key hsep hvalue done
    rw [pastComma_memberTokens] at hround
    rw [htokens]
    refine (parse_bind _ _ hround).trans ((iterate_entryTokens hn.2 (by omega) (by omega)
      (.init (.named key) d.expr :: done) fuel (Nat.lt_of_succ_lt_succ hfuel)).trans ?_)
    rw [List.reverse_cons, List.append_assoc]
    rfl

end

theorem closesBeforeArrow_key (depth : Nat) (key : String) (rest : List Placed) :
    closesBeforeArrow depth (⟨keyToken key, 1⟩ :: ⟨.mark ":", 1⟩ :: rest) = closesBeforeArrow depth rest := by
  unfold keyToken
  split <;> rfl

mutual

/-- The brackets of a tree close each other. -/
theorem closesBeforeArrow_tokens (d : Data) (depth : Nat) (rest : List Placed) :
    closesBeforeArrow (depth + 1) (placed d.tokens ++ rest) = closesBeforeArrow (depth + 1) rest := by
  cases d with
  | array items =>
    cases items with
    | nil => rfl
    | cons d items =>
      rw [placed_array]
      change closesBeforeArrow (depth + 1 + 1) (placed (d.tokens ++ itemTokens items) ++ _) = _
      rw [placed_append, List.append_assoc, closesBeforeArrow_tokens, closesBeforeArrow_itemTokens]
      rfl
  | object members =>
    cases members with
    | nil => rfl
    | cons m members =>
      obtain ⟨key, d⟩ := m
      rw [placed_object]
      change closesBeforeArrow (depth + 1 + 1) (⟨keyToken key, 1⟩ :: ⟨.mark ":", 1⟩ ::
        (placed (d.tokens ++ memberTokens members) ++ _)) = _
      rw [closesBeforeArrow_key, placed_append, List.append_assoc, closesBeforeArrow_tokens,
        closesBeforeArrow_memberTokens]
      rfl
  | _ => rfl

theorem closesBeforeArrow_itemTokens (items : List Data) (depth : Nat) (rest : List Placed) :
    closesBeforeArrow (depth + 1) (placed (itemTokens items) ++ rest) =
      closesBeforeArrow (depth + 1) rest := by
  cases items with
  | nil => rfl
  | cons d items =>
    change closesBeforeArrow (depth + 1) (placed (d.tokens ++ itemTokens items) ++ rest) = _
    rw [placed_append, List.append_assoc, closesBeforeArrow_tokens, closesBeforeArrow_itemTokens]

/-- The tokens of members close every parenthesis that they open, and none of them is an arrow. -/
theorem closesBeforeArrow_memberTokens (members : List (String × Data)) (depth : Nat)
    (rest : List Placed) :
    closesBeforeArrow (depth + 1) (placed (memberTokens members) ++ rest) =
      closesBeforeArrow (depth + 1) rest := by
  cases members with
  | nil => rfl
  | cons m members =>
    obtain ⟨key, d⟩ := m
    change closesBeforeArrow (depth + 1) (⟨keyToken key, 1⟩ :: ⟨.mark ":", 1⟩ ::
      (placed (d.tokens ++ memberTokens members) ++ rest)) = _
    rw [closesBeforeArrow_key, placed_append, List.append_assoc, closesBeforeArrow_tokens,
      closesBeforeArrow_memberTokens]

end

/-- A tree in parentheses is read as its literal. -/
theorem assignment_sourceTokens {d : Data} (hn : d.WithoutNumbers) {n : Nat} (hheight : d.height ≤ n)
    (hsize : d.sourceTokens.length ≤ size) :
    assignment (descent (n + 1)) ⟨d.sourceTokens, size, 0, false⟩ =
      .ok (d.expr, ⟨[⟨.stop, 1⟩], size, 1, false⟩) := by
  have hlead : LeadsOperand d.sourceTokens := ⟨.mark (by decide), closesBeforeArrow_tokens d 0 _, nofun⟩
  refine assignment_of_primary hlead (.stop 1 []) ?_
  have hinside : (descent (n + 1)).assignment
      ⟨placed d.tokens ++ [⟨.mark ")", 1⟩, ⟨.stop, 1⟩], size, 1, false⟩ =
        .ok (d.expr, ⟨[⟨.mark ")", 1⟩, ⟨.stop, 1⟩], size, 1, false⟩) := by
    refine assignment_tokens hn hheight (.parenthesis 1 _) ?_ 1
    rw [sourceTokens, List.length_cons, List.length_append, length_placed] at hsize
    omega
  have hexpression : expression (descent (n + 1))
      ⟨placed d.tokens ++ [⟨.mark ")", 1⟩, ⟨.stop, 1⟩], size, 1, false⟩ =
        .ok (d.expr, ⟨[⟨.mark ")", 1⟩, ⟨.stop, 1⟩], size, 1, false⟩) :=
    (parse_bind _ _ hinside).trans rfl
  exact primary_parenthesis hexpression

/-- The source that a printed tree in parentheses is has one statement, the literal of the tree. -/
theorem parseProgram_printed {d : Data} (hn : d.WithoutNumbers) (hheight : d.height + 2 < maxNesting) :
    parseProgram ("(" ++ d.printedText ++ ")") = .ok [.expr d.expr] := by
  have htext : ("(" ++ d.printedText ++ ")").toList = '(' :: (d.printed ++ [')']) := by
    rw [String.toList_append, String.toList_append, printedText, String.toList_ofList (l := d.printed)]
    rfl
  -- The program reads its statements one level down, and what is in parentheses stands another level down.
  have hnesting : maxNesting = 197 + 3 := rfl
  have hassignment : (descent 199).assignment ⟨d.sourceTokens, d.sourceTokens.length, 0, false⟩ =
      .ok (d.expr, ⟨[⟨.stop, 1⟩], d.sourceTokens.length, 1, false⟩) :=
    assignment_sourceTokens hn (by omega) (Nat.le_refl _)
  have hexpression : expression (descent 199) ⟨d.sourceTokens, d.sourceTokens.length, 0, false⟩ =
      .ok (d.expr, ⟨[⟨.stop, 1⟩], d.sourceTokens.length, 1, false⟩) :=
    (parse_bind _ _ hassignment).trans rfl
  have hstatement : statement (descent 199) ⟨d.sourceTokens, d.sourceTokens.length, 0, false⟩ =
      .ok (.expr d.expr, ⟨[⟨.stop, 1⟩], d.sourceTokens.length, 1, false⟩) := by
    have hwhole : expressionStatement (descent 199) ⟨d.sourceTokens, d.sourceTokens.length, 0, false⟩ =
        .ok (.expr d.expr, ⟨[⟨.stop, 1⟩], d.sourceTokens.length, 1, false⟩) :=
      (parse_bind _ _ hexpression).trans rfl
    exact hwhole
  have hprogram : program ⟨d.sourceTokens, d.sourceTokens.length, 0, false⟩ =
      .ok ([.expr d.expr], ⟨[⟨.stop, 1⟩], d.sourceTokens.length, 1, false⟩) := by
    refine (parse_bind (.more [.expr d.expr]) ⟨[⟨.stop, 1⟩], d.sourceTokens.length, 1, false⟩ ?_).trans rfl
    refine (parse_bind false _ rfl).trans ?_
    have hdown : (descent maxNesting).statement = (fun s => statement (descent 199) s : Parse Stmt) := rfl
    rw [if_neg Bool.false_ne_true, hdown]
    exact (parse_bind _ _ hstatement).trans rfl
  unfold parseProgram
  rw [htext, tokenize_printed hn]
  simp only [hprogram]

end Data

end Snippet.Script
