import Snippet.Proofs.OperatorTree
import Snippet.Proofs.ParenthesizedOperand

/-!
Reading operators by their precedence. Whatever is read is a row of operands with operators between them, up to a
token that is no operator there, grouped as the precedence of the operators asks for.
-/

namespace Snippet.Script

open Parse (infixOf? tokenOf descent parse_bind of_parse_bind)

structure Operand.Read (n : Nat) (s : Input) (x : Operand) (t : Input) : Prop where
  value : Parse.unary (descent n) s = .ok (x.value, t)
  tokens : s.rest = x.tokens ++ t.rest

structure Operator.Read (s : Input) (o : Operator) (t : Input) : Prop where
  known : infixOf? s.noIn (tokenOf s.rest) = some (o.op, o.precedence)
  sign : s.rest = o.sign :: t.rest
  passed : Parse.advance s = .ok ((), t)

/-- An operator that comes next is read by passing it. -/
theorem Operator.exists_read {s t : Input} {op : Parse.Infix} {p : Nat}
    (hknown : infixOf? s.noIn (tokenOf s.rest) = some (op, p)) (hpassed : Parse.advance s = .ok ((), t)) :
    ∃ o : Operator, o.Read s t ∧ o.op = op ∧ o.precedence = p := by
  obtain ⟨tokens, size, previousLine, noIn⟩ := s
  cases tokens with
  | nil => cases hknown
  | cons sign rest =>
    refine ⟨⟨sign, op, p, infixOf_false hknown⟩, ⟨hknown, ?_, hpassed⟩, rfl, rfl⟩
    cases hpassed
    rfl

namespace OperatorRow

inductive Continues (n : Nat) : Input → List (Operator × Operand) → Input → Prop where
  | nil (s : Input) : Continues n s [] s
  | cons {s u v t : Input} {o : Operator} {x : Operand} {others : List (Operator × Operand)}
    (ho : o.Read s u) (hx : x.Read n u v) (h : Continues n v others t) : Continues n s ((o, x) :: others) t

def Read (n : Nat) (s : Input) (row : OperatorRow) (t : Input) : Prop :=
  ∃ u, row.first.Read n s u ∧ Continues n u row.others t

end OperatorRow

def Input.AtNoOperator (s : Input) : Prop := infixOf? s.noIn (tokenOf s.rest) = none

def Input.AtOperatorBelow (least : Nat) (s : Input) : Prop :=
  ∀ op p, infixOf? s.noIn (tokenOf s.rest) = some (op, p) → p < least

theorem Operand.Read.unique {n : Nat} {s t t' : Input} {x x' : Operand} (h : x.Read n s t)
    (h' : x'.Read n s t') : x = x' ∧ t = t' := by
  obtain ⟨hvalue, rfl⟩ := Prod.mk.inj (Except.ok.inj (h.value.symm.trans h'.value))
  have htokens : x.tokens ++ t.rest = x'.tokens ++ t.rest := h.tokens.symm.trans h'.tokens
  exact ⟨Operand.ext (List.append_cancel_right htokens) hvalue, rfl⟩

/-- An operator is read in one way only. -/
theorem Operator.Read.unique {s t t' : Input} {o o' : Operator} (h : o.Read s t) (h' : o'.Read s t') :
    o = o' ∧ t = t' := by
  have ht : t = t' := (Prod.mk.inj (Except.ok.inj (h.passed.symm.trans h'.passed))).2
  have hsign : o.sign = o'.sign := (List.cons.inj (h.sign.symm.trans h'.sign)).1
  obtain ⟨hop, hprecedence⟩ := Prod.mk.inj (Option.some.inj (h.known.symm.trans h'.known))
  obtain ⟨sign, op, precedence, listed⟩ := o
  cases hsign
  cases hop
  cases hprecedence
  exact ⟨rfl, ht⟩

namespace OperatorRow

variable {n : Nat} {s t u v : Input}

theorem Continues.append {others others' : List (Operator × Operand)} (h : Continues n s others u)
    (h' : Continues n u others' t) : Continues n s (others ++ others') t := by
  induction h with
  | nil s => exact h'
  | cons ho hx _ ih => exact .cons ho hx (ih h')

/-- Up to a token that is no operator there is one way to go on. -/
theorem Continues.unique {t' : Input} {others others' : List (Operator × Operand)}
    (h : Continues n s others t) (h' : Continues n s others' t') (ht : t.AtNoOperator) (ht' : t'.AtNoOperator) :
    others = others' ∧ t = t' := by
  have hnone {s u : Input} {o : Operator} (ho : o.Read s u) : ¬ s.AtNoOperator := fun hs => by
    cases hs.symm.trans ho.known
  induction h generalizing others' with
  | nil s =>
    cases h' with
    | nil s => exact ⟨rfl, rfl⟩
    | cons ho _ _ => exact absurd ht (hnone ho)
  | cons ho hx _ ih =>
    cases h' with
    | nil s => exact absurd ht' (hnone ho)
    | cons ho' hx' h' =>
      obtain ⟨rfl, rfl⟩ := ho.unique ho'
      obtain ⟨rfl, rfl⟩ := hx.unique hx'
      obtain ⟨rfl, rfl⟩ := ih h' ht
      exact ⟨rfl, rfl⟩

theorem Read.unique {t' : Input} {row row' : OperatorRow} (h : row.Read n s t) (h' : row'.Read n s t')
    (ht : t.AtNoOperator) (ht' : t'.AtNoOperator) : row = row' ∧ t = t' := by
  obtain ⟨u, hfirst, hothers⟩ := h
  obtain ⟨u', hfirst', hothers'⟩ := h'
  obtain ⟨hoperand, rfl⟩ := hfirst.unique hfirst'
  obtain ⟨hrest, rfl⟩ := hothers.unique hothers' ht ht'
  exact ⟨OperatorRow.ext hoperand hrest, rfl⟩

theorem Continues.rest_eq {others : List (Operator × Operand)} (h : Continues n s others t) :
    s.rest = others.flatMap (fun x => x.1.sign :: x.2.tokens) ++ t.rest := by
  induction h with
  | nil s => rfl
  | cons ho hx _ ih =>
    rw [ho.sign, hx.tokens, ih, List.flatMap_cons, List.cons_append, List.cons_append, List.append_assoc]

/-- What is passed are the tokens of the row. -/
theorem Read.rest_eq {row : OperatorRow} (h : row.Read n s t) : s.rest = row.tokens ++ t.rest := by
  obtain ⟨u, hfirst, hothers⟩ := h
  rw [hfirst.tokens, hothers.rest_eq, tokens, List.append_assoc]

end OperatorRow

namespace OperatorTree

variable {n : Nat} {s t u v : Input}

/-- An operator between what has been read in front of it and what is read behind it. -/
theorem read_node {o : Operator} {left right : OperatorTree} (hleft : left.row.Read n s u)
    (ho : o.Read u v) (hright : right.row.Read n v t) : (node o left right).row.Read n s t := by
  obtain ⟨w, hfirst, hothers⟩ := hleft
  obtain ⟨w', hsecond, hmore⟩ := hright
  exact ⟨w, hfirst, hothers.append (.cons ho hsecond hmore)⟩

structure Read (n least : Nat) (s : Input) (tree : OperatorTree) (t : Input) : Prop where
  row : tree.row.Read n s t
  grouped : tree.Grouped
  binds : tree.BindsAtLeast least

def FitsBehind (least : Nat) (tree : OperatorTree) (t : Input) : Prop :=
  -- An operator behind a tree may have the tree to its left, if its precedence is high enough to go
  -- on.
  ∀ o u, Operator.Read t o u → least ≤ o.precedence → tree.BindsAtLeast o.leftLeast

/-- An operator and its right operand are read, or the next operator is not tight enough. -/
theorem of_operatorRound {d : Parse.Descent} {least : Nat} {left : Expr} {r : Parse.Step Expr Expr}
    (h : Parse.operatorRound d least left s = .ok (r, t)) :
    (r = .done left ∧ s = t ∧ s.AtOperatorBelow least) ∨
      ∃ o u right, Operator.Read s o u ∧ least ≤ o.precedence ∧
        d.binary o.rightLeast u = .ok (right, t) ∧ r = .more (o.op.apply left right) := by
  unfold Parse.operatorRound at h
  rw [parse_bind s s rfl, parse_bind (tokenOf s.rest) s rfl] at h
  cases hknown : infixOf? s.noIn (tokenOf s.rest) with
  | none =>
    rw [hknown] at h
    cases h
    exact .inl ⟨rfl, rfl, fun op p hop => by cases hknown.symm.trans hop⟩
  | some x =>
    obtain ⟨op, p⟩ := x
    rw [hknown] at h
    dsimp only at h
    by_cases hleast : p < least
    · rw [if_pos hleast] at h
      cases h
      refine .inl ⟨rfl, rfl, fun op' p' hop => ?_⟩
      cases hknown.symm.trans hop
      exact hleast
    · rw [if_neg hleast] at h
      obtain ⟨⟨⟩, u, hadvance, h⟩ := of_parse_bind h
      obtain ⟨right, v, hright, hmore⟩ := of_parse_bind h
      cases hmore
      obtain ⟨o, ho, rfl, rfl⟩ := Operator.exists_read hknown hadvance
      exact .inr ⟨o, u, right, ho, Nat.le_of_not_lt hleast, o.rightLeast_eq ▸ hright, rfl⟩

theorem FitsBehind.node {least : Nat} {o : Operator} {left right : OperatorTree}
    (ht : t.AtOperatorBelow o.rightLeast) : FitsBehind least (node o left right) t := fun o' _ ho' _ =>
  Operator.leftLeast_le (ht o'.op o'.precedence ho'.known)

def Groups (n : Nat) (read : Nat → Parse Expr) : Prop :=
  -- Values with operators of at least a given precedence between them are read as trees of these
  -- operators, up to an operator that is not tight enough.
  ∀ least s e t, read least s = .ok (e, t) →
    ∃ tree, tree.value = e ∧ Read n least s tree t ∧ t.AtOperatorBelow least

/-- Behind a tree that has been read, the rounds come to a tree as well: each puts the tree to the left of the next
operator. By induction on the rounds. -/
theorem Groups.rounds {d : Parse.Descent} (hd : Groups n d.binary) {least fuel : Nat} {tree : OperatorTree}
    {e : Expr} (hread : Read n least s tree u) (hfits : FitsBehind least tree u)
    (h : Parse.iterate (Parse.operatorRound d least) fuel tree.value u = .ok (e, t)) :
    ∃ tree', tree'.value = e ∧ Read n least s tree' t ∧ t.AtOperatorBelow least := by
  induction fuel generalizing tree u with
  | zero => cases h
  | succ fuel ih =>
    obtain ⟨r, v, hround, h⟩ := of_parse_bind h
    rcases of_operatorRound hround with ⟨rfl, rfl, hbelow⟩ | ⟨o, w, e', ho, hle, hright, rfl⟩
    · cases h
      exact ⟨tree, rfl, hread, hbelow⟩
    · -- The tree so far is what the operator has to its left.
      obtain ⟨right, rfl, hreadright, hnext⟩ := hd _ _ _ _ hright
      have hnode : Read n least s (node o tree right) v :=
        { row := read_node hread.row ho hreadright.row
          grouped := ⟨hfits o w ho hle, hreadright.binds, hread.grouped, hreadright.grouped⟩
          binds := hle }
      exact ih hnode (.node hnext) h

/-- An operand alone is a tree, and may stand to the left of any operator. -/
theorem read_operand {x : Operand} {least : Nat} (h : x.Read n s t) : Read n least s (operand x) t where
  row := ⟨t, h, .nil t⟩
  grouped := trivial
  binds := trivial

theorem Groups.binary {m : Nat} (hle : m ≤ n) (hd : Groups n (descent m).binary) :
    Groups n (Parse.binary (descent m)) := by
  intro least s e t h
  obtain ⟨first, u, hfirst, hrounds⟩ := of_parse_bind h
  obtain ⟨hfirst', tokens, htokens, -⟩ :=
    (Pairing.Reads.unary (Parse.Descent.beside_anywhere hle) (i := [])).same trivial hfirst
  exact hd.rounds (read_operand (x := ⟨tokens, first⟩) ⟨hfirst', htokens⟩) (fun _ _ _ _ => trivial) hrounds

/-- By induction on the level, as right operands are read one level further down. -/
theorem groups_descent {m : Nat} (hle : m ≤ n) : Groups n (descent m).binary := by
  induction m with
  | zero =>
    intro least s e t h
    cases h
  | succ m ih => exact (ih (Nat.le_of_succ_le hle)).binary (Nat.le_of_succ_le hle)

end OperatorTree

/-- An operand that is itself an operator applied to two values stands in parentheses. -/
theorem Operand.Read.parenthesized {n : Nat} {s t : Input} {x : Operand} (h : x.Read n s t)
    (hoperator : x.value.isInfix = true) : Parenthesized x.tokens := by
  obtain ⟨passed, hpassed, henclosed⟩ := InfixEnclosed.unary_descent (n + 1) s x.value t h.value hoperator
  have htokens : x.tokens ++ t.rest = passed ++ t.rest := h.tokens.symm.trans hpassed
  exact List.append_cancel_right htokens ▸ henclosed

theorem OperatorRow.Continues.parenthesized {n : Nat} {s t : Input} {others : List (Operator × Operand)}
    (h : Continues n s others t) :
    ∀ x ∈ others.map Prod.snd, x.value.isInfix = true → Parenthesized x.tokens := by
  induction h with
  | nil s => exact fun x hx => absurd hx List.not_mem_nil
  | cons _ hx _ ih => exact List.forall_mem_cons.mpr ⟨hx.parenthesized, ih⟩

theorem OperatorRow.Read.parenthesized {n : Nat} {s t : Input} {row : OperatorRow} (h : row.Read n s t) :
    ∀ x ∈ row.operands, x.value.isInfix = true → Parenthesized x.tokens := by
  obtain ⟨u, hfirst, hothers⟩ := h
  exact List.forall_mem_cons.mpr ⟨hfirst.parenthesized, hothers.parenthesized⟩

structure OperatorTree.ReadToTheEnd (n : Nat) (s : Input) (tree : OperatorTree) (t : Input) : Prop where
  row : tree.row.Read n s t
  grouped : tree.Grouped
  stops : t.AtNoOperator

theorem OperatorTree.ReadToTheEnd.unique {n : Nat} {s t t' : Input} {tree tree' : OperatorTree}
    (h : tree.ReadToTheEnd n s t) (h' : tree'.ReadToTheEnd n s t') : tree = tree' ∧ t = t' := by
  obtain ⟨hrow, rfl⟩ := h.row.unique h'.row h.stops h'.stops
  exact ⟨h.grouped.eq_of_row h'.grouped hrow, rfl⟩

/-- Values with operators between them are read as the tree of these operators in which they are grouped by their
precedence. Its operands and operators are, from the left to the right, the tokens that are passed; it ends in
front of a token that is no operator there, and there is no other such tree. -/
theorem binary_reads_one_tree {n : Nat} {s t : Input} {e : Expr}
    (h : Parse.binary (descent n) 1 s = .ok (e, t)) :
    ∃ tree : OperatorTree, tree.value = e ∧ tree.ReadToTheEnd n s t ∧
      s.rest = tree.row.tokens ++ t.rest ∧
      (∀ x ∈ tree.row.operands, x.value.isInfix = true → Parenthesized x.tokens) ∧
      ∀ tree' t', OperatorTree.ReadToTheEnd n s tree' t' → tree' = tree ∧ t' = t := by
  have hgroups : OperatorTree.Groups n (Parse.binary (descent n)) :=
    (OperatorTree.groups_descent (Nat.le_refl n)).binary (Nat.le_refl n)
  obtain ⟨tree, hvalue, hread, hbelow⟩ := hgroups 1 s e t h
  have hstops : t.AtNoOperator := by
    unfold Input.AtNoOperator
    cases hnext : infixOf? t.noIn (tokenOf t.rest) with
    | none => rfl
    | some x =>
      -- There is no operator of a precedence below 1.
      have hpos : 1 ≤ x.2 := (precedence_of_listed hnext).1
      exact absurd (hbelow x.1 x.2 hnext) (Nat.not_lt_of_le hpos)
  have hall : tree.ReadToTheEnd n s t := ⟨hread.row, hread.grouped, hstops⟩
  exact ⟨tree, hvalue, hall, hread.row.rest_eq, hread.row.parenthesized, fun tree' t' h' => h'.unique hall⟩

def differenceTokens : List Placed :=
  [⟨.word "a", 1⟩, ⟨.mark "-", 1⟩, ⟨.word "b", 1⟩, ⟨.mark "**", 1⟩, ⟨.word "c", 1⟩, ⟨.stop, 1⟩]

theorem difference_reads_one_tree :
    ∃ tree : OperatorTree, tree.value = .binary .sub (.name "a") (.binary .pow (.name "b") (.name "c")) ∧
      tree.ReadToTheEnd 2 ⟨differenceTokens, 6, 0, false⟩ ⟨[⟨.stop, 1⟩], 6, 1, false⟩ ∧
      differenceTokens = tree.row.tokens ++ [⟨.stop, 1⟩] := by
  obtain ⟨tree, hvalue, hread, htokens, -⟩ := binary_reads_one_tree (n := 2)
    (s := ⟨differenceTokens, 6, 0, false⟩) (t := ⟨[⟨.stop, 1⟩], 6, 1, false⟩)
    (e := .binary .sub (.name "a") (.binary .pow (.name "b") (.name "c"))) rfl
  exact ⟨tree, hvalue, hread, htokens⟩

end Snippet.Script
