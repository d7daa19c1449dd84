import Snippet.Script.Parser

/-!
Operators between operands. A row of operands with operators between them can be grouped to a tree in many ways,
of which the precedence of the operators leaves one.
-/

namespace Snippet.Script

open Parse (Infix infixOf? infixTable)

@[ext]
structure Operand where
  tokens : List Placed
  value : Expr

structure Operator where
  sign : Placed
  op : Infix
  precedence : Nat
  listed : infixOf? false sign.token = some (op, precedence)

/-- The word `in` is an operator or none, and no other token depends on where it stands. -/
theorem infixOf_false {noIn : Bool} {t : Token} {x : Infix × Nat} (h : infixOf? noIn t = some x) :
    infixOf? false t = some x := by
  cases noIn with
  | false => exact h
  | true =>
    unfold infixOf? at h ⊢
    split at h
    · exact h
    · exact h
    · cases h
    · cases h

/-- The precedences are those of the table; the highest one is that of powers alone. -/
theorem precedence_of_listed {noIn : Bool} {t : Token} {op : Infix} {p : Nat}
    (h : infixOf? noIn t = some (op, p)) : 1 ≤ p ∧ p ≤ 12 ∧ (op = .binary .pow ↔ p = 12) := by
  have htable : ∀ x ∈ infixTable, 1 ≤ x.2.2 ∧ x.2.2 ≤ 12 ∧ (x.2.1 = .binary .pow ↔ x.2.2 = 12) := by
    decide
  have hword := infixOf_false h
  unfold infixOf? at hword
  split at hword
  · obtain ⟨before, after, htext, -⟩ := List.lookup_eq_some_iff.mp hword
    exact htable _ (htext ▸ List.mem_append_right before List.mem_cons_self)
  · cases hword
    decide
  · cases hword
    decide
  · cases hword

namespace Operator

variable (o : Operator)

theorem precedence_le : o.precedence ≤ 12 := (precedence_of_listed o.listed).2.1

theorem op_eq_pow_iff : o.op = .binary .pow ↔ o.precedence = 12 := (precedence_of_listed o.listed).2.2

def leftLeast : Nat := if o.op = .binary .pow then o.precedence + 1 else o.precedence

def rightLeast : Nat := if o.op = .binary .pow then o.precedence else o.precedence + 1

theorem rightLeast_eq : o.rightLeast = Parse.rightPrecedence o.op o.precedence := by
  unfold rightLeast Parse.rightPrecedence
  by_cases hpow : o.op = .binary .pow
  · rw [if_pos hpow, if_pos (beq_iff_eq.mpr hpow)]
  · rw [if_neg hpow, if_neg fun h => hpow (beq_iff_eq.mp h)]

theorem precedence_le_leftLeast : o.precedence ≤ o.leftLeast := by
  unfold leftLeast
  split <;> omega

theorem precedence_le_rightLeast : o.precedence ≤ o.rightLeast := by
  unfold rightLeast
  split <;> omega

variable {o}

/-- Of two operators only one leaves room for the other one beside it: what may stand to the right of the first
one may not have the first one to its left. -/
theorem not_leftLeast_le {o' : Operator} (h : o.rightLeast ≤ o'.precedence) :
    ¬ o'.leftLeast ≤ o.precedence := by
  have hpow := o.op_eq_pow_iff
  have hpow' := o'.op_eq_pow_iff
  unfold rightLeast at h
  unfold leftLeast
  by_cases hp : o.op = .binary .pow
  · rw [if_pos hp] at h
    have htwelve := hpow.mp hp
    have hle := o'.precedence_le
    rw [if_pos (hpow'.mpr (by omega))]
    omega
  · rw [if_neg hp] at h
    split <;> omega

/-- An operator that may not stand in the right operand of another one has that one in its left operand. -/
theorem leftLeast_le {o' : Operator} (h : o'.precedence < o.rightLeast) :
    o'.leftLeast ≤ o.precedence := by
  have hpow := o.op_eq_pow_iff
  have hpow' := o'.op_eq_pow_iff
  unfold rightLeast at h
  unfold leftLeast
  by_cases hp : o.op = .binary .pow
  · rw [if_pos hp] at h
    have htwelve := hpow.mp hp
    have hother : o'.op ≠ .binary .pow := fun hp' => by have := hpow'.mp hp'; omega
    rw [if_neg hother]
    omega
  · rw [if_neg hp] at h
    have hle := o.precedence_le
    -- An operator as tight as powers is one of them.
    have htwelve : o.precedence ≠ 12 := fun htwelve => hp (hpow.mpr htwelve)
    have hother : o'.op ≠ .binary .pow := fun hp' => by have := hpow'.mp hp'; omega
    rw [if_neg hother]
    omega

end Operator

@[ext]
structure OperatorRow where
  first : Operand
  others : List (Operator × Operand)

def OperatorRow.tokens (row : OperatorRow) : List Placed :=
  row.first.tokens ++ row.others.flatMap fun x => x.1.sign :: x.2.tokens

def OperatorRow.operands (row : OperatorRow) : List Operand := row.first :: row.others.map Prod.snd

inductive OperatorTree where
  | operand (x : Operand)
  | node (o : Operator) (left right : OperatorTree)

namespace OperatorTree

def value : OperatorTree → Expr
  | .operand x => x.value
  | .node o left right => o.op.apply left.value right.value

def first : OperatorTree → Operand
  | .operand x => x
  | .node _ left _ => left.first

def others : OperatorTree → List (Operator × Operand)
  | .operand _ => []
  | .node o left right => left.others ++ (o, right.first) :: right.others

def row (tree : OperatorTree) : OperatorRow := ⟨tree.first, tree.others⟩

def BindsAtLeast (least : Nat) : OperatorTree → Prop
  | .operand _ => True
  | .node o _ _ => least ≤ o.precedence

def Grouped : OperatorTree → Prop
  -- At every operator the operators at the roots of its operands bind tightly enough to stand
  -- there.
  | .operand _ => True
  | .node o left right =>
    left.BindsAtLeast o.leftLeast ∧ right.BindsAtLeast o.rightLeast ∧ left.Grouped ∧ right.Grouped

theorem BindsAtLeast.mono {tree : OperatorTree} {k least : Nat} (h : tree.BindsAtLeast least)
    (hle : k ≤ least) : tree.BindsAtLeast k := by
  cases tree with
  | operand x => trivial
  | node o left right => exact Nat.le_trans hle h

/-- The operator at the root is the least tight one. -/
theorem Grouped.le_precedence {tree : OperatorTree} {least : Nat} (h : tree.Grouped)
    (hleast : tree.BindsAtLeast least) : ∀ x ∈ tree.others, least ≤ x.1.precedence := by
  induction tree generalizing least with
  | operand x => exact fun y hy => absurd hy List.not_mem_nil
  | node o left right ihleft ihright =>
    obtain ⟨hleft, hright, hgleft, hgright⟩ := h
    have hroot : least ≤ o.precedence := hleast
    intro x hx
    rcases List.mem_append.mp hx with hx | hx
    · exact ihleft hgleft (hleft.mono (Nat.le_trans hroot o.precedence_le_leftLeast)) x hx
    · rcases List.mem_cons.mp hx with rfl | hx
      · exact hroot
      · exact ihright hgright (hright.mono (Nat.le_trans hroot o.precedence_le_rightLeast)) x hx

/-- Two operators of one row are not the roots of two ways to group it, the left one with the other one in its
right operand, and the right one with the other one in its left operand. -/
theorem Grouped.not_apart {o o' : Operator} {left right left' right' : OperatorTree} {x x' : Operand}
    (h : (node o left right).Grouped) (h' : (node o' left' right').Grouped)
    (ho : (o, x) ∈ left'.others) (ho' : (o', x') ∈ right.others) : False := by
  have hle : o'.leftLeast ≤ o.precedence := h'.2.2.1.le_precedence h'.1 _ ho
  have hle' : o.rightLeast ≤ o'.precedence := h.2.2.2.le_precedence h.2.1 _ ho'
  exact Operator.not_leftLeast_le hle' hle

/-- The root of one of two ways to group a row is not to the left of the root of the other one. -/
theorem Grouped.length_le {o o' : Operator} {left right left' right' : OperatorTree}
    (h : (node o left right).Grouped) (h' : (node o' left' right').Grouped)
    (hothers : (node o left right).others = (node o' left' right').others) :
    left'.others.length ≤ left.others.length := by
  rcases List.append_eq_append_iff.mp hothers with ⟨between, hleft', hright⟩ | ⟨between, hleft, -⟩
  · cases between with
    | nil => exact Nat.le_of_eq (congrArg List.length (hleft'.trans (List.append_nil _)))
    | cons y between =>
      obtain ⟨hroot, hrest⟩ := List.cons.inj hright
      have hinner : (o, right.first) ∈ left'.others := hleft' ▸ List.mem_append_right _ (hroot ▸ List.mem_cons_self)
      have hinner' : (o', right'.first) ∈ right.others :=
        hrest ▸ List.mem_append_right between List.mem_cons_self
      exact (h.not_apart h' hinner hinner').elim
  · rw [hleft, List.length_append]
    exact Nat.le_add_right _ _

/-- A row can be grouped in one way only; by induction on one of the trees, whose root has to be that of the other
one as well. -/
theorem Grouped.eq_of_others {tree tree' : OperatorTree} (h : tree.Grouped) (h' : tree'.Grouped)
    (hfirst : tree.first = tree'.first) (hothers : tree.others = tree'.others) : tree = tree' := by
  induction tree generalizing tree' with
  | operand x =>
    cases tree' with
    | operand x' => exact congrArg operand hfirst
    | node o' left' right' => exact absurd hothers.symm (List.append_ne_nil_of_right_ne_nil _ nofun)
  | node o left right ihleft ihright =>
    cases tree' with
    | operand x' => exact absurd hothers (List.append_ne_nil_of_right_ne_nil _ nofun)
    | node o' left' right' =>
      -- Neither root is to the left of the other one, so as many operators are in front of both.
      have hlength : left.others.length = left'.others.length :=
        Nat.le_antisymm (h'.length_le h hothers.symm) (h.length_le h' hothers)
      obtain ⟨hleft, hright⟩ := List.append_inj hothers hlength
      obtain ⟨hroot, hright⟩ := List.cons.inj hright
      obtain ⟨ho, hsecond⟩ := Prod.mk.inj hroot
      have hl : left = left' := ihleft h.2.2.1 h'.2.2.1 hfirst hleft
      have hr : right = right' := ihright h.2.2.2 h'.2.2.2 hsecond hright
      rw [ho, hl, hr]

theorem Grouped.eq_of_row {tree tree' : OperatorTree} (h : tree.Grouped) (h' : tree'.Grouped)
    (hrow : tree.row = tree'.row) : tree = tree' := by
  obtain ⟨hfirst, hothers⟩ := OperatorRow.mk.inj hrow
  exact h.eq_of_others h' hfirst hothers

end OperatorTree

end Snippet.Script
