import Snippet.Proofs.PartHeight
import Snippet.Proofs.ReadingStatement

/-!
How high the trees of scripts are. Constructs nest to a fixed depth, but nothing limits how many operands an
expression begins with, nor how deep the targets of declarations are: trees are of a fixed height in a class
of sources exactly if such chains have a fixed length in it and targets a fixed height.
-/

namespace Snippet.Script

mutual

def Target.height : Target → Nat
  | .name _ => 1
  | .array elements => elementsHeight elements + 1
  | .object members => targetsHeight members + 1

def elementsHeight : List (Option Target) → Nat
  | [] => 0
  | none :: rest => elementsHeight rest
  | some t :: rest => max t.height (elementsHeight rest)

def targetsHeight : List (String × Target) → Nat
  | [] => 0
  | (_, t) :: rest => max t.height (targetsHeight rest)

end

def Part.targets : Part → List Target
  | .stmt (.decl _ bindings) => bindings.map Prod.fst
  | .stmt (.forEach _ _ target _ _) => [target]
  | .stmt (.attempt _ (some target) _ _) => [target]
  | .func f => f.params.map fun
    | .mk target _ _ => target
  | _ => []

def StandsIn (statements : List Stmt) (p : Part) : Prop :=
  ∃ s ∈ statements, (Part.stmt s).Contains p

/-- Everything in a script, targets included, is at most `k` high. -/
def HeightsWithin (k : Nat) (statements : List Stmt) : Prop :=
  ∀ p, StandsIn statements p → p.height ≤ k ∧ ∀ t ∈ p.targets, t.height ≤ k

/-- Nothing in a script begins with a chain of more than `l` operands, and no target is higher than `l`. -/
def ChainsWithin (l : Nat) (statements : List Stmt) : Prop :=
  ∀ p, StandsIn statements p → p.chain ≤ l ∧ ∀ t ∈ p.targets, t.height ≤ l

theorem Expr.chain_eq_zero {e : Expr} (h : e.left? = none) : e.chain = 0 := by
  cases e with
  | update increment before target =>
    cases before with
    | true => rfl
    | false => cases h
  | binary | logical | member | call | conditional | assign => cases h
  | _ => rfl

/-- An operand in front is lower than its expression, so no chain is longer than the expression is high. -/
theorem Expr.chain_le_height (e : Expr) : e.chain ≤ e.height := by
  induction hn : e.height using Nat.strongRecOn generalizing e with
  | ind n ih =>
    cases hleft : e.left? with
    | none =>
      rw [Expr.chain_eq_zero hleft]
      exact Nat.zero_le n
    | some left =>
      have hlower : left.height < e.height := Expr.height_lt_of_mem_parts _ (Expr.left_mem_parts hleft)
      have hchain := ih left.height (hn ▸ hlower) left rfl
      rw [Expr.chain_eq_of_left hleft]
      omega

theorem Part.chain_le_height (p : Part) : p.chain ≤ p.height := by
  cases p with
  | expr e => exact e.chain_le_height
  | _ => exact Nat.zero_le _

/-- What stands in something that is nested at most `r` deep is nested no deeper. -/
theorem Part.Nested.contains {r : Nat} {p q : Part} (h : Nested r p) (hq : p.Contains q) :
    Nested r q := by
  induction hq with
  | itself p => exact h
  | @inside p q q' hmem _ ih =>
    apply ih
    cases h with
    | @node r _ _ hparts hleft =>
      by_cases hfirst : p.left? = some q
      · exact hleft q hfirst
      · exact (hparts q hmem hfirst).mono (Nat.le_succ r)

theorem Part.Contains.trans {p q q' : Part} (h : p.Contains q) (h' : q.Contains q') :
    p.Contains q' := by
  induction h with
  | itself p => exact h'
  | inside hmem _ ih => exact .inside hmem (ih h')

/-- A script whose chains have at most `l` operands is at most as high as they and the nesting allow. -/
theorem heightsWithin_of_chains {source : String} {statements : List Stmt}
    (hp : parseProgram source = .ok statements) {l : Nat} (hl : ChainsWithin l statements) :
    HeightsWithin (3 * Parse.maxNesting * (l + 1)) statements := by
  have hparsed := parseProgram_parsesTo source
  rw [hp] at hparsed
  rintro p ⟨s, hs, hp⟩
  obtain ⟨hchain, htargets⟩ := hl p ⟨s, hs, hp⟩
  constructor
  · have hnested : Part.Nested (3 * Parse.maxNesting - 1 + 1) p := (hparsed s hs).contains hp
    have hheight := hnested.height_le fun q hq => (hl q ⟨s, hs, hp.trans hq⟩).1
    have hexpand : (3 * Parse.maxNesting - 1) * (l + 1) + (l + 1) = 3 * Parse.maxNesting * (l + 1) :=
      (Nat.succ_mul _ _).symm
    omega
  · intro t ht
    have hle := htargets t ht
    have hone : 1 * (l + 1) ≤ 3 * Parse.maxNesting * (l + 1) :=
      Nat.mul_le_mul_right _ (by decide)
    omega

theorem chainsWithin_of_heights {k : Nat} {statements : List Stmt}
    (h : HeightsWithin k statements) : ChainsWithin k statements :=
  fun p hp => ⟨Nat.le_trans p.chain_le_height (h p hp).1, (h p hp).2⟩

/-- Trees are of a fixed height in a class of sources exactly if the chains of operands in front have a
fixed length in it and the targets of declarations a fixed height. Of a source whose chains have at most `l`
operands, nothing is higher than the nesting allows between two of them. -/
theorem trees_grow_as_chains_do (sources : String → Prop) :
    ((∃ k, ∀ source statements, sources source → parseProgram source = .ok statements →
        HeightsWithin k statements) ↔
      ∃ l, ∀ source statements, sources source → parseProgram source = .ok statements →
        ChainsWithin l statements) ∧
      ∀ source statements, parseProgram source = .ok statements → ∀ l, ChainsWithin l statements →
        HeightsWithin (3 * Parse.maxNesting * (l + 1)) statements := by
  refine ⟨⟨?_, ?_⟩, fun source statements hp l hl => heightsWithin_of_chains hp hl⟩
  · rintro ⟨k, hk⟩
    exact ⟨k, fun source statements hs hp => chainsWithin_of_heights (hk source statements hs hp)⟩
  · rintro ⟨l, hl⟩
    exact ⟨_, fun source statements hs hp => heightsWithin_of_chains hp (hl source statements hs hp)⟩

-- Sources with high trees: `a-a-...-a`, in which all operands but the last one stand in front of
-- another, and `var [[...]]`, whose target consists of arrays within each other.

namespace HighTree

open Parse

/-- A script of one statement that begins with a word. -/
theorem parseProgram_one {text : List Char} {name : String} {rest : List Placed} {s : Stmt} {n : Nat}
    (htokens : tokenize text = .ok (⟨.word name, 1⟩ :: rest)) (hsize : rest.length = n)
    (hs : statement (descent 199) ⟨⟨.word name, 1⟩ :: rest, n + 1, 0, false⟩ =
      .ok (s, ⟨[⟨.stop, 1⟩], n + 1, 1, false⟩)) : parseProgram (String.ofList text) = .ok [s] := by
  subst hsize
  have hprogram : program ⟨⟨.word name, 1⟩ :: rest, rest.length + 1, 0, false⟩ =
      .ok ([s], ⟨[⟨.stop, 1⟩], rest.length + 1, 1, false⟩) := by
    refine (parse_bind (.more [s]) ⟨[⟨.stop, 1⟩], rest.length + 1, 1, false⟩ ?_).trans rfl
    refine (parse_bind false ⟨⟨.word name, 1⟩ :: rest, rest.length + 1, 0, false⟩ rfl).trans ?_
    have hdown : (descent maxNesting).statement = (fun s => statement (descent 199) s : Parse Stmt) := rfl
    rw [if_neg Bool.false_ne_true, hdown]
    exact (parse_bind _ _ hs).trans rfl
  unfold parseProgram
  rw [String.toList_ofList, htokens]
  simp only [List.length_cons, hprogram]

/-- The characters of `-a` a number of times. -/
def minusText : Nat → List Char
  | 0 => []
  | k + 1 => '-' :: 'a' :: minusText k

/-- The tokens of `-a` a number of times, and the end. -/
def minusTokens : Nat → List Placed
  | 0 => [⟨.stop, 1⟩]
  | k + 1 => ⟨.mark "-", 1⟩ :: ⟨.word "a", 1⟩ :: minusTokens k

/-- Differences with `a`, each the first operand of the one after it. -/
def minusFrom (left : Expr) : Nat → Expr
  | 0 => left
  | k + 1 => minusFrom (.binary .sub left (.name "a")) k

/-- A chain of differences is at least as high as it is long. -/
theorem height_minusFrom (left : Expr) (k : Nat) : k ≤ (minusFrom left k).height := by
  have hmore (left : Expr) (k : Nat) : left.height + k ≤ (minusFrom left k).height := by
    induction k generalizing left with
    | zero => exact Nat.le_refl _
    | succ k ih =>
      have hstep := ih (.binary .sub left (.name "a"))
      have hleft : left.height + 1 ≤ (Expr.binary .sub left (.name "a")).height :=
        Nat.succ_le_succ (Nat.le_max_left _ _)
      change left.height + (k + 1) ≤ (minusFrom (.binary .sub left (.name "a")) k).height
      omega
  exact Nat.le_trans (Nat.le_add_left k _) (hmore left k)

/-- A text of differences is cut into its operands and marks. -/
theorem tokensFrom_minus (k f : Nat) (done : List Placed) :
    tokensFrom done (2 * k + f + 2) ⟨'a' :: minusText k, 1⟩ =
      .ok (done.reverse ++ ⟨.word "a", 1⟩ :: minusTokens k) := by
  induction k generalizing done with
  | zero =>
    have hend : tokensFrom done (f + 2) ⟨['a'], 1⟩ =
        .ok (⟨.stop, 1⟩ :: ⟨.word "a", 1⟩ :: done).reverse := rfl
    rw [Nat.mul_zero, Nat.zero_add]
    refine hend.trans ?_
    simp [minusTokens]
  | succ k ih =>
    have hstep : tokensFrom done (2 * k + f + 2 + 2) ⟨'a' :: '-' :: 'a' :: minusText k, 1⟩ =
        tokensFrom (⟨.mark "-", 1⟩ :: ⟨.word "a", 1⟩ :: done) (2 * k + f + 2)
          ⟨'a' :: minusText k, 1⟩ := rfl
    rw [show 2 * (k + 1) + f + 2 = 2 * k + f + 2 + 2 by omega]
    refine hstep.trans ((ih _).trans ?_)
    simp [minusTokens]

def atMinus (k size : Nat) : Input := ⟨⟨.word "a", 1⟩ :: minusTokens k, size, 0, false⟩

def afterMinus (size : Nat) : Input := ⟨[⟨.stop, 1⟩], size, 1, false⟩

/-- The operators that are left are read one after the other. -/
theorem binary_minus (n k f : Nat) :
    binary (descent (n + 1)) 1 (atMinus k (k + f)) = .ok (minusFrom (.name "a") k, afterMinus (k + f)) := by
  refine (parse_bind (.name "a") ⟨minusTokens k, k + f, 1, false⟩ ?_).trans ?_
  · cases k with
    | zero => rfl
    | succ k => rfl
  · -- Each round takes an operator and its operand, with all that was read before on the left.
    refine (show ∀ left size, iterate _ (k + f + 1) left ⟨minusTokens k, size, 1, false⟩ =
      .ok (minusFrom left k, afterMinus size) from ?_) (.name "a") (k + f)
    intro left size
    induction k generalizing left with
    | zero => rfl
    | succ k ih =>
      rw [show k + 1 + f + 1 = k + f + 1 + 1 by omega]
      refine Eq.trans (parse_bind (.more (.binary .sub left (.name "a")))
        ⟨minusTokens k, size, 1, false⟩ ?_) ?_
      · cases k with
        | zero => rfl
        | succ k => rfl
      · exact ih _

/-- Differences are read into a chain as long as there are marks. -/
theorem assignment_minus (n k f : Nat) :
    assignment (descent (n + 1)) (atMinus (k + 1) (k + 1 + f)) =
      .ok (minusFrom (.name "a") (k + 1), afterMinus (k + 1 + f)) := by
  have hconditional : conditional (descent (n + 1)) (atMinus (k + 1) (k + 1 + f)) =
      .ok (minusFrom (.name "a") (k + 1), afterMinus (k + 1 + f)) :=
    (parse_bind _ _ (binary_minus n (k + 1) f)).trans rfl
  unfold assignment
  refine Eq.trans (parse_bind _ (atMinus (k + 1) (k + 1 + f)) rfl) ?_
  rw [if_neg (by exact Bool.false_ne_true)]
  refine Eq.trans (parse_bind _ (atMinus (k + 1) (k + 1 + f)) rfl) ?_
  rw [if_neg (by exact Bool.false_ne_true)]
  exact (parse_bind _ _ hconditional).trans rfl

theorem statement_minus (n k f : Nat) :
    statement (descent (n + 2)) (atMinus (k + 1) (k + 1 + f)) =
      .ok (.expr (minusFrom (.name "a") (k + 1)), afterMinus (k + 1 + f)) := by
  have hstep : statement (descent (n + 2)) (atMinus (k + 1) (k + 1 + f)) =
      expressionStatement (descent (n + 2)) (atMinus (k + 1) (k + 1 + f)) := rfl
  rw [hstep]
  refine (parse_bind (minusFrom (.name "a") (k + 1)) (afterMinus (k + 1 + f)) ?_).trans rfl
  exact (parse_bind _ _ (assignment_minus n k f)).trans rfl

theorem length_minusText (k : Nat) : (minusText k).length = 2 * k := by
  induction k with
  | zero => rfl
  | succ k ih =>
    change (minusText k).length + 2 = _
    omega

theorem length_minusTokens (k : Nat) : (minusTokens k).length = 2 * k + 1 := by
  induction k with
  | zero => rfl
  | succ k ih =>
    change (minusTokens k).length + 2 = _
    omega

/-- A difference of any length is a script. -/
theorem parseProgram_minus (k : Nat) :
    parseProgram (String.ofList ('a' :: minusText (k + 1))) =
      .ok [.expr (minusFrom (.name "a") (k + 1))] := by
  have htokens : tokenize ('a' :: minusText (k + 1)) =
      .ok (⟨.word "a", 1⟩ :: minusTokens (k + 1)) := by
    have hlen : ('a' :: minusText (k + 1)).length + 1 = 2 * (k + 1) + 0 + 2 := by
      rw [List.length_cons, length_minusText]
    unfold tokenize
    rw [hlen]
    exact tokensFrom_minus (k + 1) 0 []
  have hsize : (minusTokens (k + 1)).length = k + 1 + (k + 2) := by
    rw [length_minusTokens]
    omega
  exact parseProgram_one htokens hsize (statement_minus 197 k (k + 3))

def nestedText : Nat → List Char → List Char
  | 0, rest => rest
  | k + 1, rest => '[' :: nestedText k (']' :: rest)

def nestedTokens : Nat → List Placed → List Placed
  | 0, rest => rest
  | k + 1, rest => ⟨.mark "[", 1⟩ :: nestedTokens k (⟨.mark "]", 1⟩ :: rest)

def nestedTarget : Nat → Target
  | 0 => .array []
  | k + 1 => .array [some (nestedTarget k)]

theorem height_nestedTarget (k : Nat) : k < (nestedTarget k).height := by
  induction k with
  | zero => exact Nat.zero_lt_one
  | succ k ih => exact Nat.succ_lt_succ (Nat.lt_of_lt_of_le ih (Nat.le_max_left _ _))

theorem tokensFrom_closing (m f : Nat) (done : List Placed) :
    tokensFrom done (m + f + 1) ⟨List.replicate m ']', 1⟩ =
      .ok (done.reverse ++ (List.replicate m ⟨.mark "]", 1⟩ ++ [⟨.stop, 1⟩])) := by
  induction m generalizing done with
  | zero =>
    have hend : tokensFrom done (f + 1) ⟨[], 1⟩ = .ok (⟨.stop, 1⟩ :: done).reverse := rfl
    rw [Nat.zero_add]
    refine hend.trans ?_
    simp
  | succ m ih =>
    have hstep : tokensFrom done (m + f + 1 + 1) ⟨']' :: List.replicate m ']', 1⟩ =
        tokensFrom (⟨.mark "]", 1⟩ :: done) (m + f + 1) ⟨List.replicate m ']', 1⟩ := rfl
    rw [show m + 1 + f + 1 = m + f + 1 + 1 by omega]
    refine hstep.trans ((ih _).trans ?_)
    simp [List.replicate_succ]

/-- Nested brackets are cut into a mark each. -/
theorem tokensFrom_nested (k m f : Nat) (done : List Placed) :
    tokensFrom done (2 * k + m + f + 1) ⟨nestedText k (List.replicate m ']'), 1⟩ =
      .ok (done.reverse ++
        nestedTokens k (List.replicate m ⟨.mark "]", 1⟩ ++ [⟨.stop, 1⟩])) := by
  induction k generalizing m done with
  | zero =>
    rw [Nat.mul_zero, Nat.zero_add]
    exact tokensFrom_closing m f done
  | succ k ih =>
    have hstep : tokensFrom done (2 * k + (m + 1) + f + 1 + 1)
        ⟨'[' :: nestedText k (List.replicate (m + 1) ']'), 1⟩ =
        tokensFrom (⟨.mark "[", 1⟩ :: done) (2 * k + (m + 1) + f + 1)
          ⟨nestedText k (List.replicate (m + 1) ']'), 1⟩ := rfl
    rw [show 2 * (k + 1) + m + f + 1 = 2 * k + (m + 1) + f + 1 + 1 by omega]
    refine hstep.trans ((ih (m + 1) _).trans ?_)
    simp [nestedTokens, List.replicate_succ]

/-- A target is read from brackets nested to any depth, without a limit. -/
theorem targetWithin_nested (k f size line : Nat) (rest : List Placed) :
    targetWithin (k + 1 + f) ⟨nestedTokens (k + 1) rest, size + 1, line, false⟩ =
      .ok (nestedTarget k, ⟨rest, size + 1, 1, false⟩) := by
  induction k generalizing line rest with
  | zero =>
    rw [show 0 + 1 + f = f + 1 by omega]
    rfl
  | succ k ih =>
    rw [show k + 1 + 1 + f = k + 1 + f + 1 by omega]
    have hstep : targetWithin (k + 1 + f + 1) ⟨nestedTokens (k + 1 + 1) rest, size + 1, line, false⟩ =
        (listWithHoles "]" none (some <$> targetWithin (k + 1 + f)) >>= fun elements =>
          return .array elements)
          ⟨nestedTokens (k + 1) (⟨.mark "]", 1⟩ :: rest), size + 1, 1, false⟩ := rfl
    -- The list has one element, which is followed by the bracket that closes the list.
    rw [hstep]
    refine (parse_bind [some (nestedTarget k)] ⟨rest, size + 1, 1, false⟩ ?_).trans rfl
    refine Eq.trans (parse_bind (.more [some (nestedTarget k)])
      ⟨⟨.mark "]", 1⟩ :: rest, size + 1, 1, false⟩ ?_) rfl
    refine (parse_bind false _ rfl).trans ?_
    rw [if_neg Bool.false_ne_true]
    refine (parse_bind false _ rfl).trans ?_
    rw [if_neg Bool.false_ne_true]
    refine (parse_bind (some (nestedTarget k)) ⟨⟨.mark "]", 1⟩ :: rest, size + 1, 1, false⟩ ?_).trans rfl
    exact parse_map some (ih 1 _)

/-- A declaration is read into the target that its brackets nest. -/
theorem statement_nested (n k f : Nat) :
    statement (descent n) ⟨⟨.word "var", 1⟩ :: nestedTokens (k + 1) [⟨.stop, 1⟩], k + 1 + f, 0, false⟩ =
      .ok (.decl .varDecl [(nestedTarget k, none)], ⟨[⟨.stop, 1⟩], k + 1 + f, 1, false⟩) := by
  have hstep : statement (descent n)
      ⟨⟨.word "var", 1⟩ :: nestedTokens (k + 1) [⟨.stop, 1⟩], k + 1 + f, 0, false⟩ =
      (target >>= fun t => do
        let decl ← bindings (descent n) .varDecl t
        endStatement
        return decl) ⟨nestedTokens (k + 1) [⟨.stop, 1⟩], k + 1 + f, 1, false⟩ := rfl
  have htarget : target ⟨nestedTokens (k + 1) [⟨.stop, 1⟩], k + f + 1, 1, false⟩ =
      .ok (nestedTarget k, ⟨[⟨.stop, 1⟩], k + f + 1, 1, false⟩) := by
    have hwithin := targetWithin_nested k (f + 1) (k + f) 1 [⟨.stop, 1⟩]
    rw [show k + 1 + (f + 1) = k + f + 1 + 1 by omega] at hwithin
    exact hwithin
  rw [hstep, show k + 1 + f = k + f + 1 by omega]
  exact (parse_bind _ _ htarget).trans rfl

theorem length_nestedText (k : Nat) (rest : List Char) :
    (nestedText k rest).length = 2 * k + rest.length := by
  induction k generalizing rest with
  | zero => exact (Nat.zero_add _).symm
  | succ k ih =>
    have hinner := ih (']' :: rest)
    change (nestedText k (']' :: rest)).length + 1 = _
    rw [List.length_cons] at hinner
    omega

theorem length_nestedTokens (k : Nat) (rest : List Placed) :
    (nestedTokens k rest).length = 2 * k + rest.length := by
  induction k generalizing rest with
  | zero => exact (Nat.zero_add _).symm
  | succ k ih =>
    have hinner := ih (⟨.mark "]", 1⟩ :: rest)
    change (nestedTokens k (⟨.mark "]", 1⟩ :: rest)).length + 1 = _
    rw [List.length_cons] at hinner
    omega

/-- A declaration with brackets nested to any depth is a script. -/
theorem parseProgram_nested (k : Nat) :
    parseProgram (String.ofList ('v' :: 'a' :: 'r' :: nestedText (k + 1) [])) =
      .ok [.decl .varDecl [(nestedTarget k, none)]] := by
  have htokens : tokenize ('v' :: 'a' :: 'r' :: nestedText (k + 1) []) =
      .ok (⟨.word "var", 1⟩ :: nestedTokens (k + 1) [⟨.stop, 1⟩]) := by
    have hlen : ('v' :: 'a' :: 'r' :: nestedText (k + 1) []).length + 1 = 2 * (k + 1) + 0 + 2 + 1 + 1 := by
      simp only [List.length_cons, length_nestedText, List.length_nil]
    have hstep : tokensFrom [] (2 * (k + 1) + 0 + 2 + 1 + 1) ⟨'v' :: 'a' :: 'r' :: nestedText (k + 1) [], 1⟩ =
        tokensFrom [⟨.word "var", 1⟩] (2 * (k + 1) + 0 + 2 + 1) ⟨nestedText (k + 1) [], 1⟩ := rfl
    unfold tokenize
    rw [hlen]
    exact hstep.trans (tokensFrom_nested (k + 1) 0 2 _)
  have hsize : (nestedTokens (k + 1) [⟨.stop, 1⟩]).length = k + 1 + (k + 2) := by
    rw [length_nestedTokens, List.length_singleton]
    omega
  exact parseProgram_one htokens hsize (statement_nested 199 k (k + 3))

end HighTree

/-- No height is one that all trees of scripts keep to: neither their expressions nor their targets do. -/
theorem trees_grow_without_bound :
    (¬ ∃ k, ∀ source statements, parseProgram source = .ok statements →
      ∀ p, StandsIn statements p → p.height ≤ k) ∧
    ¬ ∃ k, ∀ source statements, parseProgram source = .ok statements →
      ∀ p, StandsIn statements p → ∀ t ∈ p.targets, t.height ≤ k := by
  constructor
  · rintro ⟨k, hk⟩
    have hexpr := hk _ _ (HighTree.parseProgram_minus k)
      (.expr (HighTree.minusFrom (.name "a") (k + 1)))
      ⟨_, List.mem_singleton_self _, .inside (List.mem_singleton_self _) (.itself _)⟩
    have hlow := HighTree.height_minusFrom (.name "a") (k + 1)
    change (HighTree.minusFrom (.name "a") (k + 1)).height ≤ k at hexpr
    omega
  · rintro ⟨k, hk⟩
    have htarget := hk _ _ (HighTree.parseProgram_nested k)
      (.stmt (.decl .varDecl [(HighTree.nestedTarget k, none)]))
      ⟨_, List.mem_singleton_self _, .itself _⟩ _ (List.mem_singleton_self _)
    exact Nat.lt_irrefl _ (Nat.lt_of_lt_of_le (HighTree.height_nestedTarget k) htarget)

end Snippet.Script
