import Snippet.Proofs.Nesting

/-!
How high trees are. Something is at most one higher than the highest of its parts, so a part in which
constructs are not nested deep is high only if there are long chains of operands in it.
-/

namespace Snippet.Script

/-- Parts that are at most `k` high. -/
def LowParts (k : Nat) (ps : List Part) : Prop := ∀ p ∈ ps, p.height ≤ k

namespace LowParts

variable {k : Nat}

theorem left {ps qs : List Part} (h : LowParts k (ps ++ qs)) : LowParts k ps :=
  fun p hp => h p (List.mem_append_left qs hp)

theorem right {ps qs : List Part} (h : LowParts k (ps ++ qs)) : LowParts k qs :=
  fun p hp => h p (List.mem_append_right ps hp)

theorem head {p : Part} {ps : List Part} (h : LowParts k (p :: ps)) : p.height ≤ k :=
  h p List.mem_cons_self

theorem tail {p : Part} {ps : List Part} (h : LowParts k (p :: ps)) : LowParts k ps :=
  fun q hq => h q (List.mem_cons_of_mem p hq)

theorem key {key : Key} (h : LowParts k key.parts) : key.height ≤ k := by
  cases key with
  | named name => exact Nat.zero_le k
  | computed e => exact h.head

theorem pieces {pieces : List Piece} (h : LowParts k (pieces.flatMap Piece.parts)) :
    piecesHeight pieces ≤ k := by
  induction pieces with
  | nil => exact Nat.zero_le k
  | cons piece rest ih =>
    cases piece with
    | text s => exact ih h
    | value e => exact Nat.max_le.mpr ⟨h.head, ih h.tail⟩

theorem items {items : List Item} (h : LowParts k (items.flatMap Item.parts)) :
    itemsHeight items ≤ k := by
  induction items with
  | nil => exact Nat.zero_le k
  | cons item rest ih =>
    obtain ⟨spread, e⟩ := item
    exact Nat.max_le.mpr ⟨h.head, ih h.tail⟩

theorem members {members : List Member} (h : LowParts k (members.flatMap Member.parts)) :
    membersHeight members ≤ k := by
  induction members with
  | nil => exact Nat.zero_le k
  | cons member rest ih =>
    rw [List.flatMap_cons] at h
    cases member with
    | init key e => exact Nat.max_le.mpr ⟨Nat.max_le.mpr ⟨h.left.left.key, h.left.right.head⟩, ih h.right⟩
    | spread e => exact Nat.max_le.mpr ⟨h.left.head, ih h.right⟩

theorem expressions {items : List Expr} (h : LowParts k (items.map .expr)) :
    expressionsHeight items ≤ k := by
  induction items with
  | nil => exact Nat.zero_le k
  | cons e rest ih => exact Nat.max_le.mpr ⟨h.head, ih h.tail⟩

theorem statements {statements : List Stmt} (h : LowParts k (statements.map .stmt)) :
    statementsHeight statements ≤ k := by
  induction statements with
  | nil => exact Nat.zero_le k
  | cons s rest ih => exact Nat.max_le.mpr ⟨h.head, ih h.tail⟩

theorem params {params : List Param} (h : LowParts k (params.flatMap Param.parts)) :
    paramsHeight params ≤ k := by
  induction params with
  | nil => exact Nat.zero_le k
  | cons param rest ih =>
    obtain ⟨target, default?, isRest⟩ := param
    cases default? with
    | none => exact ih h
    | some e => exact Nat.max_le.mpr ⟨h.head, ih h.tail⟩

theorem bindings {bindings : List (Target × Option Expr)}
    (h : LowParts k (bindings.flatMap bindingParts)) : bindingsHeight bindings ≤ k := by
  induction bindings with
  | nil => exact Nat.zero_le k
  | cons binding rest ih =>
    obtain ⟨target, value?⟩ := binding
    cases value? with
    | none => exact ih h
    | some e => exact Nat.max_le.mpr ⟨h.head, ih h.tail⟩

theorem cases {cases : List Case} (h : LowParts k (cases.flatMap Case.parts)) :
    casesHeight cases ≤ k := by
  induction cases with
  | nil => exact Nat.zero_le k
  | cons case rest ih =>
    rw [List.flatMap_cons] at h
    obtain ⟨test?, body⟩ := case
    cases test? with
    | none => exact Nat.max_le.mpr ⟨h.left.statements, ih h.right⟩
    | some test =>
      exact Nat.max_le.mpr ⟨Nat.max_le.mpr ⟨h.left.head, h.left.tail.statements⟩, ih h.right⟩

theorem methods {methods : List (String × Func)}
    (h : LowParts k ((methods.map Prod.snd).map .func)) : methodsHeight methods ≤ k := by
  induction methods with
  | nil => exact Nat.zero_le k
  | cons method rest ih => exact Nat.max_le.mpr ⟨h.head, ih h.tail⟩

theorem functions {c : ClassDef} (h : LowParts k (c.functions.map .func)) : c.height ≤ k := by
  obtain ⟨name, constructor?, methods, statics⟩ := c
  unfold ClassDef.functions at h
  rw [List.map_append, List.map_append] at h
  have hmethods := Nat.max_le.mpr ⟨h.right.left.methods, h.right.right.methods⟩
  cases constructor? with
  | none => exact hmethods
  | some f => exact Nat.max_le.mpr ⟨h.left.head, hmethods⟩

/-- An expression is higher by one than the highest of its parts, at most. -/
theorem expr {e : Expr} (h : LowParts k e.parts) : e.height ≤ k + 1 := by
  cases e with
  | number | string | bool | null | undefined | this | name => exact Nat.succ_le_succ (Nat.zero_le k)
  | template pieces => exact Nat.succ_le_succ h.pieces
  | array items => exact Nat.succ_le_succ h.items
  | object members => exact Nat.succ_le_succ h.members
  | function f => exact Nat.succ_le_succ h.head
  | classDef c => exact Nat.succ_le_succ h.functions
  | unary op operand => exact Nat.succ_le_succ h.head
  | update increment before target => exact Nat.succ_le_succ h.head
  | binary | logical | assign => exact Nat.succ_le_succ (Nat.max_le.mpr ⟨h.head, h.tail.head⟩)
  | conditional test yes no =>
    exact Nat.succ_le_succ (Nat.max_le.mpr ⟨h.head, Nat.max_le.mpr ⟨h.tail.head, h.tail.tail.head⟩⟩)
  | member subject key optional => exact Nat.succ_le_succ (Nat.max_le.mpr ⟨h.head, h.tail.key⟩)
  | call callee arguments optional =>
    exact Nat.succ_le_succ (Nat.max_le.mpr ⟨h.tail.head, h.tail.tail.items⟩)
  | construct callee arguments =>
    exact Nat.succ_le_succ (Nat.max_le.mpr ⟨h.tail.head, h.tail.tail.items⟩)
  | sequence items => exact Nat.succ_le_succ h.expressions

/-- A statement is higher by one than the highest of its parts, at most. -/
theorem stmt {s : Stmt} (h : LowParts k s.parts) : s.height ≤ k + 1 := by
  have hblock {statements? : Option (List Stmt)}
      (hs : LowParts k ((statements?.getD []).map .stmt)) : blockHeight statements? ≤ k := by
    cases statements? with
    | none => exact Nat.zero_le k
    | some statements => exact hs.statements
  have hoption {e? : Option Expr} (he : LowParts k (e?.toList.map .expr)) : optionHeight e? ≤ k := by
    cases e? with
    | none => exact Nat.zero_le k
    | some e => exact he.head
  -- One case for each kind of statement: its height is one more than the greatest of its parts.
  cases s with
  | empty | breaks | continues => exact Nat.succ_le_succ (Nat.zero_le k)
  | expr e => exact Nat.succ_le_succ h.head
  | decl kind bindings => exact Nat.succ_le_succ h.bindings
  | function f => exact Nat.succ_le_succ h.head
  | classDef c => exact Nat.succ_le_succ h.functions
  | returns value =>
    cases value with
    | none => exact Nat.succ_le_succ (Nat.zero_le k)
    | some e => exact Nat.succ_le_succ h.head
  | cond test yes no =>
    cases no with
    | none => exact Nat.succ_le_succ (Nat.max_le.mpr ⟨h.head, h.tail.head⟩)
    | some no =>
      exact Nat.succ_le_succ
        (Nat.max_le.mpr ⟨h.head, Nat.max_le.mpr ⟨h.tail.head, h.tail.tail.head⟩⟩)
  | whileLoop test body => exact Nat.succ_le_succ (Nat.max_le.mpr ⟨h.head, h.tail.head⟩)
  | doLoop body test => exact Nat.succ_le_succ (Nat.max_le.mpr ⟨h.head, h.tail.head⟩)
  | forLoop init test update body =>
    have hinit : startHeight init ≤ k := by
      cases init with
      | none => exact Nat.zero_le k
      | some s => exact h.tail.left.head
    have htest := hoption h.tail.right.left
    have hupdate := hoption h.tail.right.right
    exact Nat.succ_le_succ (Nat.max_le.mpr
      ⟨hinit, Nat.max_le.mpr ⟨htest, Nat.max_le.mpr ⟨hupdate, h.head⟩⟩⟩)
  | forEach keys kind target subject body =>
    exact Nat.succ_le_succ (Nat.max_le.mpr ⟨h.head, h.tail.head⟩)
  | throws e => exact Nat.succ_le_succ h.head
  | attempt body param handler finalizer =>
    exact Nat.succ_le_succ (Nat.max_le.mpr
      ⟨h.left.statements, Nat.max_le.mpr ⟨hblock h.right.left, hblock h.right.right⟩⟩)
  | select subject cases => exact Nat.succ_le_succ (Nat.max_le.mpr ⟨h.head, h.tail.cases⟩)
  | block statements => exact Nat.succ_le_succ h.statements

theorem func {f : Func} (h : LowParts k f.parts) : f.height ≤ k := by
  obtain ⟨name, params, body, arrow⟩ := f
  cases body with
  | block statements => exact Nat.max_le.mpr ⟨h.left.params, h.right.statements⟩
  | value e => exact Nat.max_le.mpr ⟨h.left.params, h.right.head⟩

end LowParts

namespace Part

/-- A part is at most one higher than the highest of its parts. -/
theorem height_le_of_parts {k : Nat} {p : Part} (h : LowParts k p.parts) : p.height ≤ k + 1 := by
  cases p with
  | expr e => exact h.expr
  | stmt s => exact h.stmt
  | func f => exact Nat.le_succ_of_le h.func
  | call => exact Nat.zero_le _

inductive Contains : Part → Part → Prop
  | itself (p : Part) : Contains p p
  | inside {p q q' : Part} : q ∈ p.parts → Contains q q' → Contains p q'

/-- Where constructs are nested at most `r` deep and chains have at most `l` operands, nothing is higher
than the two allow together, by induction on the nesting. -/
theorem Nested.height_le {r l : Nat} {p : Part} (h : Nested (r + 1) p)
    (hl : ∀ q, p.Contains q → q.chain ≤ l) : p.height ≤ r * (l + 1) + p.chain + 1 := by
  generalize hr : r + 1 = r' at h
  induction h generalizing r with
  | @node r' p _ hparts hleft ihparts ihleft =>
    obtain rfl : r = r' := Nat.succ.inj hr
    apply height_le_of_parts
    intro q hq
    have hin : ∀ q', q.Contains q' → q'.chain ≤ l := fun q' hq' => hl q' (.inside hq hq')
    by_cases hfirst : p.left? = some q
    · -- The first operand is no deeper, but its chain is shorter.
      have hchain := chain_eq_of_left hfirst
      have hq := ihleft q hfirst hin rfl
      omega
    · cases r with
      | zero => exact nomatch hparts q hq hfirst
      | succ r =>
        have hlow := ihparts q hq hfirst hin rfl
        have hchain := hin q (.itself q)
        rw [Nat.add_mul]
        omega

end Part

end Snippet.Script
