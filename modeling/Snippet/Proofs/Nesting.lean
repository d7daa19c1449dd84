import Snippet.Script.Parser
import Snippet.Proofs.Part

/-!
How deep constructs are nested in each other. An operand that stands first in its expression is read before
the expression is known to be more than the operand, and so is no deeper than the expression; chains of such
operands are counted for themselves. A part is high only if constructs are nested deep in it or if there are
long chains in it.
-/

namespace Snippet.Script

def Expr.left? : Expr → Option Expr
  | .binary _ left _ => some left
  | .logical _ left _ => some left
  | .member subject _ _ => some subject
  | .call callee _ _ => some callee
  | .update _ false target => some target
  | .conditional test _ _ => some test
  | .assign _ target _ => some target
  | _ => none

def Expr.chain : Expr → Nat
  | .binary _ left _ => left.chain + 1
  | .logical _ left _ => left.chain + 1
  | .member subject _ _ => subject.chain + 1
  | .call callee _ _ => callee.chain + 1
  | .update _ false target => target.chain + 1
  | .conditional test _ _ => test.chain + 1
  | .assign _ target _ => target.chain + 1
  | _ => 0

/-- An expression with an operand in front has a chain longer by one than that operand. -/
theorem Expr.chain_eq_of_left {e left : Expr} (h : e.left? = some left) :
    e.chain = left.chain + 1 := by
  cases e with
  | update increment before target =>
    cases before with
    | true => cases h
    | false =>
      obtain rfl := Option.some.inj h
      rfl
  | binary | logical | member | call | conditional | assign =>
    obtain rfl := Option.some.inj h
    rfl
  | _ => cases h

/-- An operand in front is one of the parts. -/
theorem Expr.left_mem_parts {e left : Expr} (h : e.left? = some left) : .expr left ∈ e.parts := by
  cases e with
  | update increment before target =>
    cases before with
    | true => cases h
    | false =>
      obtain rfl := Option.some.inj h
      exact List.mem_cons_self
  | call =>
    obtain rfl := Option.some.inj h
    exact List.mem_cons_of_mem _ List.mem_cons_self
  | binary | logical | member | conditional | assign =>
    obtain rfl := Option.some.inj h
    exact List.mem_cons_self
  | _ => cases h

namespace Part

def left? : Part → Option Part
  | .expr e => e.left?.map .expr
  | _ => none

def chain : Part → Nat
  | .expr e => e.chain
  | _ => 0

def parts : Part → List Part
  | .expr e => e.parts
  | .stmt s => s.parts
  | .func f => f.parts
  | .call => []

def Admissible : Part → Prop
  | .expr (.assign op target _) => Parse.isAssignable op target = true
  | _ => True

/-- A part in which constructs are nested at most `r` deep, operands in front aside. -/
inductive Nested : Nat → Part → Prop
  | node {r : Nat} {p : Part} : p.Admissible → (∀ q ∈ p.parts, p.left? ≠ some q → Nested r q) →
    (∀ q, p.left? = some q → Nested (r + 1) q) → Nested (r + 1) p

theorem left_mem_parts {p q : Part} (h : p.left? = some q) : q ∈ p.parts := by
  cases p with
  | expr e =>
    obtain ⟨left, hleft, rfl⟩ := Option.map_eq_some_iff.mp h
    exact e.left_mem_parts hleft
  | _ => cases h

theorem chain_eq_of_left {p q : Part} (h : p.left? = some q) : p.chain = q.chain + 1 := by
  cases p with
  | expr e =>
    obtain ⟨left, hleft, rfl⟩ := Option.map_eq_some_iff.mp h
    exact e.chain_eq_of_left hleft
  | _ => cases h

theorem Nested.mono {r r' : Nat} {p : Part} (h : Nested r p) (hr : r ≤ r') : Nested r' p := by
  induction h generalizing r' with
  | node hp _ _ ihparts ihleft =>
    obtain ⟨r', rfl⟩ : ∃ k, r' = k + 1 := ⟨r' - 1, by omega⟩
    exact node hp (fun q hq hne => ihparts q hq hne (by omega)) fun q hq => ihleft q hq hr

/-- Parts that are nested at most `r` deep. -/
def AllNested (r : Nat) (ps : List Part) : Prop := ∀ p ∈ ps, Nested r p

namespace AllNested

variable {r r' : Nat}

theorem nil : AllNested r [] := nofun

theorem cons {p : Part} {ps : List Part} (hp : Nested r p) (hps : AllNested r ps) :
    AllNested r (p :: ps) :=
  List.forall_mem_cons.mpr ⟨hp, hps⟩

theorem one {p : Part} (hp : Nested r p) : AllNested r [p] := cons hp nil

theorem append {ps qs : List Part} (hps : AllNested r ps) (hqs : AllNested r qs) :
    AllNested r (ps ++ qs) :=
  List.forall_mem_append.mpr ⟨hps, hqs⟩

theorem mono {ps : List Part} (h : AllNested r ps) (hr : r ≤ r') : AllNested r' ps :=
  fun p hp => (h p hp).mono hr

theorem flatMap {α : Type} {xs : List α} {parts : α → List Part} (h : ∀ x ∈ xs, AllNested r (parts x)) :
    AllNested r (xs.flatMap parts) := by
  intro p hp
  obtain ⟨x, hx, hp⟩ := List.mem_flatMap.mp hp
  exact h x hx p hp

theorem map {α : Type} {xs : List α} {part : α → Part} (h : ∀ x ∈ xs, Nested r (part x)) :
    AllNested r (xs.map part) := by
  intro p hp
  obtain ⟨x, hx, rfl⟩ := List.mem_map.mp hp
  exact h x hx

end AllNested

namespace Nested

variable {r : Nat} {p q : Part}

/-- Something around parts is nested a level deeper. -/
theorem of_parts (hp : p.Admissible) (h : AllNested r p.parts) : Nested (r + 1) p :=
  node hp (fun q hq _ => h q hq) fun q hq => (h q (left_mem_parts hq)).mono (Nat.le_succ r)

/-- Something behind an operand is nested a level deeper than its other parts. -/
theorem of_left (hp : p.Admissible) (hleft : p.left? = some q) (hq : Nested (r + 1) q)
    (h : ∀ q' ∈ p.parts, q' ≠ q → Nested r q') : Nested (r + 1) p := by
  refine node hp (fun q' hq' hne => h q' hq' ?_) fun q' hq' => ?_
  · rintro rfl
    exact hne hleft
  · rw [hleft] at hq'
    obtain rfl := Option.some.inj hq'
    exact hq

theorem call : Nested (r + 1) .call := of_parts trivial .nil

/-- A function whose defaults and body are nested at most `r` deep. -/
theorem func {name : Option String} {ps : List Param} {body : Body} {arrow : Bool}
    (hps : ∀ p ∈ ps, AllNested r p.parts) (hbody : AllNested r body.parts) :
    Nested (r + 1) (.func (.mk name ps body arrow)) :=
  of_parts trivial (.append (.flatMap hps) hbody)

end Nested

end Part

end Snippet.Script
