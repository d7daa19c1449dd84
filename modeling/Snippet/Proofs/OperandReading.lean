import Snippet.Proofs.Reading

/-!
Operands that stand alone. An operand is all of the expression that it begins if it begins with no operator and a
mark follows that ends operands.
-/

namespace Snippet.Script

namespace Parse

def BeginsOperand : Token → Prop
  | .string _ => True
  | .word name => name ∉ ["new", "await", "typeof", "void", "delete"]
  | .mark m => m ∈ ["[", "\x7b", "("]
  | _ => False

inductive EndsOperand : List Placed → Prop
  | stop (line : Nat) (more : List Placed) : EndsOperand (⟨.stop, line⟩ :: more)
  | comma (line : Nat) (more : List Placed) : EndsOperand (⟨.mark ",", line⟩ :: more)
  | bracket (line : Nat) (more : List Placed) : EndsOperand (⟨.mark "]", line⟩ :: more)
  | brace (line : Nat) (more : List Placed) : EndsOperand (⟨.mark "\x7d", line⟩ :: more)
  | parenthesis (line : Nat) (more : List Placed) : EndsOperand (⟨.mark ")", line⟩ :: more)

inductive EndsTarget : List Placed → Prop
  | operand {rest : List Placed} (h : EndsOperand rest) : EndsTarget rest
  | equals (line : Nat) (more : List Placed) : EndsTarget (⟨.mark "=", line⟩ :: more)

inductive EndsValue : Input → Prop
  | target {s : Input} (h : EndsTarget s.rest) : EndsValue s
  | word {w : String} (hw : w ∈ ["of", "in"]) (line : Nat) (more : List Placed) (size previous : Nat) :
    EndsValue ⟨⟨.word w, line⟩ :: more, size, previous, true⟩

structure LeadsOperand (tokens : List Placed) : Prop where
  begins : BeginsOperand (tokenOf tokens)
  noArrow : startsArrow tokens = false
  noAsyncArrow : isWordToken "async" (tokenOf tokens) = true → startsArrow tokens.tail = false

theorem BeginsOperand.word {name : String} (h : name ∉ ["new", "await", "typeof", "void", "delete"]) :
    BeginsOperand (.word name) := h

theorem BeginsOperand.mark {m : String} (h : m ∈ ["[", "\x7b", "("]) : BeginsOperand (.mark m) := h

theorem BeginsOperand.isMarkToken {t : Token} (h : BeginsOperand t) {m : String}
    (hm : m ∉ ["[", "\x7b", "("]) : isMarkToken m t = false := by
  cases t with
  | mark m' =>
    refine beq_eq_false_iff_ne.mpr ?_
    rintro rfl
    exact hm h
  | _ => rfl

theorem BeginsOperand.isWordToken {t : Token} (h : BeginsOperand t) {name : String}
    (hname : name ∈ ["new", "await", "typeof", "void", "delete"]) : isWordToken name t = false := by
  cases t with
  | word name' =>
    refine beq_eq_false_iff_ne.mpr ?_
    rintro rfl
    exact h hname
  | _ => rfl

theorem eatMark_of_not {m : String} {s : Input} (h : isMarkToken m (tokenOf s.rest) = false) :
    eatMark m s = .ok (false, s) := by
  refine (parse_bind false s ?_).trans rfl
  change Except.ok (isMarkToken m (tokenOf s.rest), s) = _
  rw [h]

variable {d : Descent} {s t : Input} {e : Expr}

/-- An operand that begins with none of the operators in front is read as its suffixes go. -/
theorem unary_of_begins (hfirst : BeginsOperand (tokenOf s.rest)) : unary d s = postfixed d s := by
  have hawait := hfirst.isWordToken (List.mem_cons_of_mem _ List.mem_cons_self)
  have hnone : updateOf? (tokenOf s.rest) = none ∧ unaryOf? (tokenOf s.rest) = none := by
    cases ht : tokenOf s.rest with
    | mark m =>
      rw [ht] at hfirst
      simp only [BeginsOperand, List.mem_cons, List.not_mem_nil, or_false] at hfirst
      obtain rfl | rfl | rfl := hfirst <;> exact ⟨rfl, rfl⟩
    | word name =>
      rw [ht] at hfirst
      refine ⟨rfl, ?_⟩
      unfold unaryOf?
      split <;> simp_all [BeginsOperand]
    | _ => exact ⟨rfl, rfl⟩
  refine (parse_bind (tokenOf s.rest) s rfl).trans ?_
  simp only [hnone.1, hnone.2, hawait, if_neg Bool.false_ne_true]

/-- A value without operators around it is all of a value with operators. -/
theorem conditional_of_primary (hfirst : BeginsOperand (tokenOf s.rest)) (hrest : EndsValue t)
    (hprimary : primary d s = .ok (e, t)) : conditional d s = .ok (e, t) := by
  -- What ends an operand is no operator, so every level hands the operand on.
  have hchained : repeatFrom e (chainRound d) t = .ok (e, t) ∧ updateOf? (tokenOf t.rest) = none ∧
      repeatFrom e (operatorRound d 1) t = .ok (e, t) ∧ isMarkToken "?" (tokenOf t.rest) = false := by
    obtain ⟨rest, size, line, noIn⟩ := t
    rcases hrest with ((_ | _ | _ | _ | _) | _) | ⟨hw, _, _, _, _⟩
    case word =>
      simp only [List.mem_cons, List.not_mem_nil, or_false] at hw
      obtain rfl | rfl := hw <;> exact ⟨rfl, rfl, rfl, rfl⟩
    all_goals exact ⟨rfl, rfl, rfl, rfl⟩
  obtain ⟨hchain, hupdate, hoperators, hquestion⟩ := hchained
  have hnew : atWord "new" s = .ok (false, s) := by
    change Except.ok (isWordToken "new" (tokenOf s.rest), s) = _
    rw [hfirst.isWordToken (by decide)]
  have hfull : chain d s = .ok (e, t) := (parse_bind _ _ hnew).trans ((parse_bind _ _ hprimary).trans hchain)
  have hunary : unary d s = .ok (e, t) := by
    rw [unary_of_begins hfirst]
    refine (parse_bind _ _ hfull).trans ((parse_bind (tokenOf t.rest) _ rfl).trans ?_)
    rw [hupdate]
    rfl
  have hbinary : binary d 1 s = .ok (e, t) := (parse_bind _ _ hunary).trans hoperators
  exact (parse_bind _ _ hbinary).trans ((parse_bind _ _ (eatMark_of_not hquestion)).trans rfl)

/-- What begins with an operand is read as a value, and then perhaps assigned to. -/
theorem assignment_of_conditional (hlead : LeadsOperand s.rest) (h : conditional d s = .ok (e, t)) :
    assignment d s = (do
      match assignOf? (← peek) with
      | none => return e
      | some op =>
        unless isAssignable op e do fail .invalidTarget
        advance
        return .assign op e (← d.assignment) : Parse Expr) t := by
  have hasync : (isWordToken "async" (tokenOf s.rest) && !isMarkToken "=>" (tokenOf s.rest.tail) &&
      startsArrow s.rest.tail) = false := by
    cases hword : isWordToken "async" (tokenOf s.rest) with
    | false => rfl
    | true => rw [hlead.noAsyncArrow hword, Bool.and_false]
  unfold assignment
  refine (parse_bind s.rest s rfl).trans ?_
  rw [hasync]
  refine (parse_bind s.rest s rfl).trans ?_
  rw [hlead.noArrow]
  exact parse_bind _ _ h

/-- An operand that stands alone is all of the expression that it begins. -/
theorem assignment_of_primary (hlead : LeadsOperand s.rest) (hrest : EndsOperand t.rest)
    (hprimary : primary d s = .ok (e, t)) : assignment d s = .ok (e, t) := by
  rw [assignment_of_conditional hlead (conditional_of_primary hlead.begins (.target (.operand hrest)) hprimary)]
  obtain ⟨rest, size, line, noIn⟩ := t
  cases hrest <;> rfl

end Parse

end Snippet.Script
