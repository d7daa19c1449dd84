import Snippet.Proofs.Reading
import Snippet.Proofs.Refinement

/-!
Chains of members and calls behind `?.`. Where there is no object, the link behind `?.` is left out, and a call
that follows a member directly, but not the links after that: they are evaluated on undefined. Where there is
one, `?.` makes no difference.
-/

namespace Snippet.Script

inductive Link where
  | member (key : Key)
  | call (arguments : List Item)

def Link.after (e : Expr) (isOptional : Bool) : Link → Expr
  | member key => .member e key isOptional
  | call arguments => .call e arguments isOptional

def Expr.linked (e : Expr) (links : List Link) : Expr := links.foldl (fun e link => link.after e false) e

/-- An expression with links behind it, the first of them behind `?.` or not. -/
def Expr.chained (base : Expr) (isOptional : Bool) (first : Link) (rest : List Link) : Expr :=
  (first.after base isOptional).linked rest

def remaining : Link → List Link → List Link
  -- The links that are evaluated where there is no object: those after the first one, without a
  -- call that follows a member.
  | .member _, .call _ :: rest => rest
  | _, rest => rest

def Settles {α : Type} (x : Evaluator → Run α) (m : Machine) (r : EStateM.Result Fault Machine α) : Prop :=
  ∃ n, ∀ k, x (evaluator (k + n)) m = r

def FailsWith {α : Type} (P : Fault → Machine → Prop) (x : Evaluator → Run α) (m : Machine) : Prop :=
  ∃ n, ∀ k, ∃ f m', x (evaluator (k + n)) m = .error f m' ∧ P f m'

section Settling

variable {α β : Type} {x : Evaluator → Run α} {m m₁ : Machine} {a : α} {r r' : EStateM.Result Fault Machine α}
variable {P : Fault → Machine → Prop} {f : Fault}

theorem Settles.unique (h : Settles x m r) (h' : Settles x m r') : r = r' := by
  obtain ⟨n, hn⟩ := h
  obtain ⟨n', hn'⟩ := h'
  rw [← hn n', ← hn' n, Nat.add_comm]

theorem Settles.failsWith (h : Settles x m (.error f m₁)) : FailsWith (fun e m => e = f ∧ m = m₁) x m := by
  obtain ⟨n, hn⟩ := h
  exact ⟨n, fun k => ⟨f, m₁, hn k, rfl, rfl⟩⟩

theorem FailsWith.settles (h : FailsWith (fun e m => e = f ∧ m = m₁) x m) : Settles x m (.error f m₁) := by
  obtain ⟨n, hn⟩ := h
  refine ⟨n, fun k => ?_⟩
  obtain ⟨_, _, hk, rfl, rfl⟩ := hn k
  exact hk

theorem FailsWith.not_settles (h : FailsWith P x m) : ¬ Settles x m (.ok a m₁) := by
  rintro ⟨n', hn'⟩
  obtain ⟨n, hn⟩ := h
  obtain ⟨f, m', hk, -⟩ := hn n'
  rw [Nat.add_comm, hn' n] at hk
  cases hk

end Settling

/-- What is not cut off is settled. -/
theorem settles_of_not_cutOff {n : Nat} {e : Expr} {scope : ScopeRef} {m : Machine}
    (hdepth : m.callDepth ≤ maxCallDepth) (h : ¬ CutOff ((evaluator n).eval e scope m)) :
    Settles (fun ev => ev.eval e scope) m ((evaluator n).eval e scope m) := by
  refine ⟨n, fun k => ?_⟩
  have hrefines := (evaluator_refines n k (maxCallDepth - m.callDepth)).eval e scope trivial
  exact ((hrefines m (Nat.add_sub_cancel' hdepth)).resolve_left h).1

-- The callee of a call is evaluated as the expression itself is, but one level less deep if it is a
-- member.

section Callee

def calleeValue (found? : Option (Value × Value)) : Value := (found?.map Prod.fst).getD .undefined

variable {n : Nat} {e : Expr} {scope : ScopeRef} {m m₁ : Machine} {v : Value}

/-- The callee of a call is the member itself, with its object as the receiver. -/
theorem map_evalCallee_member (ev : Evaluator) (scope : ScopeRef) (object : Expr) (key : Key)
    (isOptional : Bool) :
    calleeValue <$> Run.evalCallee ev scope (.member object key isOptional) =
      Run.evalMember ev scope object key isOptional := by
  unfold Run.evalCallee Run.evalMember
  rw [map_eq_bind]
  simp only [bind_assoc]
  refine congrArg _ (funext fun v => ?_)
  split
  · simp only [pure_bind]
    rfl
  · simp only [bind_assoc, pure_bind]
    exact congrArg _ (funext fun _ => bind_pure _)

/-- A callee is evaluated as an expression is, on the same level or on the next one. -/
theorem map_evalCallee (n : Nat) (e : Expr) (scope : ScopeRef) :
    calleeValue <$> Run.evalCallee (evaluator n) scope e = (evaluator n).eval e scope ∨
      calleeValue <$> Run.evalCallee (evaluator n) scope e = (evaluator (n + 1)).eval e scope := by
  have hvalue (e : Expr) : calleeValue <$> (do return some (← (evaluator n).eval e scope, Value.undefined)) =
      (evaluator n).eval e scope := by
    rw [map_eq_bind]
    simp only [bind_assoc, pure_bind]
    exact bind_pure _
  cases e with
  | member object key isOptional => exact Or.inr (map_evalCallee_member _ _ _ _ _)
  | _ => exact Or.inl (hvalue _)

/-- Where an expression has a value, the callee that it is has that value. -/
theorem evalCallee_of_eval (he : ∀ k, (evaluator (k + n)).eval e scope m = .ok v m₁) (k : Nat) :
    ∃ found?, Run.evalCallee (evaluator (k + n)) scope e m = .ok found? m₁ ∧ calleeValue found? = v := by
  have hvalue : (calleeValue <$> Run.evalCallee (evaluator (k + n)) scope e) m = .ok v m₁ := by
    obtain heq | heq := map_evalCallee (k + n) e scope
    · rw [heq, he]
    · rw [heq, Nat.add_right_comm, he]
  rw [map_eq_bind] at hvalue
  cases hcallee : Run.evalCallee (evaluator (k + n)) scope e m with
  | error f m' =>
    rw [run_bind_error hcallee] at hvalue
    cases hvalue
  | ok found? m' =>
    rw [run_bind_ok hcallee] at hvalue
    obtain ⟨rfl, rfl⟩ := EStateM.Result.ok.inj hvalue
    exact ⟨found?, rfl, rfl⟩

/-- A callee fails wherever the expression does. -/
theorem evalCallee_of_fails {P : Fault → Machine → Prop}
    (he : ∀ k, ∃ f m', (evaluator (k + n)).eval e scope m = .error f m' ∧ P f m') (k : Nat) :
    ∃ f m', Run.evalCallee (evaluator (k + n)) scope e m = .error f m' ∧ P f m' := by
  have hfails : ∃ f m', (calleeValue <$> Run.evalCallee (evaluator (k + n)) scope e) m = .error f m' ∧
      P f m' := by
    obtain heq | heq := map_evalCallee (k + n) e scope
    · rw [heq]
      exact he k
    · rw [heq, Nat.add_right_comm]
      exact he (k + 1)
  obtain ⟨f, m', herror, hP⟩ := hfails
  rw [map_eq_bind] at herror
  cases hcallee : Run.evalCallee (evaluator (k + n)) scope e m with
  | error f' m'' =>
    rw [run_bind_error hcallee] at herror
    cases herror
    exact ⟨f, m', rfl, hP⟩
  | ok found? m'' =>
    rw [run_bind_ok hcallee] at herror
    cases herror

end Callee

-- A link behind `?.`, on a level on which its base has a value: without an object the link is left
-- out, and with one it is as any other.

section Optional

variable {ev : Evaluator} {base : Expr} {scope : ScopeRef} {m m₁ : Machine} {v : Value}
variable {found? : Option (Value × Value)}

theorem evalMember_of_nullish (hbase : ev.eval base scope m = .ok v m₁) (hv : v.isNullish = true) (key : Key) :
    Run.evalMember ev scope base key true m = .ok .undefined m₁ := by
  unfold Run.evalMember
  rw [run_bind_ok hbase, hv]
  rfl

theorem evalMember_of_object (hbase : ev.eval base scope m = .ok v m₁) (hv : v.isNullish = false) (key : Key) :
    Run.evalMember ev scope base key true m = Run.evalMember ev scope base key false m := by
  unfold Run.evalMember
  rw [run_bind_ok hbase, run_bind_ok hbase, hv]
  rfl

theorem evalCallee_of_nullish (hbase : ev.eval base scope m = .ok v m₁) (hv : v.isNullish = true) (key : Key) :
    Run.evalCallee ev scope (.member base key true) m = .ok none m₁ := by
  unfold Run.evalCallee
  dsimp only
  rw [run_bind_ok hbase, hv]
  rfl

theorem evalCallee_of_object (hbase : ev.eval base scope m = .ok v m₁) (hv : v.isNullish = false) (key : Key) :
    Run.evalCallee ev scope (.member base key true) m =
      Run.evalCallee ev scope (.member base key false) m := by
  unfold Run.evalCallee
  dsimp only
  rw [run_bind_ok hbase, run_bind_ok hbase, hv]
  rfl

/-- An optional call of what is not there comes to nothing, and its arguments are not evaluated. -/
theorem evalCall_of_nullish (hcallee : Run.evalCallee ev scope base m = .ok found? m₁)
    (hv : (calleeValue found?).isNullish = true) (arguments : List Item) :
    Run.evalCall ev scope base arguments true m = .ok .undefined m₁ := by
  unfold Run.evalCall
  rw [run_bind_ok hcallee]
  cases found? with
  | none => rfl
  | some found =>
    replace hv : found.1.isNullish = true := hv
    dsimp only
    rw [hv]
    rfl

/-- An optional call of what is there is like any other one. -/
theorem evalCall_of_object (hcallee : Run.evalCallee ev scope base m = .ok found? m₁)
    (hv : (calleeValue found?).isNullish = false) (arguments : List Item) :
    Run.evalCall ev scope base arguments true m = Run.evalCall ev scope base arguments false m := by
  unfold Run.evalCall
  rw [run_bind_ok hcallee, run_bind_ok hcallee]
  cases found? with
  | none => rfl
  | some found =>
    replace hv : found.1.isNullish = false := hv
    dsimp only
    rw [hv]
    rfl

end Optional

section Links

variable {e base : Expr} {scope : ScopeRef} {m m₁ : Machine} {v : Value} {P : Fault → Machine → Prop}

/-- What fails in front of a link fails with it. -/
theorem FailsWith.after (he : FailsWith P (fun ev => ev.eval e scope) m) (link : Link) (isOptional : Bool) :
    FailsWith P (fun ev => ev.eval (link.after e isOptional) scope) m := by
  obtain ⟨n, hn⟩ := he
  refine ⟨n + 1, fun k => ?_⟩
  cases link with
  | member key =>
    obtain ⟨f, m', hk, hP⟩ := hn k
    exact ⟨f, m', run_bind_error hk, hP⟩
  | call arguments =>
    obtain ⟨f, m', hk, hP⟩ := evalCallee_of_fails hn k
    exact ⟨f, m', run_bind_error hk, hP⟩

theorem FailsWith.linked (he : FailsWith P (fun ev => ev.eval e scope) m) (links : List Link) :
    FailsWith P (fun ev => ev.eval (e.linked links) scope) m := by
  induction links generalizing e with
  | nil => exact he
  | cons link rest ih => exact ih (he.after link false)

structure Alike (scope : ScopeRef) (m : Machine) (e e' : Expr) : Prop where
  -- Two expressions that come to the same with enough depth, also as callees, and are called the
  -- same in errors.
  eval : ∃ n, ∀ k, (evaluator (k + n)).eval e scope m = (evaluator (k + n)).eval e' scope m
  callee : ∃ n, ∀ k, Run.evalCallee (evaluator (k + n)) scope e m = Run.evalCallee (evaluator (k + n)) scope e' m
  label : calleeLabel e = calleeLabel e'

/-- What is alike stays so behind a further link. -/
theorem Alike.after {e e' : Expr} (h : Alike scope m e e') (link : Link) :
    Alike scope m (link.after e false) (link.after e' false) := by
  obtain ⟨⟨n, hn⟩, ⟨n', hn'⟩, hlabel⟩ := h
  cases link with
  | member key =>
    refine ⟨⟨n + 1, fun k => run_bind_congr (hn k)⟩, ⟨n, fun k => run_bind_congr (hn k)⟩, ?_⟩
    cases key with
    | named name => exact congrArg (fun l => s!"{l}.{name}") hlabel
    | computed e => exact congrArg (· ++ "[...]") hlabel
  | call arguments =>
    have heval (k : Nat) : (evaluator (k + (n' + 1))).eval (.call e arguments false) scope m =
        (evaluator (k + (n' + 1))).eval (.call e' arguments false) scope m := by
      change Run.evalCall (evaluator (k + n')) scope e arguments false m =
        Run.evalCall (evaluator (k + n')) scope e' arguments false m
      unfold Run.evalCall
      rw [hlabel]
      exact run_bind_congr (hn' k)
    refine ⟨⟨n' + 1, heval⟩, ⟨n' + 1, fun k => run_bind_congr (heval k)⟩, ?_⟩
    exact congrArg (· ++ "(...)") hlabel

theorem Alike.linked {e e' : Expr} (h : Alike scope m e e') (links : List Link) :
    Alike scope m (e.linked links) (e'.linked links) := by
  induction links generalizing e e' with
  | nil => exact h
  | cons link rest ih => exact ih (h.after link)

/-- Expressions that are alike settle to the same results. -/
theorem Alike.settles_iff {e e' : Expr} (h : Alike scope m e e') {r : EStateM.Result Fault Machine Value} :
    Settles (fun ev => ev.eval e scope) m r ↔ Settles (fun ev => ev.eval e' scope) m r := by
  have himp {e e' : Expr} (h : ∃ n, ∀ k, (evaluator (k + n)).eval e scope m = (evaluator (k + n)).eval e' scope m)
      (hr : Settles (fun ev => ev.eval e scope) m r) : Settles (fun ev => ev.eval e' scope) m r := by
    obtain ⟨n, hn⟩ := h
    obtain ⟨n', hn'⟩ := hr
    refine ⟨n' + n, fun k => ?_⟩
    have heq := hn (k + n')
    rw [Nat.add_assoc] at heq
    refine heq.symm.trans ?_
    rw [Nat.add_comm n', ← Nat.add_assoc]
    exact hn' (k + n)
  obtain ⟨n, hn⟩ := h.eval
  exact ⟨himp ⟨n, hn⟩, himp ⟨n, fun k => (hn k).symm⟩⟩

/-- Where there is an object, it makes no difference that a link is optional. -/
theorem alike_of_not_nullish (hbase : Settles (fun ev => ev.eval base scope) m (.ok v m₁))
    (hv : v.isNullish = false) (first : Link) :
    Alike scope m (first.after base true) (first.after base false) := by
  obtain ⟨n, hn⟩ := hbase
  cases first with
  | member key =>
    refine ⟨⟨n + 1, fun k => evalMember_of_object (hn k) hv key⟩, ⟨n, fun k => evalCallee_of_object (hn k) hv key⟩, ?_⟩
    cases key <;> rfl
  | call arguments =>
    have heval (k : Nat) : (evaluator (k + (n + 1))).eval (.call base arguments true) scope m =
        (evaluator (k + (n + 1))).eval (.call base arguments false) scope m := by
      obtain ⟨found?, hcallee, rfl⟩ := evalCallee_of_eval hn k
      exact evalCall_of_object hcallee hv arguments
    exact ⟨⟨n + 1, heval⟩, ⟨n + 1, fun k => run_bind_congr (heval k)⟩, rfl⟩

def Expr.leftOut (base : Expr) : Link → List Link → Expr
  -- The links that are left out where there is no object: the first one, and a call behind a
  -- member.
  | .member key, .call arguments :: _ => .call (.member base key true) arguments false
  | first, _ => first.after base true

theorem chained_eq_linked (base : Expr) (first : Link) (rest : List Link) :
    base.chained true first rest = (base.leftOut first rest).linked (remaining first rest) := by
  cases first with
  | call arguments => rfl
  | member key =>
    cases rest with
    | nil => rfl
    | cons link rest => cases link <;> rfl

/-- They come to undefined, and nothing in them is evaluated. -/
theorem settles_leftOut (hbase : Settles (fun ev => ev.eval base scope) m (.ok v m₁))
    (hv : v.isNullish = true) (first : Link) (rest : List Link) :
    Settles (fun ev => ev.eval (base.leftOut first rest) scope) m (.ok .undefined m₁) := by
  obtain ⟨n, hn⟩ := hbase
  refine ⟨n + 1, fun k => ?_⟩
  cases first with
  | call arguments =>
    obtain ⟨found?, hcallee, rfl⟩ := evalCallee_of_eval hn k
    exact evalCall_of_nullish hcallee hv arguments
  | member key =>
    cases rest with
    | nil => exact evalMember_of_nullish (hn k) hv key
    | cons link rest =>
      cases link with
      | member key' => exact evalMember_of_nullish (hn k) hv key
      | call arguments => exact run_bind_ok (evalCallee_of_nullish (hn k) hv key)

/-- A member of undefined fails once its key is known. -/
theorem settles_member_of_undefined {key : Key} {r : EStateM.Result Fault Machine Value}
    (he : Settles (fun ev => ev.eval e scope) m (.ok .undefined m₁))
    (hkey : Settles (fun ev => Run.keyOf ev scope key >>= Run.getMember .undefined) m₁ r) :
    Settles (fun ev => ev.eval (.member e key false) scope) m r := by
  obtain ⟨n, hn⟩ := he
  obtain ⟨n', hn'⟩ := hkey
  refine ⟨n + n' + 1, fun k => ?_⟩
  have he : (evaluator (k + (n + n'))).eval e scope m = .ok .undefined m₁ := by
    rw [Nat.add_comm n n', ← Nat.add_assoc]
    exact hn (k + n')
  have hkey : (Run.keyOf (evaluator (k + (n + n'))) scope key >>= Run.getMember .undefined) m₁ = r := by
    rw [← Nat.add_assoc]
    exact hn' (k + n)
  exact (run_bind_ok he).trans hkey

/-- A member of what is undefined is an error, after its key has been evaluated. -/
theorem fails_member_of_undefined (key : Key)
    (he : Settles (fun ev => ev.eval e scope) m (.ok .undefined m₁)) :
    FailsWith (fun _ _ => True) (fun ev => ev.eval (.member e key false) scope) m := by
  obtain ⟨n, hn⟩ := he
  refine ⟨n + 1, fun k => ?_⟩
  have hmember : ∃ f m', (Run.keyOf (evaluator (k + n)) scope key >>= Run.getMember .undefined) m₁ =
      .error f m' := by
    cases hkey : Run.keyOf (evaluator (k + n)) scope key m₁ with
    | error f m' => exact ⟨f, m', run_bind_error hkey⟩
    | ok name m' => exact ⟨_, m', run_bind_ok hkey⟩
  obtain ⟨f, m', hmember⟩ := hmember
  exact ⟨f, m', (run_bind_ok (hn k)).trans hmember, trivial⟩

/-- Undefined is not called, and the arguments are not evaluated. -/
theorem settles_call_of_undefined {callee : Expr} {before arguments : List Item} {isOptional : Bool}
    (he : Settles (fun ev => ev.eval (.call callee before isOptional) scope) m (.ok .undefined m₁)) :
    Settles (fun ev => ev.eval (.call (.call callee before isOptional) arguments false) scope) m
      (.error (.raised (.notFunction (calleeLabel (.call callee before isOptional)))) m₁) := by
  obtain ⟨n, hn⟩ := he
  refine ⟨n + 1, fun k => ?_⟩
  have hcallee : Run.evalCallee (evaluator (k + n)) scope (.call callee before isOptional) m =
      .ok (some (.undefined, .undefined)) m₁ := run_bind_ok (hn k)
  exact run_bind_ok hcallee

/-- What is left out in front of a call that remains is a call itself. -/
theorem leftOut_of_remaining_call (base : Expr) {first : Link} {rest later : List Link} {arguments : List Item}
    (h : remaining first rest = .call arguments :: later) :
    ∃ callee before isOptional, base.leftOut first rest = .call callee before isOptional := by
  cases first with
  | call before => exact ⟨base, before, true, rfl⟩
  | member key =>
    cases rest with
    | nil => cases h
    | cons link rest =>
      cases link with
      | member key' => cases h
      | call before => exact ⟨_, before, false, rfl⟩

end Links

namespace Parse

def Gives {α : Type} (V : α → Prop) (p : Parse α) : Prop := ∀ s a t, p s = .ok (a, t) → V a

variable {α β : Type} {V : α → Prop} {W : β → Prop}

theorem Gives.pure {a : α} (ha : V a) : Gives V (Pure.pure a) := by
  intro s b t h
  cases h
  exact ha

theorem Gives.bind {p : Parse α} {f : α → Parse β} (hp : Gives V p) (hf : ∀ a, V a → Gives W (f a)) :
    Gives W (p >>= f) := by
  intro s b t h
  obtain ⟨a, u, hfirst, hrest⟩ := of_parse_bind h
  exact hf a (hp s a u hfirst) u b t hrest

theorem Gives.andThen {p : Parse α} {f : α → Parse β} (hf : ∀ a, Gives W (f a)) : Gives W (p >>= f) :=
  Gives.bind (V := fun _ => True) (fun _ _ _ _ => trivial) fun a _ => hf a

theorem Gives.ite {c : Prop} [Decidable c] {p q : Parse α} (hp : Gives V p) (hq : Gives V q) :
    Gives V (if c then p else q) := by
  split
  · exact hp
  · exact hq

def Lengthens (e : Expr) : Step Expr Expr → Prop
  | .more e' => ∃ link isOptional, e' = Link.after e isOptional link
  | .done e' => e' = e

/-- A round of a chain adds one link, or ends the chain. -/
theorem gives_chainRound (d : Descent) (e : Expr) : Gives (Lengthens e) (chainRound d e) := by
  have hmember (key : Key) (isOptional : Bool) :
      Gives (Lengthens e) (Pure.pure (.more (.member e key isOptional)) : Parse (Step Expr Expr)) :=
    .pure ⟨.member key, isOptional, rfl⟩
  have hcall (arguments : List Item) (isOptional : Bool) :
      Gives (Lengthens e) (Pure.pure (.more (.call e arguments isOptional)) : Parse (Step Expr Expr)) :=
    .pure ⟨.call arguments, isOptional, rfl⟩
  refine .andThen fun dot => .ite (.andThen fun name => hmember _ _) ?_
  refine .andThen fun optional => .ite ?_ ?_
  · refine .andThen fun called => .ite (.andThen fun arguments => hcall _ _) ?_
    exact .andThen fun computed => .ite (.andThen fun key => hmember _ _) (.andThen fun name => hmember _ _)
  · refine .andThen fun computed => .ite (.andThen fun key => hmember _ _) ?_
    exact .andThen fun called => .ite (.andThen fun arguments => hcall _ _) (.pure rfl)

inductive Linked (base : Expr) : Expr → Prop where
  | first : Linked base base
  | after {e : Expr} (he : Linked base e) (link : Link) (isOptional : Bool) :
    Linked base (link.after e isOptional)

/-- A chain is read as a first part with links behind it, by induction on the rounds. -/
theorem gives_chain (d : Descent) (base : Expr) : Gives (Linked base) (repeatFrom base (chainRound d)) := by
  have hrounds (n : Nat) (e : Expr) (he : Linked base e) : Gives (Linked base) (iterate (chainRound d) n e) := by
    induction n generalizing e with
    | zero => exact nofun
    | succ n ih =>
      refine (gives_chainRound d e).bind fun step hstep => ?_
      cases step with
      | done e' =>
        obtain rfl : e' = e := hstep
        exact .pure he
      | more e' =>
        obtain ⟨link, isOptional, rfl⟩ := hstep
        exact ih _ (he.after link isOptional)
  exact fun s e t h => hrounds (s.size + 1) base .first s e t h

end Parse

/-- A chain of members and calls on a base, its first link behind `?.`, from some state. -/
structure ChainSkipsOneLink (base : Expr) (first : Link) (rest : List Link) (scope : ScopeRef) (m : Machine) :
    Prop where
  /-- Chains are read link by link, each behind what was read before. -/
  read : ∀ d s e t, Parse.repeatFrom base (Parse.chainRound d) s = .ok (e, t) → Parse.Linked base e
  settles : ∀ n (e : Expr), m.callDepth ≤ maxCallDepth → ¬ CutOff ((evaluator n).eval e scope m) →
    Settles (fun ev => ev.eval e scope) m ((evaluator n).eval e scope m)
  /-- Without an object the chain is undefined, and nothing more is evaluated, if no link remains. -/
  whole : ∀ v m₁, Settles (fun ev => ev.eval base scope) m (.ok v m₁) → v.isNullish = true →
    remaining first rest = [] →
    Settles (fun ev => ev.eval (base.chained true first rest) scope) m (.ok .undefined m₁)
  /-- A member that remains is looked for in undefined, when its key has been evaluated. -/
  member : ∀ key later v m₁ f m₂, Settles (fun ev => ev.eval base scope) m (.ok v m₁) → v.isNullish = true →
    remaining first rest = .member key :: later →
    Settles (fun ev => Run.keyOf ev scope key >>= Run.getMember .undefined) m₁ (.error f m₂) →
    Settles (fun ev => ev.eval (base.chained true first rest) scope) m (.error f m₂)
  /-- A call that remains calls undefined. -/
  call : ∀ arguments later v m₁, Settles (fun ev => ev.eval base scope) m (.ok v m₁) → v.isNullish = true →
    remaining first rest = .call arguments :: later →
    Settles (fun ev => ev.eval (base.chained true first rest) scope) m
      (.error (.raised (.notFunction (calleeLabel (base.leftOut first rest)))) m₁)
  /-- So it has a value only if no link remains. -/
  only : ∀ v m₁ w m₂, Settles (fun ev => ev.eval base scope) m (.ok v m₁) → v.isNullish = true →
    Settles (fun ev => ev.eval (base.chained true first rest) scope) m (.ok w m₂) →
    remaining first rest = [] ∧ w = .undefined ∧ m₂ = m₁
  /-- With an object it is the same as without `?.`. -/
  object : ∀ v m₁ r, Settles (fun ev => ev.eval base scope) m (.ok v m₁) → v.isNullish = false →
    (Settles (fun ev => ev.eval (base.chained true first rest) scope) m r ↔
      Settles (fun ev => ev.eval (base.chained false first rest) scope) m r)
  fault : ∀ f m₁, Settles (fun ev => ev.eval base scope) m (.error f m₁) →
    Settles (fun ev => ev.eval (base.chained true first rest) scope) m (.error f m₁)

theorem chains_skip_one_link (base : Expr) (first : Link) (rest : List Link) (scope : ScopeRef) (m : Machine) :
    ChainSkipsOneLink base first rest scope m where
  read d s e t h := Parse.gives_chain d base s e t h
  settles _ _ hdepth h := settles_of_not_cutOff hdepth h
  whole v m₁ hbase hv hrest := by
    rw [chained_eq_linked, hrest]
    exact settles_leftOut hbase hv first rest
  member key later v m₁ f m₂ hbase hv hrest hkey := by
    rw [chained_eq_linked, hrest]
    have hfails := settles_member_of_undefined (settles_leftOut hbase hv first rest) hkey
    exact (hfails.failsWith.linked later).settles
  call arguments later v m₁ hbase hv hrest := by
    have hleft := settles_leftOut hbase hv first rest
    rw [chained_eq_linked, hrest]
    obtain ⟨callee, before, isOptional, heq⟩ := leftOut_of_remaining_call base hrest
    rw [heq] at hleft ⊢
    exact ((settles_call_of_undefined hleft).failsWith.linked later).settles
  only v m₁ w m₂ hbase hv h := by
    -- The value of a chain that goes on would be that of a link on an undefined value, which fails.
    have hleft := settles_leftOut hbase hv first rest
    rw [chained_eq_linked] at h
    cases hrest : remaining first rest with
    | nil =>
      rw [hrest] at h
      obtain ⟨rfl, rfl⟩ := EStateM.Result.ok.inj (h.unique hleft)
      exact ⟨rfl, rfl, rfl⟩
    | cons link later =>
      rw [hrest] at h
      cases link with
      | member key => exact absurd h ((fails_member_of_undefined key hleft).linked later).not_settles
      | call arguments =>
        obtain ⟨callee, before, isOptional, heq⟩ := leftOut_of_remaining_call base hrest
        rw [heq] at h hleft
        have hcall : Settles (fun ev => ev.eval (.call (.call callee before isOptional) arguments false) scope) m _ :=
          settles_call_of_undefined hleft
        exact absurd h (hcall.failsWith.linked later).not_settles
  object v m₁ r hbase hv := ((alike_of_not_nullish hbase hv first).linked rest).settles_iff
  fault f m₁ hbase := ((hbase.failsWith.after first true).linked rest).settles

/-- The link behind a member that is left out is evaluated: it is looked for in undefined. -/
theorem second_link_is_not_skipped :
    (evaluate "const a = null; console.log(a?.b.c);" "" ⟨20000⟩).bind Draft.error =
      some "TypeError: Cannot read properties of undefined (reading 'c')" := by
  decide +kernel

end Snippet.Script
