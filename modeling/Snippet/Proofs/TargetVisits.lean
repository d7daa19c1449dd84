import Snippet.Proofs.Constants

/-!
How assignments visit the members that they assign. The parts of a member (the expression for the value whose
member it is, and that for the key) are evaluated once more for the assignment itself, after all the rest; what
reads the old value has evaluated them before. That is the same as evaluating them once and first where they
come to the same place both times.
-/

namespace Snippet.Script

inductive Write where
  | assign (op : Option BinaryOp) (value : Expr)
  | update (increment before : Bool)

namespace Write

def expr (target : Expr) : Write → Expr
  | assign op value => .assign op target value
  | update increment before => .update increment before target

def reads : Write → Bool
  | assign none _ => false
  | _ => true

def compute (ev : Evaluator) (scope : ScopeRef) (old : Value) : Write → Run (Value × Value)
  | assign none value => do
    let v ← ev.eval value scope
    return (v, v)
  | assign (some op) value => do
    let v ← Run.binary op old (← ev.eval value scope)
    return (v, v)
  | update increment before => do
    let x ← Run.toNumber old
    let y := if increment then x + 1.0 else x - 1.0
    return (.number y, .number (if before then y else x))

end Write

abbrev Place : Type := Value × String

namespace Run

def place (ev : Evaluator) (scope : ScopeRef) (object : Expr) (key : Key) : Run Place := do
  let v ← ev.eval object scope
  return (v, ← keyOf ev scope key)

def oldValue (w : Write) (find : Run Place) : Run Value := do
  if w.reads then
    let p ← find
    getMember p.1 p.2
  else return .undefined

def writeAnew (ev : Evaluator) (scope : ScopeRef) (w : Write) (find : Run Place) : Run Value := do
  let old ← oldValue w find
  let (v, result) ← w.compute ev scope old
  let p ← find
  setMember p.1 p.2 v
  return result

def writeOnce (ev : Evaluator) (scope : ScopeRef) (w : Write) (find : Run Place) : Run Value := do
  let p ← find
  let old ← oldValue w (pure p)
  let (v, result) ← w.compute ev scope old
  setMember p.1 p.2 v
  return result

end Run

theorem eval_member (n : Nat) (object : Expr) (key : Key) (scope : ScopeRef) :
    (evaluator (n + 1)).eval (.member object key false) scope =
      (Run.place (evaluator n) scope object key >>= fun p => Run.getMember p.1 p.2) := by
  change Run.evalMember (evaluator n) scope object key false = _
  unfold Run.evalMember Run.place
  simp only [Bool.false_and, bind_assoc, pure_bind]
  rfl

theorem assign_member (n : Nat) (object : Expr) (key : Key) (v : Value) (scope : ScopeRef) :
    (evaluator (n + 1)).assign (.member object key false) v scope =
      (Run.place (evaluator n) scope object key >>= fun p => Run.setMember p.1 p.2 v) := by
  change Run.assignExpr (evaluator n) (.member object key false) v scope = _
  unfold Run.assignExpr Run.place
  simp only [bind_assoc, pure_bind]

/-- What is done to a member evaluates its parts after all the rest, and before it only to read the member. -/
theorem eval_write (n : Nat) (w : Write) (object : Expr) (key : Key) (scope : ScopeRef) :
    (evaluator (n + 2)).eval (w.expr (.member object key false)) scope =
      Run.writeAnew (evaluator (n + 1)) scope w (Run.place (evaluator n) scope object key) := by
  cases w with
  | assign op value =>
    change Run.evalAssign (evaluator (n + 1)) scope op _ value = _
    unfold Run.evalAssign Run.writeAnew Run.oldValue
    cases op with
    | none => simp [Write.compute, Write.reads, assign_member]
    | some op => simp [Write.compute, Write.reads, assign_member, eval_member]
  | update increment before =>
    change Run.evalUpdate (evaluator (n + 1)) scope increment before _ = _
    unfold Run.evalUpdate Run.writeAnew Run.oldValue
    simp [Write.compute, Write.reads, assign_member, eval_member]

section Once

variable {ev : Evaluator} {scope : ScopeRef} {w : Write} {find : Run Place} {m : Machine} {p : Place}

/-- A place that is the same when it is found again might as well be found once and first. -/
theorem writeAnew_eq_writeOnce (hfind : find m = .ok p m)
    (hagain : ∀ r m', (Run.oldValue w (pure p) >>= w.compute ev scope) m = .ok r m' → find m' = .ok p m') :
    Run.writeAnew ev scope w find m = Run.writeOnce ev scope w find m := by
  have hold : Run.oldValue w find m = Run.oldValue w (pure p) m := by
    unfold Run.oldValue
    cases w.reads with
    | false => rfl
    | true => exact run_bind_ok hfind
  unfold Run.writeAnew Run.writeOnce
  rw [run_bind_ok hfind]
  cases hread : Run.oldValue w (pure p) m with
  | error e m₁ => rw [run_bind_error (hold.trans hread), run_bind_error hread]
  | ok old m₁ =>
    rw [run_bind_ok (hold.trans hread), run_bind_ok hread]
    cases hcompute : w.compute ev scope old m₁ with
    | error e m₂ => rw [run_bind_error hcompute, run_bind_error hcompute]
    | ok r m₂ =>
      have hfound : find m₂ = .ok p m₂ := hagain r m₂ ((run_bind_ok hread).trans hcompute)
      rw [run_bind_ok hcompute, run_bind_ok hcompute]
      exact run_bind_ok hfound

end Once

inductive Expr.Stays (h : Heap) (s : ScopeRef) : Expr → Value → Prop where
  | number (x : Float) : Expr.Stays h s (.number x) (.number x)
  | string (t : String) : Expr.Stays h s (.string t) (.string t)
  | bool (b : Bool) : Expr.Stays h s (.bool b) (.bool b)
  | name {x : String} {o : ScopeRef} {v : Value} (hsees : h.Sees x s o ⟨v, false⟩) : Expr.Stays h s (.name x) v
  /-- The receiver of a function is a constant in it. -/
  | this {o : ScopeRef} {v : Value} (hsees : h.Sees "this" s o ⟨v, false⟩) : Expr.Stays h s .this v

inductive Key.Stays (h : Heap) (s : ScopeRef) : Key → String → Prop where
  -- A key that is the same for good: it is a name, or it is computed from what has a value for good
  -- and a text that does not depend on the state.
  | named (name : String) : Key.Stays h s (.named name) name
  | computed {e : Expr} {v : Value} {text : String} (he : e.Stays h s v)
    (htext : ∀ m, Run.toText v m = .ok text m) : Key.Stays h s (.computed e) text

section Stays

variable {h h' : Heap} {s : ScopeRef} {e : Expr} {key : Key} {v : Value} {k : String} {m : Machine}

theorem Expr.Stays.outlasts (he : e.Stays h s v) (hold : h.Outlasts nowhere h') : e.Stays h' s v := by
  cases he with
  | number x => exact .number x
  | string t => exact .string t
  | bool b => exact .bool b
  | name hsees => exact .name (hsees.outlasts_constant hold (fun _ => id) rfl)
  | this hsees => exact .this (hsees.outlasts_constant hold (fun _ => id) rfl)

theorem Key.Stays.outlasts (hk : key.Stays h s k) (hold : h.Outlasts nowhere h') : key.Stays h' s k := by
  cases hk with
  | named name => exact .named _
  | computed he htext => exact .computed (he.outlasts hold) htext

/-- An expression that stays where it is comes to the same value in every evaluator. -/
theorem Expr.Stays.eval (he : e.Stays m.heap s v) (n : Nat) : (evaluator (n + 1)).eval e s m = .ok v m := by
  have hfound {x : String} {o : ScopeRef} (hsees : m.heap.Sees x s o ⟨v, false⟩) :
      Run.lookup? s x m = .ok (some v) m := by
    unfold Run.lookup?
    rw [hsees.lookup?_eq]
  cases he with
  | name hsees => exact run_bind_ok (hfound hsees)
  | this hsees => exact run_bind_ok (hfound hsees)
  | _ => rfl

/-- The place of a member that stays is found without changing anything. -/
theorem run_place_stays (he : e.Stays m.heap s v) (hk : key.Stays m.heap s k) (n : Nat) :
    Run.place (evaluator (n + 1)) s e key m = .ok (v, k) m := by
  have hkey : Run.keyOf (evaluator (n + 1)) s key m = .ok k m := by
    cases hk with
    | named name => rfl
    | computed he htext => exact (run_bind_ok (he.eval n)).trans (htext m)
  unfold Run.place
  rw [run_bind_ok (he.eval n), run_bind_ok hkey]
  rfl

end Stays

/-- Reading a place and computing the value to be stored declares nothing. -/
theorem Write.spares (w : Write) (p : Place) (n : Nat) (scope : ScopeRef) :
    (Run.oldValue w (pure p) >>= w.compute (evaluator n) scope).Spares nowhere := by
  refine .of_upholds (V := Any) fun old => ?_
  have heval (e : Expr) : Upholds (Heap.OutlastsUpTo nowhere old) Any ((evaluator n).eval e scope) :=
    (evaluator_spares n).eval e trivial
  have hread : Upholds (Heap.OutlastsUpTo nowhere old) Any (Run.oldValue w (pure p)) :=
    Upholds.ite (fun _ => Upholds.bind (V := Any) (Upholds.pure trivial) fun _ _ => Upholds.getMember _ _)
      fun _ => Upholds.pure trivial
  refine Upholds.bind hread fun v _ => ?_
  cases w with
  | assign op value =>
    cases op with
    | none => exact Upholds.bind (heval value) fun _ _ => Upholds.pure trivial
    | some op =>
      refine Upholds.bind (heval value) fun operand _ => ?_
      exact Upholds.bind (Upholds.binary op v operand) fun _ _ => Upholds.pure trivial
  | update increment before => exact Upholds.bind (Upholds.toNumber v) fun _ _ => Upholds.pure trivial

/-- What is done to a member evaluates the parts of the member after all the rest, and twice if it reads the
member. -/
structure WriteFindsMemberAnew (w : Write) (object : Expr) (key : Key) (scope : ScopeRef) : Prop where
  anew : ∀ n, (evaluator (n + 2)).eval (w.expr (.member object key false)) scope =
    Run.writeAnew (evaluator (n + 1)) scope w (Run.place (evaluator n) scope object key)
  /-- It is as if they were evaluated once and first where they come to the same place without any effect. -/
  once : ∀ n (m : Machine) p, Run.place (evaluator n) scope object key m = .ok p m →
    (∀ r m', (Run.oldValue w (pure p) >>= w.compute (evaluator (n + 1)) scope) m = .ok r m' →
      Run.place (evaluator n) scope object key m' = .ok p m') →
    (evaluator (n + 2)).eval (w.expr (.member object key false)) scope m =
      Run.writeOnce (evaluator (n + 1)) scope w (Run.place (evaluator n) scope object key) m
  /-- So it is for members of constants and of the receiver under fixed keys, whatever is evaluated between. -/
  fixed : ∀ n (m : Machine) v k, object.Stays m.heap scope v → key.Stays m.heap scope k →
    (evaluator (n + 3)).eval (w.expr (.member object key false)) scope m =
      Run.writeOnce (evaluator (n + 2)) scope w (Run.place (evaluator (n + 1)) scope object key) m

/-- All ways of writing to a member find its place once more, after what is written. -/
theorem writes_find_members_anew (w : Write) (object : Expr) (key : Key) (scope : ScopeRef) :
    WriteFindsMemberAnew w object key scope where
  anew n := eval_write n w object key scope
  once n m p hfind hagain := by
    rw [eval_write]
    exact writeAnew_eq_writeOnce hfind hagain
  fixed n m v k he hk := by
    rw [eval_write]
    refine writeAnew_eq_writeOnce (run_place_stays he hk n) fun r m' hok => ?_
    have hold := w.spares (v, k) (n + 2) scope m
    rw [hok] at hold
    exact run_place_stays (he.outlasts hold) (hk.outlasts hold) n

/-- The key of the member that is assigned is evaluated twice: the old value is read under one key and the new
one is stored under another. -/
theorem compound_assignment_moves_on :
    (evaluate "let i = 0; const a = [1, 2, 3]; a[i++] += 10; console.log(i, a);" "" ⟨20000⟩).bind
      Draft.output = some "2 [ 1, 11, 3 ]\n" := by
  decide +kernel

end Snippet.Script
