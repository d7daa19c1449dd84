import Snippet.Proofs.ArrayCap
import Snippet.Proofs.CallNesting
import Snippet.Proofs.TextCap
import Snippet.Proofs.UpholdingScript
import Mathlib.Algebra.Ring.Nat

/-!
Where arrays grow beyond the longest one: only where elements are spread into one, where a function is
called that makes an array of a size it does not look at, and where a call has more arguments than an array
may have elements. Evaluation that is cut off where one of these leaves an array behind that is too long
keeps every array within the bound, and it is the same as evaluation itself where it is not cut off.
-/

namespace Snippet.Script

def areWrittenOut (items : List Item) : Bool :=
  decide (items.length ≤ maxArraySize) && items.all fun | .mk spread _ => !spread

def Expr.isBounded : Expr → Bool
  | .array items => areWrittenOut items
  | _ => true

def Value.isBounded (f : Value) (arguments : List Value) : Bool :=
  -- Whether a value may be called with arguments: it makes no array of a size that it does not look
  -- at, and the arguments are not more than an array may have.
  decide (arguments.length ≤ maxArraySize) &&
    match f with
    | .function f _ => f.isBounded
    | _ => true

theorem Value.isBounded_iff {f : Value} {arguments : List Value} :
    f.isBounded arguments = true ↔ IsShort arguments ∧
      (match f with
        | .function f _ => f.isBounded
        | _ => true) = true := by
  unfold Value.isBounded
  rw [Bool.and_eq_true, decide_eq_true_eq]
  rfl

instance (m : Machine) : Decidable m.Fits :=
  inferInstanceAs (Decidable (∀ xs ∈ m.heap.arrays, xs.size ≤ maxArraySize))

def Run.watched {α : Type} (x : Run α) : Run α := fun m =>
  if (finalState (x m)).Fits then x m else .error .exhausted m

def Run.watchedUnless {α : Type} (looks : Bool) (x : Run α) : Run α := if looks then x else x.watched

def Evaluator.bounded (ev : Evaluator) : Evaluator where
  -- Evaluation that is cut off where an array that is too long is left behind by what makes arrays
  -- of a size that nothing looks at.
  eval e scope := Run.watchedUnless e.isBounded (ev.eval e scope)
  assign target v scope := Run.watchedUnless target.isBounded (ev.assign target v scope)
  exec := ev.exec
  call f receiver arguments := Run.watchedUnless (f.isBounded arguments) (ev.call f receiver arguments)
  construct f arguments label :=
    Run.watchedUnless (f.isBounded arguments) (ev.construct f arguments label)

/-- Evaluation that may go `n` levels deep and is watched where arrays are made of a size that nothing looks
at. -/
def boundedEvaluator : Nat → Evaluator
  | 0 => evaluator 0
  | n + 1 => (boundedEvaluator n).layer.bounded

def Job.runBounded (j : Job) : EStateM.Result Fault Machine Unit :=
  Run.programBy (boundedEvaluator (depthBound (j.checkpoints + 1) j.statements)) j.statements
    (Machine.start j.stdin j.checkpoints)

/-- In a run no array that is too long is left behind by what makes arrays of a size that nothing looks at.
These are array literals and patterns that spread or are longer than an array may be, calls with more
arguments than an array may have elements, and calls of the methods `splice`, `concat`, `flat`, `flatMap`
and `split` and of the functions `Object.keys`, `Object.values`, `Object.entries`, `Array.from` and
`JSON.parse`. -/
def Job.StaysBounded (j : Job) : Prop := ¬ CutOff j.runBounded

section Refinement

variable {c : Nat} {α : Type} {V : α → Prop} {x y : Run α}

theorem Refines.watched (hx : Refines c V x y) : Refines c V x.watched y := by
  intro m hm
  unfold Run.watched
  split
  · exact hx m hm
  · exact Or.inl ⟨m, rfl⟩

theorem Refines.watchedUnless (hx : Refines c V x y) (looks : Bool) :
    Refines c V (Run.watchedUnless looks x) y := by
  cases looks with
  | true => exact hx
  | false => exact hx.watched

theorem EvaluatorsRelated.bounded {W : Part → Prop} {ev ev' : Evaluator}
    (h : EvaluatorsRelated refining c W ev ev') : EvaluatorsRelated refining c W ev.bounded ev' where
  eval e scope he := Refines.watchedUnless (h.eval e scope he) _
  assign e v scope he ht hv := Refines.watchedUnless (h.assign e v scope he ht hv) _
  exec := h.exec
  call hc f receiver arguments hf hr ha := Refines.watchedUnless (h.call hc f receiver arguments hf hr ha) _
  construct hc f arguments label hf ha := Refines.watchedUnless (h.construct hc f arguments label hf ha) _
  parts := h.parts
  functions := h.functions
  declared := h.declared

/-- Bounded evaluation is evaluation, unless it was cut off. -/
theorem boundedEvaluator_refines (n : Nat) :
    EvaluatorsRelated refining c Any (boundedEvaluator n) (evaluator n) := by
  induction n generalizing c with
  | zero => exact evaluator_zero_related Refines.exhausted _
  | succ n ih =>
    rw [evaluator_succ]
    refine EvaluatorsRelated.bounded ?_
    exact ih.layer (fun _ _ _ _ => trivial) (fun _ _ _ _ => trivial)
      (fun _ _ _ _ => Or.inr trivial) (fun _ _ _ _ => trivial) (fun _ _ => trivial)
      (fun _ _ => trivial) (fun _ _ => trivial) (fun _ _ => trivial)
      (fun _ _ _ _ _ => ⟨Any, ih, fun _ _ _ _ => trivial⟩) fun _ _ _ => ih.call trivial

/-- A run that is watched and not cut off is the run itself. -/
theorem Job.runBounded_eq_run {j : Job} (h : j.StaysBounded) : j.runBounded = j.run := by
  have hrefines : Refines maxCallDepth Any _ _ :=
    (boundedEvaluator_refines (depthBound (j.checkpoints + 1) j.statements)).programBy
      refining_runsTimers trivial j.statements fun _ _ => trivial
  obtain hcut | ⟨heq, -⟩ := hrefines (Machine.start j.stdin j.checkpoints) rfl
  · exact absurd hcut h
  · exact heq.symm

end Refinement

structure Evaluator.Fits (ev : Evaluator) : Prop where
  eval : ∀ e scope, Fitting Any (ev.eval e scope)
  assign : ∀ target v scope, Fitting Any (ev.assign target v scope)
  exec : ∀ s scope, Fitting Any (ev.exec s scope)
  call : ∀ f receiver arguments, Fitting Any (ev.call f receiver arguments)
  construct : ∀ f arguments label, Fitting Any (ev.construct f arguments label)

namespace Fitting

open Upholds

variable {α : Type}

/-- A computation that is watched leaves no array beyond the bound, as it is cut off where it would. -/
theorem watched (x : Run α) : Upholds Machine.Fits Any x.watched := by
  intro m hm
  unfold Run.watched
  split
  next h =>
    cases hx : x m with
    | ok a m' =>
      rw [hx] at h
      exact ⟨trivial, h⟩
    | error e m' =>
      rw [hx] at h
      exact ⟨trivial, h⟩
  next => exact ⟨trivial, hm⟩

theorem watchedUnless {looks : Bool} {x : Run α} (hx : looks = true → Upholds Machine.Fits Any x) :
    Upholds Machine.Fits Any (Run.watchedUnless looks x) :=
  ite hx fun _ => watched x

def everywhere (_ : ScopeRef) (_ : String) : Prop := True

instance : DeclarationRules Machine.Fits Any everywhere := by
  refine declarationRules_of_scopeFree fun {m m'} hm harrays _ => ?_
  unfold Machine.Fits
  rw [harrays]
  exact hm

end Fitting

namespace Evaluator.Fits

open Upholds Fitting

variable {ev : Evaluator} (h : ev.Fits)
include h

theorem sustains : ev.Sustains Machine.Fits Any everywhere where
  eval e scope _ := h.eval e scope
  assign target v scope _ := h.assign target v scope
  exec s scope _ _ := h.exec s scope
  call := h.call
  construct := h.construct

/-- Elements that are written out are no more than are written. -/
theorem evalItems (scope : ScopeRef) (done : List Value) (items : List Item) :
    Upholds Machine.Fits (fun vs => (items.all fun | .mk spread _ => !spread) = true →
      vs.length = done.length + items.length) (Run.evalItems ev scope done items) := by
  induction items generalizing done with
  | nil => exact pure fun _ => List.length_reverse
  | cons item rest ih =>
    obtain ⟨spread, e⟩ := item
    refine bind (h.eval e scope) fun v _ => ?_
    cases spread with
    | true => exact bind (iterate v) fun xs _ => (ih _).imp fun vs _ hall => nomatch hall
    | false =>
      refine (ih (v :: done)).imp fun vs hvs hall => (hvs hall).trans ?_
      rw [List.length_cons, List.length_cons]
      omega

/-- The elements of an array that is written out are no more than an array may have. -/
theorem evalExpr {e : Expr} (he : e.isBounded = true) (scope : ScopeRef) :
    Upholds Machine.Fits Any (Run.evalExpr ev e scope) := by
  refine h.sustains.evalExprOf e trivial fun items heq => ?_
  subst heq
  obtain ⟨hlength, hall⟩ := Bool.and_eq_true_iff.mp he
  refine bind (h.evalItems scope [] items) fun vs hvs => Fitting.makeArray ?_
  unfold IsShort
  rw [hvs hall, List.length_nil, Nat.zero_add]
  exact of_decide_eq_true hlength

theorem assignItems (scope : ScopeRef) {items : List Item}
    (hi : (items.all fun | .mk spread _ => !spread) = true) (vs : List Value) :
    Upholds Machine.Fits Any (Run.assignItems ev scope items vs) := by
  induction items generalizing vs with
  | nil => exact pure trivial
  | cons item rest ih =>
    obtain ⟨spread, e⟩ := item
    cases spread with
    | true => exact nomatch hi
    | false => exact bind (h.assign e _ scope) fun _ _ => ih hi _

theorem assignExpr {target : Expr} (ht : target.isBounded = true) (v : Value) (scope : ScopeRef) :
    Upholds Machine.Fits Any (Run.assignExpr ev target v scope) := by
  refine h.sustains.assignExprOf target v trivial (fun name _ => DeclarationRules.assignName name v trivial)
    (fun o key => Fitting.setMember o key v) fun items heq => ?_
  subst heq
  exact bind (iterate v) fun xs _ => h.assignItems scope (Bool.and_eq_true_iff.mp ht).2 _

-- Calls, whose arguments are no more than an array may have.

omit h in
theorem isShort_tail (vs : List Value) (hs : IsShort vs) : IsShort vs.tail := by
  unfold IsShort at hs ⊢
  rw [List.length_tail]
  omega

/-- A call within the bounds makes no array longer than the longest one. -/
theorem runCall {f : Value} {arguments : List Value} (hf : f.isBounded arguments = true)
    (receiver : Value) : Upholds Machine.Fits Any (Run.call ev f receiver arguments) := by
  obtain ⟨ha, hf⟩ := Value.isBounded_iff.mp hf
  refine Upholds.call f receiver arguments fun g identity heq => ?_
  subst heq
  refine h.sustains.callFunctionOf (fun _ => Fitting.makeArray) isShort_tail g receiver ha
    (fun _ _ => trivial) ?_ ?_ ?_
  · rintro b rfl
    exact Fitting.callBuiltin ev.call hf ha
  · rintro s m rfl
    exact Fitting.stringMethod (fun f vs => h.call f .undefined vs) s hf arguments
  · rintro a m rfl
    exact Fitting.arrayMethod h.call a hf arguments

theorem runConstruct {f : Value} {arguments : List Value} (hf : f.isBounded arguments = true)
    (label : String) : Upholds Machine.Fits Any (Run.construct ev f arguments label) := by
  obtain ⟨ha, -⟩ := Value.isBounded_iff.mp hf
  exact h.sustains.constructOf (fun _ => Fitting.makeArray) isShort_tail f ha label
    (fun _ _ => trivial) (fun b => Fitting.constructBuiltin b ha)
    fun _ _ _ ho _ => InstanceCondition.makeInstance ho

/-- One level more keeps within the bound, watched where nothing looks at the size. -/
theorem bounded_layer : ev.layer.bounded.Fits where
  eval _ scope := Fitting.watchedUnless fun he => h.evalExpr he scope
  assign _ v scope := Fitting.watchedUnless fun ht => h.assignExpr ht v scope
  exec s _ := h.sustains.execStmt s trivial fun _ _ => trivial
  call _ receiver _ := Fitting.watchedUnless fun hf => h.runCall hf receiver
  construct _ _ label := Fitting.watchedUnless fun hf => h.runConstruct hf label

end Evaluator.Fits

/-- Evaluation that is watched where nothing looks at the size of arrays keeps them within the longest one,
by induction on the depth. -/
theorem boundedEvaluator_fits (n : Nat) : (boundedEvaluator n).Fits := by
  induction n with
  | zero =>
    exact
      { eval := fun _ _ => Upholds.throw _
        assign := fun _ _ _ => Upholds.throw _
        exec := fun _ _ => Upholds.throw _
        call := fun _ _ _ => Upholds.throw _
        construct := fun _ _ _ => Upholds.throw _ }
  | succ n ih => exact ih.bounded_layer

theorem Job.fits_of_staysBounded {j : Job} (h : j.StaysBounded) : (finalState j.run).Fits := by
  have hstart : (Machine.start j.stdin j.checkpoints).Fits := fun _ hxs => nomatch hxs
  have hfits := boundedEvaluator_fits (depthBound (j.checkpoints + 1) j.statements)
  have hends := hfits.sustains.programBy trivial j.statements (fun _ _ => trivial) _ hstart
  rw [← Job.runBounded_eq_run h]
  exact hends.final

structure RefusesLongArrays : Prop where
  /-- More elements are put at either end. -/
  ends : ∀ call a arguments (m : Machine), maxArraySize < (m.heap.items a).size + arguments.length →
    Run.arrayMethod call a .push arguments m = .error (.raised .arrayLength) m ∧
    Run.arrayMethod call a .unshift arguments m = .error (.raised .arrayLength) m
  /-- An element is stored behind the last one that there may be. -/
  item : ∀ a i v m, maxArraySize ≤ i → Run.setItem a i v m = .error (.raised .arrayLength) m
  /-- The length is set. -/
  length : ∀ a x m, maxArraySize < Number.toNatClamped x →
    Run.setLength a x m = .error (.raised .arrayLength) m
  /-- An array is made of a given length. -/
  made : ∀ x m, maxArraySize < Number.toNatClamped x →
    Run.newArray [.number x] m = .error (.raised .arrayLength) m
  report : RuntimeError.arrayLength.report = "RangeError: Invalid array length"

/-- More elements at either end, an element behind the last place, and lengths beyond the longest are
refused. -/
theorem refusesLongArrays : RefusesLongArrays where
  ends _ _ _ _ h := ⟨run_bind_error (Fitting.run_checkGrowth_full h),
    run_bind_error (Fitting.run_checkGrowth_full h)⟩
  item a i v m h := by
    unfold Run.setItem
    rw [if_pos h]
    rfl
  length a x m h := by
    unfold Run.setLength
    rw [if_pos (by simp [h])]
    rfl
  made x m h := by
    unfold Run.newArray
    dsimp only
    rw [if_pos (by simp [h])]
    rfl
  report := rfl

structure RefusesLongTexts : Prop where
  made : ∀ s m, maxStringSize < s.utf8ByteSize → Run.makeString s m = .error (.raised .stringLength) m
  operators : ∀ op v w, GivesShort (Run.binary op v w)
  templates : ∀ ev pieces scope, GivesShort (Run.evalExpr ev (.template pieces) scope)
  /-- The methods of a string that is not beyond the bound itself. -/
  methods : ∀ call s (m : StringMethod) arguments, IsShortText s → m.givesShort = true →
    GivesShort (Run.stringMethod call s m arguments)
  parts : ∀ call s arguments, IsShortText s →
    GivesShortParts (Run.stringMethod call s .split arguments)
  /-- The text of an array, with any separator. -/
  joins : ∀ call a arguments, GivesShort (Run.arrayMethod call a .join arguments) ∧
    GivesShort (Run.arrayMethod call a .text arguments)
  /-- JSON text, a line of the standard input, and characters of codes. -/
  builtins : ∀ call arguments, GivesShort (Run.callBuiltin call .jsonText arguments) ∧
    GivesShort (Run.callBuiltin call .prompt arguments) ∧
    GivesShort (Run.callBuiltin call .fromCharCode arguments)
  report : RuntimeError.stringLength.report = "RangeError: Invalid string length"

/-- All operations that put texts together refuse to make one that is too long. -/
theorem refusesLongTexts : RefusesLongTexts where
  made _ m h := GivesShort.run_makeString_full h m
  operators := GivesShort.binary
  templates ev pieces scope := GivesShort.template ev pieces scope
  methods call _ _ arguments hs hm := GivesShort.stringMethod call hs hm arguments
  parts _ _ arguments hs := GivesShortParts.splitParts hs arguments
  joins := GivesShort.join
  builtins := GivesShort.callBuiltin
  report := rfl

/-- Where sizes are looked at they are kept. At the end of a run with any number of checkpoints, and so at
every checkpoint of a longer run, no array is longer than the longest one unless one was left behind by what
does not look at sizes; between checkpoints it is the same for every part of the script that is evaluated.
What is looked at and is too long is refused. -/
theorem sizes_are_kept_where_looked_at (j : Job) :
    (j.StaysBounded → (finalState j.run).Fits) ∧
      (∀ n, (boundedEvaluator n).Fits) ∧ RefusesLongArrays ∧ RefusesLongTexts :=
  ⟨Job.fits_of_staysBounded, boundedEvaluator_fits, refusesLongArrays, refusesLongTexts⟩

/-- The script `[''].concat();` calls a method that does not look at sizes, but is not cut off. -/
example : ∃ m, Job.runBounded
    ⟨[.expr (.call (.member (.array [.mk false (.string "")]) (.named "concat") false) [] false)],
      "", 1⟩ = .ok () m :=
  ⟨_, rfl⟩

-- How large arrays become. Pushing and storing elements stop at the longest array, but joining
-- arrays does not look at it: an array that is joined to itself again and again is twice as long
-- each time.

/-- The statement `let a = [''];`. -/
def startingArray : Stmt := .decl .letDecl [(.name "a", some (.array [.mk false (.string "")]))]

/-- The function that `a.concat` names. -/
def ownConcat : Expr := .member (.name "a") (.named "concat") false

/-- The statement `a = a.concat(a);`. -/
def doubling : Stmt :=
  .expr (.assign none (.name "a") (.call ownConcat [.mk false (.name "a")] false))

/-- A script that doubles an array `k` times. -/
def doublings (k : Nat) : List Stmt := startingArray :: List.replicate k doubling

/-- In the only scope of a state the variable `a`, which may be assigned, is an array of `n` elements, and
no timers are set. -/
structure Machine.HasArray (m : Machine) (n : Nat) : Prop where
  variable_eq : ∃ a rest, m.heap.scopes = #[{ bindings := ("a", ⟨.array a, true⟩) :: rest }] ∧
    (m.heap.items a).size = n
  pending_eq : m.timers.pending = []

section Doubling

variable {m : Machine} {a : ArrayRef} {rest : List (String × Binding)}

theorem resolve?_first {h : Heap} {b : Binding} (hs : h.scopes = #[{ bindings := ("a", b) :: rest }]) :
    h.resolve? globalScope "a" = some (globalScope, b) := by
  have hscope : h.scope globalScope = { bindings := ("a", b) :: rest } := by
    unfold Heap.scope
    rw [hs]
    rfl
  unfold Heap.resolve? Heap.resolveWithin?
  dsimp only
  rw [hscope]
  rfl

theorem evalName_first (hs : m.heap.scopes = #[{ bindings := ("a", ⟨.array a, true⟩) :: rest }]) :
    Run.evalName globalScope "a" m = .ok (.array a) m := by
  have hlookup : Run.lookup? globalScope "a" m = .ok (some (.array a)) m := by
    unfold Run.lookup? Heap.lookup?
    rw [resolve?_first hs]
    rfl
  exact run_bind_ok hlookup

/-- The value of `a.concat(a)`. -/
theorem evalCall_ownConcat (n : Nat) {c : Nat} (hc : m.checkpoints = c + 1)
    (hs : m.heap.scopes = #[{ bindings := ("a", ⟨.array a, true⟩) :: rest }]) :
    Run.evalCall (evaluator (n + 1)) globalScope ownConcat [.mk false (.name "a")] false m =
      Run.makeArrayOf (m.heap.items a ++ m.heap.items a)
        { m with checkpoints := c, identities := m.identities + 1 } := by
  have hcallee : Run.evalCallee (evaluator (n + 1)) globalScope ownConcat m =
      .ok (some (.function (.arrayMethod a .concat) m.identities, .array a))
        { m with identities := m.identities + 1 } :=
    run_bind_ok (evalName_first hs)
  have harguments : Run.evalItems (evaluator (n + 1)) globalScope [] [.mk false (.name "a")]
      { m with identities := m.identities + 1 } =
        .ok [.array a] { m with identities := m.identities + 1 } :=
    run_bind_ok (evalName_first hs)
  refine (run_bind_ok hcallee).trans ((run_bind_ok harguments).trans ?_)
  exact run_checkpoint_succ (m := { m with identities := m.identities + 1 }) hc

/-- One doubling. -/
theorem exec_doubling (n k : Nat) {c : Nat} (hc : m.checkpoints = c + 1) (hm : m.HasArray k) :
    ∃ m', (evaluator (n + 4)).exec doubling globalScope m = .ok .normal m' ∧
      m'.checkpoints = c ∧ m'.HasArray (2 * k) := by
  obtain ⟨⟨a, rest, hs, hk⟩, htimers⟩ := hm
  let joined := m.heap.items a ++ m.heap.items a
  let made : Value := .array ⟨m.heap.arrays.size⟩
  let heap : Heap := { m.heap with arrays := m.heap.arrays.push joined }
  let m' : Machine :=
    { m with
      checkpoints := c
      identities := m.identities + 1
      charged := m.charged + (32 + joined.size * 16)
      heap }
  have hvalue : Run.evalCall (evaluator (n + 1)) globalScope ownConcat [.mk false (.name "a")] false m =
      .ok made m' := evalCall_ownConcat n hc hs
  have hassign : Run.assignName "a" made globalScope m' =
      .ok () { m' with heap := heap.declare globalScope "a" ⟨made, true⟩ } := by
    refine (run_bind_ok (show Run.heap m' = .ok heap m' from rfl)).trans ?_
    rw [resolve?_first (h := heap) hs]
    rfl
  have hassigned : Run.evalAssign (evaluator (n + 2)) globalScope none (.name "a")
      (.call ownConcat [.mk false (.name "a")] false) m =
        .ok made { m' with heap := heap.declare globalScope "a" ⟨made, true⟩ } :=
    (run_bind_ok hvalue).trans (run_bind_ok hassign)
  have heval : discard ((evaluator (n + 3)).eval
      (.assign none (.name "a") (.call ownConcat [.mk false (.name "a")] false)) globalScope) m =
        .ok () { m' with heap := heap.declare globalScope "a" ⟨made, true⟩ } :=
    run_bind_ok hassigned
  -- The new array stands behind all others, and the variable holds it from now on.
  refine ⟨_, run_bind_ok heval, rfl, ⟨⟨m.heap.arrays.size⟩, rest, ?_, ?_⟩, htimers⟩
  · change m.heap.scopes.modify 0 (fun scope => scope.declare "a" ⟨made, true⟩) = _
    rw [hs]
    rfl
  · change ((m.heap.arrays.push joined).getD m.heap.arrays.size #[]).size = 2 * k
    rw [Array.getD_eq_getD_getElem?, Array.getElem?_push_size]
    change (m.heap.items a ++ m.heap.items a).size = 2 * k
    rw [Array.size_append, hk]
    omega

/-- Any number of doublings, by induction on it. -/
theorem execEach_doublings (n k : Nat) {i c : Nat} (hc : m.checkpoints = c + k) (hm : m.HasArray i) :
    ∃ m', Run.execEach (evaluator (n + 4)) globalScope (List.replicate k doubling) m =
        .ok .normal m' ∧ m'.checkpoints = c ∧ m'.HasArray (2 ^ k * i) := by
  induction k generalizing m i with
  | zero => exact ⟨m, rfl, hc, (Nat.one_mul i).symm ▸ hm⟩
  | succ k ih =>
    obtain ⟨m₁, hexec, hc₁, hm₁⟩ := exec_doubling n i (c := c + k) hc hm
    obtain ⟨m', hrest, hc', hm'⟩ := ih hc₁ hm₁
    refine ⟨m', (run_bind_ok hexec).trans hrest, hc', ?_⟩
    rw [Nat.pow_succ, Nat.mul_assoc]
    exact hm'

theorem exec_startingArray (n c : Nat) :
    ∃ m, (evaluator (n + 4)).exec startingArray globalScope (Machine.start "" c) = .ok .normal m ∧
      m.checkpoints = c ∧ m.HasArray 1 :=
  ⟨_, rfl, rfl, ⟨⟨0⟩, _, rfl, rfl⟩, rfl⟩

theorem hoist_doublings (k : Nat) (m : Machine) :
    Run.hoist globalScope (doublings k) m = .ok () m := by
  change Run.hoist globalScope (List.replicate k doubling) m = .ok () m
  induction k with
  | zero => rfl
  | succ k ih => exact ih

end Doubling

/-- A script that doubles an array `k` times ends normally with an array of `2 ^ k` elements, if it is given
as many checkpoints. -/
theorem program_doublings (k : Nat) :
    ∃ m, Run.program (doublings k) (Machine.start "" k) = .ok () m ∧ m.HasArray (2 ^ k) := by
  have hdepth : 4 ≤ depthBound (k + 1) (doublings k) :=
    Nat.mul_le_mul (Nat.le_add_left 2 (k + 1)) (Nat.le_add_left 2 _)
  obtain ⟨n, hn⟩ := Nat.exists_eq_add_of_le' hdepth
  obtain ⟨m₁, hstart, hc₁, hm₁⟩ := exec_startingArray n k
  obtain ⟨m, hexec, -, hm⟩ := execEach_doublings n k (c := 0) (by omega) hm₁
  rw [Nat.mul_one] at hm
  have hmain : discard (Run.execAll (evaluator (n + 4)) (doublings k) globalScope)
      (Machine.start "" k) = .ok () m :=
    run_bind_ok ((run_bind_ok (hoist_doublings k _)).trans ((run_bind_ok hstart).trans hexec))
  refine ⟨m, ?_, hm⟩
  change Run.programBy (evaluator (depthBound (k + 1) (doublings k))) (doublings k) _ = _
  rw [hn]
  -- No timers are set, so the script ends with its statements.
  exact (run_bind_ok hmain).trans (runTimers_done _ m.checkpoints hm.pending_eq)

/-- No size is enough for all arrays, also where the script ends normally. -/
theorem arrays_grow_without_bound :
    ¬ ∃ n, ∀ statements stdin c m, Run.program statements (Machine.start stdin c) = .ok () m →
      ∀ xs ∈ m.heap.arrays, xs.size ≤ n := by
  rintro ⟨n, hn⟩
  obtain ⟨m, hrun, ⟨a, rest, -, hsize⟩, -⟩ := program_doublings n
  -- `n` doublings are enough, as `n < 2 ^ n`.
  have hlong : n < (m.heap.items a).size := hsize ▸ Nat.lt_two_pow_self
  unfold Heap.items at hlong
  rw [Array.getD_eq_getD_getElem?] at hlong
  cases hitems : m.heap.arrays[a.address]? with
  | none =>
    rw [hitems] at hlong
    exact absurd hlong (Nat.not_lt_zero n)
  | some xs =>
    rw [hitems] at hlong
    have hle := hn (doublings n) "" n m hrun xs (Array.mem_of_getElem? hitems)
    exact absurd hlong (Nat.not_lt_of_le hle)

end Snippet.Script
