import Snippet.Proofs.SimulationStatement

/-!
A simulation that relates two evaluators inside of functions and where built-in functions call back relates
the calls that they make, and so all of evaluation one level higher.
-/

namespace Snippet.Script

def Function.isScript : Function → Bool
  | .closure _ _ => true
  | .classDef _ _ => true
  | _ => false

def Value.isScript : Value → Bool
  | .function f _ => f.isScript
  | _ => false

def Function.hasEffect : Function → Bool
  | .builtin b => b.hasEffect
  | _ => false

def Value.hasEffect : Value → Bool
  | .function f _ => f.hasEffect
  | _ => false

def Function.isPrompt : Function → Bool
  | .builtin .prompt => true
  | _ => false

def Value.isPrompt : Value → Bool
  | .function f _ => f.isPrompt
  | _ => false

/-- One function only asks for a line. -/
theorem Value.exists_prompt {f : Value} (hf : f.isPrompt = true) :
    ∃ identity, f = .function (.builtin .prompt) identity := by
  cases f with
  | function f identity =>
    cases f with
    | builtin b =>
      cases b with
      | prompt => exact ⟨identity, rfl⟩
      | _ => exact Bool.noConfusion hf
    | _ => exact Bool.noConfusion hf
  | _ => exact Bool.noConfusion hf

def Evaluator.layerWith (ev : Evaluator) (call : Caller)
    (construct : Value → List Value → String → Run Value) : Evaluator where
  -- Evaluation by an evaluator for what is one level deeper, with given ways to call functions and
  -- to make objects.
  eval := Run.evalExpr ev
  assign := Run.assignExpr ev
  exec := Run.execStmt ev
  call
  construct

def Evaluator.layer (ev : Evaluator) : Evaluator := ev.layerWith (Run.call ev) (Run.construct ev)

theorem evaluator_succ (n : Nat) : evaluator (n + 1) = (evaluator n).layer := rfl

/-- Two evaluators that are related on the inside of every function of `Q`. -/
def BodiesRelated {Q : Func → Prop} {ι : Type} (C : Simulation Q ι) (i : ι) (ev ev' : Evaluator) :
    Prop :=
  ∃ W, EvaluatorsRelated C i W ev ev' ∧ ∀ f, Q f → ∀ p ∈ f.parts, W p

def Run.timerRound (ev : Evaluator) (again : Unit → Run Unit) (_ : Unit) : Run Unit := do
  if ← waiting then
    checkpoint
    match ← nextTimer? with
    | none => return
    | some timer =>
      discard (ev.call timer.callback .undefined timer.arguments)
      again ()
  else return

/-- Without timers nothing more is run. -/
theorem runTimers_done (ev : Evaluator) (n : Nat) {m : Machine} (h : m.timers.pending = []) :
    Run.runTimers ev (n + 1) m = .ok () m := by
  have hwaiting : Run.waiting m = .ok false m := by
    unfold Run.waiting
    rw [h]
    rfl
  exact run_bind_ok hwaiting

def Run.prepare (ev : Evaluator) (f : Func) (receiver : Value) (arguments : List Value) (scope : ScopeRef) :
    Run Unit := do
  unless f.arrow do
    declare scope "this" receiver false
    declare scope "arguments" (← makeArray arguments) true
  bindParams ev scope f.params arguments

def Run.runBody (ev : Evaluator) (body : Body) (scope : ScopeRef) : Run Value :=
  match body with
  | .value e => ev.eval e scope
  | .block statements => do
    match ← execAll ev statements scope with
    | .returned v => return v
    | _ => return .undefined

/-- A call makes a scope, declares in it what the function finds there and runs its body. -/
theorem invoke_eq (ev : Evaluator) (f : Func) (scope : ScopeRef) (receiver : Value) (arguments : List Value) :
    Run.invoke ev f scope receiver arguments = (do
      let scope ← Run.childScope scope
      Run.prepare ev f receiver arguments scope
      Run.runBody ev f.body scope) := by
  unfold Run.invoke Run.prepare Run.runBody
  refine congrArg (Run.childScope scope >>= ·) (funext fun scope => ?_)
  cases f.arrow <;> cases f.body <;> rfl

namespace EvaluatorsRelated

variable {Q : Func → Prop} {ι : Type} {C : Simulation Q ι} {i : ι} {W : Part → Prop}
variable {ev ev' : Evaluator}

/-- Binding the parameters respects a relation. A parameter may be filled, left to its default, or take the
rest. -/
theorem bindParams (h : EvaluatorsRelated C i W ev ev') {params : List Param}
    (hp : ∀ p ∈ params.flatMap Param.parts, W p) (scope : ScopeRef) {arguments : List Value}
    (ha : AllHold Q arguments) :
    C.Rel i Any (Run.bindParams ev scope params arguments)
      (Run.bindParams ev' scope params arguments) := by
  induction params generalizing arguments with
  | nil => exact C.pure trivial
  | cons param rest ih =>
    obtain ⟨target, default?, isRest⟩ := param
    rw [List.flatMap_cons] at hp
    have hrest := ih (fun p hm => hp p (List.mem_append_right _ hm)) (holds_tail ha)
    have hbind (v : Value) (hv : v.Holds Q) :
        C.Rel i Any
          (Run.bind scope true target v >>= fun _ =>
            Run.bindParams ev scope rest arguments.tail)
          (Run.bind scope true target v >>= fun _ =>
            Run.bindParams ev' scope rest arguments.tail) :=
      C.bind (C.quiet (Quiet.bindTarget scope true target hv)) fun _ _ => hrest
    have hdefault (e : Expr) (he : default? = some e) :
        C.Rel i Any
          (ev.eval e scope >>= fun v => Run.bind scope true target v >>= fun _ =>
            Run.bindParams ev scope rest arguments.tail)
          (ev'.eval e scope >>= fun v => Run.bind scope true target v >>= fun _ =>
            Run.bindParams ev' scope rest arguments.tail) := by
      subst he
      exact C.bind (h.eval e scope (hp _ (List.mem_append_left _ List.mem_cons_self))) hbind
    -- The value is the array of all arguments that are left or the first of them.
    cases isRest with
    | true =>
      refine C.bind (C.quiet (Quiet.makeArray ha)) fun v hv => ?_
      cases default? with
      | none => exact hbind v hv
      | some e =>
        cases v with
        | undefined => exact hdefault e rfl
        | _ => exact hbind _ hv
    | false =>
      have hv : (arguments.headD .undefined).Holds Q := holds_headD ha
      unfold Run.bindParams
      generalize arguments.headD .undefined = v at hv ⊢
      cases default? with
      | none => exact hbind v hv
      | some e =>
        cases v with
        | undefined => exact hdefault e rfl
        | _ => exact hbind _ hv

theorem prepare (h : EvaluatorsRelated C i W ev ev') {f : Func} (hf : ∀ p ∈ f.parts, W p) {receiver : Value}
    (hr : receiver.Holds Q) {arguments : List Value} (ha : AllHold Q arguments) (scope : ScopeRef) :
    C.Rel i Any (Run.prepare ev f receiver arguments scope) (Run.prepare ev' f receiver arguments scope) := by
  have hparams := h.bindParams (fun p hp => hf p (List.mem_append_left _ hp)) scope ha
  have hown : Quiet Q Any (Run.declare scope "this" receiver false >>= fun _ =>
      Run.makeArray arguments >>= fun v => Run.declare scope "arguments" v true) :=
    Quiet.bind (Quiet.declare scope "this" hr false) fun _ _ =>
      Quiet.bind (Quiet.makeArray ha) fun v hv => Quiet.declare scope "arguments" hv true
  -- Functions without an arrow declare their receiver and their arguments first.
  have hwith := C.bind (C.quiet hown) fun _ _ => hparams
  simp only [bind_assoc] at hwith
  exact C.ite (fun _ => hparams) fun _ => hwith

/-- The inside of a call of a function whose parts are in the class. -/
theorem invoke (h : EvaluatorsRelated C i W ev ev') {f : Func} (hf : ∀ p ∈ f.parts, W p)
    (scope : ScopeRef) {receiver : Value} (hr : receiver.Holds Q) {arguments : List Value}
    (ha : AllHold Q arguments) :
    C.Rel i (Value.Holds Q) (Run.invoke ev f scope receiver arguments)
      (Run.invoke ev' f scope receiver arguments) := by
  have hparts (p : Part) (hp : p ∈ f.body.parts) : W p := hf p (List.mem_append_right _ hp)
  have hbody (scope : ScopeRef) :
      C.Rel i (Value.Holds Q) (Run.runBody ev f.body scope) (Run.runBody ev' f.body scope) := by
    cases hb : f.body with
    | value e =>
      rw [hb] at hparts
      exact h.eval e scope (hparts _ List.mem_cons_self)
    | block statements =>
      rw [hb] at hparts
      refine C.bind (h.execAll hparts scope) fun flow hflow => ?_
      cases flow with
      | returned v => exact C.pure hflow
      | _ => exact C.pure trivial
  rw [invoke_eq, invoke_eq]
  refine C.bind (C.quiet (Quiet.childScope scope)) fun scope _ => ?_
  exact C.bind (h.prepare hf hr ha scope) fun _ _ => hbody scope

theorem callClosure (h : ∀ j, C.Inside i j → BodiesRelated C j ev ev') {f : Func} (hf : Q f)
    (scope : ScopeRef) {receiver : Value} (hr : receiver.Holds Q) {arguments : List Value}
    (ha : AllHold Q arguments) :
    C.Rel i (Value.Holds Q) (Run.callClosure ev f scope receiver arguments)
      (Run.callClosure ev' f scope receiver arguments) := by
  refine C.nested fun j hj => ?_
  obtain ⟨W, hev, hW⟩ := h j hj
  exact hev.invoke (hW f hf) scope hr ha

/-- What a function does: the functions of the script need their insides to be related, the others the
calls that they make. -/
theorem callFunction {f : Function} (hf : f.Holds Q) {receiver : Value} (hr : receiver.Holds Q)
    {arguments : List Value} (ha : AllHold Q arguments) (heffects : f.hasEffect = true → C.Effects i)
    (hreads : f.isPrompt = true → C.Reads i)
    (hscript : f.isScript = true → ∀ j, C.Inside i j → BodiesRelated C j ev ev')
    (hother : f.isScript = false → CallersRelated C i ev.call ev'.call) :
    C.Rel i (Value.Holds Q) (Run.callFunction ev f receiver arguments)
      (Run.callFunction ev' f receiver arguments) := by
  cases f with
  | closure f scope => exact callClosure (hscript rfl) hf scope hr ha
  | classDef c scope => exact C.raise rfl
  | builtin b =>
    refine C.callBuiltin (hother rfl) b heffects (fun hb => ?_) ha
    subst hb
    exact hreads rfl
  | stringMethod s m =>
    refine C.stringMethod (fun g vs hg hvs => ?_) s m ha
    exact hother rfl g .undefined vs hg holds_undefined hvs
  | arrayMethod a m => exact C.arrayMethod (hother rfl) a m ha
  | numberMethod x m => exact C.quiet (Quiet.numberMethod x m arguments)
  | boolText b => exact C.pure trivial
  | objectMethod o m =>
    cases m with
    | hasOwnProperty => exact C.quiet (Quiet.hasOwnEntry o arguments)
    | text => exact C.quiet (Quiet.bind (Quiet.toText _) fun _ _ => Quiet.pure trivial)

/-- A call, which comes after a checkpoint. -/
theorem runCall {f : Value} (hf : f.Holds Q) {receiver : Value} (hr : receiver.Holds Q)
    {arguments : List Value} (ha : AllHold Q arguments)
    (heffects : f.hasEffect = true → ∀ j, C.After i j → C.Effects j)
    (hreads : f.isPrompt = true → ∀ j, C.After i j → C.Reads j)
    (hscript : f.isScript = true →
      ∀ j k, C.After i j → C.Inside j k → BodiesRelated C k ev ev')
    (hother : f.isScript = false → ∀ j, C.After i j → CallersRelated C j ev.call ev'.call) :
    C.Rel i (Value.Holds Q) (Run.call ev f receiver arguments)
      (Run.call ev' f receiver arguments) := by
  have hraise (v : Value) : Quiet Q (Value.Holds Q)
      (Run.describe v >>= fun label => Run.raise (.notFunction label)) :=
    Quiet.bind (Quiet.describe v) fun _ _ => Quiet.raise rfl
  cases f with
  | function f identity =>
    -- Whatever the function does comes after the checkpoint.
    refine C.checkpoint fun j hj => ?_
    exact callFunction hf hr ha (fun he => heffects he j hj) (fun hp => hreads hp j hj)
      (fun hs k hk => hscript hs j k hj hk) fun hs => hother hs j hj
  | _ => exact C.quiet (hraise _)

/-- Making an instance respects a relation, as the constructor is run one call further in. -/
theorem instantiate (h : ∀ j, C.Inside i j → BodiesRelated C j ev ev') {c : ClassDef}
    (hc : ∀ f ∈ c.functions, Q f) (scope : ScopeRef) {arguments : List Value}
    (ha : AllHold Q arguments) :
    C.Rel i (Value.Holds Q) (Run.instantiate ev c scope arguments)
      (Run.instantiate ev' c scope arguments) := by
  have hmethods (e : String × Func) (he : e ∈ c.methods) : Q e.2 := by
    refine hc _ (List.mem_append_right _ (List.mem_append_left _ ?_))
    exact List.mem_map.mpr ⟨e, he, rfl⟩
  refine C.bind (C.quiet (Quiet.makeMethods scope hmethods)) fun methods hm => ?_
  have hmade : Object.Holds Q { className := some c.name, hidden := methods } :=
    ⟨fun e he => absurd he List.not_mem_nil, hm⟩
  refine C.bind (C.quiet (Quiet.makeObject hmade)) fun made hv => ?_
  cases hconstructor : c.constructor? with
  | none => exact C.pure hv
  | some f =>
    have hf : Q f := by
      refine hc f (List.mem_append_left _ ?_)
      rw [hconstructor]
      exact List.mem_cons_self
    have hcall := (C.compositional i).discard (callClosure h hf scope hv ha)
    exact C.bind hcall fun _ _ => C.pure hv

theorem constructByClosure (h : ∀ j, C.Inside i j → BodiesRelated C j ev ev') {f : Func} (hf : Q f)
    (scope : ScopeRef) {arguments : List Value} (ha : AllHold Q arguments) :
    C.Rel i (Value.Holds Q) (Run.constructByClosure ev f scope arguments)
      (Run.constructByClosure ev' f scope arguments) := by
  have hempty : Object.Holds Q { className := f.name? } := by
    constructor <;> exact fun e he => absurd he List.not_mem_nil
  refine C.bind (C.quiet (Quiet.makeObject hempty)) fun made hmade => ?_
  refine C.bind (callClosure h hf scope hmade ha) fun v _ => ?_
  cases v with
  | object o => exact C.pure trivial
  | array a => exact C.pure trivial
  | _ => exact C.pure hmade

/-- The making of an object, which comes after a checkpoint. -/
theorem runConstruct {f : Value} (hf : f.Holds Q) {arguments : List Value}
    (ha : AllHold Q arguments) (label : String)
    (hscript : f.isScript = true →
      ∀ j k, C.After i j → C.Inside j k → BodiesRelated C k ev ev') :
    C.Rel i (Value.Holds Q) (Run.construct ev f arguments label)
      (Run.construct ev' f arguments label) := by
  cases f with
  | function f identity =>
    refine C.checkpoint fun j hj => ?_
    cases f with
    | classDef c scope => exact instantiate (fun k hk => hscript rfl j k hj hk) hf scope ha
    | closure f scope =>
      refine C.ite (fun _ => C.raise rfl) fun _ => ?_
      exact constructByClosure (fun k hk => hscript rfl j k hj hk) hf scope ha
    | builtin b => exact C.quiet (Quiet.constructBuiltin b ha)
    | _ => exact C.raise rfl
  | _ => exact C.raise rfl

/-- Evaluation is related one level higher, on the class of parts whose own parts are in the class of the
level below. -/
theorem layerWith {W' : Part → Prop} (h : EvaluatorsRelated C i W ev ev')
    (hexpr : ∀ e, W' (.expr e) → ∀ p ∈ e.parts, W p)
    (hstmt : ∀ s, W' (.stmt s) → ∀ p ∈ s.parts, W p)
    (hassigned : ∀ e target, W' (.expr e) → e.assigned? = some target → C.Assigns target)
    (hparts : ∀ e, W' (.expr e) → ∀ p ∈ e.parts, W' p) (hfunctions : ∀ f, W' (.func f) → Q f)
    (hdeclared : ∀ f, W' (.stmt (.function f)) → Q f) {call call' : Caller}
    (hcall : W' .call → CallersRelated C i call call')
    {construct construct' : Value → List Value → String → Run Value}
    (hconstruct : W' .call → ∀ f arguments label, f.Holds Q → AllHold Q arguments →
      C.Rel i (Value.Holds Q) (construct f arguments label) (construct' f arguments label)) :
    EvaluatorsRelated C i W' (ev.layerWith call construct) (ev'.layerWith call' construct') where
  eval e scope he := h.evalExpr (hexpr e he) (fun target => hassigned e target he) scope
  assign e _ scope he ht hv := h.assignExpr (hexpr e he) ht hv scope
  exec s scope hs := h.execStmt (hstmt s hs) scope
  call := hcall
  construct := hconstruct
  parts := hparts
  functions := hfunctions
  declared := hdeclared

theorem layer {W' : Part → Prop} (h : EvaluatorsRelated C i W ev ev')
    (hexpr : ∀ e, W' (.expr e) → ∀ p ∈ e.parts, W p)
    (hstmt : ∀ s, W' (.stmt s) → ∀ p ∈ s.parts, W p)
    (hassigned : ∀ e target, W' (.expr e) → e.assigned? = some target → C.Assigns target)
    (hparts : ∀ e, W' (.expr e) → ∀ p ∈ e.parts, W' p) (hfunctions : ∀ f, W' (.func f) → Q f)
    (hdeclared : ∀ f, W' (.stmt (.function f)) → Q f) (heffects : ∀ j, C.After i j → C.Effects j)
    (hreads : ∀ j, C.After i j → C.Reads j)
    (hscript : W' .call → ∀ j k, C.After i j → C.Inside j k → BodiesRelated C k ev ev')
    (hother : W' .call → ∀ j, C.After i j → CallersRelated C j ev.call ev'.call) :
    EvaluatorsRelated C i W' ev.layer ev'.layer := by
  refine h.layerWith hexpr hstmt hassigned hparts hfunctions hdeclared ?_ ?_
  · intro hc f receiver arguments hf hr ha
    exact runCall hf hr ha (fun _ => heffects) (fun _ => hreads) (fun _ => hscript hc)
      fun _ => hother hc
  · intro hc f arguments label hf ha
    exact runConstruct hf ha label fun _ => hscript hc

/-- Running the timers respects a relation, as each of their rounds comes after a checkpoint. -/
theorem runTimers (h : EvaluatorsRelated C i W ev ev') (htimers : C.RunsTimers) (hcall : W .call) :
    C.Rel i Any (Run.rounds >>= fun n => Run.runTimers ev n)
      (Run.rounds >>= fun n => Run.runTimers ev' n) := by
  refine C.loop (f := fun n _ => Run.runTimers ev n) (g := fun n _ => Run.runTimers ev' n)
    (F := Run.timerRound ev) (G := Run.timerRound ev')
    (fun _ => rfl) (fun _ => rfl) (fun _ _ => rfl) (fun _ _ => rfl) ?_ ()
  intro j hj x y hxy _
  refine C.bind htimers.waiting fun waits _ => C.ite (fun _ => ?_) fun _ => C.pure trivial
  refine C.checkpoint fun k hk => ?_
  have hev := (h.within hj).later hk
  refine C.bind (htimers.next hk) fun timer? ht => ?_
  cases timer? with
  | none => exact C.pure trivial
  | some timer =>
    obtain ⟨hc, ha⟩ := ht timer rfl
    have hrun := (C.compositional k).discard
      (hev.call hcall timer.callback .undefined timer.arguments hc holds_undefined ha)
    exact C.bind hrun fun _ _ => hxy k hk ()

/-- Whole scripts. -/
theorem programBy (h : EvaluatorsRelated C i W ev ev') (htimers : C.RunsTimers) (hcall : W .call)
    (statements : List Stmt) (hs : ∀ p ∈ statements.map Part.stmt, W p) :
    C.Rel i Any (Run.programBy ev statements) (Run.programBy ev' statements) := by
  have hrun := (C.compositional i).discard (h.execAll hs globalScope)
  exact C.bind hrun fun _ _ => h.runTimers htimers hcall

end EvaluatorsRelated

/-- Evaluation of no depth is cut off at once, so it is related to every evaluator to which what is cut off
is related. -/
theorem evaluator_zero_related {ι : Type} {C : Simulation Any ι} {i : ι}
    (hcut : ∀ {α : Type} {V : α → Prop} (y : Run α), C.Rel i V (throw .exhausted) y)
    (ev : Evaluator) : EvaluatorsRelated C i Any (evaluator 0) ev where
  eval _ _ _ := hcut _
  assign _ _ _ _ _ _ := hcut _
  exec _ _ _ := hcut _
  call _ _ _ _ _ _ _ := hcut _
  construct _ _ _ _ _ _ := hcut _
  parts _ _ _ _ := trivial
  functions _ _ := trivial
  declared _ _ := trivial

/-- Evaluation of no depth is related to itself, on any class of parts, if what is cut off is. -/
theorem evaluator_zero_within {Q : Func → Prop} {ι : Type} {C : Simulation Q ι} {i : ι} {W : Part → Prop}
    (hcut : ∀ {α : Type} {V : α → Prop}, C.Rel i V (throw .exhausted : Run α) (throw .exhausted))
    (hparts : ∀ e, W (.expr e) → ∀ p ∈ e.parts, W p) (hfunctions : ∀ f, W (.func f) → Q f)
    (hdeclared : ∀ f, W (.stmt (.function f)) → Q f) :
    EvaluatorsRelated C i W (evaluator 0) (evaluator 0) where
  eval _ _ _ := hcut
  assign _ _ _ _ _ _ := hcut
  exec _ _ _ := hcut
  call _ _ _ _ _ _ _ := hcut
  construct _ _ _ _ _ _ := hcut
  parts := hparts
  functions := hfunctions
  declared := hdeclared

theorem evaluator_zero_self {ι : Type} {C : Simulation Any ι} {i : ι}
    (hcut : ∀ {α : Type} {V : α → Prop}, C.Rel i V (throw .exhausted : Run α) (throw .exhausted)) :
    EvaluatorsRelated C i Any (evaluator 0) (evaluator 0) :=
  evaluator_zero_within hcut (fun _ _ _ _ => trivial) (fun _ _ => trivial) fun _ _ => trivial

/-- Where all functions, all parts and all assignments are allowed, evaluators of any depth are related as
soon as the one of no depth is. -/
theorem evaluators_related {ι : Type} {C : Simulation Any ι} {k : Nat}
    (hfault : C.faults.Has (.raised .invalidTarget)) (heffects : ∀ i j, C.After i j → C.Effects j)
    (hreads : ∀ i j, C.After i j → C.Reads j)
    (hzero : ∀ i, EvaluatorsRelated C i Any (evaluator 0) (evaluator k)) (n : Nat) (i : ι) :
    EvaluatorsRelated C i Any (evaluator n) (evaluator (k + n)) := by
  induction n generalizing i with
  | zero => exact hzero i
  | succ n ih =>
    rw [← Nat.add_assoc, evaluator_succ, evaluator_succ]
    exact (ih i).layer (fun _ _ _ _ => trivial) (fun _ _ _ _ => trivial)
      (fun _ _ _ _ => Or.inr hfault) (fun _ _ _ _ => trivial)
      (fun _ _ => trivial) (fun _ _ => trivial) (heffects i) (hreads i)
      (fun _ _ k _ _ => ⟨Any, ih k, fun _ _ _ _ => trivial⟩) fun _ j _ => (ih j).call trivial

end Snippet.Script
