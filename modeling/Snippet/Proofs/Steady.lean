import Snippet.Proofs.History
import Snippet.Proofs.QuietBuiltin

/-!
Steady computations: those that pass no checkpoint and neither enter nor leave a call. They may print,
read, draw random numbers and work on the timers, but whatever they do does not depend on the checkpoints
that are left. All quiet computations are steady.
-/

namespace Snippet.Script

structure Machine.Reaches (P : Command → Prop) (m m' : Machine) : Prop where
  -- What evaluation comes to: around the store nothing happens but by commands of a kind, no
  -- checkpoint is gained, and every call that was entered is left again.
  outside : m.outside.Leads P m'.outside
  checkpoints : m'.checkpoints ≤ m.checkpoints
  callDepth : m'.callDepth = m.callDepth

namespace Machine

variable {P P' : Command → Prop} {m m' m'' : Machine}

theorem reaches_refl (m : Machine) : m.Reaches P m := ⟨.refl _, Nat.le_refl _, rfl⟩

theorem Reaches.trans (h : m.Reaches P m') (h' : m'.Reaches P m'') : m.Reaches P m'' :=
  ⟨h.outside.trans h'.outside, Nat.le_trans h'.checkpoints h.checkpoints,
    h'.callDepth.trans h.callDepth⟩

theorem Reaches.mono (h : m.Reaches P m') (hP : ∀ c, P c → P' c) : m.Reaches P' m' :=
  ⟨h.outside.mono hP, h.checkpoints, h.callDepth⟩

def allowing (m : Machine) (n : Nat) : Machine := { m with checkpoints := n }

def atDepth (m : Machine) (n : Nat) : Machine := { m with callDepth := n }

def reading (m : Machine) (s : Stdin) : Machine := { m with stdin := s }

end Machine

-- What the steps come to that are not steady: checkpoints, calls, and the outcomes of computations.

section Steps

variable {α β : Type} {m m' : Machine} {x : Run α}

theorem run_checkpoint_zero (h : m.checkpoints = 0) :
    (Run.checkpoint >>= fun _ => x) m = .error (.timeout m) m := by
  apply run_bind_error
  unfold Run.checkpoint
  rw [h]

theorem run_checkpoint_succ {n : Nat} (h : m.checkpoints = n + 1) :
    (Run.checkpoint >>= fun _ => x) m = x (m.allowing n) := by
  have hpass : Run.checkpoint m = .ok () (m.allowing n) := by
    unfold Run.checkpoint
    rw [h]
    rfl
  exact run_bind_ok hpass

theorem run_nested_full (h : maxCallDepth ≤ m.callDepth) :
    Run.nested x m = .error (.raised .stackOverflow) m :=
  if_pos h

theorem run_nested (h : m.callDepth < maxCallDepth) :
    Run.nested x m = onState (fun m' => m'.atDepth (m'.callDepth - 1))
      (x (m.atDepth (m.callDepth + 1))) := by
  have hinside : x { m with callDepth := m.callDepth + 1 } = x (m.atDepth (m.callDepth + 1)) := rfl
  unfold Run.nested
  rw [if_neg (Nat.not_le_of_lt h), hinside]
  cases x (m.atDepth (m.callDepth + 1)) <;> rfl

theorem run_outcome_ok {f : Except Fault α → Run β} {a : α} (h : x m = .ok a m') :
    (Run.outcome x >>= f) m = f (.ok a) m' := by
  apply run_bind_ok
  unfold Run.outcome
  rw [h]

theorem run_outcome_error {f : Except Fault α → Run β} {e : Fault} (h : x m = .error e m') :
    (Run.outcome x >>= f) m = f (.error e) m' := by
  apply run_bind_ok
  unfold Run.outcome
  rw [h]

def Machine.amid (m : Machine) (o : Outside) : Machine :=
  { m with transcript := o.transcript, stdin := o.stdin, timers := o.timers, random := o.random }

def Machine.prompted (m : Machine) : Machine := m.amid m.outside.afterPrompt

theorem run_popLine_cons {line : String} {rest : List String} (h : m.stdin.lines = line :: rest) :
    Run.popLine m = .ok (some line) { m with stdin := ⟨rest⟩ } := by
  unfold Run.popLine Stdin.pop
  rw [h]

theorem run_popLine_nil (h : m.stdin.lines = []) : Run.popLine m = .ok none m := by
  unfold Run.popLine Stdin.pop
  rw [h]

/-- Without a line there is nothing to read, and nothing changes. -/
theorem run_prompt_nil (h : m.stdin.lines = []) : Run.prompt m = .ok .null m :=
  run_bind_ok (run_popLine_nil h)

theorem Machine.prompted_cons {line : String} {rest : List String} (h : m.stdin.lines = line :: rest) :
    m.prompted = { m with transcript := m.transcript.pushLine line, stdin := ⟨rest⟩ } := by
  unfold Machine.prompted
  rw [Outside.afterPrompt_cons (o := m.outside) h]
  rfl

theorem run_prompt_cons {line : String} {rest : List String} (h : m.stdin.lines = line :: rest) :
    Run.prompt m = Run.makeString line m.prompted := by
  rw [Machine.prompted_cons h]
  exact run_bind_ok (run_popLine_cons h)

end Steps

-- What is true of how a computation ends, in terms of a relation `S` between the state before and
-- the one after it.

namespace Ends

variable {α β : Type} {V : α → Prop} {W : β → Prop} {E : Fault → Prop}
variable {S : Machine → Machine → Prop} {m : Machine} {x : Run α}

/-- What follows a state that was reached. -/
theorem trans {m' : Machine} {r : EStateM.Result Fault Machine α}
    (htrans : ∀ m'', S m' m'' → S m m'') (hr : Ends V E (S m') r) : Ends V E (S m) r :=
  hr.imp (fun _ ha => ha) (fun _ he => he) htrans

/-- Steps in sequence satisfy a relation between states that is transitive. -/
theorem bind {f : α → Run β} (htrans : ∀ m' m'', S m m' → S m' m'' → S m m'')
    (hx : Ends V E (S m) (x m))
    (hf : ∀ a m', V a → S m m' → Ends W E (S m') (f a m')) : Ends W E (S m) ((x >>= f) m) := by
  cases hr : x m with
  | ok a m' =>
    rw [hr] at hx
    rw [run_bind_ok hr]
    exact trans (fun m'' => htrans m' m'' hx.2) (hf a m' hx.1 hx.2)
  | error e m' =>
    rw [hr] at hx
    rw [run_bind_error hr]
    exact hx

/-- What is done with an outcome, where faults that end the run at once are handed on. -/
theorem outcome {f : Except Fault α → Run β} (htrans : ∀ m' m'', S m m' → S m' m'' → S m m'')
    (hx : Ends V E (S m) (x m))
    (hok : ∀ a m', V a → S m m' → Ends W E (S m') (f (.ok a) m'))
    (herror : ∀ e m', E e → e.isFinal = false → S m m' → Ends W E (S m') (f (.error e) m'))
    (hfinal : ∀ e, e.isFinal = true → f (.error e) = throw e) :
    Ends W E (S m) ((Run.outcome x >>= f) m) := by
  cases hr : x m with
  | ok a m' =>
    rw [hr] at hx
    rw [run_outcome_ok hr]
    exact trans (fun m'' => htrans m' m'' hx.2) (hok a m' hx.1 hx.2)
  | error e m' =>
    rw [hr] at hx
    rw [run_outcome_error hr]
    cases hend : e.isFinal with
    | true =>
      rw [hfinal e hend]
      exact hx
    | false => exact trans (fun m'' => htrans m' m'' hx.2) (herror e m' hx.1 hend hx.2)

/-- The inside of a call is one call deeper, and at its end the depth is taken back. -/
theorem nested (hfull : E (.raised .stackOverflow)) (hrefl : S m m)
    (hleave : ∀ m', S (m.atDepth (m.callDepth + 1)) m' → S m (m'.atDepth (m'.callDepth - 1)))
    (hx : Ends V E (S (m.atDepth (m.callDepth + 1))) (x (m.atDepth (m.callDepth + 1)))) :
    Ends V E (S m) (Run.nested x m) := by
  by_cases hdepth : maxCallDepth ≤ m.callDepth
  · rw [run_nested_full hdepth]
    exact ⟨hfull, hrefl⟩
  · rw [run_nested (Nat.lt_of_not_le hdepth)]
    cases hr : x (m.atDepth (m.callDepth + 1)) with
    | ok a m' =>
      rw [hr] at hx
      exact ⟨hx.1, hleave m' hx.2⟩
    | error e m' =>
      rw [hr] at hx
      exact ⟨hx.1, hleave m' hx.2⟩

end Ends

/-- A fault that a script may handle is one of its own. -/
theorem Fault.plain_of_not_final {e : Fault} (he : e.isFinal = false) : e.Plain Any := by
  cases e with
  | raised e => trivial
  | thrown v => exact v.holds_any
  | _ => exact Bool.noConfusion he

def Steady (Q : Func → Prop) (P : Command → Prop) {α : Type} (V : α → Prop) (x : Run α) : Prop :=
  -- A computation that passes no checkpoint, comes to the same with any number of checkpoints left,
  -- and does nothing around the store but by commands of a kind.
  ∀ m : Machine, m.Holds Q →
    Ends V (Fault.Ordinary Q) (fun m' => m'.Holds Q ∧ m.Reaches P m') (x m) ∧
      ∀ n, x (m.allowing n) = onState (fun m => m.allowing n) (x m)

def Deaf {α : Type} (x : Run α) : Prop :=
  ∀ (m : Machine) (s : Stdin), x (m.reading s) = onState (fun m => m.reading s) (x m)

variable {Q : Func → Prop} {P : Command → Prop}

/-- Whatever is around the store stays as it is in a quiet computation. -/
theorem Quiet.eq_over {α : Type} {V : α → Prop} {x : Run α} (hx : Quiet Q V x) {m : Machine}
    (hm : m.heap.Holds Q) : x m = onState (fun m' => m'.over m) (x m) :=
  (hx m hm).2 m

/-- A quiet computation is steady: it does not even print. -/
theorem Quiet.steady {α : Type} {V : α → Prop} {x : Run α} (hx : Quiet Q V x) : Steady Q P V x := by
  intro m hm
  obtain ⟨hs, ho⟩ := hx m hm.heap
  have hover := ho m
  refine ⟨?_, fun n => ?_⟩
  · change x m = _ at hover
    cases h : x m with
    | ok a m' =>
      rw [h] at hover hs
      obtain ⟨-, hm'⟩ := EStateM.Result.ok.inj hover
      rw [hm']
      exact ⟨hs.1, ⟨hs.2, hm.timers⟩, ⟨.refl m.outside, Nat.le_refl _, rfl⟩⟩
    | error e m' =>
      rw [h] at hover hs
      obtain ⟨-, hm'⟩ := EStateM.Result.error.inj hover
      rw [hm']
      exact ⟨hs.1, ⟨hs.2, hm.timers⟩, ⟨.refl m.outside, Nat.le_refl _, rfl⟩⟩
  · have hallow := ho (m.allowing n)
    change x (m.allowing n) = _ at hallow
    change x m = _ at hover
    rw [hallow, hover]
    cases x m <;> rfl

namespace Steady

theorem mono {P' : Command → Prop} {α : Type} {V : α → Prop} {x : Run α} (hx : Steady Q P V x)
    (hP : ∀ c, P c → P' c) : Steady Q P' V x := by
  intro m hm
  obtain ⟨hends, hallow⟩ := hx m hm
  exact ⟨hends.imp (fun _ h => h) (fun _ h => h) fun _ h => ⟨h.1, h.2.mono hP⟩, hallow⟩

/-- A sequence of steady computations is steady. -/
theorem bind {α β : Type} {V : α → Prop} {W : β → Prop} {x : Run α} {f : α → Run β} (hx : Steady Q P V x)
    (hf : ∀ a, V a → Steady Q P W (f a)) : Steady Q P W (x >>= f) := by
  intro m hm
  obtain ⟨hends, hallow⟩ := hx m hm
  cases hr : x m with
  | ok a m' =>
    rw [hr] at hends hallow
    obtain ⟨ha, hm', hreaches⟩ := hends
    obtain ⟨hrest, hallow'⟩ := hf a ha m' hm'
    rw [run_bind_ok hr]
    refine ⟨hrest.imp (fun _ h => h) (fun _ h => h) fun _ h => ⟨h.1, hreaches.trans h.2⟩, fun n => ?_⟩
    exact (run_bind_ok (hallow n)).trans (hallow' n)
  | error e m' =>
    rw [hr] at hends hallow
    rw [run_bind_error hr]
    exact ⟨hends, fun n => run_bind_error (hallow n)⟩

/-- A change around the store that is a command, of which the timers hold what they may. -/
theorem reaches_after {c : Command} (hc : P c) {m m' : Machine} (ho : m'.outside = m.outside.after c)
    (hcheckpoints : m'.checkpoints = m.checkpoints) (hdepth : m'.callDepth = m.callDepth) :
    m.Reaches P m' :=
  ⟨ho ▸ .command hc m.outside, Nat.le_of_eq hcheckpoints, hdepth⟩

theorem pushLine (channel : Channel) (line : String) :
    Steady Q Command.IsCall Any (Run.modifyTranscript fun t => t.pushLine line) :=
  fun _ hm =>
    ⟨⟨trivial, ⟨hm.heap, hm.timers⟩, reaches_after (c := .print channel line) trivial rfl rfl rfl⟩,
      fun _ => rfl⟩

/-- A line that is read is shown at once, and what is done with it then is quiet. -/
theorem prompt : Steady Q Command.IsCall (Value.Holds Q) Run.prompt := by
  intro m hm
  have hreaches : m.Reaches Command.IsCall m.prompted := reaches_after (c := .prompt) trivial rfl rfl rfl
  have htimers : m.prompted.timers = m.timers := m.outside.afterPrompt_timers
  cases hlines : m.stdin.lines with
  | nil =>
    rw [run_prompt_nil hlines]
    exact ⟨⟨trivial, hm, m.reaches_refl⟩, fun n => run_prompt_nil (m := m.allowing n) hlines⟩
  | cons line rest =>
    obtain ⟨hends, hallow⟩ :=
      (Quiet.makeString line).steady (Q := Q) (P := Command.IsCall) m.prompted
        ⟨hm.heap, htimers ▸ hm.timers⟩
    rw [run_prompt_cons hlines]
    refine ⟨hends.imp (fun _ h => h) (fun _ h => h) fun _ h => ⟨h.1, hreaches.trans h.2⟩, fun n => ?_⟩
    exact (run_prompt_cons (m := m.allowing n) hlines).trans (hallow n)

theorem random : Steady Q Command.IsCall Any Run.random :=
  fun _ hm =>
    ⟨⟨trivial, ⟨hm.heap, hm.timers⟩, reaches_after (c := .draw) trivial rfl rfl rfl⟩, fun _ => rfl⟩

/-- Setting a timer for a function that the run holds. -/
theorem schedule {callback : Value} (hc : callback.Holds Q) (delay : Float) {arguments : List Value}
    (ha : AllHold Q arguments) (repeated : Bool) :
    Steady Q Command.IsCall (Value.Holds Q) (fun m =>
      let (id, timers) := m.timers.schedule callback delay arguments repeated
      .ok (.ofNat id.toNat) { m with timers }) := by
  intro m hm
  refine ⟨⟨trivial, ⟨hm.heap, ?_⟩, ?_⟩, fun _ => rfl⟩
  · intro t ht
    obtain rfl | ht := List.mem_cons.mp ht
    · exact ⟨hc, ha⟩
    · exact hm.timers t ht
  · exact reaches_after (c := .schedule callback delay arguments repeated) trivial rfl rfl rfl

theorem cancel (id : UInt32) :
    Steady Q Command.IsCall (Value.Holds Q)
      (fun m => .ok .undefined { m with timers := m.timers.cancel id }) := by
  intro m hm
  refine ⟨⟨trivial, ⟨hm.heap, ?_⟩, reaches_after (c := .cancel id) trivial rfl rfl rfl⟩, fun _ => rfl⟩
  exact fun t ht => hm.timers t (List.mem_filter.mp ht).1

/-- The first timer is one of the timers. -/
theorem mem_of_first? {ts : List Timer} {t : Timer} (h : Timers.first? ts = some t) : t ∈ ts := by
  induction ts generalizing t with
  | nil => simp [Timers.first?] at h
  | cons t' rest ih =>
    unfold Timers.first? at h
    split at h
    · obtain rfl := Option.some.inj h
      exact List.mem_cons_self
    · rename_i other hother
      obtain rfl := Option.some.inj h
      split
      · exact List.mem_cons_of_mem _ (ih hother)
      · exact List.mem_cons_self

/-- A timer whose turn it is was set before, and one that is set again is the same but for its time. -/
theorem holds_next? {ts ts' : Timers} {t : Timer} (hts : ∀ t ∈ ts.pending, t.Holds Q)
    (h : ts.next? = some (t, ts')) : t.Holds Q ∧ ∀ t ∈ ts'.pending, t.Holds Q := by
  unfold Timers.next? at h
  split at h
  · simp at h
  · rename_i first hfirst
    have ht : first.Holds Q := hts first (mem_of_first? hfirst)
    have hrest : ∀ t ∈ ts.pending.filter fun other => other.order != first.order, t.Holds Q :=
      fun t ht => hts t (List.mem_filter.mp ht).1
    dsimp only at h
    split at h
    · obtain ⟨rfl, rfl⟩ := Prod.mk.inj (Option.some.inj h)
      exact ⟨ht, hrest⟩
    · obtain ⟨rfl, rfl⟩ := Prod.mk.inj (Option.some.inj h)
      refine ⟨ht, fun t hm => ?_⟩
      obtain rfl | hm := List.mem_cons.mp hm
      · exact ht
      · exact hrest t hm

/-- Coming to the time of the first timer is a command of its own. -/
theorem nextTimer? :
    Steady Q Any (fun t? => ∀ t, t? = some t → t.Holds Q) Run.nextTimer? := by
  intro m hm
  have hallowing (n : Nat) : (m.allowing n).timers = m.timers := rfl
  unfold Run.nextTimer?
  simp only [hallowing]
  cases h : m.timers.next? with
  | none =>
    exact ⟨⟨(fun t ht => nomatch ht), hm, m.reaches_refl⟩, fun _ => rfl⟩
  | some found =>
    obtain ⟨t, timers⟩ := found
    obtain ⟨ht, htimers⟩ := holds_next? hm.timers h
    refine ⟨⟨?_, ⟨hm.heap, htimers⟩, reaches_after (c := .fire) trivial ?_ rfl rfl⟩, fun _ => rfl⟩
    · intro t' ht'
      obtain rfl := Option.some.inj ht'
      exact ht
    · change _ = { m.outside with timers := m.timers.fire }
      unfold Timers.fire
      rw [h]
      rfl

end Steady

end Snippet.Script
