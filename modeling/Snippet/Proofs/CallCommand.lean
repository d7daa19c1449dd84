import Snippet.Proofs.Timeout

/-!
What a call does around the store. Of the built-in functions some print, read a line, draw a random number, set
a timer or take one back; which command such a call comes to is told by the function, its arguments and the
heap. A call does this command and nothing else around the store.
-/

namespace Snippet.Script

structure FunctionCall where
  callee : Value
  arguments : List Value
  state : Machine

namespace FunctionCall

def number? (c : FunctionCall) (i : Nat) : Option (Option Float) :=
  match Run.argument c.arguments i with
  | .undefined => some none
  | v => (c.state.heap.number? v).map some

def print? (c : FunctionCall) (channel : Channel) : Option Command :=
  match Run.consoleLine c.arguments c.state with
  | .ok line _ => some (.print channel line)
  | .error _ _ => none

def schedule? (c : FunctionCall) (repeated : Bool) : Option Command :=
  -- The timer that a call sets: for the function that is its first argument, after the delay that
  -- is the second one, and with the others as arguments.
  if (Run.argument c.arguments 0).isFunction then
    (c.number? 1).map fun delay =>
      .schedule (Run.argument c.arguments 0) (delay.getD 0.0) (c.arguments.drop 2) repeated
  else none

def cancel? (c : FunctionCall) : Option Command :=
  (c.number? 0).bind fun x => (x.bind timerId?).map .cancel

def command? (c : FunctionCall) : Option Command :=
  match c.callee with
  | .function (.builtin b) _ =>
    match b with
    | .print channel => c.print? channel
    | .prompt => some .prompt
    | .random => some .draw
    | .setTimeout => c.schedule? false
    | .setInterval => c.schedule? true
    | .clearTimeout | .clearInterval => c.cancel?
    | _ => none
  | _ => none

variable {c : FunctionCall} {command : Command}

theorem eq_print_of_print? {channel : Channel} (h : c.print? channel = some command) :
    ∃ line, command = .print channel line := by
  unfold print? at h
  split at h
  · exact ⟨_, (Option.some.inj h).symm⟩
  · cases h

theorem eq_schedule_of_schedule? {repeated : Bool} (h : c.schedule? repeated = some command) :
    ∃ callback delay arguments, command = .schedule callback delay arguments repeated := by
  unfold schedule? at h
  split at h
  · obtain ⟨delay, -, hcommand⟩ := Option.map_eq_some_iff.mp h
    exact ⟨_, _, _, hcommand.symm⟩
  · cases h

theorem eq_cancel_of_cancel? (h : c.cancel? = some command) : ∃ id, command = .cancel id := by
  obtain ⟨x, -, hid⟩ := Option.bind_eq_some_iff.mp h
  obtain ⟨id, -, hcommand⟩ := Option.map_eq_some_iff.mp hid
  exact ⟨id, hcommand.symm⟩

/-- The function that is called tells of what kind the command is. -/
theorem builtin_of_command? (h : c.command? = some command) :
    ∃ b identity, c.callee = .function (.builtin b) identity ∧
      match command with
      | .print channel _ => b = .print channel
      | .prompt => b = .prompt
      | .draw => b = .random
      | .schedule _ _ _ _ =>
        (b = .setTimeout ∧ c.schedule? false = some command) ∨
          (b = .setInterval ∧ c.schedule? true = some command)
      | .cancel _ => b = .clearTimeout ∨ b = .clearInterval
      | .fire => False := by
  -- The cases of the definition, one for each function that has an effect.
  unfold command? at h
  split at h
  · rename_i b identity hcallee
    refine ⟨b, identity, hcallee, ?_⟩
    split at h
    · obtain ⟨line, rfl⟩ := eq_print_of_print? h
      rfl
    · obtain rfl := Option.some.inj h
      rfl
    · obtain rfl := Option.some.inj h
      rfl
    · obtain ⟨callback, delay, arguments, rfl⟩ := eq_schedule_of_schedule? h
      exact Or.inl ⟨rfl, h⟩
    · obtain ⟨callback, delay, arguments, rfl⟩ := eq_schedule_of_schedule? h
      exact Or.inr ⟨rfl, h⟩
    · obtain ⟨id, rfl⟩ := eq_cancel_of_cancel? h
      exact Or.inl rfl
    · obtain ⟨id, rfl⟩ := eq_cancel_of_cancel? h
      exact Or.inr rfl
    · cases h
  · cases h

/-- Whatever a call does is a command of a call. -/
theorem isCall_of_command? (h : c.command? = some command) : command.IsCall := by
  obtain ⟨b, identity, -, hkind⟩ := builtin_of_command? h
  cases command with
  | fire => exact hkind
  | _ => trivial

end FunctionCall

-- What the functions do that do something around the store.

/-- Looking at the state, or adding to the heap, does nothing around the store. -/
theorem Quiet.outside_eq {α : Type} {V : α → Prop} {x : Run α} (hx : Quiet Any V x) (m : Machine) :
    (finalState (x m)).outside = m.outside := by
  have hover := hx.eq_over m.holds_any.heap
  cases hr : x m with
  | ok a m' =>
    rw [hr] at hover
    obtain ⟨-, hm'⟩ := EStateM.Result.ok.inj hover
    exact (congrArg Machine.outside hm').trans rfl
  | error e m' =>
    rw [hr] at hover
    obtain ⟨-, hm'⟩ := EStateM.Result.error.inj hover
    exact (congrArg Machine.outside hm').trans rfl

section Effects

variable (f : Value) (arguments : List Value) (m : Machine)

/-- A print adds its line to the transcript, if the line can be made. -/
theorem outside_print (channel : Channel) :
    (finalState (Run.print arguments m)).outside =
      m.outside.run (FunctionCall.print? ⟨f, arguments, m⟩ channel).toList := by
  have hquiet := (Quiet.consoleLine (Q := Any) arguments).outside_eq m
  unfold Run.print FunctionCall.print?
  dsimp only
  cases hr : Run.consoleLine arguments m with
  | error e m' =>
    rw [hr] at hquiet
    rw [run_bind_error hr]
    exact hquiet
  | ok line m' =>
    rw [hr] at hquiet
    rw [run_bind_ok hr]
    change { m'.outside with transcript := m'.outside.transcript.pushLine line } = _
    rw [show m'.outside = m.outside from hquiet]
    rfl

/-- A call for a line takes the first one that is left and shows it. -/
theorem outside_prompt : (finalState (Run.prompt m)).outside = m.outside.afterPrompt := by
  cases hlines : m.stdin.lines with
  | nil =>
    rw [run_prompt_nil hlines, Outside.afterPrompt_nil (o := m.outside) hlines]
    rfl
  | cons line rest =>
    rw [run_prompt_cons hlines]
    exact (Quiet.makeString (Q := Any) line).outside_eq m.prompted

/-- The number of an argument is that of the state, which stays as it is. -/
theorem run_numberArgument? (i : Nat) :
    Run.numberArgument? arguments i m =
      match FunctionCall.number? ⟨f, arguments, m⟩ i with
      | some x => .ok x m
      | none => .error .endless m := by
  unfold Run.numberArgument? FunctionCall.number?
  dsimp only
  generalize Run.argument arguments i = v
  have hnumber : (some <$> Run.toNumber v) m =
      match (m.heap.number? v).map some with
      | some x => .ok x m
      | none => .error .endless m := by
    rw [map_eq_bind]
    cases hx : m.heap.number? v with
    | some x => exact run_bind_ok (Quiet.run_toNumber hx)
    | none => exact run_bind_error (Quiet.run_toNumber_endless hx)
  cases v with
  | undefined => rfl
  | _ => exact hnumber

/-- A timer is set only for a function, with a delay that is a number. -/
theorem outside_setTimer (repeated : Bool) :
    (finalState (Run.setTimer repeated arguments m)).outside =
      m.outside.run (FunctionCall.schedule? ⟨f, arguments, m⟩ repeated).toList := by
  have hdelay := run_numberArgument? f arguments m 1
  unfold FunctionCall.schedule?
  by_cases hfunction : (Run.argument arguments 0).isFunction = true
  · rw [if_pos hfunction]
    cases hx : FunctionCall.number? ⟨f, arguments, m⟩ 1 with
    | some x =>
      rw [hx] at hdelay
      have hset : Run.setTimer repeated arguments m = _ :=
        (congrFun (if_pos hfunction) m).trans (run_bind_ok hdelay)
      rw [hset]
      rfl
    | none =>
      rw [hx] at hdelay
      have hset : Run.setTimer repeated arguments m = _ :=
        (congrFun (if_pos hfunction) m).trans (run_bind_error hdelay)
      rw [hset]
      rfl
  · have hset : Run.setTimer repeated arguments m = _ := congrFun (if_neg hfunction) m
    rw [hset, if_neg hfunction]
    rfl

/-- A timer is taken back only by what is an id. -/
theorem outside_clearTimer :
    (finalState (Run.clearTimer arguments m)).outside =
      m.outside.run (FunctionCall.cancel? ⟨f, arguments, m⟩).toList := by
  have hid := run_numberArgument? f arguments m 0
  unfold Run.clearTimer FunctionCall.cancel?
  cases hx : FunctionCall.number? ⟨f, arguments, m⟩ 0 with
  | some x =>
    rw [hx] at hid
    rw [run_bind_ok hid, Option.bind_some]
    cases x.bind timerId? <;> rfl
  | none =>
    rw [hx] at hid
    rw [run_bind_error hid]
    rfl

/-- A built-in function does around the store what its arguments say. -/
theorem outside_callBuiltin (call : Caller) {b : Builtin} (hb : b.hasEffect = true) (identity : Nat) :
    (finalState (Run.callBuiltin call b arguments m)).outside =
      m.outside.run (FunctionCall.command? ⟨.function (.builtin b) identity, arguments, m⟩).toList := by
  cases b with
  | print channel => exact outside_print _ arguments m channel
  | prompt => exact outside_prompt m
  | random => rfl
  | setTimeout => exact outside_setTimer _ arguments m false
  | setInterval => exact outside_setTimer _ arguments m true
  | clearTimeout => exact outside_clearTimer _ arguments m
  | clearInterval => exact outside_clearTimer _ arguments m
  | _ => exact Bool.noConfusion hb

end Effects

/-- Such a function passes no checkpoint itself, whatever it could call. -/
theorem Steady.callBuiltin (call : Caller) {b : Builtin} (hb : b.hasEffect = true) (arguments : List Value) :
    Steady Any Command.IsCall (Value.Holds Any) (Run.callBuiltin call b arguments) := by
  have hnumber (i : Nat) : Steady Any Command.IsCall Any (Run.numberArgument? arguments i) :=
    (Quiet.numberArgument? arguments i).steady
  have hset (repeated : Bool) :
      Steady Any Command.IsCall (Value.Holds Any) (Run.setTimer repeated arguments) := by
    unfold Run.setTimer
    dsimp only
    split
    · refine (hnumber 1).bind fun delay _ => ?_
      exact Steady.schedule (Value.holds_any _) _ (fun v _ => v.holds_any) repeated
    · exact (Quiet.raise rfl).steady
  have hclear : Steady Any Command.IsCall (Value.Holds Any) (Run.clearTimer arguments) := by
    refine (hnumber 0).bind fun x _ => ?_
    cases x.bind timerId? with
    | none => exact (Quiet.pure trivial).steady
    | some id => exact Steady.cancel id
  cases b with
  | print channel =>
    refine (Quiet.consoleLine arguments).steady.bind fun line _ => ?_
    exact (Steady.pushLine channel line).bind fun _ _ => (Quiet.pure trivial).steady
  | prompt => exact Steady.prompt
  | random => exact Steady.random.bind fun _ _ => (Quiet.pure trivial).steady
  | setTimeout => exact hset false
  | setInterval => exact hset true
  | clearTimeout => exact hclear
  | clearInterval => exact hclear
  | _ => exact Bool.noConfusion hb

end Snippet.Script
