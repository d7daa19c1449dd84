import Snippet.Script.Value

/-!
Timers. They run after the script on a clock of their own, in the order of the times they are due and,
for equal times, in the order in which they were set.
-/

namespace Snippet.Script

structure Timer where
  id : UInt32
  due : Float
  /-- The place in the order in which timers were set. -/
  order : Nat
  callback : Value
  arguments : List Value
  /-- The time after which a repeated timer is due again. -/
  interval : Option Float

def Timer.precedes (a b : Timer) : Bool := a.due < b.due || (!(b.due < a.due) && a.order < b.order)

structure Timers where
  pending : List Timer := []
  now : Float := 0.0
  /-- The id that was given last; the one after the largest is zero. -/
  lastId : UInt32 := 0
  lastOrder : Nat := 0

namespace Timers

def schedule (t : Timers) (callback : Value) (delay : Float) (arguments : List Value)
    (repeated : Bool) : UInt32 × Timers :=
  -- Sets a timer with the next id. A delay that is not a positive number counts as none, and
  -- repetitions are at least one unit of time apart.
  let delay := if delay.isFinite && 0.0 < delay then delay else 0.0
  let timer : Timer :=
    { id := t.lastId + 1
      due := t.now + delay
      order := t.lastOrder + 1
      callback
      arguments
      interval := if repeated then some (if delay < 1.0 then 1.0 else delay) else none }
  (timer.id,
    { t with
      pending := timer :: t.pending
      lastId := t.lastId + 1
      lastOrder := t.lastOrder + 1 })

def cancel (t : Timers) (id : UInt32) : Timers :=
  { t with pending := t.pending.filter fun timer => timer.id != id }

def first? : List Timer → Option Timer
  | [] => none
  | timer :: rest =>
    match first? rest with
    | none => some timer
    | some other => some (if other.precedes timer then other else timer)

def next? (t : Timers) : Option (Timer × Timers) :=
  -- The timer whose turn it is, and the timers after its time has come: a repeated one is set
  -- again, the others are gone.
  match first? t.pending with
  | none => none
  | some timer =>
    let rest := t.pending.filter fun other => other.order != timer.order
    let t := { t with now := timer.due }
    match timer.interval with
    | none => some (timer, { t with pending := rest })
    | some interval =>
      let again := { timer with due := timer.due + interval, order := t.lastOrder + 1 }
      some (timer, { t with pending := again :: rest, lastOrder := t.lastOrder + 1 })

end Timers

end Snippet.Script
