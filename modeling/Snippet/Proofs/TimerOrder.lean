import Mathlib.Data.List.Nodup
import Snippet.Proofs.ClockTime
import Snippet.Proofs.Steady

/-!
The order in which timers fire. Whatever commands are given, each pending timer lies after all timers that
have fired, in the order of the times they are due and, for equal times, of the numbers under which they were
set; setting a timer and setting one again put it behind what has fired, as its time is not before that of
the clock and its number is new. From this follow the order of the firings and the course of every timer.
-/

namespace Snippet.Script

open Clock (IsTime)

def Timer.Before (a b : Timer) : Prop := a.due < b.due ∨ a.due = b.due ∧ a.order < b.order

namespace Timer

variable {a b c : Timer}

theorem before_iff (ha : IsTime a.due) (hb : IsTime b.due) :
    a.Before b ↔ Clock.bitsOf a.due < Clock.bitsOf b.due ∨
      Clock.bitsOf a.due = Clock.bitsOf b.due ∧ a.order < b.order := by
  unfold Before
  rw [ha.lt_iff hb]
  exact or_congr_right (and_congr_left' ⟨congrArg _, Clock.bitsOf_injective⟩)

theorem precedes_iff (ha : IsTime a.due) (hb : IsTime b.due) : a.precedes b = true ↔ a.Before b := by
  rw [before_iff ha hb]
  unfold precedes
  simp only [Bool.or_eq_true, Bool.and_eq_true, Bool.not_eq_true', decide_eq_true_eq,
    decide_eq_false_iff_not, ha.lt_iff hb, hb.lt_iff ha]
  omega

theorem Before.trans (ha : IsTime a.due) (hb : IsTime b.due) (hc : IsTime c.due) (h : a.Before b)
    (h' : b.Before c) : a.Before c := by
  rw [before_iff ha hb] at h
  rw [before_iff hb hc] at h'
  rw [before_iff ha hc]
  omega

theorem Before.due_le (ha : IsTime a.due) (hb : IsTime b.due) (h : a.Before b) : a.due ≤ b.due := by
  rw [before_iff ha hb] at h
  rw [ha.le_iff hb]
  omega

theorem before_total (ha : IsTime a.due) (hb : IsTime b.due) (h : a.order ≠ b.order) :
    a.Before b ∨ b.Before a := by
  rw [before_iff ha hb, before_iff hb ha]
  omega

end Timer

namespace Timers

def run (ts : Timers) (history : List Command) : Timers := history.foldl after ts

def fired (ts : Timers) : Command → List Timer
  | .fire => (first? ts.pending).toList
  | _ => []

def firings (ts : Timers) : List Command → List Timer
  | [] => []
  | c :: history => ts.fired c ++ (ts.after c).firings history

theorem run_append (ts : Timers) (history history' : List Command) :
    ts.run (history ++ history') = (ts.run history).run history' :=
  List.foldl_append

structure Sound (ts : Timers) : Prop where
  -- Timers as they are at any moment of a run: their times are times of a clock, none is due before
  -- now, and no two have the same number.
  now : IsTime ts.now
  due : ∀ t ∈ ts.pending, IsTime t.due
  interval : ∀ t ∈ ts.pending, ∀ i, t.interval = some i → IsTime i
  notLate : ∀ t ∈ ts.pending, ts.now ≤ t.due
  orders : (ts.pending.map Timer.order).Nodup
  order_le : ∀ t ∈ ts.pending, t.order ≤ ts.lastOrder

theorem sound_start : Sound {} where
  now := Clock.isTime_zero
  due _ ht := nomatch ht
  interval _ ht := nomatch ht
  notLate _ ht := nomatch ht
  orders := List.nodup_nil
  order_le _ ht := nomatch ht

end Timers

def keptDelay (delay : Float) : Float := if delay.isFinite && 0.0 < delay then delay else 0.0

theorem isTime_keptDelay (delay : Float) : IsTime (keptDelay delay) := by
  unfold keptDelay
  split
  · rename_i h
    exact Clock.isTime_of_zero_lt (of_decide_eq_true (Bool.and_eq_true_iff.mp h).2)
  · exact Clock.isTime_zero

def spacing (delay : Float) : Float := if keptDelay delay < 1.0 then 1.0 else keptDelay delay

theorem isTime_spacing (delay : Float) : IsTime (spacing delay) := by
  unfold spacing
  split
  · exact Clock.isTime_one
  · exact isTime_keptDelay delay

namespace Timers

def newTimer (ts : Timers) (callback : Value) (delay : Float) (arguments : List Value)
    (repeated : Bool) : Timer :=
  { id := ts.lastId + 1
    due := ts.now + keptDelay delay
    order := ts.lastOrder + 1
    callback
    arguments
    interval := if repeated then some (spacing delay) else none }

theorem schedule_eq (ts : Timers) (callback : Value) (delay : Float) (arguments : List Value)
    (repeated : Bool) :
    ts.schedule callback delay arguments repeated = (ts.lastId + 1,
      { ts with
        pending := ts.newTimer callback delay arguments repeated :: ts.pending
        lastId := ts.lastId + 1
        lastOrder := ts.lastOrder + 1 }) := rfl

def again? (ts : Timers) (t : Timer) : Option Timer :=
  t.interval.map fun interval => { t with due := t.due + interval, order := ts.lastOrder + 1 }

def afterFiring (ts : Timers) (t : Timer) : Timers :=
  { ts with
    pending := (ts.again? t).toList ++ ts.pending.filter fun other => other.order != t.order
    now := t.due
    lastOrder := ts.lastOrder + (ts.again? t).toList.length }

theorem next?_eq (ts : Timers) :
    ts.next? = (first? ts.pending).map fun t => (t, ts.afterFiring t) := by
  unfold next? afterFiring again?
  cases first? ts.pending with
  | none => rfl
  | some t =>
    obtain ⟨id, due, order, callback, arguments, interval⟩ := t
    cases interval <;> rfl

theorem first?_isSome {pending : List Timer} (h : pending ≠ []) : (first? pending).isSome = true := by
  cases pending with
  | nil => exact absurd rfl h
  | cons t rest =>
    unfold first?
    split <;> rfl

theorem eq_nil_of_first? {pending : List Timer} (h : first? pending = none) : pending = [] := by
  refine Decidable.byContradiction fun hne => ?_
  have hsome := first?_isSome hne
  rw [h] at hsome
  cases hsome

theorem exists_next? {ts : Timers} (h : ts.pending ≠ []) : ∃ t ts', ts.next? = some (t, ts') := by
  obtain ⟨t, ht⟩ := Option.isSome_iff_exists.mp (first?_isSome h)
  exact ⟨t, ts.afterFiring t, by rw [next?_eq, ht]; rfl⟩

/-- The first timer is before all others. -/
theorem before_of_first? {pending : List Timer} {t u : Timer} (hdue : ∀ t ∈ pending, IsTime t.due)
    (horders : (pending.map Timer.order).Nodup) (h : first? pending = some t)
    (hu : u ∈ pending) (hne : u.order ≠ t.order) : t.Before u := by
  induction pending generalizing t u with
  | nil => cases hu
  | cons v rest ih =>
    have hdue' : ∀ t ∈ rest, IsTime t.due := fun t ht => hdue t (List.mem_cons_of_mem _ ht)
    obtain ⟨hv, horders'⟩ := List.nodup_cons.mp horders
    have hvdue := hdue v List.mem_cons_self
    unfold first? at h
    cases hfirst : first? rest with
    | none =>
      obtain rfl := eq_nil_of_first? hfirst
      rw [hfirst] at h
      obtain rfl := Option.some.inj h
      obtain rfl := List.mem_singleton.mp hu
      exact absurd rfl hne
    | some w =>
      rw [hfirst] at h
      have hw : w ∈ rest := Steady.mem_of_first? hfirst
      have hwdue := hdue' w hw
      have hvw : v.order ≠ w.order := fun heq => hv (heq ▸ List.mem_map_of_mem hw)
      -- Of `v` and the first one of the others the one before the other is taken.
      by_cases hprecedes : w.precedes v = true
      · dsimp only at h
        rw [if_pos hprecedes] at h
        obtain rfl := Option.some.inj h
        obtain rfl | hu := List.mem_cons.mp hu
        · exact (Timer.precedes_iff hwdue hvdue).mp hprecedes
        · exact ih hdue' horders' hfirst hu hne
      · dsimp only at h
        rw [if_neg hprecedes] at h
        obtain rfl := Option.some.inj h
        have hbefore : v.Before w :=
          (Timer.before_total hvdue hwdue hvw).resolve_right
            fun hwv => hprecedes ((Timer.precedes_iff hwdue hvdue).mpr hwv)
        obtain rfl | hu := List.mem_cons.mp hu
        · exact absurd rfl hne
        -- Only the number tells `w` from the others: they may be due at its time.
        · by_cases huw : u.order = w.order
          · exact List.inj_on_of_nodup_map horders' hu hw huw ▸ hbefore
          · exact hbefore.trans hvdue hwdue (hdue' u hu) (ih hdue' horders' hfirst hu huw)

variable {ts : Timers}

/-- Taking a timer back leaves nothing but fewer of them. -/
theorem Sound.cancel (h : ts.Sound) (id : UInt32) : (ts.cancel id).Sound := by
  have hsub : (ts.cancel id).pending.Sublist ts.pending := List.filter_sublist
  exact
    { now := h.now
      due := fun t ht => h.due t (hsub.mem ht)
      interval := fun t ht => h.interval t (hsub.mem ht)
      notLate := fun t ht => h.notLate t (hsub.mem ht)
      orders := h.orders.sublist (hsub.map _)
      order_le := fun t ht => h.order_le t (hsub.mem ht) }

/-- Setting a timer keeps the order: the new one is due no earlier than now, under a new number. -/
theorem Sound.schedule (h : ts.Sound) (callback : Value) (delay : Float) (arguments : List Value)
    (repeated : Bool) : (ts.schedule callback delay arguments repeated).2.Sound := by
  rw [schedule_eq]
  obtain ⟨hdue, hle⟩ := h.now.add (isTime_keptDelay delay)
  constructor
  · exact h.now
  · exact List.forall_mem_cons.mpr ⟨hdue, h.due⟩
  · refine List.forall_mem_cons.mpr ⟨fun i hi => ?_, h.interval⟩
    unfold newTimer at hi
    dsimp only at hi
    split at hi
    · obtain rfl := Option.some.inj hi
      exact isTime_spacing delay
    · exact nomatch hi
  · exact List.forall_mem_cons.mpr ⟨(h.now.le_iff hdue).mpr hle, h.notLate⟩
  -- The number of the new timer is greater than all that have been given.
  · refine List.nodup_cons.mpr ⟨fun hmem => ?_, h.orders⟩
    obtain ⟨t, ht, horder⟩ := List.mem_map.mp hmem
    have hle := h.order_le t ht
    change t.order = ts.lastOrder + 1 at horder
    omega
  · refine List.forall_mem_cons.mpr ⟨Nat.le_refl _, fun t ht => ?_⟩
    exact Nat.le_succ_of_le (h.order_le t ht)

/-- A timer is set again behind itself. -/
theorem Sound.again? (h : ts.Sound) {t u : Timer} (ht : t ∈ ts.pending) (hu : ts.again? t = some u) :
    IsTime u.due ∧ t.due ≤ u.due ∧ u.id = t.id ∧ u.interval = t.interval ∧
      u.order = ts.lastOrder + 1 := by
  obtain ⟨i, hi, rfl⟩ := Option.map_eq_some_iff.mp hu
  obtain ⟨hdue, hle⟩ := (h.due t ht).add (h.interval t ht i hi)
  exact ⟨hdue, ((h.due t ht).le_iff hdue).mpr hle, rfl, rfl, rfl⟩

def others (ts : Timers) (t : Timer) : List Timer :=
  ts.pending.filter fun other => other.order != t.order

theorem mem_others {t u : Timer} : u ∈ ts.others t ↔ u ∈ ts.pending ∧ u.order ≠ t.order := by
  unfold others
  rw [List.mem_filter, bne_iff_ne]

/-- The first timer fires before all others. -/
theorem Sound.before_others (h : ts.Sound) {t u : Timer} (hfirst : first? ts.pending = some t)
    (hu : u ∈ ts.others t) : t.Before u := by
  obtain ⟨hmem, hne⟩ := mem_others.mp hu
  exact before_of_first? h.due h.orders hfirst hmem hne

/-- A firing leaves the other timers, on a clock that has come to its time. -/
theorem Sound.firingOthers (h : ts.Sound) {t : Timer} (hfirst : first? ts.pending = some t) :
    Sound { ts with pending := ts.others t, now := t.due } := by
  have ht : t ∈ ts.pending := Steady.mem_of_first? hfirst
  have hmem {u : Timer} (hu : u ∈ ts.others t) : u ∈ ts.pending := (mem_others.mp hu).1
  have hsub : (ts.others t).Sublist ts.pending := List.filter_sublist
  exact
    { now := h.due t ht
      due := fun u hu => h.due u (hmem hu)
      interval := fun u hu => h.interval u (hmem hu)
      notLate := fun u hu =>
        (h.before_others hfirst hu).due_le (h.due t ht) (h.due u (hmem hu))
      orders := h.orders.sublist (hsub.map _)
      order_le := fun u hu => h.order_le u (hmem hu) }

/-- Firing the first timer keeps the order, also if it is set again. -/
theorem Sound.afterFiring (h : ts.Sound) {t : Timer} (hfirst : first? ts.pending = some t) :
    (ts.afterFiring t).Sound := by
  have ht : t ∈ ts.pending := Steady.mem_of_first? hfirst
  have hothers := h.firingOthers hfirst
  unfold Timers.afterFiring
  cases hagain : ts.again? t with
  | none => exact hothers
  | some u =>
    obtain ⟨hdue, hle, hid, hinterval, horder⟩ := h.again? ht hagain
    constructor
    · exact hothers.now
    · exact List.forall_mem_cons.mpr ⟨hdue, hothers.due⟩
    · exact List.forall_mem_cons.mpr ⟨hinterval ▸ h.interval t ht, hothers.interval⟩
    · exact List.forall_mem_cons.mpr ⟨hle, hothers.notLate⟩
    · refine List.nodup_cons.mpr ⟨fun hmem => ?_, hothers.orders⟩
      obtain ⟨v, hv, hvorder⟩ := List.mem_map.mp hmem
      have hvle := hothers.order_le v hv
      change v.order ≤ ts.lastOrder at hvle
      omega
    · refine List.forall_mem_cons.mpr ⟨Nat.le_of_eq horder, fun v hv => ?_⟩
      exact Nat.le_succ_of_le (hothers.order_le v hv)

theorem fire_eq (ts : Timers) :
    ts.fire = match first? ts.pending with
      | some t => ts.afterFiring t
      | none => ts := by
  unfold fire
  rw [next?_eq]
  cases first? ts.pending <;> rfl

/-- Timers are sound after any command. -/
theorem Sound.after (h : ts.Sound) (c : Command) : (ts.after c).Sound := by
  cases c with
  | schedule callback delay arguments repeated => exact h.schedule callback delay arguments repeated
  | cancel id => exact h.cancel id
  | fire =>
    change ts.fire.Sound
    rw [fire_eq]
    split
    · exact h.afterFiring ‹_›
    · exact h
  | _ => exact h

theorem Sound.run (h : ts.Sound) (history : List Command) : (ts.run history).Sound := by
  induction history generalizing ts with
  | nil => exact h
  | cons c history ih => exact ih (h.after c)

/-- The clock does not go back. -/
theorem Sound.now_le_after (h : ts.Sound) (c : Command) : ts.now ≤ (ts.after c).now := by
  have hrefl : ts.now ≤ ts.now := (h.now.le_iff h.now).mpr (Nat.le_refl _)
  cases c with
  | fire =>
    change ts.now ≤ ts.fire.now
    rw [fire_eq]
    split
    · rename_i t hfirst
      exact h.notLate t (Steady.mem_of_first? hfirst)
    · exact hrefl
  | _ => exact hrefl

theorem Sound.now_le_run (h : ts.Sound) (history : List Command) : ts.now ≤ (ts.run history).now := by
  induction history generalizing ts with
  | nil => exact (h.now.le_iff h.now).mpr (Nat.le_refl _)
  | cons c history ih =>
    have hfirst := (h.now.le_iff (h.after c).now).mp (h.now_le_after c)
    have hrest := ((h.after c).now.le_iff ((h.after c).run history).now).mp (ih (h.after c))
    exact (h.now.le_iff ((h.after c).run history).now).mpr (Nat.le_trans hfirst hrest)

structure Past (l : Timer) (ts : Timers) : Prop where
  due : IsTime l.due
  due_le : l.due ≤ ts.now
  order_le : l.order ≤ ts.lastOrder
  before : ∀ t ∈ ts.pending, l.Before t

/-- A timer with a new number that is not due before now lies after all of the past. -/
theorem Past.before_new {l : Timer} (h : Past l ts) (hs : ts.Sound) {t : Timer} (ht : IsTime t.due)
    (hnow : ts.now ≤ t.due) (horder : ts.lastOrder < t.order) : l.Before t := by
  have hle := (h.due.le_iff hs.now).mp h.due_le
  have hnow := (hs.now.le_iff ht).mp hnow
  have horder_le := h.order_le
  rw [Timer.before_iff h.due ht]
  omega

/-- A timer that is set again lies after all of the past, as a new one does. -/
theorem Past.afterFiring {l t : Timer} (hs : ts.Sound) (hfirst : first? ts.pending = some t)
    (h : Past l { ts with pending := ts.others t, now := t.due }) : Past l (ts.afterFiring t) := by
  have ht : t ∈ ts.pending := Steady.mem_of_first? hfirst
  unfold Timers.afterFiring
  cases hagain : ts.again? t with
  | none => exact h
  | some u =>
    obtain ⟨hdue, hle, -, -, horder⟩ := hs.again? ht hagain
    refine ⟨h.due, h.due_le, Nat.le_succ_of_le h.order_le, List.forall_mem_cons.mpr ⟨?_, h.before⟩⟩
    exact h.before_new (hs.firingOthers hfirst) hdue hle (by rw [horder]; exact Nat.lt_succ_self _)

/-- What lies in the past stays there. -/
theorem Past.after {l : Timer} (h : Past l ts) (hs : ts.Sound) (c : Command) :
    Past l (ts.after c) := by
  cases c with
  | schedule callback delay arguments repeated =>
    have hnew := hs.schedule callback delay arguments repeated
    refine ⟨h.due, h.due_le, Nat.le_succ_of_le h.order_le, List.forall_mem_cons.mpr ⟨?_, h.before⟩⟩
    refine h.before_new hs (hnew.due _ List.mem_cons_self) ?_ (Nat.lt_succ_self _)
    exact hnew.notLate _ List.mem_cons_self
  | cancel id =>
    exact ⟨h.due, h.due_le, h.order_le, fun t ht => h.before t (List.mem_filter.mp ht).1⟩
  | fire =>
    change Past l ts.fire
    rw [fire_eq]
    cases hfirst : first? ts.pending with
    | none => exact h
    | some t =>
      have ht : t ∈ ts.pending := Steady.mem_of_first? hfirst
      -- The clock moves on to a timer that lies after all of the past.
      refine Past.afterFiring hs hfirst ⟨h.due, ?_, h.order_le, fun u hu => ?_⟩
      · exact (h.before t ht).due_le h.due (hs.due t ht)
      · exact h.before u (mem_others.mp hu).1
  | _ => exact h

/-- A timer that fires goes into the past. -/
theorem Sound.past_afterFiring (h : ts.Sound) {t : Timer} (hfirst : first? ts.pending = some t) :
    Past t (ts.afterFiring t) := by
  have ht : t ∈ ts.pending := Steady.mem_of_first? hfirst
  refine Past.afterFiring h hfirst ⟨h.due t ht, ?_, h.order_le t ht, fun u hu => ?_⟩
  · exact ((h.due t ht).le_iff (h.due t ht)).mpr (Nat.le_refl _)
  · exact h.before_others hfirst hu

/-- What fires later comes after all of the past. -/
theorem Past.before_firings {l : Timer} (h : Past l ts) (hs : ts.Sound) (history : List Command) :
    ∀ t ∈ ts.firings history, l.Before t := by
  induction history generalizing ts with
  | nil => exact fun t ht => nomatch ht
  | cons c history ih =>
    intro t ht
    obtain ht | ht := List.mem_append.mp ht
    · cases c with
      | fire =>
        have hfirst : first? ts.pending = some t := Option.mem_toList.mp ht
        exact h.before t (Steady.mem_of_first? hfirst)
      | _ => exact nomatch ht
    · exact ih (h.after hs c) (hs.after c) t ht

/-- Timers fire in order. -/
theorem Sound.pairwise_firings (h : ts.Sound) (history : List Command) :
    (ts.firings history).Pairwise Timer.Before := by
  induction history generalizing ts with
  | nil => exact .nil
  | cons c history ih =>
    have hrest := ih (h.after c)
    cases c with
    | fire =>
      change ((first? ts.pending).toList ++ ts.fire.firings history).Pairwise Timer.Before
      change (ts.fire.firings history).Pairwise Timer.Before at hrest
      cases hfirst : first? ts.pending with
      | none => exact hrest
      | some t =>
        refine List.pairwise_cons.mpr ⟨fun u hu => ?_, hrest⟩
        rw [fire_eq, hfirst] at hu
        exact (h.past_afterFiring hfirst).before_firings (h.afterFiring hfirst) history u hu
    | _ => exact hrest

end Timers

-- The course of one timer: it fires at its time and then, if it is repeated, at equal distances,
-- until it is taken back.

/-- The time at which a timer fires when it has fired `k` times. -/
def Timer.dueAfter (t : Timer) : Nat → Float
  | 0 => t.due
  | k + 1 => t.dueAfter k + t.interval.getD 0.0

structure Timer.Continues (u t : Timer) : Prop where
  id : u.id = t.id
  callback : u.callback = t.callback
  arguments : u.arguments = t.arguments
  interval : u.interval = t.interval

theorem Timer.Continues.trans {t u v : Timer} (h : v.Continues u) (h' : u.Continues t) :
    v.Continues t :=
  ⟨h.id.trans h'.id, h.callback.trans h'.callback, h.arguments.trans h'.arguments,
    h.interval.trans h'.interval⟩

namespace Timers

variable {ts : Timers}

def firingsOf (ts : Timers) (id : UInt32) (history : List Command) : List Timer :=
  (ts.firings history).filter fun t => t.id == id

theorem firingsOf_cons (ts : Timers) (id : UInt32) (c : Command) (history : List Command) :
    ts.firingsOf id (c :: history) =
      (ts.fired c).filter (fun t => t.id == id) ++ (ts.after c).firingsOf id history :=
  List.filter_append _ _

/-- Ids that are distinct, and stay so while `room` more timers are set: there are ids left for these. -/
structure Distinct (ts : Timers) (room : Nat) : Prop where
  room_lt : ts.lastId.toNat + room < 2 ^ 32
  ids : (ts.pending.map Timer.id).Nodup
  id_le : ∀ t ∈ ts.pending, t.id ≤ ts.lastId

/-- Timers of which none has an id that was given before, with ids left for `room` more of them. -/
structure Gone (id : UInt32) (ts : Timers) (room : Nat) : Prop where
  room_lt : ts.lastId.toNat + room < 2 ^ 32
  given : id ≤ ts.lastId
  id_ne : ∀ t ∈ ts.pending, t.id ≠ id

theorem toNat_succ {id : UInt32} {room : Nat} (h : id.toNat + (room + 1) < 2 ^ 32) :
    (id + 1).toNat = id.toNat + 1 := by
  rw [UInt32.toNat_add]
  exact Nat.mod_eq_of_lt (by change id.toNat + 1 < 2 ^ 32; omega)

/-- As long as ids are left the next one is larger than all that have been given. -/
theorem lt_succ_of_le {id last : UInt32} {room : Nat} (h : last.toNat + (room + 1) < 2 ^ 32)
    (hid : id ≤ last) : id < last + 1 := by
  have hle := UInt32.le_iff_toNat_le.mp hid
  rw [UInt32.lt_iff_toNat_lt, toNat_succ h]
  omega

theorem Distinct.id_ne_of_mem_others {room : Nat} (h : ts.Distinct room) {t u : Timer}
    (ht : t ∈ ts.pending) (hu : u ∈ ts.others t) : u.id ≠ t.id := by
  obtain ⟨hmem, hne⟩ := mem_others.mp hu
  intro hid
  exact hne (congrArg Timer.order (List.inj_on_of_nodup_map h.ids hmem ht hid))

/-- Firing leaves the identifiers distinct, as no other timer gets the one of a timer that is set again. -/
theorem Distinct.afterFiring {room : Nat} (h : ts.Distinct room) {t : Timer}
    (hfirst : first? ts.pending = some t) : (ts.afterFiring t).Distinct room := by
  have ht : t ∈ ts.pending := Steady.mem_of_first? hfirst
  have hsub : (ts.others t).Sublist ts.pending := List.filter_sublist
  have hids : ((ts.others t).map Timer.id).Nodup := h.ids.sublist (hsub.map _)
  have hle (u : Timer) (hu : u ∈ ts.others t) : u.id ≤ ts.lastId := h.id_le u (hsub.mem hu)
  refine ⟨h.room_lt, ?_, fun u hu => ?_⟩
  · change (((ts.again? t).toList ++ ts.others t).map Timer.id).Nodup
    cases hagain : ts.again? t with
    | none => exact hids
    | some u =>
      -- The timer keeps its id, which is none of the others.
      obtain ⟨i, -, rfl⟩ := Option.map_eq_some_iff.mp hagain
      refine List.nodup_cons.mpr ⟨fun hmem => ?_, hids⟩
      obtain ⟨v, hv, hvid⟩ := List.mem_map.mp hmem
      exact h.id_ne_of_mem_others ht hv hvid
  · obtain hu | hu := List.mem_append.mp hu
    · obtain ⟨i, -, rfl⟩ := Option.map_eq_some_iff.mp (Option.mem_toList.mp hu)
      exact h.id_le t ht
    · exact hle u hu

/-- Ids stay distinct through a command, which takes one of those that are left if it sets a timer. -/
theorem Distinct.after {c : Command} {history : List Command}
    (h : ts.Distinct ((c :: history).countP Command.setsTimer)) :
    (ts.after c).Distinct (history.countP Command.setsTimer) := by
  cases c with
  | schedule callback delay arguments repeated =>
    obtain ⟨hroom, hids, hle⟩ := h
    rw [List.countP_cons_of_pos rfl] at hroom
    have hnew (t : Timer) (ht : t ∈ ts.pending) : t.id < ts.lastId + 1 :=
      lt_succ_of_le hroom (hle t ht)
    refine ⟨?_, List.nodup_cons.mpr ⟨fun hmem => ?_, hids⟩, ?_⟩
    · change (ts.lastId + 1).toNat + _ < _
      rw [toNat_succ hroom]
      omega
    · obtain ⟨t, ht, hid⟩ := List.mem_map.mp hmem
      change t.id = ts.lastId + 1 at hid
      exact absurd (hid ▸ hnew t ht) (UInt32.lt_irrefl _)
    · exact List.forall_mem_cons.mpr ⟨UInt32.le_refl _, fun t ht => UInt32.le_of_lt (hnew t ht)⟩
  | cancel id =>
    have hsub : (ts.cancel id).pending.Sublist ts.pending := List.filter_sublist
    exact ⟨h.room_lt, h.ids.sublist (hsub.map _), fun t ht => h.id_le t (hsub.mem ht)⟩
  | fire =>
    change ts.fire.Distinct _
    rw [fire_eq]
    split
    · exact Distinct.afterFiring h ‹_›
    · exact h
  | _ => exact h

/-- Fewer timers than there are ids have distinct ids. -/
theorem distinct_start {n : Nat} (h : n < 2 ^ 32) : Distinct {} n where
  room_lt := (Nat.zero_add n).symm ▸ h
  ids := List.nodup_nil
  id_le _ ht := nomatch ht

/-- A timer that is gone stays gone while the timers still to be set are too few to reach its identifier
again. -/
theorem Gone.after {id : UInt32} {c : Command} {history : List Command}
    (h : Gone id ts ((c :: history).countP Command.setsTimer)) :
    Gone id (ts.after c) (history.countP Command.setsTimer) := by
  cases c with
  | schedule callback delay arguments repeated =>
    obtain ⟨hroom, hgiven, hne⟩ := h
    rw [List.countP_cons_of_pos rfl] at hroom
    have hnew : id < ts.lastId + 1 := lt_succ_of_le hroom hgiven
    refine ⟨?_, UInt32.le_of_lt hnew, List.forall_mem_cons.mpr ⟨(UInt32.ne_of_lt hnew).symm, hne⟩⟩
    change (ts.lastId + 1).toNat + _ < _
    rw [toNat_succ hroom]
    omega
  | cancel id' => exact ⟨h.room_lt, h.given, fun t ht => h.id_ne t (List.mem_filter.mp ht).1⟩
  | fire =>
    change Gone id ts.fire _
    rw [fire_eq]
    cases hfirst : first? ts.pending with
    | none => exact h
    | some t =>
      refine ⟨h.room_lt, h.given, fun u hu => ?_⟩
      obtain hu | hu := List.mem_append.mp hu
      · obtain ⟨i, -, rfl⟩ := Option.map_eq_some_iff.mp (Option.mem_toList.mp hu)
        exact h.id_ne t (Steady.mem_of_first? hfirst)
      · exact h.id_ne u (mem_others.mp hu).1
  | _ => exact h

/-- An id that is gone does not fire again while there are ids left. -/
theorem Gone.firingsOf_eq_nil {id : UInt32} {history : List Command}
    (h : Gone id ts (history.countP Command.setsTimer)) : ts.firingsOf id history = [] := by
  induction history generalizing ts with
  | nil => rfl
  | cons c history ih =>
    rw [firingsOf_cons, ih h.after, List.append_nil, List.filter_eq_nil_iff]
    intro t ht
    cases c with
    | fire =>
      have hfirst : first? ts.pending = some t := Option.mem_toList.mp ht
      simpa using h.id_ne t (Steady.mem_of_first? hfirst)
    | _ => exact nomatch ht

theorem gone_cancel {id : UInt32} {room : Nat} (hroom : ts.lastId.toNat + room < 2 ^ 32)
    (h : id ≤ ts.lastId) : Gone id (ts.cancel id) room := by
  refine ⟨hroom, h, fun t ht => ?_⟩
  simpa using (List.mem_filter.mp ht).2

/-- A timer that fires only once is gone then. -/
theorem Distinct.gone_of_first? {room : Nat} (h : ts.Distinct room) {t : Timer}
    (hfirst : first? ts.pending = some t) (hinterval : t.interval = none) : Gone t.id ts.fire room := by
  have ht : t ∈ ts.pending := Steady.mem_of_first? hfirst
  have hagain : ts.again? t = none := by
    rw [Timers.again?, hinterval]
    rfl
  rw [fire_eq, hfirst]
  refine ⟨h.room_lt, h.id_le t ht, fun u hu => ?_⟩
  change u ∈ (ts.again? t).toList ++ ts.others t at hu
  rw [hagain] at hu
  exact h.id_ne_of_mem_others ht hu

/-- A timer that fires again and again is set again when it fires. -/
theorem continues_of_first? {t : Timer} (hfirst : first? ts.pending = some t) {i : Float}
    (hinterval : t.interval = some i) :
    ∃ u ∈ ts.fire.pending, u.Continues t ∧ u.due = t.due + i := by
  have hagain : ts.again? t = some { t with due := t.due + i, order := ts.lastOrder + 1 } := by
    rw [Timers.again?, hinterval]
    rfl
  rw [fire_eq, hfirst]
  change ∃ u ∈ (ts.again? t).toList ++ ts.others t, _
  rw [hagain]
  exact ⟨_, List.mem_cons_self, ⟨rfl, rfl, rfl, rfl⟩, rfl⟩

/-- The timers that do not fire go on waiting. -/
theorem Sound.mem_fire_of_first? (h : ts.Sound) {t v : Timer} (hfirst : first? ts.pending = some v)
    (ht : t ∈ ts.pending) (hid : v.id ≠ t.id) : t ∈ ts.fire.pending := by
  have hv : v ∈ ts.pending := Steady.mem_of_first? hfirst
  rw [fire_eq, hfirst]
  refine List.mem_append_right _ (mem_others.mpr ⟨ht, fun horder => hid ?_⟩)
  exact congrArg Timer.id (List.inj_on_of_nodup_map h.orders hv ht horder.symm)

/-- What a command does to one pending timer: nothing, or it takes the timer back, or the timer fires and is
gone, or it fires and is set again. -/
theorem Sound.pending_cases (h : ts.Sound) {c : Command} {history : List Command}
    (hids : ts.Distinct ((c :: history).countP Command.setsTimer)) {t : Timer} (ht : t ∈ ts.pending) :
    ((ts.fired c).filter (fun u => u.id == t.id) = [] ∧ t ∈ (ts.after c).pending) ∨
      ((ts.fired c).filter (fun u => u.id == t.id) = [] ∧ c = .cancel t.id ∧
        Gone t.id (ts.after c) (history.countP Command.setsTimer)) ∨
      ((ts.fired c).filter (fun u => u.id == t.id) = [t] ∧ t.interval = none ∧
        Gone t.id (ts.after c) (history.countP Command.setsTimer)) ∨
      ((ts.fired c).filter (fun u => u.id == t.id) = [t] ∧ ∃ i, t.interval = some i ∧
        ∃ u ∈ (ts.after c).pending, u.Continues t ∧ u.due = t.due + i) := by
  -- A timer that is pending stays so unless it is cancelled or is the one that fires.
  cases c with
  | schedule callback delay arguments repeated => exact Or.inl ⟨rfl, List.mem_cons_of_mem _ ht⟩
  | cancel id =>
    by_cases hid : t.id = id
    · subst hid
      exact Or.inr (Or.inl ⟨rfl, rfl, gone_cancel hids.room_lt (hids.id_le t ht)⟩)
    · exact Or.inl ⟨rfl, List.mem_filter.mpr ⟨ht, by simpa using hid⟩⟩
  | fire =>
    obtain ⟨v, hfirst⟩ := Option.isSome_iff_exists.mp (first?_isSome (List.ne_nil_of_mem ht))
    have hfired : ts.fired .fire = [v] := by
      change (first? ts.pending).toList = [v]
      rw [hfirst]
      rfl
    rw [hfired]
    by_cases hid : v.id = t.id
    · obtain rfl := List.inj_on_of_nodup_map hids.ids (Steady.mem_of_first? hfirst) ht hid
      have hown : [v].filter (fun u => u.id == v.id) = [v] := by simp
      cases hinterval : v.interval with
      | none => exact Or.inr (Or.inr (Or.inl ⟨hown, rfl, Distinct.gone_of_first? hids hfirst hinterval⟩))
      | some i => exact Or.inr (Or.inr (Or.inr ⟨hown, i, rfl, continues_of_first? hfirst hinterval⟩))
    · exact Or.inl ⟨by simpa using hid, h.mem_fire_of_first? hfirst ht hid⟩
  | _ => exact Or.inl ⟨rfl, ht⟩

/-- A timer that has been set again goes on where it fired. -/
theorem dueAfter_of_continues {t u : Timer} {i : Float} (hu : u.Continues t)
    (hi : t.interval = some i) (hdue : u.due = t.due + i) (k : Nat) :
    u.dueAfter k = t.dueAfter (k + 1) := by
  induction k with
  | zero =>
    rw [Timer.dueAfter, hdue, Timer.dueAfter, Timer.dueAfter, hi]
    rfl
  | succ k ih =>
    change u.dueAfter k + u.interval.getD 0.0 = t.dueAfter (k + 1) + t.interval.getD 0.0
    rw [ih, hu.interval]

structure Course (t : Timer) (history : List Command) (own pending : List Timer) : Prop where
  /-- It fires at its time, and again at equal distances. -/
  due : ∀ k u, own[k]? = some u → u.Continues t ∧ u.due = t.dueAfter k
  /-- Unless it is repeated, it fires once at most. -/
  once : t.interval = none → own.length ≤ 1
  /-- Unless it is taken back, it is pending with its next time until it has fired for the last time. -/
  waits : .cancel t.id ∉ history → (t.interval = none ∧ own.length = 1) ∨
    ∃ u ∈ pending, u.Continues t ∧ u.due = t.dueAfter own.length

/-- The course of every pending timer, by induction on the history: every command leaves the timer, ends its
course, or makes it fire and go on from its next time. -/
theorem Sound.course (h : ts.Sound) {history : List Command}
    (hids : ts.Distinct (history.countP Command.setsTimer)) {t : Timer} (ht : t ∈ ts.pending) :
    Course t history (ts.firingsOf t.id history) (ts.run history).pending := by
  induction history generalizing ts t with
  | nil =>
    refine ⟨fun k u hu => ?_, fun _ => Nat.zero_le 1, fun _ => Or.inr ⟨t, ht, ⟨rfl, rfl, rfl, rfl⟩, rfl⟩⟩
    exact nomatch hu
  | cons c history ih =>
    rw [firingsOf_cons]
    obtain ⟨hown, hstays⟩ | ⟨hown, rfl, hgone⟩ | ⟨hown, hinterval, hgone⟩ |
      ⟨hown, i, hinterval, u, hu, hcontinues, hdue⟩ := h.pending_cases hids ht
    -- It goes on waiting.
    · obtain ⟨hdues, honce, hwaits⟩ := ih (h.after c) hids.after hstays
      rw [hown]
      exact ⟨hdues, honce, fun hcancel => hwaits fun hmem => hcancel (List.mem_cons_of_mem _ hmem)⟩
    -- It is taken back, and never fires.
    · rw [hown, hgone.firingsOf_eq_nil]
      exact ⟨fun k u hu => (nomatch hu), fun _ => Nat.zero_le 1,
        fun hcancel => absurd List.mem_cons_self hcancel⟩
    -- It fires for the first and the last time.
    · rw [hown, hgone.firingsOf_eq_nil]
      refine ⟨fun k u hu => ?_, fun _ => Nat.le_refl 1, fun _ => Or.inl ⟨hinterval, rfl⟩⟩
      cases k with
      | zero =>
        obtain rfl := Option.some.inj hu
        exact ⟨⟨rfl, rfl, rfl, rfl⟩, rfl⟩
      | succ k => exact nomatch hu
    -- It fires, and what follows is the course of the timer that it is set again as.
    · obtain ⟨hdues, honce, hwaits⟩ := ih (h.after c) hids.after hu
      rw [hcontinues.id] at hdues honce hwaits
      rw [hown]
      refine ⟨fun k v hv => ?_, fun hnone => ?_, fun hcancel => Or.inr ?_⟩
      · cases k with
        | zero =>
          obtain rfl := Option.some.inj hv
          exact ⟨⟨rfl, rfl, rfl, rfl⟩, rfl⟩
        | succ k =>
          obtain ⟨hv, hvdue⟩ := hdues k v hv
          rw [dueAfter_of_continues hcontinues hinterval hdue] at hvdue
          exact ⟨hv.trans hcontinues, hvdue⟩
      · exact nomatch hinterval.symm.trans hnone
      · obtain ⟨hnone, -⟩ | ⟨v, hv, hvc, hvdue⟩ :=
          hwaits fun hmem => hcancel (List.mem_cons_of_mem _ hmem)
        · exact nomatch hinterval.symm.trans (hcontinues.interval.symm.trans hnone)
        · rw [dueAfter_of_continues hcontinues hinterval hdue] at hvdue
          exact ⟨v, hv, hvc.trans hcontinues, hvdue⟩

/-- What holds of the timers in a history. There are only `2 ^ 32` ids, so what is said of ids holds of
histories that set fewer timers. -/
structure KeepsTime (history : List Command) : Prop where
  /-- Timers fire in the order of their times and numbers. -/
  ordered : (firings {} history).Pairwise Timer.Before
  /-- The clock does not go back. -/
  clock : ∀ part, part <+: history → (run {} part).now ≤ (run {} history).now
  /-- No two pending timers have the same id. -/
  ids : history.countP Command.setsTimer < 2 ^ 32 → ((run {} history).pending.map Timer.id).Nodup
  /-- A timer that is set gets the id that is returned, and takes its course. -/
  course : history.countP Command.setsTimer < 2 ^ 32 →
    ∀ before callback delay arguments repeated later,
      history = before ++ .schedule callback delay arguments repeated :: later →
        let ts := run {} before
        let t := ts.newTimer callback delay arguments repeated
        (ts.schedule callback delay arguments repeated).1 = t.id ∧
        Course t later
          ((ts.after (.schedule callback delay arguments repeated)).firingsOf t.id later)
          (run {} history).pending
  /-- A timer whose id has been taken back does not fire any more. -/
  cancelled : history.countP Command.setsTimer < 2 ^ 32 →
    ∀ before id later, history = before ++ .cancel id :: later →
      let ts := run {} before
      id ≤ ts.lastId → (ts.cancel id).firingsOf id later = []

/-- What a first part of a history leaves has ids left for the rest. -/
theorem distinct_run {before later : List Command}
    (h : (before ++ later).countP Command.setsTimer < 2 ^ 32) :
    (run {} before).Distinct (later.countP Command.setsTimer) := by
  have hstart := distinct_start h
  clear h
  generalize ({} : Timers) = ts at hstart ⊢
  induction before generalizing ts with
  | nil => exact hstart
  | cons c before ih => exact ih _ hstart.after

/-- Whatever the commands are, the timers keep time. -/
theorem keepsTime (history : List Command) : KeepsTime history where
  ordered := sound_start.pairwise_firings history
  clock := by
    rintro part ⟨rest, rfl⟩
    rw [run_append]
    exact (sound_start.run part).now_le_run rest
  ids h := by
    have hdistinct : (run {} history).Distinct ([].countP Command.setsTimer) :=
      distinct_run (by rwa [List.append_nil])
    exact hdistinct.ids
  course := by
    rintro h before callback delay arguments repeated later rfl ts t
    refine ⟨rfl, ?_⟩
    have hs := (sound_start.run before).after (.schedule callback delay arguments repeated)
    rw [run_append]
    exact hs.course (distinct_run h).after List.mem_cons_self
  cancelled := by
    rintro h before id later rfl ts hid
    have hgone : Gone id (ts.cancel id) (later.countP Command.setsTimer) :=
      gone_cancel (distinct_run h).after.room_lt hid
    exact hgone.firingsOf_eq_nil

end Timers

end Snippet.Script
