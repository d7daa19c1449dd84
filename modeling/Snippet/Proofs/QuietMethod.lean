import Snippet.Proofs.QuietMember

/-!
The methods of numbers, the parts of the methods of strings and arrays that call no function, and the
console's formatting are quiet.
-/

namespace Snippet.Script

variable {Q : Func → Prop}

def StringMethod.calls : StringMethod → Bool
  | .replace | .replaceAll => true
  | _ => false

def ArrayMethod.calls : ArrayMethod → Bool
  | .sort | .reduce | .reduceRight | .visit _ => true
  | _ => false

theorem holds_pop {xs : Array Value} (hx : ∀ v ∈ xs, v.Holds Q) : ∀ v ∈ xs.pop, v.Holds Q := by
  intro v hv
  rw [← Array.mem_toList_iff, Array.toList_pop] at hv
  exact hx v (Array.mem_toList_iff.mp ((List.dropLast_sublist _).subset hv))

/-- Filling a range of elements puts in the value alone. -/
theorem holds_filled {xs : Array Value} (hx : ∀ v ∈ xs, v.Holds Q) {v : Value} (hv : v.Holds Q)
    (start stop : Nat) : ∀ w ∈ filled start stop v xs, w.Holds Q := by
  unfold filled
  dsimp only
  split
  · refine holds_of_mem_append (holds_of_mem_append ?_ ?_) ?_
    · exact fun w hw => hx w (mem_of_mem_extract hw)
    · intro w hw
      obtain rfl := (Array.mem_replicate.mp hw).2
      exact hv
    · exact fun w hw => hx w (mem_of_mem_extract hw)
  · exact hx

namespace Quiet

theorem numberArgument? (arguments : List Value) (i : Nat) :
    Quiet Q Any (Run.numberArgument? arguments i) := by
  unfold Run.numberArgument?
  split
  · exact pure trivial
  · exact map (toNumber _) fun _ _ => trivial

theorem numberMethod (x : Float) (m : NumberMethod) (arguments : List Value) :
    Quiet Q (Value.Holds Q) (Run.numberMethod x m arguments) := by
  cases m with
  | valueOf => exact pure trivial
  | toLocaleString => exact pure trivial
  | toFixed =>
    refine bind (numberArgument? arguments 0) fun _ _ => ?_
    exact ite (fun _ => pure trivial) fun _ => raise rfl
  | text =>
    refine bind (numberArgument? arguments 0) fun radix? _ => ?_
    cases radix? with
    | none => exact pure trivial
    | some radix => exact ite (fun _ => pure trivial) fun _ => raise rfl

theorem textArgument (arguments : List Value) (i : Nat) :
    Quiet Q Any (Run.textArgument arguments i) :=
  bind (toText _) fun _ _ => pure trivial

theorem charArgument? (s : List Char) (arguments : List Value) :
    Quiet Q Any (Run.charArgument? s arguments) :=
  bind (numberArgument? arguments 0) fun _ _ => pure trivial

theorem repeated (s : String) (arguments : List Value) :
    Quiet Q (Value.Holds Q) (Run.repeated s arguments) := by
  refine bind (numberArgument? arguments 0) fun _ _ => ite (fun _ => raise rfl) fun _ => ?_
  exact ite (fun _ => raise rfl) fun _ => makeString _

theorem padded (atStart : Bool) (s : String) (arguments : List Value) :
    Quiet Q (Value.Holds Q) (Run.padded atStart s arguments) := by
  refine bind (numberArgument? arguments 0) fun _ _ => ite (fun _ => raise rfl) fun _ => ?_
  have hfill (fill : List Char) (target : Nat) :
      Quiet Q (Value.Holds Q)
        (if (decide (target ≤ s.length) || fill.isEmpty) = true then Pure.pure (.string s)
        else
          let padding := String.ofList (cycle (target - s.length) fill)
          Pure.pure (.string (if atStart then padding ++ s else s ++ padding)) : Run Value) :=
    ite (fun _ => pure trivial) fun _ => pure trivial
  dsimp only
  split
  · exact hfill [' '] _
  · exact bind (toText _) fun text _ => hfill text.toList _

/-- Splitting a text is quiet, with a separator or without one. -/
theorem splitParts (s : String) (arguments : List Value) :
    Quiet Q (Value.Holds Q) (Run.splitParts s arguments) := by
  have hlimited {parts : List Value} (hp : AllHold Q parts) (limit : Float) :
      Quiet Q (Value.Holds Q) (Run.makeArray (parts.take (countOf limit))) :=
    makeArray fun v hv => hp v (List.mem_of_mem_take hv)
  unfold Run.splitParts
  dsimp only
  split
  · refine bind (V := AllHold Q) (pure (allHold_cons trivial allHold_nil)) fun parts hp => ?_
    refine bind (numberArgument? arguments 1) fun limit? _ => ?_
    cases limit? with
    | none => exact makeArray hp
    | some limit => exact hlimited hp limit
  · refine bind (toText _) fun _ _ => bind (V := AllHold Q) (pure ?_) fun parts hp => ?_
    · split
      · exact allHold_of_map (fun _ => rfl) _
      · exact allHold_of_map (fun _ => rfl) _
    · refine bind (numberArgument? arguments 1) fun limit? _ => ?_
      cases limit? with
      | none => exact makeArray hp
      | some limit => exact hlimited hp limit

theorem textOrder (v w : Value) : Quiet Q Any (Run.textOrder v w) := by
  unfold Run.textOrder
  split
  · exact pure trivial
  · exact pure trivial
  · exact pure trivial
  · exact bind (toText _) fun _ _ => bind (toText _) fun _ _ => pure trivial

theorem callbackArgument {arguments : List Value} (ha : AllHold Q arguments) (method : String) :
    Quiet Q (Value.Holds Q) (Run.callbackArgument arguments method) := by
  cases arguments with
  | nil => exact raise rfl
  | cons f rest =>
    refine ite (fun _ => pure (ha f List.mem_cons_self)) fun _ => ?_
    exact bind (toPrinted f) fun _ _ => raise rfl

/-- The elements of nested arrays, by induction on the levels that may be entered. -/
theorem flattenWithin (depth : Float) (room : Nat) {done xs : List Value} (hd : AllHold Q done)
    (hx : AllHold Q xs) : Quiet Q (AllHold Q) (Run.flattenWithin depth room done xs) := by
  induction room generalizing depth done xs with
  | zero => exact raise rfl
  | succ room ih =>
    unfold Run.flattenWithin
    refine foldlM (fun done hdone v hv => ?_) hd
    split
    · refine ite (fun _ => ?_) fun _ => pure (allHold_cons trivial hdone)
      exact bind (items _) fun xs hxs => ih _ hdone (allHold_toList hxs)
    · exact pure (allHold_cons (hx v hv) hdone)

theorem visitResult (v : Visit) {done : List Value} (hd : AllHold Q done) :
    Quiet Q (Value.Holds Q) (Run.visitResult v done) := by
  have harray : Quiet Q (Value.Holds Q) (Run.makeArray done.reverse) :=
    makeArray (allHold_reverse hd)
  cases v with
  | map => exact harray
  | flatMap => exact harray
  | filter => exact harray
  | _ => exact pure trivial

def StepHolds (Q : Func → Prop) : Except Value (List Value) → Prop
  | .error v => v.Holds Q
  | .ok vs => AllHold Q vs

/-- One step of a method that visits elements is quiet, as the callback has been called before it. -/
theorem visitStep (v : Visit) {done : List Value} (hd : AllHold Q done) (i : Nat)
    {item result : Value} (hi : item.Holds Q) (hr : result.Holds Q) :
    Quiet Q (StepHolds Q) (Run.visitStep v done i item result) := by
  have hindex : StepHolds Q (.error (.ofNat i)) := trivial
  have hverdict (b : Bool) : StepHolds Q (.error (.bool b)) := trivial
  have hchoice {c : Bool} {a b : Except Value (List Value)} (ha : StepHolds Q a)
      (hb : StepHolds Q b) :
      Quiet Q (StepHolds Q) (Pure.pure (if c then a else b) : Run (Except Value (List Value))) := by
    apply pure
    split
    · exact ha
    · exact hb
  cases v with
  | forEach => exact pure hd
  | map => exact pure (allHold_cons hr hd)
  | flatMap =>
    -- An array that the callback returns is taken apart, and anything else is one element.
    cases result with
    | array inner =>
      refine bind (items inner) fun xs hx => pure ?_
      exact allHold_append (allHold_reverse (allHold_toList hx)) hd
    | _ => exact pure (allHold_cons hr hd)
  | filter =>
    apply pure
    change AllHold Q (if result.truthy then item :: done else done)
    split
    · exact allHold_cons hi hd
    · exact hd
  | find => exact hchoice hi hd
  | findLast => exact hchoice hi hd
  | findIndex => exact hchoice hindex hd
  | findLastIndex => exact hchoice hindex hd
  | any => exact hchoice (hverdict true) hd
  | every => exact hchoice hd (hverdict false)

theorem joined (separator : String) (xs : List Value) :
    Quiet Q (Value.Holds Q) (Run.joined separator xs) := by
  have hpart (v : Value) :
      Quiet Q Any (if v.isNullish then Pure.pure "" else Run.toStrictText v) :=
    ite (fun _ => pure trivial) fun _ => toStrictText v
  exact bind (mapM fun v _ => hpart v) fun _ _ => makeString _

/-- Splicing is quiet: what it takes out were elements, and what it puts in are the arguments. -/
theorem splice (a : ArrayRef) {arguments : List Value} (ha : AllHold Q arguments) :
    Quiet Q (Value.Holds Q) (Run.splice a arguments) := by
  have hcut (start count : Nat) :
      Quiet Q (Value.Holds Q)
        (Run.items a >>= fun xs =>
          Run.modifyItems a (spliced start count (arguments.drop 2)) >>= fun _ =>
            Run.makeArrayOf (xs.extract start (start + count))) := by
    refine bind (items a) fun xs hx => bind (modifyItems a fun ys hy => ?_) fun _ _ => ?_
    · have hinserted : ∀ v ∈ (arguments.drop 2).toArray, v.Holds Q :=
        fun v hv => allHold_drop ha 2 v (List.mem_toArray.mp hv)
      exact holds_of_mem_append
        (holds_of_mem_append (fun v hv => hy v (mem_of_mem_extract hv)) hinserted)
        fun v hv => hy v (mem_of_mem_extract hv)
    · exact makeArrayOf fun v hv => hx v (mem_of_mem_extract hv)
  unfold Run.splice
  refine bind (items a) fun xs _ => bind (numberArgument? arguments 0) fun start? _ => ?_
  dsimp only
  split
  · exact hcut _ _
  · exact hcut _ _
  · exact bind (toNumber _) fun _ _ => hcut _ _

theorem concatenated (a : ArrayRef) {arguments : List Value} (ha : AllHold Q arguments) :
    Quiet Q (Value.Holds Q) (Run.concatenated a arguments) := by
  refine bind (items a) fun xs hx => bind (foldlM (fun acc hacc v hv => ?_) hx) fun all hall =>
    makeArrayOf hall
  split
  · exact bind (items _) fun ys hy => pure (holds_of_mem_append hacc hy)
  · apply pure
    intro w hw
    obtain hw | rfl := Array.mem_push.mp hw
    · exact hacc w hw
    · exact ha _ hv

theorem checkGrowth (a : ArrayRef) (arguments : List Value) :
    Quiet Q Any (Run.checkGrowth a arguments) :=
  bind (items a) fun _ _ => ite (fun _ => raise rfl) fun _ => pure trivial

theorem lengthValue (a : ArrayRef) : Quiet Q (Value.Holds Q) (Run.lengthValue a) :=
  bind (items a) fun _ _ => pure trivial

/-- The methods of strings that call no functions. -/
theorem stringMethod (call : Value → List Value → Run Value) (s : String) {m : StringMethod}
    (hm : m.calls = false) (arguments : List Value) :
    Quiet Q (Value.Holds Q) (Run.stringMethod call s m arguments) := by
  have hnumber (i : Nat) : Quiet Q Any (Run.numberArgument? arguments i) :=
    numberArgument? arguments i
  have htext : Quiet Q Any (Run.textArgument arguments 0) := textArgument arguments 0
  have hplain {α : Type} {x : Run α} {make : α → Value} (hx : Quiet Q Any x)
      (hmake : ∀ a, (make a).isFunction = false) :
      Quiet Q (Value.Holds Q) (x >>= fun a => Pure.pure (make a)) :=
    bind hx fun a _ => pureValue (hmake a)
  -- A single character holds no function.
  have hchar (c? : Option Char) : ((c?.map Value.ofChar).getD .undefined).Holds Q := by
    cases c? <;> trivial
  cases m with
  | item =>
    refine bind (hnumber 0) fun x? _ => pure ?_
    cases resolveIndex? x? s.toList.length with
    | none => trivial
    | some i => exact hchar s.toList[i]?
  | charAt =>
    refine bind (charArgument? _ arguments) fun c? _ => pure ?_
    cases c? <;> trivial
  | charCodeAt =>
    refine bind (charArgument? _ arguments) fun c? _ => pure ?_
    cases c? <;> trivial
  | indexOf =>
    refine bind htext fun needle _ => bind (hnumber 1) fun x? _ => pure ?_
    cases Text.firstIndex? needle _ _ <;> trivial
  | lastIndexOf =>
    refine bind htext fun needle _ => pure ?_
    cases Text.lastIndex? needle 0 none s.toList <;> trivial
  | includes => exact hplain htext fun _ => rfl
  | startsWith => exact hplain htext fun _ => rfl
  | endsWith => exact hplain htext fun _ => rfl
  | slice => exact bind (hnumber 0) fun _ _ => hplain (hnumber 1) fun _ => rfl
  | substring => exact bind (hnumber 0) fun _ _ => hplain (hnumber 1) fun _ => rfl
  | substr => exact bind (hnumber 0) fun _ _ => hplain (hnumber 1) fun _ => rfl
  | concat => exact bind (mapM fun v _ => toText v) fun _ _ => makeString _
  | repeated => exact repeated s arguments
  | padStart => exact padded true s arguments
  | padEnd => exact padded false s arguments
  | split => exact splitParts s arguments
  | replace => exact Bool.noConfusion hm
  | replaceAll => exact Bool.noConfusion hm
  | _ => exact pure trivial

/-- The methods of arrays that call no functions. -/
theorem arrayMethod (call : Caller) (a : ArrayRef) {m : ArrayMethod} (hm : m.calls = false)
    {arguments : List Value} (ha : AllHold Q arguments) :
    Quiet Q (Value.Holds Q) (Run.arrayMethod call a m arguments) := by
  -- All of these read elements, put arguments among them, or make an array of some of them.
  have hnumber (i : Nat) : Quiet Q Any (Run.numberArgument? arguments i) :=
    numberArgument? arguments i
  have hlist : ∀ v ∈ arguments.toArray, v.Holds Q := fun v hv => ha v (List.mem_toArray.mp hv)
  have hindex (i? : Option Nat) : (Run.indexValue i?).Holds Q := by
    cases i? <;> trivial
  cases m with
  | push =>
    refine bind (checkGrowth a arguments) fun _ _ => ?_
    refine bind (modifyItems a fun xs hx => ?_) fun _ _ => lengthValue a
    rw [List.foldl_push_eq_append']
    exact holds_of_mem_append hx hlist
  | pop =>
    refine bind (items a) fun xs hx => bind (modifyItems a fun _ => holds_pop) fun _ _ => pure ?_
    cases h : xs.back? with
    | none => exact holds_undefined
    | some v => exact hx v (Array.mem_of_back? h)
  | shift =>
    refine bind (items a) fun xs hx => bind (modifyItems a fun ys hy v hv => ?_) fun _ _ => pure ?_
    · exact hy v (mem_of_mem_extract hv)
    · exact holds_array_getD hx 0
  | unshift =>
    refine bind (checkGrowth a arguments) fun _ _ => ?_
    exact bind (modifyItems a fun xs hx => holds_of_mem_append hlist hx) fun _ _ => lengthValue a
  | item =>
    refine bind (items a) fun xs hx => bind (hnumber 0) fun x? _ => pure ?_
    cases h : (resolveIndex? x? xs.size).bind fun j => xs[j]? with
    | none => exact holds_undefined
    | some v =>
      obtain ⟨j, -, hj⟩ := Option.bind_eq_some_iff.mp h
      exact hx v (Array.mem_of_getElem? hj)
  | slice =>
    refine bind (items a) fun xs hx => bind (hnumber 0) fun _ _ => bind (hnumber 1) fun _ _ => ?_
    exact makeArrayOf fun v hv => hx v (mem_of_mem_extract hv)
  | splice => exact splice a ha
  | concat => exact concatenated a ha
  | join =>
    have hjoined (separator : String) :
        Quiet Q (Value.Holds Q) (Run.items a >>= fun xs => Run.joined separator xs.toList) :=
      bind (items a) fun xs _ => joined separator xs.toList
    unfold Run.arrayMethod
    dsimp only
    split
    · exact hjoined ","
    · exact bind (toText _) fun separator _ => hjoined separator
  | text => exact bind (items a) fun xs _ => joined "," xs.toList
  | reverse =>
    refine bind (modifyItems a fun xs hx v hv => ?_) fun _ _ => pure trivial
    exact hx v (Array.mem_reverse.mp hv)
  | indexOf => exact bind (items a) fun _ _ => pure (hindex _)
  | lastIndexOf => exact bind (items a) fun _ _ => pure (hindex _)
  | includes => exact bind (items a) fun _ _ => pure trivial
  | fill =>
    refine bind (items a) fun _ _ => bind (hnumber 1) fun _ _ => bind (hnumber 2) fun _ _ => ?_
    refine bind (modifyItems a fun xs hx => ?_) fun _ _ => pure trivial
    exact holds_filled hx (holds_argument ha 0) _ _
  | flat =>
    refine bind (hnumber 0) fun _ _ => bind (items a) fun xs hx => ?_
    refine bind (flattenWithin _ maxDepth allHold_nil (allHold_toList hx)) fun done hd => ?_
    exact makeArray (allHold_reverse hd)
  | _ => exact Bool.noConfusion hm

theorem directiveText (d : Directive) (v : Value) : Quiet Q Any (Run.directiveText d v) := by
  cases d with
  | text =>
    unfold Run.directiveText
    dsimp only
    split
    · exact bind (toPrinted _) fun _ _ => pure trivial
    · exact bind (toPrinted _) fun _ _ => pure trivial
    · exact bind (toText _) fun _ _ => pure trivial
  | number => exact bind (toNumber v) fun _ _ => pure trivial
  | integer => exact bind (toNumber v) fun _ _ => pure trivial
  | float => exact bind (toText v) fun _ _ => pure trivial
  | json => exact bind heap fun _ _ => pure trivial
  | skip => exact pure trivial
  | printed => exact bind (toPrinted v) fun _ _ => pure trivial

theorem format (done : List Char) (arguments : List Value) (s : List Char) :
    Quiet Q Any (Run.format done arguments s) := by
  fun_induction Run.format done arguments s with
  | case1 => exact pure trivial
  | case2 => exact pure trivial
  | case3 done arguments rest ih => exact ih
  | case4 done letter rest hne d v vs hd ih =>
    exact bind (directiveText d v) fun text _ => ih text
  | case5 done arguments letter rest hne hother ih => exact ih
  | case6 done arguments c rest _ _ _ ih => exact ih

/-- A line of the console is quiet: formatting and describing values call nothing. -/
theorem consoleLine (arguments : List Value) : Quiet Q Any (Run.consoleLine arguments) := by
  have hplain (vs : List Value) :
      Quiet Q Any (vs.mapM Run.toPrinted >>= fun parts =>
        (Pure.pure (" ".intercalate parts) : Run String)) :=
    bind (mapM fun v _ => toPrinted v) fun _ _ => pure trivial
  unfold Run.consoleLine
  split
  · refine ite (fun _ => ?_) fun _ => hplain _
    refine bind (format _ _ _) fun r _ => ?_
    exact bind (mapM fun v _ => toPrinted v) fun _ _ => pure trivial
  · exact hplain _

end Quiet

end Snippet.Script
