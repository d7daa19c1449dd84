import Mathlib.Logic.Relation
import Mathlib.Order.RelClasses
import Snippet.Proofs.TextSteps

/-!
The ways of a script to the text of a value. Adding a value to the empty string and putting it into a
template always come to the same. The conversion comes to the same text but does not look at its length. The
methods of an array join the elements without the array around them, so they come to the same as long as the
array is not within itself and not nested too deeply to be converted.
-/

namespace Snippet.Script

inductive TextRoute where
  /-- Calls the conversion to text. -/
  | conversion
  /-- Adds the value to the empty string. -/
  | sum
  /-- Puts the value into a template. -/
  | template
  /-- Calls the method of an array that gives its text. -/
  | method
  /-- Calls the method of an array that joins its elements, without a separator. -/
  | join
  /-- Calls the method of an array that joins its elements, with a comma as the separator. -/
  | joinByComma

def TextRoute.expr (e : Expr) : TextRoute → Expr
  | .conversion => .call (.name "String") [.mk false e] false
  | .sum => .binary .add (.string "") e
  | .template => .template [.value e]
  | .method => .call (.member e (.named "toString") false) [] false
  | .join => .call (.member e (.named "join") false) [] false
  | .joinByComma => .call (.member e (.named "join") false) [.mk false (.string ",")] false

def verdict {α : Type} : EStateM.Result Fault Machine α → Except Fault α
  | .ok a _ => .ok a
  | .error e _ => .error e

def TextRoute.told (route : TextRoute) (n : Nat) (name : String) (scope : ScopeRef) (m : Machine) :
    Except Fault Value :=
  verdict ((evaluator (n + 2)).eval (route.expr (.name name)) scope m)

/-- In a scope a variable has a value, the conversion to text is known by its name, and there is time for a
call. -/
structure Machine.CanConvert (m : Machine) (scope : ScopeRef) (name : String) (v : Value) : Prop where
  variable_eq : m.heap.lookup? scope name = some v
  conversion_eq : ∃ identity, m.heap.lookup? scope "String" = some (.function (.builtin .string) identity)
  checkpoints_pos : 0 < m.checkpoints

def TextFault.fault : TextFault → Fault
  | .tooDeep => .raised .stackOverflow
  | .endless => .endless

def asValue : Except TextFault String → Except Fault Value
  | .ok s => .ok (.string s)
  | .error e => .error e.fault

def limited : Except Fault Value → Except Fault Value
  | .ok (.string s) =>
    if maxStringSize < s.utf8ByteSize then .error (.raised .stringLength) else .ok (.string s)
  | outcome => outcome

-- How arrays contain each other, and what it changes to convert an array inside of another one.

namespace Heap

def Contains (h : Heap) (a b : ArrayRef) : Prop := Value.array b ∈ h.items a

def WithinItself (h : Heap) (a : ArrayRef) : Prop := Relation.TransGen h.Contains a a

def elementText (h : Heap) (v : Value) : Except TextFault String :=
  if v.isNullish then .ok "" else h.strictText v

def elementsText (h : Heap) (a : ArrayRef) : Except TextFault String := do
  return ",".intercalate (← (h.items a).toList.mapM h.elementText)

variable {h : Heap}

/-- An array around a conversion that does not come to it only makes the nesting deeper; by induction on the
steps. -/
theorem joinWithin_outside {a : ArrayRef} {n : Nat} (around : List ArrayRef) {b : ArrayRef}
    (hb : ¬ Relation.ReflTransGen h.Contains b a) :
    h.joinWithin n (around ++ [a]) b = .error .tooDeep ∨
      h.joinWithin n around b = h.joinWithin n (around ++ [a]) b := by
  induction n generalizing around b with
  | zero => exact Or.inr rfl
  | succ n ih =>
    have hne : b ≠ a := fun heq => hb (heq ▸ .refl)
    have hmem : (around ++ [a]).contains b = around.contains b := by
      rw [Bool.eq_iff_iff, List.contains_iff_mem, List.contains_iff_mem, List.mem_append,
        List.mem_singleton, or_iff_left hne]
    unfold joinWithin
    rw [hmem, List.length_append, List.length_singleton]
    by_cases hin : around.contains b = true
    · rw [if_pos hin, if_pos hin]
      exact Or.inr rfl
    · rw [if_neg hin, if_neg hin]
      by_cases hroom : maxDepth ≤ around.length + 1
      · rw [if_pos hroom]
        exact Or.inl rfl
      · rw [if_neg hroom, if_neg (by omega)]
        refine bind_error_or_eq (mapM_error_or_eq fun v hv => ?_) fun _ => Or.inr rfl
        cases v with
        | array inner =>
          have hinner : ¬ Relation.ReflTransGen h.Contains inner a :=
            fun hreach => hb (.head (Array.mem_toList_iff.mp hv) hreach)
          exact ih (b :: around) hinner
        | _ => exact Or.inr rfl

/-- The elements of an array that is not within itself convert by themselves as they do inside of it, unless
they are nested too deeply there. -/
theorem elementsText_eq_strictText {a : ArrayRef} (ha : ¬ h.WithinItself a) :
    h.strictText (.array a) = .error .tooDeep ∨ h.elementsText a = h.strictText (.array a) := by
  obtain ⟨n, hn⟩ : ∃ n, h.textFuel = n + 1 :=
    Nat.exists_eq_succ_of_ne_zero (Nat.mul_pos (Nat.succ_pos _) (Nat.succ_pos _)).ne'
  have hstrict : h.strictText (.array a) = h.joinWithin (n + 1) [] a := by
    unfold strictText
    rw [hn]
  rw [hstrict]
  unfold joinWithin elementsText
  have houtside : ¬ ([] : List ArrayRef).contains a = true := Bool.false_ne_true
  rw [if_neg houtside, if_neg (by decide)]
  refine bind_error_or_eq (mapM_error_or_eq fun v hv => ?_) fun _ => Or.inr rfl
  cases v with
  | undefined => exact Or.inr rfl
  | null => exact Or.inr rfl
  | array inner =>
    have hinner : ¬ Relation.ReflTransGen h.Contains inner a :=
      fun hreach => ha (.head' (Array.mem_toList_iff.mp hv) hreach)
    have halone : h.elementText (.array inner) = h.joinWithin n [] inner :=
      (h.joinWithin_eq_joinWithin hn.le inner).symm
    rw [halone]
    exact joinWithin_outside [] hinner
  | _ => exact Or.inr (h.textWithin_eq_text hn.le _).symm

end Heap

-- What the conversions of a state's values come to. They change nothing, whatever they come to.

section Conversions

variable {α β : Type} {m : Machine}

theorem ofText_bind (x : Except TextFault α) (f : α → Except TextFault β) :
    Run.ofText (x >>= f) = Run.ofText x >>= fun a => Run.ofText (f a) := by
  cases x with
  | ok a => rfl
  | error e => cases e <;> rfl

theorem run_toStrictText (v : Value) : Run.toStrictText v m = Run.ofText (m.heap.strictText v) m := by
  cases v <;> rfl

theorem verdict_ofText_string (text : Except TextFault String) :
    verdict ((Run.ofText text >>= fun s => pure (.string s)) m) = asValue text := by
  cases text with
  | ok s => rfl
  | error e => cases e <;> rfl

theorem verdict_ofText_makeString (text : Except TextFault String) :
    verdict ((Run.ofText text >>= Run.makeString) m) = limited (asValue text) := by
  cases text with
  | ok s =>
    change verdict (Run.makeString s m) =
      if maxStringSize < s.utf8ByteSize then .error (.raised .stringLength) else .ok (.string s)
    unfold Run.makeString
    by_cases hlong : maxStringSize < s.utf8ByteSize
    · rw [if_pos hlong, if_pos hlong]
      rfl
    · rw [if_neg hlong, if_neg hlong]
      rfl
  | error e => cases e <;> rfl

/-- The elements of an array are converted one after the other, up to the first that has no text. -/
theorem run_elementTexts (vs : List Value) :
    (vs.mapM fun v : Value => if v.isNullish then pure "" else Run.toStrictText v) m =
      Run.ofText (vs.mapM m.heap.elementText) m := by
  induction vs with
  | nil => rfl
  | cons v rest ih =>
    have hv : (if v.isNullish then pure "" else Run.toStrictText v) m =
        Run.ofText (m.heap.elementText v) m := by
      unfold Heap.elementText
      split
      · rfl
      · exact run_toStrictText v
    rw [List.mapM_cons, List.mapM_cons, ofText_bind, run_bind_congr hv]
    cases m.heap.elementText v with
    | ok s =>
      refine (run_bind_congr ih).trans ?_
      cases rest.mapM m.heap.elementText with
      | ok parts => rfl
      | error e => cases e <;> rfl
    | error e => cases e <;> rfl

theorem verdict_joined (a : ArrayRef) :
    verdict (Run.joined "," (m.heap.items a).toList m) = limited (asValue (m.heap.elementsText a)) := by
  unfold Run.joined
  rw [run_bind_congr (run_elementTexts _), ← verdict_ofText_makeString (m := m)]
  unfold Heap.elementsText
  rw [ofText_bind, bind_assoc]
  rfl

/-- Adding a value to the empty string is to make a string of its text. -/
theorem add_empty (v : Value) : Run.add (.string "") v = Run.toStrictText v >>= Run.makeString := by
  have hempty : (fun s => Run.makeString ("" ++ s)) = Run.makeString := by
    funext s
    rw [String.empty_append]
  cases v with
  | array a =>
    change (Run.toStrictText (.array a) >>= fun s => pure (Value.string s)) >>= _ = _
    rw [bind_assoc, ← hempty]
    rfl
  | object o =>
    change (Run.toText (.object o) >>= fun s => pure (Value.string s)) >>= _ = _
    rw [bind_assoc, ← hempty]
    rfl
  | _ =>
    rw [← hempty]
    rfl

end Conversions

section Told

variable {m : Machine} {scope : ScopeRef} {name : String} {v : Value}

theorem run_evalName (hname : m.heap.lookup? scope name = some v) :
    Run.evalName scope name m = .ok v m := by
  have hlookup : Run.lookup? scope name m = .ok (some v) m := by
    unfold Run.lookup?
    rw [hname]
  exact run_bind_ok hlookup

theorem Machine.CanConvert.exists_checkpoints (hm : m.CanConvert scope name v) :
    ∃ c, m.checkpoints = c + 1 :=
  Nat.exists_eq_succ_of_ne_zero hm.checkpoints_pos.ne'

variable (n : Nat) (hm : m.CanConvert scope name v)

include hm

theorem told_sum : TextRoute.sum.told n name scope m = limited (asValue (m.heap.strictText v)) := by
  have heval : (evaluator (n + 2)).eval (TextRoute.sum.expr (.name name)) scope m =
      Run.add (.string "") v m := run_bind_ok (run_evalName hm.variable_eq)
  unfold TextRoute.told
  rw [heval, add_empty, run_bind_congr (run_toStrictText v)]
  exact verdict_ofText_makeString _

/-- A template tells the text of the value it holds, unless it is too long. -/
theorem told_template :
    TextRoute.template.told n name scope m = limited (asValue (m.heap.strictText v)) := by
  have htext : Run.templateText (evaluator (n + 1)) scope "" [.value (.name name)] m =
      Run.ofText (m.heap.strictText v) m := by
    refine (run_bind_ok (run_evalName hm.variable_eq)).trans ?_
    refine (run_bind_congr (run_toStrictText v)).trans ?_
    cases m.heap.strictText v with
    | ok s =>
      change EStateM.Result.ok ("" ++ s) m = .ok s m
      rw [String.empty_append]
    | error e => cases e <;> rfl
  unfold TextRoute.told
  refine (congrArg verdict (run_bind_congr htext)).trans ?_
  exact verdict_ofText_makeString _

/-- A conversion tells the text of its argument and does not look at its length. -/
theorem told_conversion :
    TextRoute.conversion.told n name scope m = asValue (m.heap.strictText v) := by
  obtain ⟨c, hc⟩ := hm.exists_checkpoints
  obtain ⟨identity, hconversion⟩ := hm.conversion_eq
  have hcallee : Run.evalCallee (evaluator (n + 1)) scope (.name "String") m =
      .ok (some (.function (.builtin .string) identity, .undefined)) m :=
    run_bind_ok (run_evalName hconversion)
  have harguments : Run.evalItems (evaluator (n + 1)) scope [] [.mk false (.name name)] m = .ok [v] m :=
    run_bind_ok (run_evalName hm.variable_eq)
  have heval : (evaluator (n + 2)).eval (TextRoute.conversion.expr (.name name)) scope m =
      Run.convertToString [v] (m.allowing c) :=
    (run_bind_ok hcallee).trans ((run_bind_ok harguments).trans (run_checkpoint_succ hc))
  unfold TextRoute.told
  rw [heval]
  refine (congrArg verdict (run_bind_congr (run_toStrictText v))).trans ?_
  exact verdict_ofText_string _

end Told

section Methods

variable {m : Machine} {scope : ScopeRef} {name : String} {a : ArrayRef} (n : Nat)
  (hm : m.CanConvert scope name (.array a))

include hm

/-- A call of a method of an array that comes to joining its elements with commas. -/
theorem told_ofMethod (key : String) {method : ArrayMethod} {items : List Item} {arguments : List Value}
    (hkey : Run.getMember (.array a) key = Run.makeFunction (.arrayMethod a method))
    (hitems : ∀ m, Run.evalItems (evaluator (n + 1)) scope [] items m = .ok arguments m)
    (hmethod : Run.arrayMethod (evaluator n).call a method arguments =
      Run.items a >>= fun xs => Run.joined "," xs.toList) :
    verdict ((evaluator (n + 2)).eval (.call (.member (.name name) (.named key) false) items false)
      scope m) = limited (asValue (m.heap.elementsText a)) := by
  obtain ⟨c, hc⟩ := hm.exists_checkpoints
  have hcallee : Run.evalCallee (evaluator (n + 1)) scope (.member (.name name) (.named key) false) m =
      .ok (some (.function (.arrayMethod a method) m.identities, .array a))
        { m with identities := m.identities + 1 } := by
    refine (run_bind_ok (run_evalName hm.variable_eq)).trans ?_
    change (Run.getMember (.array a) key >>= fun f => pure (some (f, Value.array a))) m = _
    rw [hkey]
    rfl
  have heval : (evaluator (n + 2)).eval (.call (.member (.name name) (.named key) false) items false)
      scope m = (Run.items a >>= fun xs => Run.joined "," xs.toList)
        { m with checkpoints := c, identities := m.identities + 1 } := by
    rw [← hmethod]
    refine (run_bind_ok hcallee).trans ((run_bind_ok (hitems _)).trans ?_)
    exact run_checkpoint_succ (m := { m with identities := m.identities + 1 }) hc
  rw [heval]
  exact verdict_joined (m := { m with checkpoints := c, identities := m.identities + 1 }) a

theorem told_method :
    TextRoute.method.told n name scope m = limited (asValue (m.heap.elementsText a)) :=
  told_ofMethod n hm "toString" rfl (fun _ => rfl) rfl

theorem told_join : TextRoute.join.told n name scope m = limited (asValue (m.heap.elementsText a)) :=
  told_ofMethod n hm "join" rfl (fun _ => rfl) rfl

theorem told_joinByComma :
    TextRoute.joinByComma.told n name scope m = limited (asValue (m.heap.elementsText a)) :=
  told_ofMethod n hm "join" rfl (fun _ => rfl) rfl

end Methods

/-- Sum and template come to the same, and to the text that the conversion gives where that is not too long.
The methods of an array come to the same as each other, and as the sum if the array is not within itself and
not nested too deeply to be converted. -/
theorem texts_agree_outside_rings {m : Machine} {scope : ScopeRef} {name : String} {v : Value} (n : Nat)
    (hm : m.CanConvert scope name v) :
    TextRoute.conversion.told n name scope m = asValue (m.heap.strictText v) ∧
      TextRoute.sum.told n name scope m = limited (TextRoute.conversion.told n name scope m) ∧
      TextRoute.template.told n name scope m = TextRoute.sum.told n name scope m ∧
      ∀ a, v = .array a →
        TextRoute.join.told n name scope m = TextRoute.method.told n name scope m ∧
          TextRoute.joinByComma.told n name scope m = TextRoute.method.told n name scope m ∧
          (¬ m.heap.WithinItself a →
            TextRoute.sum.told n name scope m ≠ .error (.raised .stackOverflow) →
            TextRoute.method.told n name scope m = TextRoute.sum.told n name scope m) := by
  have hsum := told_sum n hm
  refine ⟨told_conversion n hm, ?_, (told_template n hm).trans hsum.symm, ?_⟩
  · rw [told_conversion n hm, hsum]
  · rintro a rfl
    refine ⟨(told_join n hm).trans (told_method n hm).symm,
      (told_joinByComma n hm).trans (told_method n hm).symm, fun hring hdeep => ?_⟩
    rw [told_method n hm, hsum]
    rw [hsum] at hdeep
    obtain htooDeep | hsame := Heap.elementsText_eq_strictText hring
    · rw [htooDeep] at hdeep
      exact absurd rfl hdeep
    · rw [hsame]

/-- A state in which the variable `a` is an array of a string and an array. -/
def nestedArray : Machine :=
  { heap :=
      { scopes := #[{ bindings :=
          [("a", ⟨.array ⟨1⟩, false⟩), ("String", ⟨.function (.builtin .string) 0, false⟩)] }]
        arrays := #[#[.string "y", .null], #[.string "x", .array ⟨0⟩]] }
    stdin := Stdin.ofText ""
    checkpoints := 1 }

/-- All ways to the text of an array that is not within itself come to the same. -/
theorem nestedArray_has_one_text :
    nestedArray.CanConvert globalScope "a" (.array ⟨1⟩) ∧ ¬ nestedArray.heap.WithinItself ⟨1⟩ ∧
      ∀ route : TextRoute, route.told 0 "a" globalScope nestedArray = .ok (.string "x,y,") := by
  have hm : nestedArray.CanConvert globalScope "a" (.array ⟨1⟩) := ⟨rfl, ⟨0, rfl⟩, by decide⟩
  -- Arrays contain only arrays that are older.
  have holder (a b : ArrayRef) (hab : nestedArray.heap.Contains a b) : b.address < a.address := by
    obtain ⟨_ | _ | i⟩ := a
    · change Value.array b ∈ #[Value.string "y", Value.null] at hab
      simp only [List.mem_toArray, List.mem_cons, reduceCtorEq, List.not_mem_nil, or_self] at hab
    · change Value.array b ∈ #[Value.string "x", Value.array ⟨0⟩] at hab
      simp only [List.mem_toArray, List.mem_cons, reduceCtorEq, Value.array.injEq, List.not_mem_nil,
        or_false, false_or] at hab
      rw [hab]
      exact Nat.zero_lt_one
    · exact absurd hab (Array.not_mem_empty _)
  have hring : ¬ nestedArray.heap.WithinItself ⟨1⟩ := by
    intro hwithin
    have hgreater : Relation.TransGen (fun i j : Nat => j < i) 1 1 :=
      hwithin.lift ArrayRef.address holder
    rw [Relation.transGen_eq_self] at hgreater
    exact Nat.lt_irrefl 1 hgreater
  obtain ⟨-, hsum, htemplate, harray⟩ := texts_agree_outside_rings 0 hm
  obtain ⟨hjoin, hcomma, hmethod⟩ := harray ⟨1⟩ rfl
  have htold : TextRoute.sum.told 0 "a" globalScope nestedArray = .ok (.string "x,y,") := hsum
  have hmethod' := (hmethod hring (htold ▸ nofun)).trans htold
  refine ⟨hm, hring, fun route => ?_⟩
  cases route with
  | conversion => rfl
  | sum => exact htold
  | template => exact htemplate.trans htold
  | method => exact hmethod'
  | join => exact hjoin.trans hmethod'
  | joinByComma => exact hcomma.trans hmethod'

/-- An array that is an element of itself has one text by the conversion and another one by its method. -/
theorem ring_has_two_texts :
    (evaluate "const a = ['x']; a.push(a); console.log(String(a) + ' ' + a.toString());" ""
      ⟨20000⟩).bind Draft.output = some "x, x,x,\n" := by
  decide +kernel

end Snippet.Script
