import Snippet.Proofs.Quiet

/-!
The operations on members and the operators on values are quiet: they look at the heap, change it or fail,
and what they return holds no function that the heap and the operands do not hold.
-/

namespace Snippet.Script

namespace Quiet

variable {Q : Func → Prop} {α : Type} {V : α → Prop}

/-- A value that is no function of the script holds none. -/
theorem pureValue {v : Value} (hv : v.isFunction = false) :
    Quiet Q (Value.Holds Q) (Pure.pure v : Run Value) :=
  pure (holds_of_not_function hv)

/-- Methods of values are no functions of the script. -/
theorem makeMethod {f? : Option Function} (hf : ∀ f, f? = some f → f.Holds Q) :
    Quiet Q (Value.Holds Q) (Run.makeMethod f?) := by
  cases f? with
  | none => exact pure holds_undefined
  | some f => exact makeFunction (hf f rfl)

/-- A method that is looked up by name is a function of the kind that the lookup makes. -/
theorem makeNamedMethod {τ : Type} (make : τ → Function) (hmake : ∀ t, (make t).Holds Q)
    (t? : Option τ) : Quiet Q (Value.Holds Q) (Run.makeMethod (t?.map make)) := by
  apply makeMethod
  intro f hf
  obtain ⟨t, -, rfl⟩ := Option.map_eq_some_iff.mp hf
  exact hmake t

theorem stringMember (s key : String) : Quiet Q (Value.Holds Q) (Run.stringMember s key) := by
  unfold Run.stringMember
  refine ite (fun _ => pureValue rfl) fun _ => ?_
  cases indexOfKey? key with
  | none => exact makeNamedMethod (.stringMethod s) (fun _ => trivial) _
  | some i =>
    apply pure
    cases Text.charAt? s i <;> trivial

theorem arrayMember (a : ArrayRef) (key : String) :
    Quiet Q (Value.Holds Q) (Run.arrayMember a key) := by
  unfold Run.arrayMember
  refine ite (fun _ => bind (items a) fun _ _ => pureValue rfl) fun _ => ?_
  cases indexOfKey? key with
  | none => exact makeNamedMethod (.arrayMethod a) (fun _ => trivial) _
  | some i => exact bind (items a) fun xs hx => pure (holds_array_getD hx i)

theorem objectMember (o : ObjectRef) (key : String) :
    Quiet Q (Value.Holds Q) (Run.objectMember o key) := by
  refine bind (object o) fun object hobject => ?_
  cases hv : object.get? key with
  | none => exact makeNamedMethod (.objectMethod o) (fun _ => trivial) _
  | some v => exact pure (Object.holds_get? hobject hv)

theorem builtinMember (b : Builtin) (key : String) :
    Quiet Q (Value.Holds Q) (Run.builtinMember b key) := by
  unfold Run.builtinMember
  cases b.constant? key with
  | some x => exact pure trivial
  | none => exact ite (fun _ => pure trivial) fun _ => makeNamedMethod .builtin (fun _ => trivial) _

theorem classMember {c : ClassDef} (hc : ∀ f ∈ c.functions, Q f) (scope : ScopeRef) (key : String) :
    Quiet Q (Value.Holds Q) (Run.classMember c scope key) := by
  unfold Run.classMember
  cases hm : c.statics.lookup key with
  | some method =>
    obtain ⟨k, hk⟩ := mem_of_lookup hm
    refine makeClosure (hc method ?_) scope
    exact List.mem_append_right _
      (List.mem_append_right _ (List.mem_map.mpr ⟨(k, method), hk, rfl⟩))
  | none =>
    apply pure
    split <;> trivial

theorem functionMember {f : Function} (hf : f.Holds Q) (key : String) :
    Quiet Q (Value.Holds Q) (Run.functionMember f key) := by
  have hother (f : Function) :
      Quiet Q (Value.Holds Q)
        (Pure.pure (if key == "name" then Value.string f.name else .undefined) : Run Value) := by
    apply pure
    split <;> trivial
  cases f with
  | builtin b => exact builtinMember b key
  | classDef c scope => exact classMember hf scope key
  | _ => exact hother _

/-- Reading a member of any value is quiet: whatever it finds comes from the value and from the heap. -/
theorem getMember {v : Value} (hv : v.Holds Q) (key : String) :
    Quiet Q (Value.Holds Q) (Run.getMember v key) := by
  cases v with
  | undefined => exact raise rfl
  | null => exact raise rfl
  | bool b =>
    apply makeMethod
    intro f hf
    split at hf
    · obtain rfl := Option.some.inj hf
      trivial
    · simp at hf
  | number x => exact makeNamedMethod (.numberMethod x) (fun _ => trivial) _
  | string s => exact stringMember s key
  | array a => exact arrayMember a key
  | object o => exact objectMember o key
  | function f identity => exact functionMember hv key

/-- Setting an element is quiet, also where it makes the array longer or is refused. -/
theorem setItem (a : ArrayRef) (i : Nat) {v : Value} (hv : v.Holds Q) :
    Quiet Q Any (Run.setItem a i v) := by
  refine ite (fun _ => raise rfl) fun _ => ?_
  refine bind (items a) fun _ _ => bind (charge _) fun _ _ => modifyItems a fun xs hx w hw => ?_
  unfold Run.putItem at hw
  split at hw
  · obtain hw | rfl := Array.mem_or_eq_of_mem_setIfInBounds hw
    · exact hx w hw
    · exact hv
  · obtain hw | rfl := Array.mem_push.mp hw
    · obtain hw | hw := Array.mem_append.mp hw
      · exact hx w hw
      · obtain rfl := (Array.mem_replicate.mp hw).2
        trivial
    · exact hv

theorem setLength (a : ArrayRef) (length : Float) : Quiet Q Any (Run.setLength a length) := by
  refine ite (fun _ => raise rfl) fun _ => modifyItems a fun xs hx w hw => ?_
  unfold Run.resize at hw
  split at hw
  · exact hx w (mem_of_mem_extract hw)
  · obtain hw | hw := Array.mem_append.mp hw
    · exact hx w hw
    · obtain rfl := (Array.mem_replicate.mp hw).2
      trivial

/-- Setting a member is quiet, whatever the value is a member of. -/
theorem setMember (v : Value) (key : String) {w : Value} (hw : w.Holds Q) :
    Quiet Q Any (Run.setMember v key w) := by
  cases v with
  | undefined => exact raise rfl
  | null => exact raise rfl
  | array a =>
    unfold Run.setMember
    dsimp only
    cases indexOfKey? key with
    | some i => exact setItem a i hw
    | none =>
      exact ite (fun _ => bind (toNumber w) fun _ _ => setLength a _) fun _ => pure trivial
  | object o => exact modifyObject o fun object ho => Object.holds_set ho key hw
  | _ => exact pure trivial

theorem ownKeys (v : Value) : Quiet Q Any (Run.ownKeys v) := bind heap fun _ _ => pure trivial

theorem describe (v : Value) : Quiet Q Any (Run.describe v) := by
  unfold Run.describe
  split
  · exact pure trivial
  · exact pure trivial
  · exact pure trivial
  · exact pure trivial
  · exact toText _

/-- The elements that a loop runs over are those of an array, the characters of a string, or nothing but a
fault. -/
theorem iterate (v : Value) : Quiet Q (fun xs => ∀ w ∈ xs, w.Holds Q) (Run.iterate v) := by
  have hother (v : Value) :
      Quiet Q (fun xs => ∀ w ∈ xs, w.Holds Q)
        (Run.describe v >>= fun label => Run.raise (.notIterable label) : Run (Array Value)) :=
    bind (describe v) fun _ _ => raise rfl
  cases v with
  | array a => exact items a
  | string s =>
    apply pure
    intro w hw
    obtain ⟨c, -, rfl⟩ := List.mem_map.mp (List.mem_toArray.mp hw)
    trivial
  | _ => exact hother _

theorem toPrimitive {v : Value} (hv : v.Holds Q) : Quiet Q (Value.Holds Q) (Run.toPrimitive v) := by
  cases v with
  | array a => exact bind (toText _) fun _ _ => pure trivial
  | object o => exact bind (toText _) fun _ _ => pure trivial
  | function f identity => exact pure trivial
  | _ => exact pure hv

theorem toSummand {v : Value} (hv : v.Holds Q) : Quiet Q (Value.Holds Q) (Run.toSummand v) := by
  cases v with
  | array a => exact bind (toStrictText _) fun _ _ => pure trivial
  | _ => exact toPrimitive hv

/-- A sum is quiet: the operands are converted to texts or numbers without a call. -/
theorem add {v w : Value} (hv : v.Holds Q) (hw : w.Holds Q) :
    Quiet Q (Value.Holds Q) (Run.add v w) := by
  unfold Run.add
  split
  · exact pure trivial
  · refine bind (toSummand hv) fun a _ => bind (toSummand hw) fun b _ => ?_
    split
    · exact bind (toText _) fun _ _ => makeString _
    · exact bind (toText _) fun _ _ => makeString _
    · exact bind (toNumber _) fun _ _ => bind (toNumber _) fun _ _ => pure trivial

theorem numeric (f : Float → Float → Float) (v w : Value) :
    Quiet Q (Value.Holds Q) (Run.numeric f v w) :=
  bind (toNumber v) fun _ _ => bind (toNumber w) fun _ _ => pure trivial

theorem compare? {v w : Value} (hv : v.Holds Q) (hw : w.Holds Q) :
    Quiet Q Any (Run.compare? v w) := by
  unfold Run.compare?
  refine bind (toPrimitive hv) fun a _ => bind (toPrimitive hw) fun b _ => ?_
  split
  · exact pure trivial
  · exact bind (toNumber _) fun _ _ => bind (toNumber _) fun _ _ => pure trivial

theorem comparison (holds : Ordering → Bool) {v w : Value} (hv : v.Holds Q) (hw : w.Holds Q) :
    Quiet Q (Value.Holds Q) (Run.comparison holds v w) :=
  bind (compare? hv hw) fun _ _ => pure trivial

theorem equalNumbers (v w : Value) :
    Quiet Q Any (Run.toNumber v >>= fun x => Run.toNumber w >>= fun y =>
      (Pure.pure (x == y) : Run Bool)) :=
  bind (toNumber v) fun _ _ => bind (toNumber w) fun _ _ => pure trivial

theorem looseEqPrimitive (v w : Value) : Quiet Q Any (Run.looseEqPrimitive v w) := by
  unfold Run.looseEqPrimitive
  split
  · exact equalNumbers _ _
  · exact equalNumbers _ _
  · exact pure trivial

/-- Comparing with `==` is quiet: a conversion that it takes calls no function of the script. -/
theorem looseEq {v w : Value} (hv : v.Holds Q) (hw : w.Holds Q) :
    Quiet Q Any (Run.looseEq v w) := by
  have hprimitive (v w : Value) (hv : v.Holds Q) (hw : w.Holds Q) :
      Quiet Q Any (Run.toPrimitive v >>= fun a => Run.toPrimitive w >>= fun b =>
        Run.looseEqPrimitive a b) :=
    bind (toPrimitive hv) fun _ _ => bind (toPrimitive hw) fun _ _ => looseEqPrimitive _ _
  unfold Run.looseEq
  split
  · exact pure trivial
  · exact pure trivial
  · exact pure trivial
  · exact pure trivial
  · exact equalNumbers _ _
  · exact equalNumbers _ _
  all_goals first
    | exact hprimitive _ _ trivial trivial
    | exact looseEqPrimitive _ _

theorem isIn (key container : Value) : Quiet Q (Value.Holds Q) (Run.isIn key container) := by
  refine bind (toText key) fun _ _ => ?_
  split
  · exact bind (object _) fun _ _ => pure trivial
  · exact bind (items _) fun _ _ => pure trivial
  · exact bind (toText _) fun _ _ => raise rfl

theorem instanceOf (v f : Value) : Quiet Q (Value.Holds Q) (Run.instanceOf v f) := by
  cases f with
  | function f identity =>
    cases v with
    | object o => exact bind (object o) fun _ _ => pure trivial
    | _ => exact pure trivial
  | _ => exact raise rfl

/-- All operators are quiet, and what they make is no function. -/
theorem binary (op : BinaryOp) {v w : Value} (hv : v.Holds Q) (hw : w.Holds Q) :
    Quiet Q (Value.Holds Q) (Run.binary op v w) := by
  cases op with
  | add => exact add hv hw
  | looseEq => exact bind (looseEq hv hw) fun _ _ => pure trivial
  | looseNe => exact bind (looseEq hv hw) fun _ _ => pure trivial
  | strictEq => exact pure trivial
  | strictNe => exact pure trivial
  | lt => exact comparison _ hv hw
  | le => exact comparison _ hv hw
  | gt => exact comparison _ hv hw
  | ge => exact comparison _ hv hw
  | isIn => exact isIn v w
  | instanceOf => exact instanceOf v w
  | _ => exact numeric _ v w

end Quiet

end Snippet.Script
