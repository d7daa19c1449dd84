import Snippet.Proofs.QuietMethod

/-!
The built-in functions that neither print, read, draw random numbers, work on the timers nor call functions
are quiet; so are the declarations that functions, blocks and loops make.
-/

namespace Snippet.Script

def Sound {α : Type} (r : Except RuntimeError α) : Prop := ∀ e, r = .error e → e.isOffTarget = false

namespace Sound

variable {α β : Type}

theorem ok {a : α} : Sound (.ok a) := fun _ he => nomatch he

theorem error {e : RuntimeError} (he : e.isOffTarget = false) : Sound (.error e : Except RuntimeError α) :=
  fun _ h => Except.error.inj h ▸ he

theorem bind {r : Except RuntimeError α} {f : α → Except RuntimeError β} (hr : Sound r)
    (hf : ∀ a, Sound (f a)) : Sound (r >>= f) := by
  cases r with
  | ok a => exact hf a
  | error e => exact error (hr e rfl)

theorem mapM {f : α → Except RuntimeError β} (hf : ∀ a, Sound (f a)) (xs : List α) :
    Sound (xs.mapM f) := by
  induction xs with
  | nil => exact ok
  | cons a rest ih =>
    rw [List.mapM_cons]
    exact bind (hf a) fun _ => bind ih fun _ => ok

end Sound

/-- The form in JSON is made of what the heap holds. -/
theorem Heap.sound_jsonWithin? (h : Heap) (depth : Nat) (around : List Container) (v : Value) :
    Sound (h.jsonWithin? depth around v) := by
  induction depth generalizing around v with
  | zero =>
    cases v with
    | array a =>
      unfold jsonWithin?
      split <;> exact Sound.error rfl
    | object o =>
      unfold jsonWithin?
      split <;> exact Sound.error rfl
    | _ => exact Sound.ok
  | succ depth ih =>
    cases v with
    | array a =>
      unfold jsonWithin?
      split
      · exact Sound.error rfl
      · refine Sound.bind (Sound.mapM (fun v => ?_) _) fun _ => Sound.ok
        exact Sound.bind (ih _ v) fun _ => Sound.ok
    | object o =>
      unfold jsonWithin?
      split
      · exact Sound.error rfl
      · refine Sound.bind (Sound.mapM (fun e => ?_) _) fun _ => Sound.ok
        exact Sound.bind (ih _ e.2) fun _ => Sound.ok
    | _ => exact Sound.ok

namespace Quiet

variable {Q : Func → Prop} {α : Type} {V : α → Prop}

theorem numberOf (arguments : List Value) (i : Nat) :
    Quiet Q Any (Run.numberOf arguments i) := by
  unfold Run.numberOf
  split
  · exact toNumber _
  · exact pure trivial

mutual

theorem ofJson (json : Json) : Quiet Q (Value.Holds Q) (Run.ofJson json) := by
  cases json with
  | array items => exact bind (ofJsonItems items) fun vs hvs => makeArray hvs
  | object members =>
    refine bind (ofJsonMembers members) fun entries he => makeObject ⟨he, ?_⟩
    exact fun e hm => absurd hm List.not_mem_nil
  | _ => exact pure trivial

theorem ofJsonItems (items : List Json) : Quiet Q (AllHold Q) (Run.ofJsonItems items) := by
  cases items with
  | nil => exact pure allHold_nil
  | cons item rest =>
    refine bind (ofJson item) fun v hv => bind (ofJsonItems rest) fun vs hvs => ?_
    exact pure (allHold_cons hv hvs)

/-- Reading a form in JSON adds to the heap only. -/
theorem ofJsonMembers (members : List (String × Json)) :
    Quiet Q (fun es => ∀ e ∈ es, e.2.Holds Q) (Run.ofJsonMembers members) := by
  cases members with
  | nil => exact pure fun e he => absurd he List.not_mem_nil
  | cons member rest =>
    obtain ⟨key, value⟩ := member
    refine bind (ofJson value) fun v hv => bind (ofJsonMembers rest) fun es hes => pure ?_
    intro e he
    obtain rfl | he := List.mem_cons.mp he
    · exact hv
    · exact hes e he

end

theorem parseJson (arguments : List Value) :
    Quiet Q (Value.Holds Q) (Run.parseJson arguments) := by
  refine bind (textArgument arguments 0) fun text _ => ?_
  cases Json.read text with
  | ok json => exact ofJson json
  | error failure => exact bind (makeError _ _) fun v hv => throw hv

theorem jsonText (arguments : List Value) : Quiet Q (Value.Holds Q) (Run.jsonText arguments) := by
  refine bind heap fun h _ => ?_
  have hsound : Sound (h.json? (Run.argument arguments 0)) := h.sound_jsonWithin? _ _ _
  refine bind (V := Any) (ofExcept (fun _ _ => trivial) hsound) fun json? _ => ?_
  cases json? with
  | none => exact pure trivial
  | some json => exact makeString _

theorem memberValues {v : Value} (hv : v.Holds Q) (keys : List String) :
    Quiet Q (AllHold Q) (Run.memberValues v keys) :=
  mapM fun key _ => getMember hv key

theorem memberPairs {v : Value} (hv : v.Holds Q) (keys : List String) :
    Quiet Q (AllHold Q) (Run.memberPairs v keys) := by
  refine mapM fun key _ => bind (getMember hv key) fun w hw => makeArray ?_
  exact allHold_cons trivial (allHold_cons hw allHold_nil)

theorem copyMembers (target : Value) {source : Value} (hs : source.Holds Q) :
    Quiet Q Any (Run.copyMembers target source) := by
  refine bind (ownKeys source) fun keys _ => ?_
  refine bind (forIn fun key _ => ?_) fun _ _ => pure trivial
  refine bind (getMember hs key) fun v hv => ?_
  exact bind (setMember target key hv) fun _ _ => pure rfl

theorem objectOfPairs (v : Value) : Quiet Q (Value.Holds Q) (Run.objectOfPairs v) := by
  refine bind (iterate v) fun pairs _ => bind (foldlM (fun o ho pair _ => ?_) Object.holds_empty)
    fun o ho => makeObject ho
  refine bind (iterate pair) fun xs hxs => bind (toText _) fun key _ => pure ?_
  exact Object.holds_set ho key (holds_argument (allHold_toList hxs) 1)

/-- The elements that an array is made from are those that a value holds. -/
theorem sourceItems (v : Value) : Quiet Q (AllHold Q) (Run.sourceItems v) := by
  have hlength (length : Float) :
      Quiet Q (AllHold Q)
        (if 0.0 ≤ length && length ≤ Float.ofNat maxArraySize then
          Pure.pure (List.replicate (Number.toNatClamped length) .undefined)
        else Run.raise .arrayLength : Run (List Value)) :=
    ite (fun _ => pure (allHold_replicate _ holds_undefined)) fun _ => raise rfl
  unfold Run.sourceItems
  split
  · refine bind (object _) fun o _ => ?_
    dsimp only
    split
    · exact bind (toNumber _) fun length _ => hlength length
    · exact hlength 0.0
  · exact bind (iterate _) fun xs hxs => pure (allHold_toList hxs)

theorem newError (kind : ErrorKind) (arguments : List Value) :
    Quiet Q (Value.Holds Q) (Run.newError kind arguments) := by
  unfold Run.newError
  split
  · exact makeError kind ""
  · exact bind (toText _) fun _ _ => makeError kind _

theorem newArray {arguments : List Value} (ha : AllHold Q arguments) :
    Quiet Q (Value.Holds Q) (Run.newArray arguments) := by
  unfold Run.newArray
  split
  · exact ite (fun _ => raise rfl) fun _ => makeArray (allHold_replicate _ holds_undefined)
  · exact makeArray ha

theorem newObject {arguments : List Value} (ha : AllHold Q arguments) :
    Quiet Q (Value.Holds Q) (Run.newObject arguments) := by
  have hargument := holds_argument ha 0
  unfold Run.newObject
  split
  · exact pure trivial
  · exact pure trivial
  · rename_i f identity hf
    rw [hf] at hargument
    exact pure hargument
  · exact makeObject Object.holds_empty

theorem convertToNumber (arguments : List Value) :
    Quiet Q (Value.Holds Q) (Run.convertToNumber arguments) := by
  cases arguments with
  | nil => exact pure trivial
  | cons v rest => exact bind (toNumber v) fun _ _ => pure trivial

theorem convertToString (arguments : List Value) :
    Quiet Q (Value.Holds Q) (Run.convertToString arguments) := by
  cases arguments with
  | nil => exact pure trivial
  | cons v rest => exact bind (toStrictText v) fun _ _ => pure trivial

theorem convertToBool (arguments : List Value) :
    Quiet Q (Value.Holds Q) (Run.convertToBool arguments) :=
  pure trivial

theorem testNumber (test : Float → Bool) (arguments : List Value) :
    Quiet Q (Value.Holds Q) (Run.testNumber test arguments) := by
  unfold Run.testNumber
  split
  · exact pure trivial
  · exact pure trivial

theorem readInteger (arguments : List Value) :
    Quiet Q (Value.Holds Q) (Run.readInteger arguments) :=
  bind (textArgument arguments 0) fun _ _ =>
    bind (numberArgument? arguments 1) fun _ _ => pure trivial

theorem readNumber (arguments : List Value) : Quiet Q (Value.Holds Q) (Run.readNumber arguments) :=
  bind (textArgument arguments 0) fun _ _ => pure trivial

theorem extremeOf (precedes : Float → Float → Bool) (best : Float) (arguments : List Value) :
    Quiet Q (Value.Holds Q) (Run.extremeOf precedes best arguments) := by
  induction arguments generalizing best with
  | nil => exact pure trivial
  | cons v rest ih =>
    refine bind (toNumber v) fun x _ => ?_
    split
    · exact pure trivial
    · exact ih _

theorem hypotenuse (arguments : List Value) : Quiet Q (Value.Holds Q) (Run.hypotenuse arguments) :=
  bind (mapM fun v _ => toNumber v) fun _ _ => pure trivial

/-- Built-in functions are quiet as constructors. -/
theorem constructBuiltin (b : Builtin) {arguments : List Value} (ha : AllHold Q arguments) :
    Quiet Q (Value.Holds Q) (Run.constructBuiltin b arguments) := by
  cases b with
  | error kind => exact newError kind arguments
  | array => exact newArray ha
  | object => exact newObject ha
  | number => exact convertToNumber arguments
  | string => exact convertToString arguments
  | boolean => exact convertToBool arguments
  | _ => exact raise rfl

mutual

/-- Binding a target declares its names, and nothing else. -/
theorem bindTarget (scope : ScopeRef) (isMutable : Bool) (target : Target) {v : Value}
    (hv : v.Holds Q) : Quiet Q Any (Run.bind scope isMutable target v) := by
  cases target with
  | name name => exact declare scope name hv isMutable
  | array elements =>
    exact bind (iterate v) fun xs hxs => bindElements scope isMutable elements (allHold_toList hxs)
  | object members =>
    refine ite (fun _ => ?_) fun _ => bindMembers scope isMutable members hv
    exact bind (toText v) fun _ _ => raise rfl

theorem bindElements (scope : ScopeRef) (isMutable : Bool) (elements : List (Option Target))
    {vs : List Value} (hv : AllHold Q vs) :
    Quiet Q Any (Run.bindElements scope isMutable elements vs) := by
  cases elements with
  | nil => exact pure trivial
  | cons element? rest =>
    have hrest := bindElements scope isMutable rest (holds_tail hv)
    cases element? with
    | none => exact hrest
    | some element =>
      exact bind (bindTarget scope isMutable element (holds_headD hv)) fun _ _ => hrest

theorem bindMembers (scope : ScopeRef) (isMutable : Bool) (members : List (String × Target))
    {v : Value} (hv : v.Holds Q) : Quiet Q Any (Run.bindMembers scope isMutable v members) := by
  cases members with
  | nil => exact pure trivial
  | cons member rest =>
    obtain ⟨key, target⟩ := member
    refine bind (getMember hv key) fun w hw => ?_
    refine bind (bindTarget scope isMutable target hw) fun _ _ => ?_
    exact bindMembers scope isMutable rest hv

end

/-- Making the functions that statements declare is quiet where they belong to `Q`. -/
theorem hoist (scope : ScopeRef) {statements : List Stmt}
    (hs : ∀ f, .function f ∈ statements → Q f) : Quiet Q Any (Run.hoist scope statements) := by
  fun_induction Run.hoist scope statements with
  | case1 => exact pure trivial
  | case2 f rest next name hn ih =>
    have hrest := ih fun g hg => hs g (List.mem_cons_of_mem _ hg)
    refine bind (makeClosure (hs f List.mem_cons_self) scope) fun v hv => ?_
    exact bind (declare scope _ hv true) fun _ _ => hrest
  | case3 f rest next hn ih => exact ih fun g hg => hs g (List.mem_cons_of_mem _ hg)
  | case4 s rest hne ih => exact ih fun g hg => hs g (List.mem_cons_of_mem _ hg)

theorem hasOwnEntry (o : ObjectRef) (arguments : List Value) :
    Quiet Q (Value.Holds Q) (Run.hasOwnEntry o arguments) :=
  bind (toText _) fun _ _ => bind (object o) fun _ _ => pure trivial

theorem makeMethods (scope : ScopeRef) {methods : List (String × Func)}
    (hm : ∀ e ∈ methods, Q e.2) :
    Quiet Q (fun es => ∀ e ∈ es, e.2.Holds Q) (Run.makeMethods scope methods) :=
  mapM fun e he => bind (makeClosure (hm e he) scope) fun _ hv => pure hv

theorem spreadInto {o : Object} (ho : o.Holds Q) {v : Value} (hv : v.Holds Q) :
    Quiet Q (Object.Holds Q) (Run.spreadInto o v) := by
  refine bind (ownKeys v) fun keys _ => foldlM (fun o ho key _ => ?_) ho
  exact bind (getMember hv key) fun w hw => pure (Object.holds_set ho key hw)

theorem evalName (scope : ScopeRef) (name : String) :
    Quiet Q (Value.Holds Q) (Run.evalName scope name) := by
  refine bind (lookup? scope name) fun v? hv => ?_
  cases v? with
  | some v => exact pure (hv v rfl)
  | none => exact raise rfl

theorem assignName (name : String) {v : Value} (hv : v.Holds Q) (scope : ScopeRef) :
    Quiet Q Any (Run.assignName name v scope) := by
  refine bind heap fun h _ => ?_
  split
  · exact ite (fun _ => declare _ name hv true) fun _ => raise rfl
  · exact declare globalScope name hv true

theorem visited (keys : Bool) (subject : Value) :
    Quiet Q (AllHold Q) (Run.visited keys subject) := by
  refine ite (fun _ => ?_) fun _ => ?_
  · exact bind (ownKeys subject) fun _ _ => pure (allHold_of_map (fun _ => rfl) _)
  · exact bind (iterate subject) fun xs hxs => pure (allHold_toList hxs)

/-- What a handler receives for a fault of the script. -/
theorem caught? {e : Fault} (he : e.Plain Q) :
    Quiet Q (fun v? => ∀ v, v? = some v → v.Holds Q) (Run.caught? e) := by
  cases e with
  | raised e =>
    refine map (makeError e.kind e.message) fun v hv w hw => ?_
    obtain rfl := Option.some.inj hw
    exact hv
  | thrown v =>
    apply pure
    intro w hw
    obtain rfl := Option.some.inj hw
    exact he
  | endless => exact pure fun w hw => nomatch hw
  | timeout reached => exact he.elim
  | exhausted => exact he.elim

theorem nextRound (copies : Bool) (outer scope : ScopeRef) :
    Quiet Q Any (Run.nextRound copies outer scope) := by
  refine ite (fun _ => ?_) fun _ => pure trivial
  exact bind heap fun h hh => makeScope (Heap.holds_scope hh scope)

end Quiet

end Snippet.Script
