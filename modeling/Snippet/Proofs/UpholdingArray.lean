import Snippet.Proofs.JsonKeys
import Snippet.Proofs.Upholding

/-!
Arrays, and the methods and built-in functions that make or change them. They leave the scopes alone, and so
uphold every condition that does not depend on which arrays there are, if the functions that they call do.
-/

namespace Snippet.Script

class ArrayCondition (S : Machine → Prop) : Prop extends StoreCondition S where
  makeArrayOf (xs : Array Value) : Upholds S Any (Run.makeArrayOf xs)
  modifyItems (a : ArrayRef) (f : Array Value → Array Value) : Upholds S Any (Run.modifyItems a f)

class ArrayFreeCondition (S : Machine → Prop) : Prop extends StoreCondition S where
  indifferent {m m' : Machine} : S m → m'.heap.scopes = m.heap.scopes → m'.heap.objects = m.heap.objects → S m'

instance (S : Machine → Prop) [ArrayFreeCondition S] : ArrayCondition S where
  makeArrayOf _ _ hm := ⟨trivial, ArrayFreeCondition.indifferent hm rfl rfl⟩
  modifyItems _ _ _ hm := ⟨trivial, ArrayFreeCondition.indifferent hm rfl rfl⟩

instance (S : Machine → Prop) [ScopeCondition S] : ArrayFreeCondition S :=
  ⟨fun hm heq _ => ScopeCondition.stable hm heq⟩

namespace Upholds

variable {S : Machine → Prop} [ArrayCondition S] {α : Type}

theorem makeArrayOf (xs : Array Value) : Upholds S Any (Run.makeArrayOf xs) := ArrayCondition.makeArrayOf xs

theorem makeArray (xs : List Value) : Upholds S Any (Run.makeArray xs) := makeArrayOf _

theorem modifyItems (a : ArrayRef) (f : Array Value → Array Value) : Upholds S Any (Run.modifyItems a f) :=
  ArrayCondition.modifyItems a f

theorem setItem (a : ArrayRef) (i : Nat) (v : Value) : Upholds S Any (Run.setItem a i v) := by
  refine ite (fun _ => raise _) fun _ => ?_
  exact bind (items a) fun _ _ => bind (charge _) fun _ _ => modifyItems a _

theorem setLength (a : ArrayRef) (length : Float) : Upholds S Any (Run.setLength a length) :=
  ite (fun _ => raise _) fun _ => modifyItems a _

/-- Setting a member changes an array or an object, which the condition allows. -/
theorem setMember (v : Value) (key : String) (w : Value) : Upholds S Any (Run.setMember v key w) := by
  cases v with
  | undefined => exact raise _
  | null => exact raise _
  | array a =>
    unfold Run.setMember
    dsimp only
    cases indexOfKey? key with
    | some i => exact setItem a i w
    | none =>
      exact ite (fun _ => bind (toNumber w) fun _ _ => setLength a _) fun _ => pure trivial
  | object o => exact StoreCondition.modifyObject o fun object => object.becomes_set key w
  | _ => exact pure trivial

theorem splitParts (s : String) (arguments : List Value) : Upholds S Any (Run.splitParts s arguments) := by
  unfold Run.splitParts
  dsimp only
  split
  · refine bind (V := Any) (pure trivial) fun parts _ => ?_
    refine bind (numberArgument? arguments 1) fun limit? _ => ?_
    cases limit? with
    | none => exact makeArray _
    | some limit => exact makeArray _
  · refine bind (toText _) fun _ _ => bind (V := Any) (pure trivial) fun parts _ => ?_
    refine bind (numberArgument? arguments 1) fun limit? _ => ?_
    cases limit? with
    | none => exact makeArray _
    | some limit => exact makeArray _

/-- The methods of strings make arrays at most, and call what they are given. -/
theorem stringMethod {call : Value → List Value → Run Value}
    (hcall : ∀ f arguments, Upholds S Any (call f arguments)) (s : String) (m : StringMethod)
    (arguments : List Value) :
    Upholds S Any (Run.stringMethod call s m arguments) := by
  have hnumber (i : Nat) : Upholds S Any (Run.numberArgument? arguments i) :=
    numberArgument? arguments i
  have htext : Upholds S Any (Run.textArgument arguments 0) := textArgument arguments 0
  have hchar (chars : List Char) : Upholds S Any (Run.charArgument? chars arguments) :=
    charArgument? chars arguments
  cases m with
  | item => exact bind (hnumber 0) fun _ _ => pure trivial
  | charAt => exact bind (hchar _) fun _ _ => pure trivial
  | charCodeAt => exact bind (hchar _) fun _ _ => pure trivial
  | indexOf => exact bind htext fun _ _ => bind (hnumber 1) fun _ _ => pure trivial
  | lastIndexOf => exact bind htext fun _ _ => pure trivial
  | includes => exact bind htext fun _ _ => pure trivial
  | startsWith => exact bind htext fun _ _ => pure trivial
  | endsWith => exact bind htext fun _ _ => pure trivial
  | slice => exact bind (hnumber 0) fun _ _ => bind (hnumber 1) fun _ _ => pure trivial
  | substring => exact bind (hnumber 0) fun _ _ => bind (hnumber 1) fun _ _ => pure trivial
  | substr => exact bind (hnumber 0) fun _ _ => bind (hnumber 1) fun _ _ => pure trivial
  | concat => exact bind (mapM fun v _ => toText v) fun _ _ => makeString _
  | repeated => exact repeated s arguments
  | padStart => exact padded true s arguments
  | padEnd => exact padded false s arguments
  | replace => exact replaced hcall false s arguments
  | replaceAll => exact replaced hcall true s arguments
  | split => exact splitParts s arguments
  | _ => exact pure trivial

theorem visitResult (v : Visit) (done : List Value) : Upholds S Any (Run.visitResult v done) := by
  cases v with
  | map => exact makeArray _
  | flatMap => exact makeArray _
  | filter => exact makeArray _
  | _ => exact pure trivial

theorem splice (a : ArrayRef) (arguments : List Value) : Upholds S Any (Run.splice a arguments) := by
  have hchange (start count : Nat) : Upholds S Any (do
      let removed := (← Run.items a).extract start (start + count)
      Run.modifyItems a (spliced start count (arguments.drop 2))
      Run.makeArrayOf removed) :=
    bind (items a) fun _ _ => bind (modifyItems a _) fun _ _ => makeArrayOf _
  refine bind (items a) fun xs _ => bind (numberArgument? arguments 0) fun start? _ => ?_
  dsimp only
  split
  · exact hchange _ _
  · exact hchange _ _
  · exact bind (toNumber _) fun _ _ => hchange _ _

theorem concatenated (a : ArrayRef) (arguments : List Value) :
    Upholds S Any (Run.concatenated a arguments) := by
  refine bind (items a) fun xs _ => bind (foldlM (W := Any) (fun acc _ v _ => ?_) trivial)
    fun all _ => makeArrayOf all
  cases v with
  | array other => exact bind (items other) fun _ _ => pure trivial
  | _ => exact pure trivial

section Calls

variable {call : Caller} (hcall : ∀ f receiver arguments, Upholds S Any (call f receiver arguments))
include hcall

/-- By induction on the elements that are left. -/
theorem visit (v : Visit) (callback receiver array : Value) (done : List Value)
    (xs : List (Nat × Value)) :
    Upholds S Any (Run.visit call v callback receiver array done xs) := by
  induction xs generalizing done with
  | nil => exact visitResult v done
  | cons e rest ih =>
    obtain ⟨i, item⟩ := e
    refine bind (hcall callback receiver _) fun result _ => ?_
    refine bind (visitStep v done i item result) fun step _ => ?_
    cases step with
    | error result => exact pure trivial
    | ok done => exact ih done

/-- The methods of arrays uphold a condition if what they call does: each of them reads, makes or changes an
array. -/
theorem arrayMethod (a : ArrayRef) (m : ArrayMethod) (arguments : List Value) :
    Upholds S Any (Run.arrayMethod call a m arguments) := by
  have hnumber (i : Nat) : Upholds S Any (Run.numberArgument? arguments i) :=
    numberArgument? arguments i
  have hcallback : Upholds S Any (Run.callbackArgument arguments m.name) :=
    callbackArgument arguments m.name
  -- Each method reads elements, puts a list in their place, or makes an array; only some of them call.
  cases m with
  | push =>
    exact bind (checkGrowth a arguments) fun _ _ => bind (modifyItems a _) fun _ _ => lengthValue a
  | pop => exact bind (items a) fun _ _ => bind (modifyItems a _) fun _ _ => pure trivial
  | shift => exact bind (items a) fun _ _ => bind (modifyItems a _) fun _ _ => pure trivial
  | unshift =>
    exact bind (checkGrowth a arguments) fun _ _ => bind (modifyItems a _) fun _ _ => lengthValue a
  | item => exact bind (items a) fun _ _ => bind (hnumber 0) fun _ _ => pure trivial
  | slice =>
    exact bind (items a) fun _ _ => bind (hnumber 0) fun _ _ => bind (hnumber 1) fun _ _ => makeArrayOf _
  | splice => exact splice a arguments
  | concat => exact concatenated a arguments
  | join =>
    have hjoined (separator : String) :
        Upholds S Any (Run.items a >>= fun xs => Run.joined separator xs.toList) :=
      bind (items a) fun xs _ => joined separator xs.toList
    unfold Run.arrayMethod
    dsimp only
    split
    · exact hjoined ","
    · exact bind (toText _) fun separator _ => hjoined separator
  | text => exact bind (items a) fun xs _ => joined "," xs.toList
  | reverse => exact bind (modifyItems a _) fun _ _ => pure trivial
  | indexOf => exact bind (items a) fun _ _ => pure trivial
  | lastIndexOf => exact bind (items a) fun _ _ => pure trivial
  | includes => exact bind (items a) fun _ _ => pure trivial
  | fill =>
    refine bind (items a) fun _ _ => bind (hnumber 1) fun _ _ => bind (hnumber 2) fun _ _ => ?_
    exact bind (modifyItems a _) fun _ _ => pure trivial
  | flat =>
    refine bind (hnumber 0) fun _ _ => bind (items a) fun _ _ => ?_
    exact bind (flattenWithin _ _ _ _) fun _ _ => makeArray _
  | sort =>
    refine bind (sortOrder hcall arguments) fun swap hswap => bind (items a) fun xs _ => ?_
    refine bind (sortWithin hswap _ xs.toList) fun sorted _ => ?_
    exact bind (modifyItems a _) fun _ _ => pure trivial
  | reduce =>
    exact bind hcallback fun callback _ => bind (items a) fun xs _ => reduceFrom hcall _ _ _ _
  | reduceRight =>
    exact bind hcallback fun callback _ => bind (items a) fun xs _ => reduceFrom hcall _ _ _ _
  | visit v => exact bind hcallback fun callback _ => bind (items a) fun xs _ => visit hcall v _ _ _ _ _

end Calls

mutual

theorem ofJson {S : Machine → Prop} [ArrayCondition S] {json : Json} (h : json.Distinct) :
    Upholds S Any (Run.ofJson json) := by
  cases json with
  | array items => exact bind (ofJsonItems h) fun vs _ => makeArray vs
  | object members =>
    rw [Json.Distinct] at h
    refine bind (ofJsonMembers h.2) fun entries hkeys => StoreCondition.makeObject ?_
    rw [Object.memberKeys, List.append_nil, hkeys]
    exact h.1
  | _ => exact pure trivial

theorem ofJsonItems {S : Machine → Prop} [ArrayCondition S] {items : List Json} (h : Json.itemsDistinct items) :
    Upholds S Any (Run.ofJsonItems items) := by
  cases items with
  | nil => exact pure trivial
  | cons item rest =>
    rw [Json.itemsDistinct] at h
    exact bind (ofJson h.1) fun _ _ => bind (ofJsonItems h.2) fun _ _ => pure trivial

theorem ofJsonMembers {S : Machine → Prop} [ArrayCondition S] {members : List (String × Json)}
    (h : Json.membersDistinct members) :
    Upholds S (fun entries => entries.map Prod.fst = members.map Prod.fst) (Run.ofJsonMembers members) := by
  cases members with
  | nil => exact pure rfl
  | cons member rest =>
    obtain ⟨key, value⟩ := member
    rw [Json.membersDistinct] at h
    exact bind (ofJson h.1) fun _ _ => bind (ofJsonMembers h.2) fun _ hkeys => pure (congrArg (key :: ·) hkeys)

end

theorem parseJson (arguments : List Value) : Upholds S Any (Run.parseJson arguments) := by
  refine bind (textArgument arguments 0) fun text _ => ?_
  cases hread : Json.read text with
  | ok json => exact ofJson (Json.distinct_of_read hread)
  | error failure => exact bind (makeError _ _) fun _ _ => throw _

theorem memberPairs (v : Value) (keys : List String) : Upholds S Any (Run.memberPairs v keys) :=
  (mapM (W := Any) fun key _ => bind (getMember v key) fun _ _ => makeArray _).any

theorem copyMembers (target source : Value) : Upholds S Any (Run.copyMembers target source) := by
  refine bind (ownKeys source) fun keys _ => bind (forIn fun key _ => ?_) fun _ _ => pure trivial
  exact bind (getMember source key) fun v _ => bind (setMember target key v) fun _ _ => pure rfl

theorem arrayFrom {call : Caller} (hcall : ∀ f receiver arguments, Upholds S Any (call f receiver arguments))
    (arguments : List Value) : Upholds S Any (Run.arrayFrom call arguments) := by
  refine bind (sourceItems _) fun items _ => ite (fun _ => ?_) fun _ => makeArray _
  exact bind (mapM (W := Any) fun _ _ => hcall _ _ _) fun vs _ => makeArray vs

theorem newArray (arguments : List Value) : Upholds S Any (Run.newArray arguments) := by
  unfold Run.newArray
  split
  · exact ite (fun _ => raise _) fun _ => makeArray _
  · exact makeArray _

/-- Built-in functions uphold a condition if what they call does. -/
theorem callBuiltin {call : Caller}
    (hcall : ∀ f receiver arguments, Upholds S Any (call f receiver arguments)) (b : Builtin)
    (arguments : List Value) : Upholds S Any (Run.callBuiltin call b arguments) := by
  -- Converting arguments to numbers looks at the heap only.
  have hnumber (i : Nat) : Upholds S Any (Run.numberOf arguments i) := numberOf arguments i
  cases b with
  | print channel =>
    exact bind (consoleLine arguments) fun line _ => bind (modifyTranscript _) fun _ _ => pure trivial
  | prompt => exact prompt
  | setTimeout => exact setTimer false arguments
  | setInterval => exact setTimer true arguments
  | clearTimeout => exact clearTimer arguments
  | clearInterval => exact clearTimer arguments
  | random => exact bind random fun _ _ => pure trivial
  | parseInt => exact readInteger arguments
  | numberParseInt => exact readInteger arguments
  | parseFloat => exact readNumber arguments
  | numberParseFloat => exact readNumber arguments
  | isNaN => exact bind (hnumber 0) fun _ _ => pure trivial
  | isFinite => exact bind (hnumber 0) fun _ _ => pure trivial
  | number => exact convertToNumber arguments
  | string => exact convertToString arguments
  | boolean => exact pure trivial
  | object => exact newObject arguments
  | array => exact newArray arguments
  | error kind => exact newError kind arguments
  | mathFunction f => exact bind (hnumber 0) fun _ _ => pure trivial
  | atan2 => exact bind (hnumber 0) fun _ _ => bind (hnumber 1) fun _ _ => pure trivial
  | pow => exact bind (hnumber 0) fun _ _ => bind (hnumber 1) fun _ _ => pure trivial
  | hypot => exact bind (mapM fun v _ => toNumber v) fun _ _ => pure trivial
  | min => exact extremeOf _ _ arguments
  | max => exact extremeOf _ _ arguments
  | jsonText => exact jsonText arguments
  | assign =>
    refine bind (forIn fun source hs => ?_) fun _ _ => pure trivial
    exact bind (copyMembers _ _) fun _ _ => pure rfl
  | fromEntries => exact objectOfPairs _
  | isArray =>
    unfold Run.callBuiltin
    dsimp only
    split
    · exact pure trivial
    · exact pure trivial
  | arrayOf => exact makeArray arguments
  | isInteger => exact testNumber _ arguments
  | isSafeInteger => exact testNumber _ arguments
  | numberIsFinite => exact testNumber _ arguments
  | numberIsNaN => exact testNumber _ arguments
  | fromCharCode => exact bind (mapM fun v _ => toNumber v) fun _ _ => makeString _
  | console => exact raise _
  | math => exact raise _
  | json => exact raise _
  | jsonParse => exact parseJson arguments
  | keys => exact bind (ownKeys _) fun _ _ => makeArray _
  | values =>
    exact bind (ownKeys _) fun _ _ => bind (mapM (W := Any) fun _ _ => getMember _ _) fun vs _ => makeArray vs
  | entries => exact bind (ownKeys _) fun _ _ => bind (memberPairs _ _) fun vs _ => makeArray vs
  | arrayFrom => exact arrayFrom hcall arguments

theorem constructBuiltin (b : Builtin) (arguments : List Value) :
    Upholds S Any (Run.constructBuiltin b arguments) := by
  cases b with
  | error kind => exact newError kind arguments
  | array => exact newArray arguments
  | object => exact newObject arguments
  | number => exact convertToNumber arguments
  | string => exact convertToString arguments
  | boolean => exact pure trivial
  | _ => exact raise _

end Upholds

end Snippet.Script
