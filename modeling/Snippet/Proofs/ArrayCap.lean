import Snippet.Proofs.Timeout
import Snippet.Proofs.Upholding

/-!
Computations that keep arrays within the longest one. What pushes, stores or resizes looks at the size
first and fails instead of going beyond it; what makes an array of given elements does not, so it keeps
within the bound only if the elements do. Those that call functions keep within it if the functions do.
-/

namespace Snippet.Script

def Machine.Fits (m : Machine) : Prop := ∀ xs ∈ m.heap.arrays, xs.size ≤ maxArraySize

def Fitting {α : Type} (V : α → Prop) (x : Run α) : Prop :=
  -- A computation that keeps arrays within the longest one, whether it fails or not, given what is
  -- true of its results.
  ∀ m : Machine, m.Fits → Ends V Any Machine.Fits (x m)

def IsShort (vs : List Value) : Prop := vs.length ≤ maxArraySize

instance : HeapCondition Machine.Fits where
  stable {m m'} hm harrays _ := by
    unfold Machine.Fits
    rw [harrays]
    exact hm

namespace Fitting

open Upholds

variable {α : Type}

theorem makeArrayOf {xs : Array Value} (hx : xs.size ≤ maxArraySize) :
    Upholds Machine.Fits Any (Run.makeArrayOf xs) := by
  intro m hm
  refine ⟨trivial, fun ys hys => ?_⟩
  obtain hys | rfl := Array.mem_push.mp hys
  · exact hm ys hys
  · exact hx

theorem makeArray {xs : List Value} (hx : IsShort xs) : Upholds Machine.Fits Any (Run.makeArray xs) :=
  makeArrayOf hx

theorem size_items {m : Machine} (hm : m.Fits) (a : ArrayRef) :
    (m.heap.items a).size ≤ maxArraySize := by
  unfold Heap.items
  rw [Array.getD_eq_getD_getElem?]
  cases h : m.heap.arrays[a.address]? with
  | none => exact Nat.zero_le _
  | some xs => exact hm xs (Array.mem_of_getElem? h)

theorem items (a : ArrayRef) :
    Upholds Machine.Fits (fun xs => xs.size ≤ maxArraySize) (Run.items a) :=
  fun _ hm => ⟨size_items hm a, hm⟩

/-- A change of one cell keeps what is true of all cells if it is true of the one that it makes. -/
theorem forall_mem_modify_of {P : α → Prop} {xs : Array α} (hx : ∀ x ∈ xs, P x) {i : Nat} {f : α → α}
    (hf : ∀ x, xs[i]? = some x → P (f x)) : ∀ x ∈ xs.modify i f, P x := by
  intro x hm
  obtain ⟨j, hj, rfl⟩ := Array.mem_iff_getElem.mp hm
  rw [Array.getElem_modify]
  have hj' : j < xs.size := by simpa using hj
  split
  · rename_i heq
    subst heq
    exact hf _ (Array.getElem?_eq_getElem hj')
  · exact hx _ (Array.getElem_mem hj')

/-- A change of an array keeps within the bound if the elements it comes to in a state do. -/
theorem fits_modifyItems {m : Machine} (hm : m.Fits) (a : ArrayRef) {f : Array Value → Array Value}
    (hf : (f (m.heap.items a)).size ≤ maxArraySize) :
    Machine.Fits { m with heap := m.heap.modifyItems a f } := by
  refine forall_mem_modify_of hm fun xs hxs => ?_
  have hitems : m.heap.items a = xs := by
    unfold Heap.items
    rw [Array.getD_eq_getD_getElem?, hxs]
    rfl
  rwa [← hitems]

theorem modifyItems (a : ArrayRef) {f : Array Value → Array Value}
    (hf : ∀ xs : Array Value, xs.size ≤ maxArraySize → (f xs).size ≤ maxArraySize) :
    Upholds Machine.Fits Any (Run.modifyItems a f) :=
  fun _ hm => ⟨trivial, fits_modifyItems hm a (hf _ (size_items hm a))⟩

/-- An element is stored below the bound, so the array does not grow beyond it. -/
theorem setItem (a : ArrayRef) (i : Nat) (v : Value) : Upholds Machine.Fits Any (Run.setItem a i v) := by
  refine ite (fun _ => raise _) fun hi => ?_
  refine bind (items a) fun _ _ => bind (charge _) fun _ _ => modifyItems a fun xs hx => ?_
  unfold Run.putItem
  split
  · rwa [Array.size_setIfInBounds]
  · rw [Array.size_push, Array.size_append, Array.size_replicate]
    omega

/-- A length beyond the longest array is refused, and a shorter one fits. -/
theorem setLength (a : ArrayRef) (length : Float) : Upholds Machine.Fits Any (Run.setLength a length) := by
  refine ite (fun _ => raise _) fun hlength => modifyItems a fun xs hx => ?_
  have hle : Number.toNatClamped length ≤ maxArraySize := by simp at hlength; omega
  unfold Run.resize
  split
  · rw [Array.size_extract]
    omega
  · rw [Array.size_append, Array.size_replicate]
    omega

/-- Storing a member makes an array no longer than the longest one: beyond it there is a fault. -/
theorem setMember (v : Value) (key : String) (w : Value) :
    Upholds Machine.Fits Any (Run.setMember v key w) := by
  cases v with
  | undefined => exact raise _
  | null => exact raise _
  | array a =>
    unfold Run.setMember
    dsimp only
    cases indexOfKey? key with
    | some i => exact setItem a i w
    | none =>
      exact ite (fun _ => bind (toNumber w) fun _ _ => setLength a _) fun _ => pure trivial
  | object o => exact StoreCondition.modifyObject o fun object => object.becomes_set key w
  | _ => exact pure trivial

end Fitting

def StringMethod.isBounded : StringMethod → Bool
  | .split => false
  | _ => true

def ArrayMethod.isBounded : ArrayMethod → Bool
  -- Whether a method of arrays looks at the longest array before it makes a longer array than the
  -- one it is called on.
  | .splice | .concat | .flat | .visit .flatMap => false
  | _ => true

def Builtin.isBounded : Builtin → Bool
  -- Whether a built-in function makes no array but of its arguments, and of a given length only if
  -- it is not beyond that of the longest array.
  | .keys | .values | .entries | .arrayFrom | .jsonParse => false
  | _ => true

def Function.isBounded : Function → Bool
  | .stringMethod _ m => m.isBounded
  | .arrayMethod _ m => m.isBounded
  | .builtin b => b.isBounded
  | _ => true

namespace Fitting

open Upholds

/-- All methods of strings but the one that makes an array of the parts. -/
theorem stringMethod {call : Value → List Value → Run Value}
    (hcall : ∀ f arguments, Upholds Machine.Fits Any (call f arguments)) (s : String) {m : StringMethod}
    (hm : m.isBounded = true) (arguments : List Value) :
    Upholds Machine.Fits Any (Run.stringMethod call s m arguments) := by
  have hnumber (i : Nat) : Upholds Machine.Fits Any (Run.numberArgument? arguments i) :=
    numberArgument? arguments i
  have htext : Upholds Machine.Fits Any (Run.textArgument arguments 0) := textArgument arguments 0
  have hchar (chars : List Char) : Upholds Machine.Fits Any (Run.charArgument? chars arguments) :=
    charArgument? chars arguments
  cases m with
  | item => exact bind (hnumber 0) fun _ _ => pure trivial
  | charAt => exact bind (hchar _) fun _ _ => pure trivial
  | charCodeAt => exact bind (hchar _) fun _ _ => pure trivial
  | indexOf => exact bind htext fun _ _ => bind (hnumber 1) fun _ _ => pure trivial
  | lastIndexOf => exact bind htext fun _ _ => pure trivial
  | includes => exact bind htext fun _ _ => pure trivial
  | startsWith => exact bind htext fun _ _ => pure trivial
  | endsWith => exact bind htext fun _ _ => pure trivial
  | slice => exact bind (hnumber 0) fun _ _ => bind (hnumber 1) fun _ _ => pure trivial
  | substring => exact bind (hnumber 0) fun _ _ => bind (hnumber 1) fun _ _ => pure trivial
  | substr => exact bind (hnumber 0) fun _ _ => bind (hnumber 1) fun _ _ => pure trivial
  | concat => exact bind (mapM fun v _ => toText v) fun _ _ => makeString _
  | repeated => exact repeated s arguments
  | padStart => exact padded true s arguments
  | padEnd => exact padded false s arguments
  | replace => exact replaced hcall false s arguments
  | replaceAll => exact replaced hcall true s arguments
  | split => exact Bool.noConfusion hm
  | _ => exact pure trivial

section Sorting

variable {swap : SwapTest} (hswap : ∀ v w, Upholds Machine.Fits Any (swap v w))
include hswap

/-- A merge has as many elements as what it merges. -/
theorem merge (fuel : Nat) (done left right : List Value) :
    Upholds Machine.Fits (fun vs => vs.length = done.length + left.length + right.length)
      (Run.merge swap done fuel left right) := by
  induction fuel generalizing done left right with
  | zero =>
    apply Upholds.pure
    rw [List.length_append, List.length_append, List.length_reverse]
    omega
  | succ fuel ih =>
    cases left with
    | nil =>
      apply Upholds.pure
      rw [List.length_append, List.length_reverse]
      rfl
    | cons a left =>
      cases right with
      | nil =>
        apply Upholds.pure
        rw [List.length_append, List.length_reverse]
        rfl
      | cons b right =>
        refine bind (hswap a b) fun swaps _ => ite (fun _ => ?_) fun _ => ?_
        · refine (ih (b :: done) (a :: left) right).imp fun vs h => h.trans ?_
          simp only [List.length_cons]
          omega
        · refine (ih (a :: done) left (b :: right)).imp fun vs h => h.trans ?_
          simp only [List.length_cons]
          omega

/-- Sorting neither adds nor removes elements. -/
theorem sortWithin (fuel : Nat) (xs : List Value) :
    Upholds Machine.Fits (fun vs => vs.length = xs.length) (Run.sortWithin swap fuel xs) := by
  induction fuel generalizing xs with
  | zero => exact pure rfl
  | succ fuel ih =>
    refine ite (fun _ => pure rfl) fun _ => ?_
    have hhalves : (xs.splitAt (xs.length / 2)).1.length + (xs.splitAt (xs.length / 2)).2.length =
        xs.length := by
      rw [List.splitAt_eq, List.length_take, List.length_drop]
      omega
    refine bind (ih (xs.splitAt (xs.length / 2)).1) fun left hl =>
      bind (ih (xs.splitAt (xs.length / 2)).2) fun right hr => ?_
    refine (merge hswap _ [] left right).imp fun vs h => h.trans ?_
    rw [hl, hr, List.length_nil, Nat.zero_add, hhalves]

end Sorting

/-- Growing beyond the longest array is an error, and the array stays as it is. -/
theorem run_checkGrowth_full {m : Machine} {a : ArrayRef} {arguments : List Value}
    (h : maxArraySize < (m.heap.items a).size + arguments.length) :
    Run.checkGrowth a arguments m = .error (.raised .arrayLength) m := by
  change (if maxArraySize < (m.heap.items a).size + arguments.length then Run.raise .arrayLength
    else Pure.pure () : Run Unit) m = _
  rw [if_pos h]
  rfl

theorem run_checkGrowth {m : Machine} {a : ArrayRef} {arguments : List Value}
    (h : ¬ maxArraySize < (m.heap.items a).size + arguments.length) :
    Run.checkGrowth a arguments m = .ok () m := by
  change (if maxArraySize < (m.heap.items a).size + arguments.length then Run.raise .arrayLength
    else Pure.pure () : Run Unit) m = _
  rw [if_neg h]
  rfl

/-- An array grows only after its new size has been looked at. -/
theorem growing (a : ArrayRef) {arguments : List Value} {f : Array Value → Array Value}
    (hf : ∀ xs : Array Value, (f xs).size = xs.size + arguments.length) :
    Upholds Machine.Fits Any (Run.checkGrowth a arguments >>= fun _ => Run.modifyItems a f >>= fun _ =>
      Run.lengthValue a) := by
  intro m hm
  -- Nothing runs between the look at the size and the change, so the size is still the one looked at.
  by_cases h : maxArraySize < (m.heap.items a).size + arguments.length
  · rw [run_bind_error (run_checkGrowth_full h)]
    exact ⟨trivial, hm⟩
  · rw [run_bind_ok (run_checkGrowth h)]
    refine ⟨trivial, fits_modifyItems hm a ?_⟩
    rw [hf]
    omega

section Calls

variable {call : Caller}
variable (hcall : ∀ f receiver arguments, Upholds Machine.Fits Any (call f receiver arguments))
include hcall

omit hcall in
/-- A visit collects no more than one element for each that it comes to, unless it is one that joins
arrays. -/
theorem visitStep {v : Visit} (hv : v ≠ .flatMap) (done : List Value) (i : Nat)
    (item result : Value) :
    Upholds Machine.Fits (fun step => ∀ done', step = .ok done' → done'.length ≤ done.length + 1)
      (Run.visitStep v done i item result) := by
  -- Methods that look for an element either end with an answer or go on with what they have.
  have hchoice {c : Bool} {a b : Except Value (List Value)}
      (ha : ∀ done', a = .ok done' → done'.length ≤ done.length + 1)
      (hb : ∀ done', b = .ok done' → done'.length ≤ done.length + 1) :
      Upholds Machine.Fits (fun step => ∀ done', step = .ok done' → done'.length ≤ done.length + 1)
        (Pure.pure (if c then a else b) : Run (Except Value (List Value))) := by
    apply Upholds.pure
    split
    · exact ha
    · exact hb
  have hstays (done' : List Value) (h : (Except.ok done : Except Value (List Value)) = .ok done') :
      done'.length ≤ done.length + 1 := by
    obtain rfl := Except.ok.inj h
    exact Nat.le_succ _
  have hends (v : Value) (done' : List Value) (h : Except.error v = .ok done') :
      done'.length ≤ done.length + 1 := nomatch h
  cases v with
  | forEach => exact pure hstays
  | map =>
    apply Upholds.pure
    intro done' h
    obtain rfl := Except.ok.inj h
    exact Nat.le_refl _
  | flatMap => exact absurd rfl hv
  | filter =>
    apply Upholds.pure
    intro done' h
    obtain rfl := Except.ok.inj h
    split
    · exact Nat.le_refl _
    · exact Nat.le_succ _
  | find => exact hchoice (hends _) hstays
  | findLast => exact hchoice (hends _) hstays
  | findIndex => exact hchoice (hends _) hstays
  | findLastIndex => exact hchoice (hends _) hstays
  | any => exact hchoice (hends _) hstays
  | every => exact hchoice hstays (hends _)

/-- A visit, by induction on the elements that are left: with what has been collected they are no more than
an array may have. -/
theorem visit {v : Visit} (hv : v ≠ .flatMap) (callback receiver array : Value) (done : List Value)
    (xs : List (Nat × Value)) (hlength : done.length + xs.length ≤ maxArraySize) :
    Upholds Machine.Fits Any (Run.visit call v callback receiver array done xs) := by
  induction xs generalizing done with
  | nil =>
    have hshort : IsShort done.reverse := by
      unfold IsShort
      rw [List.length_reverse]
      exact hlength
    cases v with
    | map => exact makeArray hshort
    | flatMap => exact absurd rfl hv
    | filter => exact makeArray hshort
    | _ => exact pure trivial
  | cons e rest ih =>
    obtain ⟨i, item⟩ := e
    refine bind (hcall callback receiver _) fun result _ => ?_
    refine bind (visitStep hv done i item result) fun step hstep => ?_
    cases step with
    | error result => exact pure trivial
    | ok done' =>
      have hle := hstep done' rfl
      rw [List.length_cons] at hlength
      exact ih done' (by omega)

/-- The methods of arrays that look at the size of what they make, or make nothing longer than the array
was. -/
theorem arrayMethod (a : ArrayRef) {m : ArrayMethod} (hm : m.isBounded = true)
    (arguments : List Value) : Upholds Machine.Fits Any (Run.arrayMethod call a m arguments) := by
  have hnumber (i : Nat) : Upholds Machine.Fits Any (Run.numberArgument? arguments i) :=
    numberArgument? arguments i
  have hcallback : Upholds Machine.Fits Any (Run.callbackArgument arguments m.name) :=
    callbackArgument arguments m.name
  have hlist (xs : Array Value) : (indexed xs.toList).length = xs.size := by
    unfold indexed
    rw [List.length_map, List.length_zipIdx, Array.length_toList]
  cases m with
  | push =>
    refine growing a fun xs => ?_
    rw [List.foldl_push_eq_append', Array.size_append]
    rfl
  | pop =>
    refine bind (items a) fun xs _ => bind (modifyItems a fun ys hy => ?_) fun _ _ => pure trivial
    rw [Array.size_pop]
    omega
  | shift =>
    refine bind (items a) fun xs _ => bind (modifyItems a fun ys hy => ?_) fun _ _ => pure trivial
    rw [Array.size_extract]
    omega
  | unshift =>
    refine growing a fun xs => ?_
    rw [Array.size_append]
    exact Nat.add_comm _ _
  | item => exact bind (items a) fun xs _ => bind (hnumber 0) fun _ _ => pure trivial
  | slice =>
    refine bind (items a) fun xs hx => bind (hnumber 0) fun _ _ => bind (hnumber 1) fun _ _ => ?_
    refine makeArrayOf ?_
    rw [Array.size_extract]
    omega
  | join =>
    have hjoined (separator : String) :
        Upholds Machine.Fits Any (Run.items a >>= fun xs => Run.joined separator xs.toList) :=
      bind (items a) fun xs _ => joined separator xs.toList
    unfold Run.arrayMethod
    dsimp only
    split
    · exact hjoined ","
    · exact bind (toText _) fun separator _ => hjoined separator
  | text => exact bind (items a) fun xs _ => joined "," xs.toList
  | reverse =>
    refine bind (modifyItems a fun xs hx => ?_) fun _ _ => pure trivial
    rwa [Array.size_reverse]
  | indexOf => exact bind (items a) fun _ _ => pure trivial
  | lastIndexOf => exact bind (items a) fun _ _ => pure trivial
  | includes => exact bind (items a) fun _ _ => pure trivial
  | fill =>
    -- As many elements are put in as are taken out.
    refine bind (items a) fun _ _ => bind (hnumber 1) fun _ _ => bind (hnumber 2) fun _ _ => ?_
    refine bind (modifyItems a fun xs hx => ?_) fun _ _ => pure trivial
    unfold filled
    dsimp only
    split
    · rw [Array.size_append, Array.size_append, Array.size_extract, Array.size_replicate,
        Array.size_extract]
      omega
    · exact hx
  | sort =>
    -- The elements are sorted as they were before the order was asked, whatever it does to the array.
    refine bind (sortOrder hcall arguments) fun swap hswap => bind (items a) fun xs hx => ?_
    refine bind (sortWithin hswap _ xs.toList) fun sorted hsorted => ?_
    refine bind (modifyItems a fun _ _ => ?_) fun _ _ => pure trivial
    change sorted.length ≤ maxArraySize
    rwa [hsorted, Array.length_toList]
  | reduce =>
    exact bind hcallback fun callback _ => bind (items a) fun xs _ => reduceFrom hcall _ _ _ _
  | reduceRight =>
    exact bind hcallback fun callback _ => bind (items a) fun xs _ => reduceFrom hcall _ _ _ _
  | visit v =>
    have hv : v ≠ .flatMap := by
      rintro rfl
      exact nomatch hm
    refine bind hcallback fun callback _ => bind (items a) fun xs hx => ?_
    refine visit hcall hv _ _ _ _ _ ?_
    rw [List.length_nil, Nat.zero_add]
    split
    · rwa [List.length_reverse, hlist]
    · rwa [hlist]
  | _ => exact nomatch hm

end Calls

theorem copyMembers (target source : Value) : Upholds Machine.Fits Any (Run.copyMembers target source) := by
  refine bind (ownKeys source) fun keys _ => bind (forIn fun key _ => ?_) fun _ _ => pure trivial
  exact bind (getMember source key) fun v _ => bind (setMember target key v) fun _ _ => pure rfl

/-- An array is made of a given length only if that is not beyond the bound. -/
theorem newArray {arguments : List Value} (ha : IsShort arguments) :
    Upholds Machine.Fits Any (Run.newArray arguments) := by
  unfold Run.newArray
  split
  · rename_i x
    refine ite (fun _ => raise _) fun hlength => makeArray ?_
    have hle : Number.toNatClamped x ≤ maxArraySize := by simp at hlength; omega
    unfold IsShort
    rwa [List.length_replicate]
  · exact makeArray ha

/-- The built-in functions that make no array of what they do not look at, with arguments that an array may
have. -/
theorem callBuiltin (call : Caller) {b : Builtin} (hb : b.isBounded = true) {arguments : List Value}
    (ha : IsShort arguments) : Upholds Machine.Fits Any (Run.callBuiltin call b arguments) := by
  have hnumber (i : Nat) : Upholds Machine.Fits Any (Run.numberOf arguments i) := numberOf arguments i
  cases b with
  | print channel =>
    exact bind (consoleLine arguments) fun line _ => bind (W := Any) (V := Any)
      (fun _ hm => ⟨trivial, hm⟩) fun _ _ => pure trivial
  | prompt => exact prompt
  | setTimeout => exact setTimer false arguments
  | setInterval => exact setTimer true arguments
  | clearTimeout => exact clearTimer arguments
  | clearInterval => exact clearTimer arguments
  | random => exact bind (V := Any) (fun _ hm => ⟨trivial, hm⟩) fun _ _ => pure trivial
  | parseInt => exact readInteger arguments
  | numberParseInt => exact readInteger arguments
  | parseFloat => exact readNumber arguments
  | numberParseFloat => exact readNumber arguments
  | isNaN => exact bind (hnumber 0) fun _ _ => pure trivial
  | isFinite => exact bind (hnumber 0) fun _ _ => pure trivial
  | number => exact convertToNumber arguments
  | string => exact convertToString arguments
  | boolean => exact pure trivial
  | object => exact newObject arguments
  | array => exact newArray ha
  | error kind => exact newError kind arguments
  | mathFunction f => exact bind (hnumber 0) fun _ _ => pure trivial
  | atan2 => exact bind (hnumber 0) fun _ _ => bind (hnumber 1) fun _ _ => pure trivial
  | pow => exact bind (hnumber 0) fun _ _ => bind (hnumber 1) fun _ _ => pure trivial
  | hypot => exact bind (mapM fun v _ => toNumber v) fun _ _ => pure trivial
  | min => exact extremeOf _ _ arguments
  | max => exact extremeOf _ _ arguments
  | jsonText => exact jsonText arguments
  | assign =>
    refine bind (forIn fun source hs => ?_) fun _ _ => pure trivial
    exact bind (copyMembers _ _) fun _ _ => pure rfl
  | fromEntries => exact objectOfPairs _
  | isArray =>
    unfold Run.callBuiltin
    dsimp only
    split
    · exact pure trivial
    · exact pure trivial
  | arrayOf => exact makeArray ha
  | isInteger => exact testNumber _ arguments
  | isSafeInteger => exact testNumber _ arguments
  | numberIsFinite => exact testNumber _ arguments
  | numberIsNaN => exact testNumber _ arguments
  | fromCharCode => exact bind (mapM fun v _ => toNumber v) fun _ _ => makeString _
  | console => exact raise _
  | math => exact raise _
  | json => exact raise _
  -- The rest are the functions that make an array of a size they do not look at.
  | _ => exact nomatch hb

theorem constructBuiltin (b : Builtin) {arguments : List Value} (ha : IsShort arguments) :
    Upholds Machine.Fits Any (Run.constructBuiltin b arguments) := by
  cases b with
  | error kind => exact newError kind arguments
  | array => exact newArray ha
  | object => exact newObject arguments
  | number => exact convertToNumber arguments
  | string => exact convertToString arguments
  | boolean => exact pure trivial
  | _ => exact raise _

end Fitting

end Snippet.Script
