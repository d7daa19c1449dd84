import Snippet.Proofs.Quiet
import Snippet.Script.Expression

/-!
Operations that give no longer texts than the longest string. Those that put texts together look at the
size of what they give and fail if it is beyond the bound; those that give a part of a text do not go beyond
it because the text does not.
-/

namespace Snippet.Script

def IsShortText (s : String) : Prop := s.utf8ByteSize ≤ maxStringSize

def Value.HasShortText : Value → Prop
  | .string s => IsShortText s
  | _ => True

def GivesShort (x : Run Value) : Prop := ∀ m v m', x m = .ok v m' → v.HasShortText

def GivesShortParts (x : Run Value) : Prop :=
  ∀ m v m', x m = .ok v m' → ∃ a, v = .array a ∧ ∀ part ∈ m'.heap.items a, part.HasShortText

namespace GivesShort

variable {α : Type} {x y : Run Value}

theorem pure {v : Value} (hv : v.HasShortText) : GivesShort (Pure.pure v) := by
  intro m w m' h
  obtain ⟨rfl, -⟩ := EStateM.Result.ok.inj h
  exact hv

theorem raise (e : RuntimeError) : GivesShort (Run.raise e) := fun _ _ _ h => nomatch h

theorem bind {x : Run α} {f : α → Run Value} (hf : ∀ a, GivesShort (f a)) : GivesShort (x >>= f) := by
  intro m v m' h
  cases hx : x m with
  | ok a m₁ =>
    rw [run_bind_ok hx] at h
    exact hf a m₁ v m' h
  | error e m₁ =>
    rw [run_bind_error hx] at h
    exact nomatch h

theorem ite {c : Prop} [Decidable c] (hx : c → GivesShort x) (hy : ¬ c → GivesShort y) :
    GivesShort (if c then x else y) := by
  by_cases hc : c
  · rw [if_pos hc]
    exact hx hc
  · rw [if_neg hc]
    exact hy hc

/-- A string beyond the longest one is an error. -/
theorem run_makeString_full {s : String} (h : maxStringSize < s.utf8ByteSize) (m : Machine) :
    Run.makeString s m = .error (.raised .stringLength) m := by
  unfold Run.makeString
  rw [if_pos h]
  rfl

/-- A string is made only after its size has been looked at. -/
theorem makeString (s : String) : GivesShort (Run.makeString s) :=
  ite (fun _ => raise _) fun hs => bind fun _ => pure (Nat.le_of_not_lt hs)

/-- A part of a text has no more bytes than the text. -/
theorem utf8ByteSize_ofList_le {cs ds : List Char} (h : cs.Sublist ds) :
    (String.ofList cs).utf8ByteSize ≤ (String.ofList ds).utf8ByteSize := by
  induction h with
  | slnil => exact Nat.le_refl _
  | cons d h ih =>
    rw [String.ofList_cons, String.utf8ByteSize_append]
    omega
  | cons_cons d h ih =>
    rw [String.ofList_cons, String.ofList_cons, String.utf8ByteSize_append,
      String.utf8ByteSize_append]
    omega

/-- A part of a short text is short. -/
theorem hasShortText_ofChars {s : String} (hs : IsShortText s) {cs : List Char}
    (h : cs.Sublist s.toList) : (Value.ofChars cs).HasShortText := by
  have hle := utf8ByteSize_ofList_le h
  rw [String.ofList_toList] at hle
  exact Nat.le_trans hle hs

theorem hasShortText_ofChar (c : Char) : (Value.ofChar c).HasShortText := by
  change (String.singleton c).utf8ByteSize ≤ maxStringSize
  rw [String.utf8ByteSize_singleton]
  exact Nat.le_trans c.utf8Size_le_four (by decide)

theorem sublist_between (start stop : Nat) (cs : List Char) :
    (between start stop cs).Sublist cs :=
  (List.take_sublist _ _).trans (List.drop_sublist _ _)

theorem sublist_dropEndWhile (p : Char → Bool) (cs : List Char) :
    (Text.dropEndWhile p cs).Sublist cs := by
  have h := (List.dropWhile_sublist p (l := cs.reverse)).reverse
  rwa [List.reverse_reverse] at h

/-- Both parts of a text that is broken at a separator are parts of it. -/
theorem sublist_breakOn? {needle passed cs part rest : List Char}
    (h : Text.breakOn? needle passed cs = some (part, rest)) :
    part.Sublist (passed.reverse ++ cs) ∧ rest.Sublist cs := by
  induction cs generalizing passed with
  | nil =>
    unfold Text.breakOn? at h
    split at h
    · obtain ⟨rfl, rfl⟩ := Prod.mk.inj (Option.some.inj h)
      exact ⟨List.sublist_append_left _ _, List.Sublist.refl _⟩
    · cases h
  | cons c cs ih =>
    unfold Text.breakOn? at h
    split at h
    · obtain ⟨rfl, rfl⟩ := Prod.mk.inj (Option.some.inj h)
      exact ⟨List.sublist_append_left _ _, List.drop_sublist _ _⟩
    · obtain ⟨hpart, hrest⟩ := ih h
      rw [List.reverse_cons, List.append_assoc] at hpart
      exact ⟨hpart, hrest.trans (List.sublist_cons_self c cs)⟩

/-- All that is between the occurrences of a separator is a part of the text, by induction on how many of
them are looked for. -/
theorem sublist_of_mem_splitWithin {separator cs whole : List Char} {done : List (List Char)} {n : Nat}
    (h : ∀ part ∈ cs :: done, part.Sublist whole) {part : List Char}
    (hpart : part ∈ Text.splitWithin separator done n cs) : part.Sublist whole := by
  induction n generalizing done cs with
  | zero => exact h part (List.mem_reverse.mp hpart)
  | succ n ih =>
    unfold Text.splitWithin at hpart
    cases hbreak : Text.breakOn? separator [] cs with
    | none =>
      rw [hbreak] at hpart
      exact h part (List.mem_reverse.mp hpart)
    | some found =>
      obtain ⟨first, rest⟩ := found
      rw [hbreak] at hpart
      obtain ⟨hfirst, hrest⟩ := sublist_breakOn? hbreak
      have hcs := h cs List.mem_cons_self
      refine ih (fun part hmem => ?_) hpart
      obtain rfl | hmem := List.mem_cons.mp hmem
      · exact hrest.trans hcs
      obtain rfl | hmem := List.mem_cons.mp hmem
      · exact hfirst.trans hcs
      · exact h part (List.mem_cons_of_mem cs hmem)

end GivesShort

namespace GivesShortParts

theorem bind {α : Type} {x : Run α} {f : α → Run Value} (hf : ∀ a, GivesShortParts (f a)) :
    GivesShortParts (x >>= f) := by
  intro m v m' h
  cases hx : x m with
  | ok a m₁ =>
    rw [run_bind_ok hx] at h
    exact hf a m₁ v m' h
  | error e m₁ =>
    rw [run_bind_error hx] at h
    exact nomatch h

theorem afterPure {α : Type} {a : α} {f : α → Run Value} (h : GivesShortParts (f a)) :
    GivesShortParts (Pure.pure a >>= f) := h

theorem makeArray {vs : List Value} (h : ∀ v ∈ vs, v.HasShortText) :
    GivesShortParts (Run.makeArray vs) := by
  intro m v m' hm
  obtain ⟨rfl, rfl⟩ := EStateM.Result.ok.inj hm
  refine ⟨⟨m.heap.arrays.size⟩, rfl, fun part hpart => h part ?_⟩
  change part ∈ (m.heap.arrays.push vs.toArray).getD m.heap.arrays.size #[] at hpart
  rw [Array.getD_eq_getD_getElem?, Array.getElem?_push_size] at hpart
  exact List.mem_toArray.mp hpart

theorem givesShort {x : Run Value} (h : GivesShortParts x) : GivesShort x := by
  intro m v m' hm
  obtain ⟨a, rfl, -⟩ := h m v m' hm
  trivial

/-- The parts of a short text are short. -/
theorem splitParts {s : String} (hs : IsShortText s) (arguments : List Value) :
    GivesShortParts (Run.splitParts s arguments) := by
  have htake {parts : List Value} (h : ∀ v ∈ parts, v.HasShortText) (n : Nat) :
      ∀ v ∈ parts.take n, v.HasShortText := fun v hv => h v (List.mem_of_mem_take hv)
  have hwhole : ∀ v ∈ [Value.string s], v.HasShortText := List.forall_mem_singleton.mpr hs
  have hparts (separator : List Char) : ∀ v ∈ (if separator.isEmpty then s.toList.map Value.ofChar
      else (Text.splitOn separator s.toList).map Value.ofChars), v.HasShortText := by
    intro v hv
    split at hv
    · obtain ⟨c, -, rfl⟩ := List.mem_map.mp hv
      exact GivesShort.hasShortText_ofChar c
    · obtain ⟨cs, hcs, rfl⟩ := List.mem_map.mp hv
      refine GivesShort.hasShortText_ofChars hs (GivesShort.sublist_of_mem_splitWithin ?_ hcs)
      exact List.forall_mem_singleton.mpr (List.Sublist.refl _)
  unfold Run.splitParts
  dsimp only
  split
  · refine afterPure (bind fun limit? => ?_)
    cases limit? with
    | none => exact makeArray hwhole
    | some limit => exact makeArray (htake hwhole _)
  · refine bind fun text => afterPure (bind fun limit? => ?_)
    cases limit? with
    | none => exact makeArray (hparts _)
    | some limit => exact makeArray (htake (hparts _) _)

end GivesShortParts

def StringMethod.givesShort : StringMethod → Bool
  -- Whether a method of strings gives no longer text than the longest string if it is called on
  -- one: not the ones that change the case of letters, which may take more bytes then, and not the
  -- ones that fill a text up to a number of characters, which may be of several bytes each.
  | .toUpperCase | .toLowerCase | .padStart | .padEnd => false
  | _ => true

namespace GivesShort

/-- The methods that give short texts of short strings give none beyond the bound. -/
theorem stringMethod (call : Value → List Value → Run Value) {s : String} (hs : IsShortText s)
    {m : StringMethod} (hm : m.givesShort = true) (arguments : List Value) :
    GivesShort (Run.stringMethod call s m arguments) := by
  -- A string of one character is short.
  have hchar (c? : Option Char) : ((c?.map Value.ofChar).getD .undefined).HasShortText := by
    cases c? with
    | none => trivial
    | some c => exact hasShortText_ofChar c
  cases m with
  | text => exact pure hs
  | valueOf => exact pure hs
  | trim =>
    refine pure (hasShortText_ofChars hs ?_)
    exact (sublist_dropEndWhile _ _).trans (List.dropWhile_sublist _)
  | trimStart => exact pure (hasShortText_ofChars hs (List.dropWhile_sublist _))
  | trimEnd => exact pure (hasShortText_ofChars hs (sublist_dropEndWhile _ _))
  | item =>
    refine bind fun x? => pure ?_
    cases resolveIndex? x? s.toList.length with
    | none => trivial
    | some i => exact hchar s.toList[i]?
  | charAt =>
    refine bind fun c? => pure ?_
    cases c? with
    | none => exact Nat.zero_le _
    | some c => exact hasShortText_ofChar c
  | charCodeAt => exact bind fun c? => pure (by cases c? <;> trivial)
  | indexOf =>
    refine bind fun needle => bind fun x? => pure ?_
    cases Text.firstIndex? needle _ _ <;> trivial
  | lastIndexOf =>
    refine bind fun needle => pure ?_
    cases Text.lastIndex? needle 0 none s.toList <;> trivial
  | includes => exact bind fun _ => pure trivial
  | startsWith => exact bind fun _ => pure trivial
  | endsWith => exact bind fun _ => pure trivial
  | slice => exact bind fun _ => bind fun _ => pure (hasShortText_ofChars hs (sublist_between _ _ _))
  | substring => exact bind fun _ => bind fun _ => pure (hasShortText_ofChars hs (sublist_between _ _ _))
  | substr => exact bind fun _ => bind fun _ => pure (hasShortText_ofChars hs (sublist_between _ _ _))
  | concat => exact bind fun _ => makeString _
  | repeated =>
    refine bind fun _ => ite (fun _ => raise _) fun _ => ite (fun _ => raise _) fun _ => ?_
    exact makeString _
  | split => exact (GivesShortParts.splitParts hs arguments).givesShort
  | replace => exact bind fun _ => bind fun _ => makeString _
  | replaceAll => exact bind fun _ => bind fun _ => makeString _
  | _ => exact nomatch hm

/-- A sum that is a text has looked at its size. -/
theorem add (v w : Value) : GivesShort (Run.add v w) := by
  unfold Run.add
  split
  · exact pure trivial
  · refine bind fun a => bind fun b => ?_
    split
    · exact bind fun _ => makeString _
    · exact bind fun _ => makeString _
    · exact bind fun _ => bind fun _ => pure trivial

/-- The operators. -/
theorem binary (op : BinaryOp) (v w : Value) : GivesShort (Run.binary op v w) := by
  have hnumeric (f : Float → Float → Float) : GivesShort (Run.numeric f v w) :=
    bind fun _ => bind fun _ => pure trivial
  cases op with
  | add => exact add v w
  | looseEq => exact bind fun _ => pure trivial
  | looseNe => exact bind fun _ => pure trivial
  | strictEq => exact pure trivial
  | strictNe => exact pure trivial
  | lt => exact bind fun _ => pure trivial
  | le => exact bind fun _ => pure trivial
  | gt => exact bind fun _ => pure trivial
  | ge => exact bind fun _ => pure trivial
  | isIn =>
    refine bind fun _ => ?_
    split
    · exact bind fun _ => pure trivial
    · exact bind fun _ => pure trivial
    · exact bind fun _ => raise _
  | instanceOf =>
    cases w with
    | function f identity =>
      cases v with
      | object o => exact bind fun _ => pure trivial
      | _ => exact pure trivial
    | _ => exact raise _
  | _ => exact hnumeric _

/-- Templates. -/
theorem template (ev : Evaluator) (pieces : List Piece) (scope : ScopeRef) :
    GivesShort (Run.evalExpr ev (.template pieces) scope) :=
  bind fun _ => makeString _

/-- The methods of arrays that join the texts of the elements. -/
theorem join (call : Caller) (a : ArrayRef) (arguments : List Value) :
    GivesShort (Run.arrayMethod call a .join arguments) ∧
      GivesShort (Run.arrayMethod call a .text arguments) := by
  have hjoined (separator : String) (xs : List Value) : GivesShort (Run.joined separator xs) :=
    bind fun _ => makeString _
  refine ⟨?_, bind fun xs => hjoined "," _⟩
  unfold Run.arrayMethod
  dsimp only
  split
  · exact bind fun separator => bind fun xs => hjoined separator _
  · exact bind fun separator => bind fun xs => hjoined separator _

theorem jsonText (arguments : List Value) : GivesShort (Run.jsonText arguments) := by
  refine bind fun h => bind fun json? => ?_
  cases json? with
  | none => exact pure trivial
  | some json => exact makeString _

theorem prompt : GivesShort Run.prompt := by
  refine bind fun line? => ?_
  cases line? with
  | none => exact pure trivial
  | some line => exact bind fun _ => makeString line

/-- The built-in functions that give JSON text, a line of the standard input, or characters of codes. -/
theorem callBuiltin (call : Caller) (arguments : List Value) :
    GivesShort (Run.callBuiltin call .jsonText arguments) ∧
      GivesShort (Run.callBuiltin call .prompt arguments) ∧
      GivesShort (Run.callBuiltin call .fromCharCode arguments) :=
  ⟨jsonText arguments, prompt, bind fun _ => makeString _⟩

end GivesShort

end Snippet.Script
