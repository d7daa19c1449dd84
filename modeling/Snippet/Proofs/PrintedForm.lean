import Snippet.Proofs.DataTree

/-!
The printed form of data. Down to the depth to which containers are shown, the printed form of a value
depends on the tree only that it shows.
-/

namespace Snippet.Script

namespace Data

mutual

def WithoutNumbers : Data → Prop
  | .integer _ => False
  | .array items => itemsWithoutNumbers items
  | .object members => membersWithoutNumbers members
  | _ => True

def itemsWithoutNumbers : List Data → Prop
  | [] => True
  | d :: rest => d.WithoutNumbers ∧ itemsWithoutNumbers rest

def membersWithoutNumbers : List (String × Data) → Prop
  | [] => True
  | (_, d) :: rest => d.WithoutNumbers ∧ membersWithoutNumbers rest

end

mutual

def printed : Data → List Char
  | .undefined => "undefined".toList
  | .null => "null".toList
  | .bool b => (if b then "true" else "false").toList
  | .integer n => Number.integerText n
  | .string s => quoted s.toList
  | .array [] => ['[', ']']
  | .array (d :: rest) => '[' :: ' ' :: (d.printed ++ (printedItems rest ++ [' ', ']']))
  | .object [] => ['{', '}']
  | .object ((key, d) :: rest) =>
    '{' :: ' ' :: ((keyText key).toList ++ (':' :: ' ' :: (d.printed ++
      (printedMembers rest ++ [' ', '}']))))

def printedItems : List Data → List Char
  | [] => []
  | d :: rest => ',' :: ' ' :: (d.printed ++ printedItems rest)

def printedMembers : List (String × Data) → List Char
  | [] => []
  | (key, d) :: rest =>
    ',' :: ' ' :: ((keyText key).toList ++ (':' :: ' ' :: (d.printed ++ printedMembers rest)))

end

def printedText (d : Data) : String := String.ofList d.printed

def memberText (m : String × Data) : String := keyText m.1 ++ ": " ++ m.2.printedText

/-- Texts with commas between them. -/
theorem toList_intercalate_cons (text : String) (texts : List String) :
    (", ".intercalate (text :: texts)).toList =
      text.toList ++ texts.flatMap fun t => ',' :: ' ' :: t.toList := by
  induction texts generalizing text with
  | nil => rw [String.intercalate_singleton, List.flatMap_nil, List.append_nil]
  | cons next texts ih =>
    rw [String.intercalate_cons_cons, String.toList_append, ih, String.toList_append, List.flatMap_cons,
      List.append_assoc]
    rfl

theorem printedItems_eq (items : List Data) :
    printedItems items = (items.map printedText).flatMap fun t => ',' :: ' ' :: t.toList := by
  induction items with
  | nil => rfl
  | cons d rest ih =>
    rw [List.map_cons, List.flatMap_cons, ← ih, printedText, String.toList_ofList]
    rfl

theorem toList_memberText (key : String) (d : Data) :
    (memberText (key, d)).toList = (keyText key).toList ++ (':' :: ' ' :: d.printed) := by
  unfold memberText printedText
  simp only [String.toList_append, String.toList_ofList, List.append_assoc]
  rfl

/-- The text of members is their texts with commas between them. -/
theorem printedMembers_eq (members : List (String × Data)) :
    printedMembers members = (members.map memberText).flatMap fun t => ',' :: ' ' :: t.toList := by
  induction members with
  | nil => rfl
  | cons m rest ih =>
    obtain ⟨key, d⟩ := m
    rw [List.map_cons, List.flatMap_cons, ← ih, toList_memberText]
    simp only [List.cons_append, List.append_assoc]
    rfl

theorem toList_bracketed (opening closing text : String) (texts : List String) :
    (opening ++ ", ".intercalate (text :: texts) ++ closing).toList =
      opening.toList ++ (text.toList ++ ((texts.flatMap fun t => ',' :: ' ' :: t.toList) ++
        closing.toList)) := by
  rw [String.toList_append, String.toList_append, toList_intercalate_cons, List.append_assoc,
    List.append_assoc]

theorem printed_object (key : String) (d : Data) (rest : List (String × Data)) :
    (Data.object ((key, d) :: rest)).printed =
      '{' :: ' ' :: ((keyText key).toList ++ (':' :: ' ' :: (d.printed ++
        (printedMembers rest ++ [' ', '}'])))) := rfl

theorem printedText_array (d : Data) (rest : List Data) :
    (Data.array (d :: rest)).printedText =
      "[ " ++ ", ".intercalate ((d :: rest).map printedText) ++ " ]" := by
  rw [← String.toList_inj, List.map_cons, toList_bracketed, ← printedItems_eq]
  unfold printedText
  simp only [String.toList_ofList]
  rfl

theorem printedText_object (m : String × Data) (rest : List (String × Data)) :
    (Data.object (m :: rest)).printedText =
      "\x7b " ++ ", ".intercalate ((m :: rest).map memberText) ++ " \x7d" := by
  obtain ⟨key, d⟩ := m
  rw [← String.toList_inj, List.map_cons, toList_bracketed, ← printedMembers_eq, toList_memberText]
  unfold printedText
  rw [String.toList_ofList, printed_object]
  simp only [List.append_assoc, List.cons_append]
  rfl

end Data

namespace Heap

variable {h : Heap} {around : List Container}

theorem printedWithin_array {a : ArrayRef} {depth : Nat} {v : Value} {vs : List Value}
    (hnew : around.contains (.array a) = false) (hitems : (h.items a).toList = v :: vs) :
    h.printedWithin (depth + 1) around (.array a) = do
      let parts ← (v :: vs).mapM fun v => h.printedWithin depth (.array a :: around) v
      return "[ " ++ ", ".intercalate parts ++ " ]" := by
  have hne : (h.items a).isEmpty = false := by
    rw [← Array.isEmpty_toList, hitems]
    rfl
  rw [Heap.printedWithin, hitems]
  simp only [hnew, hne, Bool.false_eq_true, if_false]

/-- An object that is not empty is printed as its members. -/
theorem printedWithin_object {o : ObjectRef} {depth : Nat} {e : String × Value}
    {es : List (String × Value)} (hnew : around.contains (.object o) = false)
    (ho : h.object o = { entries := e :: es }) :
    h.printedWithin (depth + 1) around (.object o) = do
      let parts ← (e :: es).mapM fun e => do
        let text ← h.printedWithin depth (.object o :: around) e.2
        return keyText e.1 ++ ": " ++ text
      return "\x7b " ++ ", ".intercalate parts ++ " \x7d" := by
  rw [Heap.printedWithin, ho]
  simp only [hnew, Bool.false_eq_true, if_false]
  rfl

theorem printedWithin_empty_array {a : ArrayRef} (depth : Nat)
    (hnew : around.contains (.array a) = false) (hitems : (h.items a).toList = []) :
    h.printedWithin depth around (.array a) = .ok "[]" := by
  have he : (h.items a).isEmpty = true := by
    rw [← Array.isEmpty_toList, hitems]
    rfl
  cases depth with
  | zero =>
    rw [Heap.printedWithin]
    simp only [hnew, he, Bool.false_eq_true, if_false, if_true]
  | succ depth =>
    rw [Heap.printedWithin]
    simp only [hnew, he, Bool.false_eq_true, if_false, if_true]

theorem printedWithin_empty_object {o : ObjectRef} (depth : Nat)
    (hnew : around.contains (.object o) = false) (ho : h.object o = { entries := [] }) :
    h.printedWithin depth around (.object o) = .ok "\x7b\x7d" := by
  cases depth with
  | zero =>
    rw [Heap.printedWithin, ho]
    simp only [hnew, Bool.false_eq_true, if_false]
    rfl
  | succ depth =>
    rw [Heap.printedWithin, ho]
    simp only [hnew, Bool.false_eq_true, if_false]
    rfl

end Heap

namespace Data

variable {h : Heap}

mutual

/-- The printed form of a value is that of the tree that it shows, if containers are shown down to where the
tree ends. -/
theorem ShownBy.printedWithin {d : Data} {v : Value} (hd : d.ShownBy h v) (hn : d.WithoutNumbers)
    {around : List Container} (he : h.Encloses around d.height) (depth : Nat)
    (hdepth : d.height ≤ depth) :
    h.printedWithin depth around v = .ok d.printedText := by
  cases d with
  | integer n => exact hn.elim
  | array items =>
    -- The heights tell the container from all that are around it, so it is not taken for a cycle.
    have hshown := hd
    obtain ⟨a, rfl, -, hitems⟩ := hd
    have hnew : around.contains (.array a) = false := he.not_contains (c := .array a) hshown
    cases items with
    | nil => exact h.printedWithin_empty_array depth hnew hitems
    | cons d rest =>
      have hheight : (Data.array (d :: rest)).height = itemsHeight (d :: rest) + 1 := rfl
      obtain ⟨depth, rfl⟩ : ∃ n, depth = n + 1 := ⟨depth - 1, by omega⟩
      have hinside : h.Encloses (.array a :: around) (itemsHeight (d :: rest)) :=
        he.cons (c := .array a) hshown (by omega)
      have hparts := itemsPrinted hitems hn hinside depth (by omega)
      obtain ⟨v, vs, hvs, -⟩ := hitems
      rw [hvs] at hparts
      rw [h.printedWithin_array hnew hvs, hparts, printedText_array]
      rfl
  | object members =>
    have hshown := hd
    obtain ⟨o, rfl, -, entries, ho, hmembers⟩ := hd
    have hnew : around.contains (.object o) = false := he.not_contains (c := .object o) hshown
    cases members with
    | nil =>
      obtain rfl := hmembers
      exact h.printedWithin_empty_object depth hnew ho
    | cons m rest =>
      have hheight : (Data.object (m :: rest)).height = membersHeight (m :: rest) + 1 := rfl
      obtain ⟨depth, rfl⟩ : ∃ n, depth = n + 1 := ⟨depth - 1, by omega⟩
      have hinside : h.Encloses (.object o :: around) (membersHeight (m :: rest)) :=
        he.cons (c := .object o) hshown (by omega)
      have hparts := membersPrinted hmembers hn hinside depth (by omega)
      obtain ⟨v, more, rfl, -⟩ := hmembers
      rw [h.printedWithin_object hnew ho, hparts, printedText_object]
      rfl
  -- Values without parts are printed at any depth.
  | bool b =>
    obtain rfl := hd
    cases b <;> cases depth <;> rfl
  | _ =>
    obtain rfl := hd
    cases depth <;> rfl

/-- Elements that show a list of trees are printed as these trees are; by induction on the list. -/
theorem itemsPrinted {items : List Data} {vs : List Value} (hi : itemsShownBy h items vs)
    (hn : itemsWithoutNumbers items) {around : List Container}
    (he : h.Encloses around (itemsHeight items)) (depth : Nat) (hdepth : itemsHeight items ≤ depth) :
    (vs.mapM fun v => h.printedWithin depth around v) = .ok (items.map printedText) := by
  cases items with
  | nil =>
    obtain rfl := hi
    rfl
  | cons d rest =>
    obtain ⟨v, more, rfl, hd, hrest⟩ := hi
    have hheight : itemsHeight (d :: rest) = max d.height (itemsHeight rest) := rfl
    have hfirst := hd.printedWithin hn.1 (he.mono (by omega)) depth (by omega)
    have hmore := itemsPrinted hrest hn.2 (he.mono (by omega)) depth (by omega)
    rw [List.mapM_cons, hfirst, hmore]
    rfl

/-- Members that show a list of trees are printed as these trees are; by induction on the list. -/
theorem membersPrinted {members : List (String × Data)} {es : List (String × Value)}
    (hm : membersShownBy h members es) (hn : membersWithoutNumbers members) {around : List Container}
    (he : h.Encloses around (membersHeight members)) (depth : Nat)
    (hdepth : membersHeight members ≤ depth) :
    (es.mapM fun e => do
      let text ← h.printedWithin depth around e.2
      return keyText e.1 ++ ": " ++ text) = .ok (members.map memberText) := by
  cases members with
  | nil =>
    obtain rfl := hm
    rfl
  | cons m rest =>
    obtain ⟨key, d⟩ := m
    obtain ⟨v, more, rfl, hd, hrest⟩ := hm
    have hheight : membersHeight ((key, d) :: rest) = max d.height (membersHeight rest) := rfl
    have hfirst := hd.printedWithin hn.1 (he.mono (by omega)) depth (by omega)
    have hmore := membersPrinted hrest hn.2 (he.mono (by omega)) depth (by omega)
    rw [List.mapM_cons, hfirst, hmore]
    rfl

end

end Data

end Snippet.Script
