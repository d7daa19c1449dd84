import Snippet.Proofs.DataTree
import Snippet.Proofs.JsonWritten
import Snippet.Proofs.WholeNumber
import Snippet.Script.JsonText
import Snippet.Script.Program

/-!
Data through JSON and back. A tree whose leaves have JSON forms is written as a text, with whatever
indentation a number asks for, and what the text is read as shows the same tree again.
-/

namespace Snippet.Script

-- The JSON form of data. Where every leaf has a JSON form, that of a value is the form of the tree
-- that it shows, with the members in the same order.

namespace Data

mutual

/-- Every leaf has a JSON form of its own: none is missing, and no integer is too great to be a number. -/
def InJson : Data → Prop
  | .undefined => False
  | .integer n => n.natAbs < 2 ^ 53
  | .array items => itemsInJson items
  | .object members => membersInJson members
  | _ => True

def itemsInJson : List Data → Prop
  | [] => True
  | d :: rest => d.InJson ∧ itemsInJson rest

def membersInJson : List (String × Data) → Prop
  | [] => True
  | (_, d) :: rest => d.InJson ∧ membersInJson rest

end

mutual

def json : Data → Json
  | .undefined => .null
  | .null => .null
  | .bool b => .bool b
  | .integer n => .integer n
  | .string s => .string s
  | .array items => .array (itemsJson items)
  | .object members => .object (membersJson members)

def itemsJson : List Data → List Json
  | [] => []
  | d :: rest => d.json :: itemsJson rest

def membersJson : List (String × Data) → List (String × Json)
  | [] => []
  | (key, d) :: rest => (key, d.json) :: membersJson rest

end

end Data

theorem numberJson_ofInt {n : Int} (h : n.natAbs < 2 ^ 53) : numberJson (Float.ofInt n) = .integer n := by
  obtain ⟨hexact, hvalue⟩ := Number.exact_ofInt h
  unfold numberJson
  rw [hexact, hvalue]
  rfl

namespace Heap

variable {h : Heap} {around : List Container}

theorem jsonWithin?_array {a : ArrayRef} {depth : Nat} (hnew : around.contains (.array a) = false) :
    h.jsonWithin? (depth + 1) around (.array a) = do
      let items ← (h.items a).toList.mapM fun v => do
        return (← h.jsonWithin? depth (.array a :: around) v).getD .null
      return some (.array items) := by
  rw [Heap.jsonWithin?]
  simp only [hnew, Bool.false_eq_true, if_false]

theorem jsonWithin?_object {o : ObjectRef} {depth : Nat} (hnew : around.contains (.object o) = false) :
    h.jsonWithin? (depth + 1) around (.object o) = do
      let members ← (h.object o).entries.mapM fun e => do
        return (← h.jsonWithin? depth (.object o :: around) e.2).map fun json => (e.1, json)
      return some (.object (members.filterMap id)) := by
  rw [Heap.jsonWithin?]
  simp only [hnew, Bool.false_eq_true, if_false]

end Heap

namespace Data

variable {h : Heap}

mutual

/-- The JSON form of a value is that of the tree that it shows. -/
theorem ShownBy.jsonWithin? {d : Data} {v : Value} (hd : d.ShownBy h v) (hj : d.InJson)
    {around : List Container} (he : h.Encloses around d.height) (depth : Nat)
    (hdepth : d.height ≤ depth) :
    h.jsonWithin? depth around v = .ok (some d.json) := by
  cases d with
  | undefined => exact hj.elim
  | integer n =>
    obtain rfl := hd
    have hnumber : h.jsonWithin? depth around (.number (Float.ofInt n)) =
        .ok (some (numberJson (Float.ofInt n))) := by
      cases depth <;> rfl
    rw [hnumber, numberJson_ofInt hj]
    rfl
  | array items =>
    -- As in printing, no container around it is as low as this one.
    have hshown := hd
    obtain ⟨a, rfl, -, hitems⟩ := hd
    have hnew : around.contains (.array a) = false := he.not_contains (c := .array a) hshown
    have hheight : (Data.array items).height = itemsHeight items + 1 := rfl
    obtain ⟨depth, rfl⟩ : ∃ n, depth = n + 1 := ⟨depth - 1, by omega⟩
    have hinside : h.Encloses (.array a :: around) (itemsHeight items) :=
      he.cons (c := .array a) hshown (by omega)
    rw [Heap.jsonWithin?_array hnew, itemsShownBy_json hitems hj hinside depth (by omega)]
    rfl
  | object members =>
    have hshown := hd
    obtain ⟨o, rfl, -, entries, ho, hmembers⟩ := hd
    have hnew : around.contains (.object o) = false := he.not_contains (c := .object o) hshown
    have hheight : (Data.object members).height = membersHeight members + 1 := rfl
    obtain ⟨depth, rfl⟩ : ∃ n, depth = n + 1 := ⟨depth - 1, by omega⟩
    have hinside : h.Encloses (.object o :: around) (membersHeight members) :=
      he.cons (c := .object o) hshown (by omega)
    rw [Heap.jsonWithin?_object hnew, ho, membersShownBy_json hmembers hj hinside depth (by omega)]
    -- No member is left out, as none is missing.
    have hall : ((membersJson members).map some).filterMap id = membersJson members := by
      rw [List.filterMap_map]
      exact List.filterMap_some
    exact congrArg (fun ms => Except.ok (some (Json.object ms))) hall
  | _ =>
    obtain rfl := hd
    cases depth <;> rfl

/-- Elements that show a list of trees have the forms of these trees; by induction on the list. -/
theorem itemsShownBy_json {items : List Data} {vs : List Value} (hi : itemsShownBy h items vs)
    (hj : itemsInJson items) {around : List Container} (he : h.Encloses around (itemsHeight items))
    (depth : Nat) (hdepth : itemsHeight items ≤ depth) :
    (vs.mapM fun v => do return (← h.jsonWithin? depth around v).getD .null) =
      .ok (itemsJson items) := by
  cases items with
  | nil =>
    obtain rfl := hi
    rfl
  | cons d rest =>
    obtain ⟨v, more, rfl, hd, hrest⟩ := hi
    have hheight : itemsHeight (d :: rest) = max d.height (itemsHeight rest) := rfl
    have hfirst := hd.jsonWithin? hj.1 (he.mono (by omega)) depth (by omega)
    have hmore := itemsShownBy_json hrest hj.2 (he.mono (by omega)) depth (by omega)
    rw [List.mapM_cons, hfirst, hmore]
    rfl

/-- Members that show a list of trees have the forms of these trees; by induction on the list. -/
theorem membersShownBy_json {members : List (String × Data)} {es : List (String × Value)}
    (hm : membersShownBy h members es) (hj : membersInJson members) {around : List Container}
    (he : h.Encloses around (membersHeight members)) (depth : Nat)
    (hdepth : membersHeight members ≤ depth) :
    (es.mapM fun e => do
      return (← h.jsonWithin? depth around e.2).map fun json => (e.1, json)) =
        .ok ((membersJson members).map some) := by
  cases members with
  | nil =>
    obtain rfl := hm
    rfl
  | cons m rest =>
    obtain ⟨key, d⟩ := m
    obtain ⟨v, more, rfl, hd, hrest⟩ := hm
    have hheight : membersHeight ((key, d) :: rest) = max d.height (membersHeight rest) := rfl
    have hfirst := hd.jsonWithin? hj.1 (he.mono (by omega)) depth (by omega)
    have hmore := membersShownBy_json hrest hj.2 (he.mono (by omega)) depth (by omega)
    rw [List.mapM_cons, hfirst, hmore]
    rfl

end

end Data

-- The text that the form of a tree is written as, and what it is read as.

namespace Data

mutual

theorem height_json (d : Data) : d.json.height = d.height := by
  cases d with
  | array items => exact congrArg (· + 1) (height_itemsJson items)
  | object members => exact congrArg (· + 1) (height_membersJson members)
  | _ => rfl

theorem height_itemsJson (items : List Data) : Json.itemsHeight (itemsJson items) = itemsHeight items := by
  cases items with
  | nil => rfl
  | cons d rest => exact congrArg₂ max (height_json d) (height_itemsJson rest)

theorem height_membersJson (members : List (String × Data)) :
    Json.membersHeight (membersJson members) = membersHeight members := by
  cases members with
  | nil => rfl
  | cons m rest =>
    obtain ⟨key, d⟩ := m
    exact congrArg₂ max (height_json d) (height_membersJson rest)

end

theorem keys_membersJson (members : List (String × Data)) :
    (membersJson members).map Prod.fst = members.map Prod.fst := by
  induction members with
  | nil => rfl
  | cons m rest ih =>
    obtain ⟨key, d⟩ := m
    exact congrArg (key :: ·) ih

mutual

/-- The JSON form of a tree can be read from its text. -/
theorem readable_json {d : Data} (hj : d.InJson) (hk : d.DistinctKeys) : d.json.Readable := by
  cases d with
  | undefined => exact trivial
  | integer n => exact Nat.lt_trans hj (by decide)
  | array items => exact readable_itemsJson hj hk
  | object members =>
    refine ⟨?_, readable_membersJson hj hk.2⟩
    rw [keys_membersJson]
    exact hk.1
  | _ => exact trivial

theorem readable_itemsJson {items : List Data} (hj : itemsInJson items) (hk : itemsDistinct items) :
    Json.itemsReadable (itemsJson items) := by
  cases items with
  | nil => exact trivial
  | cons d rest => exact ⟨readable_json hj.1 hk.1, readable_itemsJson hj.2 hk.2⟩

theorem readable_membersJson {members : List (String × Data)} (hj : membersInJson members)
    (hk : membersDistinct members) : Json.membersReadable (membersJson members) := by
  cases members with
  | nil => exact trivial
  | cons m rest =>
    obtain ⟨key, d⟩ := m
    exact ⟨readable_json hj.1 hk.1, readable_membersJson hj.2 hk.2⟩

end

mutual

/-- The value of the JSON form of a tree shows the tree. -/
theorem makes_ofJson {d : Data} (hj : d.InJson) (m : Machine) :
    Makes (Run.ofJson d.json) m d.ShownBy := by
  cases d with
  | undefined => exact hj.elim
  | array items => exact (makes_ofJsonItems hj m).bind fun vs m' _ hvs => makes_array hvs
  | object members => exact (makes_ofJsonMembers hj m).bind fun es m' _ hes => makes_object hes
  | _ => exact Makes.pure rfl

theorem makes_ofJsonItems {items : List Data} (hj : itemsInJson items) (m : Machine) :
    Makes (Run.ofJsonItems (itemsJson items)) m fun h vs => itemsShownBy h items vs := by
  cases items with
  | nil => exact Makes.pure rfl
  | cons d rest =>
    refine (makes_ofJson hj.1 m).bind fun v m₁ _ hv => ?_
    obtain ⟨vs, m₂, hrun, hgrow, hvs⟩ := makes_ofJsonItems hj.2 m₁
    exact ⟨v :: vs, m₂, run_bind_ok hrun, hgrow, v, vs, rfl, hv.mono hgrow, hvs⟩

theorem makes_ofJsonMembers {members : List (String × Data)} (hj : membersInJson members) (m : Machine) :
    Makes (Run.ofJsonMembers (membersJson members)) m fun h es => membersShownBy h members es := by
  cases members with
  | nil => exact Makes.pure rfl
  | cons m₀ rest =>
    obtain ⟨key, d⟩ := m₀
    refine (makes_ofJson hj.1 m).bind fun v m₁ _ hv => ?_
    obtain ⟨es, m₂, hrun, hgrow, hes⟩ := makes_ofJsonMembers hj.2 m₁
    exact ⟨(key, v) :: es, m₂, run_bind_ok hrun, hgrow, v, es, rfl, hv.mono hgrow, hes⟩

end

end Data

def layoutOf (indent : Value) : Json.Layout :=
  if (indentOf indent).isEmpty then .compact else .indented (indentOf indent)

/-- The indentation that a number asks for is blank. -/
theorem blank_indentOf (x : Float) : Json.AllBlank (indentOf (.number x)) := by
  intro c hc
  change c ∈ (if 1.0 ≤ x then List.replicate (min (Number.toNatClamped x) 10) ' ' else []) at hc
  split at hc
  · rw [List.eq_of_mem_replicate hc]
    rfl
  · exact absurd hc List.not_mem_nil

theorem blank_layoutOf (x : Float) : (layoutOf (.number x)).Blank := by
  unfold layoutOf
  split
  · exact Json.blank_compact
  · exact Json.blank_indented (blank_indentOf x)

def Data.jsonText (d : Data) (indent : Value) : String := String.ofList (Json.write (layoutOf indent) d.json)

/-- The JSON text of a tree is read as the JSON form of the tree, with the members in the same order. -/
theorem Data.read_jsonText {d : Data} (hj : d.InJson) (hk : d.DistinctKeys)
    (hheight : d.height < Json.depthLimit) (x : Float) :
    Json.read (d.jsonText (.number x)).toList = .ok d.json := by
  have hroom : d.json.height < Json.depthLimit := by
    rw [Data.height_json]
    exact hheight
  unfold Data.jsonText
  rw [String.toList_ofList]
  exact Json.read_write (blank_layoutOf x) (Data.readable_json hj hk) hroom

namespace Run

/-- Data is written as the JSON text of the tree that it shows. -/
theorem jsonText_shownBy {d : Data} {m : Machine} {v : Value} (hv : d.ShownBy m.heap v) (hj : d.InJson)
    (hdepth : d.height ≤ maxDepth) (replacer indent : Value) :
    Run.jsonText [v, replacer, indent] m = makeString (d.jsonText indent) m := by
  have hjson : m.heap.json? v = .ok (some d.json) :=
    hv.jsonWithin? hj (Heap.Encloses.nil m.heap d.height) maxDepth hdepth
  have hform : (ofExcept (m.heap.json? v) : Run (Option Json)) m = .ok (some d.json) m := by
    rw [hjson]
    rfl
  exact (run_bind_ok (rfl : heap m = .ok m.heap m)).trans (run_bind_ok hform)

theorem parseJson_eq {text : String} {json : Json} (h : Json.read text.toList = .ok json) (m : Machine) :
    parseJson [.string text] m = ofJson json m := by
  have htext : textArgument [.string text] 0 m = .ok text.toList m := rfl
  refine (run_bind_ok htext).trans ?_
  rw [h]

end Run

/-- Data survives JSON. A tree with distinct keys and fewer than 128 containers nested in each other, whose
leaves are null, booleans, strings and integers below `2 ^ 53`, is written as its JSON text, whatever number
is given as the indentation, and the text is read as a value that shows the same tree, with the keys in the
same order. A text that is too long for a string is refused when it is written. -/
theorem data_survives_json {d : Data} (hj : d.InJson) (hk : d.DistinctKeys) (hheight : d.height < 128)
    {m : Machine} {v : Value} (hv : d.ShownBy m.heap v) (call : Caller) (x : Float) :
    ((d.jsonText (.number x)).utf8ByteSize ≤ maxStringSize → ∃ m₁ v' m₂,
      Run.callBuiltin call .jsonText [v, .null, .number x] m = .ok (.string (d.jsonText (.number x))) m₁ ∧
      Run.callBuiltin call .jsonParse [.string (d.jsonText (.number x))] m₁ = .ok v' m₂ ∧
      d.ShownBy m₂.heap v') ∧
    (maxStringSize < (d.jsonText (.number x)).utf8ByteSize →
      Run.callBuiltin call .jsonText [v, .null, .number x] m = .error (.raised .stringLength) m) := by
  have hdepth : d.height ≤ maxDepth := Nat.le_of_lt (Nat.lt_trans hheight (by decide))
  have htext : Run.callBuiltin call .jsonText [v, .null, .number x] m =
      Run.makeString (d.jsonText (.number x)) m := Run.jsonText_shownBy hv hj hdepth .null (.number x)
  have hread := Data.read_jsonText hj hk hheight x
  constructor
  · intro hfits
    -- Making the string takes memory and nothing else.
    let m₁ : Machine := { m with charged := m.charged + (d.jsonText (.number x)).utf8ByteSize }
    obtain ⟨v', m₂, hmade, -, hshown⟩ := Data.makes_ofJson hj m₁
    refine ⟨m₁, v', m₂, ?_, (Run.parseJson_eq hread m₁).trans hmade, hshown⟩
    rw [htext, Run.makeString, if_neg (Nat.not_lt.mpr hfits)]
    rfl
  · intro hlong
    rw [htext, Run.makeString, if_pos hlong]
    rfl

/-- The tree `{ "a\n": [ -2, "é", {} ], "": true }`. -/
def mixedData : Data :=
  .object [("a\n", .array [.integer (-2), .string "é", .object []]), ("", .bool true)]

def mixedMachine : Machine :=
  { stdin := ⟨[]⟩
    checkpoints := 0
    heap :=
      { arrays := #[#[.number (Float.ofInt (-2)), .string "é", .object ⟨1⟩]]
        objects := #[{ entries := [("a\n", .array ⟨0⟩), ("", .bool true)] }, {}] } }

/-- An object with values of all kinds comes back from its JSON text, which has the indent that was asked
for. -/
theorem mixed_data_survives_json :
    ∃ m₁ v' m₂,
      Run.callBuiltin (evaluator 1).call .jsonText [.object ⟨0⟩, .null, .number 2.5] mixedMachine =
        .ok (.string (mixedData.jsonText (.number 2.5))) m₁ ∧
      Run.callBuiltin (evaluator 1).call .jsonParse [.string (mixedData.jsonText (.number 2.5))] m₁ =
        .ok v' m₂ ∧
      mixedData.ShownBy m₂.heap v' :=
  have hinteger : (-2 : Int).natAbs < 2 ^ 53 := by decide
  have hj : mixedData.InJson := ⟨⟨hinteger, trivial, trivial, trivial⟩, trivial, trivial⟩
  have hk : mixedData.DistinctKeys :=
    ⟨by decide, ⟨trivial, trivial, ⟨List.nodup_nil, trivial⟩, trivial⟩, trivial, trivial⟩
  have hshown : mixedData.ShownBy mixedMachine.heap (.object ⟨0⟩) :=
    ⟨⟨0⟩, rfl, by decide, _, rfl, _, _, rfl,
      ⟨⟨0⟩, rfl, by decide, _, _, rfl, rfl, _, _, rfl, rfl, _, _, rfl,
        ⟨⟨1⟩, rfl, by decide, _, rfl, rfl⟩, rfl⟩, _, _, rfl, rfl, rfl⟩
  have hfits : (mixedData.jsonText (.number 2.5)).utf8ByteSize ≤ maxStringSize := by decide +kernel
  (data_survives_json hj hk (by decide) hshown _ 2.5).1 hfits

end Snippet.Script
