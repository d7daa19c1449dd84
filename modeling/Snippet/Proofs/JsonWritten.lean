import Snippet.Proofs.JsonReading

/-!
Values read back from their JSON text. Whatever the layout, the text of a value without fractions is read as
the same value, its members in the same order, if there is room for its containers and no key comes twice in
an object.
-/

namespace Snippet.Json

mutual

def height : Json → Nat
  | .array items => itemsHeight items + 1
  | .object members => membersHeight members + 1
  | _ => 0

def itemsHeight : List Json → Nat
  | [] => 0
  | j :: rest => max j.height (itemsHeight rest)

def membersHeight : List (String × Json) → Nat
  | [] => 0
  | (_, j) :: rest => max j.height (membersHeight rest)

end

mutual

def Readable : Json → Prop
  | .integer n => n.natAbs < Number.twoTo 63
  | .float _ => False
  | .array items => itemsReadable items
  | .object members => (members.map Prod.fst).Nodup ∧ membersReadable members
  | _ => True

def itemsReadable : List Json → Prop
  | [] => True
  | j :: rest => j.Readable ∧ itemsReadable rest

def membersReadable : List (String × Json) → Prop
  | [] => True
  | (_, j) :: rest => j.Readable ∧ membersReadable rest

end

section Members

theorem put_new {key : String} {members : List (String × Json)} (h : key ∉ members.map Prod.fst)
    (j : Json) : put key j members = members ++ [(key, j)] := by
  induction members with
  | nil => rfl
  | cons m rest ih =>
    obtain ⟨k, v⟩ := m
    rw [List.map_cons, List.mem_cons, not_or] at h
    have hk : ¬ (k == key) = true := fun heq => h.1 (beq_iff_eq.mp heq).symm
    rw [put, if_neg hk, ih h.2]
    rfl

/-- Members with distinct keys stay as they are given. -/
theorem ofMembers_of_nodup {members : List (String × Json)} (h : (members.map Prod.fst).Nodup) :
    ofMembers members = members := by
  have hfold (done : List (String × Json)) (more : List (String × Json))
      (hkeys : ((done ++ more).map Prod.fst).Nodup) :
      more.foldl (fun acc member => put member.1 member.2 acc) done = done ++ more := by
    induction more generalizing done with
    | nil => exact (List.append_nil done).symm
    | cons m rest ih =>
      have hnew : m.1 ∉ done.map Prod.fst := by
        rw [List.map_append, List.nodup_append] at hkeys
        exact fun hmem => hkeys.2.2 m.1 hmem m.1 List.mem_cons_self rfl
      rw [List.foldl_cons, put_new hnew, ih]
      · rw [List.append_assoc]
        rfl
      · rw [List.append_assoc]
        exact hkeys
  exact hfold [] members h

end Members

section Layouts

def Layout.Blank (layout : Layout) : Prop := ∀ depth, AllBlank (layout.break depth)

theorem blank_compact : Layout.Blank .compact := fun _ _ hc => absurd hc List.not_mem_nil

theorem blank_indented {unit : List Char} (h : AllBlank unit) : Layout.Blank (.indented unit) := by
  intro depth c hc
  obtain rfl | hc := List.mem_cons.mp hc
  · rfl
  · obtain ⟨line, hline, hc⟩ := List.mem_flatten.mp hc
    exact h c (List.eq_of_mem_replicate hline ▸ hc)

theorem Layout.colon_eq (layout : Layout) : ∃ space, AllBlank space ∧ layout.colon = ':' :: space := by
  cases layout with
  | compact => exact ⟨[], fun _ hc => absurd hc List.not_mem_nil, rfl⟩
  | indented unit => exact ⟨[' '], fun c hc => List.mem_singleton.mp hc ▸ rfl, rfl⟩

theorem ends_break (layout : Layout) (depth : Nat) {c : Char} (hc : c ∈ [',', ']', '}', '\n'])
    (tail : List Char) : Ends (layout.break depth ++ c :: tail) := by
  cases layout with
  | compact => exact ends_cons hc tail
  | indented unit => exact ends_cons (c := '\n') (by decide) _

end Layouts

def Opens (text : List Char) : Prop := ∃ c tail, text = c :: tail ∧ isJsonBlank c = false ∧ c ≠ ']'

structure ReadsAs (room : Nat) (text : List Char) (j : Json) : Prop where
  opens : Opens text
  reads {rest : List Char} (hrest : Ends rest) {fuel : Nat} (hfuel : 2 * text.length ≤ fuel)
    (offset : Nat) : ∃ offset', readValue room fuel ⟨text ++ rest, offset⟩ = .ok (j, ⟨rest, offset'⟩)

section Leaves

variable {room : Nat}

theorem skipBlanks_cons {c : Char} (hc : isJsonBlank c = false) (tail : List Char) (offset : Nat) :
    (⟨c :: tail, offset⟩ : Cursor).skipBlanks = ⟨c :: tail, offset⟩ :=
  skipBlanks_append (fun _ h => absurd h List.not_mem_nil) hc tail offset

/-- A value is read from behind the blanks. -/
theorem readValue_blanks {blanks : List Char} (hb : AllBlank blanks) {c : Char}
    (hc : isJsonBlank c = false) (fuel : Nat) (tail : List Char) (offset : Nat) :
    readValue room (fuel + 1) ⟨blanks ++ c :: tail, offset⟩ =
      readValue room (fuel + 1) ⟨c :: tail, offset + blanks.length⟩ := by
  rw [readValue, readValue, skipBlanks_append hb hc, skipBlanks_cons hc]

theorem isDigit_opens {d : Char} (hd : d.isDigit = true) : isJsonBlank d = false ∧ d ≠ ']' := by
  refine ⟨?_, fun h => absurd (h ▸ hd) (by decide)⟩
  rw [Bool.eq_false_iff]
  intro hblank
  simp only [isJsonBlank, Bool.or_eq_true, beq_iff_eq] at hblank
  obtain ((rfl | rfl) | rfl) | rfl := hblank <;> exact absurd hd (by decide)

/-- A digit is none of the other characters with which a value begins. -/
theorem readValue_digit {d : Char} (hd : d.isDigit = true) (fuel : Nat) (tail : List Char) (offset : Nat) :
    readValue room (fuel + 1) ⟨d :: tail, offset⟩ = readNumber false ⟨d :: tail, offset⟩ := by
  have hskip := skipBlanks_cons (isDigit_opens hd).1 tail offset
  rw [readValue_of_digit (congrArg Cursor.rest hskip) hd, hskip]

/-- A text has at least one character, which is worth two steps. -/
theorem ReadsAs.intro {text : List Char} {j : Json} (hopens : Opens text)
    (h : ∀ rest, Ends rest → ∀ fuel, 2 * text.length ≤ fuel + 2 → ∀ offset, ∃ offset',
      readValue room (fuel + 2) ⟨text ++ rest, offset⟩ = .ok (j, ⟨rest, offset'⟩)) :
    ReadsAs room text j := by
  refine ⟨hopens, fun {rest} hrest {fuel} hfuel offset => ?_⟩
  obtain ⟨c, tail, rfl, -⟩ := hopens
  have hlength : (c :: tail).length = tail.length + 1 := rfl
  obtain ⟨fuel, rfl⟩ : ∃ k, fuel = k + 2 := ⟨fuel - 2, by omega⟩
  exact h rest hrest fuel hfuel offset

/-- An integer is read from its digits, with its sign. -/
theorem readsAs_integer {n : Int} (hn : n.natAbs < Number.twoTo 63) :
    ReadsAs room (Number.integerText n) (.integer n) := by
  unfold Number.integerText
  split
  · next hneg =>
    refine .intro ⟨'-', _, rfl, rfl, by decide⟩ fun rest hrest fuel _ offset => ?_
    obtain ⟨offset', hread⟩ := readNumber_digits true hn (by omega) hrest (offset + 1)
    rw [if_pos rfl, show -(n.natAbs : Int) = n by omega] at hread
    refine ⟨offset', ?_⟩
    rw [List.cons_append, readValue, skipBlanks_cons rfl]
    exact hread
  · next hpos =>
    obtain ⟨d, ds, hdigits, hd⟩ := digits_eq_cons n.natAbs
    rw [hdigits]
    refine .intro ⟨d, ds, rfl, isDigit_opens hd⟩ fun rest hrest fuel _ offset => ?_
    obtain ⟨offset', hread⟩ := readNumber_digits false hn (fun h => absurd h (by decide)) hrest offset
    rw [if_neg Bool.false_ne_true, show (n.natAbs : Int) = n by omega, hdigits] at hread
    refine ⟨offset', ?_⟩
    rw [List.cons_append, readValue_digit hd]
    exact hread

/-- A text is read from its quotes, with its escapes. -/
theorem readsAs_string (s : String) : ReadsAs room (quote s) (.string s) := by
  refine .intro ⟨'"', _, rfl, rfl, by decide⟩ fun rest _ fuel hfuel offset => ?_
  have hquote : (quote s).length ≤ fuel + 2 := by omega
  obtain ⟨offset', hread⟩ := readString_quote s rest hquote offset
  refine ⟨offset', ?_⟩
  have hskip : (⟨quote s ++ rest, offset⟩ : Cursor).skipBlanks = ⟨quote s ++ rest, offset⟩ :=
    skipBlanks_cons rfl _ _
  have hvalue : readValue room (fuel + 2) ⟨quote s ++ rest, offset⟩ =
      (readString (fuel + 2) ((⟨quote s ++ rest, offset⟩ : Cursor).skip 1)).map
        fun r => (.string r.1, r.2) := by
    rw [readValue, hskip]
    rfl
  rw [hvalue, hread]
  rfl

end Leaves

section Containers

variable {room : Nat}

def itemFrom (room : Nat) (done : List Json) (fuel : Nat) (c : Cursor) : Reading Json :=
  match readValue room fuel c with
  | .error e => .error e
  | .ok (item, c) => readItems room false (item :: done) fuel c

theorem ReadsAs.itemFrom {text : List Char} {j : Json} (h : ReadsAs room text j) (done : List Json)
    {rest : List Char} (hrest : Ends rest) (fuel : Nat) (hfuel : 2 * text.length ≤ fuel) (offset : Nat) :
    ∃ offset', itemFrom room done fuel ⟨text ++ rest, offset⟩ =
      readItems room false (j :: done) fuel ⟨rest, offset'⟩ := by
  obtain ⟨offset', hread⟩ := h.reads hrest hfuel offset
  refine ⟨offset', ?_⟩
  rw [Json.itemFrom, hread]

theorem readValue_array (hroom : 1 < room) (fuel : Nat) (tail : List Char) (offset : Nat) :
    readValue room (fuel + 1) ⟨'[' :: tail, offset⟩ =
      readItems (room - 1) true [] fuel ⟨tail, offset + 1⟩ := by
  rw [readValue, skipBlanks_cons rfl]
  exact if_neg (Nat.not_le.mpr hroom)

/-- The first element of an array is read. -/
theorem readItems_first {blanks : List Char} (hb : AllBlank blanks) {text : List Char} {j : Json}
    (h : ReadsAs room text j) (done : List Json) {rest : List Char} (hrest : Ends rest) (fuel : Nat)
    (hfuel : 2 * text.length ≤ fuel) (offset : Nat) :
    ∃ offset', readItems room true done (fuel + 1) ⟨blanks ++ (text ++ rest), offset⟩ =
      readItems room false (j :: done) fuel ⟨rest, offset'⟩ := by
  obtain ⟨offset', hitem⟩ := h.itemFrom done hrest fuel hfuel (offset + blanks.length)
  obtain ⟨c, tail, rfl, hblank, hclose⟩ := h.opens
  refine ⟨offset', ?_⟩
  rw [List.cons_append] at hitem ⊢
  rw [← hitem, readItems, skipBlanks_append hb hblank]
  dsimp only
  split
  · next heq => cases heq
  · next heq => exact absurd (List.cons.inj heq).1 hclose
  · rfl

/-- A further element of an array is read from behind its comma. -/
theorem readItems_next {blanks : List Char} (hb : AllBlank blanks) {text : List Char} {j : Json}
    (h : ReadsAs room text j) (done : List Json) {rest : List Char} (hrest : Ends rest) (fuel : Nat)
    (hfuel : 2 * text.length ≤ fuel) (offset : Nat) :
    ∃ offset', readItems room false done (fuel + 1) ⟨',' :: (blanks ++ (text ++ rest)), offset⟩ =
      readItems room false (j :: done) fuel ⟨rest, offset'⟩ := by
  obtain ⟨offset', hitem⟩ := h.itemFrom done hrest fuel hfuel (offset + 1 + blanks.length)
  obtain ⟨c, tail, rfl, hblank, hclose⟩ := h.opens
  refine ⟨offset', ?_⟩
  rw [List.cons_append] at hitem ⊢
  have hafter : ((⟨',' :: (blanks ++ c :: (tail ++ rest)), offset⟩ : Cursor).skip 1).skipBlanks =
      ⟨c :: (tail ++ rest), offset + 1 + blanks.length⟩ :=
    skipBlanks_append hb hblank (tail ++ rest) (offset + 1)
  rw [← hitem, readItems, skipBlanks_cons rfl]
  dsimp only
  split
  · next heq => cases heq
  · next heq => exact absurd (List.cons.inj heq).1 (by decide)
  · next heq =>
    obtain ⟨rfl, rfl⟩ := List.cons.inj heq
    rw [hafter, if_neg Bool.false_ne_true, if_pos (beq_self_eq_true ',')]
    dsimp only
    -- What stands behind the comma is neither the end of the text nor that of the array.
    split
    · next e heq =>
      split at heq
      · next hend => cases hend
      · next hend => exact absurd (List.cons.inj hend).1 hclose
      · cases heq
    · next after heq =>
      split at heq
      · next hend => cases hend
      · next hend => exact absurd (List.cons.inj hend).1 hclose
      · obtain rfl := Except.ok.inj heq
        rfl

theorem readItems_close {blanks : List Char} (hb : AllBlank blanks) (first : Bool) (done : List Json)
    (fuel : Nat) (tail : List Char) (offset : Nat) :
    readItems room first done (fuel + 1) ⟨blanks ++ ']' :: tail, offset⟩ =
      .ok (.array done.reverse, ⟨tail, offset + blanks.length + 1⟩) := by
  rw [readItems, skipBlanks_append hb rfl]
  rfl

def memberFrom (room : Nat) (done : List (String × Json)) (fuel : Nat) (c : Cursor) : Reading Json :=
  match readString (fuel + 1) (c.skip 1) with
  | .error e => .error e
  | .ok (key, c) =>
    let c := c.skipBlanks
    match c.rest with
    | [] => c.failNext .endInObject
    | ':' :: _ =>
      match readValue room fuel (c.skip 1) with
      | .error e => .error e
      | .ok (value, c) => readMembers room false ((key, value) :: done) fuel c
    | _ => c.failNext .expectedColon

/-- A member is read with its key, the colon and the blanks around it. -/
theorem ReadsAs.memberFrom {text : List Char} {j : Json} (h : ReadsAs room text j) (key : String)
    {space : List Char} (hs : AllBlank space) (done : List (String × Json)) {rest : List Char}
    (hrest : Ends rest) (fuel : Nat) (hkey : (quote key).length ≤ fuel + 1)
    (hfuel : 2 * text.length ≤ fuel) (offset : Nat) :
    ∃ offset', memberFrom room done fuel ⟨quote key ++ ':' :: (space ++ (text ++ rest)), offset⟩ =
      readMembers room false ((key, j) :: done) fuel ⟨rest, offset'⟩ := by
  obtain ⟨offset₁, hstring⟩ := readString_quote key (':' :: (space ++ (text ++ rest))) hkey offset
  obtain ⟨offset', hread⟩ := h.reads hrest hfuel (offset₁ + 1 + space.length)
  obtain ⟨c, tail, rfl, hblank, -⟩ := h.opens
  rw [List.length_cons] at hfuel
  obtain ⟨fuel, rfl⟩ : ∃ k, fuel = k + 1 := ⟨fuel - 1, by omega⟩
  have hvalue : readValue room (fuel + 1) ⟨space ++ (c :: tail ++ rest), offset₁ + 1⟩ =
      .ok (j, ⟨rest, offset'⟩) := by
    rw [List.cons_append] at hread ⊢
    rw [readValue_blanks hs hblank, hread]
  have hcolon : (⟨':' :: (space ++ (c :: tail ++ rest)), offset₁⟩ : Cursor).skip 1 =
      ⟨space ++ (c :: tail ++ rest), offset₁ + 1⟩ := rfl
  refine ⟨offset', ?_⟩
  rw [Json.memberFrom, hstring]
  dsimp only
  rw [skipBlanks_cons rfl]
  dsimp only
  rw [hcolon, hvalue]
  rfl

theorem readValue_object (hroom : 1 < room) (fuel : Nat) (tail : List Char) (offset : Nat) :
    readValue room (fuel + 1) ⟨'\x7b' :: tail, offset⟩ =
      readMembers (room - 1) true [] fuel ⟨tail, offset + 1⟩ := by
  rw [readValue, skipBlanks_cons rfl]
  exact if_neg (Nat.not_le.mpr hroom)

theorem readMembers_first {blanks : List Char} (hb : AllBlank blanks) (key : String)
    (done : List (String × Json)) (fuel : Nat) (tail : List Char) (offset : Nat) :
    readMembers room true done (fuel + 1) ⟨blanks ++ (quote key ++ tail), offset⟩ =
      memberFrom room done fuel ⟨quote key ++ tail, offset + blanks.length⟩ := by
  unfold quote
  rw [List.cons_append, readMembers, skipBlanks_append hb rfl]
  rfl

/-- A further member of an object is read from behind its comma. -/
theorem readMembers_next {blanks : List Char} (hb : AllBlank blanks) (key : String)
    (done : List (String × Json)) (fuel : Nat) (tail : List Char) (offset : Nat) :
    readMembers room false done (fuel + 1) ⟨',' :: (blanks ++ (quote key ++ tail)), offset⟩ =
      memberFrom room done fuel ⟨quote key ++ tail, offset + 1 + blanks.length⟩ := by
  unfold quote
  rw [List.cons_append]
  have hafter (s : List Char) : ((⟨',' :: (blanks ++ '"' :: s), offset⟩ : Cursor).skip 1).skipBlanks =
      ⟨'"' :: s, offset + 1 + blanks.length⟩ := skipBlanks_append hb rfl s (offset + 1)
  rw [readMembers, skipBlanks_cons rfl]
  simp only [Bool.false_eq_true, if_false, hafter]
  rfl

theorem readMembers_close {blanks : List Char} (hb : AllBlank blanks) (first : Bool)
    (done : List (String × Json)) (fuel : Nat) (tail : List Char) (offset : Nat) :
    readMembers room first done (fuel + 1) ⟨blanks ++ '\x7d' :: tail, offset⟩ =
      .ok (.object (ofMembers done.reverse), ⟨tail, offset + blanks.length + 1⟩) := by
  rw [readMembers, skipBlanks_append hb rfl]
  rfl

end Containers

section Ends

variable (layout : Layout) (depth : Nat)

theorem ends_writeItems (items : List Json) (after : List Char) :
    Ends (writeItems layout depth items ++ (layout.break depth ++ ']' :: after)) := by
  cases items with
  | nil => exact ends_break layout depth (by decide) after
  | cons j rest =>
    rw [writeItems]
    exact ends_cons (by decide) _

theorem ends_writeMembers (members : List (String × Json)) (after : List Char) :
    Ends (writeMembers layout depth members ++ (layout.break depth ++ '\x7d' :: after)) := by
  cases members with
  | nil => exact ends_break layout depth (by decide) after
  | cons m rest =>
    obtain ⟨key, j⟩ := m
    rw [writeMembers]
    exact ends_cons (by decide) _

end Ends

section Trees

variable {layout : Layout} (hlayout : layout.Blank)

include hlayout

mutual

/-- A value is read from its text. -/
theorem readsAs_writeAt {j : Json} (hj : j.Readable) {room : Nat} (hroom : j.height < room)
    (depth : Nat) : ReadsAs room (writeAt layout depth j) j := by
  cases j with
  | null => exact .intro ⟨'n', _, rfl, rfl, by decide⟩ fun _ _ _ _ _ => ⟨_, rfl⟩
  | bool b =>
    cases b with
    | true => exact .intro ⟨'t', _, rfl, rfl, by decide⟩ fun _ _ _ _ _ => ⟨_, rfl⟩
    | false => exact .intro ⟨'f', _, rfl, rfl, by decide⟩ fun _ _ _ _ _ => ⟨_, rfl⟩
  | integer n => exact readsAs_integer hj
  | float x => exact hj.elim
  | string s => exact readsAs_string s
  | array items =>
    have hheight : (Json.array items).height = itemsHeight items + 1 := rfl
    have hopen : 1 < room := by omega
    -- There is room for the array itself, and one less for what is in it.
    have hinside : itemsHeight items < room - 1 := by omega
    cases items with
    | nil =>
      refine .intro ⟨'[', _, rfl, rfl, by decide⟩ fun rest _ fuel _ offset => ⟨offset + 1 + 1, ?_⟩
      exact (readValue_array hopen (fuel + 1) (']' :: rest) offset).trans rfl
    | cons j rest =>
      have hmax : itemsHeight (j :: rest) = max j.height (itemsHeight rest) := rfl
      have hfirst := readsAs_writeAt hj.1 (by omega : j.height < room - 1) (depth + 1)
      refine .intro ⟨'[', _, rfl, rfl, by decide⟩ fun after _ fuel hfuel offset => ?_
      rw [writeAt] at hfuel ⊢
      simp only [List.length_cons, List.length_append, List.length_nil] at hfuel
      -- The bracket takes one step; the first element leaves enough of them for those after it.
      obtain ⟨offset₁, hitem⟩ := readItems_first (hlayout (depth + 1)) hfirst []
        (ends_writeItems layout depth rest after) fuel (by omega) (offset + 1)
      obtain ⟨offset', hitems⟩ := readItems_writeItems hj.2 (by omega : itemsHeight rest < room - 1)
        depth [j] after fuel (by omega) offset₁
      refine ⟨offset', ?_⟩
      simp only [List.cons_append, List.append_assoc, List.nil_append]
      rw [readValue_array hopen, hitem, hitems]
      rfl
  | object members =>
    have hheight : (Json.object members).height = membersHeight members + 1 := rfl
    have hopen : 1 < room := by omega
    have hinside : membersHeight members < room - 1 := by omega
    cases members with
    | nil =>
      refine .intro ⟨'\x7b', _, rfl, rfl, by decide⟩ fun rest _ fuel _ offset => ⟨offset + 1 + 1, ?_⟩
      exact (readValue_object hopen (fuel + 1) ('\x7d' :: rest) offset).trans rfl
    | cons m rest =>
      obtain ⟨key, j⟩ := m
      have hmax : membersHeight ((key, j) :: rest) = max j.height (membersHeight rest) := rfl
      have hfirst := readsAs_writeAt hj.2.1 (by omega : j.height < room - 1) (depth + 1)
      obtain ⟨space, hspace, hcolon⟩ := layout.colon_eq
      refine .intro ⟨'\x7b', _, rfl, rfl, by decide⟩ fun after _ fuel hfuel offset => ?_
      rw [writeAt, hcolon] at hfuel ⊢
      simp only [List.length_cons, List.length_append, List.length_nil] at hfuel
      obtain ⟨offset₁, hmember⟩ := hfirst.memberFrom key hspace []
        (ends_writeMembers layout depth rest after) fuel (by omega) (by omega)
        (offset + 1 + (layout.break (depth + 1)).length)
      obtain ⟨offset', hmembers⟩ := readMembers_writeMembers hj.2.2
        (by omega : membersHeight rest < room - 1) depth [(key, j)] after fuel (by omega) offset₁
      refine ⟨offset', ?_⟩
      simp only [List.cons_append, List.append_assoc, List.nil_append]
      rw [readValue_object hopen, readMembers_first (hlayout (depth + 1)), hmember, hmembers]
      change Except.ok (Json.object (ofMembers ((key, j) :: rest)), _) = _
      rw [ofMembers_of_nodup hj.1]

/-- The elements of an array are read from the texts of those after the first one. -/
theorem readItems_writeItems {items : List Json} (hi : itemsReadable items) {room : Nat}
    (hroom : itemsHeight items < room) (depth : Nat) (done : List Json) (after : List Char) (fuel : Nat)
    (hfuel : 2 * (writeItems layout depth items).length + 2 ≤ fuel) (offset : Nat) :
    ∃ offset', readItems room false done fuel
      ⟨writeItems layout depth items ++ (layout.break depth ++ ']' :: after), offset⟩ =
        .ok (.array (done.reverse ++ items), ⟨after, offset'⟩) := by
  obtain ⟨fuel, rfl⟩ : ∃ k, fuel = k + 1 := ⟨fuel - 1, by omega⟩
  cases items with
  | nil =>
    rw [List.append_nil]
    exact ⟨_, readItems_close (hlayout depth) false done fuel after offset⟩
  | cons j rest =>
    have hmax : itemsHeight (j :: rest) = max j.height (itemsHeight rest) := rfl
    have hfirst := readsAs_writeAt hi.1 (by omega : j.height < room) (depth + 1)
    rw [writeItems] at hfuel ⊢
    simp only [List.length_cons, List.length_append] at hfuel
    obtain ⟨offset₁, hitem⟩ := readItems_next (hlayout (depth + 1)) hfirst done
      (ends_writeItems layout depth rest after) fuel (by omega) offset
    obtain ⟨offset', hitems⟩ := readItems_writeItems hi.2 (by omega : itemsHeight rest < room) depth
      (j :: done) after fuel (by omega) offset₁
    refine ⟨offset', ?_⟩
    simp only [List.cons_append, List.append_assoc]
    rw [hitem, hitems, List.reverse_cons, List.append_assoc]
    rfl

/-- The members of an object are read from the texts of those after the first one. -/
theorem readMembers_writeMembers {members : List (String × Json)} (hm : membersReadable members)
    {room : Nat} (hroom : membersHeight members < room) (depth : Nat) (done : List (String × Json))
    (after : List Char) (fuel : Nat)
    (hfuel : 2 * (writeMembers layout depth members).length + 2 ≤ fuel) (offset : Nat) :
    ∃ offset', readMembers room false done fuel
      ⟨writeMembers layout depth members ++ (layout.break depth ++ '\x7d' :: after), offset⟩ =
        .ok (.object (ofMembers (done.reverse ++ members)), ⟨after, offset'⟩) := by
  obtain ⟨fuel, rfl⟩ : ∃ k, fuel = k + 1 := ⟨fuel - 1, by omega⟩
  cases members with
  | nil =>
    rw [List.append_nil]
    exact ⟨_, readMembers_close (hlayout depth) false done fuel after offset⟩
  | cons m rest =>
    obtain ⟨key, j⟩ := m
    have hmax : membersHeight ((key, j) :: rest) = max j.height (membersHeight rest) := rfl
    have hfirst := readsAs_writeAt hm.1 (by omega : j.height < room) (depth + 1)
    obtain ⟨space, hspace, hcolon⟩ := layout.colon_eq
    rw [writeMembers, hcolon] at hfuel ⊢
    simp only [List.length_cons, List.length_append] at hfuel
    obtain ⟨offset₁, hmember⟩ := hfirst.memberFrom key hspace done
      (ends_writeMembers layout depth rest after) fuel (by omega) (by omega)
      (offset + 1 + (layout.break (depth + 1)).length)
    obtain ⟨offset', hmembers⟩ := readMembers_writeMembers hm.2 (by omega : membersHeight rest < room)
      depth ((key, j) :: done) after fuel (by omega) offset₁
    refine ⟨offset', ?_⟩
    simp only [List.cons_append, List.append_assoc]
    rw [readMembers_next (hlayout (depth + 1)), hmember, hmembers, List.reverse_cons, List.append_assoc]
    rfl

end

/-- What has been written is read: the value itself, with the members in the same order. -/
theorem read_write {j : Json} (hj : j.Readable) (hheight : j.height < depthLimit) :
    read (write layout j) = .ok j := by
  have hreads := readsAs_writeAt hlayout hj hheight 0
  have hend : Ends [] := fun _ hc => by cases hc
  obtain ⟨offset, hread⟩ := hreads.reads hend
    (Nat.le_add_right (2 * (writeAt layout 0 j).length) 2) 0
  rw [List.append_nil] at hread
  unfold read write
  rw [hread]
  rfl

end Trees

end Snippet.Json
