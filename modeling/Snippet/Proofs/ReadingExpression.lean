import Snippet.Proofs.Nesting
import Snippet.Proofs.Reading

/-!
How deep what is read is nested: expressions and functions. Everything is put together from parts that are
read one level further down, and each level nests them at most three deep.
-/

namespace Snippet.Script

open Snippet.Script.Part

/-- What is read at a level is nested at most `r` deep. -/
structure Parse.Descent.Nests (n r : Nat) (d : Parse.Descent) : Prop where
  statement : Reads n (fun s => Nested r (.stmt s)) d.statement
  assignment : Reads n (fun e => Nested r (.expr e)) d.assignment
  unary : Reads n (fun e => Nested r (.expr e)) d.unary
  binary : ∀ least, Reads n (fun e => Nested r (.expr e)) (d.binary least)
  primary : Reads n (fun e => Nested r (.expr e)) d.primary

/-- A class whose functions are nested at most `r` deep. -/
def NestedClass (r : Nat) (c : ClassDef) : Prop := ∀ f ∈ c.functions, Nested r (.func f)

/-- The members of a class read so far, of which the functions are nested at most `r` deep. -/
structure NestedParts (r : Nat) (parts : Parse.ClassParts) : Prop where
  constructor : ∀ f, parts.constructor? = some f → Nested r (.func f)
  methods : ∀ m ∈ parts.methods, Nested r (.func m.2)
  statics : ∀ m ∈ parts.statics, Nested r (.func m.2)

/-- A class is nested no deeper than its members. -/
theorem NestedParts.classDef {r : Nat} {parts : Parse.ClassParts} (h : NestedParts r parts) (name : String) :
    NestedClass r (.mk name parts.constructor? parts.methods.reverse parts.statics.reverse) := by
  intro f hf
  obtain hf | hf := List.mem_append.mp hf
  · exact h.constructor f (Option.mem_toList.mp hf)
  obtain hf | hf := List.mem_append.mp hf
  · obtain ⟨m, hm, rfl⟩ := List.mem_map.mp hf
    exact h.methods m (List.mem_reverse.mp hm)
  · obtain ⟨m, hm, rfl⟩ := List.mem_map.mp hf
    exact h.statics m (List.mem_reverse.mp hm)

namespace Reads

open Parse

variable {n r : Nat} {d : Descent}

theorem expression (hd : d.Nests n r) :
    Reads n (fun e => Nested (r + 1) (.expr e)) (Parse.expression d) := by
  refine bind hd.assignment fun first hfirst => bind (atMark _) fun _ _ => ?_
  refine ite (fun _ => ?_) fun _ => pure (hfirst.mono (Nat.le_succ r))
  refine bind (repeatFrom (V := fun done => ∀ e ∈ done, Nested r (.expr e))
    (W := fun items => ∀ e ∈ items, Nested r (.expr e)) (List.forall_mem_singleton.mpr hfirst) ?_) ?_
  · intro done hdone
    refine bind (eatMark _) fun _ _ => ite (fun _ => ?_) fun _ => pure (forall_mem_reverse hdone)
    exact bind hd.assignment fun e he => pure (List.forall_mem_cons.mpr ⟨he, hdone⟩)
  · exact fun items hitems => pure (.of_parts trivial (AllNested.map hitems))

theorem block (hd : d.Nests n r) :
    Reads n (fun statements => AllNested r (statements.map .stmt)) (Parse.block d) := by
  refine bind (expectMark _) fun _ _ => ?_
  refine repeatFrom (V := fun done => ∀ s ∈ done, Nested r (.stmt s)) nofun fun done hdone => ?_
  refine bind (eatMark _) fun _ _ => ite (fun _ => pure (.map (forall_mem_reverse hdone))) fun _ => ?_
  refine bind atStop fun _ _ => onlyIf (fun _ => unexpected) ?_
  exact bind hd.statement fun s hs => pure (List.forall_mem_cons.mpr ⟨hs, hdone⟩)

theorem initializer (hd : d.Nests n r) :
    Reads n (fun e? => AllNested r (e?.toList.map .expr)) (Parse.initializer d) := by
  refine bind (eatMark _) fun _ _ => ite (fun _ => ?_) fun _ => pure .nil
  exact bind hd.assignment fun e he => pure (.one he)

theorem params (hd : d.Nests n r) :
    Reads n (fun ps => ∀ p ∈ ps, AllNested r p.parts) (Parse.params d) := by
  refine bind (expectMark _) fun _ _ => listUntil ?_
  refine bind (eatMark _) fun _ _ => bind target fun _ _ => ?_
  refine bind (initializer hd) fun e? he => pure ?_
  cases e? with
  | none => exact .nil
  | some e => exact he

theorem method (hd : d.Nests n r) (name : Option String) :
    Reads n (fun f => Nested (r + 1) (.func f)) (Parse.method d name) := by
  refine bind (params hd) fun ps hps => bind (block hd) fun body hbody => pure ?_
  exact Nested.func hps hbody

theorem function (hd : d.Nests n r) :
    Reads n (fun f => Nested (r + 1) (.func f)) (Parse.function d) := by
  refine bind peek fun t _ => ?_
  split
  · exact bind expectName fun _ _ => method hd _
  · exact method hd _

/-- One more function of a class. -/
theorem classParts {parts : ClassParts} (hparts : NestedParts r parts) {f : Func}
    (hf : Nested r (.func f)) (isStatic : Bool) (key : String) :
    Reads n (NestedParts r)
      (if isStatic = true then Pure.pure { parts with statics := (key, f) :: parts.statics }
      else if (key == "constructor") = true then Pure.pure { parts with constructor? := some f }
      else Pure.pure { parts with methods := (key, f) :: parts.methods }) := by
  obtain ⟨hconstructor, hmethods, hstatics⟩ := hparts
  refine ite (fun _ => pure ?_) fun _ => ite (fun _ => pure ?_) fun _ => pure ?_
  · exact ⟨hconstructor, hmethods, List.forall_mem_cons.mpr ⟨hf, hstatics⟩⟩
  · refine ⟨fun g hg => ?_, hmethods, hstatics⟩
    obtain rfl := Option.some.inj hg
    exact hf
  · exact ⟨hconstructor, List.forall_mem_cons.mpr ⟨hf, hmethods⟩, hstatics⟩

theorem classMember (hd : d.Nests n r) {parts : ClassParts} (hparts : NestedParts (r + 1) parts) :
    Reads n (NestedParts (r + 1)) (Parse.classMember d parts) := by
  refine bind (atWord _) fun _ _ => bind peekSecond fun _ _ => ?_
  refine onlyIf (fun _ => advance) (bind peek fun t _ => ?_)
  have hkey (isStatic : Bool) (key : String) := bind (method hd (some key)) fun f hf =>
    classParts (n := n) hparts hf isStatic key
  dsimp only
  split
  · exact bind advance fun _ _ => afterPure (hkey _ _)
  · exact bind advance fun _ _ => afterPure (hkey _ _)
  · exact bind (V := fun _ => True) unexpected fun key _ => hkey _ key

theorem classDef (hd : d.Nests n r) : Reads n (NestedClass (r + 1)) (Parse.classDef d) := by
  refine bind advance fun _ _ => bind expectName fun name _ => bind (atWord _) fun _ _ => ?_
  refine onlyIf (fun _ => fail _) (bind (expectMark _) fun _ _ => ?_)
  refine repeatFrom (V := NestedParts (r + 1)) ⟨nofun, nofun, nofun⟩ fun parts hparts => ?_
  refine bind (eatMark _) fun _ _ => ite (fun _ => pure (hparts.classDef name)) fun _ => ?_
  refine bind (eatMark _) fun _ _ => ite (fun _ => pure hparts) fun _ => ?_
  exact bind (classMember hd hparts) fun _ hparts => pure hparts

/-- An element or an argument. -/
theorem item (hd : d.Nests n r) : Reads n (fun i => AllNested r i.parts) (Parse.item d) :=
  bind (eatMark _) fun _ _ => bind hd.assignment fun _ he => pure (.one he)

theorem arguments (hd : d.Nests n r) :
    Reads n (fun items => ∀ i ∈ items, AllNested r i.parts) (Parse.arguments d) :=
  bind (expectMark _) fun _ _ => withIn (listUntil (item hd))

theorem arrayItems (hd : d.Nests n r) :
    Reads n (fun items => ∀ i ∈ items, AllNested (r + 1) i.parts) (Parse.arrayItems d) := by
  refine listWithHoles (.one (.of_parts trivial .nil)) ((item hd).imp fun i hi => ?_)
  exact hi.mono (Nat.le_succ r)

theorem memberKey (hd : d.Nests n r) : Reads n (fun k => AllNested r k.parts) (Parse.memberKey d) := by
  refine bind peek fun t _ => ?_
  split
  · exact bind advance fun _ _ => pure .nil
  · exact bind advance fun _ _ => pure .nil
  · exact bind advance fun _ _ => pure .nil
  · refine bind advance fun _ _ => bind hd.assignment fun e he => ?_
    exact bind (expectMark _) fun _ _ => pure (.one he)
  · exact unexpected

/-- A member of an object, which may be a function. -/
theorem member (hd : d.Nests n r) : Reads n (fun m => AllNested (r + 2) m.parts) (Parse.member d) := by
  -- A method is the deepest kind of value: a function in an expression.
  have hinit {key : Key} {e : Expr} (hkey : AllNested r key.parts) (he : Nested (r + 2) (.expr e)) :
      AllNested (r + 2) (Member.init key e).parts :=
    (hkey.mono (Nat.le_add_right r 2)).append (.one he)
  have hup {p : Part} (hp : Nested r p) : Nested (r + 2) p := hp.mono (Nat.le_add_right r 2)
  refine bind (eatMark _) fun _ _ => ite (fun _ => ?_) fun _ => ?_
  · exact bind hd.assignment fun e he => pure (.one (hup he))
  refine bind (atWord _) fun _ _ => bind peekSecond fun _ _ => onlyIf (fun _ => advance) ?_
  refine bind (memberKey hd) fun key hkey => ?_
  refine bind (atMark _) fun _ _ => ite (fun _ => ?_) fun _ => ?_
  · exact bind (method hd _) fun f hf => pure (hinit hkey (.of_parts trivial (.one hf)))
  refine bind (eatMark _) fun _ _ => ite (fun _ => ?_) fun _ => ?_
  · exact bind hd.assignment fun e he => pure (hinit hkey (hup he))
  split
  · exact pure (hinit .nil (.of_parts trivial .nil))
  · exact unexpected

/-- A substitution is a text of its own, with no more lines than the one it stands in. -/
theorem piece (hd : d.Nests n r) {c : Chunk} (hc : c.Fits n) :
    Reads n (fun p => AllNested (r + 1) p.parts) (Parse.piece d c) := by
  cases c with
  | text s => exact pure .nil
  | code s =>
    intro s' hs'
    have hinner : Reads n (fun e => Nested (r + 1) (.expr e)) (do
        let e ← Parse.expression d
        unless ← Parse.atStop do Parse.unexpected
        return e) := by
      refine bind (expression hd) fun e he => bind atStop fun _ _ => ?_
      exact orElse (fun _ => unexpected) (pure he)
    unfold Parse.piece
    dsimp only
    -- Its faults are on lines counted from its own beginning, of which there are no more.
    split
    · rename_i e hr
      have htokens := tokenizes s.toList
      rw [hr] at htokens
      exact htokens.mono hc
    · rename_i tokens hr
      have hread := hinner.text hc hr
      split
      · rename_i e s'' hr
        rw [hr] at hread
        exact ⟨.one hread.1, hs'⟩
      · rename_i e hr
        rw [hr] at hread
        exact hread

/-- The pieces of a template nest what is read from their sources one level further down. -/
theorem pieces (hd : d.Nests n r) {chunks : List Chunk} (hc : ∀ c ∈ chunks, c.Fits n) :
    Reads n (fun ps => ∀ p ∈ ps, AllNested (r + 1) p.parts) (chunks.mapM (Parse.piece d)) := by
  induction chunks with
  | nil =>
    rw [List.mapM_nil]
    exact pure nofun
  | cons c rest ih =>
    rw [List.mapM_cons]
    refine bind (piece hd (hc c List.mem_cons_self)) fun p hp => ?_
    refine bind (ih fun c hmem => hc c (List.mem_cons_of_mem _ hmem)) fun ps hps => ?_
    exact pure (List.forall_mem_cons.mpr ⟨hp, hps⟩)

theorem skipAsync : Reads n (fun _ => True) Parse.skipAsync := by
  refine bind (atWord _) fun _ _ => bind peekSecond fun _ _ => ?_
  exact ite (fun _ => advance) fun _ => pure trivial

/-- An expression without parts. -/
theorem leaf {e : Expr} (hp : Part.Admissible (.expr e)) (he : e.parts = []) :
    Nested (r + 1) (.expr e) := by
  refine .of_parts hp ?_
  change AllNested r e.parts
  rw [he]
  exact .nil

theorem wordExpr (hd : d.Nests n r) (name : String) :
    Reads n (fun e => Nested (r + 2) (.expr e)) (Parse.wordExpr d name) := by
  unfold Parse.wordExpr
  split
  · exact bind advance fun _ _ => pure (leaf trivial rfl)
  · exact bind advance fun _ _ => pure (leaf trivial rfl)
  · exact bind advance fun _ _ => pure (leaf trivial rfl)
  · exact bind advance fun _ _ => pure (leaf trivial rfl)
  · exact bind advance fun _ _ => pure (leaf trivial rfl)
  · refine bind advance fun _ _ => bind (function hd) fun f hf => pure ?_
    exact .of_parts trivial (.one hf)
  · exact bind (classDef hd) fun c hc => pure (.of_parts trivial (AllNested.map hc))
  · exact fail _
  · exact bind expectName fun _ _ => pure (leaf trivial rfl)

theorem primary (hd : d.Nests n r) :
    Reads n (fun e => Nested (r + 3) (.expr e)) (Parse.primary d) := by
  refine bind skipAsync fun _ _ => bind peek fun t ht => ?_
  split
  · exact bind advance fun _ _ => pure (leaf trivial rfl)
  · exact bind advance fun _ _ => pure (leaf trivial rfl)
  · refine bind advance fun _ _ => bind (pieces hd ht) fun ps hps => pure ?_
    exact .mono (.of_parts trivial (AllNested.flatMap hps)) (Nat.le_succ _)
  · refine bind advance fun _ _ => bind (withIn (expression hd)) fun e he => ?_
    exact bind (expectMark _) fun _ _ => pure (he.mono (Nat.le_add_right _ 2))
  · refine bind advance fun _ _ => bind (arrayItems hd) fun items hitems => pure ?_
    exact .mono (.of_parts trivial (AllNested.flatMap hitems)) (Nat.le_succ _)
  · refine bind advance fun _ _ => bind (listUntil (member hd)) fun members hmembers => pure ?_
    exact .of_parts trivial (AllNested.flatMap hmembers)
  · exact (wordExpr hd _).imp fun e he => he.mono (Nat.le_succ _)
  · exact unexpected

theorem computedKey (hd : d.Nests n r) :
    Reads n (fun k => AllNested (r + 1) k.parts) (Parse.computedKey d) :=
  bind (expression hd) fun _ he => bind (expectMark _) fun _ _ => pure (.one he)

/-- A member behind an operand. -/
theorem memberOf {e : Expr} {key : Key} {optional : Bool} (he : Nested (r + 1) (.expr e))
    (hkey : AllNested r key.parts) : Nested (r + 1) (.expr (.member e key optional)) := by
  refine .of_left trivial rfl he fun q hq hne => ?_
  obtain rfl | hq := List.mem_cons.mp hq
  · exact absurd rfl hne
  · exact hkey q hq

/-- A call behind an operand. -/
theorem callOf {e : Expr} {items : List Item} {optional : Bool} (he : Nested (r + 2) (.expr e))
    (hitems : ∀ i ∈ items, AllNested (r + 1) i.parts) :
    Nested (r + 2) (.expr (.call e items optional)) := by
  refine .of_left trivial rfl he fun q hq hne => ?_
  obtain rfl | hq := List.mem_cons.mp hq
  · exact .call
  obtain rfl | hq := List.mem_cons.mp hq
  · exact absurd rfl hne
  · exact AllNested.flatMap hitems q hq

theorem construction (hd : d.Nests n r) :
    Reads n (fun e => Nested (r + 3) (.expr e)) (Parse.construction d) := by
  refine bind advance fun _ _ => bind hd.primary fun callee hcallee => ?_
  refine bind (repeatFrom (V := fun e => Nested (r + 2) (.expr e))
    (W := fun e => Nested (r + 2) (.expr e)) (hcallee.mono (Nat.le_add_right r 2)) ?_) ?_
  · intro e he
    refine bind (eatMark _) fun _ _ => ite (fun _ => ?_) fun _ => ?_
    · exact bind memberName fun _ _ => pure (memberOf he .nil)
    refine bind (eatMark _) fun _ _ => ite (fun _ => ?_) fun _ => pure he
    exact bind (computedKey hd) fun key hkey => pure (memberOf he hkey)
  · intro callee hcallee
    refine bind (atMark _) fun _ _ => either (fun _ => arguments hd) (fun _ => pure nofun) ?_
    intro items hitems
    refine pure (.of_parts trivial (.cons .call (.cons hcallee (.flatMap fun i hi => ?_))))
    exact (hitems i hi).mono (Nat.le_add_right r 2)

/-- Accesses and calls leave an operand in front as deep as it is. -/
theorem chain (hd : d.Nests n r) :
    Reads n (fun e => Nested (r + 3) (.expr e)) (Parse.chain d) := by
  have hmember {e : Expr} {key : Key} {optional : Bool} (he : Nested (r + 3) (.expr e))
      (hkey : AllNested (r + 1) key.parts) : Nested (r + 3) (.expr (.member e key optional)) :=
    memberOf he (hkey.mono (Nat.le_succ _))
  have hcall {e : Expr} {items : List Item} {optional : Bool} (he : Nested (r + 3) (.expr e))
      (hitems : ∀ i ∈ items, AllNested r i.parts) :
      Nested (r + 3) (.expr (.call e items optional)) :=
    callOf he fun i hi => (hitems i hi).mono (Nat.le_add_right r 2)
  refine bind (atWord _) fun _ _ => either (fun _ => construction hd) (fun _ => primary hd) ?_
  intro first hfirst
  refine repeatFrom (V := fun e => Nested (r + 3) (.expr e)) hfirst fun e he => ?_
  refine bind (eatMark _) fun _ _ => ite (fun _ => ?_) fun _ => ?_
  · exact bind memberName fun _ _ => pure (hmember he .nil)
  refine bind (eatMark _) fun _ _ => ite (fun _ => ?_) fun _ => ?_
  · refine bind (atMark _) fun _ _ => ite (fun _ => ?_) fun _ => ?_
    · exact bind (arguments hd) fun items hitems => pure (hcall he hitems)
    refine bind (eatMark _) fun _ _ => ite (fun _ => ?_) fun _ => ?_
    · exact bind (computedKey hd) fun key hkey => pure (hmember he hkey)
    · exact bind memberName fun _ _ => pure (hmember he .nil)
  refine bind (eatMark _) fun _ _ => ite (fun _ => ?_) fun _ => ?_
  · exact bind (computedKey hd) fun key hkey => pure (hmember he hkey)
  refine bind (atMark _) fun _ _ => ite (fun _ => ?_) fun _ => pure he
  exact bind (arguments hd) fun items hitems => pure (hcall he hitems)

/-- An operand with an operator behind it. -/
theorem leftOf {e left : Expr} {others : List Part} (hp : Part.Admissible (.expr e))
    (hl : e.left? = some left) (hleft : Nested (r + 1) (.expr left))
    (hparts : e.parts = .expr left :: others) (hothers : AllNested r others) :
    Nested (r + 1) (.expr e) := by
  refine .of_left hp (congrArg (Option.map Part.expr) hl) hleft fun q hq hne => ?_
  change q ∈ e.parts at hq
  rw [hparts] at hq
  obtain rfl | hq := List.mem_cons.mp hq
  · exact absurd rfl hne
  · exact hothers q hq

theorem postfixed (hd : d.Nests n r) :
    Reads n (fun e => Nested (r + 3) (.expr e)) (Parse.postfixed d) := by
  refine bind (chain hd) fun e he => bind peek fun t _ => ?_
  split
  · exact pure he
  · refine bind afterNewline fun _ _ => ite (fun _ => pure he) fun _ => bind advance fun _ _ => pure ?_
    exact leftOf trivial rfl he rfl .nil

theorem unary (hd : d.Nests n r) :
    Reads n (fun e => Nested (r + 3) (.expr e)) (Parse.unary d) := by
  have hup {e : Expr} (he : Nested (r + 1) (.expr e)) : Nested (r + 3) (.expr e) :=
    he.mono (Nat.le_add_right _ 2)
  refine bind peek fun t _ => ?_
  split
  · exact bind advance fun _ _ => bind hd.unary fun e he => pure (hup (.of_parts trivial (.one he)))
  · refine ite (fun _ => ?_) fun _ => ?_
    · exact bind advance fun _ _ => hd.unary.imp fun e he => hup (he.mono (Nat.le_succ r))
    · split
      · exact bind advance fun _ _ => bind hd.unary fun e he => pure (hup (.of_parts trivial (.one he)))
      · exact postfixed hd

/-- Operators between two operands leave the first one as deep as it is. -/
theorem infix_ {op : Infix} {left right : Expr} (hleft : Nested (r + 1) (.expr left))
    (hright : Nested r (.expr right)) : Nested (r + 1) (.expr (op.apply left right)) := by
  cases op with
  | binary op => exact leftOf trivial rfl hleft rfl (.one hright)
  | logical op => exact leftOf trivial rfl hleft rfl (.one hright)

/-- Operands of binary operators are unary expressions, so a tree of operators adds no level to them. -/
theorem binary (hd : d.Nests n r) (least : Nat) :
    Reads n (fun e => Nested (r + 3) (.expr e)) (Parse.binary d least) := by
  refine bind (unary hd) fun first hfirst => ?_
  refine repeatFrom (V := fun e => Nested (r + 3) (.expr e)) hfirst fun left hleft => ?_
  refine bind get fun _ _ => bind peek fun t _ => ?_
  split
  · exact pure hleft
  · refine ite (fun _ => pure hleft) fun _ => bind advance fun _ _ => ?_
    refine bind (hd.binary _) fun right hright => pure ?_
    exact infix_ hleft (hright.mono (Nat.le_add_right r 2))

theorem conditional (hd : d.Nests n r) :
    Reads n (fun e => Nested (r + 3) (.expr e)) (Parse.conditional d) := by
  have hup {e : Expr} (he : Nested r (.expr e)) : Nested (r + 2) (.expr e) :=
    he.mono (Nat.le_add_right r 2)
  refine bind (binary hd 1) fun test htest => bind (eatMark _) fun _ _ => ?_
  refine ite (fun _ => ?_) fun _ => pure htest
  refine bind (withIn hd.assignment) fun yes hyes => bind (expectMark _) fun _ _ => ?_
  refine bind hd.assignment fun no hno => pure ?_
  exact leftOf trivial rfl htest rfl (.cons (hup hyes) (.one (hup hno)))

/-- The body of an arrow function behind its parameters. -/
theorem arrowBody (hd : d.Nests n r) {ps : List Param} (hps : ∀ p ∈ ps, AllNested r p.parts) :
    Reads n (fun e => Nested (r + 2) (.expr e)) (do
      Parse.expectMark "=>"
      let body ← if ← Parse.atMark "\x7b" then Body.block <$> Parse.block d
        else Body.value <$> d.assignment
      return .function (.mk none ps body true)) := by
  refine bind (expectMark _) fun _ _ => bind (atMark _) fun _ _ => ?_
  refine either (V := fun body : Body => AllNested r body.parts) (fun _ => ?_) (fun _ => ?_) ?_
  · exact map (block hd) fun _ hbody => hbody
  · exact map hd.assignment fun _ he => .one he
  · exact fun body hbody => pure (.of_parts trivial (.one (.func hps hbody)))

theorem arrow (hd : d.Nests n r) :
    Reads n (fun e => Nested (r + 2) (.expr e)) (Parse.arrow d) := by
  refine bind (atMark _) fun _ _ => ite (fun _ => ?_) fun _ => ?_
  · exact bind (params hd) fun ps hps => arrowBody hd hps
  · refine bind expectName fun name _ => afterPure ?_
    exact arrowBody hd (List.forall_mem_singleton.mpr .nil)

/-- What stands in front of an assignment operator can be assigned to. -/
theorem assignment (hd : d.Nests n r) :
    Reads n (fun e => Nested (r + 3) (.expr e)) (Parse.assignment d) := by
  refine bind ahead fun tokens _ => onlyIf (fun _ => advance) (bind ahead fun tokens _ => ?_)
  refine ite (fun _ => (arrow hd).imp fun e he => he.mono (Nat.le_succ _)) fun _ => ?_
  refine bind (conditional hd) fun target htarget => bind peek fun t _ => ?_
  split
  · exact pure htarget
  · refine ite (fun hassignable => ?_) fun _ => bind (V := fun _ => False) (fail _) fun _ => False.elim
    refine bind advance fun _ _ => bind hd.assignment fun value hvalue => pure ?_
    exact leftOf hassignable rfl htarget rfl (.one (hvalue.mono (Nat.le_add_right r 2)))

end Reads

end Snippet.Script
