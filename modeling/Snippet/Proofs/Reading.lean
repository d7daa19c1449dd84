import Snippet.Script.Parser
import Snippet.Proofs.SourceLine

/-!
What reading tokens comes to: a rule for each of the steps that reading a script is put together from. A
reader keeps to the lines of the source, in what it leaves to read and in its faults, and what it returns
satisfies a condition.
-/

namespace Snippet.Script

/-- Tokens and a place among them that stand on the first `n` lines. -/
structure Input.Within (n : Nat) (s : Input) : Prop where
  tokens : ∀ t ∈ s.rest, t.Within n
  first : 1 ≤ s.line
  last : s.line ≤ n

theorem Input.within_tokens {n : Nat} {tokens : List Placed} (hne : tokens ≠ [])
    (ht : ∀ t ∈ tokens, t.Within n) :
    Input.Within n { rest := tokens, size := tokens.length } := by
  cases tokens with
  | nil => exact absurd rfl hne
  | cons t rest =>
    exact ⟨ht, (ht t List.mem_cons_self).first, (ht t List.mem_cons_self).last⟩

def ReadsTo (n : Nat) {α : Type} (V : α → Prop) : Except SyntaxFault (α × Input) → Prop
  | .ok (a, s) => V a ∧ s.Within n
  | .error e => e.Within n

def Reads (n : Nat) {α : Type} (V : α → Prop) (p : Parse α) : Prop :=
  ∀ s : Input, s.Within n → ReadsTo n V (p s)

def Parse.Step.Holds {α β : Type} (V : α → Prop) (W : β → Prop) : Parse.Step α β → Prop
  -- Whether a step of a repetition goes on with something of one kind or is done with something of
  -- another.
  | .more a => V a
  | .done b => W b

namespace Parse

theorem parse_bind {α β : Type} {p : Parse α} {f : α → Parse β} {s : Input} (a : α) (t : Input)
    (h : p s = .ok (a, t)) : (p >>= f) s = f a t := by
  change StateT.bind p f s = _
  unfold StateT.bind
  rw [h]
  rfl

/-- What ends well has ended well in its first part. -/
theorem of_parse_bind {α β : Type} {p : Parse α} {f : α → Parse β} {s t : Input} {b : β}
    (h : (p >>= f) s = .ok (b, t)) : ∃ a u, p s = .ok (a, u) ∧ f a u = .ok (b, t) := by
  change StateT.bind p f s = _ at h
  unfold StateT.bind at h
  cases hp : p s with
  | error e =>
    rw [hp] at h
    cases h
  | ok x =>
    rw [hp] at h
    exact ⟨x.1, x.2, rfl, h⟩

theorem of_parse_map {α β : Type} {p : Parse α} {g : α → β} {s t : Input} {b : β}
    (h : (g <$> p) s = .ok (b, t)) : ∃ a, p s = .ok (a, t) ∧ b = g a := by
  change StateT.map g p s = _ at h
  unfold StateT.map at h
  cases hp : p s with
  | error e =>
    rw [hp] at h
    cases h
  | ok x =>
    rw [hp] at h
    cases h
    exact ⟨x.1, rfl, rfl⟩

theorem parse_map {α β : Type} {p : Parse α} (g : α → β) {s : Input} {a : α} {t : Input}
    (h : p s = .ok (a, t)) : (g <$> p) s = .ok (g a, t) := by
  change StateT.map g p s = _
  unfold StateT.map
  rw [h]
  rfl

end Parse

theorem forall_mem_reverse {α : Type} {V : α → Prop} {xs : List α} (h : ∀ x ∈ xs, V x) :
    ∀ x ∈ xs.reverse, V x :=
  fun x hx => h x (List.mem_reverse.mp hx)

namespace Reads

open Parse

variable {n : Nat} {α β : Type} {V : α → Prop} {W : β → Prop}

theorem pure {a : α} (ha : V a) : Reads n V (Pure.pure a) := fun _ hs => ⟨ha, hs⟩

/-- What is read by one reader after another keeps to the lines if both do. -/
theorem bind {p : Parse α} {f : α → Parse β} (hp : Reads n V p) (hf : ∀ a, V a → Reads n W (f a)) :
    Reads n W (p >>= f) := by
  intro s hs
  have h := hp s hs
  change ReadsTo n W (StateT.bind p f s)
  unfold StateT.bind
  cases hr : p s with
  | ok result =>
    rw [hr] at h
    exact hf _ h.1 _ h.2
  | error e =>
    rw [hr] at h
    exact h

/-- Something that is known goes on as what comes after it does. -/
theorem afterPure {a : α} {f : α → Parse β} (h : Reads n W (f a)) : Reads n W (Pure.pure a >>= f) :=
  bind (V := fun b => b = a) (pure rfl) fun _ hb => hb ▸ h

theorem imp {p : Parse α} {V' : α → Prop} (hp : Reads n V p) (hV : ∀ a, V a → V' a) :
    Reads n V' p := by
  intro s hs
  have h := hp s hs
  cases hr : p s with
  | ok result =>
    rw [hr] at h
    exact ⟨hV _ h.1, h.2⟩
  | error e =>
    rw [hr] at h
    exact h

theorem map {p : Parse α} {f : α → β} (hp : Reads n V p) (hf : ∀ a, V a → W (f a)) :
    Reads n W (f <$> p) := by
  intro s hs
  have h := hp s hs
  change ReadsTo n W (StateT.map f p s)
  unfold StateT.map
  cases hr : p s with
  | ok result =>
    rw [hr] at h
    exact ⟨hf _ h.1, h.2⟩
  | error e =>
    rw [hr] at h
    exact h

theorem ite {c : Prop} [Decidable c] {p q : Parse α} (hp : c → Reads n V p)
    (hq : ¬ c → Reads n V q) : Reads n V (if c then p else q) := by
  by_cases hc : c
  · simpa only [if_pos hc] using hp hc
  · simpa only [if_neg hc] using hq hc

theorem fail (e : SyntaxError) : Reads n V (Parse.fail e) := fun _ hs => ⟨hs.first, hs.last⟩

theorem unexpected : Reads n V Parse.unexpected := fun _ hs => ⟨hs.first, hs.last⟩

theorem ahead : Reads n (fun _ => True) Parse.ahead := fun _ hs => ⟨trivial, hs⟩

theorem peek : Reads n (Token.Fits n) Parse.peek := by
  intro s hs
  refine ⟨?_, hs⟩
  obtain ⟨rest, size, previousLine, noIn⟩ := s
  cases rest with
  | nil => trivial
  | cons t rest => exact (hs.tokens t List.mem_cons_self).token

theorem peekSecond : Reads n (fun _ => True) Parse.peekSecond := fun _ hs => ⟨trivial, hs⟩

/-- Passing a token stays on the lines of the source. -/
theorem advance : Reads n (fun _ => True) Parse.advance := by
  intro s hs
  obtain ⟨rest, size, previousLine, noIn⟩ := s
  cases rest with
  | nil => exact ⟨trivial, hs⟩
  | cons t rest =>
    -- The line reached is that of the next token, or of the one passed if there is none.
    refine ⟨trivial, fun t ht => hs.tokens t (List.mem_cons_of_mem _ ht), ?_, ?_⟩
    · cases rest with
      | nil => exact (hs.tokens t List.mem_cons_self).first
      | cons u rest => exact (hs.tokens u (List.mem_cons_of_mem _ List.mem_cons_self)).first
    · cases rest with
      | nil => exact (hs.tokens t List.mem_cons_self).last
      | cons u rest => exact (hs.tokens u (List.mem_cons_of_mem _ List.mem_cons_self)).last

theorem atMark (text : String) : Reads n (fun _ => True) (Parse.atMark text) :=
  bind peek fun _ _ => pure trivial

theorem atWord (name : String) : Reads n (fun _ => True) (Parse.atWord name) :=
  bind peek fun _ _ => pure trivial

theorem atStop : Reads n (fun _ => True) Parse.atStop := by
  refine bind peek fun t _ => ?_
  split
  · exact pure trivial
  · exact pure trivial

theorem eatMark (text : String) : Reads n (fun _ => True) (Parse.eatMark text) :=
  bind (atMark text) fun _ _ =>
    ite (fun _ => bind advance fun _ _ => pure trivial) fun _ => pure trivial

theorem eatWord (name : String) : Reads n (fun _ => True) (Parse.eatWord name) :=
  bind (atWord name) fun _ _ =>
    ite (fun _ => bind advance fun _ _ => pure trivial) fun _ => pure trivial

theorem expectMark (text : String) : Reads n (fun _ => True) (Parse.expectMark text) :=
  bind (eatMark text) fun _ _ => ite (fun _ => pure trivial) fun _ => unexpected

theorem afterNewline : Reads n (fun _ => True) Parse.afterNewline := fun _ hs => ⟨trivial, hs⟩

theorem expectName : Reads n (fun _ => True) Parse.expectName := by
  refine bind peek fun t _ => ?_
  split
  · exact ite (fun _ => unexpected) fun _ => bind advance fun _ _ => pure trivial
  · exact unexpected

theorem memberName : Reads n (fun _ => True) Parse.memberName := by
  refine bind peek fun t _ => ?_
  split
  · exact bind advance fun _ _ => pure trivial
  · exact unexpected

theorem endStatement : Reads n (fun _ => True) Parse.endStatement := by
  refine bind (eatMark _) fun _ _ => ite (fun _ => pure trivial) fun _ => ?_
  refine bind (atMark _) fun _ _ => ite (fun _ => pure trivial) fun _ => ?_
  refine bind atStop fun _ _ => ite (fun _ => pure trivial) fun _ => ?_
  exact bind afterNewline fun _ _ => ite (fun _ => pure trivial) fun _ => unexpected

/-- A step that is left out in one case. -/
theorem orElse {c : Prop} [Decidable c] {p : Parse PUnit} {f : PUnit → Parse β}
    (hp : ¬ c → Reads n (fun _ => True) p) (hf : Reads n W (f ⟨⟩)) :
    Reads n W (if c then f ⟨⟩ else p >>= f) :=
  ite (fun _ => hf) fun hc => bind (hp hc) fun _ _ => hf

/-- A step that is taken in one case only. -/
theorem onlyIf {c : Prop} [Decidable c] {p : Parse PUnit} {f : PUnit → Parse β}
    (hp : c → Reads n (fun _ => True) p) (hf : Reads n W (f ⟨⟩)) :
    Reads n W (if c then p >>= f else f ⟨⟩) :=
  ite (fun hc => bind (hp hc) fun _ _ => hf) fun _ => hf

/-- One of two readers, with the same one behind either of them. -/
theorem either {c : Prop} [Decidable c] {p q : Parse α} {f : α → Parse β} (hp : c → Reads n V p)
    (hq : ¬ c → Reads n V q) (hf : ∀ a, V a → Reads n W (f a)) :
    Reads n W (if c then p >>= f else q >>= f) :=
  ite (fun hc => bind (hp hc) hf) fun hc => bind (hq hc) hf

/-- A repetition keeps what each of its steps keeps. -/
theorem repeatFrom {start : α} {step : α → Parse (Step α β)} (hstart : V start)
    (hstep : ∀ a, V a → Reads n (Step.Holds V W) (step a)) : Reads n W (Parse.repeatFrom start step) := by
  -- `V` holds of what the rounds so far have come to, however many of them are allowed.
  have hiterate (fuel : Nat) {a : α} (ha : V a) : Reads n W (iterate step fuel a) := by
    induction fuel generalizing a with
    | zero => exact fail _
    | succ fuel ih =>
      refine bind (hstep a ha) fun r hr => ?_
      cases r with
      | more a => exact ih hr
      | done b => exact pure hr
  exact fun s hs => hiterate (s.size + 1) hstart s hs

theorem listUntil {close : String} {part : Parse α} (hpart : Reads n V part) :
    Reads n (fun xs => ∀ x ∈ xs, V x) (Parse.listUntil close part) := by
  refine repeatFrom (V := fun xs => ∀ x ∈ xs, V x) nofun fun done hdone => ?_
  refine bind (eatMark _) fun _ _ => ite (fun _ => pure ?_) fun _ => ?_
  · exact forall_mem_reverse hdone
  refine bind hpart fun x hx => bind (atMark _) fun _ _ => ?_
  refine orElse (fun _ => expectMark _) (pure ?_)
  exact List.forall_mem_cons.mpr ⟨hx, hdone⟩

/-- The entries of a list with holes satisfy what its parts and the holes do. -/
theorem listWithHoles {close : String} {hole : α} {part : Parse α} (hhole : V hole)
    (hpart : Reads n V part) :
    Reads n (fun xs => ∀ x ∈ xs, V x) (Parse.listWithHoles close hole part) := by
  refine repeatFrom (V := fun xs => ∀ x ∈ xs, V x) nofun fun done hdone => ?_
  refine bind (eatMark _) fun _ _ => ite (fun _ => pure ?_) fun _ => ?_
  · exact forall_mem_reverse hdone
  refine bind (eatMark _) fun _ _ => ite (fun _ => pure ?_) fun _ => ?_
  · exact List.forall_mem_cons.mpr ⟨hhole, hdone⟩
  refine bind hpart fun x hx => bind (atMark _) fun _ _ => ?_
  refine orElse (fun _ => expectMark _) (pure ?_)
  exact List.forall_mem_cons.mpr ⟨hx, hdone⟩

/-- The targets of declarations can be anything, and so are only read for the sake of the lines. -/
theorem targetWithin (fuel : Nat) : Reads n (fun _ => True) (Parse.targetWithin fuel) := by
  induction fuel with
  | zero => exact fail _
  | succ fuel ih =>
    refine bind (eatMark _) fun _ _ => ite (fun _ => ?_) fun _ => ?_
    · refine bind (listWithHoles (V := fun _ => True) trivial (map ih fun _ _ => trivial)) ?_
      exact fun _ _ => pure trivial
    refine bind (eatMark _) fun _ _ => ite (fun _ => ?_) fun _ => ?_
    · refine bind (listUntil (V := fun _ => True) ?_) fun _ _ => pure trivial
      refine bind memberName fun _ _ => bind (eatMark _) fun _ _ => ite (fun _ => ?_) fun _ => ?_
      · exact bind ih fun _ _ => pure trivial
      · exact pure trivial
    exact bind expectName fun _ _ => pure trivial

theorem target : Reads n (fun _ => True) Parse.target := fun s hs => targetWithin (s.size + 1) s hs

theorem get : Reads n (fun _ => True) (MonadState.get : Parse Input) := fun _ hs => ⟨trivial, hs⟩

/-- Whether the word `in` is an operator makes no difference to the lines. -/
theorem setNoIn (noIn : Bool) : Reads n (fun _ => True) (Parse.setNoIn noIn) :=
  fun _ hs => ⟨trivial, hs.tokens, hs.first, hs.last⟩

theorem withIn {p : Parse α} (hp : Reads n V p) : Reads n V (Parse.withIn p) := by
  intro s hs
  have hinside : Input.Within n { s with noIn := false } := ⟨hs.tokens, hs.first, hs.last⟩
  have hread : Reads n V (p >>= fun x => Parse.setNoIn s.noIn >>= fun _ => Pure.pure x) :=
    bind hp fun a ha => bind (setNoIn s.noIn) fun _ _ => pure ha
  exact hread _ hinside

/-- Reading a text of at most `n` lines from its beginning. -/
theorem text {p : Parse α} (hp : Reads n V p) {text : List Char} (ht : lineCount text ≤ n)
    {tokens : List Placed} (h : tokenize text = .ok tokens) :
    ReadsTo n V (p { rest := tokens, size := tokens.length }) := by
  have htokens := tokenizes text
  rw [h] at htokens
  obtain ⟨hne, hwithin⟩ := htokens
  exact hp _ (Input.within_tokens hne fun t hmem => (hwithin t hmem).mono ht)

end Reads

end Snippet.Script
