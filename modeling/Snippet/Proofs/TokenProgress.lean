import Snippet.Script.Parser
import Snippet.Proofs.Reading
import Snippet.Proofs.TextProgress

/-!
How reading tokens goes on: a rule for each of the steps that reading a script is put together from. A reader
stays in front of the end of the tokens and passes a number of them, and its repetitions end because each of
their rounds that goes on passes one.
-/

namespace Snippet.Script

def Input.position (s : Input) : Nat := s.size - s.rest.length

structure Input.Sound (s : Input) : Prop where
  ends : EndAtStop s.rest
  length_le : s.rest.length ≤ s.size

/-- At least `k` tokens further on. -/
structure Input.LeadsTo (k : Nat) (s t : Input) : Prop where
  sound : t.Sound
  size_eq : t.size = s.size
  suffix : t.rest <:+ s.rest
  position_le : s.position + k ≤ t.position

def Input.HasNext (s : Input) : Prop := Parse.tokenOf s.rest ≠ .stop

theorem EndAtStop.length_pos {tokens : List Placed} (h : EndAtStop tokens) : 0 < tokens.length := by
  obtain ⟨before, line, rfl, -⟩ := h
  rw [List.length_append]
  exact Nat.lt_add_left _ Nat.zero_lt_one

theorem EndAtStop.tail {p : Placed} {rest : List Placed} (h : EndAtStop (p :: rest))
    (hp : p.token ≠ .stop) : EndAtStop rest := by
  obtain ⟨before, line, heq, hbefore⟩ := h
  cases before with
  | nil => exact absurd (congrArg Placed.token (List.cons.inj heq).1) hp
  | cons q before =>
    exact ⟨before, line, (List.cons.inj heq).2, fun t ht => hbefore t (List.mem_cons_of_mem _ ht)⟩

namespace Input

variable {j k : Nat} {s t u : Input}

theorem LeadsTo.refl (hs : s.Sound) : s.LeadsTo 0 s := ⟨hs, rfl, List.suffix_rfl, Nat.le_refl _⟩

theorem LeadsTo.trans (h₁ : s.LeadsTo j t) (h₂ : t.LeadsTo k u) : s.LeadsTo (j + k) u := by
  refine ⟨h₂.sound, h₂.size_eq.trans h₁.size_eq, h₂.suffix.trans h₁.suffix, ?_⟩
  have hst := h₁.position_le
  have htu := h₂.position_le
  omega

theorem LeadsTo.mono (h : s.LeadsTo k t) (hjk : j ≤ k) : s.LeadsTo j t :=
  ⟨h.sound, h.size_eq, h.suffix, Nat.le_trans (Nat.add_le_add_left hjk _) h.position_le⟩

theorem LeadsTo.length_le (h : s.LeadsTo k t) (hs : s.Sound) : t.rest.length + k ≤ s.rest.length := by
  have hle := h.position_le
  have hsize := h.size_eq
  have hs := hs.length_le
  have ht := h.sound.length_le
  unfold position at hle
  omega

end Input

/-- From every state in which at most `room` tokens are left and a condition holds, a reader passes a number
of tokens that depends on what it returns. -/
def Passes (room : Nat) (P : Input → Prop) {α : Type} (k : α → Nat) (p : Parse α) : Prop :=
  ∀ s : Input, s.Sound → s.rest.length ≤ room → P s → ComesTo (fun x => s.LeadsTo (k x.1) x.2) (p s)

def Anywhere : Input → Prop := fun _ => True

def Parse.Step.cost {α β : Type} : Parse.Step α β → Nat
  | .more _ => 1
  | .done _ => 0

def Token.isStop : Token → Bool
  | .stop => true
  | _ => false

theorem Token.isStop_eq_true {t : Token} : t.isStop = true ↔ t = .stop := by
  cases t
  case stop => exact ⟨fun _ => rfl, fun _ => rfl⟩
  all_goals exact ⟨nofun, nofun⟩

theorem Parse.parse_bind_error {α β : Type} {p : Parse α} {f : α → Parse β} {s : Input} {e : SyntaxFault}
    (h : p s = .error e) : (p >>= f) s = .error e := by
  change StateT.bind p f s = _
  unfold StateT.bind
  rw [h]
  rfl

theorem Parse.atStop_eq (s : Input) : Parse.atStop s = .ok ((tokenOf s.rest).isStop, s) := by
  unfold Parse.atStop
  rw [parse_bind (tokenOf s.rest) s rfl]
  cases tokenOf s.rest <;> rfl

namespace Passes

open Parse

variable {room : Nat} {P : Input → Prop} {α β : Type} {k : α → Nat} {p : Parse α}

theorem pure {a : α} (ha : k a = 0) : Passes room P k (Pure.pure a) := fun _ hs _ _ =>
  (Input.LeadsTo.refl hs).mono (Nat.le_of_eq ha)

theorem imp {Q : Input → Prop} (hp : Passes room Q k p) (hPQ : ∀ s, P s → Q s) : Passes room P k p :=
  fun s hs hle hP => hp s hs hle (hPQ s hP)

theorem anywhere (hp : Passes room Anywhere k p) : Passes room P k p := hp.imp fun _ _ => trivial

/-- Less room. -/
theorem within {room' : Nat} (hp : Passes room P k p) (hroom : room' ≤ room) : Passes room' P k p :=
  fun s hs hle => hp s hs (Nat.le_trans hle hroom)

/-- Fewer tokens than are passed. -/
theorem fewer {j : α → Nat} (hp : Passes room P j p) (hk : ∀ a, k a ≤ j a) : Passes room P k p :=
  fun s hs hle hP => (hp s hs hle hP).imp fun x hx => hx.mono (hk x.1)

theorem free (hp : Passes room P k p) : Passes room P (fun _ => 0) p := hp.fewer fun _ => Nat.zero_le _

/-- What follows a reader that passes tokens has less room. -/
theorem bindWithin (inside : β → Nat) {j : β → Nat} {q : Parse β} {f : β → Parse α}
    (hq : Passes room P j q) (hroom : ∀ b, room ≤ inside b + j b)
    (hf : ∀ b, Passes (inside b) Anywhere (fun a => k a - j b) (f b)) : Passes room P k (q >>= f) := by
  intro s hs hle hP
  have hcomes := hq s hs hle hP
  cases hresult : q s with
  | error e =>
    rw [hresult] at hcomes
    rw [parse_bind_error hresult]
    exact hcomes
  | ok x =>
    rw [hresult] at hcomes
    obtain ⟨b, t⟩ := x
    rw [parse_bind b t hresult]
    have hleft : t.rest.length + j b ≤ s.rest.length := Input.LeadsTo.length_le hcomes hs
    have hroom := hroom b
    refine (hf b t hcomes.sound (by omega) trivial).imp fun y hy => ?_
    have hcost : k y.1 ≤ j b + (k y.1 - j b) := by omega
    exact (Input.LeadsTo.trans hcomes hy).mono hcost

theorem bind {j : β → Nat} {q : Parse β} {f : β → Parse α} (hq : Passes room P j q)
    (hf : ∀ b, Passes room Anywhere (fun a => k a - j b) (f b)) : Passes room P k (q >>= f) :=
  bindWithin (fun _ => room) hq (fun _ => Nat.le_add_right _ _) hf

/-- What is looked up in a state is known of the state afterwards. -/
theorem look (g : Input → β) {q : Parse β} {f : β → Parse α} (hq : ∀ s, q s = .ok (g s, s))
    (hf : ∀ b, Passes room (fun s => P s ∧ g s = b) k (f b)) : Passes room P k (q >>= f) := by
  intro s hs hle hP
  rw [parse_bind _ _ (hq s)]
  exact hf (g s) s hs hle ⟨hP, rfl⟩

theorem map {j : β → Nat} {q : Parse β} {f : β → α} (hq : Passes room P j q)
    (hk : ∀ b, k (f b) ≤ j b) : Passes room P k (f <$> q) := by
  intro s hs hle hP
  have hcomes := hq s hs hle hP
  change ComesTo _ (StateT.map f q s)
  unfold StateT.map
  cases hresult : q s with
  | error e =>
    rw [hresult] at hcomes
    exact hcomes
  | ok x =>
    rw [hresult] at hcomes
    exact Input.LeadsTo.mono hcomes (hk x.1)

theorem ite {c : Prop} [Decidable c] {q : Parse α} (hp : c → Passes room P k p)
    (hq : ¬ c → Passes room P k q) : Passes room P k (if c then p else q) := by
  by_cases hc : c
  · rw [if_pos hc]
    exact hp hc
  · rw [if_neg hc]
    exact hq hc

theorem fail {e : SyntaxError} (he : e ≠ .exhausted) : Passes room P k (Parse.fail e) :=
  fun _ _ _ _ => he

theorem failThen {e : SyntaxError} (he : e ≠ .exhausted) {f : β → Parse α} :
    Passes room P k (Parse.fail e >>= f) := fun _ _ _ _ => he

theorem unexpected : Passes room P k Parse.unexpected := by
  intro s _ _ _
  change misfit (tokenOf s.rest) ≠ .exhausted
  cases tokenOf s.rest <;> exact nofun

theorem advance (hP : ∀ s, P s → s.HasNext) : Passes room P (fun _ => 1) Parse.advance := by
  intro s hs _ hs'
  obtain ⟨tokens, size, previousLine, noIn⟩ := s
  have hlength := hs.length_le
  cases tokens with
  | nil => exact absurd hs.ends.length_pos (Nat.lt_irrefl 0)
  | cons p rest =>
    refine ⟨⟨hs.ends.tail (hP _ hs'), Nat.le_of_succ_le hlength⟩, rfl, List.suffix_cons p rest, ?_⟩
    change size - (rest.length + 1) + 1 ≤ size - rest.length
    rw [List.length_cons] at hlength
    dsimp only at hlength
    omega

theorem atMark {m : String} {f : Bool → Parse α} (hf : ∀ b, Passes room P k (f b)) :
    Passes room P k (Parse.atMark m >>= f) :=
  look (fun s => isMarkToken m (tokenOf s.rest)) (fun _ => rfl) fun b => (hf b).imp fun _ hs => hs.1

theorem atWord {w : String} {f : Bool → Parse α}
    (hf : ∀ b, Passes room (fun s => isWordToken w (tokenOf s.rest) = b) k (f b)) :
    Passes room P k (Parse.atWord w >>= f) :=
  look (fun s => isWordToken w (tokenOf s.rest)) (fun _ => rfl) fun b => (hf b).imp fun _ hs => hs.2

theorem peek {f : Token → Parse α} (hf : ∀ t, Passes room (fun s => tokenOf s.rest = t) k (f t)) :
    Passes room P k (Parse.peek >>= f) :=
  look (fun s => tokenOf s.rest) (fun _ => rfl) fun t => (hf t).imp fun _ hs => hs.2

theorem peekSecond {f : Token → Parse α} (hf : ∀ t, Passes room P k (f t)) :
    Passes room P k (Parse.peekSecond >>= f) :=
  look (fun s => tokenOf s.rest.tail) (fun _ => rfl) fun t => (hf t).imp fun _ hs => hs.1

theorem afterNewline {f : Bool → Parse α} (hf : ∀ b, Passes room P k (f b)) :
    Passes room P k (Parse.afterNewline >>= f) :=
  look (fun s => decide (s.previousLine < s.line)) (fun _ => rfl) fun b => (hf b).imp fun _ hs => hs.1

theorem atStop {f : Bool → Parse α} (hf : ∀ b, Passes room P k (f b)) :
    Passes room P k (Parse.atStop >>= f) :=
  look (fun s => (tokenOf s.rest).isStop) atStop_eq fun b => (hf b).imp fun _ hs => hs.1

theorem hasNext_of_eq {token : Token} {s : Input} (h : tokenOf s.rest = token) (htoken : token ≠ .stop) :
    s.HasNext := fun hstop => htoken (h.symm.trans hstop)

theorem hasNext_of_isMark {m : String} {s : Input} (h : isMarkToken m (tokenOf s.rest) = true) :
    s.HasNext :=
  fun hstop => Bool.false_ne_true ((congrArg (isMarkToken m) hstop).symm.trans h)

theorem hasNext_of_isWord {w : String} {s : Input} (h : isWordToken w (tokenOf s.rest) = true) :
    s.HasNext :=
  fun hstop => Bool.false_ne_true ((congrArg (isWordToken w) hstop).symm.trans h)

/-- A mark is passed if it comes next. -/
theorem eatMark (m : String) :
    Passes room P (fun eaten => if eaten then 1 else 0) (Parse.eatMark m) := by
  refine look (fun s => isMarkToken m (tokenOf s.rest)) (fun _ => rfl) fun b => ite (fun hb => ?_)
    fun _ => pure rfl
  exact bind (advance fun s hs => hasNext_of_isMark (hs.2.trans hb)) fun _ => pure rfl

/-- A word is passed if it comes next. -/
theorem eatWord (w : String) :
    Passes room P (fun eaten => if eaten then 1 else 0) (Parse.eatWord w) := by
  refine atWord fun b => ite (fun hb => ?_) fun _ => pure rfl
  exact bind (advance fun s hs => hasNext_of_isWord (hs.trans hb)) fun _ => pure rfl

/-- What is read depends on whether a mark comes next, and has less room behind it. -/
theorem ifMarkWithin {m : String} {q : Parse α} (hp : Passes (room - 1) Anywhere (fun a => k a - 1) p)
    (hq : Passes room Anywhere k q) :
    Passes room P k (Parse.eatMark m >>= fun eaten => if eaten = true then p else q) := by
  refine bindWithin (fun eaten => if eaten then room - 1 else room) (eatMark m) ?_ ?_
  · intro eaten
    cases eaten
    · exact Nat.le_refl _
    · exact Nat.le_add_of_sub_le (Nat.le_refl _)
  · intro eaten
    cases eaten
    · exact hq
    · exact hp

/-- What is read depends on whether a mark comes next. -/
theorem ifMark {m : String} {q : Parse α} (hp : Passes room Anywhere (fun a => k a - 1) p)
    (hq : Passes room Anywhere k q) :
    Passes room P k (Parse.eatMark m >>= fun eaten => if eaten = true then p else q) :=
  ifMarkWithin (hp.within (Nat.sub_le room 1)) hq

/-- What is read depends on whether a word comes next. -/
theorem ifWord {w : String} {q : Parse α} (hp : Passes room Anywhere (fun a => k a - 1) p)
    (hq : Passes room Anywhere k q) :
    Passes room P k (Parse.eatWord w >>= fun eaten => if eaten = true then p else q) :=
  bind (eatWord w) fun eaten => ite (fun h => by rw [if_pos h]; exact hp)
    fun h => by rw [if_neg h]; exact hq

theorem expectMark (m : String) : Passes room P (fun _ => 1) (Parse.expectMark m) :=
  ifMark (pure rfl) unexpected

theorem expectName : Passes room P (fun _ => 1) Parse.expectName := by
  refine peek fun t => ?_
  split
  · refine ite (fun _ => unexpected) fun _ => ?_
    exact bind (advance fun s hs => hasNext_of_eq hs nofun) fun _ => pure rfl
  · exact unexpected

theorem memberName : Passes room P (fun _ => 1) Parse.memberName := by
  refine peek fun t => ?_
  split
  · exact bind (advance fun s hs => hasNext_of_eq hs nofun) fun _ => pure rfl
  · exact unexpected

theorem endStatement : Passes room P (fun _ => 0) Parse.endStatement :=
  ifMark (pure rfl) <| atMark fun _ => ite (fun _ => pure rfl) fun _ =>
    atStop fun _ => ite (fun _ => pure rfl) fun _ =>
      afterNewline fun _ => ite (fun _ => pure rfl) fun _ => unexpected

/-- Something that is known goes on as what comes after it does. -/
theorem afterPure {b : β} {f : β → Parse α} (h : Passes room P k (f b)) :
    Passes room P k (Pure.pure b >>= f) := h

/-- One of two readers, with the same one behind either of them. -/
theorem either {c : Prop} [Decidable c] {q r : Parse β} {j : β → Nat} {f : β → Parse α}
    (hq : c → Passes room P j q) (hr : ¬ c → Passes room P j r)
    (hf : ∀ b, Passes room Anywhere (fun a => k a - j b) (f b)) :
    Passes room P k (if c then q >>= f else r >>= f) :=
  ite (fun hc => bind (hq hc) hf) fun hc => bind (hr hc) hf

/-- A step that is left out in one case. -/
theorem orElse {c : Prop} [Decidable c] {q : Parse PUnit} {f : PUnit → Parse α}
    (hq : ¬ c → Passes room P (fun _ => 0) q) (hf : Passes room Anywhere k (f ⟨⟩)) :
    Passes room P k (if c then f ⟨⟩ else q >>= f) :=
  ite (fun _ => hf.anywhere) fun hc => bind (hq hc) fun _ => hf

/-- A step that is taken in one case only. -/
theorem onlyIf {c : Prop} [Decidable c] {q : Parse PUnit} {f : PUnit → Parse α}
    (hq : c → Passes room P (fun _ => 0) q) (hf : Passes room Anywhere k (f ⟨⟩)) :
    Passes room P k (if c then q >>= f else f ⟨⟩) :=
  ite (fun hc => bind (hq hc) fun _ => hf) fun _ => hf.anywhere

/-- A repetition ends if each of its rounds that goes on passes a token; by induction on the rounds, of
which there are more than tokens left. -/
theorem repeatFrom {start : β} {step : β → Parse (Step β α)}
    (hstep : ∀ b, Passes room Anywhere Step.cost (step b)) :
    Passes room P (fun _ => 0) (Parse.repeatFrom start step) := by
  have hiterate (n : Nat) (b : β) (s : Input) (hs : s.Sound) (hle : s.rest.length ≤ room)
      (hn : s.rest.length < n) : ComesTo (fun x => s.LeadsTo 0 x.2) (iterate step n b s) := by
    induction n generalizing b s with
    | zero => exact absurd hn (Nat.not_lt_zero _)
    | succ n ih =>
      have hcomes := hstep b s hs hle trivial
      unfold iterate
      cases hresult : step b s with
      | error e =>
        rw [hresult] at hcomes
        rw [parse_bind_error hresult]
        exact hcomes
      | ok x =>
        rw [hresult] at hcomes
        obtain ⟨r, t⟩ := x
        rw [parse_bind r t hresult]
        cases r with
        | done a => exact hcomes
        | more b =>
          have hleft : t.rest.length + 1 ≤ s.rest.length := Input.LeadsTo.length_le hcomes hs
          refine (ih b t hcomes.sound (by omega) (by omega)).imp fun x hx => ?_
          exact (Input.LeadsTo.trans hcomes hx).mono (Nat.zero_le _)
  exact fun s hs hle _ => hiterate (s.size + 1) start s hs hle (Nat.lt_succ_of_le hs.length_le)

theorem listRound {close : String} {part : Parse β} (hpart : Passes room Anywhere (fun _ => 1) part)
    (done : List β) : Passes room P Step.cost (Parse.listRound close part done) := by
  refine ifMark (pure rfl) (bind hpart fun x => atMark fun _ => ?_)
  exact orElse (fun _ => (expectMark _).free) (pure rfl)

theorem listUntil {close : String} {part : Parse β} (hpart : Passes room Anywhere (fun _ => 1) part) :
    Passes room P (fun _ => 0) (Parse.listUntil close part) :=
  repeatFrom (listRound hpart)

theorem holesRound {close : String} {hole : β} {part : Parse β}
    (hpart : Passes room Anywhere (fun _ => 1) part) (done : List β) :
    Passes room P Step.cost (Parse.holesRound close hole part done) := by
  refine ifMark (pure rfl) (ifMark (pure rfl) (bind hpart fun x => atMark fun _ => ?_))
  exact orElse (fun _ => (expectMark _).free) (pure rfl)

theorem listWithHoles {close : String} {hole : β} {part : Parse β}
    (hpart : Passes room Anywhere (fun _ => 1) part) :
    Passes room P (fun _ => 0) (Parse.listWithHoles close hole part) :=
  repeatFrom (holesRound hpart)

/-- The targets of declarations are nested no deeper than there are tokens; by induction on the depth. -/
theorem targetWithin {fuel : Nat} (hroom : room ≤ fuel) :
    Passes room P (fun _ => 1) (Parse.targetWithin fuel) := by
  induction fuel generalizing room P with
  | zero => exact fun s hs hle _ => absurd (Nat.le_trans hle hroom) (Nat.not_le_of_gt hs.ends.length_pos)
  | succ fuel ih =>
    -- What is inside of brackets has the room that the opening one leaves.
    have hinside : Passes (room - 1) Anywhere (fun _ => 1) (Parse.targetWithin fuel) :=
      ih (Nat.sub_le_of_le_add hroom)
    refine ifMarkWithin ?_ (ifMarkWithin ?_ (bind expectName fun _ => pure rfl))
    · exact bind (listWithHoles (map hinside fun _ => Nat.le_refl _)) fun _ => pure rfl
    · refine bind (listUntil ?_) fun _ => pure rfl
      exact bind memberName fun _ => ifMark (bind hinside.free fun _ => pure rfl) (pure rfl)

theorem target : Passes room P (fun _ => 1) Parse.target := fun s hs _ _ =>
  targetWithin (P := Anywhere) (Nat.le_succ_of_le hs.length_le) s hs (Nat.le_refl _) trivial

theorem ahead {f : List Placed → Parse α} (hf : ∀ tokens, Passes room (fun s => s.rest = tokens) k (f tokens)) :
    Passes room P k (Parse.ahead >>= f) :=
  look (fun s => s.rest) (fun _ => rfl) fun tokens => (hf tokens).imp fun _ hs => hs.2

theorem get {f : Input → Parse α} (hf : ∀ s, Passes room P k (f s)) :
    Passes room P k ((MonadState.get : Parse Input) >>= f) :=
  look (fun s => s) (fun _ => rfl) fun s => (hf s).imp fun _ ht => ht.1

/-- Whether the word `in` is an operator makes no difference to the tokens. -/
theorem setNoIn (noIn : Bool) : Passes room P (fun _ => 0) (Parse.setNoIn noIn) := fun _ hs _ _ =>
  ⟨⟨hs.ends, hs.length_le⟩, rfl, List.suffix_rfl, Nat.le_refl _⟩

theorem withIn (hp : Passes room Anywhere k p) : Passes room P k (Parse.withIn p) := by
  intro s hs hle _
  have hread : Passes room Anywhere k (p >>= fun x => Parse.setNoIn s.noIn >>= fun _ => Pure.pure x) :=
    bind hp fun x => bind (setNoIn s.noIn) fun _ => pure (Nat.sub_self _)
  have hinside : Input.Sound { s with noIn := false } := ⟨hs.ends, hs.length_le⟩
  exact (hread _ hinside hle trivial).imp fun _ hx => ⟨hx.sound, hx.size_eq, hx.suffix, hx.position_le⟩

end Passes

end Snippet.Script
