import Snippet.Proofs.TokenProgress

/-!
Two readers side by side, each on an input of its own. Where the two inputs belong together, both read the same: a
rule for each of the steps that reading a script is put together from, for any notion of belonging that the steps
keep. Along the way the tokens that are passed are known to have their brackets paired.
-/

namespace Snippet.Script

abbrev OpenBrackets := List String

def closerOf? : String → Option String
  | "(" => some ")"
  | "[" => some "]"
  | "\x7b" => some "\x7d"
  | _ => none

def closers : List String := [")", "]", "\x7d"]

def bracketMarks : List String := ["(", ")", "[", "]", "\x7b", "\x7d"]

def Token.isBracket : Token → Bool
  | .mark m => bracketMarks.contains m
  | _ => false

/-- Some tokens take the open brackets from `i` to `k`, each bracket being closed by its own mark. The end is not
among them. -/
inductive Brackets : OpenBrackets → List Placed → OpenBrackets → Prop where
  | nil {i : OpenBrackets} : Brackets i [] i
  | opening {i k : OpenBrackets} {rest : List Placed} {m c : String} (hm : closerOf? m = some c) (line : Nat)
    (h : Brackets (c :: i) rest k) : Brackets i (⟨.mark m, line⟩ :: rest) k
  | closing {i k : OpenBrackets} {rest : List Placed} {c : String} (hc : c ∈ closers) (line : Nat)
    (h : Brackets i rest k) : Brackets (c :: i) (⟨.mark c, line⟩ :: rest) k
  | other {i k : OpenBrackets} {p : Placed} {rest : List Placed} (hbracket : p.token.isBracket = false)
    (hstop : p.token ≠ .stop) (h : Brackets i rest k) : Brackets i (p :: rest) k

/-- Each opening mark has a closing one of its own. -/
theorem closerOf?_eq_some {m c : String} (h : closerOf? m = some c) :
    m ∈ bracketMarks ∧ m ∉ closers ∧ c ∈ closers := by
  unfold closerOf? at h
  split at h
  · cases h
    decide
  · cases h
    decide
  · cases h
    decide
  · cases h

theorem isBracket_of_opening {m c : String} (h : closerOf? m = some c) : (Token.mark m).isBracket = true :=
  List.contains_iff_mem.mpr (closerOf?_eq_some h).1

theorem isBracket_of_closing {c : String} (hc : c ∈ closers) : (Token.mark c).isBracket = true := by
  simp only [closers, List.mem_cons, List.not_mem_nil, or_false] at hc
  rcases hc with rfl | rfl | rfl <;> decide

namespace Brackets

variable {i j k : OpenBrackets} {tokens more : List Placed}

theorem append (h : Brackets i tokens j) (h' : Brackets j more k) : Brackets i (tokens ++ more) k := by
  induction h with
  | nil => exact h'
  | opening hm line _ ih => exact .opening hm line (ih h')
  | closing hc line _ ih => exact .closing hc line (ih h')
  | other hbracket hstop _ ih => exact .other hbracket hstop (ih h')

/-- What is open behind some tokens is settled by them. -/
theorem rest (h : Brackets i tokens j) (hall : Brackets i (tokens ++ more) k) : Brackets j more k := by
  induction h with
  | nil => exact hall
  | opening hm line _ ih =>
    cases hall with
    | opening hm' _ hall =>
      obtain rfl := Option.some.inj (hm.symm.trans hm')
      exact ih hall
    | closing hc => exact absurd hc (closerOf?_eq_some hm).2.1
    | other hbracket =>
      rw [isBracket_of_opening hm] at hbracket
      cases hbracket
  | closing hc line _ ih =>
    cases hall with
    | opening hm => exact absurd hc (closerOf?_eq_some hm).2.1
    | closing _ _ hall => exact ih hall
    | other hbracket =>
      rw [isBracket_of_closing hc] at hbracket
      cases hbracket
  | other hbracket _ _ ih =>
    cases hall with
    | opening hm =>
      rw [isBracket_of_opening hm] at hbracket
      cases hbracket
    | closing hc =>
      rw [isBracket_of_closing hc] at hbracket
      cases hbracket
    | other _ _ hall => exact ih hall

end Brackets

/-- A mark takes the open brackets from `i` to `k`. -/
def TakesBrackets (m : String) (i k : OpenBrackets) : Prop := ∀ line, Brackets i [⟨.mark m, line⟩] k

theorem TakesBrackets.plain {m : String} {i : OpenBrackets} (hm : m ∉ bracketMarks) : TakesBrackets m i i :=
  fun _ => .other (by simpa [Token.isBracket] using hm) (by rintro ⟨⟩) .nil

theorem TakesBrackets.opening {m c : String} {i : OpenBrackets} (hm : closerOf? m = some c) :
    TakesBrackets m i (c :: i) := fun line => .opening hm line .nil

theorem TakesBrackets.closing {c : String} {i : OpenBrackets} (hc : c ∈ closers) : TakesBrackets c (c :: i) i :=
  fun line => .closing hc line .nil

def lineBehind (line : Nat) (tokens : List Placed) : Nat := tokens.foldl (fun _ p => p.line) line

/-- From one state to another one tokens are passed that take the open brackets from `i` to `k`. -/
def Input.Passes (s : Input) (i : OpenBrackets) (t : Input) (k : OpenBrackets) : Prop :=
  ∃ passed, s.rest = passed ++ t.rest ∧ Brackets i passed k ∧ t.previousLine = lineBehind s.previousLine passed

theorem Input.Passes.refl {s t : Input} {i : OpenBrackets} (hrest : t.rest = s.rest)
    (hline : t.previousLine = s.previousLine) : s.Passes i t i := ⟨[], hrest.symm, .nil, hline⟩

theorem Input.Passes.trans {s t u : Input} {i j k : OpenBrackets} (h : s.Passes i t j) (h' : t.Passes j u k) :
    s.Passes i u k := by
  obtain ⟨passed, hpassed, hbrackets, hline⟩ := h
  obtain ⟨more, hmore, hbrackets', hline'⟩ := h'
  refine ⟨passed ++ more, ?_, hbrackets.append hbrackets', ?_⟩
  · rw [hpassed, hmore, List.append_assoc]
  · rw [hline', hline, lineBehind, lineBehind, lineBehind, List.foldl_append]

structure Input.AtPlain (s : Input) : Prop where
  bracket : (Parse.tokenOf s.rest).isBracket = false
  stop : Parse.tokenOf s.rest ≠ .stop

namespace Input.AtPlain

variable {s : Input} {t : Token}

theorem of_eq (hs : Parse.tokenOf s.rest = t) (hbracket : t.isBracket = false) (hstop : t ≠ .stop) : s.AtPlain := by
  subst hs
  exact ⟨hbracket, hstop⟩

theorem of_word {w : String} (hs : Parse.tokenOf s.rest = .word w) : s.AtPlain := of_eq hs rfl (by rintro ⟨⟩)

theorem of_isWord {w : String} (hs : Parse.isWordToken w (Parse.tokenOf s.rest) = true) : s.AtPlain := by
  cases htoken : Parse.tokenOf s.rest with
  | word w' => exact of_word htoken
  | _ =>
    rw [htoken] at hs
    cases hs

/-- A token that a table of tokens knows is plain, if the table knows neither brackets nor the end. -/
theorem of_known {α : Type} {a : α} {known : Token → Option α} (hs : Parse.tokenOf s.rest = t) (h : known t = some a)
    (hbrackets : ∀ m ∈ bracketMarks, known (.mark m) = none) (hstop : known .stop = none) : s.AtPlain := by
  refine of_eq hs (Bool.eq_false_iff.mpr fun hbracket => ?_) ?_
  · cases t with
    | mark m =>
      rw [hbrackets m (List.contains_iff_mem.mp hbracket)] at h
      cases h
    | _ => cases hbracket
  · rintro rfl
    rw [hstop] at h
    cases h

end Input.AtPlain

/-- A token that comes next stands in front of the other tokens. -/
theorem Parse.rest_of_ne_stop {s : Input} (hs : Parse.tokenOf s.rest ≠ .stop) :
    ∃ p rest, s.rest = p :: rest ∧ p.token = Parse.tokenOf s.rest := by
  cases hrest : s.rest with
  | nil => exact absurd (congrArg Parse.tokenOf hrest) hs
  | cons p rest => exact ⟨p, rest, rfl, rfl⟩

/-- A mark that comes next stands in front of the other tokens. -/
theorem Parse.rest_of_isMark {m : String} {s : Input} (hs : Parse.isMarkToken m (Parse.tokenOf s.rest) = true) :
    ∃ line rest, s.rest = ⟨.mark m, line⟩ :: rest := by
  cases hrest : s.rest with
  | nil =>
    rw [hrest] at hs
    cases hs
  | cons p rest =>
    obtain ⟨token, line⟩ := p
    rw [hrest] at hs
    cases token with
    | mark m' =>
      obtain rfl := eq_of_beq hs
      exact ⟨line, rest, rfl⟩
    | _ => cases hs

/-- While a part is read the word `in` is an operator, and afterwards it is what it was. -/
theorem Parse.withIn_eq {α : Type} (p : Parse α) (s : Input) :
    withIn p s = match p { s with noIn := false } with
      | .ok (x, t) => .ok (x, { t with noIn := s.noIn })
      | .error e => .error e := by
  change (p { s with noIn := false } >>= fun x => Except.ok (x.1, { x.2 with noIn := s.noIn })) = _
  cases p { s with noIn := false } <;> rfl

def endMarks : List String := [")", "]", "\x7d", ","]

def Input.behind (s : Input) (p : Placed) (rest : List Placed) : Input :=
  { s with rest, previousLine := p.line }

/-- A notion of two inputs that belong together while some brackets are open, which reading keeps. The first input
may end where the second one goes on with a mark. -/
structure Pairing where
  Belongs : OpenBrackets → Input → Input → Prop
  /-- A mark may stand in the second input where the first one ends. -/
  Ends : OpenBrackets → String → Prop
  /-- What is wrong with the first input is wrong with the second one too. -/
  Strict : Prop
  /-- Faults that belong together. -/
  Fault : SyntaxFault → SyntaxFault → Prop
  /-- A fault in the source of a substitution. -/
  Inner : String → SyntaxFault → Prop
  ends : ∀ {i m}, Ends i m → m ∈ endMarks
  inside : ∀ {c i m}, ¬ Ends (c :: i) m
  next : ∀ {i s s'}, Belongs i s s' → Parse.tokenOf s'.rest = Parse.tokenOf s.rest ∨
    Parse.tokenOf s.rest = .stop ∧ ∃ m, Ends i m ∧ Parse.tokenOf s'.rest = .mark m
  advance : ∀ {i k s s' p rest}, Belongs i s s' → s.rest = p :: rest → Brackets i [p] k →
    ∃ p' rest', s'.rest = p' :: rest' ∧ Belongs k (s.behind p rest) (s'.behind p' rest')
  startsArrow : ∀ {i s s'}, Belongs i s s' → Parse.startsArrow s'.rest = Parse.startsArrow s.rest
  afterNewline : ∀ {i s s'}, Belongs i s s' → Parse.tokenOf s'.rest = Parse.tokenOf s.rest →
    (s'.previousLine < s'.line ↔ s.previousLine < s.line)
  operator : ∀ {i s s'}, Belongs i s s' →
    Parse.infixOf? s'.noIn (Parse.tokenOf s'.rest) = Parse.infixOf? s.noIn (Parse.tokenOf s.rest)
  size : ∀ {i s s'}, Belongs i s s' → s.size ≤ s'.size ∧ (Strict → s'.size ≤ s.size)
  withNoIn : ∀ {i s s'}, Belongs i s s' → ∀ b, Belongs i { s with noIn := b } { s' with noIn := b }
  restore : ∀ {i j s s' t t'}, Belongs i s s' → Belongs j t t' →
    Belongs j { t with noIn := s.noIn } { t' with noIn := s'.noIn }
  fault : ∀ {i s s'}, Strict → Belongs i s s' → Parse.tokenOf s'.rest = Parse.tokenOf s.rest ∧
    ∀ e, Fault ⟨e, s.line⟩ ⟨e, s'.line⟩
  inner : ∀ {i s s' chunks code f}, Belongs i s s' → Parse.tokenOf s.rest = .template chunks →
    Chunk.code code ∈ chunks → Inner code f → Fault f f

namespace Pairing

variable {R : Pairing} {i j k : OpenBrackets} {s s' t : Input}

/-- No mark stands in the second input where the first one ends, as the first one goes on. -/
theorem ends_never {m : String} (h : False) : m ∈ endMarks := h.elim

def Closed (R : Pairing) (i : OpenBrackets) : Prop := ∀ m, ¬ R.Ends i m

theorem closed_cons {c : String} : R.Closed (c :: i) := fun _ => R.inside

theorem apart {m : String} (hm : m ∉ endMarks) : ¬ R.Ends i m := fun h => hm (R.ends h)

theorem next_of_closed (h : R.Belongs i s s') (hi : R.Closed i) :
    Parse.tokenOf s'.rest = Parse.tokenOf s.rest := by
  rcases R.next h with heq | ⟨-, m, hm, -⟩
  · exact heq
  · exact absurd hm (hi m)

theorem next_of_ne (h : R.Belongs i s s') (hs : Parse.tokenOf s.rest ≠ .stop) :
    Parse.tokenOf s'.rest = Parse.tokenOf s.rest := by
  rcases R.next h with heq | ⟨hstop, -⟩
  · exact heq
  · exact absurd hstop hs

/-- A mark that does not stand at the end comes next in both inputs or in neither. -/
theorem isMark_eq {m : String} (h : R.Belongs i s s') (hm : ¬ R.Ends i m) :
    Parse.isMarkToken m (Parse.tokenOf s'.rest) = Parse.isMarkToken m (Parse.tokenOf s.rest) := by
  rcases R.next h with heq | ⟨hstop, m', hm', hmark⟩
  · rw [heq]
  · rw [hstop, hmark]
    refine beq_eq_false_iff_ne.mpr ?_
    rintro rfl
    exact hm hm'

theorem isWord_eq {w : String} (h : R.Belongs i s s') :
    Parse.isWordToken w (Parse.tokenOf s'.rest) = Parse.isWordToken w (Parse.tokenOf s.rest) := by
  rcases R.next h with heq | ⟨hstop, m', -, hmark⟩
  · rw [heq]
  · rw [hstop, hmark]
    rfl

/-- Behind a token that is no bracket the inputs still belong together. -/
theorem behind_plain (h : R.Belongs i s s') (hs : s.AtPlain) : ∃ p rest p' rest', s.rest = p :: rest ∧
    s'.rest = p' :: rest' ∧ p.token = Parse.tokenOf s.rest ∧ R.Belongs i (s.behind p rest) (s'.behind p' rest') := by
  obtain ⟨p, rest, hrest, hp⟩ := Parse.rest_of_ne_stop hs.stop
  have hbrackets : Brackets i [p] i := .other (hp ▸ hs.bracket) (hp ▸ hs.stop) .nil
  obtain ⟨p', rest', hrest', hbelongs⟩ := R.advance h hrest hbrackets
  exact ⟨p, rest, p', rest', hrest, hrest', hp, hbelongs⟩

def Outcome (R : Pairing) (s : Input) (i : OpenBrackets) {α : Type} (j : α → OpenBrackets) :
    Except SyntaxFault (α × Input) → Except SyntaxFault (α × Input) → Prop
  | .ok (x, t), r => ∃ t', r = .ok (x, t') ∧ R.Belongs (j x) t t' ∧ s.Passes i t (j x)
  | .error f, r => R.Strict → ∃ f', r = .error f' ∧ R.Fault f f'

/-- Where a condition holds of the first of two inputs that belong together, `q` reads from the second one what `p`
reads from the first one, with the open brackets going from `i` to `j`, which may depend on what is read. -/
def Reads (R : Pairing) (P : Input → Prop) (i : OpenBrackets) {α : Type} (j : α → OpenBrackets)
    (p q : Parse α) : Prop :=
  ∀ s s', R.Belongs i s s' → P s → R.Outcome s i j (p s) (q s')

end Pairing

def Parse.Step.open {α β : Type} (i : OpenBrackets) (j : β → OpenBrackets) : Parse.Step α β → OpenBrackets
  | .more _ => i
  | .done b => j b

namespace Pairing.Reads

open Parse

variable {R : Pairing} {P : Input → Prop} {i k : OpenBrackets} {α β : Type} {j : α → OpenBrackets} {p q : Parse α}

theorem pure {a : α} (ha : i = j a) : R.Reads P i j (Pure.pure a) (Pure.pure a) := by
  intro s s' hs _
  exact ⟨s', rfl, ha ▸ hs, ha ▸ .refl rfl rfl⟩

theorem imp {Q : Input → Prop} (h : R.Reads Q i j p q) (hPQ : ∀ s, P s → Q s) : R.Reads P i j p q :=
  fun s s' hs hP => h s s' hs (hPQ s hP)

theorem congr {j' : α → OpenBrackets} (h : R.Reads P i j p q) (hj : ∀ a, j a = j' a) : R.Reads P i j' p q :=
  funext hj ▸ h

theorem anywhere (h : R.Reads Anywhere i j p q) : R.Reads P i j p q := h.imp fun _ _ => trivial

/-- Readers that belong together may be followed by readers that belong together behind what has been read. -/
theorem bind {n : β → OpenBrackets} {p' q' : Parse β} {f g : β → Parse α} (hp : R.Reads P i n p' q')
    (hf : ∀ b, R.Reads Anywhere (n b) j (f b) (g b)) : R.Reads P i j (p' >>= f) (q' >>= g) := by
  intro s s' hs hP
  have hfirst := hp s s' hs hP
  cases hread : p' s with
  | error e =>
    rw [hread] at hfirst
    rw [parse_bind_error hread]
    intro hstrict
    obtain ⟨e', hread', he⟩ := hfirst hstrict
    exact ⟨e', parse_bind_error hread', he⟩
  | ok x =>
    obtain ⟨b, u⟩ := x
    rw [hread] at hfirst
    obtain ⟨u', hread', hu, hpasses⟩ := hfirst
    rw [parse_bind b u hread, parse_bind b u' hread']
    have hrest := hf b u u' hu trivial
    cases hfinal : f b u with
    | error e =>
      rw [hfinal] at hrest
      exact hrest
    | ok y =>
      rw [hfinal] at hrest
      obtain ⟨t', hread'', ht, hpasses'⟩ := hrest
      exact ⟨t', hread'', ht, hpasses.trans hpasses'⟩

/-- What is looked up is known of the first state afterwards. -/
theorem look {v : Input → β} {p' : Parse β} {f g : β → Parse α} (hp : ∀ s, p' s = .ok (v s, s))
    (hv : ∀ s s', R.Belongs i s s' → P s → v s' = v s)
    (hf : ∀ b, R.Reads (fun s => P s ∧ v s = b) i j (f b) (g b)) : R.Reads P i j (p' >>= f) (p' >>= g) := by
  intro s s' hs hP
  rw [parse_bind _ _ (hp s), parse_bind _ _ (hp s'), hv s s' hs hP]
  exact hf (v s) s s' hs ⟨hP, rfl⟩

theorem map {n : β → OpenBrackets} {p' q' : Parse β} {f : β → α} (hp : R.Reads P i n p' q')
    (hf : ∀ b, n b = j (f b)) : R.Reads P i j (f <$> p') (f <$> q') := by
  have hbind : R.Reads P i j (p' >>= fun b => Pure.pure (f b)) (q' >>= fun b => Pure.pure (f b)) :=
    bind hp fun b => pure (hf b)
  rwa [← map_eq_pure_bind, ← map_eq_pure_bind] at hbind

theorem ite {c : Prop} [Decidable c] {p' q' : Parse α} (hp : c → R.Reads P i j p q)
    (hq : ¬ c → R.Reads P i j p' q') : R.Reads P i j (if c then p else p') (if c then q else q') := by
  by_cases hc : c
  · rw [if_pos hc, if_pos hc]
    exact hp hc
  · rw [if_neg hc, if_neg hc]
    exact hq hc

theorem fail (e : SyntaxError) : R.Reads P i j (Parse.fail e) (Parse.fail e) :=
  fun _ _ hs _ hstrict => ⟨_, rfl, (R.fault hstrict hs).2 e⟩

theorem failThen (e : SyntaxError) {f g : β → Parse α} :
    R.Reads P i j (Parse.fail e >>= f) (Parse.fail e >>= g) :=
  fun s s' hs hP => fail (j := j) e s s' hs hP

/-- Where faults make no difference, what reads nothing goes with anything. -/
theorem failLoosely (hR : ¬ R.Strict) (e : SyntaxError) : R.Reads P i j (Parse.fail e) q :=
  fun _ _ _ _ hstrict => absurd hstrict hR

theorem unexpected : R.Reads P i j Parse.unexpected Parse.unexpected := by
  intro s s' hs _ hstrict
  obtain ⟨htoken, hfault⟩ := R.fault hstrict hs
  refine ⟨_, rfl, ?_⟩
  rw [htoken]
  exact hfault _

theorem unexpectedThen {f g : β → Parse α} :
    R.Reads P i j (Parse.unexpected >>= f) (Parse.unexpected >>= g) :=
  fun s s' hs hP => unexpected (j := j) s s' hs hP

/-- One token is passed. -/
theorem advanceOver (hP : ∀ s, P s → ∃ p rest, s.rest = p :: rest ∧ Brackets i [p] k) :
    R.Reads P i (fun _ => k) Parse.advance Parse.advance := by
  intro s s' hs hcondition
  obtain ⟨p, rest, hrest, hbrackets⟩ := hP s hcondition
  obtain ⟨p', rest', hrest', hbelongs⟩ := R.advance hs hrest hbrackets
  unfold Parse.advance
  rw [hrest, hrest']
  exact ⟨_, rfl, hbelongs, [p], hrest, hbrackets, rfl⟩

theorem advance (hP : ∀ s, P s → s.AtPlain) : R.Reads P i (fun _ => i) Parse.advance Parse.advance := by
  refine advanceOver fun s hs => ?_
  obtain ⟨p, rest, hrest, hp⟩ := rest_of_ne_stop (hP s hs).stop
  exact ⟨p, rest, hrest, .other (hp ▸ (hP s hs).bracket) (hp ▸ (hP s hs).stop) .nil⟩

/-- A bracket is passed. -/
theorem advanceMark {m : String} (hm : TakesBrackets m i k)
    (hP : ∀ s, P s → isMarkToken m (tokenOf s.rest) = true) :
    R.Reads P i (fun _ => k) Parse.advance Parse.advance := by
  refine advanceOver fun s hs => ?_
  obtain ⟨line, rest, hrest⟩ := rest_of_isMark (hP s hs)
  exact ⟨_, rest, hrest, hm line⟩

/-- Where the first input ends, the second one may go on with a mark. -/
theorem peek {f g : Token → Parse α} (hf : ∀ t, R.Reads (fun s => tokenOf s.rest = t) i j (f t) (g t))
    (hend : ∀ m, R.Ends i m → R.Reads Anywhere i j (f .stop) (g (.mark m))) :
    R.Reads P i j (Parse.peek >>= f) (Parse.peek >>= g) := by
  intro s s' hs _
  rw [parse_bind (tokenOf s.rest) s rfl, parse_bind (tokenOf s'.rest) s' rfl]
  rcases R.next hs with heq | ⟨hstop, m, hm, hmark⟩
  · rw [heq]
    exact hf (tokenOf s.rest) s s' hs rfl
  · rw [hstop, hmark]
    exact hend m hm s s' hs trivial

theorem peekClosed {f g : Token → Parse α} (hi : R.Closed i)
    (hf : ∀ t, R.Reads (fun s => tokenOf s.rest = t) i j (f t) (g t)) :
    R.Reads P i j (Parse.peek >>= f) (Parse.peek >>= g) := peek hf fun m hm => absurd hm (hi m)

/-- The line makes no difference where the next token is known to be the same. -/
theorem afterNewline {f g : Bool → Parse α} (hP : R.Closed i ∨ ∀ s, P s → tokenOf s.rest ≠ .stop)
    (hf : ∀ b, R.Reads P i j (f b) (g b)) :
    R.Reads P i j (Parse.afterNewline >>= f) (Parse.afterNewline >>= g) := by
  refine look (v := fun s => decide (s.previousLine < s.line)) (fun _ => rfl) (fun s s' hs hcondition => ?_)
    fun b => (hf b).imp fun _ h => h.1
  refine decide_eq_decide.mpr (R.afterNewline hs ?_)
  rcases hP with hi | hnext
  · exact R.next_of_closed hs hi
  · exact R.next_of_ne hs (hnext s hcondition)

theorem atStop {f g : Bool → Parse α} (hi : R.Closed i) (hf : ∀ b, R.Reads P i j (f b) (g b)) :
    R.Reads P i j (Parse.atStop >>= f) (Parse.atStop >>= g) :=
  look (v := fun s => (tokenOf s.rest).isStop) atStop_eq
    (fun _ _ hs _ => congrArg Token.isStop (R.next_of_closed hs hi)) fun b => (hf b).imp fun _ h => h.1

theorem atMark {m : String} {f g : Bool → Parse α} (hm : ¬ R.Ends i m)
    (hf : ∀ b, R.Reads (fun s => isMarkToken m (tokenOf s.rest) = b) i j (f b) (g b)) :
    R.Reads P i j (Parse.atMark m >>= f) (Parse.atMark m >>= g) :=
  look (v := fun s => isMarkToken m (tokenOf s.rest)) (fun _ => rfl) (fun _ _ hs _ => R.isMark_eq hs hm)
    fun b => (hf b).imp fun _ h => h.2

theorem atWord {w : String} {f g : Bool → Parse α}
    (hf : ∀ b, R.Reads (fun s => isWordToken w (tokenOf s.rest) = b) i j (f b) (g b)) :
    R.Reads P i j (Parse.atWord w >>= f) (Parse.atWord w >>= g) :=
  look (v := fun s => isWordToken w (tokenOf s.rest)) (fun _ => rfl) (fun _ _ hs _ => R.isWord_eq hs)
    fun b => (hf b).imp fun _ h => h.2

/-- A word and something about the token behind it that is the same for the end and the marks in its place. -/
theorem atWordBefore {w : String} {c : Token → Bool} {f g : Bool → Token → Parse α}
    (hc : ∀ m, R.Ends i m → c (.mark m) = c .stop)
    (hf : ∀ a t a' t', (a' && c t') = (a && c t) →
      R.Reads (fun s => (a && c t) = true → isWordToken w (tokenOf s.rest) = true) i j (f a t) (g a' t')) :
    R.Reads P i j (Parse.atWord w >>= fun a => Parse.peekSecond >>= fun t => f a t)
      (Parse.atWord w >>= fun a => Parse.peekSecond >>= fun t => g a t) := by
  intro s s' hs _
  refine hf (isWordToken w (tokenOf s.rest)) (tokenOf s.rest.tail) (isWordToken w (tokenOf s'.rest))
    (tokenOf s'.rest.tail) ?_ s s' hs fun h => (Bool.and_eq_true_iff.mp h).1
  rw [R.isWord_eq hs]
  cases hcase : isWordToken w (tokenOf s.rest) with
  | false => rfl
  | true =>
    obtain ⟨p, rest, p', rest', hrest, hrest', -, hbehind⟩ := R.behind_plain hs (.of_isWord hcase)
    rw [hrest, hrest', List.tail_cons, List.tail_cons]
    rcases R.next hbehind with heq | ⟨hstop, m, hm, hmark⟩
    · exact congrArg c heq
    · have hstop' : tokenOf rest = .stop := hstop
      have hmark' : tokenOf rest' = .mark m := hmark
      rw [hstop', hmark', hc m hm]

/-- Whether the tokens ahead begin an arrow function. -/
theorem startsArrow {f g : List Placed → Parse α}
    (hf : ∀ tokens tokens', Parse.startsArrow tokens' = Parse.startsArrow tokens →
      R.Reads Anywhere i j (f tokens) (g tokens')) :
    R.Reads P i j (Parse.ahead >>= f) (Parse.ahead >>= g) :=
  fun s s' hs _ => hf s.rest s'.rest (R.startsArrow hs) s s' hs trivial

/-- Whether the tokens ahead are the word `async` and an arrow function behind it. -/
def asyncArrow (tokens : List Placed) : Bool :=
  isWordToken "async" (tokenOf tokens) && !isMarkToken "=>" (tokenOf tokens.tail) && Parse.startsArrow tokens.tail

/-- Whether the tokens ahead begin an asynchronous arrow function is the same for both. -/
theorem startsAsyncArrow {f g : List Placed → Parse α}
    (hf : ∀ tokens tokens', asyncArrow tokens' = asyncArrow tokens →
      R.Reads (fun s => asyncArrow tokens = true → isWordToken "async" (tokenOf s.rest) = true) i j
        (f tokens) (g tokens')) :
    R.Reads P i j (Parse.ahead >>= f) (Parse.ahead >>= g) := by
  intro s s' hs _
  refine hf s.rest s'.rest ?_ s s' hs fun h => (Bool.and_eq_true_iff.mp (Bool.and_eq_true_iff.mp h).1).1
  unfold asyncArrow
  rw [R.isWord_eq hs]
  cases hcase : isWordToken "async" (tokenOf s.rest) with
  | false => rfl
  | true =>
    obtain ⟨p, rest, p', rest', hrest, hrest', -, hbehind⟩ := R.behind_plain hs (.of_isWord hcase)
    have hmark : isMarkToken "=>" (tokenOf rest') = isMarkToken "=>" (tokenOf rest) :=
      R.isMark_eq hbehind (R.apart (by decide))
    have harrow : Parse.startsArrow rest' = Parse.startsArrow rest := R.startsArrow hbehind
    rw [hrest, hrest', List.tail_cons, List.tail_cons, hmark, harrow]

/-- The operator that comes next. -/
theorem operator {f g : Input → Token → Parse α}
    (hf : ∀ u t u' t', infixOf? u'.noIn t' = infixOf? u.noIn t →
      R.Reads (fun s => infixOf? s.noIn (tokenOf s.rest) = infixOf? u.noIn t) i j (f u t) (g u' t')) :
    R.Reads P i j ((MonadState.get : Parse Input) >>= fun u => Parse.peek >>= fun t => f u t)
      ((MonadState.get : Parse Input) >>= fun u => Parse.peek >>= fun t => g u t) :=
  fun s s' hs _ => hf s (tokenOf s.rest) s' (tokenOf s'.rest) (R.operator hs) s s' hs rfl

/-- A mark is passed if it comes next. -/
theorem eatMark {m : String} (hend : ¬ R.Ends i m) (hm : TakesBrackets m i k) :
    R.Reads P i (fun eaten => if eaten then k else i) (Parse.eatMark m) (Parse.eatMark m) := by
  refine atMark hend fun b => ite (fun hb => ?_) fun _ => pure rfl
  exact bind (advanceMark hm fun s hs => hs.trans hb) fun _ => pure rfl

/-- A word is passed if it comes next. -/
theorem eatWord (w : String) : R.Reads P i (fun _ => i) (Parse.eatWord w) (Parse.eatWord w) := by
  refine atWord fun b => ite (fun hb => ?_) fun _ => pure rfl
  exact bind (advance fun s hs => .of_isWord (hs.trans hb)) fun _ => pure rfl

/-- What is read depends on whether a mark comes next. -/
theorem ifMark {m : String} {p' q' : Parse α} (hend : ¬ R.Ends i m) (hm : TakesBrackets m i k)
    (hp : R.Reads Anywhere k j p q) (hq : R.Reads Anywhere i j p' q') :
    R.Reads P i j (Parse.eatMark m >>= fun eaten => if eaten = true then p else p')
      (Parse.eatMark m >>= fun eaten => if eaten = true then q else q') := by
  refine bind (eatMark hend hm) fun eaten => ?_
  cases eaten
  · exact hq
  · exact hp

/-- What is read depends on whether a word comes next. -/
theorem ifWord {w : String} {p' q' : Parse α} (hp : R.Reads Anywhere i j p q)
    (hq : R.Reads Anywhere i j p' q') :
    R.Reads P i j (Parse.eatWord w >>= fun eaten => if eaten = true then p else p')
      (Parse.eatWord w >>= fun eaten => if eaten = true then q else q') :=
  bind (eatWord w) fun _ => ite (fun _ => hp) fun _ => hq

theorem expectMark {m : String} (hend : ¬ R.Ends i m) (hm : TakesBrackets m i k) :
    R.Reads P i (fun _ => k) (Parse.expectMark m) (Parse.expectMark m) :=
  ifMark hend hm (pure rfl) unexpected

theorem expectName : R.Reads P i (fun _ => i) Parse.expectName Parse.expectName := by
  refine peek (fun t => ?_) fun m _ => unexpected
  split
  · refine ite (fun _ => unexpected) fun _ => ?_
    exact bind (advance fun s hs => .of_word hs) fun _ => pure rfl
  · exact unexpected

theorem memberName : R.Reads P i (fun _ => i) Parse.memberName Parse.memberName := by
  refine peek (fun t => ?_) fun m _ => unexpected
  split
  · exact bind (advance fun s hs => .of_word hs) fun _ => pure rfl
  · exact unexpected

theorem endStatement (hi : R.Closed i) : R.Reads P i (fun _ => i) Parse.endStatement Parse.endStatement :=
  ifMark (hi _) (.plain (by decide)) (pure rfl) <| atMark (hi _) fun _ => ite (fun _ => pure rfl) fun _ =>
    atStop hi fun _ => ite (fun _ => pure rfl) fun _ =>
      afterNewline (.inl hi) fun _ => ite (fun _ => pure rfl) fun _ => unexpected

/-- Something that is known goes on as what comes after it does. -/
theorem afterPure {b : β} {f g : β → Parse α} (h : R.Reads P i j (f b) (g b)) :
    R.Reads P i j (Pure.pure b >>= f) (Pure.pure b >>= g) := h

/-- One of two readers, with the same one behind either of them. -/
theorem either {c : Prop} [Decidable c] {p' q' p'' q'' : Parse β} {n : β → OpenBrackets} {f g : β → Parse α}
    (hp : c → R.Reads P i n p' q') (hq : ¬ c → R.Reads P i n p'' q'')
    (hf : ∀ b, R.Reads Anywhere (n b) j (f b) (g b)) :
    R.Reads P i j (if c then p' >>= f else p'' >>= f) (if c then q' >>= g else q'' >>= g) :=
  ite (fun hc => bind (hp hc) hf) fun hc => bind (hq hc) hf

/-- A step that is left out in one case. -/
theorem orElse {c : Prop} [Decidable c] {p' q' : Parse PUnit} {f g : PUnit → Parse α}
    (hp : ¬ c → R.Reads P i (fun _ => i) p' q') (hf : R.Reads Anywhere i j (f ⟨⟩) (g ⟨⟩)) :
    R.Reads P i j (if c then f ⟨⟩ else p' >>= f) (if c then g ⟨⟩ else q' >>= g) :=
  ite (fun _ => hf.anywhere) fun hc => bind (hp hc) fun _ => hf

/-- A step that is taken in one case only. -/
theorem onlyIf {c : Prop} [Decidable c] {p' q' : Parse PUnit} {f g : PUnit → Parse α}
    (hp : c → R.Reads P i (fun _ => i) p' q') (hf : R.Reads Anywhere i j (f ⟨⟩) (g ⟨⟩)) :
    R.Reads P i j (if c then p' >>= f else f ⟨⟩) (if c then q' >>= g else g ⟨⟩) :=
  ite (fun hc => bind (hp hc) fun _ => hf) fun _ => hf.anywhere

/-- Repetitions with a number of rounds, of which the second one may have more; by induction on the rounds. -/
theorem iterate {step step' : β → Parse (Step β α)}
    (hstep : ∀ b, R.Reads Anywhere i (Step.open i j) (step b) (step' b)) {fuel fuel' : Nat} (hle : fuel ≤ fuel')
    (hstrict : R.Strict → fuel' ≤ fuel) (b : β) :
    R.Reads Anywhere i j (Parse.iterate step fuel b) (Parse.iterate step' fuel' b) := by
  induction fuel generalizing fuel' b with
  | zero =>
    by_cases hR : R.Strict
    · obtain rfl := Nat.le_zero.mp (hstrict hR)
      exact fail _
    · exact failLoosely hR _
  | succ fuel ih =>
    obtain ⟨fuel', rfl⟩ := Nat.exists_eq_succ_of_ne_zero (Nat.ne_of_gt (Nat.lt_of_lt_of_le (Nat.succ_pos fuel) hle))
    refine bind (hstep b) fun r => ?_
    cases r with
    | more b' =>
      exact ih (Nat.le_of_succ_le_succ hle) (fun h => Nat.le_of_succ_le_succ (hstrict h)) b'
    | done a => exact pure rfl

/-- A repetition whose rounds leave the same brackets open that they find, but for the last one. -/
theorem repeatFrom {start : β} {step step' : β → Parse (Step β α)}
    (hstep : ∀ b, R.Reads Anywhere i (Step.open i j) (step b) (step' b)) :
    R.Reads P i j (Parse.repeatFrom start step) (Parse.repeatFrom start step') := by
  intro s s' hs _
  obtain ⟨hle, hstrict⟩ := R.size hs
  exact iterate hstep (Nat.add_le_add_right hle 1) (fun h => Nat.add_le_add_right (hstrict h) 1) start s s' hs trivial

theorem listRound {close : String} {part part' : Parse β} (hclose : close ∈ closers)
    (hpart : R.Reads Anywhere (close :: i) (fun _ => close :: i) part part') (done : List β) :
    R.Reads P (close :: i) (Step.open (close :: i) fun _ => i) (Parse.listRound close part done)
      (Parse.listRound close part' done) := by
  refine ifMark R.inside (.closing hclose) (pure rfl) (bind hpart fun x => atMark R.inside fun _ => ?_)
  exact orElse (fun _ => expectMark R.inside (.plain (by decide))) (pure rfl)

/-- The parts up to the closing mark. -/
theorem listUntil {close : String} {part part' : Parse β} (hclose : close ∈ closers)
    (hpart : R.Reads Anywhere (close :: i) (fun _ => close :: i) part part') :
    R.Reads P (close :: i) (fun _ => i) (Parse.listUntil close part) (Parse.listUntil close part') :=
  repeatFrom (listRound hclose hpart)

theorem holesRound {close : String} {hole : β} {part part' : Parse β} (hclose : close ∈ closers)
    (hpart : R.Reads Anywhere (close :: i) (fun _ => close :: i) part part') (done : List β) :
    R.Reads P (close :: i) (Step.open (close :: i) fun _ => i) (Parse.holesRound close hole part done)
      (Parse.holesRound close hole part' done) := by
  have hcomma {k : OpenBrackets} : TakesBrackets "," k k := .plain (by decide)
  refine ifMark R.inside (.closing hclose) (pure rfl) (ifMark R.inside hcomma (pure rfl) ?_)
  refine bind hpart fun x => atMark R.inside fun _ => ?_
  exact orElse (fun _ => expectMark R.inside hcomma) (pure rfl)

theorem listWithHoles {close : String} {hole : β} {part part' : Parse β} (hclose : close ∈ closers)
    (hpart : R.Reads Anywhere (close :: i) (fun _ => close :: i) part part') :
    R.Reads P (close :: i) (fun _ => i) (Parse.listWithHoles close hole part)
      (Parse.listWithHoles close hole part') :=
  repeatFrom (holesRound hclose hpart)

/-- The targets of declarations are read on no level; by induction on how deep they are nested. -/
theorem targetWithin {fuel fuel' : Nat} (hle : fuel ≤ fuel') (hstrict : R.Strict → fuel' ≤ fuel) :
    R.Reads P i (fun _ => i) (Parse.targetWithin fuel) (Parse.targetWithin fuel') := by
  induction fuel generalizing fuel' i P with
  | zero =>
    by_cases hR : R.Strict
    · obtain rfl := Nat.le_zero.mp (hstrict hR)
      exact fail _
    · exact failLoosely hR _
  | succ fuel ih =>
    obtain ⟨fuel', rfl⟩ := Nat.exists_eq_succ_of_ne_zero (Nat.ne_of_gt (Nat.lt_of_lt_of_le (Nat.succ_pos fuel) hle))
    have hinner {P : Input → Prop} {i : OpenBrackets} :
        R.Reads P i (fun _ => i) (Parse.targetWithin fuel) (Parse.targetWithin fuel') :=
      ih (Nat.le_of_succ_le_succ hle) fun h => Nat.le_of_succ_le_succ (hstrict h)
    refine ifMark (R.apart (by decide)) (.opening rfl) ?_
      (ifMark (R.apart (by decide)) (.opening rfl) ?_ (bind expectName fun _ => pure rfl))
    · exact bind (listWithHoles (by decide) (map hinner fun _ => rfl)) fun _ => pure rfl
    · refine bind (listUntil (by decide) ?_) fun _ => pure rfl
      exact bind memberName fun _ =>
        ifMark R.inside (.plain (by decide)) (bind hinner fun _ => pure rfl) (pure rfl)

theorem target : R.Reads P i (fun _ => i) Parse.target Parse.target := by
  intro s s' hs hP
  obtain ⟨hle, hstrict⟩ := R.size hs
  exact targetWithin (Nat.add_le_add_right hle 1) (fun h => Nat.add_le_add_right (hstrict h) 1) s s' hs hP

/-- Whether the word `in` is an operator makes no difference to the tokens. -/
theorem setNoIn (noIn : Bool) : R.Reads P i (fun _ => i) (Parse.setNoIn noIn) (Parse.setNoIn noIn) :=
  fun _ _ hs _ => ⟨_, rfl, R.withNoIn hs noIn, .refl rfl rfl⟩

/-- Reading with the word `in` as an operator is the same for both. -/
theorem withIn (h : R.Reads Anywhere i j p q) : R.Reads P i j (Parse.withIn p) (Parse.withIn q) := by
  intro s s' hs _
  have hinside := h _ _ (R.withNoIn hs false) trivial
  rw [withIn_eq, withIn_eq]
  cases hread : p { s with noIn := false } with
  | error e =>
    rw [hread] at hinside
    intro hstrict
    obtain ⟨e', hread', he⟩ := hinside hstrict
    rw [hread']
    exact ⟨e', rfl, he⟩
  | ok x =>
    obtain ⟨a, t⟩ := x
    rw [hread] at hinside
    obtain ⟨t', hread', ht, hpasses⟩ := hinside
    rw [hread']
    exact ⟨_, rfl, R.restore hs ht, hpasses⟩

end Pairing.Reads

end Snippet.Script
