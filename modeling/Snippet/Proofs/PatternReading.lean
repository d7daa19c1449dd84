import Snippet.Proofs.OperandReading
import Snippet.Proofs.TreeHeight

/-!
Patterns that are read twice over. A declaration reads its pattern as a target, and an assignment reads it as a
literal before it is known that something is assigned. From the same tokens both read the same pattern, as long
as its names are names in expressions too and it is nested no deeper than expressions may be.
-/

namespace Snippet.Script

mutual

def Target.literal : Target → Expr
  | .name name => .name name
  | .array elements => .array (elementLiterals elements)
  | .object members => .object (memberLiterals members)

/-- An element of an array literal. One that is left out is undefined there. -/
def elementLiteral : Option Target → Expr
  | none => .undefined
  | some t => t.literal

def elementLiterals : List (Option Target) → List Item
  | [] => []
  | element? :: rest => .mk false (elementLiteral element?) :: elementLiterals rest

def memberLiterals : List (String × Target) → List Member
  | [] => []
  | (key, t) :: rest => .init (.named key) t.literal :: memberLiterals rest

end

theorem elementLiterals_eq_map (elements : List (Option Target)) :
    elementLiterals elements = elements.map fun element? => .mk false (elementLiteral element?) := by
  induction elements with
  | nil => rfl
  | cons element? rest ih => exact congrArg _ ih

theorem memberLiterals_eq_map (members : List (String × Target)) :
    memberLiterals members = members.map fun member => .init (.named member.1) member.2.literal := by
  induction members with
  | nil => rfl
  | cons member rest ih => exact congrArg _ ih

inductive Target.Contains : Target → Target → Prop where
  | itself (t : Target) : Target.Contains t t
  | element {elements : List (Option Target)} {t u : Target} (ht : some t ∈ elements) (hu : t.Contains u) :
    Target.Contains (.array elements) u
  | member {members : List (String × Target)} {key : String} {t u : Target} (ht : (key, t) ∈ members)
    (hu : t.Contains u) : Target.Contains (.object members) u

/-- A target is no higher than the elements that it is one of. -/
theorem height_le_elementsHeight {elements : List (Option Target)} {t : Target} (ht : some t ∈ elements) :
    t.height ≤ elementsHeight elements := by
  induction elements with
  | nil => cases ht
  | cons element? rest ih =>
    obtain rfl | hrest := List.mem_cons.mp ht
    · exact Nat.le_max_left _ _
    · cases element? with
      | none => exact ih hrest
      | some u => exact Nat.le_trans (ih hrest) (Nat.le_max_right _ _)

theorem height_le_targetsHeight {members : List (String × Target)} {key : String} {t : Target}
    (ht : (key, t) ∈ members) : t.height ≤ targetsHeight members := by
  induction members with
  | nil => cases ht
  | cons member rest ih =>
    obtain rfl | hrest := List.mem_cons.mp ht
    · exact Nat.le_max_left _ _
    · exact Nat.le_trans (ih hrest) (Nat.le_max_right _ _)

theorem Target.height_pos (t : Target) : 0 < t.height := by
  cases t <;> exact Nat.succ_pos _

/-- A target that can be read as an expression on `n` levels: its names are no words that mean something else
there. -/
structure Target.IsReadable (n : Nat) (t : Target) : Prop where
  height_le : t.height ≤ n
  names : ∀ x, t.Contains (.name x) → x ∉ ["undefined", "await"]

theorem Target.IsReadable.element {n : Nat} {elements : List (Option Target)} {t : Target}
    (h : (Target.array elements).IsReadable (n + 1)) (ht : some t ∈ elements) : t.IsReadable n where
  height_le := Nat.le_trans (height_le_elementsHeight ht) (Nat.le_of_succ_le_succ h.height_le)
  names x hx := h.names x (.element ht hx)

theorem Target.IsReadable.member {n : Nat} {members : List (String × Target)} {key : String} {t : Target}
    (h : (Target.object members).IsReadable (n + 1)) (ht : (key, t) ∈ members) : t.IsReadable n where
  height_le := Nat.le_trans (height_le_targetsHeight ht) (Nat.le_of_succ_le_succ h.height_le)
  names x hx := h.names x (.member ht hx)

namespace Parse

/-- A mark that comes next is passed. -/
theorem eatMark_of {m : String} {s : Input} (h : isMarkToken m (tokenOf s.rest) = true) :
    ∃ line more, s.rest = ⟨.mark m, line⟩ :: more ∧
      eatMark m s = .ok (true, { s with rest := more, previousLine := line }) := by
  obtain ⟨rest, size, previous, noIn⟩ := s
  cases rest with
  | nil => cases h
  | cons p more =>
    obtain ⟨token, line⟩ := p
    cases token with
    | mark m' =>
      obtain rfl := eq_of_beq h
      refine ⟨line, more, rfl, ?_⟩
      have hat : atMark m' ⟨⟨.mark m', line⟩ :: more, size, previous, noIn⟩ =
          .ok (true, ⟨⟨.mark m', line⟩ :: more, size, previous, noIn⟩) :=
        congrArg (fun b => Except.ok (b, _)) h
      exact (parse_bind _ _ hat).trans rfl
    | _ => cases h

inductive EndsPart (close : String) : List Placed → Prop
  | comma (line : Nat) (more : List Placed) : EndsPart close (⟨.mark ",", line⟩ :: more)
  | close (line : Nat) (more : List Placed) : EndsPart close (⟨.mark close, line⟩ :: more)

section Mirroring

variable {α β : Type} {f : α → β} {Good : α → Prop} {p : Parse α} {q : Parse β} {close : String}

def Mirrored (close : String) (f : α → β) (Good : α → Prop) (p : Parse α) (q : Parse β) : Prop :=
  ∀ s a t, p s = .ok (a, t) → Good a → EndsPart close t.rest → q s = .ok (f a, t)

def MirroredRound (f : α → β) (Good : α → Prop) (step : List α → Parse (Step (List α) (List α)))
    (step' : List β → Parse (Step (List β) (List β))) : Prop :=
  ∀ done s r t, step done s = .ok (r, t) →
    match r with
    | .done parts => parts = done.reverse ∧ step' (done.map f) s = .ok (.done (parts.map f), t)
    | .more done' => ∃ a, done' = a :: done ∧ (Good a → step' (done.map f) s = .ok (.more (done'.map f), t))

/-- By induction on the rounds; the parts that have been read are among all the parts in the end. -/
theorem iterate_mirrored {step : List α → Parse (Step (List α) (List α))}
    {step' : List β → Parse (Step (List β) (List β))} (hround : MirroredRound f Good step step') {n : Nat}
    {done parts : List α} {s t : Input} (h : iterate step n done s = .ok (parts, t)) :
    (∀ a ∈ done, a ∈ parts) ∧
      ((∀ a ∈ parts, Good a) → iterate step' n (done.map f) s = .ok (parts.map f, t)) := by
  induction n generalizing done s with
  | zero => cases h
  | succ n ih =>
    obtain ⟨r, u, hstep, hrest⟩ := of_parse_bind h
    have hr := hround done s r u hstep
    cases r with
    | done parts' =>
      obtain ⟨rfl, hstep'⟩ := hr
      cases hrest
      exact ⟨fun a ha => List.mem_reverse.mpr ha, fun _ => (parse_bind _ _ hstep').trans rfl⟩
    | more done' =>
      obtain ⟨a, rfl, hstep'⟩ := hr
      -- The part that has just been read is among all of them, so what is asked of all is asked of it.
      obtain ⟨hmem, hread⟩ := ih hrest
      refine ⟨fun b hb => hmem b (List.mem_cons_of_mem _ hb), fun hgood => ?_⟩
      exact (parse_bind _ _ (hstep' (hgood a (hmem a List.mem_cons_self)))).trans (hread hgood)

/-- What separates a part from the next one is the same for all lists. -/
theorem separated {x : α} {done : List α} {s t : Input} {r : Step (List α) (List α)}
    (h : (do
      unless ← atMark close do expectMark ","
      return .more (x :: done) : Parse (Step (List α) (List α))) s = .ok (r, t)) :
    EndsPart close s.rest ∧ r = .more (x :: done) ∧ ∀ (y : β) (done' : List β),
      (do
        unless ← atMark close do expectMark ","
        return .more (y :: done') : Parse (Step (List β) (List β))) s = .ok (.more (y :: done'), t) := by
  have hat (m : String) : atMark m s = .ok (isMarkToken m (tokenOf s.rest), s) := rfl
  -- Behind a part stands the closing mark, which stays, or a comma, which is passed.
  rw [parse_bind _ _ (hat close)] at h
  cases hclose : isMarkToken close (tokenOf s.rest) with
  | true =>
    rw [hclose] at h
    obtain ⟨line, more, hrest, -⟩ := eatMark_of hclose
    cases h
    refine ⟨hrest ▸ .close line more, rfl, fun y done' => ?_⟩
    rw [parse_bind _ _ (hat close), hclose]
    rfl
  | false =>
    rw [hclose] at h
    obtain ⟨⟨⟩, u, hexpect, hdone⟩ := of_parse_bind h
    cases hdone
    have hcomma : isMarkToken "," (tokenOf s.rest) = true := by
      cases hcomma : isMarkToken "," (tokenOf s.rest) with
      | true => rfl
      | false =>
        unfold expectMark at hexpect
        rw [parse_bind _ _ (eatMark_of_not hcomma)] at hexpect
        cases hexpect
    obtain ⟨line, more, hrest, -⟩ := eatMark_of hcomma
    refine ⟨hrest ▸ .comma line more, rfl, fun y done' => ?_⟩
    rw [parse_bind _ _ (hat close), hclose]
    exact (parse_bind _ _ hexpect).trans rfl

/-- A list of elements that mirror each other is read alike. -/
theorem mirroredRound_list (hpart : Mirrored close f Good p q) :
    MirroredRound f Good (listRound close p) (listRound close q) := by
  intro done s r t h
  unfold listRound at h ⊢
  cases hclose : isMarkToken close (tokenOf s.rest) with
  | true =>
    obtain ⟨line, more, -, heat⟩ := eatMark_of hclose
    rw [parse_bind _ _ heat] at h
    cases h
    refine ⟨rfl, ?_⟩
    rw [parse_bind _ _ heat, List.map_reverse]
    rfl
  | false =>
    rw [parse_bind _ _ (eatMark_of_not hclose), if_neg Bool.false_ne_true] at h
    obtain ⟨x, u, hp, hrest⟩ := of_parse_bind h
    obtain ⟨hends, rfl, hmore⟩ := separated (β := β) hrest
    refine ⟨x, rfl, fun hgood => ?_⟩
    rw [parse_bind _ _ (eatMark_of_not hclose), if_neg Bool.false_ne_true,
      parse_bind _ _ (hpart s x u hp hgood hends)]
    exact hmore _ _

/-- Where no part is left out, a list that may leave out parts is read like any other. -/
theorem holesRound_eq_listRound (hole : α) (p : Parse α) (done : List α) {s : Input}
    (h : isMarkToken close (tokenOf s.rest) = false → isMarkToken "," (tokenOf s.rest) = false) :
    holesRound close hole p done s = listRound close p done s := by
  unfold holesRound listRound
  cases hclose : isMarkToken close (tokenOf s.rest) with
  | true =>
    obtain ⟨line, more, -, heat⟩ := eatMark_of hclose
    rw [parse_bind _ _ heat, parse_bind _ _ heat]
    rfl
  | false =>
    rw [parse_bind _ _ (eatMark_of_not hclose), parse_bind _ _ (eatMark_of_not hclose),
      if_neg Bool.false_ne_true, if_neg Bool.false_ne_true, parse_bind _ _ (eatMark_of_not (h hclose))]
    rfl

/-- So is one with elements left out. -/
theorem mirroredRound_holes (hpart : Mirrored close f Good p q) (hole : α) :
    MirroredRound f Good (holesRound close hole p) (holesRound close (f hole) q) := by
  intro done s r t h
  by_cases hnone : isMarkToken close (tokenOf s.rest) = false → isMarkToken "," (tokenOf s.rest) = false
  · rw [holesRound_eq_listRound _ _ _ hnone] at h
    simp only [holesRound_eq_listRound _ _ _ hnone]
    exact mirroredRound_list hpart done s r t h
  · obtain ⟨hclose, hcomma⟩ := Classical.not_imp.mp hnone
    obtain ⟨line, more, -, heat⟩ := eatMark_of (Bool.not_eq_false _ ▸ hcomma)
    unfold holesRound at h ⊢
    rw [parse_bind _ _ (eatMark_of_not hclose), if_neg Bool.false_ne_true, parse_bind _ _ heat] at h
    cases h
    refine ⟨hole, rfl, fun _ => ?_⟩
    rw [parse_bind _ _ (eatMark_of_not hclose), if_neg Bool.false_ne_true, parse_bind _ _ heat]
    rfl

end Mirroring

theorem EndsPart.endsOperand {close : String} {rest : List Placed} (h : EndsPart close rest)
    (hclose : ∀ line more, EndsOperand (⟨.mark close, line⟩ :: more)) : EndsOperand rest := by
  cases h with
  | comma line more => exact .comma line more
  | close line more => exact hclose line more

def memberTarget (fuel : Nat) : Parse (String × Target) := do
  let key ← memberName
  if ← eatMark ":" then return (key, ← targetWithin fuel)
  return (key, Target.name key)

/-- What a target that has been read begins with. -/
theorem targetWithin_cases {fuel : Nat} {s s' : Input} {t : Target} (h : targetWithin (fuel + 1) s = .ok (t, s')) :
    (∃ line more elements, s.rest = ⟨.mark "[", line⟩ :: more ∧ t = .array elements ∧
      listWithHoles "]" none (some <$> targetWithin fuel) { s with rest := more, previousLine := line } =
        .ok (elements, s')) ∨
    (∃ line more members, s.rest = ⟨.mark "\x7b", line⟩ :: more ∧ t = .object members ∧
      listUntil "\x7d" (memberTarget fuel) { s with rest := more, previousLine := line } = .ok (members, s')) ∨
    (∃ name, t = .name name ∧ expectName s = .ok (name, s')) := by
  unfold targetWithin at h
  cases hbracket : isMarkToken "[" (tokenOf s.rest) with
  | true =>
    obtain ⟨line, more, hrest, heat⟩ := eatMark_of hbracket
    rw [parse_bind _ _ heat] at h
    obtain ⟨elements, u, hlist, hdone⟩ := of_parse_bind h
    cases hdone
    exact .inl ⟨line, more, elements, hrest, rfl, hlist⟩
  | false =>
    rw [parse_bind _ _ (eatMark_of_not hbracket), if_neg Bool.false_ne_true] at h
    cases hbrace : isMarkToken "\x7b" (tokenOf s.rest) with
    | true =>
      obtain ⟨line, more, hrest, heat⟩ := eatMark_of hbrace
      rw [parse_bind _ _ heat] at h
      obtain ⟨members, u, hlist, hdone⟩ := of_parse_bind h
      cases hdone
      exact .inr (.inl ⟨line, more, members, hrest, rfl, hlist⟩)
    | false =>
      rw [parse_bind _ _ (eatMark_of_not hbrace), if_neg Bool.false_ne_true] at h
      obtain ⟨name, u, hname, hdone⟩ := of_parse_bind h
      cases hdone
      exact .inr (.inr ⟨name, rfl, hname⟩)

/-- A name is read only from a word that may be one. -/
theorem expectName_cases {s t : Input} {name : String} (h : expectName s = .ok (name, t)) :
    ∃ line more, s.rest = ⟨.word name, line⟩ :: more ∧ t = { s with rest := more, previousLine := line } ∧
      name ∉ reserved := by
  obtain ⟨rest, size, previous, noIn⟩ := s
  cases rest with
  | nil => cases h
  | cons p more =>
    obtain ⟨token, line⟩ := p
    cases token with
    | word name' =>
      have hread : expectName ⟨⟨.word name', line⟩ :: more, size, previous, noIn⟩ =
          (if reserved.contains name' then unexpected else do
            advance
            return name' : Parse String) ⟨⟨.word name', line⟩ :: more, size, previous, noIn⟩ :=
        parse_bind (Token.word name') _ rfl
      rw [hread] at h
      cases hreserved : reserved.contains name' with
      | true =>
        rw [hreserved] at h
        cases h
      | false =>
        rw [hreserved] at h
        cases h
        exact ⟨line, more, rfl, rfl, fun hmem => by rw [List.contains_iff_mem.mpr hmem] at hreserved; cases hreserved⟩
    | _ => cases h

/-- The word `async` is passed only in front of a function. -/
theorem skipAsync_of_not {s : Input} (h : isWordToken "async" (tokenOf s.rest) = true →
    isWordToken "function" (tokenOf s.rest.tail) = false) : skipAsync s = .ok ((), s) := by
  have hat : atWord "async" s = .ok (isWordToken "async" (tokenOf s.rest), s) := rfl
  refine (parse_bind _ _ hat).trans ?_
  cases hasync : isWordToken "async" (tokenOf s.rest) with
  | false => rfl
  | true =>
    refine (parse_bind (tokenOf s.rest.tail) s rfl).trans ?_
    rw [h hasync]
    rfl

theorem startsArrow_of_endsTarget {rest : List Placed} (h : EndsTarget rest) : startsArrow rest = false := by
  rcases h with (_ | _ | _ | _ | _) | _ <;> rfl

structure LeavesName (rest : List Placed) : Prop where
  noParameter : isMarkToken "=>" (tokenOf rest) = false
  noKeyword : isWordToken "function" (tokenOf rest) = false

theorem EndsTarget.leavesName {rest : List Placed} (h : EndsTarget rest) : LeavesName rest := by
  rcases h with (_ | _ | _ | _ | _) | _ <;> exact ⟨rfl, rfl⟩

/-- A name that is declared is read as a name. -/
theorem primary_name {d : Descent} {s t : Input} {name : String} (h : expectName s = .ok (name, t))
    (hname : name ∉ ["undefined", "await"]) (hrest : LeavesName t.rest)
    (hasync : name = "async" → startsArrow t.rest = false) :
    LeadsOperand s.rest ∧ primary d s = .ok (.name name, t) := by
  obtain ⟨line, more, htokens, rfl, hreserved⟩ := expectName_cases h
  have hplain : name ∉ reserved ++ ["undefined", "await"] :=
    fun hmem => (List.mem_append.mp hmem).elim hreserved hname
  replace hrest : LeavesName more := hrest
  constructor
  · -- A name is none of the words that begin another kind of operand.
    have hoperators : ["new", "await", "typeof", "void", "delete"] ⊆ reserved ++ ["undefined", "await"] := by decide
    rw [htokens]
    refine ⟨.word fun hmem => hplain (hoperators hmem), ?_, fun hword => hasync (eq_of_beq hword)⟩
    change (!reserved.contains name && isMarkToken "=>" (tokenOf more)) = false
    rw [hrest.noParameter, Bool.and_false]
  · have hskip : skipAsync s = .ok ((), s) := by
      refine skipAsync_of_not fun _ => ?_
      rw [htokens]
      exact hrest.noKeyword
    have hword : wordExpr d name = (do return .name (← expectName) : Parse Expr) := by
      unfold wordExpr
      split
      case h_9 => rfl
      all_goals exact absurd (by decide) hplain
    have hpeek : peek s = .ok (.word name, s) := by
      change Except.ok (tokenOf s.rest, s) = _
      rw [htokens]
      rfl
    refine (parse_bind _ _ hskip).trans ((parse_bind _ _ hpeek).trans ?_)
    change wordExpr d name s = _
    rw [hword]
    exact (parse_bind _ _ h).trans rfl

/-- A member may be named by any word. -/
theorem memberName_cases {s t : Input} {key : String} (h : memberName s = .ok (key, t)) :
    ∃ line more, s.rest = ⟨.word key, line⟩ :: more ∧ t = { s with rest := more, previousLine := line } := by
  obtain ⟨rest, size, previous, noIn⟩ := s
  cases rest with
  | nil => cases h
  | cons p more =>
    obtain ⟨token, line⟩ := p
    cases token with
    | word key' =>
      cases h
      exact ⟨line, more, rfl, rfl⟩
    | _ => cases h

/-- A member of an object whose key is a word that a mark follows: a value follows, or the key is a name. -/
theorem member_of_key {d : Descent} {key : String} {line size previous : Nat} {more : List Placed} {noIn : Bool}
    (hmark : isAnyMark (tokenOf more) = true) (hcall : isMarkToken "(" (tokenOf more) = false) :
    member d ⟨⟨.word key, line⟩ :: more, size, previous, noIn⟩ = (do
      if ← eatMark ":" then return .init (.named key) (← d.assignment)
      return .init (.named key) (.name key) : Parse Member) ⟨more, size, line, noIn⟩ := by
  refine (parse_bind _ _ (eatMark_of_not rfl)).trans ?_
  -- In front of a mark the word `async` is a key like all others.
  refine (parse_bind (key == "async") _ rfl).trans ?_
  refine (parse_bind (tokenOf more) _ rfl).trans ?_
  rw [hmark, Bool.not_true, Bool.and_false]
  refine (parse_bind (Key.named key) ⟨more, size, line, noIn⟩ rfl).trans ?_
  refine (parse_bind (isMarkToken "(" (tokenOf more)) _ rfl).trans ?_
  rw [hcall]
  rfl

section Reading

variable {fuel n : Nat}
  (htarget : ∀ s t s', targetWithin fuel s = .ok (t, s') → t.IsReadable n → EndsOperand s'.rest →
    LeadsOperand s.rest ∧ (descent n).assignment s = .ok (t.literal, s'))
include htarget

theorem mirrored_item : Mirrored "]" (fun element? => .mk false (elementLiteral element?))
    (fun element? => ∀ t, element? = some t → t.IsReadable n) (some <$> targetWithin fuel)
    (item (descent n)) := by
  intro s element? s' h hgood hends
  obtain ⟨t, hread, rfl⟩ := of_parse_map h
  obtain ⟨hlead, hassignment⟩ := htarget s t s' hread (hgood t rfl) (hends.endsOperand .bracket)
  have hspread : eatMark "..." s = .ok (false, s) := eatMark_of_not (hlead.begins.isMarkToken (by decide))
  exact (parse_bind _ _ hspread).trans ((parse_bind _ _ hassignment).trans rfl)

/-- A member of a pattern is read as a member of an object with a target for its value. -/
theorem mirrored_member : Mirrored "\x7d" (fun member => .init (.named member.1) member.2.literal)
    (fun member => member.2.IsReadable n) (memberTarget fuel) (member (descent n)) := by
  intro s a s' h hgood hends
  obtain ⟨key, u, hkey, hvalue⟩ := of_parse_bind h
  obtain ⟨rest, size, previous, noIn⟩ := s
  obtain ⟨line, more, rfl, rfl⟩ := memberName_cases hkey
  cases hcolon : isMarkToken ":" (tokenOf more) with
  | true =>
    obtain ⟨colonLine, tokens, rfl, heat⟩ := eatMark_of (s := ⟨more, size, line, noIn⟩) hcolon
    rw [parse_bind _ _ heat] at hvalue
    obtain ⟨t, u, hread, hdone⟩ := of_parse_bind hvalue
    cases hdone
    rw [member_of_key rfl rfl, parse_bind _ _ heat]
    exact (parse_bind _ _ (htarget _ t s' hread hgood (hends.endsOperand .brace)).2).trans rfl
  | false =>
    have heat : eatMark ":" ⟨more, size, line, noIn⟩ = .ok (false, ⟨more, size, line, noIn⟩) :=
      eatMark_of_not hcolon
    rw [parse_bind _ _ heat] at hvalue
    cases hvalue
    have hmark : isAnyMark (tokenOf more) = true ∧ isMarkToken "(" (tokenOf more) = false := by
      cases hends <;> exact ⟨rfl, rfl⟩
    rw [member_of_key hmark.1 hmark.2, parse_bind _ _ heat]
    rfl

end Reading

/-- What is read as a target is read as its literal: by induction on the fuel, as everything inside is an
expression that ends where the target does. -/
theorem primary_target {fuel n : Nat} {s s' : Input} {t : Target} (h : targetWithin fuel s = .ok (t, s'))
    (ht : t.IsReadable (n + 1)) (hrest : EndsTarget s'.rest) :
    LeadsOperand s.rest ∧ primary (descent n) s = .ok (t.literal, s') := by
  induction fuel generalizing n s s' t with
  | zero => cases h
  | succ fuel ih =>
    have htarget (s : Input) (t : Target) (s' : Input) (h : targetWithin fuel s = .ok (t, s'))
        (ht : t.IsReadable n) (hrest : EndsOperand s'.rest) :
        LeadsOperand s.rest ∧ (descent n).assignment s = .ok (t.literal, s') := by
      -- On no level is anything read, but every target is at least one level high.
      cases n with
      | zero => exact absurd ht.height_le (Nat.not_le_of_lt t.height_pos)
      | succ n =>
        obtain ⟨hlead, hread⟩ := ih h ht (.operand hrest)
        exact ⟨hlead, assignment_of_primary hlead hrest hread⟩
    obtain ⟨rest, size, previous, noIn⟩ := s
    obtain ⟨line, more, elements, rfl, rfl, hlist⟩ | ⟨line, more, members, rfl, rfl, hlist⟩ |
      ⟨name, rfl, hname⟩ := targetWithin_cases h
    · refine ⟨⟨.mark (by decide), rfl, nofun⟩, ?_⟩
      have hitems := (iterate_mirrored (mirroredRound_holes (mirrored_item htarget) none) hlist).2
        fun element? hmem t heq => ht.element (heq ▸ hmem)
      have hliteral : primary (descent n) ⟨⟨.mark "[", line⟩ :: more, size, previous, noIn⟩ =
          (do return .array (← arrayItems (descent n)) : Parse Expr) ⟨more, size, line, noIn⟩ := rfl
      rw [hliteral, Target.literal, elementLiterals_eq_map]
      exact parse_bind _ _ hitems
    · refine ⟨⟨.mark (by decide), rfl, nofun⟩, ?_⟩
      have hmembers := (iterate_mirrored (mirroredRound_list (mirrored_member htarget)) hlist).2
        fun ⟨key, u⟩ hmem => ht.member hmem
      have hliteral : primary (descent n) ⟨⟨.mark "\x7b", line⟩ :: more, size, previous, noIn⟩ =
          (do return .object (← listUntil "\x7d" (member (descent n))) : Parse Expr) ⟨more, size, line, noIn⟩ := rfl
      rw [hliteral, Target.literal, memberLiterals_eq_map]
      exact parse_bind _ _ hmembers
    · exact primary_name hname (ht.names name (.itself _)) hrest.leavesName
        fun _ => startsArrow_of_endsTarget hrest

theorem isAssignable_literal (t : Target) : isAssignable none t.literal = true := by
  cases t <;> rfl

/-- What a declaration reads as a target and its value, an assignment reads as one to the literal of the
target. -/
theorem assignment_of_initialized {n : Nat} {s u v : Input} {t : Target} {e : Expr} (h : target s = .ok (t, u))
    (ht : t.IsReadable (n + 1)) (hvalue : initializer (descent n) u = .ok (some e, v)) :
    assignment (descent n) s = .ok (.assign none t.literal e, v) := by
  obtain ⟨rest, size, previous, noIn⟩ := u
  cases hequals : isMarkToken "=" (tokenOf rest) with
  | false =>
    unfold initializer at hvalue
    rw [parse_bind _ _ (eatMark_of_not hequals)] at hvalue
    cases hvalue
  | true =>
    obtain ⟨line, more, rfl, heat⟩ := eatMark_of (s := ⟨rest, size, previous, noIn⟩) hequals
    unfold initializer at hvalue
    rw [parse_bind _ _ heat] at hvalue
    obtain ⟨e', w, hread, hdone⟩ := of_parse_bind hvalue
    cases hdone
    obtain ⟨hlead, hprimary⟩ := primary_target h ht (.equals line more)
    rw [assignment_of_conditional hlead (conditional_of_primary hlead.begins (.target (.equals line more)) hprimary)]
    refine (parse_bind (Token.mark "=") _ rfl).trans ?_
    simp only [assignOf?, isAssignable_literal]
    exact (parse_bind _ _ rfl).trans ((parse_bind _ _ hread).trans rfl)

end Parse

end Snippet.Script
