import Snippet.Proofs.LoopRounds
import Snippet.Proofs.PatternReading
import Snippet.Proofs.VariableValue

/-!
Loops over elements or keys whose head names a variable without declaring one. They are read as if the head
declared it with `let`: every round has a variable of its own, and the one of that name that there is already
stays as it is.
-/

namespace Snippet.Script

namespace Parse

structure NamesLoop (name : String) (rest : List Placed) : Prop where
  -- A name that may stand in the head of a loop over elements or keys, in front of what is left to
  -- read.
  plain : name ∉ reserved ++ ["undefined", "await"]
  /-- What follows makes no parameter of an asynchronous function of the next word. -/
  noParameter : name = "async" → isMarkToken "=>" (tokenOf rest) = false

variable {n : Nat} {d : Descent} {name w : String} {more : List Placed}

/-- The name of a loop is read as any name is. -/
theorem NamesLoop.expectName (h : NamesLoop name more) (line size previous : Nat) (rest : List Placed)
    (noIn : Bool) :
    expectName ⟨⟨.word name, line⟩ :: rest, size, previous, noIn⟩ = .ok (name, ⟨rest, size, line, noIn⟩) := by
  have hnot : reserved.contains name = false := by
    refine Bool.eq_false_iff.mpr fun hmem => h.plain ?_
    exact List.mem_append_left _ (List.contains_iff_mem.mp hmem)
  refine (parse_bind (Token.word name) _ rfl).trans ?_
  dsimp only
  rw [hnot]
  rfl

/-- The name is all of the expression in front of the word. -/
theorem NamesLoop.read (h : NamesLoop name more) (hw : w ∈ ["of", "in"]) (line line' size previous : Nat) :
    expression (descent (n + 1)) ⟨⟨.word name, line⟩ :: ⟨.word w, line'⟩ :: more, size, previous, true⟩ =
      .ok (.name name, ⟨⟨.word w, line'⟩ :: more, size, line, true⟩) := by
  have hleaves : LeavesName (⟨.word w, line'⟩ :: more) := by
    simp only [List.mem_cons, List.not_mem_nil, or_false] at hw
    obtain rfl | rfl := hw <;> exact ⟨rfl, rfl⟩
  have hasync : name = "async" → startsArrow (⟨.word w, line'⟩ :: more) = false := by
    intro heq
    change (!reserved.contains w && isMarkToken "=>" (tokenOf more)) = false
    rw [h.noParameter heq, Bool.and_false]
  obtain ⟨hlead, hprimary⟩ := primary_name (d := descent n)
    (h.expectName line size previous (⟨.word w, line'⟩ :: more) true)
    (fun hmem => h.plain (List.mem_append_right _ hmem)) hleaves hasync
  have hassignment : assignment (descent n)
      ⟨⟨.word name, line⟩ :: ⟨.word w, line'⟩ :: more, size, previous, true⟩ =
        .ok (.name name, ⟨⟨.word w, line'⟩ :: more, size, line, true⟩) :=
    assignment_of_conditional hlead
      (conditional_of_primary hlead.begins (.word hw line' more size line) hprimary)
  exact (parse_bind _ _ hassignment).trans rfl

/-- Behind the word in its head a loop over elements or keys is certain. -/
theorem forEachTail?_word (hw : w ∈ ["of", "in"]) {kind : DeclKind} {t : Target} {line size previous : Nat}
    {noIn : Bool} {r : Option Stmt} {s : Input}
    (h : forEachTail? d kind t ⟨⟨.word w, line⟩ :: more, size, previous, noIn⟩ = .ok (r, s)) :
    ∃ subject body, r = some (.forEach (w == "in") kind t subject body) := by
  have htail (keys : Bool) (h : (do
      let subject ← expression d
      expectMark ")"
      let body ← d.statement
      return some (.forEach keys kind t subject body) : Parse (Option Stmt)) ⟨more, size, line, noIn⟩ =
        .ok (r, s)) : ∃ subject body, r = some (.forEach keys kind t subject body) := by
    obtain ⟨subject, _, -, h⟩ := of_parse_bind h
    obtain ⟨-, _, -, h⟩ := of_parse_bind h
    obtain ⟨body, _, -, h⟩ := of_parse_bind h
    cases h
    exact ⟨subject, body, rfl⟩
  simp only [List.mem_cons, List.not_mem_nil, or_false] at hw
  obtain rfl | rfl := hw
  · exact htail false h
  · exact htail true h

theorem parse_bind_congr {α β : Type} {p : Parse α} {f g : α → Parse β} {s : Input}
    (h : ∀ a t, p s = .ok (a, t) → f a t = g a t) : (p >>= f) s = (p >>= g) s := by
  change StateT.bind p f s = StateT.bind p g s
  unfold StateT.bind
  cases hp : p s with
  | error e => rfl
  | ok r => exact h r.1 r.2 hp

/-- A loop over elements or keys is read in the same way whether its head declares its variable by `let` or
only names it. -/
theorem forStatement_named (h : NamesLoop name more) (hw : w ∈ ["of", "in"]) (l₀ l₁ l₂ l₃ l₄ size previous : Nat) :
    forStatement (descent (n + 1)) ⟨⟨.word "for", l₀⟩ :: ⟨.mark "(", l₁⟩ :: ⟨.word name, l₃⟩ ::
        ⟨.word w, l₄⟩ :: more, size, previous, false⟩ =
      forStatement (descent (n + 1)) ⟨⟨.word "for", l₀⟩ :: ⟨.mark "(", l₁⟩ :: ⟨.word "let", l₂⟩ ::
        ⟨.word name, l₃⟩ :: ⟨.word w, l₄⟩ :: more, size, previous, false⟩ := by
  have hplain : name ∉ reserved := fun hmem => h.plain (List.mem_append_left _ hmem)
  have hkind : declKindOf? (.word name) = none := by
    unfold declKindOf?
    split
    case h_4 => rfl
    all_goals
      next heq =>
      cases heq
      exact absurd (by decide) hplain
  have hexpr := h.read (n := n) hw l₃ l₄ size l₁
  have htarget : target ⟨⟨.word name, l₃⟩ :: ⟨.word w, l₄⟩ :: more, size, l₂, false⟩ =
      .ok (.name name, ⟨⟨.word w, l₄⟩ :: more, size, l₃, false⟩) := by
    refine (parse_bind _ _ (eatMark_of_not rfl)).trans ((parse_bind _ _ (eatMark_of_not rfl)).trans ?_)
    exact (parse_bind _ _ (h.expectName l₃ size l₂ _ false)).trans rfl
  unfold forStatement
  refine ((parse_bind () _ rfl).trans ((parse_bind () _ rfl).trans ((parse_bind false _ rfl).trans
    (parse_bind (Token.word name) _ rfl)))).trans ?_
  rw [hkind]
  refine ((parse_bind () _ rfl).trans ((parse_bind _ _ hexpr).trans (parse_bind () _ rfl))).trans (Eq.symm ?_)
  refine ((parse_bind () _ rfl).trans ((parse_bind () _ rfl).trans ((parse_bind false _ rfl).trans
    ((parse_bind (Token.word "let") _ rfl).trans ((parse_bind () _ rfl).trans (parse_bind _ _ htarget)))))).trans ?_
  -- What is left to read is the same, and it begins with the word that makes the loop certain.
  refine parse_bind_congr fun r t hr => ?_
  obtain ⟨subject, body, rfl⟩ := forEachTail?_word hw hr
  rfl

end Parse

structure RoundBinds (x : String) (v : Value) (outer s : ScopeRef) (m m' : Machine) : Prop where
  isNew : m.heap.scopes.size ≤ s.address
  isRound : m'.heap.IsRound outer s
  bound : m'.heap.own? s x = some ⟨v, true⟩
  others : ∀ t, t ≠ s → m'.heap.scope t = m.heap.scope t

/-- Where every name may be declared, all scopes outlast a declaration. -/
theorem Heap.outlasts_declare (h : Heap) (s : ScopeRef) (name : String) (b : Binding) :
    h.Outlasts (fun _ _ => True) (h.declare s name b) :=
  (Heap.Outlasts.refl h).declare s name b (fun _ _ hd => absurd trivial hd) (fun _ _ hd => absurd trivial hd)
    fun _ _ hd => absurd trivial hd

/-- A round binds the name in a scope of its own, in which the body is executed. -/
theorem run_forEach_cons (ev : Evaluator) (x : String) (body : Stmt) {outer : ScopeRef} (v : Value)
    (rest : List Value) {m m₀ : Machine} (hg : m.heap.Rooted globalScope) (ho : m.heap.Rooted outer)
    (hpass : Run.checkpoint m = .ok () m₀) :
    ∃ s m₁, RoundBinds x v outer s m₀ m₁ ∧ Run.forEach ev true (.name x) body outer (v :: rest) m =
      (ev.exec body s >>= Run.afterRound (Run.forEach ev true (.name x) body outer rest)) m₁ := by
  have hheap : m₀.heap = m.heap := by
    unfold Run.checkpoint at hpass
    split at hpass
    · cases hpass
    · cases hpass
      rfl
  -- The scope of the round is the next one, in which the name is then declared.
  have hmade := Heap.IsRound.made (hheap ▸ hg) (hheap ▸ ho) []
  refine ⟨⟨m₀.heap.scopes.size⟩, { m₀ with
      heap := Heap.declare { m₀.heap with scopes := m₀.heap.scopes.push { parent := some outer } }
        ⟨m₀.heap.scopes.size⟩ x ⟨v, true⟩
      charged := m₀.charged + 64 }, ⟨Nat.le_refl _, ?_, ?_, fun t ht => ?_⟩, ?_⟩
  · exact hmade.outlasts (Heap.outlasts_declare _ _ _ _)
  · exact (Heap.own?_declare hmade.lt_size).trans (if_pos ⟨rfl, rfl⟩)
  · have hne : t.address ≠ m₀.heap.scopes.size := fun heq => ht (congrArg ScopeRef.mk heq)
    refine (Heap.scope_declare _ _ _ _ _).trans ?_
    rw [if_neg fun hc => ht hc.1]
    exact Heap.scope_push_of_ne hne
  · refine (run_bind_ok hpass).trans ((run_bind_ok rfl).trans ((run_bind_ok rfl).trans ?_))
    refine congrFun (congrArg (ev.exec body _ >>= ·) (funext fun flow => ?_)) _
    cases flow <;> rfl

theorem keepsBinding_forEach {m : Machine} (hdepth : m.callDepth ≤ maxCallDepth) (o : ScopeRef) (x : String)
    (keys : Bool) (subject : Expr) (body : Stmt) (outer : ScopeRef) (n : Nat) :
    KeepsBinding o x m (fun ev => ev.exec (.forEach keys .letDecl (.name x) subject body) outer) n :=
  KeepsBinding.of_sustains hdepth
    (fun _ _ h => h.exec _ trivial fun _ hmem => absurd hmem List.not_mem_nil)
    (fun _ _ _ h => h.exec _ outer trivial) n

/-- What a loop over elements or keys whose head names a variable, but does not declare one, does about a
variable of that name that there is already. -/
structure LoopsNameTheirOwn (x : String) : Prop where
  /-- The head is read as if it declared the variable. -/
  read : ∀ n w more l₀ l₁ l₂ l₃ l₄ size previous, Parse.NamesLoop x more → w ∈ ["of", "in"] →
    Parse.forStatement (Parse.descent (n + 1)) ⟨⟨.word "for", l₀⟩ :: ⟨.mark "(", l₁⟩ :: ⟨.word x, l₃⟩ ::
        ⟨.word w, l₄⟩ :: more, size, previous, false⟩ =
      Parse.forStatement (Parse.descent (n + 1)) ⟨⟨.word "for", l₀⟩ :: ⟨.mark "(", l₁⟩ :: ⟨.word "let", l₂⟩ ::
        ⟨.word x, l₃⟩ :: ⟨.word w, l₄⟩ :: more, size, previous, false⟩
  /-- A round begins with a variable of its own. -/
  round : ∀ ev body outer v rest (m m₀ : Machine), m.heap.Rooted globalScope → m.heap.Rooted outer →
    Run.checkpoint m = .ok () m₀ →
    ∃ s m₁, RoundBinds x v outer s m₀ m₁ ∧ Run.forEach ev true (.name x) body outer (v :: rest) m =
      (ev.exec body s >>= Run.afterRound (Run.forEach ev true (.name x) body outer rest)) m₁
  /-- For good, from within the round the name is a variable that was not there before it. -/
  inside : ∀ declares (h h' : Heap) outer s t b, h.IsRound outer s → h.own? s x = some b →
    h.Outlasts declares h' → h'.Within s t → h'.Rooted t →
    ∃ o c, h'.Sees x t o c ∧ s.address ≤ o.address
  /-- The loop as a whole keeps the variables of all scopes, up to where the script assigns one of them. -/
  kept : ∀ n keys subject body outer (m : Machine) o, m.callDepth ≤ maxCallDepth →
    KeepsBinding o x m (fun ev => ev.exec (.forEach keys .letDecl (.name x) subject body) outer) n
  /-- After it the name has the value that it had before, for all that see it. -/
  seen : ∀ n keys subject body outer (m m' : Machine) flow t o b, m.callDepth ≤ maxCallDepth →
    m.heap.Sees x t o b →
    ¬ CutOff ((evaluatorSparing o x n).exec (.forEach keys .letDecl (.name x) subject body) outer m) →
    (evaluator n).exec (.forEach keys .letDecl (.name x) subject body) outer m = .ok flow m' →
    m'.heap.Sees x t o b ∧ ∀ k, (evaluator (k + 1)).eval (.name x) t m' = .ok b.value m'

/-- A loop over a bare name declares it, whatever names of that kind there are around. -/
theorem loops_name_their_own (x : String) : LoopsNameTheirOwn x where
  read _ _ _ l₀ l₁ l₂ l₃ l₄ size previous h hw := Parse.forStatement_named h hw l₀ l₁ l₂ l₃ l₄ size previous
  round ev body _ v rest _ _ hg ho hpass := run_forEach_cons ev x body v rest hg ho hpass
  inside declares h h' outer s t b hround hb hold hwithin ht := by
    obtain ⟨b', hb'⟩ := hold.bound s x b hround.lt_size hb
    obtain ⟨o, c, hsees, ho⟩ := hwithin.sees ht hb'
    exact ⟨o, c, hsees, (ht.of_sees hsees).le_of_within ho⟩
  kept n keys subject body outer m o hdepth := keepsBinding_forEach hdepth o x keys subject body outer n
  seen n keys subject body outer m m' flow t o b hdepth hsees hnot hok := by
    have hkept := keepsBinding_forEach hdepth o x keys subject body outer n
    have hsees' := hkept.sees hnot (.exec n _ outer) hsees fun _ _ _ hc => absurd hc.2 List.not_mem_nil
    rw [hok] at hsees'
    exact ⟨hsees', eval_name_of_sees hsees'⟩

/-- A loop that does not assign the variable around it is run to its end by evaluation that spares it. -/
example : ∃ m, (evaluatorSparing globalScope "x" 5).exec
    (.forEach false .letDecl (.name "x") (.array [.mk false (.bool true)]) (.block [])) globalScope
    (Machine.start "" 10) = .ok .normal m :=
  ⟨_, rfl⟩

/-- The variable that the head names is not assigned. -/
theorem named_variable_stays_undefined :
    (evaluate "let x; for (x of [1, 2, 3]) \x7b\x7d console.log(x);" "" ⟨20000⟩).bind Draft.output =
      some "undefined\n" := by
  decide +kernel

end Snippet.Script
