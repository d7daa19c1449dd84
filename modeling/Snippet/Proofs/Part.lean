import Snippet.Script.Height

/-!
The parts of syntax trees that evaluation reaches from them in one step. A part is never higher than what
it is part of.
-/

namespace Snippet.Script

inductive Part where
  | expr (e : Expr)
  | stmt (s : Stmt)
  | func (f : Func)
  /-- A call, whose function is not in sight. -/
  | call

def Part.height : Part → Nat
  | .expr e => e.height
  | .stmt s => s.height
  | .func f => f.height
  | .call => 0

def ClassDef.functions (c : ClassDef) : List Func :=
  c.constructor?.toList ++ (c.methods.map Prod.snd ++ c.statics.map Prod.snd)

def Key.parts : Key → List Part
  | .named _ => []
  | .computed e => [.expr e]

def Item.parts : Item → List Part
  | .mk _ e => [.expr e]

def Member.parts : Member → List Part
  | .init key e => key.parts ++ [.expr e]
  | .spread e => [.expr e]

def Piece.parts : Piece → List Part
  | .text _ => []
  | .value e => [.expr e]

def Param.parts : Param → List Part
  | .mk _ none _ => []
  | .mk _ (some e) _ => [.expr e]

def Body.parts : Body → List Part
  | .block statements => statements.map .stmt
  | .value e => [.expr e]

def Case.parts : Case → List Part
  | .mk none body => body.map .stmt
  | .mk (some test) body => .expr test :: body.map .stmt

def bindingParts : Target × Option Expr → List Part
  | (_, none) => []
  | (_, some e) => [.expr e]

def Expr.parts : Expr → List Part
  | .number _ | .string _ | .bool _ | .null | .undefined | .this | .name _ => []
  | .template pieces => pieces.flatMap Piece.parts
  | .array items => items.flatMap Item.parts
  | .object members => members.flatMap Member.parts
  | .function f => [.func f]
  | .classDef c => c.functions.map .func
  | .unary _ operand => [.expr operand]
  | .update _ _ target => [.expr target]
  | .binary _ left right => [.expr left, .expr right]
  | .logical _ left right => [.expr left, .expr right]
  | .assign _ target value => [.expr target, .expr value]
  | .conditional test yes no => [.expr test, .expr yes, .expr no]
  | .member subject key _ => .expr subject :: key.parts
  | .call callee arguments _ => .call :: .expr callee :: arguments.flatMap Item.parts
  | .construct callee arguments => .call :: .expr callee :: arguments.flatMap Item.parts
  | .sequence items => items.map .expr

def Func.parts (f : Func) : List Part := f.params.flatMap Param.parts ++ f.body.parts

def Stmt.parts : Stmt → List Part
  | .empty | .breaks | .continues => []
  | .expr e => [.expr e]
  | .decl _ bindings => bindings.flatMap bindingParts
  | .function f => [.func f]
  | .classDef c => c.functions.map .func
  | .returns value => value.toList.map .expr
  | .cond test yes no => .expr test :: .stmt yes :: no.toList.map .stmt
  | .whileLoop test body => [.expr test, .stmt body]
  | .doLoop body test => [.stmt body, .expr test]
  | .forLoop init test update body =>
    .stmt body :: (init.toList.map .stmt ++ (test.toList.map .expr ++ update.toList.map .expr))
  | .forEach _ _ _ subject body => [.expr subject, .stmt body]
  | .throws e => [.expr e]
  | .attempt body _ handler finalizer =>
    body.map .stmt ++ ((handler.getD []).map .stmt ++ (finalizer.getD []).map .stmt)
  | .select subject cases => .expr subject :: cases.flatMap Case.parts
  | .block statements => statements.map .stmt

theorem height_le_of_mem_key {key : Key} : ∀ p ∈ key.parts, p.height ≤ key.height := by
  intro p hp
  cases key with
  | named name => simp [Key.parts] at hp
  | computed e =>
    obtain rfl := List.mem_singleton.mp hp
    exact Nat.le_refl _

/-- What is in the pieces of a template is no higher than they are. -/
theorem height_le_of_mem_pieces {pieces : List Piece} :
    ∀ p ∈ pieces.flatMap Piece.parts, p.height ≤ piecesHeight pieces := by
  induction pieces with
  | nil => simp
  | cons piece rest ih =>
    intro p hp
    rw [List.flatMap_cons, List.mem_append] at hp
    cases piece with
    | text s =>
      obtain hp | hp := hp
      · simp [Piece.parts] at hp
      · exact ih p hp
    | value e =>
      obtain hp | hp := hp
      · obtain rfl := List.mem_singleton.mp hp
        exact Nat.le_max_left _ _
      · exact Nat.le_trans (ih p hp) (Nat.le_max_right _ _)

/-- What is in the elements of a list is no higher than they are. -/
theorem height_le_of_mem_items {items : List Item} :
    ∀ p ∈ items.flatMap Item.parts, p.height ≤ itemsHeight items := by
  induction items with
  | nil => simp
  | cons item rest ih =>
    intro p hp
    obtain ⟨spread, e⟩ := item
    rw [List.flatMap_cons, List.mem_append] at hp
    obtain hp | hp := hp
    · obtain rfl := List.mem_singleton.mp hp
      exact Nat.le_max_left _ _
    · exact Nat.le_trans (ih p hp) (Nat.le_max_right _ _)

/-- What is in the members of an object is no higher than they are. -/
theorem height_le_of_mem_members {members : List Member} :
    ∀ p ∈ members.flatMap Member.parts, p.height ≤ membersHeight members := by
  induction members with
  | nil => simp
  | cons member rest ih =>
    intro p hp
    rw [List.flatMap_cons, List.mem_append] at hp
    cases member with
    | init key e =>
      change p.height ≤ max (max key.height e.height) (membersHeight rest)
      obtain hp | hp := hp
      · obtain hp | hp := List.mem_append.mp hp
        · have := height_le_of_mem_key p hp
          omega
        · obtain rfl := List.mem_singleton.mp hp
          change e.height ≤ _
          omega
      · have := ih p hp
        omega
    | spread e =>
      change p.height ≤ max e.height (membersHeight rest)
      obtain hp | hp := hp
      · obtain rfl := List.mem_singleton.mp hp
        exact Nat.le_max_left _ _
      · exact Nat.le_trans (ih p hp) (Nat.le_max_right _ _)

theorem height_le_of_mem_expressions {items : List Expr} :
    ∀ p ∈ items.map Part.expr, p.height ≤ expressionsHeight items := by
  induction items with
  | nil => simp
  | cons e rest ih =>
    intro p hp
    obtain rfl | hp := List.mem_cons.mp hp
    · exact Nat.le_max_left _ _
    · exact Nat.le_trans (ih p hp) (Nat.le_max_right _ _)

theorem height_le_of_mem_statements {statements : List Stmt} :
    ∀ p ∈ statements.map Part.stmt, p.height ≤ statementsHeight statements := by
  induction statements with
  | nil => simp
  | cons s rest ih =>
    intro p hp
    obtain rfl | hp := List.mem_cons.mp hp
    · exact Nat.le_max_left _ _
    · exact Nat.le_trans (ih p hp) (Nat.le_max_right _ _)

/-- What is in the parameters of a function is no higher than they are. -/
theorem height_le_of_mem_params {params : List Param} :
    ∀ p ∈ params.flatMap Param.parts, p.height ≤ paramsHeight params := by
  induction params with
  | nil => simp
  | cons param rest ih =>
    intro p hp
    obtain ⟨target, default?, isRest⟩ := param
    rw [List.flatMap_cons, List.mem_append] at hp
    cases default? with
    | none =>
      obtain hp | hp := hp
      · simp [Param.parts] at hp
      · exact ih p hp
    | some e =>
      obtain hp | hp := hp
      · obtain rfl := List.mem_singleton.mp hp
        exact Nat.le_max_left _ _
      · exact Nat.le_trans (ih p hp) (Nat.le_max_right _ _)

/-- What is in the bindings of a declaration is no higher than they are. -/
theorem height_le_of_mem_bindings {bindings : List (Target × Option Expr)} :
    ∀ p ∈ bindings.flatMap bindingParts, p.height ≤ bindingsHeight bindings := by
  induction bindings with
  | nil => simp
  | cons binding rest ih =>
    intro p hp
    obtain ⟨target, value?⟩ := binding
    rw [List.flatMap_cons, List.mem_append] at hp
    cases value? with
    | none =>
      obtain hp | hp := hp
      · simp [bindingParts] at hp
      · exact ih p hp
    | some e =>
      obtain hp | hp := hp
      · obtain rfl := List.mem_singleton.mp hp
        exact Nat.le_max_left _ _
      · exact Nat.le_trans (ih p hp) (Nat.le_max_right _ _)

/-- What is in the cases of a choice is no higher than they are. -/
theorem height_le_of_mem_cases {cases : List Case} :
    ∀ p ∈ cases.flatMap Case.parts, p.height ≤ casesHeight cases := by
  induction cases with
  | nil => simp
  | cons case rest ih =>
    intro p hp
    obtain ⟨test?, body⟩ := case
    rw [List.flatMap_cons, List.mem_append] at hp
    cases test? with
    | none =>
      change p.height ≤ max (statementsHeight body) (casesHeight rest)
      obtain hp | hp := hp
      · have := height_le_of_mem_statements p hp
        omega
      · have := ih p hp
        omega
    | some test =>
      change p.height ≤ max (max test.height (statementsHeight body)) (casesHeight rest)
      obtain hp | hp := hp
      · obtain rfl | hp := List.mem_cons.mp hp
        · change test.height ≤ _
          omega
        · have := height_le_of_mem_statements p hp
          omega
      · have := ih p hp
        omega

theorem height_le_of_mem_methods {methods : List (String × Func)} :
    ∀ f ∈ methods.map Prod.snd, f.height ≤ methodsHeight methods := by
  induction methods with
  | nil => simp
  | cons method rest ih =>
    intro f hf
    obtain rfl | hf := List.mem_cons.mp hf
    · exact Nat.le_max_left _ _
    · exact Nat.le_trans (ih f hf) (Nat.le_max_right _ _)

/-- A class is as high as its highest function. -/
theorem height_le_of_mem_functions {c : ClassDef} : ∀ f ∈ c.functions, f.height ≤ c.height := by
  intro f hf
  obtain ⟨name, constructor?, methods, statics⟩ := c
  have hmethods (hf : f ∈ methods.map Prod.snd ++ statics.map Prod.snd) :
      f.height ≤ max (methodsHeight methods) (methodsHeight statics) := by
    obtain hf | hf := List.mem_append.mp hf
    · exact Nat.le_trans (height_le_of_mem_methods f hf) (Nat.le_max_left _ _)
    · exact Nat.le_trans (height_le_of_mem_methods f hf) (Nat.le_max_right _ _)
  cases constructor? with
  | none => exact hmethods hf
  | some g =>
    change f.height ≤ max g.height (max (methodsHeight methods) (methodsHeight statics))
    obtain rfl | hf := List.mem_cons.mp hf
    · exact Nat.le_max_left _ _
    · exact Nat.le_trans (hmethods hf) (Nat.le_max_right _ _)

/-- The parts of an expression are lower than the expression. -/
theorem Expr.height_lt_of_mem_parts {e : Expr} : ∀ p ∈ e.parts, p.height < e.height := by
  intro p hp
  cases e with
  | number | string | bool | null | undefined | this | name => simp [Expr.parts] at hp
  | template pieces => exact Nat.lt_succ_of_le (height_le_of_mem_pieces p hp)
  | array items => exact Nat.lt_succ_of_le (height_le_of_mem_items p hp)
  | object members => exact Nat.lt_succ_of_le (height_le_of_mem_members p hp)
  | sequence items => exact Nat.lt_succ_of_le (height_le_of_mem_expressions p hp)
  | function f =>
    obtain rfl := List.mem_singleton.mp hp
    exact Nat.lt_succ_self _
  | classDef c =>
    obtain ⟨f, hf, rfl⟩ := List.mem_map.mp hp
    exact Nat.lt_succ_of_le (height_le_of_mem_functions f hf)
  | member subject key optional =>
    change p.height < max subject.height key.height + 1
    obtain rfl | hp := List.mem_cons.mp hp
    · change subject.height < _
      omega
    · have := height_le_of_mem_key p hp
      omega
  | call callee arguments optional =>
    change p.height < max callee.height (itemsHeight arguments) + 1
    obtain rfl | hp := List.mem_cons.mp hp
    · exact Nat.succ_pos _
    obtain rfl | hp := List.mem_cons.mp hp
    · change callee.height < _
      omega
    · have := height_le_of_mem_items p hp
      omega
  | construct callee arguments =>
    change p.height < max callee.height (itemsHeight arguments) + 1
    obtain rfl | hp := List.mem_cons.mp hp
    · exact Nat.succ_pos _
    obtain rfl | hp := List.mem_cons.mp hp
    · change callee.height < _
      omega
    · have := height_le_of_mem_items p hp
      omega
  | _ =>
    -- The other parts are written out in the list.
    simp only [Expr.parts, List.mem_cons, List.not_mem_nil, or_false] at hp
    simp only [Expr.height]
    grind [Part.height]

/-- The parts of a statement are lower than the statement. -/
theorem Stmt.height_lt_of_mem_parts {s : Stmt} : ∀ p ∈ s.parts, p.height < s.height := by
  intro p hp
  have hblock (statements? : Option (List Stmt)) (hp : p ∈ (statements?.getD []).map Part.stmt) :
      p.height ≤ blockHeight statements? := by
    cases statements? with
    | none => simp at hp
    | some statements => exact height_le_of_mem_statements p hp
  have hoption (e? : Option Expr) (hp : p ∈ e?.toList.map Part.expr) :
      p.height ≤ optionHeight e? := by
    cases e? with
    | none => simp at hp
    | some e =>
      obtain rfl := List.mem_singleton.mp hp
      exact Nat.le_refl _
  -- The parts of each kind of statement are those whose heights its own height is taken of.
  cases s with
  | empty | breaks | continues => simp [Stmt.parts] at hp
  | decl kind bindings => exact Nat.lt_succ_of_le (height_le_of_mem_bindings p hp)
  | block statements => exact Nat.lt_succ_of_le (height_le_of_mem_statements p hp)
  | classDef c =>
    obtain ⟨f, hf, rfl⟩ := List.mem_map.mp hp
    exact Nat.lt_succ_of_le (height_le_of_mem_functions f hf)
  | returns value =>
    have := hoption value hp
    cases value with
    | none => simp [Stmt.parts] at hp
    | some e => exact Nat.lt_succ_of_le this
  | forLoop init test update body =>
    change p.height <
      max (startHeight init) (max (optionHeight test) (max (optionHeight update) body.height)) + 1
    obtain rfl | hp := List.mem_cons.mp hp
    · change body.height < _
      omega
    obtain hp | hp := List.mem_append.mp hp
    · cases init with
      | none => simp at hp
      | some s =>
        obtain rfl := List.mem_singleton.mp hp
        change s.height < max s.height _ + 1
        omega
    obtain hp | hp := List.mem_append.mp hp
    · have := hoption test hp
      omega
    · have := hoption update hp
      omega
  | attempt body param handler finalizer =>
    change p.height <
      max (statementsHeight body) (max (blockHeight handler) (blockHeight finalizer)) + 1
    obtain hp | hp := List.mem_append.mp hp
    · have := height_le_of_mem_statements p hp
      omega
    obtain hp | hp := List.mem_append.mp hp
    · have := hblock handler hp
      omega
    · have := hblock finalizer hp
      omega
  | select subject cases =>
    change p.height < max subject.height (casesHeight cases) + 1
    obtain rfl | hp := List.mem_cons.mp hp
    · change subject.height < _
      omega
    · have := height_le_of_mem_cases p hp
      omega
  | cond test yes no =>
    cases no with
    | none =>
      simp only [Stmt.parts, Option.toList, List.map_nil, List.mem_cons, List.not_mem_nil,
        or_false] at hp
      simp only [Stmt.height]
      grind [Part.height]
    | some no =>
      simp only [Stmt.parts, Option.toList, List.map_cons, List.map_nil, List.mem_cons,
        List.not_mem_nil, or_false] at hp
      simp only [Stmt.height]
      grind [Part.height]
  | _ =>
    simp only [Stmt.parts, List.mem_cons, List.not_mem_nil, or_false] at hp
    simp only [Stmt.height]
    grind [Part.height]

/-- The parts of a function are no higher than the function. -/
theorem Func.height_le_of_mem_parts {f : Func} : ∀ p ∈ f.parts, p.height ≤ f.height := by
  intro p hp
  obtain ⟨name, params, body, arrow⟩ := f
  obtain hp | hp := List.mem_append.mp hp
  · have hparams := height_le_of_mem_params p hp
    cases body with
    | block statements => exact Nat.le_trans hparams (Nat.le_max_left _ _)
    | value e => exact Nat.le_trans hparams (Nat.le_max_left _ _)
  · cases body with
    | block statements =>
      exact Nat.le_trans (height_le_of_mem_statements p hp) (Nat.le_max_right _ _)
    | value e =>
      obtain rfl := List.mem_singleton.mp hp
      exact Nat.le_max_right _ _

end Snippet.Script
