import Snippet.Script.Lexer
import Snippet.Script.Tree

/-!
Reading the tokens of a script as a tree. Statements are told apart by their first word, and operators
on two values by their precedence. Constructs may be nested up to a fixed depth, which is also what
makes reading end: everything that can contain its own kind is read one level further down.
-/

namespace Snippet.Script

structure Input where
  /-- The tokens, the last of which is the end. -/
  rest : List Placed
  /-- How many tokens there were at the beginning. -/
  size : Nat
  /-- The line of the token read last. -/
  previousLine : Nat := 0
  /-- A word `in` ends the expression, as in the head of a loop. -/
  noIn : Bool := false

def Input.line (s : Input) : Nat := (s.rest.head?.map Placed.line).getD s.previousLine

/-- Reading an `α`. -/
abbrev Parse (α : Type) := StateT Input (Except SyntaxFault) α

namespace Parse

def ahead : Parse (List Placed) := fun s => .ok (s.rest, s)

def tokenOf : List Placed → Token
  | [] => .stop
  | p :: _ => p.token

def peek : Parse Token := fun s => .ok (tokenOf s.rest, s)

def peekSecond : Parse Token := fun s => .ok (tokenOf s.rest.tail, s)

def fail {α : Type} (e : SyntaxError) : Parse α := fun s => .error ⟨e, s.line⟩

def misfit : Token → SyntaxError
  | .stop => .unexpectedEnd
  | .number x => .unexpectedNumber x
  | .string _ => .unexpectedString
  | .template _ => .unexpectedString
  | .word name => .unexpectedToken name
  | .mark text => .unexpectedToken text

def unexpected {α : Type} : Parse α := fun s => .error ⟨misfit (tokenOf s.rest), s.line⟩

def advance : Parse Unit := fun s =>
  match s.rest with
  | [] => .ok ((), s)
  | p :: rest => .ok ((), { s with rest, previousLine := p.line })

def isMarkToken (text : String) : Token → Bool
  | .mark t => t == text
  | _ => false

def isWordToken (name : String) : Token → Bool
  | .word w => w == name
  | _ => false

def atMark (text : String) : Parse Bool := return isMarkToken text (← peek)

def atWord (name : String) : Parse Bool := return isWordToken name (← peek)

def atStop : Parse Bool := do
  match ← peek with
  | .stop => return true
  | _ => return false

def eatMark (text : String) : Parse Bool := do
  if ← atMark text then
    advance
    return true
  return false

def eatWord (name : String) : Parse Bool := do
  if ← atWord name then
    advance
    return true
  return false

def expectMark (text : String) : Parse Unit := do
  unless ← eatMark text do unexpected

def afterNewline : Parse Bool := fun s => .ok (s.previousLine < s.line, s)

def reserved : List String :=
  ["break", "case", "catch", "class", "const", "continue", "default", "delete", "do", "else",
   "extends", "false", "finally", "for", "function", "if", "import", "export", "in", "instanceof",
   "let", "new", "null", "return", "super", "switch", "this", "throw", "true", "try", "typeof",
   "var", "void", "while", "yield"]

def expectName : Parse String := do
  match ← peek with
  | .word name =>
    if reserved.contains name then unexpected
    else
      advance
      return name
  | _ => unexpected

def memberName : Parse String := do
  match ← peek with
  | .word name =>
    advance
    return name
  | _ => unexpected

def endStatement : Parse Unit := do
  if ← eatMark ";" then return
  if ← atMark "\x7d" then return
  if ← atStop then return
  if ← afterNewline then return
  unexpected

inductive Step (α β : Type) where
  | more (a : α)
  | done (b : β)

def iterate {α β : Type} (step : α → Parse (Step α β)) : Nat → α → Parse β
  -- Repeats a step until it is done, at most `fuel` times.
  | 0, _ => fail .exhausted
  | fuel + 1, a => do
    match ← step a with
    | .more a => iterate step fuel a
    | .done b => return b

def repeatFrom {α β : Type} (start : α) (step : α → Parse (Step α β)) : Parse β :=
  -- Repeats a step until it is done. Every step that goes on passes a token.
  fun s => iterate step (s.size + 1) start s

def listRound {α : Type} (close : String) (part : Parse α) (done : List α) :
    Parse (Step (List α) (List α)) := do
  if ← eatMark close then return .done done.reverse
  let x ← part
  unless ← atMark close do expectMark ","
  return .more (x :: done)

def listUntil {α : Type} (close : String) (part : Parse α) : Parse (List α) :=
  -- The inside of a pair of marks after the opening one: parts with commas between them, of which
  -- the last may be left out.
  repeatFrom [] (listRound close part)

def holesRound {α : Type} (close : String) (hole : α) (part : Parse α) (done : List α) :
    Parse (Step (List α) (List α)) := do
  -- Like `listRound`, where a comma may also stand for a part that is left out.
  if ← eatMark close then return .done done.reverse
  if ← eatMark "," then return .more (hole :: done)
  let x ← part
  unless ← atMark close do expectMark ","
  return .more (x :: done)

def listWithHoles {α : Type} (close : String) (hole : α) (part : Parse α) : Parse (List α) :=
  -- Like `listUntil`, where a comma may also stand for a part that is left out.
  repeatFrom [] (holesRound close hole part)

def targetWithin : Nat → Parse Target
  | 0 => fail .exhausted
  | fuel + 1 => do
    if ← eatMark "[" then
      let elements ← listWithHoles "]" none (some <$> targetWithin fuel)
      return .array elements
    if ← eatMark "\x7b" then
      let members ← listUntil "\x7d" do
        let key ← memberName
        if ← eatMark ":" then return (key, ← targetWithin fuel)
        return (key, Target.name key)
      return .object members
    return .name (← expectName)

def target : Parse Target := fun s => targetWithin (s.size + 1) s

structure Descent where
  statement : Parse Stmt
  assignment : Parse Expr
  unary : Parse Expr
  binary : Nat → Parse Expr
  primary : Parse Expr

def sequenceRound (d : Descent) (done : List Expr) : Parse (Step (List Expr) (List Expr)) := do
  if ← eatMark "," then return .more ((← d.assignment) :: done)
  return .done done.reverse

def expression (d : Descent) : Parse Expr := do
  let first ← d.assignment
  unless ← atMark "," do return first
  let items ← repeatFrom [first] (sequenceRound d)
  return .sequence items

def blockRound (d : Descent) (done : List Stmt) : Parse (Step (List Stmt) (List Stmt)) := do
  if ← eatMark "\x7d" then return .done done.reverse
  if ← atStop then unexpected
  return .more ((← d.statement) :: done)

def block (d : Descent) : Parse (List Stmt) := do
  expectMark "\x7b"
  repeatFrom [] (blockRound d)

def initializer (d : Descent) : Parse (Option Expr) := do
  if ← eatMark "=" then return some (← d.assignment)
  return none

def param (d : Descent) : Parse Param := do
  let rest ← eatMark "..."
  let t ← target
  let default ← initializer d
  return .mk t default rest

def params (d : Descent) : Parse (List Param) := do
  expectMark "("
  listUntil ")" (param d)

def method (d : Descent) (name : Option String) : Parse Func := do
  let ps ← params d
  let body ← block d
  return .mk name ps (.block body) false

def function (d : Descent) : Parse Func := do
  match ← peek with
  | .word _ => method d (some (← expectName))
  | _ => method d none

structure ClassParts where
  constructor? : Option Func := none
  methods : List (String × Func) := []
  statics : List (String × Func) := []

def classMember (d : Descent) (parts : ClassParts) : Parse ClassParts := do
  let isStatic := (← atWord "static") && !isMarkToken "(" (← peekSecond)
  if isStatic then advance
  let key ← match ← peek with
    | .word key => do
      advance
      pure key
    | .string key => do
      advance
      pure key
    | _ => unexpected
  let f ← method d (some key)
  if isStatic then return { parts with statics := (key, f) :: parts.statics }
  if key == "constructor" then return { parts with constructor? := some f }
  return { parts with methods := (key, f) :: parts.methods }

def classRound (d : Descent) (name : String) (parts : ClassParts) : Parse (Step ClassParts ClassDef) := do
  if ← eatMark "\x7d" then
    return .done (.mk name parts.constructor? parts.methods.reverse parts.statics.reverse)
  if ← eatMark ";" then return .more parts
  return .more (← classMember d parts)

def classDef (d : Descent) : Parse ClassDef := do
  advance
  let name ← expectName
  if ← atWord "extends" then fail .inheritance
  expectMark "\x7b"
  repeatFrom {} (classRound d name)

def withIn {α : Type} (p : Parse α) : Parse α := do
  -- Reads with the word `in` as an operator again.
  let s ← get
  set { s with noIn := false }
  let x ← p
  modify fun t => { t with noIn := s.noIn }
  return x

def item (d : Descent) : Parse Item := do
  let spread ← eatMark "..."
  return .mk spread (← d.assignment)

def arguments (d : Descent) : Parse (List Item) := do
  expectMark "("
  withIn (listUntil ")" (item d))

def arrayItems (d : Descent) : Parse (List Item) :=
  listWithHoles "]" (.mk false .undefined) (item d)

def memberKey (d : Descent) : Parse Key := do
  match ← peek with
  | .word name =>
    advance
    return .named name
  | .string name =>
    advance
    return .named name
  | .number x =>
    advance
    return .named (String.ofList (numberText x))
  | .mark "[" =>
    advance
    let e ← d.assignment
    expectMark "]"
    return .computed e
  | _ => unexpected

def keyName? : Key → Option String
  | .named name => some name
  | .computed _ => none

def isAnyMark : Token → Bool
  | .mark _ => true
  | _ => false

def member (d : Descent) : Parse Member := do
  if ← eatMark "..." then return .spread (← d.assignment)
  if (← atWord "async") && !isAnyMark (← peekSecond) then advance
  let key ← memberKey d
  if ← atMark "(" then return .init key (.function (← method d (keyName? key)))
  if ← eatMark ":" then return .init key (← d.assignment)
  match key with
  | .named name => return .init key (.name name)
  | .computed _ => unexpected

def piece (d : Descent) : Chunk → Parse Piece
  | .text s => return .text s
  | .code code => fun outer =>
    match tokenize code.toList with
    | .error e => .error e
    | .ok tokens =>
      let inner : Parse Expr := do
        let e ← expression d
        unless ← atStop do unexpected
        return e
      match inner { rest := tokens, size := tokens.length } with
      | .ok (e, _) => .ok (.value e, outer)
      | .error e => .error e

def skipAsync : Parse Unit := do
  -- Passes the word `async` in front of a function.
  if (← atWord "async") && isWordToken "function" (← peekSecond) then
    advance

def wordExpr (d : Descent) (name : String) : Parse Expr := do
  match name with
  | "true" => do
    advance
    return .bool true
  | "false" => do
    advance
    return .bool false
  | "null" => do
    advance
    return .null
  | "undefined" => do
    advance
    return .undefined
  | "this" => do
    advance
    return .this
  | "function" => do
    advance
    return .function (← function d)
  | "class" => return .classDef (← classDef d)
  | "super" => fail .superclass
  | _ => return .name (← expectName)

def primary (d : Descent) : Parse Expr := do
  skipAsync
  match ← peek with
  | .number x =>
    advance
    return .number x
  | .string s =>
    advance
    return .string s
  | .template chunks =>
    advance
    return .template (← chunks.mapM (piece d))
  | .mark "(" =>
    advance
    let e ← withIn (expression d)
    expectMark ")"
    return e
  | .mark "[" =>
    advance
    return .array (← arrayItems d)
  | .mark "\x7b" =>
    advance
    return .object (← listUntil "\x7d" (member d))
  | .word name => wordExpr d name
  | _ => unexpected

def computedKey (d : Descent) : Parse Key := do
  let e ← expression d
  expectMark "]"
  return .computed e

def constructorRound (d : Descent) (e : Expr) : Parse (Step Expr Expr) := do
  if ← eatMark "." then return .more (.member e (.named (← memberName)) false)
  if ← eatMark "[" then return .more (.member e (← computedKey d) false)
  return .done e

def construction (d : Descent) : Parse Expr := do
  advance
  let callee ← d.primary
  let callee ← repeatFrom callee (constructorRound d)
  let args ← if ← atMark "(" then arguments d else pure []
  return .construct callee args

def chainRound (d : Descent) (e : Expr) : Parse (Step Expr Expr) := do
  if ← eatMark "." then return .more (.member e (.named (← memberName)) false)
  if ← eatMark "?." then
    if ← atMark "(" then return .more (.call e (← arguments d) true)
    if ← eatMark "[" then return .more (.member e (← computedKey d) true)
    return .more (.member e (.named (← memberName)) true)
  if ← eatMark "[" then return .more (.member e (← computedKey d) false)
  if ← atMark "(" then return .more (.call e (← arguments d) false)
  return .done e

def chain (d : Descent) : Parse Expr := do
  let first ← if ← atWord "new" then construction d else primary d
  repeatFrom first (chainRound d)

def updateOf? : Token → Option Bool
  | .mark "++" => some true
  | .mark "--" => some false
  | _ => none

def postfixed (d : Descent) : Parse Expr := do
  let e ← chain d
  match updateOf? (← peek) with
  | none => return e
  | some increment =>
    if ← afterNewline then return e
    advance
    return .update increment false e

def unaryOf? : Token → Option UnaryOp
  | .mark "!" => some .not
  | .mark "-" => some .neg
  | .mark "+" => some .plus
  | .mark "~" => some .bitNot
  | .word "typeof" => some .typeOf
  | .word "void" => some .discard
  | .word "delete" => some .delete
  | _ => none

def unary (d : Descent) : Parse Expr := do
  let token ← peek
  match updateOf? token with
  | some increment =>
    advance
    return .update increment true (← d.unary)
  | none =>
    if isWordToken "await" token then
      advance
      d.unary
    else
      match unaryOf? token with
      | some op =>
        advance
        return .unary op (← d.unary)
      | none => postfixed d

inductive Infix where
  | binary (op : BinaryOp)
  | logical (op : LogicalOp)
deriving DecidableEq, Repr

def infixTable : List (String × Infix × Nat) :=
  [("??", .logical .nullish, 1), ("||", .logical .or, 2), ("&&", .logical .and, 3),
   ("|", .binary .bitOr, 4), ("^", .binary .bitXor, 5), ("&", .binary .bitAnd, 6),
   ("==", .binary .looseEq, 7), ("!=", .binary .looseNe, 7), ("===", .binary .strictEq, 7),
   ("!==", .binary .strictNe, 7), ("<", .binary .lt, 8), ("<=", .binary .le, 8),
   (">", .binary .gt, 8), (">=", .binary .ge, 8), ("<<", .binary .shl, 9),
   (">>", .binary .shr, 9), (">>>", .binary .ushr, 9), ("+", .binary .add, 10),
   ("-", .binary .sub, 10), ("*", .binary .mul, 11), ("/", .binary .div, 11),
   ("%", .binary .mod, 11), ("**", .binary .pow, 12)]

def infixOf? (noIn : Bool) : Token → Option (Infix × Nat)
  | .mark text => infixTable.lookup text
  | .word "instanceof" => some (.binary .instanceOf, 8)
  | .word "in" => if noIn then none else some (.binary .isIn, 8)
  | _ => none

def rightPrecedence (op : Infix) (precedence : Nat) : Nat :=
  -- The least precedence that the right operand of an operator may have: that of the operator
  -- itself for powers, which group to the right, and the next one for the others.
  if op == .binary .pow then precedence else precedence + 1

def Infix.apply (op : Infix) (left right : Expr) : Expr :=
  match op with
  | .binary op => .binary op left right
  | .logical op => .logical op left right

def operatorRound (d : Descent) (least : Nat) (left : Expr) : Parse (Step Expr Expr) := do
  -- An operator of at least the given precedence with its right operand, or the end of the
  -- operators.
  match infixOf? (← get).noIn (← peek) with
  | none => return .done left
  | some (op, precedence) =>
    if precedence < least then return .done left
    advance
    let right ← d.binary (rightPrecedence op precedence)
    return .more (op.apply left right)

def binary (d : Descent) (least : Nat) : Parse Expr := do
  let first ← unary d
  repeatFrom first (operatorRound d least)

def conditional (d : Descent) : Parse Expr := do
  let test ← binary d 1
  unless ← eatMark "?" do return test
  let yes ← withIn d.assignment
  expectMark ":"
  let no ← d.assignment
  return .conditional test yes no

def closesBeforeArrow (depth : Nat) : List Placed → Bool
  -- Whether a parenthesis that opens in front of the tokens closes in front of an arrow; `depth`
  -- counts the brackets that are open.
  | [] => false
  | p :: rest =>
    match p.token with
    | .stop => false
    | .mark m =>
      if m == "(" || m == "[" || m == "\x7b" then closesBeforeArrow (depth + 1) rest
      else if m == ")" || m == "]" || m == "\x7d" then
        if depth ≤ 1 then isMarkToken "=>" (tokenOf rest) else closesBeforeArrow (depth - 1) rest
      else closesBeforeArrow depth rest
    | _ => closesBeforeArrow depth rest

def startsArrow (tokens : List Placed) : Bool :=
  match tokenOf tokens with
  | .word name => !reserved.contains name && isMarkToken "=>" (tokenOf tokens.tail)
  | .mark "(" => closesBeforeArrow 0 tokens
  | _ => false

def arrow (d : Descent) : Parse Expr := do
  let ps ← if ← atMark "(" then params d
    else do
      let name ← expectName
      pure [.mk (.name name) none false]
  expectMark "=>"
  let body ← if ← atMark "\x7b" then Body.block <$> block d else Body.value <$> d.assignment
  return .function (.mk none ps body true)

def assignOf? : Token → Option (Option BinaryOp)
  | .mark "=" => some none
  | .mark "+=" => some (some .add)
  | .mark "-=" => some (some .sub)
  | .mark "*=" => some (some .mul)
  | .mark "/=" => some (some .div)
  | .mark "%=" => some (some .mod)
  | .mark "**=" => some (some .pow)
  | _ => none

def isAssignable (op : Option BinaryOp) : Expr → Bool
  | .name _ => true
  | .member _ _ _ => true
  | .array _ => op.isNone
  | .object _ => op.isNone
  | _ => false

def assignment (d : Descent) : Parse Expr := do
  let tokens ← ahead
  if isWordToken "async" (tokenOf tokens) && !isMarkToken "=>" (tokenOf tokens.tail)
      && startsArrow tokens.tail then
    advance
  if startsArrow (← ahead) then arrow d
  else
    let e ← conditional d
    match assignOf? (← peek) with
    | none => return e
    | some op =>
      unless isAssignable op e do fail .invalidTarget
      advance
      return .assign op e (← d.assignment)

def declKindOf? : Token → Option DeclKind
  | .word "let" => some .letDecl
  | .word "const" => some .constDecl
  | .word "var" => some .varDecl
  | _ => none

def bindingRound (d : Descent) (kind : DeclKind) (state : List (Target × Option Expr) × Target) :
    Parse (Step (List (Target × Option Expr) × Target) Stmt) := do
  -- The rest of a binding after its target, and the target of the next one or the end of the
  -- bindings.
  let init ← initializer d
  if init.isNone && kind == .constDecl then fail .missingInitializer
  let done := (state.2, init) :: state.1
  if ← eatMark "," then return .more (done, ← target)
  return .done (.decl kind done.reverse)

def bindings (d : Descent) (kind : DeclKind) (first : Target) : Parse Stmt :=
  repeatFrom ([], first) (bindingRound d kind)

def expressionStatement (d : Descent) : Parse Stmt := do
  let e ← expression d
  endStatement
  return .expr e

def parenthesized (d : Descent) : Parse Expr := do
  expectMark "("
  let e ← expression d
  expectMark ")"
  return e

def forEachTail? (d : Descent) (kind : DeclKind) (t : Target) : Parse (Option Stmt) := do
  let keys? ← if ← eatWord "of" then pure (some false)
    else do
      let isIn ← eatWord "in"
      pure (if isIn then some true else none)
  match keys? with
  | none => return none
  | some keys =>
    let subject ← expression d
    expectMark ")"
    let body ← d.statement
    return some (.forEach keys kind t subject body)

/-- Sets whether the word `in` ends the expression. -/
def setNoIn (noIn : Bool) : Parse Unit := modify fun s => { s with noIn }

def optionalBefore (d : Descent) (mark : String) : Parse (Option Expr) := do
  if ← atMark mark then return none
  return some (← expression d)

def forTail (d : Descent) (init : Option Stmt) : Parse Stmt := do
  expectMark ";"
  let test ← optionalBefore d ";"
  expectMark ";"
  let update ← optionalBefore d ")"
  expectMark ")"
  let body ← d.statement
  return .forLoop init test update body

def forStatement (d : Descent) : Parse Stmt := do
  -- A `for` loop, with its keyword next.
  advance
  expectMark "("
  if ← atMark ";" then forTail d none
  else
    match declKindOf? (← peek) with
    | some kind =>
      advance
      let t ← target
      match ← forEachTail? d kind t with
      | some s => return s
      | none =>
        setNoIn true
        let decl ← bindings d kind t
        setNoIn false
        forTail d (some decl)
    | none =>
      setNoIn true
      let e ← expression d
      setNoIn false
      let loop? ← match e with
        | .name name => forEachTail? d .letDecl (.name name)
        | _ => pure none
      match loop? with
      | some s => return s
      | none => forTail d (some (.expr e))

def tryStatement (d : Descent) : Parse Stmt := do
  advance
  let body ← block d
  let (param, handler) ← if ← eatWord "catch" then do
      let param ← if ← eatMark "(" then do
          let t ← target
          expectMark ")"
          pure (some t)
        else pure none
      let handler ← block d
      pure (param, some handler)
    else pure (none, none)
  let finalizer ← if ← eatWord "finally" then some <$> block d else pure none
  if handler.isNone && finalizer.isNone then fail .missingHandler
  return .attempt body param handler finalizer

def caseRound (d : Descent) (done : List Stmt) : Parse (Step (List Stmt) (List Stmt)) := do
  if (← atWord "case") || (← atWord "default") || (← atMark "\x7d") then
    return .done done.reverse
  if ← atStop then unexpected
  return .more ((← d.statement) :: done)

def caseBody (d : Descent) : Parse (List Stmt) := repeatFrom [] (caseRound d)

def switchRound (d : Descent) (subject : Expr) (done : List Case) : Parse (Step (List Case) Stmt) := do
  if ← eatMark "\x7d" then return .done (.select subject done.reverse)
  let test ← if ← eatWord "case" then some <$> expression d
    else do
      unless ← eatWord "default" do unexpected
      pure none
  expectMark ":"
  let body ← caseBody d
  return .more (.mk test body :: done)

def switchStatement (d : Descent) : Parse Stmt := do
  advance
  let subject ← parenthesized d
  expectMark "\x7b"
  repeatFrom [] (switchRound d subject)

def returnValue (d : Descent) : Parse (Option Expr) := do
  if (← atMark ";") || (← atMark "\x7d") || (← atStop) || (← afterNewline) then return none
  return some (← expression d)

def wordStatement (d : Descent) (name : String) : Parse Stmt := do
  match name with
  | "function" => do
    advance
    let f ← function d
    if f.name?.isNone then fail .namelessFunction
    return .function f
  | "class" => return .classDef (← classDef d)
  | "if" => do
    advance
    let test ← parenthesized d
    let yes ← d.statement
    let no ← if ← eatWord "else" then some <$> d.statement else pure none
    return .cond test yes no
  | "while" => do
    advance
    let test ← parenthesized d
    return .whileLoop test (← d.statement)
  | "do" => do
    advance
    let body ← d.statement
    unless ← eatWord "while" do unexpected
    let test ← parenthesized d
    let _ ← eatMark ";"
    return .doLoop body test
  | "for" => forStatement d
  | "return" => do
    advance
    let value ← returnValue d
    endStatement
    return .returns value
  | "break" => do
    advance
    endStatement
    return .breaks
  | "continue" => do
    advance
    endStatement
    return .continues
  | "throw" => do
    advance
    let e ← expression d
    endStatement
    return .throws e
  | "try" => tryStatement d
  | "switch" => switchStatement d
  | "import" => fail .moduleSyntax
  | "export" => fail .moduleSyntax
  | _ => expressionStatement d

def statement (d : Descent) : Parse Stmt := do
  if ← atMark "\x7b" then return .block (← block d)
  if ← eatMark ";" then return .empty
  match declKindOf? (← peek) with
  | some kind =>
    advance
    let t ← target
    let decl ← bindings d kind t
    endStatement
    return decl
  | none =>
    skipAsync
    match ← peek with
    | .word name => wordStatement d name
    | _ => expressionStatement d

def maxNesting : Nat := 200

def descent : Nat → Descent
  -- Reading with room for `n` more levels.
  | 0 =>
    { statement := fail .nestingTooDeep
      assignment := fail .nestingTooDeep
      unary := fail .nestingTooDeep
      binary := fun _ => fail .nestingTooDeep
      primary := fail .nestingTooDeep }
  | n + 1 =>
    { statement := fun s => statement (descent n) s
      assignment := fun s => assignment (descent n) s
      unary := fun s => unary (descent n) s
      binary := fun least s => binary (descent n) least s
      primary := fun s => primary (descent n) s }

def programRound (done : List Stmt) : Parse (Step (List Stmt) (List Stmt)) := do
  if ← atStop then return .done done.reverse
  return .more ((← (descent maxNesting).statement) :: done)

def program : Parse (List Stmt) := repeatFrom [] programRound

end Parse

def parseProgram (source : String) : Except SyntaxFault (List Stmt) :=
  match tokenize source.toList with
  | .error e => .error e
  | .ok tokens =>
    match Parse.program { rest := tokens, size := tokens.length } with
    | .ok (statements, _) => .ok statements
    | .error e => .error e

end Snippet.Script
