/-!
The command line: an optional configuration file and an optional command, which runs a file or
serves requests. Arguments are read from left to right and the first fault found is reported; a
value stays pending until the next argument shows that it is complete.
-/

namespace Snippet

inductive Command where
  | run (file : String) (language : Option String) (stdin : Option String)
  | serve
deriving Repr, DecidableEq

structure CommandLine where
  config : Option String := none
  command : Option Command := none
deriving Repr, DecidableEq

namespace CommandLine

inductive Refusal where
  | unknownArgument
  | invalidSubcommand
  | missingRequiredArgument
  | invalidValue
  | tooManyValues
  | argumentConflict
  | displayHelp
  | displayVersion
deriving Repr, DecidableEq

inductive Argument where
  | config
  | language
  | stdin
  | file
deriving Repr, DecidableEq

def Argument.isPath : Argument → Bool
  | .language => false
  | _ => true

inductive Choice where
  | help
  | version
  | value (a : Argument)
deriving Repr, DecidableEq

inductive Level where
  | top
  | run
  | serve
deriving Repr, DecidableEq

def Level.long? (level : Level) (name : String) : Option Choice :=
  if name == "config" then some (.value .config)
  else if name == "help" then some .help
  else
    match level with
    | .top => if name == "version" then some .version else none
    | .run =>
      if name == "language" then some (.value .language)
      else if name == "stdin" then some (.value .stdin)
      else none
    | .serve => none

def Level.short? (level : Level) (name : Char) : Option Choice :=
  if name == 'c' then some (.value .config)
  else if name == 'h' then some .help
  else
    match level with
    | .top => if name == 'V' then some .version else none
    | .run => if name == 'l' then some (.value .language) else none
    | .serve => none

def commandNames : List String := ["run", "serve", "help"]

structure Progress where
  values : List (Argument × String) := []
  /-- An argument whose value, if it came, has not been judged yet. -/
  pending : Option (Argument × Option String) := none
  /-- Only values follow. -/
  onlyValues : Bool := false
  /-- The file has been given. -/
  fileGiven : Bool := false

def Progress.awaits (p : Progress) : Bool :=
  match p.pending with
  | some (_, none) => true
  | _ => false

def Progress.accept (p : Progress) (a : Argument) (value : String) : Except Refusal Progress :=
  if (p.values.lookup a).isSome then .error .argumentConflict
  else if a.isPath && value.isEmpty then .error .invalidValue
  else .ok { p with values := (a, value) :: p.values, pending := none }

def Progress.resolve (p : Progress) : Except Refusal Progress :=
  match p.pending with
  | none => .ok p
  | some (_, none) => .error .invalidValue
  | some (a, some value) => p.accept a value

def Progress.take (p : Progress) (choice : Choice) (attached : Option String) :
    Except Refusal Progress :=
  match choice, attached with
  | .value a, some value => do
    let p ← p.resolve
    p.accept a value
  | .value a, none => do
    let p ← p.resolve
    .ok { p with pending := some (a, none) }
  | .help, none => do
    let _ ← p.resolve
    .error .displayHelp
  | .version, none => do
    let _ ← p.resolve
    .error .displayVersion
  | _, some _ => .error .tooManyValues

def splitEquals (s : List Char) : List Char × Option (List Char) :=
  match s.dropWhile (· != '=') with
  | [] => (s, none)
  | _ :: value => (s.takeWhile (· != '='), some value)

def takeLong (level : Level) (p : Progress) (s : List Char) : Except Refusal Progress :=
  let (name, attached) := splitEquals s
  match level.long? (String.ofList name) with
  | some choice => p.take choice (attached.map String.ofList)
  | none => .error .unknownArgument

def takeShort (level : Level) (p : Progress) : List Char → Except Refusal Progress
  -- A group of short options, after its dash. An option with a value takes the rest of the group,
  -- less an equals sign in front, as its value.
  | [] => .ok p
  | c :: rest =>
    match level.short? c with
    | none => .error .unknownArgument
    | some (.value a) =>
      let attached :=
        match rest with
        | [] => none
        | '=' :: value => some (String.ofList value)
        | value => some (String.ofList value)
      p.take (.value a) attached
    | some choice =>
      match p.take choice none with
      | .ok p => takeShort level p rest
      | .error e => .error e

def takeWord (level : Level) (p : Progress) (word : String) : Except Refusal Progress :=
  if level == .run && !p.fileGiven then do
    let p ← p.resolve
    .ok { p with pending := some (.file, some word), fileGiven := true }
  else if level != .top then .error .unknownArgument
  else if p.onlyValues && commandNames.contains word then .error .unknownArgument
  else .error .invalidSubcommand

def scan (level : Level) (p : Progress) :
    List String → Except Refusal (Progress × Option (String × List String))
  | [] => .ok (p, none)
  | word :: rest =>
    if p.onlyValues then
      match takeWord level p word with
      | .ok p => scan level p rest
      | .error e => .error e
    else if level == .top && !p.awaits && commandNames.contains word then
      .ok (p, some (word, rest))
    else
      let outcome : Except Refusal Progress :=
        match word.toList with
        | ['-', '-'] => .ok { p with onlyValues := true }
        | '-' :: '-' :: name => takeLong level p name
        | '-' :: c :: group => takeShort level p (c :: group)
        | _ =>
          match p.pending with
          | some (a, none) => .ok { p with pending := some (a, some word) }
          | _ => takeWord level p word
      match outcome with
      | .ok p => scan level p rest
      | .error e => .error e

def helpOn : List String → Refusal
  | [] => .displayHelp
  | [command] => if commandNames.contains command then .displayHelp else .invalidSubcommand
  | _ => .invalidSubcommand

def ofCommand (level : Level) (arguments : List String) : Except Refusal Progress := do
  let (p, _) ← scan level {} arguments
  let p ← p.resolve
  if level == .run && (p.values.lookup .file).isNone then .error .missingRequiredArgument
  else .ok p

def ofArguments (arguments : List String) : Except Refusal CommandLine := do
  -- A command line from its arguments. The configuration file given after a command goes before one
  -- given in front of it.
  let (top, command?) ← scan .top {} arguments
  match command? with
  | none => do
    let top ← top.resolve
    .ok { config := top.values.lookup .config }
  | some (name, rest) =>
    if name == "help" then .error (helpOn rest)
    else do
      let level := if name == "run" then Level.run else Level.serve
      let p ← ofCommand level rest
      let top ← top.resolve
      let config := (p.values.lookup .config).or (top.values.lookup .config)
      let command :=
        match p.values.lookup .file with
        | some file => Command.run file (p.values.lookup .language) (p.values.lookup .stdin)
        | none => Command.serve
      .ok { config, command := some command }

end CommandLine

end Snippet
