import Snippet.Json.Reader
import Snippet.Script.ArrayMethod
import Snippet.Script.Format

/-!
Calls of the built-in functions, and what some of them make when they are used as constructors.
-/

namespace Snippet.Script

def signOf (x : Float) : Float := if x < 0.0 then -1.0 else if 0.0 < x then 1.0 else x

def MathFunction.apply : MathFunction → Float → Float
  -- A mathematical function. Rounding takes halves upwards.
  | .abs, x => x.abs
  | .floor, x => x.floor
  | .ceil, x => x.ceil
  | .round, x => (x + 0.5).floor
  | .trunc, x => Number.truncate x
  | .sign, x => signOf x
  | .sqrt, x => x.sqrt
  | .cbrt, x => x.cbrt
  | .exp, x => x.exp
  | .log, x => x.log
  | .log2, x => x.log2
  | .log10, x => x.log10
  | .sin, x => x.sin
  | .cos, x => x.cos
  | .tan, x => x.tan
  | .atan, x => x.atan

def charOfCode? (x : Float) : Option Char :=
  let code := (Number.toInt x % (Number.twoTo 16 : Int)).toNat
  if 0xD800 ≤ code && code ≤ 0xDFFF then none else some (Char.ofNat code)

def timerId? (x : Float) : Option UInt32 :=
  if x.isFinite && 0.0 ≤ x then some (.ofNat (min (Number.toNatClamped x) (Number.twoTo 32 - 1)))
  else none

def indentOf : Value → List Char
  -- The indentation that an argument asks for: a count of up to ten blanks, or up to ten
  -- characters.
  | .number x => if 1.0 ≤ x then List.replicate (min (Number.toNatClamped x) 10) ' ' else []
  | .string s => s.toList.take 10
  | _ => []

namespace Run

def numberOf (arguments : List Value) (i : Nat) : Run Float :=
  match arguments[i]? with
  | some v => toNumber v
  | none => return Number.nan

mutual

def ofJson : Json → Run Value
  | .null => return .null
  | .bool b => return .bool b
  | .integer n => return .number (Float.ofInt n)
  | .float x => return .number x
  | .string s => return .string s
  | .array items => do makeArray (← ofJsonItems items)
  | .object members => do makeObject { entries := ← ofJsonMembers members }

def ofJsonItems : List Json → Run (List Value)
  | [] => return []
  | item :: rest => do
    let v ← ofJson item
    return v :: (← ofJsonItems rest)

def ofJsonMembers : List (String × Json) → Run (List (String × Value))
  | [] => return []
  | (key, value) :: rest => do
    let v ← ofJson value
    return (key, v) :: (← ofJsonMembers rest)

end

def parseJson (arguments : List Value) : Run Value := do
  let text ← textArgument arguments 0
  match Json.read text with
  | .ok json => ofJson json
  | .error failure =>
    throw (.thrown (← makeError .grammar (failure.message text ++ " in JSON")))

def jsonText (arguments : List Value) : Run Value := do
  match ← ofExcept ((← heap).json? (argument arguments 0)) with
  | none => return .undefined
  | some json =>
    let indent := indentOf (argument arguments 2)
    makeString (String.ofList
      (Json.write (if indent.isEmpty then .compact else .indented indent) json))

def print (arguments : List Value) : Run Value := do
  let line ← consoleLine arguments
  modifyTranscript fun t => t.pushLine line
  return .undefined

def prompt : Run Value := do
  match ← popLine with
  | none => return .null
  | some line =>
    modifyTranscript fun t => t.pushLine line
    makeString line

def setTimer (repeated : Bool) (arguments : List Value) : Run Value := do
  let callback := argument arguments 0
  if callback.isFunction then
    let delay := (← numberArgument? arguments 1).getD 0.0
    fun m =>
      let (id, timers) := m.timers.schedule callback delay (arguments.drop 2) repeated
      .ok (.ofNat id.toNat) { m with timers }
  else raise (.timerCallback callback.typeName)

def clearTimer (arguments : List Value) : Run Value := do
  match (← numberArgument? arguments 0).bind timerId? with
  | some id => fun m => .ok .undefined { m with timers := m.timers.cancel id }
  | none => return .undefined

def memberValues (v : Value) (keys : List String) : Run (List Value) :=
  keys.mapM fun key => getMember v key

def memberPairs (v : Value) (keys : List String) : Run (List Value) :=
  keys.mapM fun key => do makeArray [.string key, ← getMember v key]

def copyMembers (target source : Value) : Run Unit := do
  for key in ← ownKeys source do
    setMember target key (← getMember source key)

def objectOfPairs (v : Value) : Run Value := do
  let o ← (← iterate v).toList.foldlM (fun (o : Object) pair => do
    let pair := (← iterate pair).toList
    return o.set (← toText (argument pair 0)) (argument pair 1)) {}
  makeObject o

def sourceItems (v : Value) : Run (List Value) := do
  -- The elements that an array is made from: those of a sequence, or as many missing ones as an
  -- object says by its length.
  match v with
  | .object o =>
    let length ←
      match (← object o).get? "length" with
      | some v => toNumber v
      | none => pure 0.0
    if 0.0 ≤ length && length ≤ Float.ofNat maxArraySize then
      return List.replicate (Number.toNatClamped length) .undefined
    else raise .arrayLength
  | v => return (← iterate v).toList

def arrayFrom (call : Caller) (arguments : List Value) : Run Value := do
  let items ← sourceItems (argument arguments 0)
  let f := argument arguments 1
  if f.isFunction then
    makeArray (← (indexed items).mapM fun (i, v) => call f .undefined [v, .ofNat i])
  else makeArray items

def newError (kind : ErrorKind) (arguments : List Value) : Run Value := do
  match argument arguments 0 with
  | .undefined => makeError kind ""
  | v => makeError kind (← toText v)

def newArray (arguments : List Value) : Run Value :=
  match arguments with
  | [.number x] =>
    if x < 0.0 || !Number.isWhole x || maxArraySize < Number.toNatClamped x then raise .arrayLength
    else makeArray (List.replicate (Number.toNatClamped x) .undefined)
  | arguments => makeArray arguments

def newObject (arguments : List Value) : Run Value :=
  match argument arguments 0 with
  | .array a => return .array a
  | .object o => return .object o
  | .function f identity => return .function f identity
  | _ => makeObject {}

def convertToNumber (arguments : List Value) : Run Value := do
  match arguments with
  | [] => return .number 0.0
  | v :: _ => return .number (← toNumber v)

def convertToString (arguments : List Value) : Run Value := do
  match arguments with
  | [] => return .string ""
  | v :: _ => return .string (← toStrictText v)

def convertToBool (arguments : List Value) : Run Value :=
  return .bool (argument arguments 0).truthy

def testNumber (test : Float → Bool) (arguments : List Value) : Run Value :=
  match argument arguments 0 with
  | .number x => return .bool (test x)
  | _ => return .bool false

def readInteger (arguments : List Value) : Run Value := do
  let text ← textArgument arguments 0
  let radix := ((← numberArgument? arguments 1).map Number.toInt32).getD 0
  return .number (leadingInteger text radix)

def readNumber (arguments : List Value) : Run Value :=
  return .number (leadingNumber (← textArgument arguments 0))

def extremeOf (precedes : Float → Float → Bool) (best : Float) : List Value → Run Value
  -- The first number in an order among `best` and the arguments. The first argument that is not a
  -- number is the result, and those behind it are not converted.
  | [] => return .number best
  | v :: rest => do
    let x ← toNumber v
    if x.isNaN then return .number Number.nan
    else extremeOf precedes (if precedes x best then x else best) rest

def hypotenuse (arguments : List Value) : Run Value := do
  let xs ← arguments.mapM toNumber
  return .number (xs.foldl (fun sum x => sum + x * x) (-0.0)).sqrt

def callBuiltin (call : Caller) (b : Builtin) (arguments : List Value) : Run Value := do
  match b with
  | .print _ => print arguments
  | .prompt => prompt
  | .parseInt | .numberParseInt => readInteger arguments
  | .parseFloat | .numberParseFloat => readNumber arguments
  | .isNaN => return .bool (← numberOf arguments 0).isNaN
  | .isFinite => return .bool (← numberOf arguments 0).isFinite
  | .number => convertToNumber arguments
  | .string => convertToString arguments
  | .boolean => convertToBool arguments
  | .object => newObject arguments
  | .array => newArray arguments
  | .error kind => newError kind arguments
  | .setTimeout => setTimer false arguments
  | .setInterval => setTimer true arguments
  | .clearTimeout | .clearInterval => clearTimer arguments
  | .mathFunction f => return .number (f.apply (← numberOf arguments 0))
  | .atan2 => return .number ((← numberOf arguments 0).atan2 (← numberOf arguments 1))
  | .pow => return .number (Number.power (← numberOf arguments 0) (← numberOf arguments 1))
  | .hypot => hypotenuse arguments
  | .min => extremeOf (fun x y => x < y) Number.infinity arguments
  | .max => extremeOf (fun x y => y < x) (-Number.infinity) arguments
  | .random => return .number (← random)
  | .jsonText => jsonText arguments
  | .jsonParse => parseJson arguments
  | .keys => makeArray ((← ownKeys (argument arguments 0)).map .string)
  | .values =>
    let v := argument arguments 0
    makeArray (← memberValues v (← ownKeys v))
  | .entries =>
    let v := argument arguments 0
    makeArray (← memberPairs v (← ownKeys v))
  | .assign =>
    let target := argument arguments 0
    for source in arguments.drop 1 do copyMembers target source
    return target
  | .fromEntries => objectOfPairs (argument arguments 0)
  | .isArray =>
    match argument arguments 0 with
    | .array _ => return .bool true
    | _ => return .bool false
  | .arrayOf => makeArray arguments
  | .arrayFrom => arrayFrom call arguments
  | .isInteger => testNumber Number.isWhole arguments
  | .isSafeInteger =>
    testNumber (fun x => Number.isWhole x && x.abs ≤ 9007199254740991.0) arguments
  | .numberIsFinite => testNumber Float.isFinite arguments
  | .numberIsNaN => testNumber Float.isNaN arguments
  | .fromCharCode =>
    let codes ← arguments.mapM toNumber
    makeString (String.ofList (codes.filterMap charOfCode?))
  | .console | .math | .json => raise (.notFunction b.path)

def constructBuiltin (b : Builtin) (arguments : List Value) : Run Value :=
  match b with
  | .error kind => newError kind arguments
  | .array => newArray arguments
  | .object => newObject arguments
  | .number => convertToNumber arguments
  | .string => convertToString arguments
  | .boolean => convertToBool arguments
  | b => raise (.notConstructor b.path)

end Run

end Snippet.Script
