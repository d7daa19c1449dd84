/-!
What scripts find built in: the global names with their members, and the methods of strings, arrays,
numbers and objects. Each has a name by which scripts reach it.
-/

namespace Snippet.Script

inductive ErrorKind where
  | general
  | type
  | range
  | grammar
  | reference
deriving DecidableEq, Repr

def ErrorKind.name : ErrorKind → String
  | .general => "Error"
  | .type => "TypeError"
  | .range => "RangeError"
  | .grammar => "SyntaxError"
  | .reference => "ReferenceError"

inductive MathFunction where
  | abs | floor | ceil | round | trunc | sign | sqrt | cbrt | exp | log | log2 | log10
  | sin | cos | tan | atan
deriving DecidableEq, Repr

namespace MathFunction

def name : MathFunction → String
  | .abs => "abs"
  | .floor => "floor"
  | .ceil => "ceil"
  | .round => "round"
  | .trunc => "trunc"
  | .sign => "sign"
  | .sqrt => "sqrt"
  | .cbrt => "cbrt"
  | .exp => "exp"
  | .log => "log"
  | .log2 => "log2"
  | .log10 => "log10"
  | .sin => "sin"
  | .cos => "cos"
  | .tan => "tan"
  | .atan => "atan"

def table : List MathFunction :=
  [.abs, .floor, .ceil, .round, .trunc, .sign, .sqrt, .cbrt, .exp, .log, .log2, .log10,
   .sin, .cos, .tan, .atan]

end MathFunction

inductive Channel where
  | log | info | warn | error | debug
deriving DecidableEq, Repr

def Channel.name : Channel → String
  | .log => "log"
  | .info => "info"
  | .warn => "warn"
  | .error => "error"
  | .debug => "debug"

inductive Builtin where
  -- The built-in functions. The namespaces are functions as well, though most of them cannot be
  -- called.
  | console | math | json | object | array | number | string | boolean
  | error (kind : ErrorKind)
  | parseInt | parseFloat | isNaN | isFinite | prompt
  | setTimeout | setInterval | clearTimeout | clearInterval
  | print (channel : Channel)
  | mathFunction (f : MathFunction)
  | atan2 | pow | hypot | min | max | random
  | jsonText | jsonParse
  | keys | values | entries | assign | fromEntries
  | isArray | arrayFrom | arrayOf
  | isInteger | isSafeInteger | numberIsFinite | numberIsNaN | numberParseInt | numberParseFloat
  | fromCharCode
deriving DecidableEq, Repr

namespace Builtin

def owner? : Builtin → Option Builtin
  | .print _ => some .console
  | .mathFunction _ => some .math
  | .atan2 | .pow | .hypot | .min | .max | .random => some .math
  | .jsonText | .jsonParse => some .json
  | .keys | .values | .entries | .assign | .fromEntries => some .object
  | .isArray | .arrayFrom | .arrayOf => some .array
  | .isInteger | .isSafeInteger | .numberIsFinite | .numberIsNaN | .numberParseInt
  | .numberParseFloat => some .number
  | .fromCharCode => some .string
  | _ => none

def name : Builtin → String
  | .console => "console"
  | .math => "Math"
  | .json => "JSON"
  | .object => "Object"
  | .array => "Array"
  | .number => "Number"
  | .string => "String"
  | .boolean => "Boolean"
  | .error kind => kind.name
  | .parseInt | .numberParseInt => "parseInt"
  | .parseFloat | .numberParseFloat => "parseFloat"
  | .isNaN | .numberIsNaN => "isNaN"
  | .isFinite | .numberIsFinite => "isFinite"
  | .prompt => "prompt"
  | .setTimeout => "setTimeout"
  | .setInterval => "setInterval"
  | .clearTimeout => "clearTimeout"
  | .clearInterval => "clearInterval"
  | .print channel => channel.name
  | .mathFunction f => f.name
  | .atan2 => "atan2"
  | .pow => "pow"
  | .hypot => "hypot"
  | .min => "min"
  | .max => "max"
  | .random => "random"
  | .jsonText => "stringify"
  | .jsonParse => "parse"
  | .keys => "keys"
  | .values => "values"
  | .entries => "entries"
  | .assign => "assign"
  | .fromEntries => "fromEntries"
  | .isArray => "isArray"
  | .arrayFrom => "from"
  | .arrayOf => "of"
  | .isInteger => "isInteger"
  | .isSafeInteger => "isSafeInteger"
  | .fromCharCode => "fromCharCode"

def path (b : Builtin) : String :=
  match b.owner? with
  | some owner => s!"{owner.name}.{b.name}"
  | none => b.name

def globals : List Builtin :=
  [.console, .math, .json, .object, .array, .number, .string, .boolean,
   .error .general, .error .type, .error .range, .error .grammar, .error .reference,
   .parseInt, .parseFloat, .isNaN, .isFinite, .prompt,
   .setTimeout, .setInterval, .clearTimeout, .clearInterval]

def namespaced : List Builtin :=
  [.print .log, .print .info, .print .warn, .print .error, .print .debug]
    ++ MathFunction.table.map .mathFunction
    ++ [.atan2, .pow, .hypot, .min, .max, .random, .jsonText, .jsonParse,
        .keys, .values, .entries, .assign, .fromEntries, .isArray, .arrayFrom, .arrayOf,
        .isInteger, .isSafeInteger, .numberIsFinite, .numberIsNaN, .numberParseInt,
        .numberParseFloat, .fromCharCode]

def member? (owner : Builtin) (key : String) : Option Builtin :=
  namespaced.find? fun b => b.owner? == some owner && b.name == key

def constant? (owner : Builtin) (key : String) : Option Float :=
  match owner with
  | .math =>
    match key with
    | "PI" => some 3.14159265358979323846
    | "E" => some 2.71828182845904523536
    | "LN2" => some 0.693147180559945309417
    | "LN10" => some 2.30258509299404568402
    | "SQRT2" => some 1.41421356237309504880
    | _ => none
  | .number =>
    match key with
    | "MAX_SAFE_INTEGER" => some 9007199254740991.0
    | "MIN_SAFE_INTEGER" => some (-9007199254740991.0)
    | "EPSILON" => some (Float.ofBits 0x3cb0000000000000)
    | "MAX_VALUE" => some (Float.ofBits 0x7fefffffffffffff)
    | "POSITIVE_INFINITY" => some (1.0 / 0.0)
    | "NEGATIVE_INFINITY" => some (-1.0 / 0.0)
    | "NaN" => some (0.0 / 0.0)
    | _ => none
  | _ => none

end Builtin

inductive StringMethod where
  | item | charAt | charCodeAt | concat | endsWith | includes | indexOf | lastIndexOf
  | padEnd | padStart | repeated | replace | replaceAll | slice | split | startsWith
  | substr | substring | toLowerCase | text | toUpperCase | trim | trimEnd | trimStart | valueOf
deriving DecidableEq, Repr

namespace StringMethod

def name : StringMethod → String
  | .item => "at"
  | .charAt => "charAt"
  | .charCodeAt => "charCodeAt"
  | .concat => "concat"
  | .endsWith => "endsWith"
  | .includes => "includes"
  | .indexOf => "indexOf"
  | .lastIndexOf => "lastIndexOf"
  | .padEnd => "padEnd"
  | .padStart => "padStart"
  | .repeated => "repeat"
  | .replace => "replace"
  | .replaceAll => "replaceAll"
  | .slice => "slice"
  | .split => "split"
  | .startsWith => "startsWith"
  | .substr => "substr"
  | .substring => "substring"
  | .toLowerCase => "toLowerCase"
  | .text => "toString"
  | .toUpperCase => "toUpperCase"
  | .trim => "trim"
  | .trimEnd => "trimEnd"
  | .trimStart => "trimStart"
  | .valueOf => "valueOf"

def table : List StringMethod :=
  [.item, .charAt, .charCodeAt, .concat, .endsWith, .includes, .indexOf, .lastIndexOf, .padEnd,
   .padStart, .repeated, .replace, .replaceAll, .slice, .split, .startsWith, .substr, .substring,
   .toLowerCase, .text, .toUpperCase, .trim, .trimEnd, .trimStart, .valueOf]

def ofName? (name : String) : Option StringMethod := table.find? fun m => m.name == name

end StringMethod

inductive Visit where
  | forEach | map | flatMap | filter | find | findLast | findIndex | findLastIndex | any | every
deriving DecidableEq, Repr

namespace Visit

def name : Visit → String
  | .forEach => "forEach"
  | .map => "map"
  | .flatMap => "flatMap"
  | .filter => "filter"
  | .find => "find"
  | .findLast => "findLast"
  | .findIndex => "findIndex"
  | .findLastIndex => "findLastIndex"
  | .any => "some"
  | .every => "every"

def backward : Visit → Bool
  | .findLast | .findLastIndex => true
  | _ => false

end Visit

inductive ArrayMethod where
  | visit (v : Visit)
  | item | concat | fill | flat | includes | indexOf | join | lastIndexOf | pop | push
  | reduce | reduceRight | reverse | shift | slice | sort | splice | text | unshift
deriving DecidableEq, Repr

namespace ArrayMethod

def name : ArrayMethod → String
  | .visit v => v.name
  | .item => "at"
  | .concat => "concat"
  | .fill => "fill"
  | .flat => "flat"
  | .includes => "includes"
  | .indexOf => "indexOf"
  | .join => "join"
  | .lastIndexOf => "lastIndexOf"
  | .pop => "pop"
  | .push => "push"
  | .reduce => "reduce"
  | .reduceRight => "reduceRight"
  | .reverse => "reverse"
  | .shift => "shift"
  | .slice => "slice"
  | .sort => "sort"
  | .splice => "splice"
  | .text => "toString"
  | .unshift => "unshift"

def table : List ArrayMethod :=
  [.push, .pop, .shift, .unshift, .item, .concat, .fill, .flat, .includes, .indexOf, .join,
   .lastIndexOf, .reduce, .reduceRight, .reverse, .slice, .sort, .splice, .text]
    ++ [Visit.forEach, .map, .flatMap, .filter, .find, .findLast, .findIndex, .findLastIndex, .any,
        .every].map .visit

def ofName? (name : String) : Option ArrayMethod := table.find? fun m => m.name == name

end ArrayMethod

inductive NumberMethod where
  | toFixed | toLocaleString | text | valueOf
deriving DecidableEq, Repr

namespace NumberMethod

def name : NumberMethod → String
  | .toFixed => "toFixed"
  | .toLocaleString => "toLocaleString"
  | .text => "toString"
  | .valueOf => "valueOf"

def table : List NumberMethod := [.toFixed, .toLocaleString, .text, .valueOf]

def ofName? (name : String) : Option NumberMethod := table.find? fun m => m.name == name

end NumberMethod

inductive ObjectMethod where
  | hasOwnProperty | text
deriving DecidableEq, Repr

namespace ObjectMethod

def name : ObjectMethod → String
  | .hasOwnProperty => "hasOwnProperty"
  | .text => "toString"

def table : List ObjectMethod := [.hasOwnProperty, .text]

def ofName? (name : String) : Option ObjectMethod := table.find? fun m => m.name == name

end ObjectMethod

end Snippet.Script
