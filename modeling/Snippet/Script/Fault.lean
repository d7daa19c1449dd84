import Snippet.Script.Token
import Snippet.Script.Value

/-!
The errors that operations raise while a script runs. A script can catch them, and what it then receives
is an error object.
-/

namespace Snippet.Script

inductive RuntimeError where
  | notDefined (name : String)
  | constantAssignment
  | readOfNullish (value key : String)
  | writeOfNullish (value key : String)
  | destructureNullish (value : String)
  | notIterable (label : String)
  | notFunction (label : String)
  | missingCallback (method : String)
  | notConstructor (label : String)
  | classCall (name : String)
  | inOperand (key value : String)
  | instanceOperand
  | timerCallback (typeName : String)
  | badComparator
  | emptyReduce
  | circularJson
  | stringLength
  | arrayLength
  | stackOverflow
  | repeatCount (x : Float)
  | fixedDigits
  | radix
  | invalidTarget
deriving Repr

namespace RuntimeError

def kind : RuntimeError → ErrorKind
  | .notDefined _ => .reference
  | .stringLength | .arrayLength | .stackOverflow | .repeatCount _ | .fixedDigits | .radix => .range
  | .invalidTarget => .grammar
  | _ => .type

def message : RuntimeError → String
  | .notDefined name => s!"{name} is not defined"
  | .constantAssignment => "Assignment to constant variable."
  | .readOfNullish value key => s!"Cannot read properties of {value} (reading '{key}')"
  | .writeOfNullish value key => s!"Cannot set properties of {value} (setting '{key}')"
  | .destructureNullish value => s!"Cannot destructure '{value}' as it is {value}."
  | .notIterable label => s!"{label} is not iterable"
  | .notFunction label => s!"{label} is not a function"
  | .missingCallback method => s!"undefined is not a function (calling {method})"
  | .notConstructor label => s!"{label} is not a constructor"
  | .classCall name => s!"Class constructor {name} cannot be invoked without 'new'"
  | .inOperand key value => s!"Cannot use 'in' operator to search for '{key}' in {value}"
  | .instanceOperand => "Right-hand side of 'instanceof' is not callable"
  | .timerCallback typeName =>
    s!"The \"callback\" argument must be of type function. Received {typeName}"
  | .badComparator => "The comparison function must be either a function or undefined"
  | .emptyReduce => "Reduce of empty array with no initial value"
  | .circularJson => "Converting circular structure to JSON"
  | .stringLength => "Invalid string length"
  | .arrayLength => "Invalid array length"
  | .stackOverflow => "Maximum call stack size exceeded"
  | .repeatCount x => s!"Invalid count value: {String.ofList (numberText x)}"
  | .fixedDigits => "toFixed() digits argument must be between 0 and 100"
  | .radix => "toString() radix must be between 2 and 36"
  | .invalidTarget => "Invalid left-hand side in assignment"

def report (e : RuntimeError) : String :=
  -- The text reported for an error that nothing caught. An invalid target is worded like a fault of
  -- the text of a script, though no line is known for it.
  match e with
  | .invalidTarget => s!"{e.kind.name}: {e.message} (line 0)"
  | _ => s!"{e.kind.name}: {e.message}"

end RuntimeError

end Snippet.Script
