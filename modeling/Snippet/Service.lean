import Snippet.Report
import Snippet.MediaType

/-!
Requests to run a snippet and the answers to them.
-/

namespace Snippet

structure Request where
  source : Option String := none
  language : Option String := none
  stdin : Option String := none
deriving Repr, DecidableEq

def Request.ofForm? (form : Json.Form) : Option Request := do
  let fields ← form.fields? [["source"], ["language"], ["stdin"]]
  let source ← fields.nullable? 0 Json.Form.string?
  let language ← fields.nullable? 1 Json.Form.string?
  let stdin ← fields.nullable? 2 Json.Form.string?
  pure { source, language, stdin }

def Request.ofText? (text : String) : Option Request :=
  (Json.Form.ofText? text.toList).bind Request.ofForm?

inductive Answer where
  | ok (report : Report)
  | badRequest

namespace Answer

def maxBodySize : Nat := 2097152

def accepted? (contentType : Option String) (body : String) : Option Request :=
  match contentType with
  | some type =>
    if MediaType.declaresJson type && body.utf8ByteSize ≤ maxBodySize then Request.ofText? body
    else none
  | none => none

def toPost (run : Request → Report) (contentType : Option String) (body : String) : Answer :=
  match accepted? contentType body with
  | some request => .ok (run request)
  | none => .badRequest

def statusCode : Answer → Nat
  | .ok _ => 200
  | .badRequest => 400

def body : Answer → Json
  | .ok report => report.toJson
  | .badRequest => .object [("reason", .string "ERR_INVALID_ARGUMENT"), ("code", .integer 1)]

end Answer

end Snippet
