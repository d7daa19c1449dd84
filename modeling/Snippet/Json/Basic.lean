/-!
JSON values. The members of an object keep the order in which their keys first came; whole numbers
and fractions are told apart, as they are written differently.
-/

namespace Snippet

inductive Json where
  | null
  | bool (b : Bool)
  | integer (n : Int)
  | float (x : Float)
  | string (s : String)
  | array (items : List Json)
  | object (members : List (String × Json))
deriving Inhabited

namespace Json

def put (key : String) (value : Json) : List (String × Json) → List (String × Json)
  -- The members after `key` is given `value`: a key that is present keeps its place.
  | [] => [(key, value)]
  | (k, v) :: rest => if k == key then (k, value) :: rest else (k, v) :: put key value rest

def ofMembers (members : List (String × Json)) : List (String × Json) :=
  members.foldl (fun acc member => put member.1 member.2 acc) []

end Json

end Snippet
