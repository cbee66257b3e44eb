/-!
JSON documents. A number is kept as it is written, so that no digit of it is lost and a whole
number can be told from one with a point.
-/

namespace Mechanism

inductive Json where
  | null
  | bool (value : Bool)
  | number (written : String)
  | text (value : String)
  | list (items : List Json)
  | object (fields : List (String × Json))
  deriving Inhabited

namespace Json

def field? (json : Json) (name : String) : Option Json :=
  match json with
  | object fields => (fields.reverse.find? fun field => field.1 == name).map (·.2)
  | _ => none

def text? : Json → Option String
  | text value => some value
  | _ => none

def list? : Json → Option (List Json)
  | list items => some items
  | _ => none

def int? : Json → Option Int
  | number written => if written == "-0" then none else written.toInt?
  | _ => none

def wordLimit : Nat := Nat.pow 2 64

def nat? (json : Json) : Option Nat := do
  let value ← json.int?
  if 0 ≤ value && value < wordLimit then some value.toNat else none

def nat (value : Nat) : Json := number (toString value)

def texts (words : List String) : Json := list (words.map text)

def orNull (json : Option Json) : Json := json.getD null

end Json

end Mechanism
