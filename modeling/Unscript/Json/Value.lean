import Unscript.Number.Decimal

/-!
# JSON documents

A document keeps the order of the members of its objects and tells integers of any size from
floating point numbers.

* `Json.member?` finds a member of an object.
* `Json.insert` sets one, in its old place when it is there and at the end when it is not.
-/

namespace Unscript

open Number (Double)

/-- A JSON document. -/
inductive Json where
  | null
  | bool (b : Bool)
  | int (n : Int)
  | real (d : Double)
  | text (s : String)
  | array (items : List Json)
  | object (members : List (String × Json))
  deriving Inhabited

namespace Json

/-- The members with `key` set to `value`. -/
def insert (key : String) (value : Json) : List (String × Json) → List (String × Json)
  | [] => [(key, value)]
  | (k, v) :: rest => if k = key then (k, value) :: rest else (k, v) :: insert key value rest

/-- The value of a member of an object. -/
def member? (key : String) : Json → Option Json
  | .object members => members.lookup key
  | _ => none

/-- A document of a natural number. -/
def ofNat (n : Nat) : Json := .int n

/-- A document of a value that may be missing. -/
def ofOption {α : Type} (f : α → Json) : Option α → Json
  | some a => f a
  | none => .null

/-- A document of a list of texts. -/
def texts (xs : List String) : Json := .array (xs.map .text)

end Json

end Unscript
