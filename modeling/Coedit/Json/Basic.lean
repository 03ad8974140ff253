import Coedit.Word

/-!
# JSON values

The form in which the value types of this library are stored and exchanged. Numbers that are
written as integers are kept exactly; of any other number only the fact is kept that it is not an
integer, since no value type here holds one.
-/

namespace Coedit

/-- A JSON value. -/
inductive Json where
  | null
  | bool (value : Bool)
  /-- A number written as an integer. -/
  | integer (value : Int)
  /-- A number written with a fraction or an exponent. -/
  | real
  | string (value : String)
  | array (items : List Json)
  | object (fields : List (String × Json))
  deriving Repr

namespace Json

/-- The number as a JSON value. -/
def nat (n : Nat) : Json := .integer n

/-- The text as a JSON value. -/
def text (t : Text) : Json := .string (String.ofList t)

/-- The integer from 0 to `2 ^ 64 - 1` that the value is. -/
def word? : Json → Option Nat
  | .integer (.ofNat n) => if n < Word.bound then some n else none
  | _ => none

/-- The text that the value is. -/
def text? : Json → Option Text
  | .string s => some s.toList
  | _ => none

/-- The field of an object. -/
def field? (name : String) : Json → Option Json
  | .object fields => fields.lookup name
  | _ => none

end Json

end Coedit
