/-!
JSON values. Members of an object keep their order. A number is an integer if it is written without
fraction and exponent, and text otherwise.
-/

namespace NilGuard

inductive Json where
  | null
  | bool (value : Bool)
  | int (value : Int)
  | real (text : String)
  | string (value : String)
  | array (items : List Json)
  | object (members : List (String × Json))
  deriving Repr, Inhabited

namespace Json

def ofNat (n : Nat) : Json :=
  .int n

/-- The value or null. -/
def ofOption (f : α → Json) : Option α → Json
  | none => .null
  | some a => f a

/-- The member of an object with a given name. A name that stands twice cannot be read. -/
def member? (name : String) : Json → Option (Option Json)
  | .object members =>
    match members.filter (·.1 == name) with
    | [] => some none
    | [(_, value)] => some (some value)
    | _ => none
  | _ => none

/-- The member of an object that must be there. -/
def required? (name : String) (read : Json → Option α) (j : Json) : Option α := do
  let value ← (← j.member? name)
  read value

/-- The member of an object that may be missing or null. -/
def optional? (name : String) (read : Json → Option α) (j : Json) : Option (Option α) := do
  match ← j.member? name with
  | none => return none
  | some .null => return none
  | some value => return some (← read value)

def string? : Json → Option String
  | .string s => some s
  | _ => none

/-- A whole number of 32 bits. -/
def word? : Json → Option Nat
  | .int (.ofNat n) => if n < UInt32.size then some n else none
  | _ => none

/-- Every item of a list. -/
def list? (read : Json → Option α) : Json → Option (List α)
  | .array items => items.mapM read
  | _ => none

end Json

end NilGuard
