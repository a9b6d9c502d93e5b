/-! JSON values and their compact text.  A number is either a whole number, kept exactly at any
size, or any other number, kept as it was written: tallies, counts and depths are all whole, so no
other number is ever computed with. -/

namespace PrefixTally

/-- A JSON value.  The fields of an object stand in the order in which they are written. -/
inductive Json where
  | null
  | bool (b : Bool)
  | int (n : Int)
  /-- A number written with a fraction, with an exponent, or as minus zero. -/
  | fraction (text : String)
  | string (s : String)
  | array (items : List Json)
  | object (fields : List (String × Json))

namespace Json

/-- A natural number as a JSON value. -/
def nat (n : Nat) : Json := .int n

/-- The value of a field of an object, the last one if the name occurs more than once. -/
def field? (name : String) : Json → Option Json
  | .object fields => (fields.reverse.find? fun f => f.1 == name).map Prod.snd
  | _ => none

/-- The whole number that a value is, when it lies between zero and `limit`. -/
def natUpTo? (limit : Nat) : Json → Option Nat
  | .int n => if 0 ≤ n ∧ n ≤ limit then some n.toNat else none
  | _ => none

/-- The string that a value is. -/
def string? : Json → Option String
  | .string s => some s
  | _ => none

/-- The choice that a value names: a string, or an object whose only field has the name and says
nothing more about it. -/
def choice? : Json → Option String
  | .string name => some name
  | .object [(name, .null)] => some name
  | _ => none

/-- The items of an array. -/
def items? : Json → Option (List Json)
  | .array items => some items
  | _ => none

/-! ### Compact text -/

/-- A character inside a quoted string: quotes, backslashes and control characters are escaped. -/
def escape (c : Char) : String :=
  if c = '"' then "\\\""
  else if c = '\\' then "\\\\"
  else if c = '\n' then "\\n"
  else if c = '\r' then "\\r"
  else if c = '\t' then "\\t"
  else if c = '\x08' then "\\b"
  else if c = '\x0c' then "\\f"
  else if c.toNat < 0x20 then
    let digits := Nat.toDigits 16 c.toNat
    "\\u" ++ String.ofList (List.replicate (4 - digits.length) '0' ++ digits)
  else c.toString

/-- `out` and after it a string in quotes. -/
def quoteOnto (out s : String) : String :=
  s.toList.foldl (fun out c => out ++ escape c) (out ++ "\"") ++ "\""

mutual

/-- `out` and after it a value without any blanks. -/
def compactOnto (out : String) : Json → String
  | .null => out ++ "null"
  | .bool true => out ++ "true"
  | .bool false => out ++ "false"
  | .int n => out ++ n.repr
  | .fraction text => out ++ text
  | .string s => quoteOnto out s
  | .array items => itemsOnto (out ++ "[") items ++ "]"
  | .object fields => fieldsOnto (out ++ "\x7b") fields ++ "\x7d"

/-- `out` and after it the items of an array, with commas between them. -/
def itemsOnto (out : String) : List Json → String
  | [] => out
  | [item] => compactOnto out item
  | item :: rest => itemsOnto (compactOnto out item ++ ",") rest

/-- `out` and after it the fields of an object, with commas between them. -/
def fieldsOnto (out : String) : List (String × Json) → String
  | [] => out
  | [(name, value)] => compactOnto (quoteOnto out name ++ ":") value
  | (name, value) :: rest =>
    fieldsOnto (compactOnto (quoteOnto out name ++ ":") value ++ ",") rest

end

/-- The text of a value without any blanks. -/
def compact (j : Json) : String := compactOnto "" j

end Json

end PrefixTally
