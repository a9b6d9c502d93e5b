import PrefixTally.Json

/-! Reading JSON text.  Each reader takes the characters that are left and returns a value with the
characters after it.  The readers of nested values spend one unit of fuel a call; a text of `n`
characters needs fewer than `2 * n + 2` nested calls, because every second call at least consumes a
character. -/

namespace PrefixTally.Json

namespace Reader

/-- The characters after leading blanks. -/
def skipBlanks (cs : List Char) : List Char :=
  cs.dropWhile fun c => c == ' ' || c == '\n' || c == '\r' || c == '\t'

/-- The value of a hexadecimal digit. -/
def hexDigit? (c : Char) : Option Nat :=
  if '0' ≤ c ∧ c ≤ '9' then some (c.toNat - '0'.toNat)
  else if 'a' ≤ c ∧ c ≤ 'f' then some (c.toNat - 'a'.toNat + 10)
  else if 'A' ≤ c ∧ c ≤ 'F' then some (c.toNat - 'A'.toNat + 10)
  else none

/-- The number that four hexadecimal digits write. -/
def unit? (a b c d : Char) : Option Nat := do
  let digits ← [a, b, c, d].mapM hexDigit?
  return digits.foldl (fun n digit => 16 * n + digit) 0

/-- The character that a high and a low surrogate write together. -/
def paired (high low : Nat) : Char :=
  Char.ofNat (0x10000 + (high - 0xd800) * 0x400 + (low - 0xdc00))

/-- The characters of a quoted string, after its opening quote. -/
def string : List Char → Option (List Char × List Char)
  | '"' :: rest => some ([], rest)
  | '\\' :: 'u' :: a :: b :: c :: d :: '\\' :: 'u' :: e :: f :: g :: h :: rest => do
    let first ← unit? a b c d
    let second ← unit? e f g h
    if 0xd800 ≤ first ∧ first < 0xdc00 then
      if 0xdc00 ≤ second ∧ second < 0xe000 then
        let (text, rest) ← string rest
        return (paired first second :: text, rest)
      else none
    else if 0xdc00 ≤ first ∧ first < 0xe000 then none
    else
      let (text, rest) ← string ('\\' :: 'u' :: e :: f :: g :: h :: rest)
      return (Char.ofNat first :: text, rest)
  | '\\' :: 'u' :: a :: b :: c :: d :: rest => do
    let unit ← unit? a b c d
    if 0xd800 ≤ unit ∧ unit < 0xe000 then none
    else
      let (text, rest) ← string rest
      return (Char.ofNat unit :: text, rest)
  | '\\' :: c :: rest => do
    let plain ← match c with
      | '"' => some '"' | '\\' => some '\\' | '/' => some '/' | 'b' => some '\x08'
      | 'f' => some '\x0c' | 'n' => some '\n' | 'r' => some '\r' | 't' => some '\t'
      | _ => none
    let (text, rest) ← string rest
    return (plain :: text, rest)
  | c :: rest => do
    if c.toNat < 0x20 then none
    else
      let (text, rest) ← string rest
      return (c :: text, rest)
  | [] => none
termination_by cs => cs.length

/-- The number that a run of decimal digits writes. -/
def decimal (digits : List Char) : Nat :=
  digits.foldl (fun n c => 10 * n + (c.toNat - '0'.toNat)) 0

/-- Whether digits form the whole part of a number: there is one, and no zero leads others. -/
def isWhole : List Char → Bool
  | [] => false
  | '0' :: rest => rest.isEmpty
  | _ :: _ => true

/-- The characters after a fraction, or all of them when they do not start with a point; nothing
when no digit follows the point. -/
def skipFraction? : List Char → Option (List Char)
  | '.' :: rest =>
    if (rest.takeWhile Char.isDigit).isEmpty then none else some (rest.dropWhile Char.isDigit)
  | cs => some cs

/-- The characters after an exponent, or all of them when they do not start with its mark; nothing
when no digit follows the mark and its sign. -/
def skipExponent? (cs : List Char) : Option (List Char) :=
  let digits (rest : List Char) : Option (List Char) :=
    if (rest.takeWhile Char.isDigit).isEmpty then none else some (rest.dropWhile Char.isDigit)
  match cs with
  | 'e' :: '+' :: rest | 'e' :: '-' :: rest | 'E' :: '+' :: rest | 'E' :: '-' :: rest => digits rest
  | 'e' :: rest | 'E' :: rest => digits rest
  | cs => some cs

/-- The number that a word writes: a whole part, perhaps a fraction, perhaps an exponent. -/
def ofWord (word : List Char) : Option Json :=
  let (negative, body) := match word with
    | '-' :: rest => (true, rest)
    | _ => (false, word)
  let whole := body.takeWhile Char.isDigit
  let rest := body.dropWhile Char.isDigit
  if !isWhole whole then none
  else if rest.isEmpty && !(negative && whole == ['0']) then
    some (.int (if negative then -(decimal whole : Int) else decimal whole))
  else match (skipFraction? rest).bind skipExponent? with
    | some [] => some (.fraction (String.ofList word))
    | _ => none

/-- Whether a character occurs in numbers. -/
def isNumeral (c : Char) : Bool :=
  c.isDigit || c == '-' || c == '+' || c == '.' || c == 'e' || c == 'E'

/-- A number. -/
def number (cs : List Char) : Option (Json × List Char) :=
  (ofWord (cs.takeWhile isNumeral)).map fun n => (n, cs.dropWhile isNumeral)

mutual

/-- A value, after any blanks. -/
def value : Nat → List Char → Option (Json × List Char)
  | 0, _ => none
  | fuel + 1, cs =>
    match skipBlanks cs with
    | 'n' :: 'u' :: 'l' :: 'l' :: rest => some (.null, rest)
    | 't' :: 'r' :: 'u' :: 'e' :: rest => some (.bool true, rest)
    | 'f' :: 'a' :: 'l' :: 's' :: 'e' :: rest => some (.bool false, rest)
    | '"' :: rest => (string rest).map fun (text, rest) => (.string (String.ofList text), rest)
    | '[' :: rest =>
      match skipBlanks rest with
      | ']' :: rest => some (.array [], rest)
      | rest => (items fuel rest).map fun (items, rest) => (.array items, rest)
    | '{' :: rest =>
      match skipBlanks rest with
      | '}' :: rest => some (.object [], rest)
      | rest => (fields fuel rest).map fun (fields, rest) => (.object fields, rest)
    | cs => number cs

/-- The items of an array that is not empty, and its closing bracket. -/
def items : Nat → List Char → Option (List Json × List Char)
  | 0, _ => none
  | fuel + 1, cs => do
    let (item, rest) ← value fuel cs
    match skipBlanks rest with
    | ']' :: rest => return ([item], rest)
    | ',' :: rest =>
      let (more, rest) ← items fuel rest
      return (item :: more, rest)
    | _ => none

/-- The fields of an object that is not empty, and its closing brace. -/
def fields : Nat → List Char → Option (List (String × Json) × List Char)
  | 0, _ => none
  | fuel + 1, cs =>
    match skipBlanks cs with
    | '"' :: rest => do
      let (name, rest) ← string rest
      match skipBlanks rest with
      | ':' :: rest =>
        let (item, rest) ← value fuel rest
        let field := (String.ofList name, item)
        match skipBlanks rest with
        | '}' :: rest => return ([field], rest)
        | ',' :: rest =>
          let (more, rest) ← fields fuel rest
          return (field :: more, rest)
        | _ => none
      | _ => none
    | _ => none

end

end Reader

/-- The value that a text writes, when the text is one JSON value and blanks. -/
def read? (text : String) : Option Json :=
  let cs := text.toList
  match Reader.value (2 * cs.length + 2) cs with
  | some (value, rest) => if (Reader.skipBlanks rest).isEmpty then some value else none
  | none => none

end PrefixTally.Json
