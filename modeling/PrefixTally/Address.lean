import PrefixTally.Bits

/-! Addresses as text.  A key whose bytes past the fourth are all zero is written as an IPv4
address, four decimal numbers with points between them; any other key is written as the IPv6 address
of its first sixteen bytes.  IPv6 text has eight hexadecimal groups in lower case, of which the
first longest run of at least two zero groups is written as a double colon; an address that maps an
IPv4 address ends in that address.  A length in bits follows when it is shorter than the address.
-/

namespace PrefixTally.Address

/-- Whether a key is written as an IPv4 address. -/
def isIPv4 (bytes : Bytes) : Bool := 4 ≤ bytes.length && (bytes.drop 4).all (· == 0)

/-- The first four bytes in decimal, with points between them. -/
def dottedQuad (bytes : Bytes) : List Char :=
  ['.'].intercalate ((bytes.take 4).map fun byte => Nat.toDigits 10 byte.toNat)

/-- The numbers that each two bytes write together. -/
def groups : Bytes → List Nat
  | high :: low :: rest => (256 * high.toNat + low.toNat) :: groups rest
  | _ => []

/-- The start and the length of the first longest run of zeros, `(0, 0)` when there is none. -/
def longestZeroRun (gs : List Nat) : Nat × Nat :=
  (List.range gs.length).foldl (fun best start =>
    let run := ((gs.drop start).takeWhile (· == 0)).length
    if best.2 < run then (start, run) else best) (0, 0)

/-- Groups in hexadecimal, with colons between them. -/
def colonHex (gs : List Nat) : List Char := [':'].intercalate (gs.map (Nat.toDigits 16))

/-- The groups that every address which maps an IPv4 address starts with. -/
def mappedGroups : List Nat := [0, 0, 0, 0, 0, 0xffff]

/-- The IPv6 text of sixteen bytes. -/
def colonText (bytes : Bytes) : List Char :=
  let gs := groups bytes
  if gs.take 6 = mappedGroups then "::ffff:".toList ++ dottedQuad (bytes.drop 12)
  else
    let (start, run) := longestZeroRun gs
    if 2 ≤ run then colonHex (gs.take start) ++ [':', ':'] ++ colonHex (gs.drop (start + run))
    else colonHex gs

/-- The text of an address of `full` bits of which the first `depth` count. -/
def withDepth (full depth : Nat) (address : List Char) : List Char :=
  if depth < full then address ++ '/' :: Nat.toDigits 10 depth else address

/-- The characters that write the first `depth` bits of a key. -/
def chars (bytes : Bytes) (depth : Nat) : List Char :=
  if isIPv4 bytes then withDepth 32 depth (dottedQuad bytes)
  else withDepth 128 depth (colonText ((bytes ++ List.replicate 16 0).take 16))

/-- The text of the first `depth` bits of a key. -/
def text (bytes : Bytes) (depth : Nat) : String := String.ofList (chars bytes depth)

end PrefixTally.Address
