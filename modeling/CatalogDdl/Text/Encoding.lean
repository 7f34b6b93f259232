/-!
# Encodings of a file

A file is read as UTF-8 if it is well formed as that. If not, a byte order mark at its start names
the encoding, and without a mark each byte is one character of Windows-1252. A byte order mark is
not part of the text.
-/
namespace CatalogDdl.Text

def orderMark : Char := '\ufeff'

/-- A text without the one byte order mark it may begin with. -/
def dropMark : List Char → List Char
  | c :: rest => if c = orderMark then rest else c :: rest
  | [] => []

/-- The characters of the bytes 0x80 to 0x9f in Windows-1252. The five bytes it leaves open are
control characters of the same number. -/
def windows1252Upper : List Char :=
  ['\u20ac', '\u0081', '\u201a', '\u0192', '\u201e', '\u2026', '\u2020', '\u2021',
   '\u02c6', '\u2030', '\u0160', '\u2039', '\u0152', '\u008d', '\u017d', '\u008f',
   '\u0090', '\u2018', '\u2019', '\u201c', '\u201d', '\u2022', '\u2013', '\u2014',
   '\u02dc', '\u2122', '\u0161', '\u203a', '\u0153', '\u009d', '\u017e', '\u0178']

def windows1252 (byte : UInt8) : Char :=
  if 0x80 ≤ byte ∧ byte < 0xa0 then windows1252Upper.getD (byte.toNat - 0x80) orderMark
  else Char.ofNat byte.toNat

/-- Which byte of a sixteen-bit unit comes first. -/
inductive ByteOrder where
  | low
  | high
  deriving DecidableEq, Repr

/-- The units of sixteen bits that the bytes make; an odd number of bytes makes none. -/
def units16 (order : ByteOrder) : List UInt8 → Option (List Nat)
  | [] => some []
  | [_] => none
  | a :: b :: rest =>
    let unit := match order with
      | .low => a.toNat + 256 * b.toNat
      | .high => 256 * a.toNat + b.toNat
    (units16 order rest).map (unit :: ·)

/-- Units that open a surrogate pair. -/
def isLeading (unit : Nat) : Bool := 0xd800 ≤ unit && unit < 0xdc00

/-- Units that close a surrogate pair. -/
def isTrailing (unit : Nat) : Bool := 0xdc00 ≤ unit && unit < 0xe000

/-- The text of UTF-16 units; a surrogate outside a pair makes the units malformed. -/
def ofUnits16 : List Nat → Option (List Char)
  | [] => some []
  | [u] => if isLeading u || isTrailing u then none else some [Char.ofNat u]
  | u :: v :: rest =>
    if isLeading u && isTrailing v then
      (ofUnits16 rest).map (Char.ofNat (0x10000 + 0x400 * (u - 0xd800) + (v - 0xdc00)) :: ·)
    else if isLeading u || isTrailing u then none
    else (ofUnits16 (v :: rest)).map (Char.ofNat u :: ·)

/-- The text of bytes that are not well-formed UTF-8. Under the mark of UTF-8 they stay
malformed. -/
def decodeFallback : List UInt8 → Option (List Char)
  | 0xef :: 0xbb :: 0xbf :: _ => none
  | 0xff :: 0xfe :: rest => (units16 .low rest).bind ofUnits16
  | 0xfe :: 0xff :: rest => (units16 .high rest).bind ofUnits16
  | bytes => some (bytes.map windows1252)

/-- The text of a file, or nothing if the bytes after its mark are malformed. -/
def decode (bytes : ByteArray) : Option String :=
  match String.fromUTF8? bytes with
  | some s => some (String.ofList (dropMark s.toList))
  | none => (decodeFallback bytes.data.toList).map fun s => String.ofList (dropMark s)

end CatalogDdl.Text
