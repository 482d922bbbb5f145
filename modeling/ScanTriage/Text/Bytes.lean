/-!
# Byte texts

Reports, source snippets and paths are texts of bytes: nothing promises that
they are well-formed UTF-8, and what is not must survive unchanged. A `Bytes`
is a list, so every text function is a recursion over it. `afterLast` and
`lines` keep their working space constant, because a history file may hold
lines of a mebibyte.
-/

namespace ScanTriage

abbrev Bytes := List UInt8

namespace Bytes

def ofString (s : String) : Bytes := s.toUTF8.data.toList

instance : Coe String Bytes := ⟨ofString⟩

@[match_pattern] abbrev tab : UInt8 := 0x09
@[match_pattern] abbrev newline : UInt8 := 0x0A
@[match_pattern] abbrev carriageReturn : UInt8 := 0x0D
@[match_pattern] abbrev space : UInt8 := 0x20
@[match_pattern] abbrev quote : UInt8 := 0x22
@[match_pattern] abbrev hash : UInt8 := 0x23
@[match_pattern] abbrev apostrophe : UInt8 := 0x27
@[match_pattern] abbrev openParen : UInt8 := 0x28
@[match_pattern] abbrev closeParen : UInt8 := 0x29
@[match_pattern] abbrev plus : UInt8 := 0x2B
@[match_pattern] abbrev comma : UInt8 := 0x2C
@[match_pattern] abbrev minus : UInt8 := 0x2D
@[match_pattern] abbrev dot : UInt8 := 0x2E
@[match_pattern] abbrev slash : UInt8 := 0x2F
@[match_pattern] abbrev zero : UInt8 := 0x30
@[match_pattern] abbrev colon : UInt8 := 0x3A
@[match_pattern] abbrev equals : UInt8 := 0x3D
@[match_pattern] abbrev openBracket : UInt8 := 0x5B
@[match_pattern] abbrev backslash : UInt8 := 0x5C
@[match_pattern] abbrev closeBracket : UInt8 := 0x5D
@[match_pattern] abbrev underscore : UInt8 := 0x5F
@[match_pattern] abbrev openBrace : UInt8 := 0x7B
@[match_pattern] abbrev closeBrace : UInt8 := 0x7D

/-! ## Byte classes -/

def isDigit (b : UInt8) : Bool := 0x30 ≤ b && b ≤ 0x39

def isLower (b : UInt8) : Bool := 0x61 ≤ b && b ≤ 0x7A

def isUpper (b : UInt8) : Bool := 0x41 ≤ b && b ≤ 0x5A

/-- The value of a digit in a base of at most 36, in either case. -/
def digitValue? (b : UInt8) : Option Nat :=
  if isDigit b then some (b.toNat - 0x30)
  else if isLower b then some (b.toNat - 0x61 + 10)
  else if isUpper b then some (b.toNat - 0x41 + 10)
  else none

def hexValue? (b : UInt8) : Option Nat :=
  (digitValue? b).filter (· < 16)

def hexDigit (n : Nat) : UInt8 :=
  if n < 10 then UInt8.ofNat (0x30 + n) else UInt8.ofNat (0x61 + (n - 10))

def hexDigitUpper (n : Nat) : UInt8 :=
  if n < 10 then UInt8.ofNat (0x30 + n) else UInt8.ofNat (0x41 + (n - 10))

/-- Exactly `width` hexadecimal digits, the low ones of `n`. -/
def hexFixed (digit : Nat → UInt8) : (width : Nat) → (n : Nat) → Bytes → Bytes
  | 0, _, acc => acc
  | w + 1, n, acc => hexFixed digit w (n / 16) (digit (n % 16) :: acc)

def hex (width n : Nat) : Bytes := hexFixed hexDigit width n []

def hexUpper (width n : Nat) : Bytes := hexFixed hexDigitUpper width n []

/-! ## Decimal numerals -/

def decimalDigits : (fuel : Nat) → (n : Nat) → Bytes → Bytes
  | 0, _, acc => acc
  | fuel + 1, n, acc =>
    let acc := UInt8.ofNat (0x30 + n % 10) :: acc
    if n < 10 then acc else decimalDigits fuel (n / 10) acc

def decimal (n : Nat) : Bytes := decimalDigits (n + 1) n []

def decimalInt : Int → Bytes
  | .ofNat n => decimal n
  | .negSucc n => minus :: decimal (n + 1)

def decimalInt64 (n : Int64) : Bytes := decimalInt n.toInt

/-- The decimal numeral of `n`, filled up with zeros to `width` digits. -/
def decimalPadded (width n : Nat) : Bytes :=
  let digits := decimal n
  List.replicate (width - digits.length) zero ++ digits

/-! ## Searching and cutting -/

/-- Whether `part` stands somewhere in the text. -/
def occurs (part : Bytes) : Bytes → Bool
  | [] => part.isEmpty
  | b :: rest => part.isPrefixOf (b :: rest) || occurs part rest

/-- What follows `front` in a text that starts with it. -/
def after? : (front text : Bytes) → Option Bytes
  | [], text => some text
  | _ :: _, [] => none
  | a :: front, b :: text => if a == b then after? front text else none

/-- The text before the first `sep` and the text after it. -/
def cut? (sep : UInt8) (text : Bytes) : Option (Bytes × Bytes) :=
  match text.span (· != sep) with
  | (_, []) => none
  | (front, _ :: back) => some (front, back)

def replaceByte (old new : UInt8) (text : Bytes) : Bytes :=
  text.map fun b => if b == old then new else b

def splitAcc (sep : UInt8) : Bytes → Bytes → List Bytes → List Bytes
  | [], word, acc => (word.reverse :: acc).reverse
  | b :: rest, word, acc =>
    if b == sep then splitAcc sep rest [] (word.reverse :: acc)
    else splitAcc sep rest (b :: word) acc

/-- The pieces between separators: one more than there are separators. -/
def split (sep : UInt8) (text : Bytes) : List Bytes := splitAcc sep text [] []

/-- The text up to and including the last `sep`, or nothing without one. -/
def throughLast (sep : UInt8) (text : Bytes) : Bytes :=
  (text.reverse.dropWhile (· != sep)).reverse

/-- The text after the last `sep`, or the whole text without one. -/
def afterLast (sep : UInt8) (text : Bytes) : Bytes :=
  (text.reverse.takeWhile (· != sep)).reverse

/-- The part of `text` in front of its suffix `rest`. -/
def upTo (text rest : Bytes) : Bytes := text.take (text.length - rest.length)

def join (sep : Bytes) (parts : List Bytes) : Bytes := sep.intercalate parts

/-- Bytewise lexicographic order. -/
def le (a b : Bytes) : Bool := !(decide (b < a))

end Bytes

end ScanTriage
