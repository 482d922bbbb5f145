import ScanTriage.Text.Case
import ScanTriage.Number.Binary64
import ScanTriage.Number.Integer

/-!
# Floating-point numerals

`Decimal.read?` reads what a numeric field of a report may hold: decimal and
hexadecimal fractions, underscores between digits, and the words for infinity
and not-a-number. `Decimal.compact` and `Decimal.fixed` write a value.
-/

namespace ScanTriage

namespace Decimal

/-- The digits of a numeral before its exponent: their value, how many stand
after the point, and whether there were any. -/
structure Mantissa where
  value : Nat := 0
  places : Nat := 0
  sawPoint : Bool := false
  sawDigit : Bool := false

def Mantissa.push (base digit : Nat) (m : Mantissa) : Mantissa :=
  { m with
    value := m.value * base + digit
    places := if m.sawPoint then m.places + 1 else m.places
    sawDigit := true }

/-- Reads digits, at most one point, and underscores. -/
def readMantissa (base : Nat) : Bytes → Mantissa → Mantissa × Bytes
  | [], m => (m, [])
  | b :: rest, m =>
    if b == Bytes.underscore then readMantissa base rest m
    else if b == Bytes.dot then
      if m.sawPoint then (m, b :: rest) else readMantissa base rest { m with sawPoint := true }
    else
      match (Bytes.digitValue? b).filter (· < base) with
      | some d => readMantissa base rest (m.push base d)
      | none => (m, b :: rest)

/-- The digits of an exponent. Beyond five digits more of them change nothing. -/
def readExponentDigits : Bytes → Nat → Nat × Bytes
  | [], e => (e, [])
  | b :: rest, e =>
    if b == Bytes.underscore then readExponentDigits rest e
    else if Bytes.isDigit b then
      readExponentDigits rest (if e < 10000 then e * 10 + (b.toNat - 0x30) else e)
    else (e, b :: rest)

/-- The exponent after its letter `mark`, or zero where no exponent stands;
nothing if the letter is not followed by a digit. -/
def readExponent? (mark : UInt8) : Bytes → Option (Option Int × Bytes)
  | [] => some (none, [])
  | b :: rest =>
    if Text.lowerByte b != mark then some (none, b :: rest)
    else
      let (negative, digits) := Integer.splitSign rest
      match digits with
      | d :: _ =>
        if Bytes.isDigit d then
          let (e, rest) := readExponentDigits digits 0
          some (some (if negative then -(e : Int) else e), rest)
        else none
      | [] => none

/-- `value * 10 ^ e`, infinite or zero where `e` leaves no doubt. -/
def ofDecimal (negative : Bool) (value : Nat) (e : Int) : Binary64 :=
  let size : Int := ((Bytes.decimal value).length : Int) + e
  if value == 0 then .finite negative 0 0
  else if 310 < size then .infinite negative
  else if size < -330 then .finite negative 0 0
  else
    match e with
    | .ofNat k => .ofRatio negative (value * 10 ^ k) 1
    | .negSucc k => .ofRatio negative value (10 ^ (k + 1))

/-- `value * 2 ^ e`, infinite or zero where `e` leaves no doubt. -/
def ofHexadecimal (negative : Bool) (value : Nat) (e : Int) : Binary64 :=
  let size : Int := (value.log2 : Int) + e
  if value == 0 then .finite negative 0 0
  else if 1100 < size then .infinite negative
  else if size < -1100 then .finite negative 0 0
  else
    match e with
    | .ofNat k => .ofRatio negative (value * 2 ^ k) 1
    | .negSucc k => .ofRatio negative value (2 ^ (k + 1))

/-- `inf`, `infinity` and, without a sign, `nan`, in any case. -/
def readWord? (signed negative : Bool) (rest : Bytes) : Option Binary64 :=
  let word := Text.lowerAscii rest
  if word == "inf" || word == "infinity" then some (.infinite negative)
  else if word == "nan" && !signed then some .nan
  else none

def readUnsigned? (negative : Bool) (rest : Bytes) : Option Binary64 :=
  let hexadecimal? : Option Bytes :=
    match rest with
    | Bytes.zero :: mark :: d :: more =>
      if Text.lowerByte mark == 0x78 then some (d :: more) else none
    | _ => none
  match hexadecimal? with
  | some digits =>
    let (m, rest) := readMantissa 16 digits {}
    match m.sawDigit, readExponent? 0x70 rest with
    | true, some (some e, []) => some (ofHexadecimal negative m.value (e - 4 * m.places))
    | _, _ => none
  | none =>
    let (m, rest) := readMantissa 10 rest {}
    match m.sawDigit, readExponent? 0x65 rest with
    | true, some (e, []) => some (ofDecimal negative m.value (e.getD 0 - m.places))
    | _, _ => none

def read? (s : Bytes) : Option Binary64 :=
  let (negative, rest) := Integer.splitSign s
  match readWord? (rest.length != s.length) negative rest with
  | some value => some value
  | none =>
    if s.contains Bytes.underscore && !Integer.underscoresOk s then none
    else readUnsigned? negative rest

/-! ## Writing -/

def digitByte (d : Nat) : UInt8 := UInt8.ofNat (0x30 + d)

/-- Digits with a point at `point`, filled up with zeros on either side. -/
def positional (ds : List Nat) (point : Int) : Bytes :=
  match ds with
  | [] => "0"
  | _ =>
    let text := ds.map digitByte
    if point ≤ 0 then
      "0." ++ List.replicate point.natAbs Bytes.zero ++ text
    else
      let whole := point.toNat
      if ds.length ≤ whole then text ++ List.replicate (whole - ds.length) Bytes.zero
      else text.take whole ++ Bytes.dot :: text.drop whole

/-- One digit before the point, and the exponent with its sign unless it is
the plain `-`. -/
def scientific (ds : List Nat) (point : Int) : Bytes :=
  let text := ds.map digitByte
  let mantissa := text.take 1 ++ (if 1 < ds.length then Bytes.dot :: text.drop 1 else [])
  let e := point - 1
  let sign : UInt8 := if e < 0 then Bytes.minus else Bytes.plus
  let digits := Bytes.decimal e.natAbs
  let digits := if 0 ≤ e && e < 10 then Bytes.zero :: digits else digits
  mantissa ++ 0x65 :: sign :: digits

/-- The fewest digits that read back, positional from `1e-6` up to below
`1e21` and scientific elsewhere. -/
def compact : Binary64 → Bytes
  | .finite negative m e =>
    let s := Binary64.shortest m e
    let body : Bytes :=
      if s.digits.isEmpty then "0"
      else if s.point < -5 || 21 < s.point then scientific s.digits s.point
      else positional s.digits s.point
    if negative then Bytes.minus :: body else body
  | .infinite negative => if negative then "-Inf" else "+Inf"
  | .nan => "NaN"

/-- A value with one digit after the point, rounded to the nearest. -/
def oneDecimal : Binary64 → Bytes
  | .finite negative m e =>
    let (n, d) := Binary64.ratio m e
    let q := Binary64.roundDiv (n * 10) d
    (if negative then [Bytes.minus] else []) ++ Bytes.decimal (q / 10) ++ Bytes.dot ::
      [digitByte (q % 10)]
  | .infinite negative => if negative then "-Inf" else "+Inf"
  | .nan => "NaN"

end Decimal

end ScanTriage
