import ScanTriage.Timestamp
import ScanTriage.Number.Decimal

/-!
# Bare words that do not mean themselves

A text written without quotes is read back as a number, a truth value, nothing
or a point in time if it looks like one. `isAmbiguous` tells these texts, and
those that older readers take for truth values or for numbers to the base 60.
-/

namespace ScanTriage

namespace Yaml

/-- Words for truth values, nothing, and floating-point values. -/
def reservedWords : List Bytes :=
  [ "", "~", "null", "Null", "NULL", "true", "True", "TRUE", "false", "False", "FALSE",
    ".nan", ".NaN", ".NAN", ".inf", ".Inf", ".INF", "+.inf", "+.Inf", "+.INF",
    "-.inf", "-.Inf", "-.INF" ]

/-- Truth values of older readers. -/
def formerWords : List Bytes :=
  [ "y", "Y", "yes", "Yes", "YES", "on", "On", "ON",
    "n", "N", "no", "No", "NO", "off", "Off", "OFF" ]

/-! ## Points in time -/

def past? (b : UInt8) (s : Bytes) : Option Bytes := Bytes.after? [b] s

def shortNumber? : Bytes → Option (Nat × Bytes)
  | [] => none
  | a :: rest =>
    if !Bytes.isDigit a then none
    else
      match rest with
      | [] => some (a.toNat - 0x30, [])
      | b :: more =>
        if Bytes.isDigit b then some ((a.toNat - 0x30) * 10 + (b.toNat - 0x30), more)
        else some (a.toNat - 0x30, rest)

/-- A number that must stay below a bound, and what follows. -/
def below? (bound : Nat) (s : Bytes) : Option (Nat × Bytes) :=
  (shortNumber? s).filter (·.1 < bound)

def afterDate? (s : Bytes) : Option Bytes := do
  let (year, rest) := s.span Bytes.isDigit
  if year.length != 4 then none
  else
    let (month, rest) ← past? Bytes.minus rest >>= below? 13
    let (day, rest) ← past? Bytes.minus rest >>= shortNumber?
    let year := year.foldl (fun n d => n * 10 + (d.toNat - 0x30)) 0
    if 1 ≤ month && 1 ≤ day && day ≤ Timestamp.daysIn year month then some rest else none

def afterFraction : Bytes → Bytes
  | mark :: d :: rest =>
    if (mark == Bytes.dot || mark == Bytes.comma) && Bytes.isDigit d then
      rest.dropWhile Bytes.isDigit
    else mark :: d :: rest
  | rest => rest

def afterClock? (s : Bytes) : Option Bytes := do
  let (_, rest) ← below? 24 s
  let (_, rest) ← past? Bytes.colon rest >>= below? 60
  let (_, rest) ← past? Bytes.colon rest >>= below? 60
  some (afterFraction rest)

/-- Whether a text is a time zone: `Z`, or an offset. -/
def isZone (s : Bytes) : Bool :=
  match s with
  | [0x5A] => true
  | [sign, h1, h2, Bytes.colon, m1, m2] =>
    (sign == Bytes.plus || sign == Bytes.minus) && [h1, h2, m1, m2].all Bytes.isDigit &&
      (h1.toNat - 0x30) * 10 + (h2.toNat - 0x30) ≤ 24 &&
      (m1.toNat - 0x30) * 10 + (m2.toNat - 0x30) ≤ 60
  | _ => false

/-- A date, a date and a time after `T` with a zone, or a date and a time
after spaces without one. -/
def isTimestamp (s : Bytes) : Bool :=
  match afterDate? s with
  | none => false
  | some [] => true
  | some (mark :: rest) =>
    if mark == 0x54 || mark == 0x74 then ((afterClock? rest).map isZone).getD false
    else mark == Bytes.space && afterClock? (rest.dropWhile (· == Bytes.space)) == some []

/-! ## Numbers -/

def isOk {ε α : Type} : Except ε α → Bool
  | .ok _ => true
  | .error _ => false

/-- Whether digits stand at the front, and what follows them. -/
def digits (s : Bytes) : Bool × Bytes :=
  let (front, rest) := s.span Bytes.isDigit
  (!front.isEmpty, rest)

/-- An exponent, if there is one, up to the end of the text. -/
def endsWithExponent : Bytes → Bool
  | [] => true
  | mark :: rest =>
    Text.lowerByte mark == 0x65 && digits (Integer.splitSign rest).2 == (true, [])

/-- The form of a decimal fraction with digits before the point or after it. -/
def hasFloatForm (s : Bytes) : Bool :=
  let (whole, rest) := digits (Integer.splitSign s).2
  match rest with
  | Bytes.dot :: rest =>
    let (places, rest) := digits rest
    (whole || places) && endsWithExponent rest
  | rest => whole && endsWithExponent rest

def isFinite (s : Bytes) : Bool :=
  match Decimal.read? s with
  | some (.finite ..) => true
  | _ => false

/-- A signed numeral behind the mark of its base. -/
def isMarkedInteger (s : Bytes) : Bool :=
  let isNumeral (base : Nat) (s : Bytes) : Bool :=
    match Integer.splitSign s with
    | (_, []) => false
    | (negative, numeral) => isOk (Integer.readDigits base false numeral 0 >>= Integer.signed negative)
  match s with
  | Bytes.zero :: mark :: rest =>
    (mark == 0x62 && isNumeral 2 rest) || (mark == 0x6F && isNumeral 8 rest)
  | _ => false

/-- Numbers as they are read now; underscores do not count. -/
def isNumber (s : Bytes) : Bool :=
  let plain := s.filter (· != Bytes.underscore)
  isOk (Integer.readLiteral plain) || isOk (Integer.readUnsignedLiteral plain) ||
    (hasFloatForm plain && isFinite plain) || isMarkedInteger plain

/-- Digits between colons after the first, each group below 60, and the
fraction at their end. -/
def isSexagesimalTail : (fuel : Nat) → Bytes → Bool
  | 0, _ => false
  | fuel + 1, s =>
    match (past? Bytes.colon s).bind (below? 60) with
    | none => false
    | some (_, []) => true
    | some (_, Bytes.dot :: rest) => rest.all fun b => Bytes.isDigit b || b == Bytes.underscore
    | some (_, rest) => isSexagesimalTail fuel rest

def isSexagesimal (s : Bytes) : Bool :=
  match (Integer.splitSign s).2 with
  | [] => false
  | d :: rest =>
    Bytes.isDigit d &&
      isSexagesimalTail (s.length + 1)
        (rest.dropWhile fun b => Bytes.isDigit b || b == Bytes.underscore)

/-- Whether a text would be read as a number or a point in time. -/
def isNumeric (s : Bytes) : Bool :=
  match s with
  | [] => false
  | b :: _ =>
    if b == Bytes.dot then isFinite s
    else (Bytes.isDigit b || b == Bytes.plus || b == Bytes.minus) && (isTimestamp s || isNumber s)

/-- Whether a text needs quotes to mean itself. -/
def isAmbiguous (s : Bytes) : Bool :=
  reservedWords.contains s || formerWords.contains s || isNumeric s || isSexagesimal s

end Yaml

end ScanTriage
