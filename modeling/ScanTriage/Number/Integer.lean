import ScanTriage.Number.Power
import ScanTriage.Text.Bytes

/-!
# Reading 64-bit integers

Two notations: plain decimal numerals, and literals with a base mark (`0x`,
`0o`, `0b`, or a leading zero for octal) and underscores between digits. A
numeral is refused for its form or for its size; digits are taken from the
left, so a numeral that is already too large is `range` even if something
unreadable follows.
-/

namespace ScanTriage

namespace Integer

inductive Refusal where
  | form
  | range
  deriving DecidableEq

/-- Digits to the base `base`, in front of which `n` was read, as long as the
value stays below `2 ^ 64`. -/
def readDigits (base : Nat) (underscores : Bool) : Bytes → Nat → Except Refusal Nat
  | [], n => .ok n
  | b :: rest, n =>
    if b == Bytes.underscore && underscores then readDigits base underscores rest n
    else
      match Bytes.digitValue? b with
      | none => .error .form
      | some d =>
        if base ≤ d then .error .form
        else if 2 ^ 64 ≤ n * base + d then .error .range
        else readDigits base underscores rest (n * base + d)

def splitSign : Bytes → Bool × Bytes
  | Bytes.minus :: rest => (true, rest)
  | Bytes.plus :: rest => (false, rest)
  | rest => (false, rest)

/-- The base that the mark of an unsigned literal names, and its digits. -/
def splitBase : Bytes → Nat × Bytes
  | Bytes.zero :: mark :: d :: rest =>
    if mark == 0x62 || mark == 0x42 then (2, d :: rest)
    else if mark == 0x6F || mark == 0x4F then (8, d :: rest)
    else if mark == 0x78 || mark == 0x58 then (16, d :: rest)
    else (8, mark :: d :: rest)
  | Bytes.zero :: rest => (8, rest)
  | rest => (10, rest)

/-- What stood in front of a byte, as far as underscores care. -/
inductive Before where
  | digit
  | underscore
  | other
  deriving DecidableEq

def underscoresSeparate (hexadecimal : Bool) : Before → Bytes → Bool
  | before, [] => before != .underscore
  | before, b :: rest =>
    if Bytes.isDigit b || (hexadecimal && (Bytes.hexValue? b).isSome) then
      underscoresSeparate hexadecimal .digit rest
    else if b == Bytes.underscore then
      before == .digit && underscoresSeparate hexadecimal .underscore rest
    else before != .underscore && underscoresSeparate hexadecimal .other rest

/-- Whether every underscore of a literal stands between two digits; a base
mark counts as a digit. -/
def underscoresOk (s : Bytes) : Bool :=
  match (splitSign s).2 with
  | Bytes.zero :: mark :: rest =>
    if mark == 0x78 || mark == 0x58 then underscoresSeparate true .digit rest
    else if mark == 0x62 || mark == 0x42 || mark == 0x6F || mark == 0x4F then
      underscoresSeparate false .digit rest
    else underscoresSeparate false .digit (mark :: rest)
  | rest => underscoresSeparate false .other rest

def signed (negative : Bool) (magnitude : Nat) : Except Refusal Int64 :=
  if negative then
    if magnitude ≤ 2 ^ 63 then .ok (Int64.ofInt (-(magnitude : Int))) else .error .range
  else if magnitude < 2 ^ 63 then .ok (Int64.ofNat magnitude) else .error .range

def readDecimal (s : Bytes) : Except Refusal Int64 :=
  match splitSign s with
  | (_, []) => .error .form
  | (negative, digits) => readDigits 10 false digits 0 >>= signed negative

def readUnsignedLiteral (s : Bytes) : Except Refusal Nat :=
  match s with
  | [] => .error .form
  | _ =>
    let (base, digits) := splitBase s
    match readDigits base true digits 0 with
    | .error why => .error why
    | .ok n =>
      if s.contains Bytes.underscore && !underscoresOk s then .error .form else .ok n

def readLiteral (s : Bytes) : Except Refusal Int64 :=
  let (negative, digits) := splitSign s
  readUnsignedLiteral digits >>= signed negative

/-- The value of `-`, if present, and digits, reduced to 64 bits; nothing if
any other byte stands in the text. -/
def readWrapping? (s : Bytes) : Option Int64 :=
  let (negative, digits) :=
    match s with
    | Bytes.minus :: rest => (true, rest)
    | rest => (false, rest)
  if digits.isEmpty || !digits.all Bytes.isDigit then none
  else
    let n := digits.foldl (fun n b => n * 10 + Int64.ofNat (b.toNat - 0x30)) (0 : Int64)
    some (if negative then -n else n)

end Integer

end ScanTriage
