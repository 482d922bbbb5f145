import ScanTriage.Text.Case
import ScanTriage.Json.Reader
import ScanTriage.Number.Decimal

/-!
# The tolerant reader

Reports come from many scanner versions, so they are read without ever
failing. A `Glimpse` is what can be made out of a value: its shape, told by
its first byte, and the bytes it covers. The reader runs over bytes it does
not understand, takes the first member of a name, and keeps what a truncated
text still shows.
-/

namespace ScanTriage

namespace Json

/-- What kind of value the first byte announces. -/
inductive Shape where
  | null
  | bool (value : Bool)
  | number
  | string (text : Bytes)
  | nested
  deriving DecidableEq

/-- A value and the bytes it covers. A value that is not there is a `null`
that covers nothing. -/
structure Glimpse where
  shape : Shape
  raw : Bytes
  deriving DecidableEq

namespace Glimpse

def missing : Glimpse := ⟨.null, []⟩

/-! ## Strings -/

/-- Four hexadecimal digits, or zero if one of them is none. -/
def hex4 (digits : Bytes) : Nat :=
  match hex4? digits with
  | some (code, _) => code
  | none => 0

/-- A surrogate takes the escape after it along, whatever that holds. -/
def joinSurrogate (high : Nat) (rest : Bytes) : Nat × Bytes :=
  match rest with
  | Bytes.backslash :: 0x75 :: a :: b :: c :: d :: more =>
    ((surrogatePair? high (hex4 [a, b, c, d])).getD Utf8.replacement, more)
  | _ => (Utf8.replacement, rest)

/-- Onto `acc`, in reverse, the meaning of a string body; it ends early at a
control character and at an escape that makes no sense. -/
def unescapeOnto : (fuel : Nat) → Bytes → Bytes → Bytes
  | 0, acc, _ => acc
  | _, acc, [] => acc
  | fuel + 1, acc, b :: rest =>
    if b < 0x20 then acc
    else if b == Bytes.backslash then
      match rest with
      | 0x75 :: h1 :: h2 :: h3 :: h4 :: more =>
        let code := hex4 [h1, h2, h3, h4]
        let (code, more) := if isSurrogate code then joinSurrogate code more else (code, more)
        unescapeOnto fuel ((Utf8.encode code).reverse ++ acc) more
      | e :: more =>
        match shortEscape? e with
        | some c => unescapeOnto fuel (c :: acc) more
        | none => acc
      | [] => acc
    else unescapeOnto fuel (b :: acc) rest

/-- The text that a string body stands for. A body without a backslash stands
for itself. -/
def unescape (body : Bytes) : Bytes :=
  if body.contains Bytes.backslash then (unescapeOnto body.length [] body).reverse else body

/-- The body of a string whose opening quote has been read, onto `acc` in
reverse, and what follows the closing quote; nothing if the string is left
open. -/
def takeString? : (escaped : Bool) → Bytes → Bytes → Option (Bytes × Bytes)
  | _, _, [] => none
  | escaped, acc, b :: rest =>
    if escaped then takeString? false (b :: acc) rest
    else if b == Bytes.quote then some (acc.reverse, rest)
    else takeString? (b == Bytes.backslash) (b :: acc) rest

def ofBody (body : Bytes) : Glimpse :=
  ⟨.string (unescape body), Bytes.quote :: body ++ [Bytes.quote]⟩

/-! ## Containers, numbers and words -/

/-- Where a scan over a container stands. -/
inductive Within where
  | outside
  | string
  | escape

/-- The rest of a container of which `depth + 1` brackets are open, onto `acc`
in reverse, and what follows it. -/
def takeNested : (depth : Nat) → Within → Bytes → Bytes → Bytes × Bytes
  | _, _, acc, [] => (acc.reverse, [])
  | depth, within, acc, b :: rest =>
    match within with
    | .escape => takeNested depth .string (b :: acc) rest
    | .string =>
      let within :=
        if b == Bytes.quote then Within.outside
        else if b == Bytes.backslash then .escape
        else .string
      takeNested depth within (b :: acc) rest
    | .outside =>
      if b == Bytes.quote then takeNested depth .string (b :: acc) rest
      else if b == Bytes.openBrace || b == Bytes.openBracket || b == Bytes.openParen then
        takeNested (depth + 1) .outside (b :: acc) rest
      else if b == Bytes.closeBrace || b == Bytes.closeBracket || b == Bytes.closeParen then
        match depth with
        | 0 => ((b :: acc).reverse, rest)
        | depth + 1 => takeNested depth .outside (b :: acc) rest
      else takeNested depth .outside (b :: acc) rest

def endsNumber (b : UInt8) : Bool :=
  b ≤ 0x20 || b == Bytes.comma || b == Bytes.closeBracket || b == Bytes.closeBrace

def takeNumber (b : UInt8) (rest : Bytes) : Glimpse × Bytes :=
  let (more, rest) := rest.span fun b => !endsNumber b
  (⟨.number, b :: more⟩, rest)

def takeWord (shape : Shape) (b : UInt8) (rest : Bytes) : Glimpse × Bytes :=
  let (more, rest) := rest.span Bytes.isLower
  (⟨shape, b :: more⟩, rest)

def takeContainer (b : UInt8) (rest : Bytes) : Glimpse × Bytes :=
  let (raw, rest) := takeNested 0 .outside [b] rest
  (⟨.nested, raw⟩, rest)

def startsContainer (b : UInt8) : Bool := b == Bytes.openBrace || b == Bytes.openBracket

/-- The first bytes of numbers, the words for infinity and not-a-number
included. -/
def startsNumber (b : UInt8) : Bool :=
  Bytes.isDigit b || b == Bytes.plus || b == Bytes.minus || b == 0x69 || b == 0x49 || b == 0x4E

/-- Whether an `n` followed by `rest` is a number rather than a null. -/
def isNotNull (rest : Bytes) : Bool :=
  match rest with
  | [] => false
  | c :: _ => c != 0x75

/-- A number, a word or a container that starts with `b`. -/
def takePlain? (b : UInt8) (rest : Bytes) : Option (Glimpse × Bytes) :=
  if startsContainer b then some (takeContainer b rest)
  else if startsNumber b then some (takeNumber b rest)
  else if b == 0x6E then
    some (if isNotNull rest then takeNumber b rest else takeWord .null b rest)
  else if b == 0x74 then some (takeWord (.bool true) b rest)
  else if b == 0x66 then some (takeWord (.bool false) b rest)
  else none

/-- A string that starts after its quote, kept to the end of the text if it is
left open. -/
def takeText (rest : Bytes) : Glimpse × Bytes :=
  match takeString? false [] rest with
  | some (body, rest) => (ofBody body, rest)
  | none => (⟨.string (unescape rest), Bytes.quote :: rest⟩, [])

/-! ## Reading -/

/-- The value at the start of a text. A container covers the whole rest. -/
def ofText (s : Bytes) : Glimpse :=
  match s.dropWhile (· ≤ 0x20) with
  | [] => missing
  | b :: rest =>
    if startsContainer b then ⟨.nested, b :: rest⟩
    else if b == Bytes.quote then (takeText rest).1
    else
      match takePlain? b rest with
      | some (value, _) => value
      | none => missing

structure Member where
  name : Bytes
  value : Glimpse
  rest : Bytes

/-- The next value in a text, whatever stands in front of it; nothing if there
is none or it is a string left open. -/
def nextValue? : Bytes → Option (Glimpse × Bytes)
  | [] => none
  | b :: rest =>
    if b == Bytes.quote then (takeString? false [] rest).map fun (body, rest) => (ofBody body, rest)
    else
      match takePlain? b rest with
      | some found => some found
      | none => nextValue? rest

/-- The members after an opening brace, onto `acc` in reverse. -/
def membersOnto : (fuel : Nat) → List Member → Bytes → List Member
  | 0, acc, _ => acc
  | fuel + 1, acc, s =>
    match s.dropWhile fun b => b != Bytes.quote && b != Bytes.closeBrace with
    | Bytes.quote :: rest =>
      match takeString? false [] rest with
      | none => acc
      | some (name, rest) =>
        match nextValue? rest with
        | none => acc
        | some (value, rest) => membersOnto fuel (⟨unescape name, value, rest⟩ :: acc) rest
    | _ => acc

/-- The members of the object that a text starts with, whatever stands in
front of it. -/
def members (s : Bytes) : List Member :=
  match s.dropWhile fun b => !startsContainer b with
  | Bytes.openBrace :: rest => (membersOnto rest.length [] rest).reverse
  | _ => []

/-- The value of the first of the members that is called `name`. -/
def pick (name : Bytes) (members : List Member) : Glimpse :=
  match members.find? (·.name == name) with
  | some found => found.value
  | none => missing

def find (name : Bytes) (s : Bytes) : Glimpse := pick name (members s)

/-- The value of the first member called `inner` in an object that is itself
called `outer`. -/
def findWithin (outer inner : Bytes) (s : Bytes) : Glimpse :=
  let found? := (members s).findSome? fun m =>
    if m.name == outer && m.value.raw.head? == some Bytes.openBrace then
      ((members m.value.raw).find? (·.name == inner)).map (·.value)
    else none
  found?.getD missing

def get (value : Glimpse) (name : Bytes) : Glimpse := find name value.raw

def isArray (value : Glimpse) : Bool :=
  value.shape == .nested && value.raw.head? == some Bytes.openBracket

def isObject (value : Glimpse) : Bool :=
  value.shape == .nested && value.raw.head? == some Bytes.openBrace

/-- The elements after an opening bracket, onto `acc` in reverse. -/
def elementsOnto : (fuel : Nat) → List Glimpse → Bytes → List Glimpse
  | 0, acc, _ => acc
  | _, acc, [] => acc
  | fuel + 1, acc, b :: rest =>
    if b == Bytes.closeBracket || b == Bytes.closeBrace then acc
    else if b == Bytes.quote then
      let (value, rest) := takeText rest
      elementsOnto fuel (value :: acc) rest
    else if b == 0x6E then
      let (value, rest) := takeWord .null b rest
      elementsOnto fuel (value :: acc) rest
    else if startsContainer b || Bytes.isDigit b || b == Bytes.minus || b == 0x74 || b == 0x66 then
      match takePlain? b rest with
      | some (value, rest) => elementsOnto fuel (value :: acc) rest
      | none => acc
    else elementsOnto fuel acc rest

/-- The elements of a value: none of a null, those of an array, and of
anything else the value itself. -/
def elements (value : Glimpse) : List Glimpse :=
  if value.isArray then (elementsOnto value.raw.length [] value.raw.tail).reverse
  else if value.shape == .null then []
  else [value]

/-! ## Conversions -/

/-- The text of a string and nothing of anything else. -/
def text (value : Glimpse) : Bytes :=
  match value.shape with
  | .string text => text
  | _ => []

/-- The largest magnitude below which every whole number has a floating-point
value of its own. -/
def safeInteger : Int := 9007199254740991

/-- The value of a number, zero if its text is no numeral. -/
def float (value : Glimpse) : Binary64 :=
  (Decimal.read? value.raw).getD (.finite false 0 0)

/-- The whole part of a floating-point value, or the least integer if it has
none or it does not fit. -/
def clip (x : Binary64) : Int64 :=
  match x.truncate? with
  | some n => if -(2 ^ 63) ≤ n && n < 2 ^ 63 then Int64.ofInt n else Int64.minValue
  | none => Int64.minValue

/-- Whether a number is small enough to be taken from its floating-point
value. Not-a-number counts as small. -/
def isSafe (x : Binary64) : Bool :=
  match x with
  | .finite .. =>
    Binary64.le (.ofInt (-safeInteger)) x && Binary64.le x (.ofInt safeInteger)
  | .infinite _ => false
  | .nan => true

/-- The integer that a number stands for: its whole part as long as that is
exact, else its digits modulo `2 ^ 64`. -/
def numberToInt (value : Glimpse) : Int64 :=
  let x := value.float
  if isSafe x then clip x
  else
    match Integer.readWrapping? value.raw with
    | some n => n
    | none => clip x

def toInt (value : Glimpse) : Int64 :=
  match value.shape with
  | .number => value.numberToInt
  | .string text => (Integer.readWrapping? text).getD 0
  | .bool true => 1
  | _ => 0

def toBool (value : Glimpse) : Bool :=
  match value.shape with
  | .bool b => b
  | .number =>
    match value.float with
    | .finite _ m _ => m != 0
    | _ => true
  | .string text =>
    let word := Text.lower text
    word == "1" || word == "t" || word == "true"
  | _ => false

end Glimpse

end Json

end ScanTriage
