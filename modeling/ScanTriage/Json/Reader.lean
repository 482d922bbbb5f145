import ScanTriage.Json.Value

/-!
# The strict reader

Reads exactly one JSON value with nothing but white space around it. Values
nest at most ten thousand deep. A surrogate escape without its partner, and
each stray byte of a string, is read as U+FFFD.
-/

namespace ScanTriage

namespace Json

/-- How deep arrays and objects may stand in one another. -/
def maxDepth : Nat := 10000

def isBlank (b : UInt8) : Bool :=
  b == Bytes.space || b == Bytes.tab || b == Bytes.newline || b == Bytes.carriageReturn

def skipBlank (s : Bytes) : Bytes := s.dropWhile isBlank

def hex4? : Bytes → Option (Nat × Bytes)
  | a :: b :: c :: d :: rest => do
    let a ← Bytes.hexValue? a
    let b ← Bytes.hexValue? b
    let c ← Bytes.hexValue? c
    let d ← Bytes.hexValue? d
    some (((a * 16 + b) * 16 + c) * 16 + d, rest)
  | _ => none

def isSurrogate (code : Nat) : Bool := 0xD800 ≤ code && code ≤ 0xDFFF

/-- The character that two halves of a surrogate pair stand for. -/
def surrogatePair? (high low : Nat) : Option Nat :=
  if 0xD800 ≤ high && high ≤ 0xDBFF && 0xDC00 ≤ low && low ≤ 0xDFFF then
    some ((high - 0xD800) * 0x400 + (low - 0xDC00) + 0x10000)
  else none

/-- The character after `\u` and what follows it. -/
def unicodeEscape? (s : Bytes) : Option (Nat × Bytes) := do
  let (high, rest) ← hex4? s
  if isSurrogate high then
    match rest with
    | Bytes.backslash :: 0x75 :: more =>
      match hex4? more with
      | some (low, after) =>
        match surrogatePair? high low with
        | some code => some (code, after)
        | none => some (Utf8.replacement, rest)
      | none => some (Utf8.replacement, rest)
    | _ => some (Utf8.replacement, rest)
  else some (high, rest)

def shortEscape? (b : UInt8) : Option UInt8 :=
  if b == 0x22 || b == 0x5C || b == 0x2F then some b
  else if b == 0x62 then some 0x08
  else if b == 0x66 then some 0x0C
  else if b == 0x6E then some 0x0A
  else if b == 0x72 then some 0x0D
  else if b == 0x74 then some 0x09
  else none

/-- The bytes of a string whose opening quote has been read, onto `acc` in
reverse, and what follows the closing quote. -/
def readStringOnto : (fuel : Nat) → Bytes → Bytes → Option (Bytes × Bytes)
  | 0, _, _ => none
  | _, _, [] => none
  | fuel + 1, acc, b :: rest =>
    if b == Bytes.quote then some (acc.reverse, rest)
    else if b < 0x20 then none
    else if b == Bytes.backslash then
      match rest with
      | [] => none
      | 0x75 :: more => do
        let (code, after) ← unicodeEscape? more
        readStringOnto fuel ((Utf8.encode code).reverse ++ acc) after
      | e :: more => do
        let c ← shortEscape? e
        readStringOnto fuel (c :: acc) more
    else readStringOnto fuel (b :: acc) rest

def readString (s : Bytes) : Option (Bytes × Bytes) := do
  let (text, rest) ← readStringOnto (s.length + 1) [] s
  some (Utf8.scrub text, rest)

def readDigits? (s : Bytes) : Option (Bytes × Bytes) :=
  let (digits, rest) := s.span Bytes.isDigit
  if digits.isEmpty then none else some (digits, rest)

def readSign (s : Bytes) : Bytes × Bytes :=
  match s with
  | Bytes.minus :: rest => ([Bytes.minus], rest)
  | _ => ([], s)

/-- The whole part of a number; nothing follows a leading zero. -/
def readWhole? (s : Bytes) : Option (Bytes × Bytes) :=
  match s with
  | Bytes.zero :: rest => some ([Bytes.zero], rest)
  | _ => readDigits? s

def readFraction? (s : Bytes) : Option (Bytes × Bytes) :=
  match s with
  | Bytes.dot :: rest => (readDigits? rest).map fun (digits, rest) => (Bytes.dot :: digits, rest)
  | _ => some ([], s)

def readExponent? (s : Bytes) : Option (Bytes × Bytes) :=
  match s with
  | [] => some ([], s)
  | e :: rest =>
    if e == 0x65 || e == 0x45 then
      match rest with
      | [] => none
      | sign :: more =>
        if sign == Bytes.plus || sign == Bytes.minus then
          (readDigits? more).map fun (digits, rest) => (e :: sign :: digits, rest)
        else (readDigits? rest).map fun (digits, rest) => (e :: digits, rest)
    else some ([], s)

def readNumber (s : Bytes) : Option (Bytes × Bytes) := do
  let (sign, s) := readSign s
  let (whole, s) ← readWhole? s
  let (fraction, s) ← readFraction? s
  let (exponent, s) ← readExponent? s
  some (sign ++ whole ++ fraction ++ exponent, s)

mutual

/-- A value at `depth` containers, white space in front of it allowed. -/
def readValue : (fuel depth : Nat) → Bytes → Option (Json × Bytes)
  | 0, _, _ => none
  | fuel + 1, depth, s =>
    match skipBlank s with
    | [] => none
    | b :: rest =>
      if b == Bytes.quote then do
        let (text, rest) ← readString rest
        some (string text, rest)
      else if b == Bytes.openBracket then
        if maxDepth ≤ depth then none
        else
          match skipBlank rest with
          | Bytes.closeBracket :: rest => some (array [], rest)
          | rest => readItems fuel (depth + 1) rest []
      else if b == Bytes.openBrace then
        if maxDepth ≤ depth then none
        else
          match skipBlank rest with
          | Bytes.closeBrace :: rest => some (object [], rest)
          | rest => readMembers fuel (depth + 1) rest []
      else if b == 0x6E then ((Bytes.after? "ull" rest).map fun rest => (null, rest))
      else if b == 0x74 then ((Bytes.after? "rue" rest).map fun rest => (bool true, rest))
      else if b == 0x66 then ((Bytes.after? "alse" rest).map fun rest => (bool false, rest))
      else (readNumber (b :: rest)).map fun (text, rest) => (number text, rest)

/-- The items of an array up to its closing bracket, after `acc` in reverse. -/
def readItems : (fuel depth : Nat) → Bytes → List Json → Option (Json × Bytes)
  | 0, _, _, _ => none
  | fuel + 1, depth, s, acc =>
    match readValue fuel depth s with
    | none => none
    | some (item, rest) =>
      match skipBlank rest with
      | Bytes.comma :: rest => readItems fuel depth rest (item :: acc)
      | Bytes.closeBracket :: rest => some (array (item :: acc).reverse, rest)
      | _ => none

/-- The members of an object up to its closing brace, after `acc` in reverse. -/
def readMembers : (fuel depth : Nat) → Bytes → List (Bytes × Json) → Option (Json × Bytes)
  | 0, _, _, _ => none
  | fuel + 1, depth, s, acc =>
    match skipBlank s with
    | Bytes.quote :: rest =>
      match readString rest with
      | none => none
      | some (name, rest) =>
        match skipBlank rest with
        | Bytes.colon :: rest =>
          match readValue fuel depth rest with
          | none => none
          | some (value, rest) =>
            match skipBlank rest with
            | Bytes.comma :: rest => readMembers fuel depth rest ((name, value) :: acc)
            | Bytes.closeBrace :: rest => some (object ((name, value) :: acc).reverse, rest)
            | _ => none
        | _ => none
    | _ => none

end

def read? (s : Bytes) : Option Json :=
  match readValue (2 * s.length + 2) 0 s with
  | some (value, rest) => if (skipBlank rest).isEmpty then some value else none
  | none => none

end Json

end ScanTriage
