import ScanTriage.Timestamp
import ScanTriage.Text.Utf8
import ScanTriage.Number.Decimal

/-!
# TOML text

Reads a configuration text into its statements: table headers and
assignments. Any deviation from the grammar refuses the whole text.
-/

namespace ScanTriage

namespace Toml

/-- A key: the names between its dots. -/
abbrev Key := List Bytes

inductive Value where
  | string (text : Bytes)
  | integer (value : Int64)
  | boolean (value : Bool)
  /-- A floating-point number, of which no setting makes use. -/
  | float
  /-- A date, a time or both, of which no setting makes use. -/
  | moment
  | array (items : List Value)
  | inline (members : List (Key × Value))

inductive Statement where
  | table (key : Key)
  | arrayTable (key : Key)
  | assign (key : Key) (value : Value)

/-! ## Characters -/

/-- Well-formed UTF-8 without control characters other than tabs and line
breaks; a carriage return stands only in front of a newline. -/
def isCleanFrom : Bytes → Bool
  | [] => true
  | b :: rest =>
    if b == Bytes.carriageReturn then
      match rest with
      | Bytes.newline :: _ => isCleanFrom rest
      | _ => false
    else if (b < 0x20 && b != Bytes.tab && b != Bytes.newline) || b == 0x7F then false
    else isCleanFrom rest

def isClean (s : Bytes) : Bool := Utf8.isValid s && isCleanFrom s

def isBlank (b : UInt8) : Bool := b == Bytes.space || b == Bytes.tab

def isBlankOrBreak (b : UInt8) : Bool :=
  isBlank b || b == Bytes.newline || b == Bytes.carriageReturn

def isBare (b : UInt8) : Bool :=
  Bytes.isDigit b || Bytes.isLower b || Bytes.isUpper b || b == Bytes.underscore || b == Bytes.minus

def skipBlank (s : Bytes) : Bytes := s.dropWhile isBlank

def skipComment (s : Bytes) : Bytes := s.dropWhile (· != Bytes.newline)

/-- Blanks, line breaks and comments. -/
def skipFiller : (fuel : Nat) → Bytes → Bytes
  | 0, s => s
  | fuel + 1, s =>
    match s.dropWhile isBlankOrBreak with
    | Bytes.hash :: rest => skipFiller fuel (skipComment rest)
    | s => s

/-- The end of a line: blanks, maybe a comment, and a line break or the end of
the text. -/
def endLine? (s : Bytes) : Option Bytes :=
  match skipBlank s with
  | [] => some []
  | b :: rest =>
    if b == Bytes.newline then some rest
    else if b == Bytes.carriageReturn then some (rest.drop 1)
    else if b == Bytes.hash then some ((skipComment rest).drop 1)
    else none

/-! ## Strings -/

def hexDigits? : (count : Nat) → (value : Nat) → Bytes → Option (Nat × Bytes)
  | 0, value, s => some (value, s)
  | count + 1, value, b :: rest =>
    match Bytes.hexValue? b with
    | some d => hexDigits? count (value * 16 + d) rest
    | none => none
  | _ + 1, _, [] => none

def codePoint? (count : Nat) (s : Bytes) : Option (Bytes × Bytes) := do
  let (code, rest) ← hexDigits? count 0 s
  if 0x10FFFF < code || (0xD800 ≤ code && code ≤ 0xDFFF) then none
  else some (Utf8.encode code, rest)

def escape? : Bytes → Option (Bytes × Bytes)
  | [] => none
  | e :: rest =>
    if e == 0x62 then some ([0x08], rest)
    else if e == 0x74 then some ([0x09], rest)
    else if e == 0x6E then some ([0x0A], rest)
    else if e == 0x66 then some ([0x0C], rest)
    else if e == 0x72 then some ([0x0D], rest)
    else if e == 0x65 then some ([0x1B], rest)
    else if e == Bytes.quote || e == Bytes.backslash then some ([e], rest)
    else if e == 0x78 then codePoint? 2 rest
    else if e == 0x75 then codePoint? 4 rest
    else if e == 0x55 then codePoint? 8 rest
    else none

/-- The rest of a string on one line, onto `acc` in reverse. Only a string
between quotes has escapes. -/
def lineString? (mark : UInt8) : (fuel : Nat) → Bytes → Bytes → Option (Bytes × Bytes)
  | 0, _, _ => none
  | _, _, [] => none
  | fuel + 1, acc, b :: rest =>
    if b == mark then some (acc.reverse, rest)
    else if b == Bytes.newline || b == Bytes.carriageReturn then none
    else if b == Bytes.backslash && mark == Bytes.quote then do
      let (c, rest) ← escape? rest
      lineString? mark fuel (c.reverse ++ acc) rest
    else lineString? mark fuel (b :: acc) rest

/-- A backslash at the end of a line, with the white space up to the next
character; nothing if something else stands on the line. -/
def lineContinuation? (s : Bytes) : Option Bytes :=
  match skipBlank s with
  | b :: rest =>
    if b == Bytes.newline || b == Bytes.carriageReturn then some (rest.dropWhile isBlankOrBreak)
    else none
  | [] => none

/-- The rest of a string over several lines, onto `acc` in reverse. Up to two
marks may stand in front of the closing three, and up to three right behind an
escaped backslash. -/
def blockString? (mark : UInt8) :
    (fuel : Nat) → (afterBackslash : Bool) → Bytes → Bytes → Option (Bytes × Bytes)
  | 0, _, _, _ => none
  | _, _, _, [] => none
  | fuel + 1, afterBackslash, acc, b :: rest =>
    if b == mark then
      let (marks, after) := (b :: rest).span (· == mark)
      if marks.length < 3 then blockString? mark fuel false (marks ++ acc) after
      else if marks.length ≤ (if afterBackslash then 6 else 5) then
        some ((marks.drop 3 ++ acc).reverse, after)
      else none
    else if b == Bytes.backslash && mark == Bytes.quote then
      match lineContinuation? rest with
      | some rest => blockString? mark fuel false acc rest
      | none => do
        let (c, after) ← escape? rest
        blockString? mark fuel (rest.head? == some Bytes.backslash) (c.reverse ++ acc) after
    else blockString? mark fuel false (b :: acc) rest

/-- A line break right after the opening marks does not count. -/
def dropFirstBreak : Bytes → Bytes
  | Bytes.newline :: rest => rest
  | Bytes.carriageReturn :: Bytes.newline :: rest => rest
  | s => s

def string? (mark : UInt8) (s : Bytes) : Option (Bytes × Bytes) :=
  match Bytes.after? [mark, mark] s with
  | some rest => blockString? mark (s.length + 1) false [] (dropFirstBreak rest)
  | none => lineString? mark (s.length + 1) [] s

/-! ## Keys -/

def name? : Bytes → Option (Bytes × Bytes)
  | [] => none
  | b :: rest =>
    if b == Bytes.quote || b == Bytes.apostrophe then lineString? b (rest.length + 1) [] rest
    else
      let (name, rest) := (b :: rest).span isBare
      if name.isEmpty then none else some (name, rest)

/-- A key, onto `acc` in reverse, and what follows it and its blanks. -/
def keyOnto? : (fuel : Nat) → Key → Bytes → Option (Key × Bytes)
  | 0, _, _ => none
  | fuel + 1, acc, s => do
    let (name, rest) ← name? (skipBlank s)
    match skipBlank rest with
    | Bytes.dot :: rest => keyOnto? fuel (name :: acc) rest
    | rest => some ((name :: acc).reverse, rest)

def key? (s : Bytes) : Option (Key × Bytes) := keyOnto? (s.length + 1) [] s

/-! ## Numbers and moments -/

/-- Digits of a base, with single underscores between them. -/
def isDigitRun (isDigit : UInt8 → Bool) : (afterDigit : Bool) → Bytes → Bool
  | afterDigit, [] => afterDigit
  | afterDigit, b :: rest =>
    if isDigit b then isDigitRun isDigit true rest
    else b == Bytes.underscore && afterDigit && isDigitRun isDigit false rest

def isOctal (b : UInt8) : Bool := 0x30 ≤ b && b ≤ 0x37

def isBinary (b : UInt8) : Bool := b == 0x30 || b == 0x31

/-- A whole number without its sign: no leading zero. -/
def isWhole (s : Bytes) : Bool :=
  isDigitRun Bytes.isDigit false s &&
    match s with
    | Bytes.zero :: _ :: _ => false
    | _ => true

def isInteger (token : Bytes) : Bool :=
  match token with
  | Bytes.zero :: 0x78 :: digits => isDigitRun (fun b => (Bytes.hexValue? b).isSome) false digits
  | Bytes.zero :: 0x6F :: digits => isDigitRun isOctal false digits
  | Bytes.zero :: 0x62 :: digits => isDigitRun isBinary false digits
  | _ => isWhole (Integer.splitSign token).2

/-- Whether a token has the form of a number with a fraction or an exponent. -/
def isFraction (token : Bytes) : Bool :=
  let body := (Integer.splitSign token).2
  let (mantissa, exponent) := body.span fun b => b != 0x65 && b != 0x45
  let exponentOk : Bool :=
    match exponent with
    | [] => true
    | _ :: e => isDigitRun Bytes.isDigit false (Integer.splitSign e).2
  let mantissaOk : Bool :=
    match Bytes.cut? Bytes.dot mantissa with
    | some (whole, places) => isWhole whole && isDigitRun Bytes.isDigit false places
    | none => isWhole mantissa && !exponent.isEmpty
  mantissaOk && exponentOk

def twoDigits? (a b : UInt8) : Option Nat :=
  if Bytes.isDigit a && Bytes.isDigit b then some ((a.toNat - 0x30) * 10 + (b.toNat - 0x30))
  else none

def date? : Bytes → Option Bytes
  | y1 :: y2 :: y3 :: y4 :: Bytes.minus :: m1 :: m2 :: Bytes.minus :: d1 :: d2 :: rest => do
    let century ← twoDigits? y1 y2
    let year ← twoDigits? y3 y4
    let month ← twoDigits? m1 m2
    let day ← twoDigits? d1 d2
    if 1 ≤ month && month ≤ 12 && 1 ≤ day && day ≤ Timestamp.daysIn (century * 100 + year) month then
      some rest
    else none
  | _ => none

def seconds? : Bytes → Option Bytes
  | Bytes.colon :: s1 :: s2 :: rest => do
    let s ← twoDigits? s1 s2
    if 59 < s then none
    else
      match rest with
      | Bytes.dot :: rest =>
        let (places, rest) := rest.span Bytes.isDigit
        if places.isEmpty then none else some rest
      | _ => some rest
  | rest => some rest

/-- A time of day and what follows it. Seconds may be left out. -/
def time? : Bytes → Option Bytes
  | h1 :: h2 :: Bytes.colon :: m1 :: m2 :: rest => do
    let h ← twoDigits? h1 h2
    let m ← twoDigits? m1 m2
    if h ≤ 23 && m ≤ 59 then seconds? rest else none
  | _ => none

/-- Whether a text is a distance from UTC or nothing. -/
def isZone : Bytes → Bool
  | [] => true
  | [z] => z == 0x5A || z == 0x7A
  | [sign, h1, h2, Bytes.colon, m1, m2] =>
    (sign == Bytes.plus || sign == Bytes.minus) &&
      match twoDigits? h1 h2, twoDigits? m1 m2 with
      | some h, some m => h ≤ 24 && m ≤ 60
      | _, _ => false
  | _ => false

/-- Whether a token is a date, a time of day, or both. -/
def isMoment (token : Bytes) : Bool :=
  match date? token with
  | some [] => true
  | some (sep :: rest) =>
    (sep == 0x54 || sep == 0x74 || sep == Bytes.space) && ((time? rest).any isZone)
  | none => time? token == some []

def isTokenByte (b : UInt8) : Bool :=
  isBare b || b == Bytes.plus || b == Bytes.dot || b == Bytes.colon

/-- A token, which takes a time of day along that stands behind a date. -/
def token (s : Bytes) : Bytes × Bytes :=
  let (front, rest) := s.span isTokenByte
  match rest with
  | Bytes.space :: d :: _ =>
    if date? front == some [] && Bytes.isDigit d then
      let (time, after) := rest.tail.span isTokenByte
      (front ++ Bytes.space :: time, after)
    else (front, rest)
  | _ => (front, rest)

def tokenValue? (token : Bytes) : Option Value :=
  let word := (Integer.splitSign token).2
  if token == "true" then some (.boolean true)
  else if token == "false" then some (.boolean false)
  else if word == "inf" || word == "nan" then some .float
  else if isInteger token then
    match Integer.readLiteral token with
    | .ok n => some (.integer n)
    | .error _ => none
  else if isFraction token then
    match Decimal.read? token with
    | some (.finite ..) => some .float
    | _ => none
  else if isMoment token then some .moment
  else none

/-! ## Values and statements -/

mutual

def value? : (fuel : Nat) → Bytes → Option (Value × Bytes)
  | 0, _ => none
  | _, [] => none
  | fuel + 1, b :: rest =>
    if b == Bytes.quote || b == Bytes.apostrophe then
      (string? b rest).map fun (text, rest) => (.string text, rest)
    else if b == Bytes.openBracket then items? fuel [] (skipFiller (rest.length + 1) rest)
    else if b == Bytes.openBrace then members? fuel [] (skipFiller (rest.length + 1) rest)
    else
      let (token, rest) := token (b :: rest)
      (tokenValue? token).map fun value => (value, rest)

/-- The items of an array, onto `acc` in reverse. A comma may follow the last. -/
def items? : (fuel : Nat) → List Value → Bytes → Option (Value × Bytes)
  | 0, _, _ => none
  | _, acc, Bytes.closeBracket :: rest => some (.array acc.reverse, rest)
  | fuel + 1, acc, s =>
    match value? fuel s with
    | none => none
    | some (value, rest) =>
      match skipFiller (rest.length + 1) rest with
      | Bytes.comma :: rest => items? fuel (value :: acc) (skipFiller (rest.length + 1) rest)
      | Bytes.closeBracket :: rest => some (.array (value :: acc).reverse, rest)
      | _ => none

/-- The members of an inline table, onto `acc` in reverse. A comma may follow
the last. -/
def members? : (fuel : Nat) → List (Key × Value) → Bytes → Option (Value × Bytes)
  | 0, _, _ => none
  | _, acc, Bytes.closeBrace :: rest => some (.inline acc.reverse, rest)
  | fuel + 1, acc, s =>
    match key? s with
    | some (key, Bytes.equals :: rest) =>
      match value? fuel (skipBlank rest) with
      | none => none
      | some (value, rest) =>
        match skipFiller (rest.length + 1) rest with
        | Bytes.comma :: rest =>
          members? fuel ((key, value) :: acc) (skipFiller (rest.length + 1) rest)
        | Bytes.closeBrace :: rest => some (.inline ((key, value) :: acc).reverse, rest)
        | _ => none
    | _ => none

end

def statement? (s : Bytes) : Option (Statement × Bytes) :=
  match s with
  | Bytes.openBracket :: Bytes.openBracket :: rest =>
    match key? rest with
    | some (key, Bytes.closeBracket :: Bytes.closeBracket :: rest) =>
      (endLine? rest).map fun rest => (.arrayTable key, rest)
    | _ => none
  | Bytes.openBracket :: rest =>
    match key? rest with
    | some (key, Bytes.closeBracket :: rest) =>
      (endLine? rest).map fun rest => (.table key, rest)
    | _ => none
  | _ =>
    match key? s with
    | some (key, Bytes.equals :: rest) => do
      let (value, rest) ← value? (2 * rest.length + 2) (skipBlank rest)
      (endLine? rest).map fun rest => (.assign key value, rest)
    | _ => none

/-- The statements of a text, onto `acc` in reverse. -/
def statementsOnto? : (fuel : Nat) → List Statement → Bytes → Option (List Statement)
  | 0, _, _ => none
  | fuel + 1, acc, s =>
    match skipFiller (s.length + 1) s with
    | [] => some acc.reverse
    | s => do
      let (statement, rest) ← statement? s
      statementsOnto? fuel (statement :: acc) rest

/-- The text without a byte order mark. -/
def dropMark : Bytes → Bytes
  | 0xEF :: 0xBB :: 0xBF :: rest => rest
  | 0xFF :: 0xFE :: rest => rest
  | 0xFE :: 0xFF :: rest => rest
  | s => s

def statements? (s : Bytes) : Option (List Statement) :=
  let s := dropMark s
  if isClean s then statementsOnto? (s.length + 1) [] s else none

end Toml

end ScanTriage
