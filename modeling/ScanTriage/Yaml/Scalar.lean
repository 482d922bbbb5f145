import ScanTriage.Text.Base64
import ScanTriage.Yaml.Ambiguity

/-!
# Texts in YAML

A text is written in one of four styles. Texts with line breaks are literal
blocks, texts that would mean something else are in double quotes, and all
others are bare; where the text does not allow its style, single quotes and
then double quotes take its place. Lines are never folded.
-/

namespace ScanTriage

namespace Yaml

inductive Style where
  | plain
  | singleQuoted
  | doubleQuoted
  | literal
  deriving DecidableEq

/-! ## Characters -/

def isBreak (c : Nat) : Bool :=
  c == 0x0A || c == 0x0D || c == 0x85 || c == 0x2028 || c == 0x2029

def isBlank (c : Nat) : Bool := c == 0x20 || c == 0x09

/-- Characters that can stand for themselves; none beyond the basic plane. -/
def isPrintable (c : Nat) : Bool :=
  c == 0x0A || (0x20 ≤ c && c ≤ 0x7E) || (0xA0 ≤ c && c ≤ 0xD7FF) ||
    (0xE000 ≤ c && c ≤ 0xFFFD && c != 0xFEFF)

/-- Characters that mean something at the front of a bare text. -/
def isIndicator (c : Nat) : Bool :=
  [ 0x23, 0x2C, 0x5B, 0x5D, 0x7B, 0x7D, 0x26, 0x2A, 0x21, 0x7C, 0x3E, 0x27, 0x22, 0x25, 0x40,
    0x60 ].contains c

/-! ## What a text allows -/

/-- Whether two neighbours satisfy one predicate each. -/
def adjacent (p q : Nat → Bool) (cs : List Nat) : Bool :=
  (cs.zip (cs.drop 1)).any fun (a, b) => p a && q b

/-- Whether something reads as structure: a document mark, an indicator at
the front, a colon before a blank, or `#` after one. -/
def hasIndicator (cs : List Nat) : Bool :=
  let ends (mark : Nat) (rest : List Nat) (c : Nat) : Bool :=
    c == mark && ((rest.head?.map isBlank).getD true)
  let front : Bool :=
    match cs with
    | [] => false
    | c :: rest => isIndicator c || ends 0x3F rest c || ends 0x2D rest c
  front || [0x2D, 0x2D, 0x2D].isPrefixOf cs || [0x2E, 0x2E, 0x2E].isPrefixOf cs ||
    adjacent (· == 0x3A) isBlank cs || cs.getLast? == some 0x3A ||
    adjacent (fun c => isBlank c || isBreak c || c == 0) (· == 0x23) cs

def hasSpecial (cs : List Nat) : Bool := cs.any fun c => !isPrintable c && c != 0x09

def hasSpaceBeforeBreak (cs : List Nat) : Bool := adjacent (· == 0x20) isBreak cs

def allowsSingleQuotes (cs : List Nat) : Bool :=
  !(adjacent isBreak (· == 0x20) cs || hasSpaceBeforeBreak cs || cs.contains 0x09 ||
    hasSpecial cs)

def allowsPlain (cs : List Nat) : Bool :=
  let edge (c : Option Nat) : Bool := (c.map fun c => c == 0x20 || isBreak c).getD false
  allowsSingleQuotes cs && !(edge cs.head? || edge cs.getLast? || cs.any isBreak || hasIndicator cs)

def allowsLiteral (cs : List Nat) : Bool :=
  !(cs.getLast? == some 0x20 || hasSpaceBeforeBreak cs || hasSpecial cs)

/-- The style in which a text is written that would best have `wanted`. -/
def settle (wanted : Style) (cs : List Nat) : Style :=
  match wanted with
  | .plain =>
    if allowsPlain cs then .plain
    else if allowsSingleQuotes cs then .singleQuoted
    else .doubleQuoted
  | .literal => if allowsLiteral cs then .literal else .doubleQuoted
  | style => style

/-! ## The four styles -/

def encode (cs : List Nat) : Bytes := cs.flatMap Utf8.encode

/-- The letter that names a character in an escape. -/
def escapeLetter? (c : Nat) : Option Bytes :=
  ([ (0x00, "0"), (0x07, "a"), (0x08, "b"), (0x09, "t"), (0x0A, "n"), (0x0B, "v"), (0x0C, "f"),
     (0x0D, "r"), (0x1B, "e"), (0x22, "\""), (0x5C, "\\"), (0x85, "N"), (0xA0, "_"),
     (0x2028, "L"), (0x2029, "P") ] : List (Nat × Bytes)).lookup c

def escape (c : Nat) : Bytes :=
  match escapeLetter? c with
  | some letter => Bytes.backslash :: letter
  | none =>
    if c ≤ 0xFF then "\\x" ++ Bytes.hexUpper 2 c
    else if c ≤ 0xFFFF then "\\u" ++ Bytes.hexUpper 4 c
    else "\\U" ++ Bytes.hexUpper 8 c

/-- Between double quotes. After a byte order mark everything is escaped. -/
def doubleQuoted (cs : List Nat) : Bytes :=
  let marked := cs.head? == some 0xFEFF
  Bytes.quote ::
    cs.flatMap (fun c =>
      if marked || !isPrintable c || isBreak c || c == 0x22 || c == 0x5C then escape c
      else Utf8.encode c) ++
    [Bytes.quote]

def spaces (n : Nat) : Bytes := List.replicate n Bytes.space

/-- Lines with `indent` spaces in front of each that is not empty; `fresh`
says that a line starts here. -/
def indented (indent : Nat) : (fresh : Bool) → List Nat → Bytes
  | _, [] => []
  | fresh, c :: rest =>
    if isBreak c then Utf8.encode c ++ indented indent true rest
    else (if fresh then spaces indent else []) ++ Utf8.encode c ++ indented indent false rest

/-- Between single quotes, which are doubled inside. -/
def singleQuoted (indent : Nat) (cs : List Nat) : Bytes :=
  let doubled := cs.flatMap fun c => if c == 0x27 then [c, c] else [c]
  Bytes.apostrophe :: indented indent false doubled ++ [Bytes.apostrophe]

/-- What the header of a literal block says about its first line and its end. -/
def literalHeader (cs : List Nat) : Bytes :=
  let startsBlank : Bool := (cs.head?.map fun c => c == 0x20 || isBreak c).getD false
  let chomp : Bytes :=
    match cs.reverse with
    | [] => "-"
    | [c] => if isBreak c then "+" else "-"
    | c :: d :: _ => if !isBreak c then "-" else if isBreak d then "+" else []
  "|" ++ (if startsBlank then ("2" : Bytes) else []) ++ chomp

/-- A literal block. A break at the front of the text ends the header. -/
def literal (indent : Nat) (cs : List Nat) : Bytes :=
  let startsWithBreak : Bool := (cs.head?.map isBreak).getD false
  literalHeader cs ++ (if startsWithBreak then [] else [Bytes.newline]) ++ indented indent true cs

def writeStyled (style : Style) (indent : Nat) (cs : List Nat) : Bytes :=
  match style with
  | .plain => encode cs ++ [Bytes.newline]
  | .singleQuoted => singleQuoted indent cs ++ [Bytes.newline]
  | .doubleQuoted => doubleQuoted cs ++ [Bytes.newline]
  | .literal =>
    literal indent cs ++ (if (cs.getLast?.map isBreak).getD false then [] else [Bytes.newline])

/-- Pieces of `width` bytes, each followed by a line break. -/
def inLines (width : Nat) : (fuel : Nat) → Bytes → Bytes
  | 0, _ => []
  | _, [] => []
  | fuel + 1, s => s.take width ++ Bytes.newline :: inLines width fuel (s.drop width)

/-- The longest line of encoded bytes. -/
def binaryWidth : Nat := 70

/-- A text that is not well-formed, as encoded bytes. -/
def binary (s : Bytes) : Bytes :=
  let encoded := Base64.encode s
  if encoded.length < binaryWidth then encoded else inLines binaryWidth encoded.length encoded

def codes (s : Bytes) : List Nat := (Utf8.decode s).map Rune.code

/-- A text at the end of a line; further lines of it are indented. -/
def writeText (indent : Nat) (s : Bytes) : Bytes :=
  let write (s : Bytes) (bare : Bool) : Bytes :=
    let cs := codes s
    let wanted : Style :=
      if s.contains Bytes.newline then .literal else if bare then .plain else .doubleQuoted
    writeStyled (settle wanted cs) indent cs
  if Utf8.isValid s then write s (!isAmbiguous s) else "!!binary " ++ write (binary s) true

end Yaml

end ScanTriage
