import ScanTriage.Text.Bytes

/-!
# UTF-8

A text is read as `Rune`s: the characters of its well-formed sequences, and
each byte that belongs to none as a stray byte of its own. `decode` loses
nothing, since `(decode s).flatMap Rune.bytes` is `s` again; `scrub` replaces
every stray byte by the replacement character.
-/

namespace ScanTriage

/-- One unit of a text read as UTF-8. -/
inductive Rune where
  | char (code : Nat)
  | stray (byte : UInt8)
  deriving DecidableEq

namespace Utf8

def replacement : Nat := 0xFFFD

def encode (code : Nat) : Bytes :=
  if code < 0x80 then [UInt8.ofNat code]
  else if code < 0x800 then
    [UInt8.ofNat (0xC0 + code / 0x40), UInt8.ofNat (0x80 + code % 0x40)]
  else if code < 0x10000 then
    [UInt8.ofNat (0xE0 + code / 0x1000), UInt8.ofNat (0x80 + code / 0x40 % 0x40),
      UInt8.ofNat (0x80 + code % 0x40)]
  else
    [UInt8.ofNat (0xF0 + code / 0x40000), UInt8.ofNat (0x80 + code / 0x1000 % 0x40),
      UInt8.ofNat (0x80 + code / 0x40 % 0x40), UInt8.ofNat (0x80 + code % 0x40)]

def isContinuation (b : UInt8) : Bool := 0x80 ≤ b && b ≤ 0xBF

/-- The second bytes that may follow the lead `a`: no overlong forms, no
surrogates, nothing above U+10FFFF. -/
def isSecond (a b : UInt8) : Bool :=
  if a == 0xE0 then 0xA0 ≤ b && b ≤ 0xBF
  else if a == 0xED then 0x80 ≤ b && b ≤ 0x9F
  else if a == 0xF0 then 0x90 ≤ b && b ≤ 0xBF
  else if a == 0xF4 then 0x80 ≤ b && b ≤ 0x8F
  else isContinuation b

def low6 (b : UInt8) : Nat := b.toNat % 0x40

/-- The rune that starts at byte `a`, and how many of the bytes after `a`
belong to it. -/
def lead (a : UInt8) (rest : Bytes) : Rune × Nat :=
  if a < 0x80 then (.char a.toNat, 0)
  else
    match rest with
    | [] => (.stray a, 0)
    | b :: rest =>
      if 0xC2 ≤ a && a ≤ 0xDF && isContinuation b then
        (.char (a.toNat % 0x20 * 0x40 + low6 b), 1)
      else
        match rest with
        | [] => (.stray a, 0)
        | c :: rest =>
          if 0xE0 ≤ a && a ≤ 0xEF && isSecond a b && isContinuation c then
            (.char (a.toNat % 0x10 * 0x1000 + low6 b * 0x40 + low6 c), 2)
          else
            match rest with
            | [] => (.stray a, 0)
            | d :: _ =>
              if 0xF0 ≤ a && a ≤ 0xF4 && isSecond a b && isContinuation c && isContinuation d then
                (.char (a.toNat % 8 * 0x40000 + low6 b * 0x1000 + low6 c * 0x40 + low6 d), 3)
              else (.stray a, 0)

/-- Decodes onto `acc`, in reverse, after passing over `skip` bytes. -/
def decodeOnto : (skip : Nat) → Bytes → List Rune → List Rune
  | _, [], acc => acc
  | skip + 1, _ :: rest, acc => decodeOnto skip rest acc
  | 0, a :: rest, acc =>
    let (rune, skip) := lead a rest
    decodeOnto skip rest (rune :: acc)

/-- The runes of a text, in order. -/
def decode (s : Bytes) : List Rune := (decodeOnto 0 s []).reverse

/-- Whether a text has no stray byte. -/
def isValid (s : Bytes) : Bool :=
  (decodeOnto 0 s []).all fun
    | .char _ => true
    | .stray _ => false

end Utf8

namespace Rune

def bytes : Rune → Bytes
  | char code => Utf8.encode code
  | stray byte => [byte]

/-- The code point a rune stands for; a stray byte counts as U+FFFD. -/
def code : Rune → Nat
  | char code => code
  | stray _ => Utf8.replacement

end Rune

/-- The text with every stray byte replaced by U+FFFD. -/
def Utf8.scrub (s : Bytes) : Bytes := (decode s).flatMap fun r => encode r.code

end ScanTriage
