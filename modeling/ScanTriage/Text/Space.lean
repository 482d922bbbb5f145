import ScanTriage.Text.Utf8

/-!
# White space

Trimming goes by the Unicode property White_Space; compaction drops only the
six ASCII space characters, wherever they stand.
-/

namespace ScanTriage

/-- The Unicode property White_Space. -/
def Text.isSpace (code : Nat) : Bool :=
  (9 ≤ code && code ≤ 13) || code == 0x20 || code == 0x85 || code == 0xA0 || code == 0x1680 ||
    (0x2000 ≤ code && code ≤ 0x200A) || code == 0x2028 || code == 0x2029 || code == 0x202F ||
    code == 0x205F || code == 0x3000

/-- Space, tab, newline, carriage return, vertical tab and form feed. -/
def Text.isAsciiSpace (code : Nat) : Bool := (9 ≤ code && code ≤ 13) || code == 0x20

def Rune.isSpace : Rune → Bool
  | char code => Text.isSpace code
  | stray _ => false

namespace Text

/-- The text without the white space at its two ends. -/
def trim (s : Bytes) : Bytes :=
  let front := (Utf8.decode s).dropWhile Rune.isSpace
  (front.reverse.dropWhile Rune.isSpace).reverse.flatMap Rune.bytes

/-- The text without any ASCII space character. Stray bytes become U+FFFD. -/
def compact (s : Bytes) : Bytes :=
  (((Utf8.decode s).map Rune.code).filter fun c => !isAsciiSpace c).flatMap Utf8.encode

end Text

end ScanTriage
