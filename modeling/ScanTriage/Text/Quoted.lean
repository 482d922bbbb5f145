import ScanTriage.Text.Utf8
import ScanTriage.Text.Printable

/-!
# Quoted texts in messages

A message shows a text between quotes on one line: what is not printable is
written as an escape, a stray byte as `\x` and its two digits.
-/

namespace ScanTriage

namespace Text

def escapeCode (code : Nat) : Bytes :=
  match code with
  | 7 => "\\a"
  | 8 => "\\b"
  | 9 => "\\t"
  | 10 => "\\n"
  | 11 => "\\v"
  | 12 => "\\f"
  | 13 => "\\r"
  | _ =>
    if code < 0x20 || code == 0x7F then "\\x" ++ Bytes.hex 2 code
    else if code < 0x10000 then "\\u" ++ Bytes.hex 4 code
    else "\\U" ++ Bytes.hex 8 code

def quoteRune (mark : UInt8) : Rune → Bytes
  | .stray byte => "\\x" ++ Bytes.hex 2 byte.toNat
  | .char code =>
    if code == mark.toNat || code == Bytes.backslash.toNat then
      Bytes.backslash :: Utf8.encode code
    else if isPrintable code then Utf8.encode code
    else escapeCode code

def quoted (s : Bytes) : Bytes :=
  Bytes.quote :: (Utf8.decode s).flatMap (quoteRune Bytes.quote) ++ [Bytes.quote]

def quotedChar (code : Nat) : Bytes :=
  Bytes.apostrophe :: quoteRune Bytes.apostrophe (.char code) ++ [Bytes.apostrophe]

end Text

end ScanTriage
