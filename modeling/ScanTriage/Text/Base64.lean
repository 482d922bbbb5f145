import ScanTriage.Text.Bytes

/-!
# Base64

The standard alphabet with padding.
-/

namespace ScanTriage

namespace Base64

def digit (n : Nat) : UInt8 :=
  if n < 26 then UInt8.ofNat (0x41 + n)
  else if n < 52 then UInt8.ofNat (0x61 + (n - 26))
  else if n < 62 then UInt8.ofNat (0x30 + (n - 52))
  else if n == 62 then Bytes.plus
  else Bytes.slash

def value? (b : UInt8) : Option Nat :=
  if Bytes.isUpper b then some (b.toNat - 0x41)
  else if Bytes.isLower b then some (b.toNat - 0x61 + 26)
  else if Bytes.isDigit b then some (b.toNat - 0x30 + 52)
  else if b == Bytes.plus then some 62
  else if b == Bytes.slash then some 63
  else none

def encodeOnto : Bytes → Bytes → Bytes
  | a :: b :: c :: rest, acc =>
    let n := (a.toNat * 256 + b.toNat) * 256 + c.toNat
    encodeOnto rest
      (digit (n % 64) :: digit (n / 64 % 64) :: digit (n / 4096 % 64) :: digit (n / 262144) :: acc)
  | [a, b], acc =>
    let n := (a.toNat * 256 + b.toNat) * 4
    Bytes.equals :: digit (n % 64) :: digit (n / 64 % 64) :: digit (n / 4096) :: acc
  | [a], acc =>
    let n := a.toNat * 16
    Bytes.equals :: Bytes.equals :: digit (n % 64) :: digit (n / 64) :: acc
  | [], acc => acc

def encode (s : Bytes) : Bytes := (encodeOnto s []).reverse

def decodeOnto : Bytes → Bytes → Bytes
  | a :: b :: c :: d :: rest, acc =>
    match value? a, value? b, value? c, value? d with
    | some a, some b, some c, some d =>
      let n := ((a * 64 + b) * 64 + c) * 64 + d
      decodeOnto rest
        (UInt8.ofNat (n % 256) :: UInt8.ofNat (n / 256 % 256) :: UInt8.ofNat (n / 65536) :: acc)
    | some a, some b, some c, none =>
      let n := (a * 64 + b) * 64 + c
      UInt8.ofNat (n / 4 % 256) :: UInt8.ofNat (n / 1024) :: acc
    | some a, some b, none, none => UInt8.ofNat ((a * 64 + b) / 16) :: acc
    | _, _, _, _ => acc
  | _, acc => acc

def decode (s : Bytes) : Bytes := (decodeOnto s []).reverse

end Base64

end ScanTriage
