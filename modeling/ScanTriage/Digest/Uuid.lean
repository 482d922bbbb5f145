import ScanTriage.Digest.Sha1

/-!
# Name-based UUIDs

Version 5 of RFC 4122: the SHA-1 hash of a namespace and a name.
-/

namespace ScanTriage

namespace Uuid

/-- The namespace for names that are URLs, 6ba7b811-9dad-11d1-80b4-00c04fd430c8. -/
def urlNamespace : Bytes :=
  [0x6B, 0xA7, 0xB8, 0x11, 0x9D, 0xAD, 0x11, 0xD1, 0x80, 0xB4, 0x00, 0xC0, 0x4F, 0xD4, 0x30,
    0xC8]

/-- Byte `i` of an identifier, with the version in byte 6 and the variant in
byte 8. -/
def stamp (i : Nat) (b : UInt8) : UInt8 :=
  if i == 6 then (b &&& 0x0F) ||| 0x50
  else if i == 8 then (b &&& 0x3F) ||| 0x80
  else b

def ofName (seed name : Bytes) : Bytes :=
  ((Sha1.hash (seed ++ name)).take 16).mapIdx stamp

/-- The written form: thirty-two digits in five groups. -/
def render (uuid : Bytes) : Bytes :=
  let digits := uuid.flatMap fun b => Bytes.hex 2 b.toNat
  Bytes.join "-"
    [digits.take 8, (digits.drop 8).take 4, (digits.drop 12).take 4, (digits.drop 16).take 4,
      digits.drop 20]

end Uuid

end ScanTriage
