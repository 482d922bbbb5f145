import ScanTriage.Deflate

/-!
# Gzip archives

`pack` wraps a text into the gzip format with stored blocks. `unpack` takes out
whatever was compressed, after checking length and checksum.
-/

namespace ScanTriage

namespace Gzip

def crcBit (c : UInt32) : UInt32 := if c % 2 == 1 then (c >>> 1) ^^^ 0xEDB88320 else c >>> 1

def crcByte (c : UInt32) (b : UInt8) : UInt32 :=
  let c := c ^^^ b.toUInt32
  crcBit (crcBit (crcBit (crcBit (crcBit (crcBit (crcBit (crcBit c)))))))

def crc32 (s : Bytes) : UInt32 := s.foldl crcByte 0xFFFFFFFF ^^^ 0xFFFFFFFF

/-- The low `count` bytes of a number, the lowest first. -/
def littleEndian : (count : Nat) → Nat → Bytes
  | 0, _ => []
  | count + 1, n => UInt8.ofNat (n % 256) :: littleEndian count (n / 256)

def ofLittleEndian (s : Bytes) : Nat := s.foldr (fun b n => n * 256 + b.toNat) 0

/-- The largest stored block. -/
def blockSize : Nat := 65535

def block (isLast : Bool) (data : Bytes) : Bytes :=
  (if isLast then 1 else 0) :: littleEndian 2 data.length ++
    littleEndian 2 (65535 - data.length) ++ data

/-- The stored blocks of a text, the latest first in front of `acc`. -/
def blocksOnto : (fuel : Nat) → Bytes → List Bytes → List Bytes
  | 0, _, acc => acc
  | fuel + 1, s, acc =>
    let data := s.take blockSize
    match s.drop blockSize with
    | [] => block true data :: acc
    | rest => blocksOnto fuel rest (block false data :: acc)

def blocks (s : Bytes) : Bytes := (blocksOnto (s.length / blockSize + 1) s []).reverse.flatten

def header : Bytes := [0x1F, 0x8B, 8, 0, 0, 0, 0, 0, 0, 255]

def pack (s : Bytes) : Bytes :=
  header ++ blocks s ++ littleEndian 4 (crc32 s).toNat ++ littleEndian 4 s.length

inductive Refusal where
  | empty
  | header
  | corrupt
  | truncated
  | checksum
  deriving DecidableEq

def Refusal.message : Refusal → Bytes
  | empty => "EOF"
  | header => "gzip: invalid header"
  | corrupt => "flate: corrupt input"
  | truncated => "unexpected EOF"
  | checksum => "gzip: invalid checksum"

def Refusal.ofDeflate : Deflate.Refusal → Refusal
  | .corrupt => corrupt
  | .truncated => truncated

/-! ## Headers -/

/-- What follows a part that tells its length in front. -/
def afterExtra (s : Bytes) : Except Refusal Bytes :=
  let size := 2 + ofLittleEndian (s.take 2)
  if s.length < size then .error .truncated else .ok (s.drop size)

/-- A name or comment with the zero behind it is at most so long. -/
def maxText : Nat := 512

def afterText (s : Bytes) : Except Refusal Bytes :=
  match (s.take maxText).dropWhile (· != 0) with
  | _ :: rest => .ok (rest ++ s.drop maxText)
  | [] => .error (if s.length < maxText then .truncated else .header)

/-- What follows a checksum of the header in front of it. -/
def afterCheck (header s : Bytes) : Except Refusal Bytes :=
  if s.length < 2 then .error .truncated
  else if ofLittleEndian (s.take 2) == (crc32 header).toNat % 2 ^ 16 then .ok (s.drop 2)
  else .error .header

/-- What follows the header of a member. Its flags tell which parts it has. -/
def afterHeader : Bytes → Except Refusal Bytes
  | id1 :: id2 :: method :: flags :: t1 :: t2 :: t3 :: t4 :: x :: os :: rest =>
    if id1 != 0x1F || id2 != 0x8B || method != 8 then .error .header
    else do
      let s := id1 :: id2 :: method :: flags :: t1 :: t2 :: t3 :: t4 :: x :: os :: rest
      let has (flag : UInt8) : Bool := flags &&& flag != 0
      let rest ← if has 4 then afterExtra rest else pure rest
      let rest ← if has 8 then afterText rest else pure rest
      let rest ← if has 16 then afterText rest else pure rest
      if has 2 then afterCheck (Bytes.upTo s rest) rest else pure rest
  | _ => .error .truncated

/-! ## Members -/

/-- The text of the first member of an archive, and what follows it. -/
def unpackMember (s : Bytes) : Except Refusal (Bytes × Bytes) := do
  let (data, tail) ← (Deflate.inflate (← afterHeader s)).mapError .ofDeflate
  if tail.length < 8 then .error .truncated
  else if ofLittleEndian (tail.take 4) == (crc32 data).toNat &&
      ofLittleEndian ((tail.drop 4).take 4) == data.length % 2 ^ 32 then
    .ok (data, tail.drop 8)
  else .error .checksum

/-- The texts of members, behind those in reverse in `acc`. -/
def unpackOnto : (fuel : Nat) → List Bytes → Bytes → Except Refusal Bytes
  | 0, _, _ => .error .truncated
  | fuel + 1, acc, s =>
    match unpackMember s with
    | .error why => .error why
    | .ok (data, []) => .ok (data :: acc).reverse.flatten
    | .ok (data, rest) => unpackOnto fuel (data :: acc) rest

/-- The text in a gzip archive, which consists of one or more members. -/
def unpack (s : Bytes) : Except Refusal Bytes :=
  if s.isEmpty then .error .empty else unpackOnto s.length [] s

end Gzip

end ScanTriage
