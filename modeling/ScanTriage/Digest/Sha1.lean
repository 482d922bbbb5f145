import ScanTriage.Number.Power
import ScanTriage.Text.Bytes

/-!
# SHA-1

The hash function of FIPS 180-4, on byte texts.
-/

namespace ScanTriage

namespace Digest

/-- A message filled up to whole blocks of 64 bytes: a one bit, zeros, and the
length in bits as eight bytes. -/
def pad (message : Bytes) : Bytes :=
  let n := message.length
  let zeros := (119 - n % 64) % 64
  let bits := 8 * n
  message ++ 0x80 :: List.replicate zeros 0 ++
    ((List.range 8).reverse.map fun i => UInt8.ofNat (bits / 256 ^ i % 256))

def word (a b c d : UInt8) : UInt32 :=
  a.toUInt32 <<< 24 ||| b.toUInt32 <<< 16 ||| c.toUInt32 <<< 8 ||| d.toUInt32

/-- The big-endian words of a text, onto `acc` in reverse. -/
def wordsOnto : Bytes → List UInt32 → List UInt32
  | a :: b :: c :: d :: rest, acc => wordsOnto rest (word a b c d :: acc)
  | _, acc => acc

def words (s : Bytes) : List UInt32 := (wordsOnto s []).reverse

def wordBytes (w : UInt32) : Bytes :=
  [(w >>> 24).toUInt8, (w >>> 16).toUInt8, (w >>> 8).toUInt8, w.toUInt8]

def rotateLeft (n : UInt32) (w : UInt32) : UInt32 := w <<< n ||| w >>> (32 - n)

def rotateRight (n : UInt32) (w : UInt32) : UInt32 := w >>> n ||| w <<< (32 - n)

/-- Feeds blocks of sixteen words to a compression function. -/
def overBlocks {σ : Type} (compress : σ → List UInt32 → σ) :
    (fuel : Nat) → List UInt32 → σ → σ
  | 0, _, state => state
  | _, [], state => state
  | fuel + 1, ws, state => overBlocks compress fuel (ws.drop 16) (compress state (ws.take 16))

end Digest

namespace Sha1

open Digest

structure State where
  a : UInt32
  b : UInt32
  c : UInt32
  d : UInt32
  e : UInt32

def start : State := ⟨0x67452301, 0xEFCDAB89, 0x98BADCFE, 0x10325476, 0xC3D2E1F0⟩

def mix (t : Nat) (b c d : UInt32) : UInt32 × UInt32 :=
  if t < 20 then ((b &&& c) ||| (~~~b &&& d), 0x5A827999)
  else if t < 40 then (b ^^^ c ^^^ d, 0x6ED9EBA1)
  else if t < 60 then ((b &&& c) ||| (b &&& d) ||| (c &&& d), 0x8F1BBCDC)
  else (b ^^^ c ^^^ d, 0xCA62C1D6)

def nextWord (window : List UInt32) : UInt32 :=
  rotateLeft 1
    (window.getD 13 0 ^^^ window.getD 8 0 ^^^ window.getD 2 0 ^^^ window.getD 0 0)

def rounds : (left t : Nat) → (window : List UInt32) → State → State
  | 0, _, _, s => s
  | left + 1, t, window, s =>
    let (f, k) := mix t s.b s.c s.d
    let temp := rotateLeft 5 s.a + f + s.e + k + window.headD 0
    rounds left (t + 1) (window.tail ++ [nextWord window])
      ⟨temp, s.a, rotateLeft 30 s.b, s.c, s.d⟩

def compress (s : State) (block : List UInt32) : State :=
  let r := rounds 80 0 block s
  ⟨s.a + r.a, s.b + r.b, s.c + r.c, s.d + r.d, s.e + r.e⟩

def hash (message : Bytes) : Bytes :=
  let ws := words (pad message)
  let s := overBlocks compress ws.length ws start
  [s.a, s.b, s.c, s.d, s.e].flatMap wordBytes

end Sha1

end ScanTriage
