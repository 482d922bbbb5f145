import ScanTriage.Number.Power
import ScanTriage.Text.Bytes

/-!
# Compressed data

Reads the DEFLATE format: blocks of bytes as they are, and blocks of symbols in
Huffman codes, either fixed or given by the lengths of the codewords in front of
the block. A symbol stands for a byte or for a copy of what was read before.
-/

namespace ScanTriage

namespace Deflate

inductive Refusal where
  | corrupt
  | truncated
  deriving DecidableEq

/-! ## Bits -/

/-- Data of which some bits of a byte are already read. -/
structure Source where
  /-- The unread bits of that byte, the next one lowest. -/
  hand : Nat := 0
  count : Nat := 0
  rest : Bytes

abbrev Reading := StateT Source (Except Refusal)

def readBit : Reading Nat := do
  match ← get with
  | ⟨hand, count + 1, rest⟩ => do
    set (Source.mk (hand / 2) count rest)
    pure (hand % 2)
  | ⟨_, 0, b :: rest⟩ => do
    set (Source.mk (b.toNat / 2) 7 rest)
    pure (b.toNat % 2)
  | ⟨_, 0, []⟩ => throw .truncated

/-- A number, whose lowest bit comes first. -/
def readBits : (count : Nat) → Reading Nat
  | 0 => pure 0
  | count + 1 => do
    let low ← readBit
    pure (low + 2 * (← readBits count))

/-- Whole bytes. The unread bits of the byte before them are passed over. -/
def readBytes (count : Nat) : Reading Bytes := do
  let rest := (← get).rest
  let taken := rest.take count
  if taken.length < count then throw .truncated
  set (Source.mk 0 0 (rest.drop count))
  pure taken

/-- More than the bits that are left. -/
def Source.bound (s : Source) : Nat := 8 * s.rest.length + s.count + 1

/-! ## Codes -/

/-- A Huffman code whose codewords of one length are consecutive numbers, in the
order of their symbols, and follow those of the length before. -/
structure Code where
  /-- How many codewords there are of each length, from one bit on. -/
  counts : List Nat
  /-- The symbols in the order of their codewords. -/
  symbols : Array Nat

namespace Code

/-- The code in which each symbol has a codeword of the given length, or none if
that is zero. A code of one codeword may be incomplete, and so may be an empty one. -/
def ofLengths? (lengths : List Nat) : Option Code :=
  let longest := lengths.foldl max 0
  let sizes := List.range' 1 longest
  let counts := sizes.map fun n => lengths.count n
  let ofLength (n : Nat) : List Nat := (lengths.zipIdx.filter (·.1 == n)).map (·.2)
  let total := sizes.foldl (fun total n => total + lengths.count n * 2 ^ (longest - n)) 0
  if total == 2 ^ longest || longest == 0 || counts == [1] then
    some ⟨counts, (sizes.flatMap ofLength).toArray⟩
  else none

/-- Finds the symbol of the next codeword: `first` is the number of the first
codeword that is longer than the `word` read so far would be, one bit more at a
time, and `skipped` counts the shorter codewords. -/
def find (symbols : Array Nat) : (counts : List Nat) → (word first skipped : Nat) → Reading Nat
  | [], _, _, _ => throw .corrupt
  | count :: counts, word, first, skipped => do
    let word := 2 * word + (← readBit)
    let first := 2 * first
    if word < first + count then
      match symbols[skipped + (word - first)]? with
      | some symbol => pure symbol
      | none => throw .corrupt
    else find symbols counts word (first + count) (skipped + count)

def read (c : Code) : Reading Nat := find c.symbols c.counts 0 0 0

end Code

/-- The bytes, the end of a block, and the lengths of copies. -/
def fixedLiterals : List Nat :=
  List.replicate 144 8 ++ List.replicate 112 9 ++ List.replicate 24 7 ++ List.replicate 8 8

def fixedDistances : List Nat := List.replicate 32 5

/-- The order in which the lengths for the code of lengths are given. -/
def lengthOrder : List Nat :=
  [16, 17, 18, 0, 8, 7, 9, 6, 10, 5, 11, 4, 12, 3, 13, 2, 14, 1, 15]

/-- Reads lengths of codewords behind those in reverse in `acc` until there are
`total`: a symbol is a length, or repeats the last one or zero. -/
def readLengths (code : Code) (total : Nat) : (fuel : Nat) → List Nat → Reading (List Nat)
  | 0, _ => throw .corrupt
  | fuel + 1, acc => do
    if total ≤ acc.length then pure acc.reverse
    else
      let symbol ← code.read
      let (value, times) ←
        if symbol < 16 then pure (symbol, 1)
        else if symbol == 16 then
          match acc with
          | last :: _ => do pure (last, 3 + (← readBits 2))
          | [] => throw .corrupt
        else if symbol == 17 then do pure (0, 3 + (← readBits 3))
        else do pure (0, 11 + (← readBits 7))
      if total < acc.length + times then throw .corrupt
      readLengths code total fuel (List.replicate times value ++ acc)

def orCorrupt {α : Type} : Option α → Reading α
  | some a => pure a
  | none => throw .corrupt

/-- The two codes in front of a block: for bytes and lengths, and for distances. -/
def readCodes : Reading (Code × Code) := do
  let literals := 257 + (← readBits 5)
  if 286 < literals then throw .corrupt
  let distances := 1 + (← readBits 5)
  if 30 < distances then throw .corrupt
  let given ← (List.range (4 + (← readBits 4))).mapM fun _ => readBits 3
  let ofSymbol (n : Nat) : Nat := ((lengthOrder.zip given).lookup n).getD 0
  let code ← orCorrupt (Code.ofLengths? ((List.range 19).map ofSymbol))
  let lengths ← readLengths code (literals + distances) (literals + distances + 1) []
  pure (← orCorrupt (Code.ofLengths? (lengths.take literals)),
    ← orCorrupt (Code.ofLengths? (lengths.drop literals)))

/-! ## Blocks -/

def readLength (symbol : Nat) : Reading Nat :=
  if symbol < 265 then pure (symbol - 254)
  else if symbol < 285 then do
    let more := (symbol - 261) / 4
    pure (3 + (4 + (symbol - 261) % 4) * 2 ^ more + (← readBits more))
  else if symbol == 285 then pure 258
  else throw .corrupt

def readDistance (symbol : Nat) : Reading Nat :=
  if symbol < 4 then pure (symbol + 1)
  else if symbol < 30 then do
    let more := (symbol - 2) / 2
    pure (1 + (2 + symbol % 2) * 2 ^ more + (← readBits more))
  else throw .corrupt

/-- Bytes from some distance back are put behind the others. What is copied may
reach into the copy. -/
def copy (distance : Nat) : (length : Nat) → Array UInt8 → Array UInt8
  | 0, out => out
  | length + 1, out => copy distance length (out.push (out[out.size - distance]?.getD 0))

def readSymbols (literals distances : Code) : (fuel : Nat) → Array UInt8 → Reading (Array UInt8)
  | 0, _ => throw .truncated
  | fuel + 1, out => do
    let symbol ← literals.read
    if symbol < 256 then readSymbols literals distances fuel (out.push (UInt8.ofNat symbol))
    else if symbol == 256 then pure out
    else
      let length ← readLength symbol
      let distance ← readDistance (← distances.read)
      if out.size < distance then throw .corrupt
      readSymbols literals distances fuel (copy distance length out)

/-- The number of two bytes, the low one first. -/
def ofPair : Bytes → Nat
  | [low, high] => low.toNat + 256 * high.toNat
  | _ => 0

def readStored (out : Array UInt8) : Reading (Array UInt8) := do
  let size := ofPair (← readBytes 2)
  let check := ofPair (← readBytes 2)
  if size + check != 65535 then throw .corrupt
  pure (out ++ (← readBytes size))

def readBlock (out : Array UInt8) : (kind : Nat) → Reading (Array UInt8)
  | 0 => readStored out
  | 1 => do
    let literals ← orCorrupt (Code.ofLengths? fixedLiterals)
    let distances ← orCorrupt (Code.ofLengths? fixedDistances)
    readSymbols literals distances (← get).bound out
  | 2 => do
    let (literals, distances) ← readCodes
    readSymbols literals distances (← get).bound out
  | _ => throw .corrupt

def readBlocks : (fuel : Nat) → Array UInt8 → Reading (Array UInt8)
  | 0, _ => throw .truncated
  | fuel + 1, out => do
    let isLast ← readBit
    let out ← readBlock out (← readBits 2)
    if isLast == 1 then pure out else readBlocks fuel out

/-- The bytes that compressed data stands for, and what follows the data. -/
def inflate (data : Bytes) : Except Refusal (Bytes × Bytes) := do
  let source : Source := { rest := data }
  let (out, source) ← readBlocks source.bound #[] source
  pure (out.toList, source.rest)

end Deflate

end ScanTriage
