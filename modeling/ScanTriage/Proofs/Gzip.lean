import Mathlib.Data.List.Basic
import ScanTriage.Gzip

/-!
# Packing loses nothing

Unpacking gives back every text that was packed (`unpack_pack`), however many
stored blocks it takes.
-/

namespace ScanTriage

namespace Deflate

/-- Whole bytes are read from behind the byte in hand. -/
theorem readBytes_append (data rest : Bytes) (hand count : Nat) :
    readBytes data.length ⟨hand, count, data ++ rest⟩ = .ok (data, ⟨0, 0, rest⟩) := by
  have htake : (data ++ rest).take data.length = data := List.take_left
  have hdrop : (data ++ rest).drop data.length = rest := List.drop_left
  show (do
    if ((data ++ rest).take data.length).length < data.length then throw .truncated
    set (Source.mk 0 0 ((data ++ rest).drop data.length))
    pure ((data ++ rest).take data.length) : Reading Bytes) _ = _
  rw [htake, hdrop, if_neg (Nat.lt_irrefl _)]
  rfl

end Deflate

namespace Gzip

open Deflate

@[simp]
theorem length_littleEndian (count n : Nat) : (littleEndian count n).length = count := by
  induction count generalizing n with
  | zero => rfl
  | succ count ih => rw [littleEndian, List.length_cons, ih]

theorem ofLittleEndian_littleEndian (count n : Nat) :
    ofLittleEndian (littleEndian count n) = n % 256 ^ count := by
  induction count generalizing n with
  | zero => simp [littleEndian, ofLittleEndian, Nat.mod_one]
  | succ count ih =>
    have hbyte : (UInt8.ofNat (n % 256)).toNat = n % 256 :=
      UInt8.toNat_ofNat_of_lt' (Nat.mod_lt _ (by decide))
    have hstep : ofLittleEndian (littleEndian (count + 1) n) =
        ofLittleEndian (littleEndian count (n / 256)) * 256 + (UInt8.ofNat (n % 256)).toNat := rfl
    rw [hstep, ih, hbyte, Nat.pow_succ, Nat.mul_comm (256 ^ count) 256, Nat.mod_mul]
    omega

theorem ofPair_littleEndian {n : Nat} (hn : n ≤ blockSize) : ofPair (littleEndian 2 n) = n := by
  have hlow : (UInt8.ofNat (n % 256)).toNat = n % 256 :=
    UInt8.toNat_ofNat_of_lt' (Nat.mod_lt _ (by decide))
  have hhigh : (UInt8.ofNat (n / 256 % 256)).toNat = n / 256 % 256 :=
    UInt8.toNat_ofNat_of_lt' (Nat.mod_lt _ (by decide))
  show (UInt8.ofNat (n % 256)).toNat + 256 * (UInt8.ofNat (n / 256 % 256)).toNat = n
  unfold blockSize at hn
  omega

/-- Two bytes of a number are read back. -/
theorem readBytes_littleEndian (n hand count : Nat) (rest : Bytes) :
    readBytes 2 ⟨hand, count, littleEndian 2 n ++ rest⟩ =
      .ok (littleEndian 2 n, ⟨0, 0, rest⟩) := by
  have h := readBytes_append (littleEndian 2 n) rest hand count
  rwa [length_littleEndian] at h

theorem readStored_data {data : Bytes} (hdata : data.length ≤ blockSize) (hand count : Nat)
    (rest : Bytes) (out : Array UInt8) :
    readStored out ⟨hand, count, littleEndian 2 data.length ++
      (littleEndian 2 (65535 - data.length) ++ (data ++ rest))⟩ =
      .ok (out ++ data, ⟨0, 0, rest⟩) := by
  have hsize : ofPair (littleEndian 2 data.length) = data.length := ofPair_littleEndian hdata
  have hcheck : ofPair (littleEndian 2 (65535 - data.length)) = 65535 - data.length :=
    ofPair_littleEndian (Nat.sub_le _ _)
  have hsum : data.length + (65535 - data.length) = 65535 := by
    unfold blockSize at hdata
    omega
  simp only [readStored, bind, StateT.bind, readBytes_littleEndian, Except.bind, hsize, hcheck,
    hsum, bne_self_eq_false, Bool.false_eq_true, if_false, readBytes_append]
  rfl

/-- One block is read back; after the last one the text is complete. -/
theorem readBlocks_block (isLast : Bool) {data : Bytes} (hdata : data.length ≤ blockSize)
    (fuel hand : Nat) (rest : Bytes) (out : Array UInt8) :
    readBlocks (fuel + 1) out ⟨hand, 0, block isLast data ++ rest⟩ =
      if isLast then .ok (out ++ data, ⟨0, 0, rest⟩)
      else readBlocks fuel (out ++ data) ⟨0, 0, rest⟩ := by
  have hblock : block isLast data ++ rest = (if isLast then 1 else 0) ::
      (littleEndian 2 data.length ++ (littleEndian 2 (65535 - data.length) ++ (data ++ rest))) := by
    simp [block, List.append_assoc]
  rw [hblock]
  cases isLast with
  | false =>
    show (readStored out >>= fun out => readBlocks fuel out) _ = _
    simp only [bind, StateT.bind, Except.bind, readStored_data hdata, Bool.false_eq_true, if_false]
  | true =>
    show (readStored out >>= fun out => pure out) _ = _
    simp only [bind, StateT.bind, Except.bind, readStored_data hdata, if_true]
    rfl

/-- The blocks of a text, and how they are read back. -/
theorem blocksOnto_eq {fuel : Nat} {s : Bytes} (hs : s.length < fuel * blockSize)
    (acc : List Bytes) :
    ∃ written, (blocksOnto fuel s acc).reverse.flatten = acc.reverse.flatten ++ written ∧
      ∀ fuel' hand rest out, written.length ≤ fuel' →
        readBlocks fuel' out ⟨hand, 0, written ++ rest⟩ = .ok (out ++ s, ⟨0, 0, rest⟩) := by
  induction fuel generalizing s acc with
  | zero => omega
  | succ fuel ih =>
    have htake : (s.take blockSize).length ≤ blockSize := List.length_take_le ..
    have hexists : ∀ isLast, ∀ fuel', (block isLast (s.take blockSize)).length ≤ fuel' →
        ∃ n, fuel' = n + 1 := by
      intro isLast fuel' hfuel
      rw [block, List.cons_append, List.cons_append, List.length_cons] at hfuel
      exact ⟨fuel' - 1, by omega⟩
    rw [blocksOnto]
    split
    · next hdrop =>
      refine ⟨block true (s.take blockSize), by simp, fun fuel' hand rest out hfuel => ?_⟩
      obtain ⟨n, rfl⟩ := hexists true fuel' hfuel
      have hall : s.take blockSize = s := List.take_of_length_le (List.drop_eq_nil_iff.mp hdrop)
      rw [readBlocks_block true htake, if_pos rfl, hall]
    · next rest hne =>
      have hshort : (s.drop blockSize).length < fuel * blockSize := by
        rw [List.length_drop]
        rw [Nat.succ_mul] at hs
        have := List.length_pos_iff.mpr hne
        rw [List.length_drop] at this
        omega
      obtain ⟨written, hwritten, hread⟩ := ih hshort (block false (s.take blockSize) :: acc)
      refine ⟨block false (s.take blockSize) ++ written, ?_, fun fuel' hand rest out hfuel => ?_⟩
      · rw [hwritten]
        simp
      · rw [List.length_append] at hfuel
        obtain ⟨n, rfl⟩ := hexists false fuel' (by omega)
        have hle : written.length ≤ n := by
          rw [block, List.cons_append, List.cons_append, List.length_cons] at hfuel
          omega
        have hparts : out ++ s.take blockSize ++ s.drop blockSize = out ++ s :=
          Array.ext' (by simp)
        rw [List.append_assoc, readBlocks_block false htake, if_neg (by decide),
          hread n 0 rest _ hle, hparts]

theorem inflate_blocks (s rest : Bytes) : inflate (blocks s ++ rest) = .ok (s, rest) := by
  have hfuel : s.length < (s.length / blockSize + 1) * blockSize := by
    rw [Nat.mul_comm]
    exact Nat.lt_mul_div_succ s.length (by decide)
  obtain ⟨written, hwritten, hread⟩ := blocksOnto_eq hfuel []
  have hblocks : blocks s = written := by rw [blocks, hwritten, List.reverse_nil]; rfl
  have hbound : written.length ≤ Source.bound { rest := written ++ rest } := by
    unfold Source.bound
    rw [List.length_append]
    omega
  rw [hblocks]
  simp [inflate, hread _ 0 rest #[] hbound, bind, Except.bind, pure, Except.pure]

theorem afterHeader_header (s : Bytes) : afterHeader (header ++ s) = .ok s := rfl

theorem unpackMember_pack (s : Bytes) : unpackMember (pack s) = .ok (s, []) := by
  have hbody : pack s = header ++ (blocks s ++
      (littleEndian 4 (crc32 s).toNat ++ littleEndian 4 s.length)) := by
    simp [pack, List.append_assoc]
  have hcrc : ofLittleEndian (littleEndian 4 (crc32 s).toNat) = (crc32 s).toNat := by
    rw [ofLittleEndian_littleEndian]
    exact Nat.mod_eq_of_lt (crc32 s).toNat_lt
  have htake : (littleEndian 4 s.length).take 4 = littleEndian 4 s.length :=
    List.take_of_length_le (by simp)
  have hdrop : (littleEndian 4 (crc32 s).toNat ++ littleEndian 4 s.length).drop 8 = [] :=
    List.drop_eq_nil_of_le (by simp)
  rw [hbody, unpackMember, afterHeader_header]
  simp only [bind, Except.bind, inflate_blocks, Except.mapError]
  simp [hcrc, htake, hdrop, ofLittleEndian_littleEndian]

theorem unpack_pack (s : Bytes) : unpack (pack s) = .ok s := by
  have hne : (pack s).isEmpty = false := rfl
  have hfuel : ∃ n, (pack s).length = n + 1 := ⟨_, rfl⟩
  obtain ⟨n, hn⟩ := hfuel
  rw [unpack, hne, hn, if_neg (by decide), unpackOnto, unpackMember_pack]
  simp

end Gzip

end ScanTriage
