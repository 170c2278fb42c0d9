import Mathlib.Data.Finset.Basic
import BenTorrent.Rust.Basic

/-!
This module contains the reader and the writer of the bitfields peers send, and that each undoes the
other.
-/

open Rust

def bitMask : UInt8 := 0b10000000

structure BitFieldReader where
  bytes : Bytes
  deriving DecidableEq

namespace BitFieldReader

def getBit (reader : BitFieldReader) (bitNum : Nat) : Option Bool :=
  match reader.bytes[bitNum / 8]? with
  | some byte =>
    -- the shift is by less than the width of a byte
    let bitPos := UInt32.ofNat bitNum % 8
    some ((bitMask >>> bitPos.toUInt8) &&& byte ≠ 0)
  | none => none

theorem getBit_eq_none_iff (reader : BitFieldReader) (bitNum : Nat)
    : reader.getBit bitNum = none ↔ 8 * reader.bytes.length ≤ bitNum := by
  unfold getBit
  split
  . next byte hbyte =>
    have := (List.getElem?_eq_some_iff.mp hbyte).1
    simp only [reduceCtorEq, false_iff]
    omega
  . next hnone =>
    have := List.getElem?_eq_none_iff.mp hnone
    simp only [true_iff]
    omega

end BitFieldReader

structure BitFieldReaderIter where
  reader : BitFieldReader
  pos : Nat

namespace BitFieldReaderIter

def ofReader (reader : BitFieldReader) : BitFieldReaderIter :=
  ⟨reader, 0⟩

def next (iter : BitFieldReaderIter) : Option Bool × BitFieldReaderIter :=
  (iter.reader.getBit iter.pos, { iter with pos := iter.pos + 1 })

def collect (iter : BitFieldReaderIter) : List Bool :=
  match _hnext : iter.next with
  | (some bit, iter') => bit :: collect iter'
  | (none, _) => []
termination_by 8 * iter.reader.bytes.length - iter.pos
decreasing_by
  obtain ⟨hbit, rfl⟩ := Prod.mk.inj _hnext
  have hlt : ¬ 8 * iter.reader.bytes.length ≤ iter.pos := by
    rw [← BitFieldReader.getBit_eq_none_iff, hbit]
    simp
  dsimp only
  omega

theorem collect_eq_some {iter : BitFieldReaderIter} {bit : Bool}
    (h : iter.reader.getBit iter.pos = some bit)
    : iter.collect = bit :: collect { iter with pos := iter.pos + 1 } := by
  rw [collect]
  split
  . next bit' iter' hnext =>
    unfold next at hnext
    rw [Prod.mk.injEq, h, Option.some.injEq] at hnext
    obtain ⟨rfl, rfl⟩ := hnext
    rfl
  . next hnext =>
    unfold next at hnext
    rw [Prod.mk.injEq, h] at hnext
    exact nomatch hnext.1

theorem collect_eq_nil {iter : BitFieldReaderIter} (h : iter.reader.getBit iter.pos = none)
    : iter.collect = [] := by
  rw [collect]
  split
  . next bit' iter' hnext =>
    unfold next at hnext
    rw [Prod.mk.injEq, h] at hnext
    exact nomatch hnext.1
  . rfl

theorem getElem?_collect (iter : BitFieldReaderIter) (i : Nat)
    : iter.collect[i]? = iter.reader.getBit (iter.pos + i) := by
  induction iter using collect.induct generalizing i with
  | case1 iter bit iter' hnext ih =>
    unfold next at hnext
    rw [Prod.mk.injEq] at hnext
    obtain ⟨hbit, rfl⟩ := hnext
    rw [collect_eq_some hbit]
    cases i with
    | zero => rw [List.getElem?_cons_zero, Nat.add_zero, hbit]
    | succ i => rw [List.getElem?_cons_succ, ih i, Nat.add_right_comm, Nat.add_assoc]
  | case2 iter iter' hnext =>
    unfold next at hnext
    rw [Prod.mk.injEq] at hnext
    rw [collect_eq_nil hnext.1, List.getElem?_nil, eq_comm, BitFieldReader.getBit_eq_none_iff]
    have := (BitFieldReader.getBit_eq_none_iff _ _).mp hnext.1
    omega

theorem getElem?_collect_ofReader (reader : BitFieldReader) (i : Nat)
    : (ofReader reader).collect[i]? = reader.getBit i := by
  rw [getElem?_collect, show (ofReader reader).pos + i = i from Nat.zero_add i]
  rfl

theorem length_collect_ofReader (reader : BitFieldReader)
    : (ofReader reader).collect.length = 8 * reader.bytes.length := by
  have h : ∀ i, (ofReader reader).collect.length ≤ i ↔ 8 * reader.bytes.length ≤ i := by
    intro i
    rw [← List.getElem?_eq_none_iff, getElem?_collect_ofReader, BitFieldReader.getBit_eq_none_iff]
  have hle := (h _).mp (Nat.le_refl _)
  have hge := (h _).mpr (Nat.le_refl _)
  omega

end BitFieldReaderIter

def BitFieldReader.piecesPresent (reader : BitFieldReader) : List UInt32 :=
  ((BitFieldReaderIter.ofReader reader).collect.zipIdx.filter fun (wasSet, _) => wasSet).map
    fun (_, block) => UInt32.ofNat block

example : BitFieldReader.piecesPresent ⟨[0b10001001, 0b11111000]⟩ = [0, 4, 7, 8, 9, 10, 11, 12] := by
  decide +kernel

structure BitFieldWriter where
  bytes : Bytes
  bitsWritten : UInt32
  deriving DecidableEq

namespace BitFieldWriter

def new : BitFieldWriter :=
  ⟨[], 0⟩

def putBit (writer : BitFieldWriter) (bit : Bool) : BitFieldWriter :=
  let bitPos := writer.bitsWritten % 8
  let bytes := if bitPos = 0 then writer.bytes ++ [0] else writer.bytes
  {
    bytes :=
      if bit then
        bytes.modify (bytes.length - 1) fun lastByte => lastByte ||| (bitMask >>> bitPos.toUInt8)
      else
        bytes
    -- a set is written for fewer bits than a `u32` counts
    bitsWritten := writer.bitsWritten + 1
  }

def putBitSet (writer : BitFieldWriter) (bits : Finset UInt32) (length : Nat) : BitFieldWriter :=
  (List.range (UInt32.ofNat length).toNat).foldl
    (fun writer i => writer.putBit (UInt32.ofNat i ∈ bits))
    writer

example : (new.putBitSet {0, 9} 10).bytes = [0b10000000, 0b01000000] := by decide

end BitFieldWriter

namespace BitFieldReader

def bitAt (byte : UInt8) (bitNum : Nat) : Bool :=
  (bitMask >>> (UInt32.ofNat bitNum % 8).toUInt8) &&& byte ≠ 0

theorem toUInt8_mod_eight (n : Nat)
    : (UInt32.ofNat n % 8).toUInt8 = UInt8.ofNat (n % 8) := by
  apply UInt8.toNat_inj.mp
  simp only [UInt32.toNat_toUInt8, UInt32.toNat_mod, UInt32.toNat_ofNat', UInt8.toNat_ofNat']
  rw [show UInt32.toNat 8 = 8 from rfl]
  omega

theorem bitAt_zero (bitNum : Nat) : bitAt 0 bitNum = false := by
  simp [bitAt]

theorem bitAt_or_mask (byte : UInt8) (n bitNum : Nat)
    : bitAt (byte ||| (bitMask >>> (UInt32.ofNat n % 8).toUInt8)) bitNum
        =
      (bitAt byte bitNum || decide (bitNum % 8 = n % 8)) := by
  have hmasks : ∀ p q : Fin 8, (bitMask >>> UInt8.ofNat p &&& bitMask >>> UInt8.ofNat q = 0)
      ↔ (p : Nat) ≠ q := by
    decide
  have hdistrib : ∀ x y z : UInt8, x &&& (y ||| z) = (x &&& y) ||| (x &&& z) := by
    intro x y z
    apply UInt8.toBitVec_inj.mp
    simp [BitVec.and_or_distrib_left]
  have h := hmasks ⟨bitNum % 8, by omega⟩ ⟨n % 8, by omega⟩
  dsimp only at h
  unfold bitAt
  simp only [hdistrib, toUInt8_mod_eight, ne_eq, UInt8.or_eq_zero_iff, h, not_and, not_not]
  by_cases heq : bitNum % 8 = n % 8
  . simp [heq]
  . simp [heq]

theorem bitAt_eq_getLsbD (byte : UInt8) (bitNum : Nat)
    : bitAt byte bitNum = byte.toBitVec.getLsbD (7 - bitNum % 8) := by
  have hmask : ∀ p : Fin 8, (bitMask >>> UInt8.ofNat p).toBitVec = BitVec.twoPow 8 (7 - p) := by
    decide
  have hne : BitVec.twoPow 8 (7 - bitNum % 8) ≠ 0#8 := by
    have : ∀ p : Fin 8, BitVec.twoPow 8 (7 - p) ≠ 0#8 := by decide
    exact this ⟨bitNum % 8, by omega⟩
  unfold bitAt
  rw [toUInt8_mod_eight, Bool.eq_iff_iff, decide_eq_true_eq, ne_eq, ← UInt8.toBitVec_inj, UInt8.toBitVec_and,
    hmask ⟨bitNum % 8, by omega⟩, BitVec.twoPow_and]
  split
  . next hbit => simpa [hbit] using hne
  . next hbit => simp [hbit]

theorem byte_eq_of_bitAt_eq {x y : UInt8} (h : ∀ i < 8, bitAt x i = bitAt y i)
    : x = y := by
  apply UInt8.toBitVec_inj.mp
  apply BitVec.eq_of_getLsbD_eq
  intro i hi
  have hbit := h (7 - i) (by omega)
  rw [bitAt_eq_getLsbD, bitAt_eq_getLsbD] at hbit
  rwa [show 7 - (7 - i) % 8 = i by omega] at hbit

theorem getBit_eq (reader : BitFieldReader) (bitNum : Nat)
    : reader.getBit bitNum = (reader.bytes[bitNum / 8]?).map fun byte => bitAt byte bitNum := by
  unfold getBit
  split
  . next byte hbyte =>
    rw [hbyte]
    rfl
  . next hnone =>
    rw [hnone]
    rfl

theorem bytes_eq_of_getBit_eq {reader reader' : BitFieldReader}
    (hlen : reader.bytes.length = reader'.bytes.length)
    (h : ∀ i, reader.getBit i = reader'.getBit i)
    : reader = reader' := by
  obtain ⟨bytes⟩ := reader
  obtain ⟨bytes'⟩ := reader'
  congr 1
  apply List.ext_getElem hlen
  intro i hi hi'
  apply byte_eq_of_bitAt_eq
  intro bit hbit
  have hget := h (8 * i + bit)
  rw [getBit_eq, getBit_eq, show (8 * i + bit) / 8 = i by omega, List.getElem?_eq_getElem hi,
    List.getElem?_eq_getElem hi', Option.map_some, Option.map_some, Option.some.injEq,
    bitAt_eq_getLsbD, bitAt_eq_getLsbD] at hget
  rwa [bitAt_eq_getLsbD, bitAt_eq_getLsbD, show bit % 8 = (8 * i + bit) % 8 by omega]

theorem mem_piecesPresent {reader : BitFieldReader} {piece : UInt32}
    : piece ∈ reader.piecesPresent
        ↔
      ∃ i, reader.getBit i = some true ∧ UInt32.ofNat i = piece := by
  unfold piecesPresent
  simp only [List.mem_map, List.mem_filter, Prod.exists, List.mem_zipIdx_iff_getElem?,
    BitFieldReaderIter.getElem?_collect_ofReader]
  constructor
  . rintro ⟨wasSet, i, ⟨hget, rfl⟩, rfl⟩
    exact ⟨i, hget, rfl⟩
  . rintro ⟨i, hget, rfl⟩
    exact ⟨true, i, ⟨hget, rfl⟩, rfl⟩

end BitFieldReader

namespace BitFieldWriter

structure Wrote (writer : BitFieldWriter) (bits : List Bool) : Prop where
  bitsWritten_eq : writer.bitsWritten = UInt32.ofNat bits.length
  length_eq : writer.bytes.length = (bits.length + 7) / 8
  bitAt_eq : ∀ i byte, writer.bytes[i / 8]? = some byte →
    BitFieldReader.bitAt byte i = (bits[i]?).getD false

def begun (writer : BitFieldWriter) : Bytes :=
  if writer.bitsWritten % 8 = 0 then writer.bytes ++ [0] else writer.bytes

theorem bytes_putBit (writer : BitFieldWriter) (bit : Bool)
    : (writer.putBit bit).bytes
        =
      if bit then
        writer.begun.modify (writer.begun.length - 1) fun lastByte =>
          lastByte ||| (bitMask >>> (writer.bitsWritten % 8).toUInt8)
      else
        writer.begun :=
  rfl

section

variable {writer : BitFieldWriter} {bits : List Bool}

theorem Wrote.bitsWritten_mod (h : writer.Wrote bits)
    : writer.bitsWritten % 8 = 0 ↔ bits.length % 8 = 0 := by
  rw [h.bitsWritten_eq, ← UInt32.toNat_inj, UInt32.toNat_mod, UInt32.toNat_ofNat',
    show UInt32.toNat 8 = 8 from rfl, show UInt32.toNat 0 = 0 from rfl]
  omega

theorem Wrote.length_begun (h : writer.Wrote bits) : writer.begun.length = bits.length / 8 + 1 := by
  have hlen := h.length_eq
  unfold begun
  split
  . next hzero =>
    rw [h.bitsWritten_mod] at hzero
    rw [List.length_append, List.length_singleton]
    omega
  . next hzero =>
    rw [h.bitsWritten_mod] at hzero
    omega

theorem Wrote.bitAt_begun (h : writer.Wrote bits) {i : Nat} {byte : UInt8}
    (hget : writer.begun[i / 8]? = some byte)
    : BitFieldReader.bitAt byte i = (bits[i]?).getD false := by
  have hlen := h.length_eq
  unfold begun at hget
  split at hget
  . rw [List.getElem?_append] at hget
    split at hget
    . exact h.bitAt_eq i byte hget
    . next hge =>
      rw [List.getElem?_singleton] at hget
      split at hget
      . rw [Option.some.injEq] at hget
        rw [← hget, BitFieldReader.bitAt_zero, List.getElem?_eq_none (by omega)]
        rfl
      . contradiction
  . exact h.bitAt_eq i byte hget

theorem getElem?_concat_getD (bits : List Bool) (bit : Bool) (i : Nat)
    : ((bits ++ [bit])[i]?).getD false
        =
      ((bits[i]?).getD false || (bit && decide (i = bits.length))) := by
  rw [List.getElem?_append]
  split
  . next hlt =>
    rw [decide_eq_false (by omega), Bool.and_false, Bool.or_false]
  . next hge =>
    have hnone : bits[i]? = none := List.getElem?_eq_none (by omega)
    rw [hnone, List.getElem?_singleton, Option.getD_none, Bool.false_or]
    by_cases heq : i = bits.length
    . rw [if_pos (by omega), decide_eq_true heq, Bool.and_true, Option.getD_some]
    . rw [if_neg (by omega), decide_eq_false heq, Bool.and_false, Option.getD_none]

theorem Wrote.putBit (h : writer.Wrote bits) (bit : Bool)
    : (writer.putBit bit).Wrote (bits ++ [bit]) := by
  have hbegun := h.length_begun
  constructor
  . rw [List.length_append, List.length_singleton, UInt32.ofNat_add, ← h.bitsWritten_eq]
    rfl
  . rw [bytes_putBit, List.length_append, List.length_singleton]
    split
    . rw [List.length_modify]
      omega
    . omega
  . intro i byte hget
    rw [bytes_putBit] at hget
    rw [getElem?_concat_getD]
    cases bit with
    | false =>
      rw [Bool.false_and, Bool.or_false]
      exact h.bitAt_begun hget
    | true =>
      -- the mask of the position is set in the last byte
      rw [if_pos rfl, hbegun, Nat.add_sub_cancel, h.bitsWritten_eq, List.getElem?_modify,
        Option.map_eq_map, Option.map_eq_some_iff] at hget
      obtain ⟨byte', hget', rfl⟩ := hget
      have hbyte := h.bitAt_begun hget'
      have hlt := (List.getElem?_eq_some_iff.mp hget').1
      rw [Bool.true_and]
      split
      . next hsame =>
        have hiff : i % 8 = bits.length % 8 ↔ i = bits.length := by omega
        simp only [BitFieldReader.bitAt_or_mask, hbyte, hiff]
      . next hother =>
        rw [hbyte, decide_eq_false (by omega), Bool.or_false]

end

theorem wrote_new : new.Wrote [] := by
  constructor
  . rfl
  . rfl
  . intro i byte hget
    simp [new] at hget

theorem Wrote.foldl_putBit {writer : BitFieldWriter} {written : List Bool} (h : writer.Wrote written)
    (bits : List Bool)
    : (bits.foldl BitFieldWriter.putBit writer).Wrote (written ++ bits) := by
  induction bits generalizing writer written with
  | nil => rwa [List.append_nil]
  | cons bit bits ih =>
    rw [List.foldl_cons, List.append_cons]
    exact ih (h.putBit bit)

theorem wrote_putBitSet (bits : Finset UInt32) (length : Nat)
    : (new.putBitSet bits length).Wrote
        ((List.range (UInt32.ofNat length).toNat).map fun i => decide (UInt32.ofNat i ∈ bits)) := by
  have h := wrote_new.foldl_putBit
    ((List.range (UInt32.ofNat length).toNat).map fun i => decide (UInt32.ofNat i ∈ bits))
  rwa [List.nil_append, List.foldl_map] at h

theorem Wrote.collect_eq {writer : BitFieldWriter} {bits : List Bool} (h : writer.Wrote bits)
    : (BitFieldReaderIter.ofReader ⟨writer.bytes⟩).collect
        =
      bits ++ List.replicate (8 * writer.bytes.length - bits.length) false := by
  have hlen := h.length_eq
  apply List.ext_getElem?
  intro i
  rw [BitFieldReaderIter.getElem?_collect_ofReader, BitFieldReader.getBit_eq,
    List.getElem?_append, List.getElem?_replicate]
  dsimp only
  by_cases hi : i / 8 < writer.bytes.length
  . have hbyte := List.getElem?_eq_getElem hi
    rw [hbyte, Option.map_some, h.bitAt_eq i _ hbyte]
    split
    . next hlt => rw [List.getElem?_eq_getElem hlt, Option.getD_some]
    . next hge => rw [List.getElem?_eq_none (by omega), Option.getD_none, if_pos (by omega)]
  . rw [List.getElem?_eq_none (by omega), if_neg (by omega), if_neg (by omega)]
    rfl

theorem mem_piecesPresent_putBitSet {bits : Finset UInt32} {length : Nat} (h : length < 2 ^ 32)
    {piece : UInt32}
    : piece ∈ BitFieldReader.piecesPresent ⟨(new.putBitSet bits length).bytes⟩
        ↔
      piece.toNat < length ∧ piece ∈ bits := by
  have hwrote := wrote_putBitSet bits length
  have hu32 : UInt32.size = 2 ^ 32 := rfl
  rw [UInt32.toNat_ofNat_of_lt' (by omega)] at hwrote
  have hlen := hwrote.length_eq
  rw [List.length_map, List.length_range] at hlen
  rw [BitFieldReader.mem_piecesPresent]
  constructor
  . rintro ⟨i, hget, rfl⟩
    rw [BitFieldReader.getBit_eq, Option.map_eq_some_iff] at hget
    obtain ⟨byte, hbyte, hbit⟩ := hget
    rw [hwrote.bitAt_eq i byte hbyte, List.getElem?_map] at hbit
    by_cases hi : i < length
    . rw [List.getElem?_range hi, Option.map_some, Option.getD_some, decide_eq_true_eq] at hbit
      rw [UInt32.toNat_ofNat_of_lt' (by omega)]
      exact ⟨hi, hbit⟩
    . rw [List.getElem?_eq_none (by rw [List.length_range]; omega)] at hbit
      contradiction
  . intro ⟨hlt, hmem⟩
    have hbyte : ∃ byte, (new.putBitSet bits length).bytes[piece.toNat / 8]? = some byte := by
      refine ⟨_, List.getElem?_eq_getElem ?_⟩
      omega
    obtain ⟨byte, hbyte⟩ := hbyte
    refine ⟨piece.toNat, ?_, UInt32.ofNat_toNat⟩
    rw [BitFieldReader.getBit_eq]
    dsimp only
    rw [hbyte, Option.map_some, hwrote.bitAt_eq _ byte hbyte, List.getElem?_map,
      List.getElem?_range hlt, Option.map_some, Option.getD_some, UInt32.ofNat_toNat]
    simpa using hmem

structure EncodesSet (bits : Finset UInt32) (length : Nat) : Prop where
  collect_iff : ∀ i,
    (BitFieldReaderIter.ofReader ⟨(new.putBitSet bits length).bytes⟩).collect[i]? = some true
      ↔
    ∃ bit ∈ bits, bit.toNat < length ∧ bit.toNat = i
  length_eq : (new.putBitSet bits length).bytes.length = (length + 7) / 8
  padding_eq : ∀ i, length ≤ i → i < 8 * (new.putBitSet bits length).bytes.length →
    (BitFieldReaderIter.ofReader ⟨(new.putBitSet bits length).bytes⟩).collect[i]? = some false

theorem encodesSet (bits : Finset UInt32) {length : Nat} (h : length < 2 ^ 32)
    : EncodesSet bits length := by
  have hwrote := wrote_putBitSet bits length
  have hu32 : UInt32.size = 2 ^ 32 := rfl
  rw [UInt32.toNat_ofNat_of_lt' (by omega)] at hwrote
  have hlen := hwrote.length_eq
  rw [List.length_map, List.length_range] at hlen
  constructor
  . intro i
    rw [hwrote.collect_eq, List.getElem?_append, List.length_map, List.length_range]
    split
    . next hlt =>
      rw [List.getElem?_map, List.getElem?_range hlt, Option.map_some, Option.some.injEq,
        decide_eq_true_eq]
      constructor
      . intro hmem
        have hi := UInt32.toNat_ofNat_of_lt' (show i < UInt32.size by omega)
        exact ⟨UInt32.ofNat i, hmem, by rwa [hi], hi⟩
      . rintro ⟨bit, hmem, -, rfl⟩
        rwa [UInt32.ofNat_toNat]
    . next hge =>
      rw [List.getElem?_replicate]
      constructor
      . intro hpad
        split at hpad
        . contradiction
        . contradiction
      . rintro ⟨bit, -, hlt, rfl⟩
        exact absurd hlt hge
  . exact hlen
  . intro i hge hlt
    rw [hwrote.collect_eq, List.getElem?_append, List.length_map, List.length_range,
      if_neg (by omega), List.getElem?_replicate, if_pos (by omega)]

/--
Writes the bits read from `bytes` one by one.
-/
def rewrite (bytes : Bytes) : BitFieldWriter :=
  (BitFieldReaderIter.ofReader ⟨bytes⟩).collect.foldl putBit new

theorem bytes_rewrite (bytes : Bytes)
    : (rewrite bytes).bytes = bytes := by
  have hwrote := wrote_new.foldl_putBit (BitFieldReaderIter.ofReader ⟨bytes⟩).collect
  rw [List.nil_append] at hwrote
  have hlen := hwrote.length_eq
  have hread := BitFieldReaderIter.length_collect_ofReader ⟨bytes⟩
  dsimp only at hread
  rw [hread] at hlen
  have hlen' : (rewrite bytes).bytes.length = bytes.length := by
    unfold rewrite
    omega
  have hcollect := hwrote.collect_eq
  rw [hread, show List.foldl putBit new _ = rewrite bytes from rfl, hlen', Nat.sub_self,
    List.replicate_zero, List.append_nil] at hcollect
  have hreader : (⟨(rewrite bytes).bytes⟩ : BitFieldReader) = ⟨bytes⟩ := by
    apply BitFieldReader.bytes_eq_of_getBit_eq hlen'
    intro i
    rw [← BitFieldReaderIter.getElem?_collect_ofReader, hcollect,
      BitFieldReaderIter.getElem?_collect_ofReader]
  exact congrArg BitFieldReader.bytes hreader

/--
What is written for a set reads as the set, and the bits read from some bytes are written as these.
-/
theorem encodesSet_and_bytes_rewrite
    : (∀ bits length, length < 2 ^ 32 → EncodesSet bits length)
        ∧
      (∀ bytes, bytes.length < 2 ^ 29 → (rewrite bytes).bytes = bytes) :=
  ⟨fun bits _ h => encodesSet bits h, fun bytes _ => bytes_rewrite bytes⟩

theorem encodesSet_and_bytes_rewrite_threeBits
    : EncodesSet {0, 2} 3 ∧ (rewrite [0b10100000]).bytes = [0b10100000] :=
  ⟨encodesSet_and_bytes_rewrite.1 {0, 2} 3 (by decide),
    encodesSet_and_bytes_rewrite.2 [0b10100000] (by decide)⟩

end BitFieldWriter
