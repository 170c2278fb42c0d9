import Mathlib.Algebra.BigOperators.Ring.Finset
import Mathlib.Tactic.Ring
import Mathlib.Tactic.Linarith
import BenTorrent.Model.Torrent
import BenTorrent.Sha1.Basic

/-!
This module contains the layout of a torrent: how many pieces it has and how long they are.
-/

open Rust

structure TorrentAllocation where
  totalPieces : Nat
  maxPieceSize : Nat
  lastPieceSize : Nat
  deriving Repr, DecidableEq

structure V1TorrentInfo.Consistent (info : V1TorrentInfo) : Prop where
  pieces_pos : 1 ≤ info.pieces.length
  pieceLength_pos : 0 < info.pieceLength.toInt
  lt_length : (info.pieces.length - 1) * info.pieceLength.toInt < info.length.toInt
  length_le : info.length.toInt ≤ info.pieces.length * info.pieceLength.toInt

instance (info : V1TorrentInfo) : Decidable info.Consistent :=
  decidable_of_iff
    (1 ≤ info.pieces.length
      ∧ 0 < info.pieceLength.toInt
      ∧ (info.pieces.length - 1) * info.pieceLength.toInt < info.length.toInt
      ∧ info.length.toInt ≤ info.pieces.length * info.pieceLength.toInt)
    ⟨fun ⟨h1, h2, h3, h4⟩ => ⟨h1, h2, h3, h4⟩, fun ⟨h1, h2, h3, h4⟩ => ⟨h1, h2, h3, h4⟩⟩

def V1TorrentInfo.FullLast (info : V1TorrentInfo) : Prop :=
  info.pieces.length = 1 ∨ info.length.toInt = info.pieces.length * info.pieceLength.toInt

instance (info : V1TorrentInfo) : Decidable info.FullLast :=
  inferInstanceAs (Decidable (_ ∨ _))

def infoFixture (pieceLength length : Int64) (pieces : List Bytes) : Bencode :=
  .dictionary [
    (⟨"length".toUTF8.toList⟩, .int length),
    (⟨"name".toUTF8.toList⟩, .byteString ⟨"test.txt".toUTF8.toList⟩),
    (⟨"piece length".toUTF8.toList⟩, .int pieceLength),
    (⟨"pieces".toUTF8.toList⟩, .byteString ⟨pieces.flatMap Sha1.digest⟩)
  ]

def bencodeFixture (pieceLength length : Int64) (pieces : List Bytes) : Bencode :=
  .dictionary [
    (⟨"announce".toUTF8.toList⟩, .byteString ⟨[]⟩),
    (⟨"info".toUTF8.toList⟩, infoFixture pieceLength length pieces)
  ]

def torrentFixture (pieceLength length : Int64) (pieces : List Bytes) : V1Torrent where
  info := {
    length
    pieceLength
    pieces := pieces.map fun piece => { hash := Sha1.digest piece }
    name := "test.txt"
    infoHash := Sha1.digest (Bencode.encode (infoFixture pieceLength length pieces))
  }
  announce := ""
  announceList := []

namespace TorrentAllocation

def allocateTorrent (build : Build) (torrent : V1Torrent) : Outcome ε TorrentAllocation := do
  let totalPieces := torrent.info.pieces.length
  let maxPieceSize := asUsize torrent.info.pieceLength
  let fullPieces ← build.usizeSub totalPieces 1
  let fullSize ← build.usizeMul fullPieces maxPieceSize
  let lastPieceSize ← build.usizeSub (asUsize torrent.info.length) fullSize
  return { totalPieces, maxPieceSize, lastPieceSize }

def pieceLen (build : Build) (allocation : TorrentAllocation) (pieceIdx : Nat) : Outcome ε Nat := do
  let lastPieceIdx ← build.usizeSub allocation.totalPieces 1
  return if pieceIdx = lastPieceIdx then allocation.lastPieceSize else allocation.maxPieceSize

/--
The allocation is computed without overflow, and the lengths of its pieces are positive, do not
exceed the piece length and add up to the length of the file.
-/
def LayoutSafe (torrent : V1Torrent) : Prop :=
  ∃ (allocation : TorrentAllocation) (lens : Nat → Nat),
    (allocateTorrent ⟨true⟩ torrent : Outcome Empty TorrentAllocation) = .ok allocation
      ∧ (∀ i < allocation.totalPieces,
          (allocation.pieceLen ⟨true⟩ i : Outcome Empty Nat) = .ok (lens i)
            ∧ 0 < lens i
            ∧ (lens i : Int) ≤ torrent.info.pieceLength.toInt)
      ∧ (∑ i ∈ Finset.range allocation.totalPieces, (lens i : Int)) = torrent.info.length.toInt

def len (allocation : TorrentAllocation) (pieceIdx : Nat) : Nat :=
  if pieceIdx = allocation.totalPieces - 1 then
    allocation.lastPieceSize
  else
    allocation.maxPieceSize

theorem pieceLen_eq (build : Build) (allocation : TorrentAllocation) (pieceIdx : Nat)
    (h1 : 1 ≤ allocation.totalPieces) (h2 : allocation.totalPieces ≤ 2 ^ 64)
    : (allocation.pieceLen build pieceIdx : Outcome ε Nat) = .ok (allocation.len pieceIdx) := by
  unfold pieceLen
  rw [Build.usizeSub_of_fits build _ 1 h1 (by omega)]
  rfl

theorem len_last (allocation : TorrentAllocation)
    : allocation.len (allocation.totalPieces - 1) = allocation.lastPieceSize :=
  if_pos rfl

theorem len_of_lt (allocation : TorrentAllocation) (pieceIdx : Nat)
    (h : pieceIdx < allocation.totalPieces - 1)
    : allocation.len pieceIdx = allocation.maxPieceSize :=
  if_neg (Nat.ne_of_lt h)

theorem sum_len (allocation : TorrentAllocation) (h : 1 ≤ allocation.totalPieces)
    : ∑ i ∈ Finset.range allocation.totalPieces, allocation.len i
        =
      (allocation.totalPieces - 1) * allocation.maxPieceSize + allocation.lastPieceSize := by
  have hsucc : allocation.totalPieces = allocation.totalPieces - 1 + 1 := by omega
  conv =>
    lhs
    rw [hsucc]
  have hfull : ∀ i ∈ Finset.range (allocation.totalPieces - 1),
      allocation.len i = allocation.maxPieceSize := by
    intro i hi
    apply len_of_lt allocation i (Finset.mem_range.mp hi)
  rw [Finset.sum_range_succ, len_last, Finset.sum_const_nat hfull, Finset.card_range]

structure LaidOut (allocation : TorrentAllocation) (info : V1TorrentInfo) : Prop where
  totalPieces_eq : allocation.totalPieces = info.pieces.length
  totalPieces_pos : 1 ≤ allocation.totalPieces
  totalPieces_le : allocation.totalPieces ≤ 2 ^ 64
  maxPieceSize_eq : (allocation.maxPieceSize : Int) = info.pieceLength.toInt
  lastPieceSize_pos : 0 < allocation.lastPieceSize
  lastPieceSize_le : allocation.lastPieceSize ≤ allocation.maxPieceSize
  length_eq : ((allocation.totalPieces - 1) * allocation.maxPieceSize + allocation.lastPieceSize : Nat)
    = info.length.toInt

theorem LaidOut.len_le {allocation : TorrentAllocation} {info : V1TorrentInfo}
    (h : LaidOut allocation info) (i : Nat)
    : allocation.len i ≤ allocation.maxPieceSize := by
  have := h.lastPieceSize_le
  unfold len
  split
  . exact this
  . apply Nat.le_refl _

theorem LaidOut.len_pos {allocation : TorrentAllocation} {info : V1TorrentInfo}
    (h : LaidOut allocation info) (i : Nat)
    : 0 < allocation.len i := by
  have := h.lastPieceSize_pos
  have := h.lastPieceSize_le
  unfold len
  split
  . assumption
  . omega

theorem LaidOut.mul_add_len_le {allocation : TorrentAllocation} {info : V1TorrentInfo}
    (h : LaidOut allocation info) {i j : Nat} (hlt : i < j)
    : i * allocation.maxPieceSize + allocation.len i ≤ j * allocation.maxPieceSize := by
  calc
    i * allocation.maxPieceSize + allocation.len i
      ≤ (i + 1) * allocation.maxPieceSize := by
        rw [Nat.succ_mul]
        apply Nat.add_le_add_left (h.len_le i) _
    _ ≤ j * allocation.maxPieceSize := Nat.mul_le_mul_right _ hlt

theorem LaidOut.mul_add_len_le_length {allocation : TorrentAllocation} {info : V1TorrentInfo}
    (h : LaidOut allocation info) {i : Nat}
    (hi : i < allocation.totalPieces)
    : ((i * allocation.maxPieceSize + allocation.len i : Nat) : Int) ≤ info.length.toInt := by
  rw [← h.length_eq]
  by_cases hlast : i = allocation.totalPieces - 1
  . rw [hlast, len_last]
  . have hle := h.mul_add_len_le (i := i) (j := allocation.totalPieces - 1) (by omega)
    exact_mod_cast Nat.le_trans hle (Nat.le_add_right _ _)

theorem LaidOut.len_mul {allocation : TorrentAllocation} {info : V1TorrentInfo}
    (h : LaidOut allocation info) (hfull : info.FullLast) {i : Nat}
    (hi : i < allocation.totalPieces)
    : allocation.len i * i = i * allocation.maxPieceSize := by
  unfold len
  split
  . next hlast =>
    cases hfull with
    | inl hone =>
      have : i = 0 := by
        rw [hlast, h.totalPieces_eq, hone]
      simp [this]
    | inr hlength =>
      have htotal : allocation.totalPieces = allocation.totalPieces - 1 + 1 := by omega
      have hmul : (allocation.totalPieces - 1) * allocation.maxPieceSize + allocation.lastPieceSize
          = allocation.totalPieces * allocation.maxPieceSize := by
        rw [← h.length_eq, ← h.totalPieces_eq, ← h.maxPieceSize_eq] at hlength
        exact_mod_cast hlength
      rw [htotal, Nat.succ_mul, Nat.add_sub_cancel] at hmul
      rw [Nat.add_left_cancel hmul, Nat.mul_comm]
  . rw [Nat.mul_comm]

theorem allocateTorrent_of_fits (build : Build) (torrent : V1Torrent)
    (h1 : 1 ≤ torrent.info.pieces.length)
    (h2 : torrent.info.pieces.length ≤ 2 ^ 64)
    (h3 : (torrent.info.pieces.length - 1) * asUsize torrent.info.pieceLength
      ≤ asUsize torrent.info.length)
    : (allocateTorrent build torrent : Outcome ε TorrentAllocation)
        =
      .ok {
        totalPieces := torrent.info.pieces.length
        maxPieceSize := asUsize torrent.info.pieceLength
        lastPieceSize := asUsize torrent.info.length
          - (torrent.info.pieces.length - 1) * asUsize torrent.info.pieceLength
      } := by
  have hlength := asUsize_lt torrent.info.length
  unfold allocateTorrent
  dsimp only
  rw [Build.usizeSub_of_fits build _ 1 h1 (by omega), Outcome.ok_bind]
  rw [Build.usizeMul_of_fits build _ _ (by omega), Outcome.ok_bind]
  rw [Build.usizeSub_of_fits build _ _ h3 (by omega), Outcome.ok_bind]
  rfl

theorem allocateTorrent_of_consistent (build : Build) (torrent : V1Torrent)
    (h : torrent.info.Consistent)
    : ∃ allocation, (allocateTorrent build torrent : Outcome ε TorrentAllocation) = .ok allocation
        ∧ LaidOut allocation torrent.info := by
  obtain ⟨hpieces, hpl, hlt, hle⟩ := h
  have hmax := asUsize_eq torrent.info.pieceLength
  have hlen := asUsize_eq torrent.info.length
  have hlength := Int64.toInt_lt torrent.info.length
  obtain ⟨k, hk⟩ : ∃ k, torrent.info.pieces.length = k + 1 := ⟨_, (Nat.sub_add_cancel hpieces).symm⟩
  rw [if_pos (by omega)] at hmax
  rw [hk] at hlt hle
  push_cast at hlt hle
  rw [add_sub_cancel_right] at hlt
  have hk0 : (k : Int) ≤ k * torrent.info.pieceLength.toInt := by nlinarith
  rw [if_pos (by omega)] at hlen
  rw [← hmax, ← hlen] at hlt hle
  rw [← hmax] at hk0
  rw [← hlen] at hlength
  have hfull : k * asUsize torrent.info.pieceLength < asUsize torrent.info.length := by
    exact_mod_cast hlt
  have hlast : asUsize torrent.info.length ≤ (k + 1) * asUsize torrent.info.pieceLength := by
    exact_mod_cast hle
  have hsum : (k + 1) * asUsize torrent.info.pieceLength
      = k * asUsize torrent.info.pieceLength + asUsize torrent.info.pieceLength := by
    ring
  have hkle : k ≤ k * asUsize torrent.info.pieceLength := by exact_mod_cast hk0
  have hsub : torrent.info.pieces.length - 1 = k := by omega
  refine ⟨_, allocateTorrent_of_fits build torrent hpieces (by omega) (by rw [hsub]; omega), ?_⟩
  rw [hsub]
  constructor
  . rfl
  . exact hpieces
  . dsimp only
    omega
  . exact hmax
  . dsimp only
    omega
  . dsimp only
    omega
  . dsimp only
    rw [hsub, ← hlen]
    congr 1
    omega

theorem allocateTorrent_checked_eq_ok {torrent : V1Torrent} {allocation : TorrentAllocation}
    (h : (allocateTorrent ⟨true⟩ torrent : Outcome ε TorrentAllocation) = .ok allocation)
    : allocation.totalPieces = torrent.info.pieces.length
        ∧ 1 ≤ allocation.totalPieces
        ∧ allocation.totalPieces ≤ 2 ^ 64
        ∧ allocation.maxPieceSize = asUsize torrent.info.pieceLength
        ∧ (allocation.totalPieces - 1) * allocation.maxPieceSize + allocation.lastPieceSize
            = asUsize torrent.info.length := by
  unfold allocateTorrent at h
  simp only [Outcome.bind_eq_ok] at h
  obtain ⟨fullPieces, h1, fullSize, h2, lastPieceSize, h3, h4⟩ := h
  simp only [pure, Except.pure, Except.ok.injEq] at h4
  subst h4
  unfold Build.usizeSub at h1 h3
  unfold Build.usizeMul at h2
  rw [Build.arith_checked_eq_ok_iff _ _ _ _ rfl] at h1 h2 h3
  have hfull : torrent.info.pieces.length - 1 = fullPieces := by omega
  have hsize : fullPieces * asUsize torrent.info.pieceLength = fullSize := by exact_mod_cast h2.1
  refine ⟨rfl, by dsimp only; omega, by dsimp only; omega, rfl, ?_⟩
  dsimp only
  rw [hfull, hsize]
  omega

theorem layoutSafe_of_consistent {torrent : V1Torrent} (h : torrent.info.Consistent)
    : LayoutSafe torrent := by
  obtain ⟨allocation, halloc, hlaid⟩ := allocateTorrent_of_consistent ⟨true⟩ torrent h
  refine ⟨allocation, allocation.len, halloc, ?_, ?_⟩
  . intro i hi
    rw [pieceLen_eq _ _ _ hlaid.totalPieces_pos hlaid.totalPieces_le]
    have hpos := hlaid.lastPieceSize_pos
    have hle := hlaid.lastPieceSize_le
    have hmax := hlaid.maxPieceSize_eq
    unfold len
    split
    . exact ⟨rfl, by omega, by omega⟩
    . exact ⟨rfl, by omega, by omega⟩
  . rw [← hlaid.length_eq, ← sum_len allocation hlaid.totalPieces_pos]
    push_cast
    rfl

theorem consistent_of_layoutSafe {torrent : V1Torrent} (h : LayoutSafe torrent)
    : torrent.info.Consistent := by
  obtain ⟨allocation, lens, halloc, hlens, hsum⟩ := h
  obtain ⟨htotal, hpos, hle, hmax, hlength⟩ := allocateTorrent_checked_eq_ok halloc
  have hlen : ∀ i < allocation.totalPieces, lens i = allocation.len i := by
    intro i hi
    have := (hlens i hi).1
    rw [pieceLen_eq _ _ _ hpos hle] at this
    simpa using this.symm
  have hsum : (asUsize torrent.info.length : Int) = torrent.info.length.toInt := by
    rw [← hsum, ← hlength, ← sum_len allocation hpos]
    push_cast
    apply Finset.sum_congr rfl
    intro i hi
    rw [hlen i (Finset.mem_range.mp hi)]
  have hlast := hlens (allocation.totalPieces - 1) (by omega)
  rw [hlen _ (by omega), len_last] at hlast
  have hmaxInt := asUsize_eq torrent.info.pieceLength
  rw [if_pos (by omega), ← hmax] at hmaxInt
  have hlengthInt : (allocation.totalPieces - 1 : Int) * allocation.maxPieceSize
      + allocation.lastPieceSize = torrent.info.length.toInt := by
    rw [← hsum, ← hlength]
    push_cast [hpos]
    rfl
  constructor
  . omega
  . omega
  . rw [← htotal, ← hmaxInt]
    omega
  . rw [← htotal, ← hmaxInt]
    have : (allocation.totalPieces : Int) * allocation.maxPieceSize
        = (allocation.totalPieces - 1 : Int) * allocation.maxPieceSize + allocation.maxPieceSize := by
      ring
    omega

theorem layoutSafe_iff_consistent (sha1 : Bytes → Bytes) (bc : Bencode) (torrent : V1Torrent)
    (_h : V1Torrent.tryFrom sha1 bc = .ok torrent)
    : LayoutSafe torrent ↔ torrent.info.Consistent :=
  ⟨consistent_of_layoutSafe, layoutSafe_of_consistent⟩

theorem layoutSafe_iff_consistent_twoPieces
    : LayoutSafe (torrentFixture 2 3 [[1, 2], [7]])
        ↔ (torrentFixture 2 3 [[1, 2], [7]]).info.Consistent :=
  layoutSafe_iff_consistent Sha1.digest (bencodeFixture 2 3 [[1, 2], [7]]) _ (by decide +kernel)

theorem not_layoutSafe_noPieces
    : ¬∀ bc torrent, V1Torrent.tryFrom Sha1.digest bc = .ok torrent → LayoutSafe torrent := by
  intro h
  have haccepted : V1Torrent.tryFrom Sha1.digest (bencodeFixture 2 0 []) = .ok (torrentFixture 2 0 []) := by
    decide +kernel
  have hconsistent := consistent_of_layoutSafe (h _ _ haccepted)
  exact absurd hconsistent.pieces_pos (by decide)

end TorrentAllocation
