import BenTorrent.Peer.Io.File

/-!
This module contains `MemoryTorrentIO`, which keeps every piece in a buffer of its own and checks no
hash.
-/

open Rust

structure Memory where
  memory : Bytes
  slices : Slices
  deriving DecidableEq

structure MemoryTorrentIo where
  memory : List Memory
  deriving DecidableEq

namespace MemoryTorrentIo

variable (build : Build)

def newMemory (len : Nat) : Outcome AnyError Memory := do
  let memory ← vecZeros len
  return { memory, slices := Slices.new memory.length }

def new (torrent : V1Torrent) : Outcome AnyError MemoryTorrentIo := do
  let allocation ← TorrentAllocation.allocateTorrent build torrent
  let memory ← (List.range (allocation.totalPieces - 1)).mapM fun _ =>
    newMemory allocation.maxPieceSize
  let last ← newMemory allocation.lastPieceSize
  return { memory := memory ++ [last] }

def startWrite (io : MemoryTorrentIo) (index begin : UInt32) (block : Bytes)
    : Outcome AnyError Memory := do
  let some piece := io.memory[index.toNat]?
    | .error (.err (.peer (.badPieceIdx index.toNat)))
  let endPos ← build.usizeAdd begin.toNat block.length
  if piece.memory.length < endPos then
    .error (.err (.peer (.badBounds index.toNat endPos)))
  else
    return piece

def writePiece (io : MemoryTorrentIo) (index begin : UInt32) (block : Bytes)
    : Outcome AnyError Bool × MemoryTorrentIo :=
  match io.startWrite build index begin block with
  | .error e => (.error e, io)
  | .ok piece =>
    match piece.slices.insert build begin (UInt32.ofNat block.length) with
    | .error e => (.error e, io)
    | .ok (finished, slices) =>
      let memory := File.overwrite piece.memory begin.toNat block
      (.ok finished, { memory := io.memory.set index.toNat { memory, slices } })

def readPiece (io : MemoryTorrentIo) (index begin length : UInt32) : Outcome AnyError Bytes := do
  let some piece := io.memory[index.toNat]?
    | .error (.err (.peer (.badPieceIdx index.toNat)))
  let endOffset ← build.u32Add begin length
  -- the bounds of the range are checked by the indexing only
  if begin ≤ endOffset ∧ endOffset.toNat ≤ piece.memory.length then
    return File.slice piece.memory begin.toNat (endOffset.toNat - begin.toNat)
  else
    .error .panic

def torrentIo : TorrentIo MemoryTorrentIo where
  writePiece io index begin block := io.writePiece build index begin block
  readPiece io index begin length := (io.readPiece build index begin length, io)

variable {build}

theorem newMemory_of_lt {len : Nat} (h : len < 2 ^ 63)
    : newMemory len = .ok { memory := List.replicate len 0, slices := Slices.new len } := by
  unfold newMemory vecZeros
  rw [if_pos h, Outcome.ok_bind, List.length_replicate]
  rfl

theorem new_of_consistent {torrent : V1Torrent} {allocation : TorrentAllocation}
    (halloc : (TorrentAllocation.allocateTorrent build torrent : Outcome AnyError _) = .ok allocation)
    (hlaid : TorrentAllocation.LaidOut allocation torrent.info)
    : ∃ io, new build torrent = .ok io ∧ io.memory.length = allocation.totalPieces
        ∧ ∀ i < allocation.totalPieces, io.memory[i]?
          = some { memory := List.replicate (allocation.len i) 0
                   slices := Slices.new (allocation.len i) } := by
  have hlt := Int64.toInt_lt torrent.info.pieceLength
  have hmax := hlaid.maxPieceSize_eq
  have hlast := hlaid.lastPieceSize_le
  have hpos := hlaid.totalPieces_pos
  have hmax63 : allocation.maxPieceSize < 2 ^ 63 := by omega
  have hfull := @Outcome.mapM_of_ok _ _ _ _ _ (List.range (allocation.totalPieces - 1))
    (fun _ _ => newMemory_of_lt hmax63)
  unfold new
  rw [halloc, Outcome.ok_bind, hfull, Outcome.ok_bind, newMemory_of_lt (by omega), Outcome.ok_bind]
  refine ⟨_, rfl, ?_, ?_⟩
  . rw [List.length_append, List.length_map, List.length_range, List.length_singleton]
    omega
  intro i hi
  dsimp only
  rw [List.getElem?_append, List.length_map, List.length_range]
  split
  . next hfull =>
    rw [List.getElem?_map, List.getElem?_range hfull, allocation.len_of_lt i hfull]
    rfl
  . have hi' : i = allocation.totalPieces - 1 := by omega
    rw [hi', Nat.sub_self, allocation.len_last]
    rfl

section

variable {io : MemoryTorrentIo} {index begin : UInt32} {block : Bytes} {piece : Memory}

theorem writePiece_of_badPieceIdx (hget : io.memory[index.toNat]? = none)
    : io.writePiece build index begin block
        =
      (.error (.err (.peer (.badPieceIdx index.toNat))), io) := by
  simp [writePiece, startWrite, hget]

theorem writePiece_of_badBounds (build : Build) (hget : io.memory[index.toNat]? = some piece)
    (hblock : block.length < 2 ^ 63) (hbounds : piece.memory.length < begin.toNat + block.length)
    : io.writePiece build index begin block
        =
      (.error (.err (.peer (.badBounds index.toNat (begin.toNat + block.length)))), io) := by
  have hbegin := begin.toNat_lt
  unfold writePiece startWrite
  rw [hget]
  dsimp only
  rw [Build.usizeAdd_of_fits _ _ _ (by omega), Outcome.ok_bind, if_pos hbounds]

theorem writePiece_of_bounds (build : Build) (hget : io.memory[index.toNat]? = some piece)
    (hbounds : begin.toNat + block.length ≤ piece.memory.length)
    (hfits : begin.toNat + block.length < 2 ^ 32)
    : io.writePiece build index begin block
        =
      (.ok (piece.slices.insertRange begin (begin + UInt32.ofNat block.length)).isComplete,
        { memory := io.memory.set index.toNat {
            memory := File.overwrite piece.memory begin.toNat block
            slices := piece.slices.insertRange begin (begin + UInt32.ofNat block.length) } }) := by
  have hu32 : UInt32.size = 2 ^ 32 := rfl
  have hlen : (UInt32.ofNat block.length).toNat = block.length :=
    UInt32.toNat_ofNat_of_lt' (by omega)
  unfold writePiece startWrite
  rw [hget]
  dsimp only
  rw [Build.usizeAdd_of_fits _ _ _ (by omega), Outcome.ok_bind, if_neg (by omega)]
  dsimp only [pure, Except.pure]
  rw [Slices.insert_of_fits _ _ _ _ (by omega)]

theorem readPiece_of_badPieceIdx {length : UInt32} (hget : io.memory[index.toNat]? = none)
    : io.readPiece build index begin length = .error (.err (.peer (.badPieceIdx index.toNat))) := by
  simp [readPiece, hget]

theorem readPiece_of_bounds (build : Build) {length : UInt32}
    (hget : io.memory[index.toNat]? = some piece)
    (hbounds : begin.toNat + length.toNat ≤ piece.memory.length)
    (hfits : begin.toNat + length.toNat < 2 ^ 32)
    : io.readPiece build index begin length
        =
      .ok (File.slice piece.memory begin.toNat length.toNat) := by
  have hend : (begin + length).toNat = begin.toNat + length.toNat := by
    rw [UInt32.toNat_add, Nat.mod_eq_of_lt hfits]
  have hle : begin ≤ begin + length := by
    rw [UInt32.le_iff_toNat_le]
    omega
  unfold readPiece
  rw [hget]
  dsimp only
  rw [Build.u32Add_of_fits _ _ _ hfits, Outcome.ok_bind, if_pos ⟨hle, by omega⟩, hend,
    Nat.add_sub_cancel_left]
  rfl

end

end MemoryTorrentIo
