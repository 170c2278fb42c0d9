import BenTorrent.Machine.Basic
import BenTorrent.Rust.File
import BenTorrent.Peer.Allocation
import BenTorrent.Peer.Error
import BenTorrent.Peer.Io.Slices

/-!
This module contains `FileTorrentIO`, which keeps the pieces of a torrent in one file and checks the
hash of each once its ranges are complete.
-/

open Rust

structure TorrentIo (σ : Type u) where
  writePiece : σ → (index begin : UInt32) → (block : Bytes) → Outcome AnyError Bool × σ
  readPiece : σ → (index begin length : UInt32) → Outcome AnyError Bytes × σ

structure FilePieceState where
  hash : Bytes
  slices : Slices
  startIdx : Nat
  size : Nat
  deriving DecidableEq

structure FileTorrentIo where
  file : File
  pieceToFile : List FilePieceState
  allocation : TorrentAllocation
  deriving DecidableEq

section

variable (build : Build) (sha1 : Bytes → Bytes)

namespace FilePieceState

def new (expectedSize startIdx : Nat) (hash : Bytes) : FilePieceState where
  hash := hash
  slices := Slices.new expectedSize
  startIdx := startIdx
  size := expectedSize

def seek (file : File) (offset : Nat) : Outcome AnyError File :=
  match file.seek offset with
  | some file => .ok file
  | none => .error (.err (.io .invalidInput))

def seekOffset (piece : FilePieceState) (file : File) (offset : UInt32) : Outcome AnyError File := do
  let offset ← build.usizeAdd piece.startIdx offset.toNat
  seek file offset

def readBlock (file : File) (len : Nat) : Outcome AnyError (Bytes × File) := do
  let _ ← vecZeros len
  match file.readExact len with
  | some res => .ok res
  | none => .error (.err (.io .unexpectedEof))

def readBack (piece : FilePieceState) (file : File) : Outcome AnyError (Bytes × File) := do
  let file ← seek file piece.startIdx
  readBlock file piece.size

def computeFileSha1Hash (piece : FilePieceState) (file : File) : Outcome AnyError (Bytes × File) := do
  let (buf, file) ← piece.readBack file
  return (sha1 buf, file)

end FilePieceState

namespace FileTorrentIo

def newPiece (torrent : V1Torrent) (allocation : TorrentAllocation) (idx : Nat)
    : Outcome AnyError FilePieceState := do
  let some piece := torrent.info.pieces[idx]? | .error .panic
  let pieceLen ← allocation.pieceLen build idx
  let start ← build.usizeMul pieceLen idx
  return FilePieceState.new pieceLen start piece.hash

def new (torrent : V1Torrent) : Outcome AnyError FileTorrentIo := do
  let allocation ← TorrentAllocation.allocateTorrent build torrent
  let some file := File.createNew.setLen (asUsize torrent.info.length)
    | .error (.err (.io .invalidInput))
  let pieceToFile ← (List.range allocation.totalPieces).mapM (newPiece build torrent allocation)
  return { file, pieceToFile, allocation }

def verifyPiece (piece : FilePieceState) (index : UInt32) (file : File)
    : Outcome AnyError Bool := do
  let (computedHash, _) ← piece.computeFileSha1Hash sha1 file
  if computedHash = piece.hash then
    return true
  else
    .error (.err (.peer
      (.pieceHashMismatch index (hexEncode computedHash) (hexEncode piece.hash))))

def startWrite (io : FileTorrentIo) (index begin : UInt32) (block : Bytes)
    : Outcome AnyError (FilePieceState × File) := do
  let some piece := io.pieceToFile[index.toNat]?
    | .error (.err (.peer (.badPieceIdx index.toNat)))
  if piece.slices.isComplete then
    .error (.err (.peer (.fileAlreadyComplete index)))
  else
    let endPos ← build.usizeAdd begin.toNat block.length
    let pieceLen ← io.allocation.pieceLen build index.toNat
    if pieceLen < endPos then
      .error (.err (.peer (.badBounds index.toNat endPos)))
    else
      let file ← piece.seekOffset build io.file begin
      return (piece, file)

def writePiece (io : FileTorrentIo) (index begin : UInt32) (block : Bytes)
    : Outcome AnyError Bool × FileTorrentIo :=
  match io.startWrite build index begin block with
  | .error e => (.error e, io)
  | .ok (piece, file) =>
    -- from here on an error leaves the block in the file
    let io := { io with file := file.writeAll block }
    match piece.slices.insert build begin (UInt32.ofNat block.length) with
    | .error e => (.error e, io)
    | .ok (finished, slices) =>
      let piece := { piece with slices }
      let io := { io with pieceToFile := io.pieceToFile.set index.toNat piece }
      if finished then
        -- and the range as well, whatever the check says
        (verifyPiece sha1 piece index io.file, io)
      else
        (.ok false, io)

def readPiece (io : FileTorrentIo) (index begin length : UInt32) : Outcome AnyError Bytes := do
  let some piece := io.pieceToFile[index.toNat]?
    | .error (.err (.peer (.badPieceIdx index.toNat)))
  let endPos ← build.usizeAdd begin.toNat length.toNat
  let pieceLen ← io.allocation.pieceLen build index.toNat
  if pieceLen < endPos then
    .error (.err (.peer (.badBounds index.toNat endPos)))
  else if !piece.slices.isComplete then
    .error (.err (.peer (.filePieceNotFinished index)))
  else
    let file ← piece.seekOffset build io.file begin
    let (block, _) ← FilePieceState.readBlock file length.toNat
    return block

def torrentIo : TorrentIo FileTorrentIo where
  writePiece io index begin block := io.writePiece build sha1 index begin block
  readPiece io index begin length := (io.readPiece build index begin length, io)

end FileTorrentIo

inductive IoMessage where
  | read (index begin length : UInt32)
  | write (index begin : UInt32) (block : VecU8)
  deriving DecidableEq

inductive IoReply where
  | read (res : Outcome AnyError Bytes)
  | write (res : Outcome AnyError Bool)
  deriving DecidableEq

def ioHandlerTask : Machine FileTorrentIo IoMessage IoReply where
  step io
    | .read index begin length => some (.read (io.readPiece build index begin length), io)
    | .write index begin block =>
      -- that a panic ends the task is left out, so the machine has more runs
      let (res, io) := io.writePiece build sha1 index begin block.val
      some (.write res, io)

end
