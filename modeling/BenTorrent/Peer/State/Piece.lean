import BenTorrent.Map.Nested
import BenTorrent.Partition.Basic
import BenTorrent.Peer.Allocation

/-!
This module contains the block requests of a download: which are out, which were answered, how long
they may take, and which are made next. Times are in nanoseconds.
-/

open Rust

def pieceBlockSize : Nat := 16384

abbrev PeerId := Bytes

structure PeerRequestedPiece where
  peerId : PeerId
  index : UInt32
  begin : UInt32
  length : UInt32
  deriving DecidableEq

structure BlockDownload where
  pieceRequest : PeerRequestedPiece
  deriving DecidableEq

structure PieceToBlockKey where
  pieceId : UInt32
  blockBegin : UInt32
  deriving DecidableEq

structure PieceToBlockMap where
  downloading : NestedMap UInt32 UInt32 BlockDownload
  done : NestedMap UInt32 UInt32 BlockDownload
  deriving DecidableEq

namespace PieceToBlockMap

def empty : PieceToBlockMap :=
  ⟨∅, ∅⟩

def setRequestFinished (m : PieceToBlockMap) (pieceId begin : UInt32) : Option PieceToBlockMap := do
  let download ← m.downloading.lookupAt pieceId begin
  return {
    downloading := m.downloading.eraseAt pieceId begin
    done := m.done.insertAt pieceId begin download
  }

def removeDownloadingRequest (m : PieceToBlockMap) (pieceId begin : UInt32)
    : Bool × PieceToBlockMap :=
  -- the result tells whether the piece is there, not whether the request was
  ((m.downloading.lookup pieceId).isSome,
    { m with downloading := m.downloading.eraseAt pieceId begin })

def removePiece (m : PieceToBlockMap) (pieceId : UInt32) : PieceToBlockMap where
  downloading := m.downloading.erase pieceId
  done := m.done.erase pieceId

def downloadingRequestsLen (m : PieceToBlockMap) : Nat :=
  m.downloading.size

def pieces (m : PieceToBlockMap) : Finset UInt32 :=
  m.downloading.keys ∪ m.done.keys

def insertRequest (m : PieceToBlockMap) (pieceRequest : PeerRequestedPiece) : PieceToBlockMap where
  downloading := m.downloading.insertAt pieceRequest.index pieceRequest.begin { pieceRequest }
  done := m.done

def containsInprogress (m : PieceToBlockMap) (pieceId begin : UInt32) : Option BlockDownload :=
  (m.downloading.lookupAt pieceId begin).or (m.done.lookupAt pieceId begin)

end PieceToBlockMap

structure InprogressPieceToBlockMap where
  pieceToBlocksStarted : PieceToBlockMap
  expirations : List (Nat × PieceToBlockKey)
  deriving DecidableEq

namespace InprogressPieceToBlockMap

def empty : InprogressPieceToBlockMap :=
  ⟨.empty, []⟩

def insert (m : InprogressPieceToBlockMap) (started : Nat) (pieceRequest : PeerRequestedPiece)
    : InprogressPieceToBlockMap where
  pieceToBlocksStarted := m.pieceToBlocksStarted.insertRequest pieceRequest
  expirations := m.expirations ++ [(started, ⟨pieceRequest.index, pieceRequest.begin⟩)]

def expire (time ttl : Nat) (m : PieceToBlockMap)
    : List (Nat × PieceToBlockKey) → List PeerRequestedPiece × InprogressPieceToBlockMap
  | [] => ([], ⟨m, []⟩)
  | (entryTime, k) :: expirations =>
    -- the time that has passed saturates at zero
    if ttl ≤ time - entryTime then
      match m.downloading.lookupAt k.pieceId k.blockBegin with
      | some expired =>
        let m := { m with downloading := m.downloading.eraseAt k.pieceId k.blockBegin }
        let (acc, m) := expire time ttl m expirations
        (expired.pieceRequest :: acc, m)
      | none => expire time ttl m expirations
    else
      ([], ⟨m, (entryTime, k) :: expirations⟩)

def removeExpired (m : InprogressPieceToBlockMap) (time ttl : Nat)
    : List PeerRequestedPiece × InprogressPieceToBlockMap :=
  expire time ttl m.pieceToBlocksStarted m.expirations

end InprogressPieceToBlockMap

section

variable (build : Build)

namespace PieceBlockAllocation

def blockBegins (pieceSize : Nat) : List Nat :=
  (List.range ((pieceSize + pieceBlockSize - 1) / pieceBlockSize)).map (· * pieceBlockSize)

def blockRequest (pieceId : UInt32) (pieceSize : Nat) (peerId : PeerId) (begin : Nat)
    : Outcome ε PeerRequestedPiece := do
  let endPos ← build.usizeAdd begin pieceBlockSize
  let length := if pieceSize < endPos then pieceSize - begin else pieceBlockSize
  return { peerId, index := pieceId, begin := UInt32.ofNat begin, length := UInt32.ofNat length }

def requestsToMake (pieceId : UInt32) (pieceSize : Nat) (peerId : PeerId)
    (requestedRequests : PieceToBlockMap)
    : (requestCapacity : Nat) → (begins : List Nat) → Outcome ε (List PeerRequestedPiece)
  | _, [] => return []
  | 0, _ :: _ => return []
  | requestCapacity + 1, begin :: begins =>
    -- what was requested before costs no capacity
    if (requestedRequests.containsInprogress pieceId (UInt32.ofNat begin)).isSome then
      requestsToMake pieceId pieceSize peerId requestedRequests (requestCapacity + 1) begins
    else do
      let request ← blockRequest build pieceId pieceSize peerId begin
      let requests ←
        requestsToMake pieceId pieceSize peerId requestedRequests requestCapacity begins
      return request :: requests

def new (pieceId : UInt32) (torrent : V1Torrent) (peerIds : List PeerId)
    (requestedRequests : PieceToBlockMap) (requestCapacity : Nat)
    : Outcome ε (Option (List PeerRequestedPiece)) :=
  match peerIds with
  | [] => return none
  -- the peer the iteration of the set yields first gets all the requests
  | peerId :: _ => do
    let allocation ← TorrentAllocation.allocateTorrent build torrent
    let lastPieceId ← build.u32Sub (UInt32.ofNat torrent.info.pieces.length) 1
    let pieceSize :=
      if pieceId = lastPieceId then allocation.lastPieceSize else allocation.maxPieceSize
    let requests ← requestsToMake build pieceId pieceSize peerId requestedRequests requestCapacity
      (blockBegins pieceSize)
    return some requests

end PieceBlockAllocation

structure PieceBlockTracker where
  maxOutstandingRequests : Nat
  requestTimeout : Nat
  piecesNotStarted : Finset UInt32
  pieceToBlocksOutstanding : InprogressPieceToBlockMap
  piecesCompleted : Finset UInt32
  deriving DecidableEq

namespace PieceBlockTracker

def new (maxOutstandingRequests : Nat) (pieces : List V1Piece) : PieceBlockTracker where
  maxOutstandingRequests := maxOutstandingRequests
  requestTimeout := 10 * 10 ^ 9
  piecesNotStarted := (Finset.range pieces.length).image UInt32.ofNat
  pieceToBlocksOutstanding := .empty
  piecesCompleted := ∅

def blocks (tracker : PieceBlockTracker) : PieceToBlockMap :=
  tracker.pieceToBlocksOutstanding.pieceToBlocksStarted

def setBlocks (tracker : PieceBlockTracker) (blocks : PieceToBlockMap) : PieceBlockTracker :=
  { tracker with
    pieceToBlocksOutstanding :=
      { tracker.pieceToBlocksOutstanding with pieceToBlocksStarted := blocks } }

def getIncompletePieces (tracker : PieceBlockTracker) : Finset UInt32 :=
  tracker.blocks.pieces ∪ tracker.piecesNotStarted

def downloadingRequestsLen (tracker : PieceBlockTracker) : Nat :=
  tracker.blocks.downloadingRequestsLen

def removeRequest (tracker : PieceBlockTracker) (req : PeerRequestedPiece)
    : Bool × PieceBlockTracker :=
  let (found, blocks) := tracker.blocks.removeDownloadingRequest req.index req.begin
  (found, tracker.setBlocks blocks)

def setRequestFinished (tracker : PieceBlockTracker) (pieceId begin : UInt32)
    : Option PieceBlockTracker := do
  -- on `none` the tracker stays as it is
  let blocks ← tracker.blocks.setRequestFinished pieceId begin
  return tracker.setBlocks blocks

def setPieceFinished (tracker : PieceBlockTracker) (pieceId : UInt32) : PieceBlockTracker :=
  { tracker.setBlocks (tracker.blocks.removePiece pieceId) with
    piecesCompleted := insert pieceId tracker.piecesCompleted }

def removeExpired (tracker : PieceBlockTracker) (now : Nat)
    : List PeerRequestedPiece × PieceBlockTracker :=
  let (expired, outstanding) :=
    tracker.pieceToBlocksOutstanding.removeExpired now tracker.requestTimeout
  (expired, { tracker with pieceToBlocksOutstanding := outstanding })

def recordRequests (tracker : PieceBlockTracker) (pieceId : UInt32) (now : Nat)
    (requests : List PeerRequestedPiece) : PieceBlockTracker :=
  { tracker with
    piecesNotStarted :=
      if requests.isEmpty then
        tracker.piecesNotStarted
      else
        tracker.piecesNotStarted.erase pieceId
    pieceToBlocksOutstanding :=
      requests.foldl (fun m req => m.insert now req) tracker.pieceToBlocksOutstanding }

def assignPiece (tracker : PieceBlockTracker) (torrent : V1Torrent) (pieceId : UInt32)
    (peerIds : List PeerId) (now : Nat)
    : Outcome ε (List PeerRequestedPiece × PieceBlockTracker) := do
  let capacity ← build.usizeSub tracker.maxOutstandingRequests tracker.downloadingRequestsLen
  let requests ←
    PieceBlockAllocation.new build pieceId torrent peerIds tracker.blocks capacity
  match requests with
  | none => return ([], tracker)
  | some requests => return (requests, tracker.recordRequests pieceId now requests)

def generateAssignments (torrent : V1Torrent) (now : UInt32 → Nat) (tracker : PieceBlockTracker)
    : (availiablePieceToPeers : List (UInt32 × List PeerId))
      → Outcome ε (List PeerRequestedPiece × PieceBlockTracker)
  | [] => return ([], tracker)
  -- the map in ascending order, the sets in any
  | (pieceId, peerIds) :: availiablePieceToPeers => do
    let (requests, tracker) ← tracker.assignPiece build torrent pieceId peerIds (now pieceId)
    let (others, tracker) ← generateAssignments torrent now tracker availiablePieceToPeers
    return (requests ++ others, tracker)

end PieceBlockTracker

end
