import Mathlib.Data.Finset.Sort
import BenTorrent.Peer.Io.Slices
import BenTorrent.Peer.State.PieceLemmas

/-!
This module contains what is known of the peers: who has which piece, who chokes us and who is
interested in us. Peer ids are compared by their bytes.
-/

open Rust

structure PeerPieceMap where
  piecesToPeers : Finmap fun _ : UInt32 => Finset PeerId
  peersToPieces : Finmap fun _ : PeerId => Finset UInt32
  deriving DecidableEq

namespace PeerPieceMap

def empty : PeerPieceMap :=
  ⟨∅, ∅⟩

def peerInterest (m : PeerPieceMap) (peerId : PeerId) (outstandingPieces : Finset UInt32)
    : Finset UInt32 :=
  match m.peersToPieces.lookup peerId with
  | some peerPieces => outstandingPieces ∩ peerPieces
  | none => ∅

def addPiece (m : PeerPieceMap) (peerId : PeerId) (piece : UInt32) : PeerPieceMap where
  peersToPieces :=
    m.peersToPieces.insert peerId (insert piece ((m.peersToPieces.lookup peerId).getD ∅))
  piecesToPeers :=
    m.piecesToPeers.insert piece (insert peerId ((m.piecesToPeers.lookup piece).getD ∅))

def getPeersWithPiece (m : PeerPieceMap) (piece : UInt32) : Finset PeerId :=
  (m.piecesToPeers.lookup piece).getD ∅

def removePeerFrom (peerId : PeerId) (piecesToPeers : Finmap fun _ : UInt32 => Finset PeerId)
    (block : UInt32) : Finmap fun _ : UInt32 => Finset PeerId :=
  match piecesToPeers.lookup block with
  | some peers => piecesToPeers.insert block (peers.erase peerId)
  | none => piecesToPeers

def removePeer (m : PeerPieceMap) (peerId : PeerId) : PeerPieceMap :=
  match m.peersToPieces.lookup peerId with
  | some blocks => {
      peersToPieces := m.peersToPieces.erase peerId
      -- the order of the set makes no difference
      piecesToPeers := (blocks.sort (· ≤ ·)).foldl (removePeerFrom peerId) m.piecesToPeers
    }
  | none => m

end PeerPieceMap

structure InternalPeerState where
  choked : Bool
  interested : Bool
  deriving DecidableEq

structure TorrentState where
  pieceBlockTracking : PieceBlockTracker
  peersInterested : Finset PeerId
  peersNotChoking : Finset PeerId
  blockPeerMap : PeerPieceMap
  peers : Finmap fun _ : PeerId => InternalPeerState
  deriving DecidableEq

namespace TorrentState

def new (pieces : List V1Piece) (maxOutstandingRequests : Nat) : TorrentState where
  pieceBlockTracking := PieceBlockTracker.new maxOutstandingRequests pieces
  peersInterested := ∅
  peersNotChoking := ∅
  blockPeerMap := .empty
  peers := ∅

def addPeerId (state : TorrentState) (peerId : PeerId) : TorrentState :=
  if peerId ∈ state.peers then
    state
  else
    { state with peers := state.peers.insert peerId { choked := false, interested := false } }

def setPeerChokedUs (state : TorrentState) (peerId : PeerId) (choked : Bool) : TorrentState :=
  let state := state.addPeerId peerId
  if !choked then
    { state with peersNotChoking := insert peerId state.peersNotChoking }
  else
    { state with peersNotChoking := state.peersNotChoking.erase peerId }

def setPeersInterestedInUs (state : TorrentState) (peerId : PeerId) (interested : Bool)
    : TorrentState :=
  let state := state.addPeerId peerId
  if interested then
    { state with peersInterested := insert peerId state.peersInterested }
  else
    { state with peersInterested := state.peersInterested.erase peerId }

def peerSet (state : TorrentState) : Finset PeerId :=
  state.peers.keys

def peersThatChoke (state : TorrentState) (choke : Bool) : Finset PeerId :=
  if choke then
    state.peerSet \ state.peersNotChoking
  else
    state.peerSet ∩ state.peersNotChoking

def interestedIn (state : TorrentState) (peerId : PeerId) : Bool :=
  state.blockPeerMap.peerInterest peerId state.pieceBlockTracking.piecesNotStarted ≠ ∅

def setInterested (state : TorrentState) (peerId : PeerId) (interest : Bool) : TorrentState :=
  let peer := (state.peers.lookup peerId).getD { choked := false, interested := false }
  { state with peers := state.peers.insert peerId { peer with interested := interest } }

def addPiecesForPeer (state : TorrentState) (peerId : PeerId) (pieces : List UInt32)
    : Option Bool × TorrentState :=
  let state := state.addPeerId peerId
  let prevInterest := state.interestedIn peerId
  let state := { state with
    blockPeerMap := pieces.foldl (fun m piece => m.addPiece peerId piece) state.blockPeerMap }
  let interest := state.interestedIn peerId
  if prevInterest ≠ interest then
    (some interest, state.setInterested peerId interest)
  else
    (none, state)

def getInternalPeerState (state : TorrentState) (peerId : PeerId) : Option InternalPeerState :=
  state.peers.lookup peerId

def pieceIdToPeers (state : TorrentState) : List (UInt32 × Finset PeerId) :=
  (state.pieceBlockTracking.getIncompletePieces.sort (· ≤ ·)).map fun outstandingPiece =>
    (outstandingPiece,
      state.peersThatChoke false ∩ state.blockPeerMap.getPeersWithPiece outstandingPiece)

def removePeer (state : TorrentState) (peerId : PeerId) : TorrentState :=
  let state := state.addPeerId peerId
  { state with
    peers := state.peers.erase peerId
    peersInterested := state.peersInterested.erase peerId
    peersNotChoking := state.peersNotChoking.erase peerId
    blockPeerMap := state.blockPeerMap.removePeer peerId }

@[simp]
theorem addPeerId_pieceBlockTracking (state : TorrentState) (peerId : PeerId)
    : (state.addPeerId peerId).pieceBlockTracking = state.pieceBlockTracking := by
  unfold addPeerId
  split
  . rfl
  . rfl

@[simp]
theorem setPeerChokedUs_pieceBlockTracking (state : TorrentState) (peerId : PeerId) (choked : Bool)
    : (state.setPeerChokedUs peerId choked).pieceBlockTracking = state.pieceBlockTracking := by
  unfold setPeerChokedUs
  split
  . apply addPeerId_pieceBlockTracking
  . apply addPeerId_pieceBlockTracking

@[simp]
theorem setPeersInterestedInUs_pieceBlockTracking (state : TorrentState) (peerId : PeerId)
    (interested : Bool)
    : (state.setPeersInterestedInUs peerId interested).pieceBlockTracking
        =
      state.pieceBlockTracking := by
  unfold setPeersInterestedInUs
  split
  . apply addPeerId_pieceBlockTracking
  . apply addPeerId_pieceBlockTracking

@[simp]
theorem addPiecesForPeer_pieceBlockTracking (state : TorrentState) (peerId : PeerId)
    (pieces : List UInt32)
    : (state.addPiecesForPeer peerId pieces).2.pieceBlockTracking = state.pieceBlockTracking := by
  unfold addPiecesForPeer
  dsimp only
  split
  . apply addPeerId_pieceBlockTracking
  . apply addPeerId_pieceBlockTracking

@[simp]
theorem removePeer_pieceBlockTracking (state : TorrentState) (peerId : PeerId)
    : (state.removePeer peerId).pieceBlockTracking = state.pieceBlockTracking := by
  apply addPeerId_pieceBlockTracking

theorem mem_pieceIdToPeers {state : TorrentState} {entry : UInt32 × Finset PeerId}
    (h : entry ∈ state.pieceIdToPeers)
    : entry.1 ∈ state.pieceBlockTracking.getIncompletePieces := by
  unfold pieceIdToPeers at h
  rw [List.mem_map] at h
  obtain ⟨piece, hpiece, rfl⟩ := h
  rwa [Finset.mem_sort] at hpiece

end TorrentState
