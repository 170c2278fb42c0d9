import BenTorrent.Peer.State.History

/-!
This module contains that a peer of whom anything is known has an entry, and what its removal leaves
of the others.
-/

open Rust

namespace PeerPieceMap

theorem mem_peersToPieces_foldl_addPiece {m : PeerPieceMap} {peerId peerId' : PeerId}
    {pieces : List UInt32}
    (h : peerId' ∈ (pieces.foldl (fun m piece => m.addPiece peerId piece) m).peersToPieces)
    : peerId' = peerId ∨ peerId' ∈ m.peersToPieces := by
  induction pieces generalizing m with
  | nil => exact .inr h
  | cons piece pieces ih =>
    rcases ih h with heq | hmem
    . exact .inl heq
    . unfold PeerPieceMap.addPiece at hmem
      dsimp only at hmem
      rw [Finmap.mem_insert] at hmem
      exact hmem

theorem peersToPieces_removePeer (m : PeerPieceMap) (peerId : PeerId)
    : (m.removePeer peerId).peersToPieces = m.peersToPieces.erase peerId := by
  unfold PeerPieceMap.removePeer
  split
  . rfl
  . next hlookup =>
    apply Finmap.ext_lookup
    intro peerId'
    by_cases heq : peerId' = peerId
    . rw [heq, hlookup, Finmap.lookup_erase]
    . rw [Finmap.lookup_erase_ne heq]

end PeerPieceMap

namespace TorrentState

/--
What is known of the peer is the same.
-/
structure SameFor (peerId : PeerId) (state state' : TorrentState) : Prop where
  peer : state'.getInternalPeerState peerId = state.getInternalPeerState peerId
  interested : peerId ∈ state'.peersInterested ↔ peerId ∈ state.peersInterested
  notChoking : peerId ∈ state'.peersNotChoking ↔ peerId ∈ state.peersNotChoking
  has : ∀ piece, state'.blockPeerMap.Has peerId piece ↔ state.blockPeerMap.Has peerId piece
  mem : ∀ piece, peerId ∈ state'.blockPeerMap.getPeersWithPiece piece
    ↔ peerId ∈ state.blockPeerMap.getPeersWithPiece piece

/--
A peer of whom anything is known has an entry.
-/
structure Listed (state : TorrentState) : Prop where
  interested : ∀ peerId ∈ state.peersInterested, peerId ∈ state.peers
  notChoking : ∀ peerId ∈ state.peersNotChoking, peerId ∈ state.peers
  has : ∀ peerId piece, state.blockPeerMap.Has peerId piece → peerId ∈ state.peers
  mirrored : state.blockPeerMap.Mirrored

@[simp]
theorem addPeerId_peersInterested (state : TorrentState) (peerId : PeerId)
    : (state.addPeerId peerId).peersInterested = state.peersInterested := by
  unfold addPeerId
  split
  . rfl
  . rfl

@[simp]
theorem setPeerChokedUs_peersInterested (state : TorrentState) (peerId : PeerId) (choked : Bool)
    : (state.setPeerChokedUs peerId choked).peersInterested = state.peersInterested := by
  unfold setPeerChokedUs
  split
  . apply addPeerId_peersInterested
  . apply addPeerId_peersInterested

theorem peersInterested_setPeersInterestedInUs_subset {state : TorrentState} {peerId : PeerId}
    {interested : Bool}
    : (state.setPeersInterestedInUs peerId interested).peersInterested
        ⊆
      insert peerId state.peersInterested := by
  unfold setPeersInterestedInUs
  dsimp only
  split
  . dsimp only
    rw [addPeerId_peersInterested]
  . dsimp only
    rw [addPeerId_peersInterested]
    exact (Finset.erase_subset _ _).trans (Finset.subset_insert _ _)

@[simp]
theorem addPiecesForPeer_peersInterested (state : TorrentState) (peerId : PeerId)
    (pieces : List UInt32)
    : (state.addPiecesForPeer peerId pieces).2.peersInterested = state.peersInterested := by
  unfold addPiecesForPeer
  dsimp only
  split
  . apply addPeerId_peersInterested
  . apply addPeerId_peersInterested

theorem removePeer_peersInterested (state : TorrentState) (peerId : PeerId)
    : (state.removePeer peerId).peersInterested = state.peersInterested.erase peerId := by
  unfold removePeer
  dsimp only
  rw [addPeerId_peersInterested]

theorem lookup_peers_removePeer {state : TorrentState} {peerId peerId' : PeerId}
    (hne : peerId' ≠ peerId)
    : (state.removePeer peerId).peers.lookup peerId' = state.peers.lookup peerId' := by
  unfold removePeer addPeerId
  dsimp only
  rw [Finmap.lookup_erase_ne hne]
  split
  . rfl
  . dsimp only
    rw [Finmap.lookup_insert_of_ne _ hne]

variable {build : Build} {torrent : V1Torrent} {state state' : TorrentState}

theorem Listed.step {event : PeerEvent} {reply : PeerReply} (h : state.Listed)
    (hstep : (torrentStateTask build torrent).step state event = some (reply, state'))
    : state'.Listed := by
  cases called_of_step hstep with
  | choked peerId choked =>
    refine ⟨?_, ?_, ?_, ?_⟩
    . intro peerId' hmem
      rw [setPeerChokedUs_peersInterested] at hmem
      rw [setPeerChokedUs_peers, mem_peers_addPeerId]
      exact .inr (h.interested peerId' hmem)
    . intro peerId' hmem
      rw [mem_peersNotChoking_setPeerChokedUs] at hmem
      rw [setPeerChokedUs_peers, mem_peers_addPeerId]
      rcases hmem with ⟨heq, _⟩ | ⟨hmem, _⟩
      . exact .inl heq
      . exact .inr (h.notChoking peerId' hmem)
    . intro peerId' piece hhas
      rw [setPeerChokedUs_blockPeerMap] at hhas
      rw [setPeerChokedUs_peers, mem_peers_addPeerId]
      exact .inr (h.has peerId' piece hhas)
    . rw [setPeerChokedUs_blockPeerMap]
      exact h.mirrored
  | interested peerId interested =>
    refine ⟨?_, ?_, ?_, ?_⟩
    . intro peerId' hmem
      have hmem' := peersInterested_setPeersInterestedInUs_subset hmem
      rw [Finset.mem_insert] at hmem'
      rw [setPeersInterestedInUs_peers, mem_peers_addPeerId]
      rcases hmem' with heq | hmem'
      . exact .inl heq
      . exact .inr (h.interested peerId' hmem')
    . intro peerId' hmem
      rw [setPeersInterestedInUs_peersNotChoking] at hmem
      rw [setPeersInterestedInUs_peers, mem_peers_addPeerId]
      exact .inr (h.notChoking peerId' hmem)
    . intro peerId' piece hhas
      rw [setPeersInterestedInUs_blockPeerMap] at hhas
      rw [setPeersInterestedInUs_peers, mem_peers_addPeerId]
      exact .inr (h.has peerId' piece hhas)
    . rw [setPeersInterestedInUs_blockPeerMap]
      exact h.mirrored
  | addedPieces peerId pieces =>
    refine ⟨?_, ?_, ?_, ?_⟩
    . intro peerId' hmem
      rw [addPiecesForPeer_peersInterested] at hmem
      rw [mem_peers_addPiecesForPeer]
      exact .inr (h.interested peerId' hmem)
    . intro peerId' hmem
      rw [addPiecesForPeer_peersNotChoking] at hmem
      rw [mem_peers_addPiecesForPeer]
      exact .inr (h.notChoking peerId' hmem)
    . intro peerId' piece hhas
      rw [addPiecesForPeer_blockPeerMap, PeerPieceMap.has_foldl_addPiece] at hhas
      rw [mem_peers_addPiecesForPeer]
      rcases hhas with ⟨heq, _⟩ | hhas
      . exact .inl heq
      . exact .inr (h.has peerId' piece hhas)
    . rw [addPiecesForPeer_blockPeerMap]
      exact h.mirrored.foldl_addPiece peerId pieces
  | removed peerId =>
    refine ⟨?_, ?_, ?_, ?_⟩
    . intro peerId' hmem
      rw [removePeer_peersInterested, Finset.mem_erase] at hmem
      exact mem_peers_removePeer.mpr ⟨hmem.1, h.interested peerId' hmem.2⟩
    . intro peerId' hmem
      rw [removePeer_peersNotChoking, Finset.mem_erase] at hmem
      exact mem_peers_removePeer.mpr ⟨hmem.1, h.notChoking peerId' hmem.2⟩
    . intro peerId' piece hhas
      rw [removePeer_blockPeerMap, PeerPieceMap.has_removePeer] at hhas
      exact mem_peers_removePeer.mpr ⟨hhas.1, h.has peerId' piece hhas.2⟩
    . rw [removePeer_blockPeerMap]
      exact h.mirrored.removePeer peerId
  | tracked =>
    exact ⟨h.interested, h.notChoking, h.has, h.mirrored⟩

theorem listed_new (maxOutstandingRequests : Nat) (pieces : List V1Piece)
    : (new pieces maxOutstandingRequests).Listed := by
  refine ⟨by simp [new], by simp [new], ?_, PeerPieceMap.mirrored_empty⟩
  intro peerId piece hhas
  simp [new, PeerPieceMap.Has, PeerPieceMap.empty] at hhas

theorem sameFor_removePeer_iff (h : state.Listed) (peerId peerId' : PeerId)
    : SameFor peerId' state (state.removePeer peerId) ↔ peerId' = peerId → peerId ∉ state.peers := by
  constructor
  . rintro hsame rfl hmem
    have hpeer := hsame.peer
    unfold getInternalPeerState at hpeer
    rw [Finmap.mem_iff] at hmem
    obtain ⟨peer, hlookup⟩ := hmem
    have hnone : (state.removePeer peerId').peers.lookup peerId' = none := by
      rw [Finmap.lookup_eq_none, mem_peers_removePeer]
      simp
    rw [hnone, hlookup] at hpeer
    contradiction
  . intro hnot
    have hmirrored := h.mirrored.removePeer peerId
    by_cases heq : peerId' = peerId
    . subst heq
      have hno := hnot rfl
      have hhas : ∀ piece, ¬state.blockPeerMap.Has peerId' piece :=
        fun piece hhas => hno (h.has peerId' piece hhas)
      have hhas' : ∀ piece, ¬(state.removePeer peerId').blockPeerMap.Has peerId' piece := by
        intro piece
        rw [removePeer_blockPeerMap, PeerPieceMap.has_removePeer]
        simp
      refine ⟨?_, ?_, ?_, ?_, ?_⟩
      . unfold getInternalPeerState
        rw [Finmap.lookup_eq_none.mpr hno, Finmap.lookup_eq_none, mem_peers_removePeer]
        simp
      . rw [removePeer_peersInterested, Finset.mem_erase]
        have := fun hmem => hno (h.interested peerId' hmem)
        tauto
      . rw [removePeer_peersNotChoking, Finset.mem_erase]
        have := fun hmem => hno (h.notChoking peerId' hmem)
        tauto
      . intro piece
        have := hhas piece
        have := hhas' piece
        tauto
      . intro piece
        rw [h.mirrored.mem_iff, removePeer_blockPeerMap, hmirrored.mem_iff]
        have := hhas piece
        have := hhas' piece
        rw [removePeer_blockPeerMap] at this
        tauto
    . refine ⟨lookup_peers_removePeer heq, ?_, ?_, ?_, ?_⟩
      . rw [removePeer_peersInterested, Finset.mem_erase]
        tauto
      . rw [removePeer_peersNotChoking, Finset.mem_erase]
        tauto
      . intro piece
        rw [removePeer_blockPeerMap, PeerPieceMap.has_removePeer]
        tauto
      . intro piece
        rw [h.mirrored.mem_iff, removePeer_blockPeerMap, hmirrored.mem_iff,
          PeerPieceMap.has_removePeer]
        tauto

def IndexListed (state : TorrentState) : Prop :=
  ∀ peerId ∈ state.blockPeerMap.peersToPieces, peerId ∈ state.peers

theorem IndexListed.setsFlags {peerId : PeerId} (h : state.IndexListed)
    (hflags : SetsFlags peerId state state')
    : state'.IndexListed := by
  intro peerId' hmem
  rw [hflags.blockPeerMap_eq] at hmem
  rw [hflags.peers_eq, mem_peers_addPeerId]
  exact .inr (h peerId' hmem)

theorem IndexListed.step {event : PeerEvent} {reply : PeerReply} (h : state.IndexListed)
    (hstep : (torrentStateTask build torrent).step state event = some (reply, state'))
    : state'.IndexListed := by
  cases called_of_step hstep with
  | choked peerId choked => exact h.setsFlags (setsFlags_setPeerChokedUs state peerId choked)
  | interested peerId interested =>
    exact h.setsFlags (setsFlags_setPeersInterestedInUs state peerId interested)
  | addedPieces peerId pieces =>
    intro peerId' hmem
    rw [addPiecesForPeer_blockPeerMap] at hmem
    rw [mem_peers_addPiecesForPeer]
    rcases PeerPieceMap.mem_peersToPieces_foldl_addPiece hmem with heq | hmem
    . exact .inl heq
    . exact .inr (h peerId' hmem)
  | removed peerId =>
    intro peerId' hmem
    rw [removePeer_blockPeerMap, PeerPieceMap.peersToPieces_removePeer, Finmap.mem_erase] at hmem
    exact mem_peers_removePeer.mpr ⟨hmem.1, h peerId' hmem.2⟩
  | tracked =>
    exact h

theorem indexListed_new (maxOutstandingRequests : Nat) (pieces : List V1Piece)
    : (new pieces maxOutstandingRequests).IndexListed := by
  intro peerId hmem
  exact absurd hmem Finmap.notMem_empty

/--
Every collection is about listed peers, and the two maps of the pieces are converse.
-/
structure Represents (state : TorrentState) : Prop where
  peersInterested_subset : state.peersInterested ⊆ state.peers.keys
  peersNotChoking_subset : state.peersNotChoking ⊆ state.peers.keys
  peersToPieces_subset : state.blockPeerMap.peersToPieces.keys ⊆ state.peers.keys
  converse : ∀ peerId piece,
    peerId ∈ (state.blockPeerMap.piecesToPeers.lookup piece).getD ∅
      ↔
    piece ∈ (state.blockPeerMap.peersToPieces.lookup peerId).getD ∅

/--
What is left of the peer in none of the collections, and of the others in each.
-/
structure Forgets (peerId : PeerId) (state state' : TorrentState) : Prop where
  peers : peerId ∉ state'.peers
  peersInterested : peerId ∉ state'.peersInterested
  peersNotChoking : peerId ∉ state'.peersNotChoking
  peersToPieces : peerId ∉ state'.blockPeerMap.peersToPieces
  piecesToPeers : ∀ piece, peerId ∉ (state'.blockPeerMap.piecesToPeers.lookup piece).getD ∅
  lookup_peers : ∀ peerId' ≠ peerId, state'.peers.lookup peerId' = state.peers.lookup peerId'
  mem_peersInterested : ∀ peerId' ≠ peerId,
    peerId' ∈ state'.peersInterested ↔ peerId' ∈ state.peersInterested
  mem_peersNotChoking : ∀ peerId' ≠ peerId,
    peerId' ∈ state'.peersNotChoking ↔ peerId' ∈ state.peersNotChoking
  lookup_peersToPieces : ∀ peerId' ≠ peerId,
    state'.blockPeerMap.peersToPieces.lookup peerId'
      =
    state.blockPeerMap.peersToPieces.lookup peerId'
  mem_piecesToPeers : ∀ peerId' ≠ peerId, ∀ piece,
    peerId' ∈ (state'.blockPeerMap.piecesToPeers.lookup piece).getD ∅
      ↔
    peerId' ∈ (state.blockPeerMap.piecesToPeers.lookup piece).getD ∅

theorem Listed.represents (h : state.Listed) (hindex : state.IndexListed)
    : state.Represents := by
  constructor
  . intro peerId hmem
    exact Finmap.mem_keys.mpr (h.interested peerId hmem)
  . intro peerId hmem
    exact Finmap.mem_keys.mpr (h.notChoking peerId hmem)
  . intro peerId hmem
    exact Finmap.mem_keys.mpr (hindex peerId (Finmap.mem_keys.mp hmem))
  . exact h.mirrored.mem_iff

theorem Listed.forgets_removePeer (h : state.Listed) (peerId : PeerId)
    : Forgets peerId state (state.removePeer peerId) := by
  have hmirrored := h.mirrored.removePeer peerId
  have hsame : ∀ peerId' ≠ peerId, SameFor peerId' state (state.removePeer peerId) := by
    intro peerId' hne
    rw [sameFor_removePeer_iff h]
    exact fun heq => absurd heq hne
  constructor
  . rw [mem_peers_removePeer]
    simp
  . rw [removePeer_peersInterested, Finset.mem_erase]
    simp
  . rw [removePeer_peersNotChoking, Finset.mem_erase]
    simp
  . rw [removePeer_blockPeerMap, PeerPieceMap.peersToPieces_removePeer, Finmap.mem_erase]
    simp
  . intro piece hmem
    rw [removePeer_blockPeerMap] at hmem
    have hhas := (hmirrored.mem_iff peerId piece).mp hmem
    rw [PeerPieceMap.has_removePeer] at hhas
    exact hhas.1 rfl
  . exact fun peerId' hne => (hsame peerId' hne).peer
  . exact fun peerId' hne => (hsame peerId' hne).interested
  . exact fun peerId' hne => (hsame peerId' hne).notChoking
  . intro peerId' hne
    rw [removePeer_blockPeerMap, PeerPieceMap.peersToPieces_removePeer, Finmap.lookup_erase_ne hne]
  . exact fun peerId' hne => (hsame peerId' hne).mem

theorem represents_and_forgets_of_run (build : Build) (torrent : V1Torrent)
    (pieces : List V1Piece) (maxOutstandingRequests : Nat) (tr : List (PeerEvent × PeerReply))
    (state : TorrentState)
    (hrun : (torrentStateTask build torrent).Run (new pieces maxOutstandingRequests) tr state)
    : state.Represents ∧ ∀ peerId, Forgets peerId state (state.removePeer peerId) := by
  have hlisted : state.Listed := by
    apply hrun.invariant (P := Listed)
    . intro state1 event reply state2 _ hstep h
      exact h.step hstep
    . apply listed_new
  have hindex : state.IndexListed := by
    apply hrun.invariant (P := IndexListed)
    . intro state1 event reply state2 _ hstep h
      exact h.step hstep
    . apply indexListed_new
  exact ⟨hlisted.represents hindex, hlisted.forgets_removePeer⟩

theorem represents_and_forgets_twoPeers
    : ∃ state, state.Represents
        ∧ Forgets [5] state (state.removePeer [5])
        ∧ state.peersNotChoking = {[6]} ∧ state.blockPeerMap.Has [5] 0 := by
  let torrent := torrentFixture 2 2 [[1, 2]]
  let s0 := new torrent.info.pieces 1
  let s1 := (s0.addPiecesForPeer [5] [0]).2
  let s2 := s1.setPeerChokedUs [6] false
  have hrun : (torrentStateTask ⟨true⟩ torrent).Run s0
      [(.addPieces [5] [0], .interest (some true)), (.chokedUs [6] false, .updated)] s2 := by
    refine .cons trivial (?_ : _ = some (_, s1)) (.cons trivial (?_ : _ = some (_, s2)) (.nil s2))
    . decide +kernel
    . rfl
  have h := represents_and_forgets_of_run ⟨true⟩ torrent torrent.info.pieces 1 _ s2 hrun
  exact ⟨s2, h.1, h.2 [5], by decide +kernel, by unfold PeerPieceMap.Has; decide +kernel⟩

end TorrentState
