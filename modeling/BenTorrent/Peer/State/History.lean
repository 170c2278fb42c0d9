import BenTorrent.Peer.State.Processor
import BenTorrent.Peer.State.Tracker

/-!
This module contains that what the state knows of the peers is what the messages said, and so which
peers the requests go to.
-/

open Rust

inductive PeerEvent where
  | chokedUs (peerId : PeerId) (choked : Bool)
  | interestedInUs (peerId : PeerId) (interested : Bool)
  | addPieces (peerId : PeerId) (pieces : List UInt32)
  | removePeer (peerId : PeerId)
  | tracker (event : TrackerEvent)

inductive PeerReply where
  | updated
  | interest (change : Option Bool)
  | tracked (reply : TrackerReply)
  deriving DecidableEq

def torrentStateTask (build : Build) (torrent : V1Torrent)
    : Machine TorrentState PeerEvent PeerReply where
  step state
    | .chokedUs peerId choked => some (.updated, state.setPeerChokedUs peerId choked)
    | .interestedInUs peerId interested =>
      some (.updated, state.setPeersInterestedInUs peerId interested)
    | .addPieces peerId pieces =>
      let (change, state) := state.addPiecesForPeer peerId pieces
      some (.interest change, state)
    | .removePeer peerId => some (.updated, state.removePeer peerId)
    | .tracker event =>
      match (trackerTask build torrent).step state.pieceBlockTracking event with
      | some (reply, tracker) => some (.tracked reply, { state with pieceBlockTracking := tracker })
      | none => none

namespace PeerEvent

def Removes (peerId : PeerId) (x : PeerEvent × PeerReply) : Prop :=
  x.1 = .removePeer peerId

def Unchokes (peerId : PeerId) (x : PeerEvent × PeerReply) : Prop :=
  x.1 = .chokedUs peerId false

def Chokes (peerId : PeerId) (x : PeerEvent × PeerReply) : Prop :=
  x.1 = .chokedUs peerId true

def Announces (peerId : PeerId) (piece : UInt32) (x : PeerEvent × PeerReply) : Prop :=
  ∃ pieces, x.1 = .addPieces peerId pieces ∧ piece ∈ pieces

/--
The latest choke flag of the peer since it was last removed is that it does not choke us.
-/
def NotChoking (tr : List (PeerEvent × PeerReply)) (peerId : PeerId) : Prop :=
  Since (Unchokes peerId) (fun x => Chokes peerId x ∨ Removes peerId x) tr

def Announced (tr : List (PeerEvent × PeerReply)) (peerId : PeerId) (piece : UInt32) : Prop :=
  Since (Announces peerId piece) (Removes peerId) tr

end PeerEvent

open PeerEvent (NotChoking Announced)

namespace PeerPieceMap

def Has (m : PeerPieceMap) (peerId : PeerId) (piece : UInt32) : Prop :=
  piece ∈ (m.peersToPieces.lookup peerId).getD ∅

structure Mirrored (m : PeerPieceMap) : Prop where
  mem_iff : ∀ peerId piece, peerId ∈ m.getPeersWithPiece piece ↔ m.Has peerId piece

theorem mirrored_empty : empty.Mirrored := by
  constructor
  intro peerId piece
  simp [empty, getPeersWithPiece, Has]

theorem has_addPiece {m : PeerPieceMap} {peerId peerId' : PeerId} {piece piece' : UInt32}
    : (m.addPiece peerId piece).Has peerId' piece'
        ↔
      (peerId' = peerId ∧ piece' = piece) ∨ m.Has peerId' piece' := by
  unfold Has addPiece
  dsimp only
  by_cases hpeer : peerId' = peerId
  . subst hpeer
    rw [Finmap.lookup_insert, Option.getD_some, Finset.mem_insert]
    simp
  . rw [Finmap.lookup_insert_of_ne _ hpeer]
    simp [hpeer]

theorem Mirrored.addPiece {m : PeerPieceMap} (h : m.Mirrored) (peerId : PeerId) (piece : UInt32)
    : (m.addPiece peerId piece).Mirrored := by
  constructor
  intro peerId' piece'
  rw [has_addPiece, ← h.mem_iff]
  unfold getPeersWithPiece PeerPieceMap.addPiece
  dsimp only
  by_cases hpiece : piece' = piece
  . subst hpiece
    rw [Finmap.lookup_insert, Option.getD_some, Finset.mem_insert]
    simp
  . rw [Finmap.lookup_insert_of_ne _ hpiece]
    simp [hpiece]

theorem has_foldl_addPiece {m : PeerPieceMap} {peerId peerId' : PeerId} {pieces : List UInt32}
    {piece' : UInt32}
    : (pieces.foldl (fun m piece => m.addPiece peerId piece) m).Has peerId' piece'
        ↔
      (peerId' = peerId ∧ piece' ∈ pieces) ∨ m.Has peerId' piece' := by
  induction pieces generalizing m with
  | nil => simp
  | cons piece pieces ih =>
    rw [List.foldl_cons, ih, has_addPiece, List.mem_cons]
    tauto

theorem Mirrored.foldl_addPiece {m : PeerPieceMap} (h : m.Mirrored) (peerId : PeerId)
    (pieces : List UInt32)
    : (pieces.foldl (fun m piece => m.addPiece peerId piece) m).Mirrored := by
  induction pieces generalizing m with
  | nil => exact h
  | cons piece pieces ih => exact ih (h.addPiece peerId piece)

theorem mem_foldl_removePeerFrom {peerId peerId' : PeerId} {blocks : List UInt32} {piece' : UInt32}
    (piecesToPeers : Finmap fun _ : UInt32 => Finset PeerId)
    : peerId' ∈ ((blocks.foldl (removePeerFrom peerId) piecesToPeers).lookup piece').getD ∅
        ↔
      peerId' ∈ (piecesToPeers.lookup piece').getD ∅ ∧ ¬(peerId' = peerId ∧ piece' ∈ blocks) := by
  induction blocks generalizing piecesToPeers with
  | nil => simp
  | cons block blocks ih =>
    rw [List.foldl_cons, ih, List.mem_cons]
    unfold removePeerFrom
    split
    . next peers hlookup =>
      by_cases hblock : piece' = block
      . subst hblock
        rw [Finmap.lookup_insert, hlookup, Option.getD_some, Option.getD_some, Finset.mem_erase]
        tauto
      . rw [Finmap.lookup_insert_of_ne _ hblock]
        tauto
    . next hlookup =>
      by_cases hblock : piece' = block
      . subst hblock
        simp [hlookup]
      . tauto

theorem has_removePeer {m : PeerPieceMap} {peerId peerId' : PeerId} {piece' : UInt32}
    : (m.removePeer peerId).Has peerId' piece' ↔ peerId' ≠ peerId ∧ m.Has peerId' piece' := by
  unfold PeerPieceMap.removePeer Has
  split
  . dsimp only
    by_cases hpeer : peerId' = peerId
    . subst hpeer
      simp
    . rw [Finmap.lookup_erase_ne hpeer]
      simp [hpeer]
  . next hlookup =>
    by_cases hpeer : peerId' = peerId
    . subst hpeer
      simp [hlookup]
    . simp [hpeer]

theorem Mirrored.removePeer {m : PeerPieceMap} (h : m.Mirrored) (peerId : PeerId)
    : (m.removePeer peerId).Mirrored := by
  constructor
  intro peerId' piece'
  rw [has_removePeer, ← h.mem_iff]
  have hhas := h.mem_iff peerId piece'
  unfold PeerPieceMap.removePeer getPeersWithPiece
  unfold Has getPeersWithPiece at hhas
  split
  . next blocks hlookup =>
    rw [hlookup, Option.getD_some] at hhas
    dsimp only
    rw [mem_foldl_removePeerFrom, Finset.mem_sort]
    by_cases hpeer : peerId' = peerId
    . subst hpeer
      tauto
    . tauto
  . next hlookup =>
    -- of a peer without an entry there is nothing in the other map either
    rw [hlookup] at hhas
    by_cases hpeer : peerId' = peerId
    . subst hpeer
      simpa using hhas
    . simp [hpeer]

end PeerPieceMap

variable {build : Build} {torrent : V1Torrent}

namespace PieceBlockTracker

theorem getIncompletePieces_generateAssignments {now : UInt32 → Nat}
    {tracker tracker' : PieceBlockTracker} {available : List (UInt32 × List PeerId)}
    {requests : List PeerRequestedPiece}
    (hincomplete : ∀ entry ∈ available, entry.1 ∈ tracker.getIncompletePieces)
    (h : (generateAssignments build torrent now tracker available : Outcome ε _)
      = .ok (requests, tracker'))
    : tracker'.getIncompletePieces = tracker.getIncompletePieces := by
  apply generateAssignments_invariant
    (P := fun t => t.getIncompletePieces = tracker.getIncompletePieces) h
  . intro tracker1 pieceId now requests ⟨peerIds, hmem⟩ hindex h1
    have hpiece : pieceId ∈ tracker1.getIncompletePieces := by
      rw [h1]
      exact hincomplete _ hmem
    rw [getIncompletePieces_recordRequests now hpiece hindex, h1]
  . rfl

theorem getIncompletePieces_called {tracker tracker' : PieceBlockTracker} {event : TrackerEvent}
    {reply : TrackerReply} (h : Called build torrent tracker event reply tracker')
    (hincomplete : ∀ available now, event = .generateAssignments available now →
      ∀ entry ∈ available, entry.1 ∈ tracker.getIncompletePieces)
    : tracker'.getIncompletePieces ⊆ tracker.getIncompletePieces := by
  have hpieces : ∀ tracker1 : PieceBlockTracker, tracker1.blocks.pieces ⊆ tracker.blocks.pieces →
      tracker1.piecesNotStarted = tracker.piecesNotStarted →
        tracker1.getIncompletePieces ⊆ tracker.getIncompletePieces := by
    intro tracker1 hblocks hnotStarted
    unfold getIncompletePieces
    rw [hnotStarted]
    apply Finset.union_subset_union_left hblocks
  cases h with
  | assigned hassign =>
    rw [getIncompletePieces_generateAssignments (hincomplete _ _ rfl) hassign]
  | finished hset =>
    obtain ⟨blocks, hblocks, rfl⟩ := setBlocks_of_setRequestFinished hset
    apply hpieces
    . rw [blocks_setBlocks, PieceToBlockMap.pieces_setRequestFinished hblocks]
    . rfl
  | notFound => exact Finset.Subset.refl _
  | removed =>
    apply hpieces
    . exact (PieceToBlockMap.pieces_removeDownloadingRequest _ _ _).subset
    . rfl
  | expired =>
    apply hpieces
    . exact (InprogressPieceToBlockMap.expire_pieces _ _ _ _).subset
    . rfl
  | @pieceFinished pieceId =>
    apply hpieces
    . have herase : (tracker.setPieceFinished pieceId).blocks.pieces
          = tracker.blocks.pieces.erase pieceId :=
        PieceToBlockMap.pieces_removePiece _ _
      rw [herase]
      apply Finset.erase_subset
    . rfl

end PieceBlockTracker

namespace TorrentState

structure Reflects (n : Nat) (tr : List (PeerEvent × PeerReply)) (state : TorrentState) : Prop where
  notChoking : ∀ peerId, peerId ∈ state.peersNotChoking ↔ NotChoking tr peerId
  known : ∀ peerId ∈ state.peersNotChoking, peerId ∈ state.peers
  mirrored : state.blockPeerMap.Mirrored
  announced : ∀ peerId piece, state.blockPeerMap.Has peerId piece ↔ Announced tr peerId piece
  incomplete_lt : ∀ piece ∈ state.pieceBlockTracking.getIncompletePieces, piece.toNat < n

def AssignsAvailable (state : TorrentState) : PeerEvent → Prop
  | .tracker (.generateAssignments available _) => Iterates state.pieceIdToPeers available
  | _ => True

instance (state : TorrentState) (event : PeerEvent) : Decidable (state.AssignsAvailable event) :=
  match event with
  | .tracker (.generateAssignments available _) =>
    inferInstanceAs (Decidable (Iterates state.pieceIdToPeers available))
  | .tracker (.setRequestFinished _ _) | .tracker (.removeRequest _) | .tracker (.removeExpired _)
  | .tracker (.setPieceFinished _) | .chokedUs _ _ | .interestedInUs _ _ | .addPieces _ _
  | .removePeer _ => isTrue trivial

theorem mem_peers_addPeerId {state : TorrentState} {peerId peerId' : PeerId}
    : peerId' ∈ (state.addPeerId peerId).peers ↔ peerId' = peerId ∨ peerId' ∈ state.peers := by
  unfold addPeerId
  split
  . next hmem =>
    constructor
    . exact .inr
    . rintro (rfl | h)
      . exact hmem
      . exact h
  . dsimp only
    rw [Finmap.mem_insert]

@[simp]
theorem addPeerId_peersNotChoking (state : TorrentState) (peerId : PeerId)
    : (state.addPeerId peerId).peersNotChoking = state.peersNotChoking := by
  unfold addPeerId
  split
  . rfl
  . rfl

@[simp]
theorem addPeerId_blockPeerMap (state : TorrentState) (peerId : PeerId)
    : (state.addPeerId peerId).blockPeerMap = state.blockPeerMap := by
  unfold addPeerId
  split
  . rfl
  . rfl

theorem mem_peersNotChoking_setPeerChokedUs {state : TorrentState} {peerId peerId' : PeerId}
    {choked : Bool}
    : peerId' ∈ (state.setPeerChokedUs peerId choked).peersNotChoking
        ↔
      (peerId' = peerId ∧ choked = false) ∨ (peerId' ∈ state.peersNotChoking ∧ peerId' ≠ peerId) := by
  unfold setPeerChokedUs
  cases choked with
  | true => simp [Finset.mem_erase, and_comm]
  | false =>
    simp only [Bool.not_false, if_true, Finset.mem_insert, addPeerId_peersNotChoking]
    tauto

theorem setPeerChokedUs_peers (state : TorrentState) (peerId : PeerId) (choked : Bool)
    : (state.setPeerChokedUs peerId choked).peers = (state.addPeerId peerId).peers := by
  unfold setPeerChokedUs
  split
  . rfl
  . rfl

@[simp]
theorem setPeerChokedUs_blockPeerMap (state : TorrentState) (peerId : PeerId) (choked : Bool)
    : (state.setPeerChokedUs peerId choked).blockPeerMap = state.blockPeerMap := by
  unfold setPeerChokedUs
  split
  . apply addPeerId_blockPeerMap
  . apply addPeerId_blockPeerMap

@[simp]
theorem setPeersInterestedInUs_peersNotChoking (state : TorrentState) (peerId : PeerId)
    (interested : Bool)
    : (state.setPeersInterestedInUs peerId interested).peersNotChoking = state.peersNotChoking := by
  unfold setPeersInterestedInUs
  split
  . apply addPeerId_peersNotChoking
  . apply addPeerId_peersNotChoking

theorem setPeersInterestedInUs_peers (state : TorrentState) (peerId : PeerId) (interested : Bool)
    : (state.setPeersInterestedInUs peerId interested).peers = (state.addPeerId peerId).peers := by
  unfold setPeersInterestedInUs
  split
  . rfl
  . rfl

@[simp]
theorem setPeersInterestedInUs_blockPeerMap (state : TorrentState) (peerId : PeerId)
    (interested : Bool)
    : (state.setPeersInterestedInUs peerId interested).blockPeerMap = state.blockPeerMap := by
  unfold setPeersInterestedInUs
  split
  . apply addPeerId_blockPeerMap
  . apply addPeerId_blockPeerMap

@[simp]
theorem addPiecesForPeer_peersNotChoking (state : TorrentState) (peerId : PeerId)
    (pieces : List UInt32)
    : (state.addPiecesForPeer peerId pieces).2.peersNotChoking = state.peersNotChoking := by
  unfold addPiecesForPeer
  dsimp only
  split
  . apply addPeerId_peersNotChoking
  . apply addPeerId_peersNotChoking

theorem mem_peers_addPiecesForPeer {state : TorrentState} {peerId peerId' : PeerId}
    {pieces : List UInt32}
    : peerId' ∈ (state.addPiecesForPeer peerId pieces).2.peers
        ↔
      peerId' = peerId ∨ peerId' ∈ state.peers := by
  unfold addPiecesForPeer
  dsimp only
  split
  . dsimp only [setInterested]
    rw [Finmap.mem_insert, mem_peers_addPeerId]
    tauto
  . apply mem_peers_addPeerId

theorem addPiecesForPeer_blockPeerMap (state : TorrentState) (peerId : PeerId)
    (pieces : List UInt32)
    : (state.addPiecesForPeer peerId pieces).2.blockPeerMap
        =
      pieces.foldl (fun m piece => m.addPiece peerId piece) state.blockPeerMap := by
  unfold addPiecesForPeer
  dsimp only
  rw [addPeerId_blockPeerMap]
  split
  . rfl
  . rfl

theorem removePeer_peersNotChoking (state : TorrentState) (peerId : PeerId)
    : (state.removePeer peerId).peersNotChoking = state.peersNotChoking.erase peerId := by
  unfold removePeer
  dsimp only
  rw [addPeerId_peersNotChoking]

theorem mem_peers_removePeer {state : TorrentState} {peerId peerId' : PeerId}
    : peerId' ∈ (state.removePeer peerId).peers ↔ peerId' ≠ peerId ∧ peerId' ∈ state.peers := by
  unfold removePeer
  dsimp only
  rw [Finmap.mem_erase, mem_peers_addPeerId]
  tauto

@[simp]
theorem removePeer_blockPeerMap (state : TorrentState) (peerId : PeerId)
    : (state.removePeer peerId).blockPeerMap = state.blockPeerMap.removePeer peerId := by
  unfold removePeer
  dsimp only
  rw [addPeerId_blockPeerMap]

structure SetsFlags (peerId : PeerId) (state state' : TorrentState) : Prop where
  peers_eq : state'.peers = (state.addPeerId peerId).peers
  blockPeerMap_eq : state'.blockPeerMap = state.blockPeerMap
  pieceBlockTracking_eq : state'.pieceBlockTracking = state.pieceBlockTracking

theorem setsFlags_setPeerChokedUs (state : TorrentState) (peerId : PeerId) (choked : Bool)
    : SetsFlags peerId state (state.setPeerChokedUs peerId choked) where
  peers_eq := setPeerChokedUs_peers state peerId choked
  blockPeerMap_eq := setPeerChokedUs_blockPeerMap state peerId choked
  pieceBlockTracking_eq := setPeerChokedUs_pieceBlockTracking state peerId choked

theorem setsFlags_setPeersInterestedInUs (state : TorrentState) (peerId : PeerId)
    (interested : Bool)
    : SetsFlags peerId state (state.setPeersInterestedInUs peerId interested) where
  peers_eq := setPeersInterestedInUs_peers state peerId interested
  blockPeerMap_eq := setPeersInterestedInUs_blockPeerMap state peerId interested
  pieceBlockTracking_eq := setPeersInterestedInUs_pieceBlockTracking state peerId interested

inductive Called (build : Build) (torrent : V1Torrent) (state : TorrentState)
    : PeerEvent → PeerReply → TorrentState → Prop where
  | choked (peerId : PeerId) (choked : Bool)
      : Called build torrent state (.chokedUs peerId choked) .updated
          (state.setPeerChokedUs peerId choked)
  | interested (peerId : PeerId) (interested : Bool)
      : Called build torrent state (.interestedInUs peerId interested) .updated
          (state.setPeersInterestedInUs peerId interested)
  | addedPieces (peerId : PeerId) (pieces : List UInt32)
      : Called build torrent state (.addPieces peerId pieces)
          (.interest (state.addPiecesForPeer peerId pieces).1)
          (state.addPiecesForPeer peerId pieces).2
  | removed (peerId : PeerId)
      : Called build torrent state (.removePeer peerId) .updated (state.removePeer peerId)
  | tracked (event : TrackerEvent) (reply : TrackerReply) (tracker : PieceBlockTracker)
      (hcalled : state.pieceBlockTracking.Called build torrent event reply tracker)
      : Called build torrent state (.tracker event) (.tracked reply)
          { state with pieceBlockTracking := tracker }

theorem called_of_step {state state' : TorrentState} {event : PeerEvent} {reply : PeerReply}
    (h : (torrentStateTask build torrent).step state event = some (reply, state'))
    : Called build torrent state event reply state' := by
  cases event with
  | chokedUs peerId choked =>
    simp only [torrentStateTask, Option.some.injEq, Prod.mk.injEq] at h
    obtain ⟨rfl, rfl⟩ := h
    exact .choked peerId choked
  | interestedInUs peerId interested =>
    simp only [torrentStateTask, Option.some.injEq, Prod.mk.injEq] at h
    obtain ⟨rfl, rfl⟩ := h
    exact .interested peerId interested
  | addPieces peerId pieces =>
    simp only [torrentStateTask, Option.some.injEq, Prod.mk.injEq] at h
    obtain ⟨rfl, rfl⟩ := h
    exact .addedPieces peerId pieces
  | removePeer peerId =>
    simp only [torrentStateTask, Option.some.injEq, Prod.mk.injEq] at h
    obtain ⟨rfl, rfl⟩ := h
    exact .removed peerId
  | tracker event =>
    simp only [torrentStateTask] at h
    split at h
    . next reply' tracker' hcall =>
      simp only [Option.some.injEq, Prod.mk.injEq] at h
      obtain ⟨rfl, rfl⟩ := h
      exact .tracked event reply' tracker' (PieceBlockTracker.called_of_step hcall)
    . contradiction

theorem reflects_new (maxOutstandingRequests : Nat) (pieces : List V1Piece)
    : Reflects pieces.length [] (new pieces maxOutstandingRequests) := by
  constructor
  . intro peerId
    simp [new, NotChoking, not_since_nil]
  . intro peerId h
    simp [new] at h
  . exact PeerPieceMap.mirrored_empty
  . intro peerId piece
    simp [new, PeerPieceMap.Has, PeerPieceMap.empty, Announced, not_since_nil]
  . intro piece hpiece
    have hpieces : (PieceBlockTracker.new maxOutstandingRequests pieces).blocks.pieces = ∅ :=
      PieceToBlockMap.pieces_empty
    unfold PieceBlockTracker.getIncompletePieces new at hpiece
    dsimp only at hpiece
    rw [hpieces, Finset.empty_union, PieceBlockTracker.new, Finset.mem_image] at hpiece
    obtain ⟨i, hi, rfl⟩ := hpiece
    rw [Finset.mem_range] at hi
    rw [UInt32.toNat_ofNat']
    apply Nat.lt_of_le_of_lt (Nat.mod_le _ _) hi

theorem has_iff_announced_step {tr : List (PeerEvent × PeerReply)} {state state' : TorrentState}
    {event : PeerEvent} {reply : PeerReply}
    (h : ∀ peerId piece, state.blockPeerMap.Has peerId piece ↔ Announced tr peerId piece)
    (hstep : (torrentStateTask build torrent).step state event = some (reply, state'))
    : ∀ peerId piece, state'.blockPeerMap.Has peerId piece
        ↔
      Announced (tr ++ [(event, reply)]) peerId piece := by
  have hannounced : ∀ peerId piece, Announced (tr ++ [(event, reply)]) peerId piece
      ↔ (∃ pieces, event = .addPieces peerId pieces ∧ piece ∈ pieces)
        ∨ (state.blockPeerMap.Has peerId piece ∧ ¬event = .removePeer peerId) := by
    intro peerId piece
    rw [h]
    apply since_append_singleton
  intro peerId' piece
  rw [hannounced]
  cases called_of_step hstep with
  | choked peerId choked =>
    rw [setPeerChokedUs_blockPeerMap]
    simp
  | interested peerId interested =>
    rw [setPeersInterestedInUs_blockPeerMap]
    simp
  | addedPieces peerId pieces =>
    rw [addPiecesForPeer_blockPeerMap, PeerPieceMap.has_foldl_addPiece]
    grind
  | removed peerId =>
    rw [removePeer_blockPeerMap, PeerPieceMap.has_removePeer]
    grind
  | tracked =>
    simp

theorem Reflects.step {n : Nat} {tr : List (PeerEvent × PeerReply)} {state state' : TorrentState}
    {event : PeerEvent} {reply : PeerReply} (h : Reflects n tr state)
    (hguard : state.AssignsAvailable event)
    (hstep : (torrentStateTask build torrent).step state event = some (reply, state'))
    : Reflects n (tr ++ [(event, reply)]) state' := by
  have hnotChoking : ∀ peerId, NotChoking (tr ++ [(event, reply)]) peerId
      ↔ event = .chokedUs peerId false ∨ (peerId ∈ state.peersNotChoking
        ∧ ¬(event = .chokedUs peerId true ∨ event = .removePeer peerId)) := by
    intro peerId
    rw [h.notChoking]
    apply since_append_singleton
  have hannounced := has_iff_announced_step h.announced hstep
  cases called_of_step hstep with
  | choked peerId choked =>
    constructor
    . intro peerId'
      rw [hnotChoking, mem_peersNotChoking_setPeerChokedUs]
      grind
    . intro peerId' hpeer
      rw [mem_peersNotChoking_setPeerChokedUs] at hpeer
      rw [setPeerChokedUs_peers, mem_peers_addPeerId]
      cases hpeer with
      | inl hpeer => exact .inl hpeer.1
      | inr hpeer => exact .inr (h.known peerId' hpeer.1)
    . rw [setPeerChokedUs_blockPeerMap]
      exact h.mirrored
    . exact hannounced
    . rw [setPeerChokedUs_pieceBlockTracking]
      exact h.incomplete_lt
  | interested peerId interested =>
    constructor
    . intro peerId'
      rw [hnotChoking, setPeersInterestedInUs_peersNotChoking]
      simp
    . intro peerId' hpeer
      rw [setPeersInterestedInUs_peersNotChoking] at hpeer
      rw [setPeersInterestedInUs_peers, mem_peers_addPeerId]
      exact .inr (h.known peerId' hpeer)
    . rw [setPeersInterestedInUs_blockPeerMap]
      exact h.mirrored
    . exact hannounced
    . rw [setPeersInterestedInUs_pieceBlockTracking]
      exact h.incomplete_lt
  | addedPieces peerId pieces =>
    constructor
    . intro peerId'
      rw [hnotChoking, addPiecesForPeer_peersNotChoking]
      simp
    . intro peerId' hpeer
      rw [addPiecesForPeer_peersNotChoking] at hpeer
      rw [mem_peers_addPiecesForPeer]
      exact .inr (h.known peerId' hpeer)
    . rw [addPiecesForPeer_blockPeerMap]
      apply h.mirrored.foldl_addPiece
    . exact hannounced
    . rw [addPiecesForPeer_pieceBlockTracking]
      exact h.incomplete_lt
  | removed peerId =>
    constructor
    . intro peerId'
      rw [hnotChoking, removePeer_peersNotChoking, Finset.mem_erase]
      grind
    . intro peerId' hpeer
      rw [removePeer_peersNotChoking, Finset.mem_erase] at hpeer
      rw [mem_peers_removePeer]
      exact ⟨hpeer.1, h.known peerId' hpeer.2⟩
    . rw [removePeer_blockPeerMap]
      apply h.mirrored.removePeer
    . exact hannounced
    . rw [removePeer_pieceBlockTracking]
      exact h.incomplete_lt
  | tracked event reply' tracker' hcalled =>
    constructor
    . intro peerId'
      rw [hnotChoking]
      simp
    . exact h.known
    . exact h.mirrored
    . exact hannounced
    . intro piece hpiece
      apply h.incomplete_lt
      apply PieceBlockTracker.getIncompletePieces_called hcalled _
        hpiece
      intro available now hevent entry hentry
      subst hevent
      have hmem : (entry.1, entry.2.toFinset) ∈ state.pieceIdToPeers := by
        rw [← hguard.2, List.mem_map]
        exact ⟨entry, hentry, rfl⟩
      exact mem_pieceIdToPeers hmem

theorem reflects_of_run {maxOutstandingRequests : Nat} {tr : List (PeerEvent × PeerReply)}
    {state : TorrentState}
    (hrun : (torrentStateTask build torrent).RunWhile AssignsAvailable
      (new torrent.info.pieces maxOutstandingRequests) tr state)
    : Reflects torrent.info.pieces.length tr state := by
  apply hrun.invariant_trace (P := Reflects torrent.info.pieces.length)
  . intro tr state1 event reply state2 hguard hstep h
    apply h.step hguard hstep
  . apply reflects_new

/--
`piece_id_to_peers` is a function of the messages, and the requests made from it go where these
allow.
-/
structure FollowsHistory (build : Build) (torrent : V1Torrent) (tr : List (PeerEvent × PeerReply))
    (state : TorrentState) : Prop where
  sorted : BTreeMap.Sorted state.pieceIdToPeers
  keys : ∀ piece, (∃ peerIds, (piece, peerIds) ∈ state.pieceIdToPeers)
    ↔ piece ∈ state.pieceBlockTracking.piecesNotStarted
      ∨ piece ∈ state.pieceBlockTracking.blocks.pieces
  lt : ∀ entry ∈ state.pieceIdToPeers, entry.1.toNat < torrent.info.pieces.length
  peers : ∀ entry ∈ state.pieceIdToPeers, ∀ peerId,
    peerId ∈ entry.2 ↔ NotChoking tr peerId ∧ Announced tr peerId entry.1
  requests : ∀ available now requests tracker',
    Iterates state.pieceIdToPeers available →
    (state.pieceBlockTracking.generateAssignments build torrent now available
      : Outcome AnyError _) = .ok (requests, tracker') →
      ∀ req ∈ requests, req.index ∈ state.pieceBlockTracking.getIncompletePieces
        ∧ NotChoking tr req.peerId ∧ Announced tr req.peerId req.index

theorem followsHistory_of_run (build : Build) (torrent : V1Torrent) (maxOutstandingRequests : Nat)
    (tr : List (PeerEvent × PeerReply)) (state : TorrentState)
    (hrun : (torrentStateTask build torrent).RunWhile AssignsAvailable
      (new torrent.info.pieces maxOutstandingRequests) tr state)
    : FollowsHistory build torrent tr state := by
  have h := reflects_of_run hrun
  have hmem : ∀ entry, entry ∈ state.pieceIdToPeers
      ↔ entry.1 ∈ state.pieceBlockTracking.getIncompletePieces
        ∧ entry.2 = state.peersThatChoke false ∩ state.blockPeerMap.getPeersWithPiece entry.1 := by
    intro entry
    unfold pieceIdToPeers
    rw [List.mem_map]
    constructor
    . rintro ⟨piece, hpiece, rfl⟩
      rw [Finset.mem_sort] at hpiece
      exact ⟨hpiece, rfl⟩
    . intro ⟨hpiece, heq⟩
      refine ⟨entry.1, (Finset.mem_sort _).mpr hpiece, ?_⟩
      rw [← heq]
  have hpeers : ∀ entry ∈ state.pieceIdToPeers, ∀ peerId,
      peerId ∈ entry.2 ↔ NotChoking tr peerId ∧ Announced tr peerId entry.1 := by
    intro entry hentry peerId
    rw [((hmem entry).mp hentry).2, Finset.mem_inter, h.mirrored.mem_iff, h.announced,
      ← h.notChoking]
    have hknown := h.known peerId
    simp only [peersThatChoke, peerSet, Bool.false_eq_true, if_false, Finset.mem_inter,
      Finmap.mem_keys]
    tauto
  constructor
  . unfold BTreeMap.Sorted pieceIdToPeers
    rw [List.pairwise_map]
    exact (Finset.sortedLT_sort _).pairwise
  . intro piece
    have hkeys : piece ∈ state.pieceBlockTracking.getIncompletePieces
        ↔ piece ∈ state.pieceBlockTracking.piecesNotStarted
          ∨ piece ∈ state.pieceBlockTracking.blocks.pieces := by
      rw [PieceBlockTracker.getIncompletePieces, Finset.mem_union, or_comm]
    rw [← hkeys]
    constructor
    . intro ⟨peerIds, hentry⟩
      exact ((hmem _).mp hentry).1
    . intro hpiece
      refine ⟨state.peersThatChoke false ∩ state.blockPeerMap.getPeersWithPiece piece, ?_⟩
      exact (hmem _).mpr ⟨hpiece, rfl⟩
  . intro entry hentry
    apply h.incomplete_lt entry.1 ((hmem entry).mp hentry).1
  . exact hpeers
  . intro available now requests tracker' hiterates hassign req hreq
    obtain ⟨entry, hentry, hfor⟩ := PieceBlockTracker.generateAssignments_requestFor hassign req hreq
    have hentry' : (entry.1, entry.2.toFinset) ∈ state.pieceIdToPeers := by
      rw [← hiterates.2, List.mem_map]
      exact ⟨entry, hentry, rfl⟩
    rw [hfor.index_eq]
    refine ⟨((hmem _).mp hentry').1, ?_⟩
    rw [← hpeers _ hentry', List.mem_toFinset]
    exact hfor.mem_peerIds

theorem followsHistory_comesBack
    : ∃ tr state, FollowsHistory ⟨true⟩ (torrentFixture 2 2 [[1, 2]]) tr state
        ∧ state.pieceIdToPeers = [(0, {[5]})] := by
  let torrent := torrentFixture 2 2 [[1, 2]]
  let s0 := new torrent.info.pieces 1
  let s1 := s0.setPeerChokedUs [5] false
  let s2 := (s1.addPiecesForPeer [5] [7]).2
  let s3 := s2.removePeer [5]
  let s4 := (s3.addPiecesForPeer [5] [0]).2
  let s5 := s4.setPeerChokedUs [5] false
  let s6 := { s5 with
    pieceBlockTracking := s5.pieceBlockTracking.recordRequests 0 0 [⟨[5], 0, 0, 2⟩] }
  let tr : List (PeerEvent × PeerReply) := [
    (.chokedUs [5] false, .updated),
    (.addPieces [5] [7], .interest none),
    (.removePeer [5], .updated),
    (.addPieces [5] [0], .interest (some true)),
    (.chokedUs [5] false, .updated),
    (.tracker (.generateAssignments [(0, [[5]])] fun _ => 0),
      .tracked (.assigned [⟨[5], 0, 0, 2⟩]))
  ]
  have hrun : (torrentStateTask ⟨true⟩ torrent).RunWhile AssignsAvailable s0 tr s6 := by
    refine .cons trivial (?_ : _ = some (_, s1)) (.cons trivial (?_ : _ = some (_, s2))
      (.cons trivial (?_ : _ = some (_, s3)) (.cons trivial (?_ : _ = some (_, s4))
      (.cons trivial (?_ : _ = some (_, s5)) (.cons ?_ ?_ (.nil s6))))))
    . rfl
    . decide +kernel
    . rfl
    . decide +kernel
    . rfl
    . show Iterates _ _
      decide +kernel
    . decide +kernel
  exact ⟨tr, s6, followsHistory_of_run ⟨true⟩ torrent 1 tr s6 hrun, by decide +kernel⟩

end TorrentState
