import BenTorrent.Peer.State.History

/-!
This module contains what the peers offer, and that an assignment asks for some of it unless there
is nothing to ask for.
-/

open Rust

variable {build : Build} {torrent : V1Torrent}

namespace PieceBlockTracker

instance (tracker : PieceBlockTracker) (key : PieceToBlockKey) : Decidable (tracker.Held key) :=
  inferInstanceAs (Decidable (_ = true))

def Lacks (build : Build) (torrent : V1Torrent) (tracker : PieceBlockTracker) (pieceId : UInt32)
    : Prop :=
  match (PieceBlockAllocation.pieceSize build torrent pieceId : Outcome AnyError Nat) with
  | .ok size =>
    ∃ begin ∈ PieceBlockAllocation.blockBegins size, ¬tracker.Held ⟨pieceId, UInt32.ofNat begin⟩
  | .error _ => False

instance (tracker : PieceBlockTracker) (pieceId : UInt32)
    : Decidable (tracker.Lacks build torrent pieceId) := by
  unfold Lacks
  split
  . infer_instance
  . infer_instance

theorem lacks_iff {tracker : PieceBlockTracker} {pieceId : UInt32}
    : tracker.Lacks build torrent pieceId
        ↔
      ∃ size, (PieceBlockAllocation.pieceSize build torrent pieceId : Outcome AnyError Nat) = .ok size
        ∧ ∃ begin ∈ PieceBlockAllocation.blockBegins size,
          ¬tracker.Held ⟨pieceId, UInt32.ofNat begin⟩ := by
  unfold Lacks
  split
  . next size hsize => simp [hsize]
  . next e herror => simp [herror]

theorem Lacks.of_held {tracker tracker' : PieceBlockTracker} {pieceId : UInt32}
    (h : tracker'.Lacks build torrent pieceId)
    (hheld : ∀ begin, tracker.Held ⟨pieceId, begin⟩ → tracker'.Held ⟨pieceId, begin⟩)
    : tracker.Lacks build torrent pieceId := by
  rw [lacks_iff] at h ⊢
  obtain ⟨size, hsize, begin, hbegin, hlacks⟩ := h
  exact ⟨size, hsize, begin, hbegin, fun h1 => hlacks (hheld _ h1)⟩

theorem recordRequests_nil (tracker : PieceBlockTracker) (pieceId : UInt32) (now : Nat)
    : tracker.recordRequests pieceId now [] = tracker := by
  rfl

theorem downloadingRequestsLen_recordRequests_pos {tracker : PieceBlockTracker} {pieceId : UInt32}
    {now : Nat} {requests : List PeerRequestedPiece}
    (h : requests ≠ [] ∨ 0 < tracker.downloadingRequestsLen)
    : 0 < (tracker.recordRequests pieceId now requests).downloadingRequestsLen := by
  have hsize : ∀ m : InprogressPieceToBlockMap,
      requests ≠ [] ∨ 0 < m.pieceToBlocksStarted.downloading.size →
        0 < (requests.foldl (fun m req => m.insert now req) m).pieceToBlocksStarted.downloading.size := by
    clear h
    induction requests with
    | nil =>
      intro m h
      simpa using h
    | cons req requests ih =>
      intro m _
      exact ih _ (.inr (NestedMap.size_insertAt_pos _ _ _ _))
  exact hsize tracker.pieceToBlocksOutstanding h

theorem downloadingRequestsLen_generateAssignments_pos {tracker tracker' : PieceBlockTracker}
    {now : UInt32 → Nat} {available : List (UInt32 × List PeerId)}
    {requests : List PeerRequestedPiece}
    (h : (tracker.generateAssignments build torrent now available : Outcome AnyError _)
      = .ok (requests, tracker'))
    (hpos : 0 < tracker.downloadingRequestsLen)
    : 0 < tracker'.downloadingRequestsLen := by
  apply generateAssignments_invariant (P := fun t => 0 < t.downloadingRequestsLen) h
  . intro tracker1 pieceId now requests _ _ hpos1
    exact downloadingRequestsLen_recordRequests_pos (.inr hpos1)
  . exact hpos

/--
A call that adds no request finds none that it could add.
-/
theorem not_lacks_of_assignPiece {tracker tracker' : PieceBlockTracker} {pieceId : UInt32}
    {peerIds : List PeerId} {now : Nat}
    (h : (tracker.assignPiece build torrent pieceId peerIds now : Outcome AnyError _)
      = .ok ([], tracker'))
    (hpeers : peerIds ≠ []) (hzero : tracker.downloadingRequestsLen = 0)
    (hpos : 0 < tracker.maxOutstandingRequests) (hmax : tracker.maxOutstandingRequests < 2 ^ 64)
    : ¬tracker.Lacks build torrent pieceId := by
  rw [lacks_iff]
  rintro ⟨size, hsize, begin, hbegin, hlacks⟩
  generalize hrequests : [] = requests at h
  cases assignedPiece_of_assignPiece h with
  | nobody => contradiction
  | made hcapacity hsize' hmake =>
    subst hrequests
    rw [hzero, Build.usizeSub_of_fits _ _ _ (by omega) (by omega), Except.ok.injEq] at hcapacity
    rw [hsize, Except.ok.injEq] at hsize'
    subst hsize'
    cases PieceBlockAllocation.requestsToMake_complete hmake with
    | inl hlen =>
      rw [List.length_nil] at hlen
      omega
    | inr hall =>
      rcases hall begin hbegin with hheld | ⟨req, hreq, _⟩
      . exact hlacks hheld
      . contradiction

theorem generateAssignments_idle {tracker tracker' : PieceBlockTracker} {now : UInt32 → Nat}
    {available : List (UInt32 × List PeerId)} {requests : List PeerRequestedPiece}
    (h : (tracker.generateAssignments build torrent now available : Outcome AnyError _)
      = .ok (requests, tracker'))
    (hzero : tracker'.downloadingRequestsLen = 0)
    (hpos : 0 < tracker.maxOutstandingRequests) (hmax : tracker.maxOutstandingRequests < 2 ^ 64)
    : tracker' = tracker
        ∧ ∀ entry ∈ available, entry.2 ≠ [] → ¬tracker.Lacks build torrent entry.1 := by
  induction available generalizing requests with
  | nil =>
    exact ⟨(generateAssignments_nil h).2, by simp⟩
  | cons entry available ih =>
    obtain ⟨pieceId, peerIds⟩ := entry
    obtain ⟨requests1, tracker1, requests2, hassign, hothers, rfl⟩ :=
      generateAssignments_cons h
    obtain ⟨rfl, _⟩ := assignPiece_eq_ok hassign
    have hnil : requests1 = [] := by
      by_contra hne
      have hpos1 : 0 < (tracker.recordRequests pieceId (now pieceId)
          requests1).downloadingRequestsLen :=
        downloadingRequestsLen_recordRequests_pos (.inl hne)
      have hpos2 := downloadingRequestsLen_generateAssignments_pos hothers hpos1
      omega
    subst hnil
    rw [recordRequests_nil] at hothers
    obtain ⟨rfl, hnone⟩ := ih hothers
    refine ⟨rfl, ?_⟩
    rw [List.forall_mem_cons]
    exact ⟨fun hpeers => not_lacks_of_assignPiece hassign hpeers hzero hpos hmax, hnone⟩

theorem held_removeRequest {tracker : PieceBlockTracker} {req : PeerRequestedPiece}
    {key : PieceToBlockKey} (h : tracker.Held key) (hne : key.pieceId ≠ req.index)
    : (tracker.removeRequest req).2.Held key := by
  rw [held_iff] at h ⊢
  rcases h with h | h
  . left
    unfold removeRequest PieceToBlockMap.removeDownloadingRequest
    dsimp only [setBlocks, blocks]
    rw [NestedMap.lookupAt_eraseAt, if_neg fun heq => hne heq.1]
    exact h
  . exact .inr h

theorem getIncompletePieces_removeRequest (tracker : PieceBlockTracker) (req : PeerRequestedPiece)
    : (tracker.removeRequest req).2.getIncompletePieces = tracker.getIncompletePieces := by
  have hpieces : (tracker.removeRequest req).2.blocks.pieces = tracker.blocks.pieces :=
    PieceToBlockMap.pieces_removeDownloadingRequest _ _ _
  unfold getIncompletePieces
  rw [hpieces]
  rfl

theorem blocks_of_noneExpired {tracker tracker' : PieceBlockTracker} {now : Nat}
    (h : tracker.removeExpired now = ([], tracker'))
    : tracker'.blocks = tracker.blocks ∧ tracker'.piecesNotStarted = tracker.piecesNotStarted := by
  have hexpire : ∀ (expirations : List (Nat × PieceToBlockKey)) (m : PieceToBlockMap),
      (InprogressPieceToBlockMap.expire now tracker.requestTimeout m expirations).1 = [] →
        (InprogressPieceToBlockMap.expire now tracker.requestTimeout m
          expirations).2.pieceToBlocksStarted = m := by
    intro expirations
    induction expirations with
    | nil => exact fun _ _ => rfl
    | cons entry expirations ih =>
      intro m hnone
      unfold InprogressPieceToBlockMap.expire at hnone ⊢
      split
      . next hdue =>
        rw [if_pos hdue] at hnone
        split
        . next expired hlookup =>
          rw [hlookup] at hnone
          contradiction
        . next hlookup =>
          rw [hlookup] at hnone
          exact ih m hnone
      . rfl
  unfold removeExpired at h
  simp only [Prod.mk.injEq] at h
  rw [← h.2]
  exact ⟨hexpire _ _ h.1, rfl⟩

theorem Lacks.of_blocks_eq {tracker tracker' : PieceBlockTracker} {pieceId : UInt32}
    (h : tracker'.Lacks build torrent pieceId) (hblocks : tracker'.blocks = tracker.blocks)
    : tracker.Lacks build torrent pieceId := by
  apply h.of_held
  intro begin hheld
  unfold Held at hheld ⊢
  rwa [hblocks]

end PieceBlockTracker

namespace TorrentState

/--
The peer does not choke us and has announced an incomplete piece of the kind.
-/
def Offers (φ : UInt32 → Prop) (state : TorrentState) (peerId : PeerId) : Prop :=
  peerId ∈ state.peersThatChoke false
    ∧ ∃ piece ∈ state.pieceBlockTracking.getIncompletePieces,
        state.blockPeerMap.Has peerId piece ∧ φ piece

instance (m : PeerPieceMap) (peerId : PeerId) (piece : UInt32) : Decidable (m.Has peerId piece) :=
  inferInstanceAs (Decidable (_ ∈ _))

instance (φ : UInt32 → Prop) [DecidablePred φ] (state : TorrentState) (peerId : PeerId)
    : Decidable (state.Offers φ peerId) :=
  inferInstanceAs (Decidable (_ ∧ _))

variable {state : TorrentState} {peerId peerId' : PeerId} {φ ψ : UInt32 → Prop}

theorem mem_peersThatChoke_false
    : peerId ∈ state.peersThatChoke false
        ↔
      peerId ∈ state.peers ∧ peerId ∈ state.peersNotChoking := by
  simp [peersThatChoke, peerSet, Finmap.mem_keys]

theorem Offers.mono (h : state.Offers φ peerId) (himp : ∀ piece, φ piece → ψ piece)
    : state.Offers ψ peerId := by
  obtain ⟨hpeer, piece, hpiece, hhas, hφ⟩ := h
  exact ⟨hpeer, piece, hpiece, hhas, himp piece hφ⟩

theorem Offers.of_removePeer (h : (state.removePeer peerId).Offers φ peerId')
    : peerId' ≠ peerId ∧ state.Offers φ peerId' := by
  obtain ⟨hpeer, piece, hpiece, hhas, hφ⟩ := h
  rw [mem_peersThatChoke_false, mem_peers_removePeer, removePeer_peersNotChoking,
    Finset.mem_erase] at hpeer
  rw [removePeer_blockPeerMap, PeerPieceMap.has_removePeer] at hhas
  rw [removePeer_pieceBlockTracking] at hpiece
  refine ⟨hhas.1, ?_, piece, hpiece, hhas.2, hφ⟩
  rw [mem_peersThatChoke_false]
  exact ⟨hpeer.1.2, hpeer.2.2⟩

theorem Offers.of_addPiecesForPeer {pieces : List UInt32}
    (h : (state.addPiecesForPeer peerId pieces).2.Offers φ peerId') (hne : peerId' ≠ peerId)
    : state.Offers φ peerId' := by
  obtain ⟨hpeer, piece, hpiece, hhas, hφ⟩ := h
  rw [mem_peersThatChoke_false, mem_peers_addPiecesForPeer, addPiecesForPeer_peersNotChoking,
    or_iff_right hne] at hpeer
  rw [addPiecesForPeer_blockPeerMap, PeerPieceMap.has_foldl_addPiece,
    or_iff_right fun heq => hne heq.1] at hhas
  rw [addPiecesForPeer_pieceBlockTracking] at hpiece
  exact ⟨mem_peersThatChoke_false.mpr hpeer, piece, hpiece, hhas, hφ⟩

theorem Offers.exists_available {available : List (UInt32 × List PeerId)}
    (h : state.Offers φ peerId) (hmirrored : state.blockPeerMap.Mirrored)
    (hiterates : Iterates state.pieceIdToPeers available)
    : ∃ entry ∈ available, entry.2 ≠ [] ∧ φ entry.1 := by
  obtain ⟨hpeer, piece, hpiece, hhas, hφ⟩ := h
  have hmem : (piece, state.peersThatChoke false ∩ state.blockPeerMap.getPeersWithPiece piece)
      ∈ state.pieceIdToPeers := by
    unfold pieceIdToPeers
    rw [List.mem_map]
    exact ⟨piece, (Finset.mem_sort _).mpr hpiece, rfl⟩
  rw [← hiterates.2, List.mem_map] at hmem
  obtain ⟨entry, hentry, heq⟩ := hmem
  rw [Prod.mk.injEq] at heq
  refine ⟨entry, hentry, ?_, ?_⟩
  . rintro hnil
    have hin : peerId ∈ entry.2.toFinset := by
      rw [heq.2, Finset.mem_inter, hmirrored.mem_iff]
      exact ⟨hpeer, hhas⟩
    rw [hnil] at hin
    contradiction
  . rw [heq.1]
    exact hφ

end TorrentState
