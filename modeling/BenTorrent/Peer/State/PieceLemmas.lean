import BenTorrent.Peer.State.Piece

/-!
This module contains what the operations of the tracker do to the stages of the pieces and to the
blocks that were answered.
-/

open Rust

namespace PieceToBlockMap

@[simp]
theorem pieces_empty : PieceToBlockMap.empty.pieces = ∅ := by
  simp [pieces, empty]

@[simp]
theorem pieces_insertRequest (m : PieceToBlockMap) (req : PeerRequestedPiece)
    : (m.insertRequest req).pieces = insert req.index m.pieces := by
  simp [pieces, insertRequest, Finset.insert_union]

@[simp]
theorem pieces_removeDownloadingRequest (m : PieceToBlockMap) (pieceId begin : UInt32)
    : (m.removeDownloadingRequest pieceId begin).2.pieces = m.pieces := by
  simp [pieces, removeDownloadingRequest]

@[simp]
theorem pieces_removePiece (m : PieceToBlockMap) (pieceId : UInt32)
    : (m.removePiece pieceId).pieces = m.pieces.erase pieceId := by
  simp [pieces, removePiece, Finset.erase_union_distrib]

theorem setRequestFinished_eq_some {m m' : PieceToBlockMap} {pieceId begin : UInt32}
    (h : m.setRequestFinished pieceId begin = some m')
    : ∃ download, m.downloading.lookupAt pieceId begin = some download
        ∧ m' = ⟨m.downloading.eraseAt pieceId begin, m.done.insertAt pieceId begin download⟩ := by
  unfold setRequestFinished at h
  simp only [Option.bind_eq_bind, Option.bind_eq_some_iff, Option.pure_def, Option.some.injEq] at h
  obtain ⟨download, hdownload, rfl⟩ := h
  exact ⟨download, hdownload, rfl⟩

theorem pieces_setRequestFinished {m m' : PieceToBlockMap} {pieceId begin : UInt32}
    (h : m.setRequestFinished pieceId begin = some m')
    : m'.pieces = m.pieces := by
  obtain ⟨download, hdownload, rfl⟩ := setRequestFinished_eq_some h
  -- the piece stays in `downloading`, so its entry in `done` adds nothing
  have hmem := NestedMap.mem_of_lookupAt hdownload
  rw [← Finmap.mem_keys] at hmem
  simp only [pieces, NestedMap.keys_eraseAt, NestedMap.keys_insertAt]
  grind

theorem lookupAt_done_setRequestFinished {m m' : PieceToBlockMap} {pieceId begin : UInt32}
    (h : m.setRequestFinished pieceId begin = some m') (pieceId' begin' : UInt32)
    (hdone : (m'.done.lookupAt pieceId' begin').isSome)
    : (pieceId' = pieceId ∧ begin' = begin) ∨ (m.done.lookupAt pieceId' begin').isSome := by
  obtain ⟨download, _, rfl⟩ := setRequestFinished_eq_some h
  rw [NestedMap.lookupAt_insertAt] at hdone
  split at hdone
  . next heq => exact .inl heq
  . exact .inr hdone

theorem lookupAt_done_removePiece {m : PieceToBlockMap} {pieceId pieceId' begin' : UInt32}
    (hdone : ((m.removePiece pieceId).done.lookupAt pieceId' begin').isSome)
    : (m.done.lookupAt pieceId' begin').isSome := by
  unfold removePiece at hdone
  rw [NestedMap.lookupAt_erase] at hdone
  split at hdone
  . contradiction
  . exact hdone

end PieceToBlockMap

namespace InprogressPieceToBlockMap

theorem expire_done (time ttl : Nat) (m : PieceToBlockMap)
    (expirations : List (Nat × PieceToBlockKey))
    : (expire time ttl m expirations).2.pieceToBlocksStarted.done = m.done := by
  induction expirations generalizing m with
  | nil => rfl
  | cons e expirations ih =>
    unfold expire
    split
    . split
      . dsimp only
        rw [ih]
      . rw [ih]
    . rfl

theorem expire_pieces (time ttl : Nat) (m : PieceToBlockMap)
    (expirations : List (Nat × PieceToBlockKey))
    : (expire time ttl m expirations).2.pieceToBlocksStarted.pieces = m.pieces := by
  induction expirations generalizing m with
  | nil => rfl
  | cons e expirations ih =>
    unfold expire
    split
    . split
      . dsimp only
        rw [ih]
        simp [PieceToBlockMap.pieces]
      . rw [ih]
    . rfl

theorem foldl_insert_done (requests : List PeerRequestedPiece) (now : Nat)
    (m : InprogressPieceToBlockMap)
    : (requests.foldl (fun m req => m.insert now req) m).pieceToBlocksStarted.done
        =
      m.pieceToBlocksStarted.done := by
  induction requests generalizing m with
  | nil => rfl
  | cons req requests ih =>
    rw [List.foldl_cons, ih]
    rfl

theorem foldl_insert_pieces {requests : List PeerRequestedPiece} {pieceId : UInt32}
    (h : ∀ req ∈ requests, req.index = pieceId) (now : Nat) (m : InprogressPieceToBlockMap)
    : (requests.foldl (fun m req => m.insert now req) m).pieceToBlocksStarted.pieces
        =
      if requests.isEmpty then
        m.pieceToBlocksStarted.pieces
      else
        Insert.insert pieceId m.pieceToBlocksStarted.pieces := by
  induction requests generalizing m with
  | nil => rfl
  | cons req requests ih =>
    rw [List.forall_mem_cons] at h
    have hinsert : (m.insert now req).pieceToBlocksStarted.pieces
        = Insert.insert pieceId m.pieceToBlocksStarted.pieces := by
      rw [← h.1]
      apply PieceToBlockMap.pieces_insertRequest _ _
    rw [List.foldl_cons, ih h.2, hinsert]
    simp

end InprogressPieceToBlockMap

variable {build : Build}

namespace PieceBlockAllocation

theorem mem_blockBegins {pieceSize begin : Nat}
    : begin ∈ blockBegins pieceSize ↔ begin % pieceBlockSize = 0 ∧ begin < pieceSize := by
  unfold blockBegins pieceBlockSize
  simp only [List.mem_map, List.mem_range]
  constructor
  . rintro ⟨k, hk, rfl⟩
    omega
  . intro ⟨h1, h2⟩
    exact ⟨begin / 16384, by omega, by omega⟩

theorem blockRequest_eq_ok {pieceId : UInt32} {pieceSize : Nat} {peerId : PeerId} {begin : Nat}
    {req : PeerRequestedPiece}
    (h : (blockRequest build pieceId pieceSize peerId begin : Outcome ε _) = .ok req)
    : req.peerId = peerId ∧ req.index = pieceId ∧ req.begin = UInt32.ofNat begin := by
  unfold blockRequest at h
  simp only [Outcome.bind_eq_ok, pure, Except.pure, Except.ok.injEq] at h
  obtain ⟨_, _, rfl⟩ := h
  exact ⟨rfl, rfl, rfl⟩

theorem requestsToMake_eq_ok {pieceId : UInt32} {pieceSize : Nat} {peerId : PeerId}
    {requested : PieceToBlockMap} {capacity : Nat} {begins : List Nat}
    {requests : List PeerRequestedPiece}
    (h : (requestsToMake build pieceId pieceSize peerId requested capacity begins : Outcome ε _)
      = .ok requests)
    : (requests.map (·.begin)).Sublist (begins.map UInt32.ofNat)
        ∧ requests.length ≤ capacity
        ∧ ∀ req ∈ requests, requested.containsInprogress pieceId req.begin = none
            ∧ ∃ begin ∈ begins,
                (blockRequest build pieceId pieceSize peerId begin : Outcome ε _) = .ok req := by
  induction begins generalizing capacity requests with
  | nil =>
    simp only [requestsToMake, pure, Except.pure, Except.ok.injEq] at h
    simp [← h]
  | cons begin begins ih =>
    cases capacity with
    | zero =>
      simp only [requestsToMake, pure, Except.pure, Except.ok.injEq] at h
      simp [← h]
    | succ capacity =>
      unfold requestsToMake at h
      split at h
      . obtain ⟨hsub, hlength, hmem⟩ := ih h
        refine ⟨hsub.cons _, hlength, ?_⟩
        intro req hreq
        obtain ⟨hnew, begin', hbegin', heq⟩ := hmem req hreq
        exact ⟨hnew, begin', List.mem_cons_of_mem _ hbegin', heq⟩
      . next hnew =>
        simp only [Outcome.bind_eq_ok, pure, Except.pure, Except.ok.injEq] at h
        obtain ⟨req, hreq, others, hothers, rfl⟩ := h
        have hbegin := (blockRequest_eq_ok hreq).2.2
        obtain ⟨hsub, hlength, hmem⟩ := ih hothers
        rw [List.forall_mem_cons, List.map_cons, List.map_cons, hbegin]
        rw [Option.not_isSome_iff_eq_none] at hnew
        refine ⟨hsub.cons_cons _, Nat.succ_le_succ hlength,
          ⟨hnew, begin, List.mem_cons_self, hreq⟩, ?_⟩
        intro req' hreq'
        obtain ⟨hnew', begin', hbegin', heq⟩ := hmem req' hreq'
        exact ⟨hnew', begin', List.mem_cons_of_mem _ hbegin', heq⟩

theorem index_of_new {pieceId : UInt32} {torrent : V1Torrent} {peerIds : List PeerId}
    {requested : PieceToBlockMap} {capacity : Nat} {requests : List PeerRequestedPiece}
    (h : (new build pieceId torrent peerIds requested capacity
      : Outcome ε (Option (List PeerRequestedPiece))) = .ok (some requests))
    : ∀ req ∈ requests, req.index = pieceId := by
  unfold new at h
  split at h
  . simp [pure, Except.pure] at h
  . simp only [Outcome.bind_eq_ok, pure, Except.pure, Except.ok.injEq, Option.some.injEq] at h
    obtain ⟨_, _, _, _, _, hrequests, rfl⟩ := h
    intro req hreq
    obtain ⟨_, _, _, hblock⟩ := (requestsToMake_eq_ok hrequests).2.2 req hreq
    exact (blockRequest_eq_ok hblock).2.1

end PieceBlockAllocation

namespace PieceBlockTracker

@[simp]
theorem blocks_setBlocks (tracker : PieceBlockTracker) (blocks : PieceToBlockMap)
    : (tracker.setBlocks blocks).blocks = blocks := by
  rfl

theorem assignPiece_eq_ok {tracker tracker' : PieceBlockTracker} {torrent : V1Torrent}
    {pieceId : UInt32} {peerIds : List PeerId} {now : Nat} {requests : List PeerRequestedPiece}
    (h : (tracker.assignPiece build torrent pieceId peerIds now
      : Outcome ε (List PeerRequestedPiece × PieceBlockTracker)) = .ok (requests, tracker'))
    : tracker' = tracker.recordRequests pieceId now requests
        ∧ ∀ req ∈ requests, req.index = pieceId := by
  unfold assignPiece at h
  simp only [Outcome.bind_eq_ok] at h
  obtain ⟨capacity, _, requests', hnew, h⟩ := h
  split at h
  . simp only [pure, Except.pure, Except.ok.injEq, Prod.mk.injEq] at h
    obtain ⟨rfl, rfl⟩ := h
    exact ⟨rfl, by simp⟩
  . simp only [pure, Except.pure, Except.ok.injEq, Prod.mk.injEq] at h
    obtain ⟨rfl, rfl⟩ := h
    exact ⟨rfl, PieceBlockAllocation.index_of_new hnew⟩

theorem generateAssignments_nil {torrent : V1Torrent} {now : UInt32 → Nat}
    {tracker tracker' : PieceBlockTracker} {requests : List PeerRequestedPiece}
    (h : (tracker.generateAssignments build torrent now [] : Outcome ε _) = .ok (requests, tracker'))
    : requests = [] ∧ tracker' = tracker := by
  simp only [generateAssignments, pure, Except.pure, Except.ok.injEq, Prod.mk.injEq] at h
  exact ⟨h.1.symm, h.2.symm⟩

theorem generateAssignments_cons {torrent : V1Torrent} {now : UInt32 → Nat}
    {tracker tracker' : PieceBlockTracker} {pieceId : UInt32} {peerIds : List PeerId}
    {available : List (UInt32 × List PeerId)} {requests : List PeerRequestedPiece}
    (h : (tracker.generateAssignments build torrent now ((pieceId, peerIds) :: available)
      : Outcome ε _) = .ok (requests, tracker'))
    : ∃ requests1 tracker1 requests2,
        (tracker.assignPiece build torrent pieceId peerIds (now pieceId) : Outcome ε _)
            = .ok (requests1, tracker1)
          ∧ (tracker1.generateAssignments build torrent now available : Outcome ε _)
              = .ok (requests2, tracker')
          ∧ requests = requests1 ++ requests2 := by
  unfold generateAssignments at h
  simp only [Outcome.bind_eq_ok, Prod.exists, pure, Except.pure, Except.ok.injEq,
    Prod.mk.injEq] at h
  obtain ⟨requests1, tracker1, hassign, requests2, tracker2, hothers, rfl, rfl⟩ := h
  exact ⟨requests1, tracker1, requests2, hassign, hothers, rfl⟩

theorem generateAssignments_invariant {P : PieceBlockTracker → Prop} {torrent : V1Torrent}
    {now : UInt32 → Nat} {tracker tracker' : PieceBlockTracker}
    {available : List (UInt32 × List PeerId)} {requests : List PeerRequestedPiece}
    (h : (generateAssignments build torrent now tracker available
      : Outcome ε (List PeerRequestedPiece × PieceBlockTracker)) = .ok (requests, tracker'))
    (hrecord : ∀ tracker pieceId now requests, (∃ peerIds, (pieceId, peerIds) ∈ available) →
      (∀ req ∈ requests, req.index = pieceId) → P tracker →
        P (tracker.recordRequests pieceId now requests))
    (htracker : P tracker)
    : P tracker' := by
  induction available generalizing tracker requests with
  | nil =>
    rw [(generateAssignments_nil h).2]
    exact htracker
  | cons entry available ih =>
    obtain ⟨pieceId, peerIds⟩ := entry
    obtain ⟨requests1, tracker1, requests2, hassign, hothers, _⟩ :=
      generateAssignments_cons h
    obtain ⟨rfl, hindex⟩ := assignPiece_eq_ok hassign
    apply ih hothers
    . intro tracker pieceId now requests ⟨peerIds, hmem⟩
      exact hrecord tracker pieceId now requests ⟨peerIds, List.mem_cons_of_mem _ hmem⟩
    . exact hrecord _ _ _ _ ⟨peerIds, List.mem_cons_self⟩ hindex htracker

theorem pieces_recordRequests (tracker : PieceBlockTracker) {pieceId : UInt32} (now : Nat)
    {requests : List PeerRequestedPiece} (h : ∀ req ∈ requests, req.index = pieceId)
    : (tracker.recordRequests pieceId now requests).blocks.pieces
        =
      if requests.isEmpty then tracker.blocks.pieces else insert pieceId tracker.blocks.pieces :=
  InprogressPieceToBlockMap.foldl_insert_pieces h now tracker.pieceToBlocksOutstanding

def BlockDone (tracker : PieceBlockTracker) (pieceId begin : UInt32) : Prop :=
  (tracker.blocks.done.lookupAt pieceId begin).isSome

theorem done_generateAssignments {torrent : V1Torrent} {now : UInt32 → Nat}
    {tracker tracker' : PieceBlockTracker} {available : List (UInt32 × List PeerId)}
    {requests : List PeerRequestedPiece}
    (h : (generateAssignments build torrent now tracker available
      : Outcome ε (List PeerRequestedPiece × PieceBlockTracker)) = .ok (requests, tracker'))
    : tracker'.blocks.done = tracker.blocks.done := by
  apply generateAssignments_invariant (P := fun t => t.blocks.done = tracker.blocks.done) h
  . intro tracker1 pieceId now requests _ _ hdone
    rw [← hdone]
    apply InprogressPieceToBlockMap.foldl_insert_done
  . rfl

theorem done_removeRequest (tracker : PieceBlockTracker) (req : PeerRequestedPiece)
    : (tracker.removeRequest req).2.blocks.done = tracker.blocks.done := by
  rfl

theorem done_removeExpired (tracker : PieceBlockTracker) (now : Nat)
    : (tracker.removeExpired now).2.blocks.done = tracker.blocks.done := by
  apply InprogressPieceToBlockMap.expire_done

theorem blockDone_setPieceFinished {tracker : PieceBlockTracker} {pieceId pieceId' begin' : UInt32}
    (h : (tracker.setPieceFinished pieceId).BlockDone pieceId' begin')
    : tracker.BlockDone pieceId' begin' := by
  apply PieceToBlockMap.lookupAt_done_removePiece h

theorem setBlocks_of_setRequestFinished {tracker tracker' : PieceBlockTracker}
    {pieceId begin : UInt32} (h : tracker.setRequestFinished pieceId begin = some tracker')
    : ∃ blocks, tracker.blocks.setRequestFinished pieceId begin = some blocks
        ∧ tracker' = tracker.setBlocks blocks := by
  unfold setRequestFinished at h
  simp only [Option.bind_eq_bind, Option.bind_eq_some_iff, Option.pure_def, Option.some.injEq] at h
  obtain ⟨blocks, hblocks, rfl⟩ := h
  exact ⟨blocks, hblocks, rfl⟩

theorem blockDone_setRequestFinished {tracker tracker' : PieceBlockTracker}
    {pieceId begin pieceId' begin' : UInt32}
    (h : tracker.setRequestFinished pieceId begin = some tracker')
    (hdone : tracker'.BlockDone pieceId' begin')
    : (pieceId' = pieceId ∧ begin' = begin) ∨ tracker.BlockDone pieceId' begin' := by
  obtain ⟨blocks, hblocks, rfl⟩ := setBlocks_of_setRequestFinished h
  apply PieceToBlockMap.lookupAt_done_setRequestFinished hblocks pieceId' begin' hdone

abbrev Partitioned (all : Finset UInt32) (tracker : PieceBlockTracker) : Prop :=
  TriPartition all tracker.piecesNotStarted tracker.blocks.pieces tracker.piecesCompleted

variable {all : Finset UInt32}

theorem partitioned_new (maxOutstandingRequests : Nat) (pieces : List V1Piece)
    : (new maxOutstandingRequests pieces).Partitioned
        ((Finset.range pieces.length).image UInt32.ofNat) := by
  have hpieces : (new maxOutstandingRequests pieces).blocks.pieces = ∅ :=
    PieceToBlockMap.pieces_empty
  unfold Partitioned
  rw [hpieces]
  apply TriPartition.start_all _

theorem partitioned_recordRequests {tracker : PieceBlockTracker} {pieceId : UInt32} (now : Nat)
    {requests : List PeerRequestedPiece} (h : tracker.Partitioned all)
    (hpiece : pieceId ∈ tracker.getIncompletePieces)
    (hindex : ∀ req ∈ requests, req.index = pieceId)
    : (tracker.recordRequests pieceId now requests).Partitioned all := by
  have hmem : pieceId ∈ tracker.piecesNotStarted ∪ tracker.blocks.pieces := by
    rw [Finset.union_comm]
    exact hpiece
  unfold Partitioned
  rw [pieces_recordRequests tracker now hindex]
  unfold recordRequests
  dsimp only
  split
  . exact h
  . apply h.start hmem

theorem getIncompletePieces_recordRequests {tracker : PieceBlockTracker} {pieceId : UInt32}
    (now : Nat) {requests : List PeerRequestedPiece}
    (hpiece : pieceId ∈ tracker.getIncompletePieces)
    (hindex : ∀ req ∈ requests, req.index = pieceId)
    : (tracker.recordRequests pieceId now requests).getIncompletePieces
        =
      tracker.getIncompletePieces := by
  unfold getIncompletePieces at hpiece ⊢
  rw [pieces_recordRequests tracker now hindex]
  unfold recordRequests
  dsimp only
  split
  . rfl
  . grind

theorem partitioned_generateAssignments {torrent : V1Torrent} {now : UInt32 → Nat}
    {tracker tracker' : PieceBlockTracker} {available : List (UInt32 × List PeerId)}
    {requests : List PeerRequestedPiece} (htracker : tracker.Partitioned all)
    (hincomplete : ∀ entry ∈ available, entry.1 ∈ tracker.getIncompletePieces)
    (h : (generateAssignments build torrent now tracker available
      : Outcome ε (List PeerRequestedPiece × PieceBlockTracker)) = .ok (requests, tracker'))
    : tracker'.Partitioned all := by
  have hinvariant : tracker'.Partitioned all
      ∧ tracker'.getIncompletePieces = tracker.getIncompletePieces := by
    apply generateAssignments_invariant
      (P := fun t => t.Partitioned all ∧ t.getIncompletePieces = tracker.getIncompletePieces) h
    . intro tracker1 pieceId now requests ⟨peerIds, hmem⟩ hindex ⟨h1, h2⟩
      have hpiece : pieceId ∈ tracker1.getIncompletePieces := by
        rw [h2]
        exact hincomplete _ hmem
      refine ⟨partitioned_recordRequests now h1 hpiece hindex, ?_⟩
      rw [getIncompletePieces_recordRequests now hpiece hindex, h2]
    . exact ⟨htracker, rfl⟩
  exact hinvariant.1

theorem partitioned_removeRequest_iff (tracker : PieceBlockTracker) (req : PeerRequestedPiece)
    : (tracker.removeRequest req).2.Partitioned all ↔ tracker.Partitioned all := by
  unfold Partitioned removeRequest
  dsimp only
  rw [blocks_setBlocks, PieceToBlockMap.pieces_removeDownloadingRequest]
  rfl

theorem partitioned_removeExpired_iff (tracker : PieceBlockTracker) (now : Nat)
    : (tracker.removeExpired now).2.Partitioned all ↔ tracker.Partitioned all := by
  have hpieces : (tracker.removeExpired now).2.blocks.pieces = tracker.blocks.pieces :=
    InprogressPieceToBlockMap.expire_pieces _ _ _ _
  unfold Partitioned
  rw [hpieces]
  rfl

theorem partitioned_setRequestFinished_iff {tracker tracker' : PieceBlockTracker}
    {pieceId begin : UInt32} (h : tracker.setRequestFinished pieceId begin = some tracker')
    : tracker'.Partitioned all ↔ tracker.Partitioned all := by
  obtain ⟨blocks, hblocks, rfl⟩ := setBlocks_of_setRequestFinished h
  unfold Partitioned
  rw [blocks_setBlocks, PieceToBlockMap.pieces_setRequestFinished hblocks]
  rfl

theorem partitioned_setPieceFinished_iff {tracker : PieceBlockTracker} (pieceId : UInt32)
    (h : tracker.Partitioned all)
    : (tracker.setPieceFinished pieceId).Partitioned all
        ↔
      pieceId ∈ tracker.blocks.pieces ∪ tracker.piecesCompleted := by
  have hpieces : (tracker.setPieceFinished pieceId).blocks.pieces
      = tracker.blocks.pieces.erase pieceId :=
    PieceToBlockMap.pieces_removePiece _ _
  unfold Partitioned
  rw [hpieces]
  constructor
  . intro h'
    by_contra hmem
    apply h.not_finish hmem h'
  . intro hmem
    apply h.finish hmem

end PieceBlockTracker
