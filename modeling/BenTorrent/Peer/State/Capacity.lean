import BenTorrent.Peer.State.Rebuild

/-!
This module contains that no more requests are out than allowed, and that an assignment leaves a block
it could ask for only when as many are.
-/

open Rust

/--
The tracker with calls that each come with a torrent of their own.
-/
def trackersTask (build : Build)
    : Machine PieceBlockTracker (V1Torrent × TrackerEvent) TrackerReply where
  step tracker
    | (torrent, event) => (trackerTask build torrent).step tracker event

variable {build : Build} {torrent : V1Torrent}

open PieceBlockAllocation (blockBegins mem_blockBegins pieceSize OffsetsFit)

namespace PieceBlockAllocation

theorem requestsToMake_ok {pieceSize : Nat} {begins : List Nat}
    (h : ∀ begin ∈ begins, begin + pieceBlockSize < 2 ^ 64) (pieceId : UInt32) (peerId : PeerId)
    (requested : PieceToBlockMap) (capacity : Nat)
    : ∃ requests, (requestsToMake build pieceId pieceSize peerId requested capacity begins
        : Outcome ε _) = .ok requests := by
  induction begins generalizing capacity with
  | nil => exact ⟨[], by simp [requestsToMake, pure, Except.pure]⟩
  | cons begin begins ih =>
    rw [List.forall_mem_cons] at h
    cases capacity with
    | zero => exact ⟨[], rfl⟩
    | succ capacity =>
      unfold requestsToMake
      split
      . exact ih h.2 (capacity + 1)
      . obtain ⟨requests, hrequests⟩ := ih h.2 capacity
        rw [hrequests, blockRequest, Build.usizeAdd_of_fits _ _ _ h.1]
        exact ⟨_, rfl⟩

theorem new_cons_of_pieceSize {pieceId : UInt32} {size : Nat}
    (h : (pieceSize build torrent pieceId : Outcome ε Nat) = .ok size) (peerId : PeerId)
    (peerIds : List PeerId) (requested : PieceToBlockMap) (capacity : Nat)
    : (new build pieceId torrent (peerId :: peerIds) requested capacity : Outcome ε _)
        =
      (requestsToMake build pieceId size peerId requested capacity (blockBegins size)).map some := by
  unfold pieceSize at h
  simp only [Outcome.bind_eq_ok, pure, Except.pure, Except.ok.injEq] at h
  obtain ⟨allocation, halloc, lastPieceId, hlast, rfl⟩ := h
  unfold new
  dsimp only
  rw [halloc, Outcome.ok_bind, hlast, Outcome.ok_bind]
  rfl

end PieceBlockAllocation

/--
How long the piece with the index is, and any that the torrent does not have is taken to be.
-/
def V1TorrentInfo.pieceSize (info : V1TorrentInfo) (index : Nat) : Int :=
  if index + 1 = info.pieces.length then
    info.length.toInt - (info.pieces.length - 1) * info.pieceLength.toInt
  else
    info.pieceLength.toInt

theorem TorrentAllocation.LaidOut.len_eq_pieceSize {allocation : TorrentAllocation}
    {info : V1TorrentInfo} (h : LaidOut allocation info) (index : Nat)
    : (allocation.len index : Int) = info.pieceSize index := by
  have hpos := h.totalPieces_pos
  have htotal := h.totalPieces_eq
  unfold TorrentAllocation.len V1TorrentInfo.pieceSize
  by_cases hlast : index = allocation.totalPieces - 1
  . rw [if_pos hlast, if_pos (by omega), ← h.length_eq, ← h.maxPieceSize_eq, ← htotal]
    push_cast [hpos]
    omega
  . rw [if_neg hlast, if_neg (by omega), h.maxPieceSize_eq]

namespace PieceBlockTracker

structure Bounded (maxOutstandingRequests : Nat) (tracker : PieceBlockTracker) : Prop where
  max_eq : tracker.maxOutstandingRequests = maxOutstandingRequests
  len_le : tracker.downloadingRequestsLen ≤ maxOutstandingRequests

theorem Bounded.usizeSub {maxOutstandingRequests : Nat} {tracker : PieceBlockTracker}
    (h : tracker.Bounded maxOutstandingRequests) (hmax : maxOutstandingRequests < 2 ^ 64)
    : (build.usizeSub tracker.maxOutstandingRequests tracker.downloadingRequestsLen
        : Outcome ε Nat)
        =
      .ok (maxOutstandingRequests - tracker.downloadingRequestsLen) := by
  have hle := h.len_le
  rw [h.max_eq, Build.usizeSub_of_fits _ _ _ hle (by omega)]

theorem bounded_new (maxOutstandingRequests : Nat) (pieces : List V1Piece)
    : (new maxOutstandingRequests pieces).Bounded maxOutstandingRequests := by
  constructor
  . rfl
  . have hzero : (new maxOutstandingRequests pieces).downloadingRequestsLen = 0 := by
      unfold downloadingRequestsLen PieceToBlockMap.downloadingRequestsLen
      rw [NestedMap.size_eq_zero_iff]
      intro pieceId begin
      apply NestedMap.lookupAt_empty
    omega

theorem Bounded.of_downloading_le {maxOutstandingRequests : Nat}
    {tracker tracker' : PieceBlockTracker} (h : tracker.Bounded maxOutstandingRequests)
    (hmax : tracker'.maxOutstandingRequests = tracker.maxOutstandingRequests)
    (hdownloading : ∀ pieceId begin download,
      tracker'.blocks.downloading.lookupAt pieceId begin = some download →
        tracker.blocks.downloading.lookupAt pieceId begin = some download)
    : tracker'.Bounded maxOutstandingRequests := by
  constructor
  . rw [hmax, h.max_eq]
  . apply Nat.le_trans _ h.len_le
    apply NestedMap.size_mono
    intro pieceId begin hsome
    obtain ⟨download, hdownload⟩ := Option.isSome_iff_exists.mp hsome
    rw [hdownloading pieceId begin download hdownload]
    rfl

theorem downloadingRequestsLen_recordRequests_le (tracker : PieceBlockTracker) (pieceId : UInt32)
    (now : Nat) (requests : List PeerRequestedPiece)
    : (tracker.recordRequests pieceId now requests).downloadingRequestsLen
        ≤
      tracker.downloadingRequestsLen + requests.length := by
  have hsize : ∀ m : InprogressPieceToBlockMap,
      (requests.foldl (fun m req => m.insert now req) m).pieceToBlocksStarted.downloading.size
        ≤ m.pieceToBlocksStarted.downloading.size + requests.length := by
    induction requests with
    | nil => exact fun m => Nat.le_refl _
    | cons req requests ih =>
      intro m
      have hinsert : (m.insert now req).pieceToBlocksStarted.downloading.size
          ≤ m.pieceToBlocksStarted.downloading.size + 1 := NestedMap.size_insertAt_le _ _ _ _
      have hrest := ih (m.insert now req)
      rw [List.foldl_cons, List.length_cons]
      omega
  exact hsize tracker.pieceToBlocksOutstanding

theorem Bounded.length_assignPiece_le {maxOutstandingRequests : Nat}
    {tracker tracker' : PieceBlockTracker} {pieceId : UInt32} {peerIds : List PeerId} {now : Nat}
    {requests : List PeerRequestedPiece} (h : tracker.Bounded maxOutstandingRequests)
    (hmax : maxOutstandingRequests < 2 ^ 64)
    (hassign : (tracker.assignPiece build torrent pieceId peerIds now : Outcome AnyError _)
      = .ok (requests, tracker'))
    : requests.length ≤ maxOutstandingRequests - tracker.downloadingRequestsLen := by
  cases assignedPiece_of_assignPiece hassign with
  | nobody => exact Nat.zero_le _
  | made hcapacity _ hmake =>
    rw [h.usizeSub hmax, Except.ok.injEq] at hcapacity
    rw [hcapacity]
    exact (PieceBlockAllocation.requestsToMake_eq_ok hmake).2.1

theorem Bounded.assignPiece {maxOutstandingRequests : Nat} {tracker tracker' : PieceBlockTracker}
    {pieceId : UInt32} {peerIds : List PeerId} {now : Nat} {requests : List PeerRequestedPiece}
    (h : tracker.Bounded maxOutstandingRequests) (hmax : maxOutstandingRequests < 2 ^ 64)
    (hassign : (tracker.assignPiece build torrent pieceId peerIds now : Outcome AnyError _)
      = .ok (requests, tracker'))
    : tracker'.Bounded maxOutstandingRequests := by
  have hlen := h.length_assignPiece_le hmax hassign
  obtain ⟨rfl, _⟩ := assignPiece_eq_ok hassign
  have hle := h.len_le
  have hrecord := downloadingRequestsLen_recordRequests_le tracker pieceId now requests
  constructor
  . exact h.max_eq
  . omega

theorem Bounded.generateAssignments {maxOutstandingRequests : Nat}
    {tracker tracker' : PieceBlockTracker} {now : UInt32 → Nat}
    {available : List (UInt32 × List PeerId)} {requests : List PeerRequestedPiece}
    (h : tracker.Bounded maxOutstandingRequests) (hmax : maxOutstandingRequests < 2 ^ 64)
    (hassign : (tracker.generateAssignments build torrent now available : Outcome AnyError _)
      = .ok (requests, tracker'))
    : tracker'.Bounded maxOutstandingRequests := by
  induction available generalizing tracker requests with
  | nil =>
    rwa [(PieceBlockTracker.generateAssignments_nil hassign).2]
  | cons entry available ih =>
    obtain ⟨pieceId, peerIds⟩ := entry
    obtain ⟨requests1, tracker1, requests2, hpiece, hothers, _⟩ :=
      PieceBlockTracker.generateAssignments_cons hassign
    exact ih (h.assignPiece hmax hpiece) hothers

theorem Bounded.step {maxOutstandingRequests : Nat} {tracker tracker' : PieceBlockTracker}
    {event : TrackerEvent} {reply : TrackerReply} (h : tracker.Bounded maxOutstandingRequests)
    (hmax : maxOutstandingRequests < 2 ^ 64)
    (hstep : (trackerTask build torrent).step tracker event = some (reply, tracker'))
    : tracker'.Bounded maxOutstandingRequests := by
  cases called_of_step hstep with
  | assigned hassign => exact h.generateAssignments hmax hassign
  | finished hset =>
    apply h.of_downloading_le
    . exact maxOutstandingRequests_setRequestFinished hset
    . exact fun _ _ _ => downloading_setRequestFinished_le hset
  | notFound => exact h
  | removed =>
    apply h.of_downloading_le
    . rfl
    . exact fun _ _ _ => downloading_removeRequest_le
  | expired =>
    apply h.of_downloading_le
    . rfl
    . exact fun _ _ _ => downloading_removeExpired_le
  | pieceFinished =>
    apply h.of_downloading_le
    . rfl
    . exact fun _ _ _ => downloading_setPieceFinished_le

theorem bounded_of_run {maxOutstandingRequests : Nat} {pieces : List V1Piece}
    {tr : List ((V1Torrent × TrackerEvent) × TrackerReply)} {tracker : PieceBlockTracker}
    (hmax : maxOutstandingRequests < 2 ^ 64)
    (hrun : (trackersTask build).Run (.new maxOutstandingRequests pieces) tr tracker)
    : tracker.Bounded maxOutstandingRequests := by
  apply hrun.invariant (P := Bounded maxOutstandingRequests) _ (bounded_new _ pieces)
  intro tracker1 event reply tracker2 _ hstep h
  obtain ⟨torrent, event⟩ := event
  exact h.step hmax hstep

/--
The bound holds, also wherever a call that assigns pieces gets to: `available` are the pieces it
has dealt with when it takes what is out from the bound.
-/
structure BoundsInFlight (build : Build) (tracker : PieceBlockTracker) : Prop where
  len_le : tracker.downloadingRequestsLen ≤ tracker.maxOutstandingRequests
  usizeSub_eq : ∀ torrent now available requests tracker',
    (tracker.generateAssignments build torrent now available : Outcome AnyError _)
        = .ok (requests, tracker') →
      tracker'.downloadingRequestsLen ≤ tracker'.maxOutstandingRequests
        ∧ (build.usizeSub tracker'.maxOutstandingRequests tracker'.downloadingRequestsLen
            : Outcome AnyError Nat)
          = .ok (tracker'.maxOutstandingRequests - tracker'.downloadingRequestsLen)

theorem boundsInFlight_of_run (build : Build) (maxOutstandingRequests : Nat)
    (pieces : List V1Piece) (tr : List ((V1Torrent × TrackerEvent) × TrackerReply))
    (tracker : PieceBlockTracker) (hmax : maxOutstandingRequests < 2 ^ 64)
    (hrun : (trackersTask build).Run (.new maxOutstandingRequests pieces) tr tracker)
    : tracker.maxOutstandingRequests = maxOutstandingRequests ∧ tracker.BoundsInFlight build := by
  have h := bounded_of_run hmax hrun
  refine ⟨h.max_eq, ?_, ?_⟩
  . rw [h.max_eq]
    exact h.len_le
  . intro torrent now available requests tracker' hassign
    have h' := h.generateAssignments hmax hassign
    rw [h'.usizeSub hmax, h'.max_eq]
    exact ⟨h'.len_le, rfl⟩

theorem boundsInFlight_twoTorrents
    : ∃ tracker : PieceBlockTracker, tracker.downloadingRequestsLen = 1
        ∧ tracker.maxOutstandingRequests = 1 ∧ tracker.BoundsInFlight ⟨true⟩ := by
  let torrent := torrentFixture 2 2 [[1, 2]]
  let torrent' := torrentFixture 16385 32770 [[1], [2]]
  let tracker0 := PieceBlockTracker.new 1 torrent.info.pieces
  let tracker1 := tracker0.recordRequests 0 0 [⟨[5], 0, 0, 2⟩]
  have hrun : (trackersTask ⟨true⟩).Run tracker0
      [((torrent, .generateAssignments [(0, [[5]])] fun _ => 0), .assigned [⟨[5], 0, 0, 2⟩]),
        ((torrent', .generateAssignments [(1, [[5]])] fun _ => 0), .assigned [])] tracker1 :=
    .cons trivial (by decide +kernel : _ = some (_, tracker1))
      (.cons trivial (by decide +kernel) (.nil _))
  have h := boundsInFlight_of_run ⟨true⟩ 1 torrent.info.pieces _ tracker1 (by decide) hrun
  exact ⟨tracker1, by decide +kernel, h.1, h.2⟩

section

variable {maxOutstandingRequests : Nat} {tracker tracker' : PieceBlockTracker}
  {requests : List PeerRequestedPiece} {now : UInt32 → Nat} {available : List (UInt32 × List PeerId)}

theorem Bounded.assignPiece_ok (h : tracker.Bounded maxOutstandingRequests)
    (hmax : maxOutstandingRequests < 2 ^ 64) {pieceId : UInt32} {size : Nat}
    (hsize : (pieceSize build torrent pieceId : Outcome AnyError Nat) = .ok size)
    (hlt : size < 2 ^ 63) (peerIds : List PeerId) (now : Nat)
    : ∃ requests tracker', (tracker.assignPiece build torrent pieceId peerIds now
        : Outcome AnyError _) = .ok (requests, tracker') := by
  unfold PieceBlockTracker.assignPiece
  rw [h.usizeSub hmax, Outcome.ok_bind]
  cases peerIds with
  | nil => exact ⟨[], tracker, rfl⟩
  | cons peerId peerIds =>
    have hbegins : ∀ begin ∈ blockBegins size, begin + pieceBlockSize < 2 ^ 64 := by
      intro begin hbegin
      rw [mem_blockBegins] at hbegin
      unfold pieceBlockSize
      omega
    rw [PieceBlockAllocation.new_cons_of_pieceSize hsize]
    obtain ⟨requests, hrequests⟩ := PieceBlockAllocation.requestsToMake_ok (ε := AnyError) hbegins
      pieceId peerId tracker.blocks (maxOutstandingRequests - tracker.downloadingRequestsLen)
    rw [hrequests]
    exact ⟨_, _, rfl⟩

theorem Bounded.generateAssignments_ok (h : tracker.Bounded maxOutstandingRequests)
    (hmax : maxOutstandingRequests < 2 ^ 64)
    (hsize : ∀ entry ∈ available, ∃ size < 2 ^ 63,
      (pieceSize build torrent entry.1 : Outcome AnyError Nat) = .ok size)
    : ∃ requests tracker', (tracker.generateAssignments build torrent now available
        : Outcome AnyError _) = .ok (requests, tracker') := by
  induction available generalizing tracker with
  | nil => exact ⟨[], tracker, rfl⟩
  | cons entry available ih =>
    obtain ⟨pieceId, peerIds⟩ := entry
    rw [List.forall_mem_cons] at hsize
    obtain ⟨⟨size, hlt, hsize⟩, hothers⟩ := hsize
    obtain ⟨requests1, tracker1, hpiece⟩ := h.assignPiece_ok hmax hsize hlt peerIds (now pieceId)
    obtain ⟨requests2, tracker2, hrest⟩ := ih (h.assignPiece hmax hpiece) hothers
    unfold PieceBlockTracker.generateAssignments
    rw [hpiece, Outcome.ok_bind]
    dsimp only
    rw [hrest]
    exact ⟨_, _, rfl⟩

theorem Bounded.assignPiece_saturates {pieceId : UInt32} {peerIds : List PeerId} {now : Nat}
    (h : tracker.Bounded maxOutstandingRequests) (hmax : maxOutstandingRequests < 2 ^ 64)
    (hfit : OffsetsFit build torrent pieceId) (hpeers : peerIds ≠ [])
    (hassign : (tracker.assignPiece build torrent pieceId peerIds now : Outcome AnyError _)
      = .ok (requests, tracker'))
    : tracker'.downloadingRequestsLen = maxOutstandingRequests
        ∨ ∃ size, (pieceSize build torrent pieceId : Outcome AnyError Nat) = .ok size
            ∧ ∀ begin ∈ blockBegins size, tracker'.Held ⟨pieceId, UInt32.ofNat begin⟩ := by
  obtain ⟨size, capacity, hsize, hcapacity, hcomplete⟩ := assignPiece_complete hfit hassign hpeers
  rw [h.usizeSub hmax, Except.ok.injEq] at hcapacity
  have hle := h.len_le
  have hlen := (assignPiece_len hfit hassign).2
  cases hcomplete with
  | inl hfull =>
    left
    omega
  | inr hheld => exact .inr ⟨size, hsize, hheld⟩

theorem Bounded.generateAssignments_saturates (h : tracker.Bounded maxOutstandingRequests)
    (hmax : maxOutstandingRequests < 2 ^ 64)
    (hfit : ∀ entry ∈ available, OffsetsFit build torrent entry.1)
    (hassign : (tracker.generateAssignments build torrent now available : Outcome AnyError _)
      = .ok (requests, tracker'))
    : tracker'.downloadingRequestsLen = maxOutstandingRequests
        ∨ ∀ entry ∈ available, entry.2 ≠ [] →
            ∃ size, (pieceSize build torrent entry.1 : Outcome AnyError Nat) = .ok size
              ∧ ∀ begin ∈ blockBegins size, tracker'.Held ⟨entry.1, UInt32.ofNat begin⟩ := by
  induction available generalizing tracker requests with
  | nil => exact .inr (by simp)
  | cons entry available ih =>
    obtain ⟨pieceId, peerIds⟩ := entry
    rw [List.forall_mem_cons] at hfit
    obtain ⟨requests1, tracker1, requests2, hpiece, hothers, _⟩ :=
      PieceBlockTracker.generateAssignments_cons hassign
    have h1 := h.assignPiece hmax hpiece
    have hlen := (generateAssignments_len hfit.2 hothers).2
    have hheld := (generateAssignments_assigns hfit.2 hothers).held_iff
    cases ih h1 hfit.2 hothers with
    | inl hfull => exact .inl hfull
    | inr hrest =>
      by_cases hpeers : peerIds = []
      . right
        rw [List.forall_mem_cons]
        exact ⟨fun hne => absurd hpeers hne, hrest⟩
      . cases h.assignPiece_saturates hmax hfit.1 hpeers hpiece with
        | inl hfull =>
          -- a full tracker stays full
          have hle := (h1.generateAssignments hmax hothers).len_le
          left
          omega
        | inr hpieceHeld =>
          obtain ⟨size, hsize, hblocks⟩ := hpieceHeld
          right
          rw [List.forall_mem_cons]
          refine ⟨fun _ => ⟨size, hsize, ?_⟩, hrest⟩
          intro begin hbegin
          rw [hheld]
          exact .inl (hblocks begin hbegin)

end

/--
The call returns, and as many requests are out as allowed, or every block of the pieces that someone
has is out or was answered.
-/
def AssignsAll (build : Build) (torrent : V1Torrent) (tracker : PieceBlockTracker)
    (now : UInt32 → Nat) (available : List (UInt32 × List PeerId)) : Prop :=
  ∃ requests tracker',
    (tracker.generateAssignments build torrent now available : Outcome AnyError _)
        = .ok (requests, tracker')
      ∧ (tracker'.downloadingRequestsLen = tracker'.maxOutstandingRequests
        ∨ ∀ entry ∈ available, entry.2 ≠ [] → ∀ begin : Nat, begin % pieceBlockSize = 0 →
            (begin : Int) < torrent.info.pieceSize entry.1.toNat →
              (tracker'.blocks.downloading.lookupAt entry.1 (UInt32.ofNat begin)).isSome
                ∨ (tracker'.blocks.done.lookupAt entry.1 (UInt32.ofNat begin)).isSome)

theorem assignsAll_of_run (build : Build) (torrent : V1Torrent) (maxOutstandingRequests : Nat)
    (pieces : List V1Piece) (tr : List ((V1Torrent × TrackerEvent) × TrackerReply))
    (tracker : PieceBlockTracker) (now : UInt32 → Nat) (available : List (UInt32 × List PeerId))
    (hmax : maxOutstandingRequests < 2 ^ 64) (hconsistent : torrent.info.Consistent)
    (hpieces : torrent.info.pieces.length < 2 ^ 32)
    (hlt : ∀ entry ∈ available, torrent.info.pieceSize entry.1.toNat < 2 ^ 32)
    (hrun : (trackersTask build).Run (.new maxOutstandingRequests pieces) tr tracker)
    : AssignsAll build torrent tracker now available := by
  obtain ⟨allocation, halloc, hlaid⟩ :=
    TorrentAllocation.allocateTorrent_of_consistent (ε := AnyError) build torrent hconsistent
  have hsize := PieceBlockAllocation.pieceSize_of_laidOut halloc hlaid hpieces
  have hlen := hlaid.len_eq_pieceSize
  have h := bounded_of_run hmax hrun
  have hsizes : ∀ entry ∈ available, ∃ size < 2 ^ 63,
      (pieceSize build torrent entry.1 : Outcome AnyError Nat) = .ok size := by
    intro entry hentry
    refine ⟨_, ?_, hsize entry.1⟩
    have := hlt entry hentry
    rw [← hlen] at this
    omega
  have hfit : ∀ entry ∈ available, OffsetsFit build torrent entry.1 := by
    intro entry hentry size heq
    rw [hsize, Except.ok.injEq] at heq
    have := hlt entry hentry
    rw [← hlen, heq] at this
    omega
  obtain ⟨requests, tracker', hassign⟩ : ∃ requests tracker',
      (tracker.generateAssignments build torrent now available : Outcome AnyError _)
        = .ok (requests, tracker') := h.generateAssignments_ok hmax hsizes
  refine ⟨requests, tracker', hassign, ?_⟩
  rw [(h.generateAssignments hmax hassign).max_eq]
  apply (h.generateAssignments_saturates hmax hfit hassign).imp_right
  intro hall entry hentry hpeers begin hmod hbegin
  obtain ⟨size, heq, hblocks⟩ := hall entry hentry hpeers
  rw [hsize, Except.ok.injEq] at heq
  rw [← hlen, heq] at hbegin
  exact held_iff.mp (hblocks begin (mem_blockBegins.mpr ⟨hmod, by omega⟩))

theorem assignsAll_secondPiece
    : ∃ tracker : PieceBlockTracker, tracker.downloadingRequestsLen = 1
        ∧ AssignsAll ⟨true⟩ (torrentFixture 2 3 [[1, 2], [7]]) tracker (fun _ => 0)
            [(0, [[6]]), (1, [[5], [6]])] := by
  let torrent := torrentFixture 2 3 [[1, 2], [7]]
  let tracker0 := PieceBlockTracker.new 4 torrent.info.pieces
  let tracker1 := tracker0.recordRequests 0 0 [⟨[5], 0, 0, 2⟩]
  have hrun : (trackersTask ⟨true⟩).Run tracker0
      [((torrent, .generateAssignments [(0, [[5]])] fun _ => 0), .assigned [⟨[5], 0, 0, 2⟩])]
      tracker1 :=
    .cons trivial (by decide +kernel) (.nil _)
  exact ⟨tracker1, by decide +kernel, assignsAll_of_run ⟨true⟩ torrent 4 torrent.info.pieces _
    tracker1 (fun _ => 0) [(0, [[6]]), (1, [[5], [6]])] (by decide) (by decide +kernel)
    (by decide +kernel) (by decide +kernel) hrun⟩

end PieceBlockTracker
