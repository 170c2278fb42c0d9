import BenTorrent.Peer.State.Capacity
import BenTorrent.Peer.State.History

/-!
This module contains when a request that could not be sent leaves no trace in the tracker.
-/

open Rust

open PieceBlockAllocation (blockBegins requestsToMake OffsetsFit)

variable {build : Build} {torrent : V1Torrent}

namespace PieceBlockAllocation

theorem requestsToMake_eq_map {pieceId : UInt32} {pieceSize : Nat} {peerId : PeerId}
    {requested : PieceToBlockMap} {begins : List Nat}
    (hfits : ∀ begin ∈ begins, begin + pieceBlockSize < 2 ^ 64)
    (hnew : ∀ begin ∈ begins, requested.containsInprogress pieceId (UInt32.ofNat begin) = none)
    {capacity : Nat} (hcapacity : begins.length ≤ capacity)
    : (requestsToMake build pieceId pieceSize peerId requested capacity begins : Outcome ε _)
        =
      .ok (begins.map fun begin => {
        peerId
        index := pieceId
        begin := UInt32.ofNat begin
        length := UInt32.ofNat
          (if pieceSize < begin + pieceBlockSize then pieceSize - begin else pieceBlockSize)
      }) := by
  induction begins generalizing capacity with
  | nil => cases capacity <;> rfl
  | cons begin begins ih =>
    rw [List.forall_mem_cons] at hfits hnew
    cases capacity with
    | zero => contradiction
    | succ capacity =>
      rw [List.length_cons, Nat.succ_le_succ_iff] at hcapacity
      unfold requestsToMake
      rw [if_neg (by rw [hnew.1]; simp), ih hfits.2 hnew.2 hcapacity, blockRequest,
        Build.usizeAdd_of_fits _ _ _ hfits.1]
      rfl

end PieceBlockAllocation

namespace PieceBlockTracker

def AssignsIncomplete (tracker : PieceBlockTracker) : TrackerEvent → Prop
  | .generateAssignments available _ => ∀ entry ∈ available, entry.1 ∈ tracker.getIncompletePieces
  | _ => True

theorem getIncompletePieces_run {tracker tracker' : PieceBlockTracker}
    {tr : List (TrackerEvent × TrackerReply)}
    (hrun : (trackerTask build torrent).RunWhile AssignsIncomplete tracker tr tracker')
    : tracker'.getIncompletePieces ⊆ tracker.getIncompletePieces := by
  apply hrun.invariant
    (P := fun tracker' => tracker'.getIncompletePieces ⊆ tracker.getIncompletePieces)
  . intro tracker1 event reply tracker2 hguard hstep h
    refine (getIncompletePieces_called (called_of_step hstep) ?_).trans h
    rintro available now rfl
    exact hguard
  . exact Finset.Subset.refl _

theorem Bounded.generateAssignments_assigns {maxOutstandingRequests : Nat}
    {tracker tracker' : PieceBlockTracker} {now : UInt32 → Nat}
    {available : List (UInt32 × List PeerId)} {requests : List PeerRequestedPiece}
    (h : tracker.Bounded maxOutstandingRequests) (hmax : maxOutstandingRequests ≤ 1)
    (hassign : (tracker.generateAssignments build torrent now available : Outcome AnyError _)
      = .ok (requests, tracker'))
    : tracker.Assigns requests tracker' := by
  induction available generalizing tracker requests with
  | nil =>
    obtain ⟨rfl, rfl⟩ := PieceBlockTracker.generateAssignments_nil hassign
    exact .refl _
  | cons entry available ih =>
    obtain ⟨pieceId, peerIds⟩ := entry
    obtain ⟨requests1, tracker1, requests2, hpiece, hothers, rfl⟩ :=
      PieceBlockTracker.generateAssignments_cons hassign
    have hlen := h.length_assignPiece_le (by omega) hpiece
    -- a single request is for a block of its own
    have hnodup : (requests1.map PeerRequestedPiece.key).Nodup := by
      rcases requests1 with _ | ⟨req, _ | ⟨req', others⟩⟩
      . exact List.nodup_nil
      . exact List.nodup_singleton _
      . rw [List.length_cons, List.length_cons] at hlen
        omega
    exact (assignPiece_assigns_of_nodup hnodup hpiece).append
      (ih (h.assignPiece (by omega) hpiece) hothers)

section

variable {tracker tracker' : PieceBlockTracker} {requests : List PeerRequestedPiece}
  {req req' : PeerRequestedPiece}

theorem Assigns.pos_unique (h : tracker.Assigns requests tracker') {pos pos' : Nat}
    (hget : requests[pos]? = some req) (hget' : requests[pos']? = some req')
    (hkey : req.key = req'.key)
    : pos = pos' := by
  have hlt := (List.getElem?_eq_some_iff.mp hget).1
  apply (List.getElem?_inj (by rwa [List.length_map]) h.nodup).mp
  rw [List.getElem?_map, List.getElem?_map, hget, hget', Option.map_some, Option.map_some, hkey]

theorem Assigns.downloading_ne_some (h : tracker.Assigns requests tracker') (hmem : req' ∈ requests)
    (hkey : req'.key = req.key) {download : BlockDownload}
    : tracker.blocks.downloading.lookupAt req.index req.begin ≠ some download := by
  have hfresh := h.fresh req' hmem
  rw [hkey, PieceBlockTracker.held_iff, not_or, Option.not_isSome_iff_eq_none] at hfresh
  intro hold
  exact nomatch hfresh.1.symm.trans hold

theorem Assigns.downloading_iff (h : tracker.Assigns requests tracker')
    : tracker'.blocks.downloading.lookupAt req.index req.begin = some ⟨req⟩
        ↔
      req ∈ requests ∨ tracker.blocks.downloading.lookupAt req.index req.begin = some ⟨req⟩ := by
  rw [h.downloading]
  cases hfind : requests.find? fun req' => req'.key = ⟨req.index, req.begin⟩ with
  | none =>
    rw [List.find?_eq_none] at hfind
    have hnot : req ∉ requests := fun hmem => hfind req hmem (decide_eq_true rfl)
    simp [hnot]
  | some req' =>
    have hmem := List.mem_of_find?_eq_some hfind
    have hkey := List.find?_some hfind
    rw [decide_eq_true_eq] at hkey
    rw [Option.map_some, Option.some_or, Option.some.injEq, BlockDownload.mk.injEq]
    constructor
    . rintro rfl
      exact .inl hmem
    . rintro (hmem' | hold)
      . exact List.inj_on_of_nodup_map h.nodup hmem hmem' hkey
      . exact absurd hold (h.downloading_ne_some hmem hkey)

end

end PieceBlockTracker

namespace TorrentState

theorem downloading_dispatchRequests_iff {delivered : Nat → Bool} {tracker : PieceBlockTracker}
    {requests : List PeerRequestedPiece} {download : BlockDownload} (key : PieceToBlockKey)
    : (dispatchRequests delivered tracker requests).blocks.downloading.lookupAt
        key.pieceId key.blockBegin = some download
        ↔
      tracker.blocks.downloading.lookupAt key.pieceId key.blockBegin = some download
        ∧ ∀ x ∈ requests.zipIdx, x.1.key = key → delivered x.2 = true := by
  unfold dispatchRequests
  generalize requests.zipIdx = requests
  induction requests generalizing tracker with
  | nil => simp
  | cons entry requests ih =>
    obtain ⟨req, pos⟩ := entry
    have hremove : (tracker.removeRequest req).2.blocks.downloading.lookupAt
        key.pieceId key.blockBegin
        = if req.key = key then none
          else tracker.blocks.downloading.lookupAt key.pieceId key.blockBegin := by
      obtain ⟨pieceId, begin⟩ := key
      simp only [PieceBlockTracker.removeRequest, PieceToBlockMap.removeDownloadingRequest,
        PieceBlockTracker.blocks_setBlocks, NestedMap.lookupAt_eraseAt, PeerRequestedPiece.key,
        PieceToBlockKey.mk.injEq, eq_comm]
    rw [List.foldl_cons, ih, List.forall_mem_cons]
    dsimp only
    cases delivered pos with
    | true => simp
    | false =>
      simp only [Bool.false_eq_true, if_false, hremove, imp_false]
      by_cases hkey : req.key = key
      . simp [hkey]
      . simp [hkey]

theorem mem_dispatched {delivered : Nat → Bool} {requests : List PeerRequestedPiece}
    {req : PeerRequestedPiece}
    : .send req.peerId (.request req.index req.begin req.length) ∈ dispatched delivered requests
        ↔
      ∃ pos, requests[pos]? = some req ∧ delivered pos = true := by
  unfold dispatched
  simp only [List.mem_map, List.mem_filter, Prod.exists, Effect.send.injEq, Messages.request.injEq,
    List.mem_zipIdx_iff_getElem?]
  constructor
  . rintro ⟨req', pos, ⟨hget, hdelivered⟩, hpeer, hindex, hbegin, hlength⟩
    obtain ⟨peerId, index, begin, length⟩ := req
    obtain ⟨peerId', index', begin', length'⟩ := req'
    dsimp only at hpeer hindex hbegin hlength
    subst hpeer hindex hbegin hlength
    exact ⟨pos, hget, hdelivered⟩
  . rintro ⟨pos, hget, hdelivered⟩
    exact ⟨req, pos, ⟨hget, hdelivered⟩, rfl, rfl, rfl, rfl⟩

end TorrentState

namespace Processor

variable {torrentIo : TorrentIo σ}

theorem step_dispatch {p : Processor σ} {available : List (UInt32 × List PeerId)}
    {now : UInt32 → Nat} {requests : List PeerRequestedPiece} {tracker : PieceBlockTracker}
    (hiterates : TorrentState.Iterates p.torrentState.pieceIdToPeers available)
    (hassign : (p.tracker.generateAssignments build torrent now available : Outcome AnyError _)
      = .ok (requests, tracker)) (delivered : Nat → Bool)
    : (processorTask build torrentIo torrent).step p (.dispatch available now delivered)
        =
      some (TorrentState.dispatched delivered requests,
        p.setTracker (TorrentState.dispatchRequests delivered tracker requests)) := by
  have hassign' : (p.torrentState.pieceBlockTracking.generateAssignments build torrent now available
    : Outcome AnyError _) = .ok (requests, tracker) := hassign
  simp only [processorTask, if_pos hiterates, TorrentState.computeRequestsForDownload, hassign']
  rfl

theorem tracker_run_of_step {p p' : Processor σ} {event : ProcessorEvent} {effects : List Effect}
    (hstep : (processorTask build torrentIo torrent).step p event = some (effects, p'))
    : ∃ tr, (trackerTask build torrent).RunWhile PieceBlockTracker.AssignsIncomplete
        p.tracker tr p'.tracker := by
  cases event with
  | message peerId msg =>
    simp only [processorTask, Option.some.injEq] at hstep
    have htracker := handleMessage_tracker torrentIo p peerId msg
    rw [hstep] at htracker
    rw [htracker]
    exact ⟨[], .nil _⟩
  | handle pos =>
    simp only [processorTask] at hstep
    split at hstep
    . next reply hget =>
      simp only [Option.some.injEq, Prod.mk.injEq] at hstep
      rw [← hstep.2]
      show ∃ tr, (trackerTask build torrent).RunWhile _ p.tracker tr (p.tracker.handleWritten reply)
      unfold PieceBlockTracker.handleWritten
      split
      . exact ⟨_, .cons (i := TrackerEvent.setPieceFinished reply.index) trivial rfl (.nil _)⟩
      . cases hset : p.tracker.setRequestFinished reply.index reply.begin with
        | none => exact ⟨[], .nil _⟩
        | some tracker =>
          refine ⟨_, .cons (i := TrackerEvent.setRequestFinished reply.index reply.begin) (o := .finished true)
            trivial ?_ (.nil _)⟩
          simp only [trackerTask, hset]
          rfl
    . contradiction
  | dispatch available now delivered =>
    obtain ⟨hiterates, requests, tracker, hassign, _, htracker, _⟩ := dispatched_of_step hstep
    rw [htracker]
    apply TorrentState.dispatchRequests_invariant
      (P := fun tracker' => ∃ tr, (trackerTask build torrent).RunWhile
        PieceBlockTracker.AssignsIncomplete p.tracker tr tracker')
    . rintro tracker1 req ⟨tr, hrun⟩
      exact ⟨_, hrun.append (.cons (i := TrackerEvent.removeRequest req) trivial rfl (.nil _))⟩
    . refine ⟨_, .cons (i := TrackerEvent.generateAssignments available now) (o := .assigned requests)
        (entry_mem_getIncompletePieces hiterates) ?_ (.nil _)⟩
      simp only [trackerTask, hassign]
  | tick now =>
    simp only [processorTask, Option.some.injEq, Prod.mk.injEq] at hstep
    rw [← hstep.2]
    exact ⟨_, .cons (i := TrackerEvent.removeExpired now) trivial rfl (.nil _)⟩
  | close peerId =>
    simp only [processorTask, Option.some.injEq, Prod.mk.injEq] at hstep
    rw [← hstep.2]
    refine ⟨[], ?_⟩
    unfold tracker
    dsimp only
    rw [TorrentState.removePeer_pieceBlockTracking]
    exact .nil _

theorem tracker_run {p p' : Processor σ} {tr : List (ProcessorEvent × List Effect)}
    (hrun : (processorTask build torrentIo torrent).Run p tr p')
    : ∃ tr', (trackerTask build torrent).RunWhile PieceBlockTracker.AssignsIncomplete
        p.tracker tr' p'.tracker := by
  induction hrun with
  | nil => exact ⟨[], .nil _⟩
  | cons _ hstep _ ih =>
    obtain ⟨tr1, hrun1⟩ := tracker_run_of_step hstep
    obtain ⟨tr2, hrun2⟩ := ih
    exact ⟨tr1 ++ tr2, hrun1.append hrun2⟩

/--
The requests that are out after a dispatch are those before it and those that were sent, and nothing
else has changed.
-/
structure RollsBack (p : Processor σ) (effects : List Effect) (p' : Processor σ) : Prop where
  downloading_iff : ∀ req : PeerRequestedPiece,
    p'.tracker.blocks.downloading.lookupAt req.index req.begin = some ⟨req⟩
      ↔
    p.tracker.blocks.downloading.lookupAt req.index req.begin = some ⟨req⟩
      ∨ .send req.peerId (.request req.index req.begin req.length) ∈ effects
  done_eq : p'.tracker.blocks.done = p.tracker.blocks.done
  piecesCompleted_eq : p'.tracker.piecesCompleted = p.tracker.piecesCompleted
  getIncompletePieces_eq : p'.tracker.getIncompletePieces = p.tracker.getIncompletePieces

theorem rollsBack_of_assigns {p p' : Processor σ} {available : List (UInt32 × List PeerId)}
    {now : UInt32 → Nat} {delivered : Nat → Bool} {requests : List PeerRequestedPiece}
    {tracker : PieceBlockTracker}
    (hiterates : TorrentState.Iterates p.torrentState.pieceIdToPeers available)
    (hassign : (p.tracker.generateAssignments build torrent now available : Outcome AnyError _)
      = .ok (requests, tracker))
    (htracker : p'.tracker = TorrentState.dispatchRequests delivered tracker requests)
    (hassigns : p.tracker.Assigns requests tracker)
    : RollsBack p (TorrentState.dispatched delivered requests) p' := by
  have hincomplete := PieceBlockTracker.getIncompletePieces_generateAssignments
    (entry_mem_getIncompletePieces hiterates) hassign
  have hkeeps : p'.tracker.blocks.done = tracker.blocks.done
      ∧ p'.tracker.piecesCompleted = tracker.piecesCompleted
      ∧ p'.tracker.getIncompletePieces = tracker.getIncompletePieces := by
    rw [htracker]
    apply TorrentState.dispatchRequests_invariant (P := fun tracker' =>
      tracker'.blocks.done = tracker.blocks.done
        ∧ tracker'.piecesCompleted = tracker.piecesCompleted
        ∧ tracker'.getIncompletePieces = tracker.getIncompletePieces)
    . rintro tracker1 req ⟨hdone, hcompleted, hpieces⟩
      refine ⟨hdone, hcompleted, ?_⟩
      rw [← hpieces]
      unfold PieceBlockTracker.getIncompletePieces PieceBlockTracker.removeRequest
      dsimp only
      rw [PieceBlockTracker.blocks_setBlocks, PieceToBlockMap.pieces_removeDownloadingRequest]
      rfl
    . exact ⟨rfl, rfl, rfl⟩
  have hcompleted : tracker.piecesCompleted = p.tracker.piecesCompleted := by
    apply PieceBlockTracker.generateAssignments_invariant
      (P := fun tracker' => tracker'.piecesCompleted = p.tracker.piecesCompleted) hassign
    . exact fun _ _ _ _ _ _ h => h
    . rfl
  constructor
  . intro req
    have hlookup : p'.tracker.blocks.downloading.lookupAt req.index req.begin = some ⟨req⟩
        ↔ tracker.blocks.downloading.lookupAt req.index req.begin = some ⟨req⟩
          ∧ ∀ x ∈ requests.zipIdx, x.1.key = req.key → delivered x.2 = true := by
      rw [htracker]
      exact TorrentState.downloading_dispatchRequests_iff req.key
    rw [hlookup, hassigns.downloading_iff, TorrentState.mem_dispatched]
    constructor
    . rintro ⟨hmem | hold, hdelivered⟩
      . obtain ⟨pos, hget⟩ := List.mem_iff_getElem?.mp hmem
        exact .inr ⟨pos, hget, hdelivered (req, pos) (List.mem_zipIdx_iff_getElem?.mpr hget) rfl⟩
      . exact .inl hold
    . rintro (hold | ⟨pos, hget, hdelivered⟩)
      . refine ⟨.inr hold, ?_⟩
        intro x hx hkey
        exact absurd hold (hassigns.downloading_ne_some (List.fst_mem_of_mem_zipIdx hx) hkey)
      . refine ⟨.inl (List.mem_of_getElem? hget), ?_⟩
        rintro ⟨req', pos'⟩ hx hkey
        rw [List.mem_zipIdx_iff_getElem?] at hx
        rw [hassigns.pos_unique hx hget hkey]
        exact hdelivered
  . rw [hkeeps.1, hassigns.done_eq]
  . rw [hkeeps.2.1, hcompleted]
  . rw [hkeeps.2.2, hincomplete]

/--
No more than one request is out at a time, or the blocks of every piece begin where a `u32` can say.
-/
def KeysDistinct (build : Build) (torrent : V1Torrent) (maxOutstandingRequests : Nat) : Prop :=
  maxOutstandingRequests ≤ 1
    ∨ ∀ i < torrent.info.pieces.length, OffsetsFit build torrent (UInt32.ofNat i)

theorem rollsBack_of_run (build : Build) (torrentIo : TorrentIo σ) (torrent : V1Torrent)
    (maxOutstandingRequests : Nat) (io : σ) (tr : List (ProcessorEvent × List Effect))
    (p p' : Processor σ) (available : List (UInt32 × List PeerId)) (now : UInt32 → Nat)
    (delivered : Nat → Bool) (effects : List Effect) (hmax : maxOutstandingRequests < 2 ^ 64)
    (hdistinct : KeysDistinct build torrent maxOutstandingRequests)
    (hrun : (processorTask build torrentIo torrent).Run (new maxOutstandingRequests torrent io) tr p)
    (hstep : (processorTask build torrentIo torrent).step p (.dispatch available now delivered)
      = some (effects, p'))
    : RollsBack p effects p' := by
  obtain ⟨tr', htracker⟩ := tracker_run hrun
  obtain ⟨hiterates, requests, tracker, hassign, rfl, heq, _⟩ := dispatched_of_step hstep
  apply rollsBack_of_assigns hiterates hassign heq
  cases hdistinct with
  | inl hone =>
    have hbounded : p.tracker.Bounded maxOutstandingRequests := by
      apply htracker.invariant (P := PieceBlockTracker.Bounded maxOutstandingRequests)
      . intro tracker1 event reply tracker2 _ hcall h
        exact h.step hmax hcall
      . exact PieceBlockTracker.bounded_new maxOutstandingRequests torrent.info.pieces
    exact hbounded.generateAssignments_assigns hone hassign
  | inr hfit =>
    apply PieceBlockTracker.generateAssignments_assigns _ hassign
    intro entry hentry
    -- what is not complete was not started once
    have hmem := PieceBlockTracker.getIncompletePieces_run htracker
      (entry_mem_getIncompletePieces hiterates entry hentry)
    have hnew : (new maxOutstandingRequests torrent io).tracker.getIncompletePieces
        = (Finset.range torrent.info.pieces.length).image UInt32.ofNat := by
      unfold PieceBlockTracker.getIncompletePieces
      rw [show (new maxOutstandingRequests torrent io).tracker.blocks = .empty from rfl,
        PieceToBlockMap.pieces_empty, Finset.empty_union]
      rfl
    rw [hnew, Finset.mem_image] at hmem
    obtain ⟨i, hi, heq⟩ := hmem
    rw [← heq]
    exact hfit i (Finset.mem_range.mp hi)

theorem rollsBack_noPeer
    : ∃ p p' : Processor FileTorrentIo, p.tracker.piecesNotStarted = {0}
        ∧ p'.tracker.piecesNotStarted = ∅ ∧ RollsBack p [] p' := by
  let torrent := torrentFixture 2 2 [[1, 2]]
  let torrentIo := FileTorrentIo.torrentIo ⟨true⟩ Sha1.digest
  let p0 := new 2 torrent (FileTorrentIo.onePieceIo [0, 0] 0 (.new 2))
  let p1 := (p0.handleMessage torrentIo [5] (.flag .unchoke)).2
  let p2 := (p1.handleMessage torrentIo [5] (.have 0)).2
  let p3 := p2.setTracker
    ((p2.tracker.recordRequests 0 0 [Download.onePieceRequest]).removeRequest
      Download.onePieceRequest).2
  have hrun : (processorTask ⟨true⟩ torrentIo torrent).Run p0
      [(.message [5] (.flag .unchoke), [.wake .wakeup]),
        (.message [5] (.have 0), [.send [5] (.flag .interested), .wake .wakeup])] p2 := by
    refine .cons trivial (?_ : _ = some (_, p1)) (.cons trivial (?_ : _ = some (_, p2)) (.nil p2))
    . decide +kernel
    . decide +kernel
  have hfit : KeysDistinct ⟨true⟩ torrent 2 := by
    right
    intro i hi size hsize
    have hlen : torrent.info.pieces.length = 1 := by decide +kernel
    have hsize' : (PieceBlockAllocation.pieceSize ⟨true⟩ torrent 0 : Outcome AnyError Nat) = .ok 2 := by
      decide +kernel
    rw [hlen, Nat.lt_one_iff] at hi
    rw [hi, show UInt32.ofNat 0 = 0 from rfl, hsize', Except.ok.injEq] at hsize
    omega
  have h := rollsBack_of_run ⟨true⟩ torrentIo torrent 2 _ _ p2 p3 [(0, [[5]])] (fun _ => 0)
    (fun _ => false) [] (by decide) hfit hrun (by decide +kernel)
  exact ⟨p2, p3, by decide +kernel, by decide +kernel, h⟩

/--
Its only piece is one block longer than a `u32` can count.
-/
def longTorrent : V1Torrent :=
  torrentFixture 4294983680 4294983680 [[]]

def longRequests : List PeerRequestedPiece :=
  (blockBegins 4294983680).map fun begin => {
    peerId := [5]
    index := 0
    begin := UInt32.ofNat begin
    length := UInt32.ofNat
      (if 4294983680 < begin + pieceBlockSize then 4294983680 - begin else pieceBlockSize)
  }

theorem getElem?_longRequests {k : Nat} (h : k < 262145)
    : longRequests[k]? = some ⟨[5], 0, UInt32.ofNat (k * 16384), 16384⟩ := by
  have hbegin : (blockBegins 4294983680)[k]? = some (k * 16384) := by
    unfold blockBegins
    rw [List.getElem?_map, List.getElem?_range (by unfold pieceBlockSize; omega), Option.map_some]
    rfl
  unfold longRequests
  rw [List.getElem?_map, hbegin, Option.map_some, if_neg (by unfold pieceBlockSize; omega)]
  rfl

theorem generateAssignments_longRequests {tracker : PieceBlockTracker}
    (hblocks : tracker.blocks = .empty) (hmax : tracker.maxOutstandingRequests = 262145)
    : (tracker.generateAssignments ⟨true⟩ longTorrent (fun _ => 0) [(0, [[5]])]
        : Outcome AnyError _)
        =
      .ok (longRequests, tracker.recordRequests 0 0 longRequests) := by
  have hsize : (PieceBlockAllocation.pieceSize ⟨true⟩ longTorrent 0 : Outcome AnyError Nat)
      = .ok 4294983680 := by
    decide +kernel
  have hcapacity : (Build.usizeSub ⟨true⟩ tracker.maxOutstandingRequests
      tracker.downloadingRequestsLen : Outcome AnyError Nat) = .ok 262145 := by
    unfold PieceBlockTracker.downloadingRequestsLen
    rw [hblocks, hmax]
    decide +kernel
  have hfits : ∀ begin ∈ blockBegins 4294983680, begin + pieceBlockSize < 2 ^ 64 := by
    intro begin hbegin
    rw [PieceBlockAllocation.mem_blockBegins] at hbegin
    unfold pieceBlockSize
    omega
  have hnew : ∀ begin ∈ blockBegins 4294983680,
      tracker.blocks.containsInprogress 0 (UInt32.ofNat begin) = none := by
    intro begin _
    rw [hblocks]
    rfl
  unfold PieceBlockTracker.generateAssignments PieceBlockTracker.assignPiece
  rw [hcapacity, Outcome.ok_bind, PieceBlockAllocation.new_cons_of_pieceSize hsize,
    PieceBlockAllocation.requestsToMake_eq_map hfits hnew (by simp [blockBegins, pieceBlockSize])]
  simp only [Except.map, Outcome.ok_bind, PieceBlockTracker.generateAssignments, pure, Except.pure,
    List.append_nil]
  rfl

/--
The first and the last request are for the same block; the first is sent and the last is not.
-/
theorem not_rollsBack_longPiece
    : ∃ (io : FileTorrentIo) (tr : List (ProcessorEvent × List Effect)) (p p' : Processor FileTorrentIo)
        (effects : List Effect),
        FileTorrentIo.new ⟨true⟩ longTorrent = .ok io
          ∧ (processorTask ⟨true⟩ (FileTorrentIo.torrentIo ⟨true⟩ Sha1.digest) longTorrent).Run
              (new 262145 longTorrent io) tr p
          ∧ (processorTask ⟨true⟩ (FileTorrentIo.torrentIo ⟨true⟩ Sha1.digest) longTorrent).step p
              (.dispatch [(0, [[5]])] (fun _ => 0) fun pos => pos ≠ 262144) = some (effects, p')
          ∧ ¬RollsBack p effects p' := by
  obtain ⟨io, hio⟩ := FileTorrentIo.new_of_consistent ⟨true⟩ longTorrent (by decide +kernel)
  let s0 := TorrentState.new longTorrent.info.pieces 262145
  let s1 := s0.setPeerChokedUs [5] false
  let s2 := (s1.addPiecesForPeer [5] [0]).2
  let p0 := new 262145 longTorrent io
  let p1 : Processor FileTorrentIo := { p0 with torrentState := s1 }
  let p2 : Processor FileTorrentIo := { p1 with torrentState := s2 }
  have hhave : s1.handlePieces [5] [0] = ([.send [5] (.flag .interested), .wake .wakeup], s2) := by
    decide +kernel
  have hrun : (processorTask ⟨true⟩ (FileTorrentIo.torrentIo ⟨true⟩ Sha1.digest) longTorrent).Run p0
      [(.message [5] (.flag .unchoke), [.wake .wakeup]),
        (.message [5] (.have 0), [.send [5] (.flag .interested), .wake .wakeup])] p2 := by
    refine .cons trivial (?_ : _ = some (_, p1)) (.cons trivial (?_ : _ = some (_, p2)) (.nil p2))
    . rfl
    . simp only [processorTask, handleMessage]
      rw [show p1.torrentState = s1 from rfl, hhave]
  have hiterates : TorrentState.Iterates p2.torrentState.pieceIdToPeers [(0, [[5]])] := by
    show TorrentState.Iterates s2.pieceIdToPeers [(0, [[5]])]
    decide +kernel
  have hassign := generateAssignments_longRequests (show p2.tracker.blocks = .empty from rfl)
    (show p2.tracker.maxOutstandingRequests = 262145 from rfl)
  refine ⟨io, _, p2, _, _, hio, hrun, step_dispatch hiterates hassign _, ?_⟩
  intro h
  have hfirst : longRequests[0]? = some ⟨[5], 0, 0, 16384⟩ := getElem?_longRequests (by omega)
  have hlast : longRequests[262144]? = some ⟨[5], 0, 0, 16384⟩ := getElem?_longRequests (by omega)
  have hsent := (h.downloading_iff ⟨[5], 0, 0, 16384⟩).mpr
    (.inr (TorrentState.mem_dispatched.mpr ⟨0, hfirst, by decide⟩))
  rw [tracker_setTracker] at hsent
  have hdelivered := (TorrentState.downloading_dispatchRequests_iff
    (PeerRequestedPiece.key ⟨[5], 0, 0, 16384⟩)).mp hsent
  have hlastDelivered := hdelivered.2 (⟨[5], 0, 0, 16384⟩, 262144)
    (List.mem_zipIdx_iff_getElem?.mpr hlast) rfl
  simp at hlastDelivered

end Processor
