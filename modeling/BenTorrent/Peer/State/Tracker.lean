import BenTorrent.Machine.Basic
import BenTorrent.Peer.Error
import BenTorrent.Peer.State.PieceLemmas

/-!
This module contains the tracker as the calls on it drive it, and that no block is requested while a
request for it is out or was answered.
-/

open Rust

namespace PeerRequestedPiece

def key (req : PeerRequestedPiece) : PieceToBlockKey :=
  ⟨req.index, req.begin⟩

end PeerRequestedPiece

inductive TrackerEvent where
  | generateAssignments (availiablePieceToPeers : List (UInt32 × List PeerId)) (now : UInt32 → Nat)
  | setRequestFinished (pieceId begin : UInt32)
  | removeRequest (req : PeerRequestedPiece)
  | removeExpired (now : Nat)
  | setPieceFinished (pieceId : UInt32)

inductive TrackerReply where
  | assigned (requests : List PeerRequestedPiece)
  | finished (found : Bool)
  | removed (found : Bool)
  | expired (requests : List PeerRequestedPiece)
  | pieceFinished
  deriving DecidableEq

def trackerTask (build : Build) (torrent : V1Torrent)
    : Machine PieceBlockTracker TrackerEvent TrackerReply where
  step tracker
    | .generateAssignments availiablePieceToPeers now =>
      match (tracker.generateAssignments build torrent now availiablePieceToPeers
        : Outcome AnyError _) with
      | .ok (requests, tracker) => some (.assigned requests, tracker)
      -- a panic ends the task
      | .error _ => none
    | .setRequestFinished pieceId begin =>
      match tracker.setRequestFinished pieceId begin with
      | some tracker => some (.finished true, tracker)
      | none => some (.finished false, tracker)
    | .removeRequest req =>
      let (found, tracker) := tracker.removeRequest req
      some (.removed found, tracker)
    | .removeExpired now =>
      let (requests, tracker) := tracker.removeExpired now
      some (.expired requests, tracker)
    | .setPieceFinished pieceId => some (.pieceFinished, tracker.setPieceFinished pieceId)

def V1Torrent.PiecesFit (build : Build) (torrent : V1Torrent) : Prop :=
  ∀ allocation : TorrentAllocation,
    (TorrentAllocation.allocateTorrent build torrent : Outcome AnyError _) = .ok allocation →
      allocation.maxPieceSize < 2 ^ 32 ∧ allocation.lastPieceSize < 2 ^ 32

variable {build : Build} {torrent : V1Torrent}

namespace PieceBlockAllocation

def pieceSize (build : Build) (torrent : V1Torrent) (pieceId : UInt32) : Outcome ε Nat := do
  let allocation ← TorrentAllocation.allocateTorrent build torrent
  let lastPieceId ← build.u32Sub (UInt32.ofNat torrent.info.pieces.length) 1
  return if pieceId = lastPieceId then allocation.lastPieceSize else allocation.maxPieceSize

theorem new_cons_eq_ok {pieceId : UInt32} {peerId : PeerId} {peerIds : List PeerId}
    {requested : PieceToBlockMap} {capacity : Nat} {res : Option (List PeerRequestedPiece)}
    (h : (new build pieceId torrent (peerId :: peerIds) requested capacity : Outcome ε _) = .ok res)
    : ∃ size requests, (pieceSize build torrent pieceId : Outcome ε _) = .ok size
        ∧ (requestsToMake build pieceId size peerId requested capacity (blockBegins size)
            : Outcome ε _) = .ok requests
        ∧ res = some requests := by
  unfold new at h
  simp only [Outcome.bind_eq_ok, pure, Except.pure, Except.ok.injEq] at h
  obtain ⟨allocation, halloc, lastPieceId, hlast, requests, hmake, rfl⟩ := h
  refine ⟨_, requests, ?_, hmake, rfl⟩
  unfold pieceSize
  rw [halloc, Outcome.ok_bind, hlast]
  rfl

theorem pieceSize_lt {pieceId : UInt32} {size : Nat} (hfit : torrent.PiecesFit build)
    (h : (pieceSize build torrent pieceId : Outcome AnyError _) = .ok size)
    : size < 2 ^ 32 := by
  unfold pieceSize at h
  simp only [Outcome.bind_eq_ok, pure, Except.pure, Except.ok.injEq] at h
  obtain ⟨allocation, halloc, lastPieceId, _, rfl⟩ := h
  split
  . exact (hfit allocation halloc).2
  . exact (hfit allocation halloc).1

/--
The `u32` that a block of the piece begins at is not cut off.
-/
def OffsetsFit (build : Build) (torrent : V1Torrent) (pieceId : UInt32) : Prop :=
  ∀ size, (pieceSize build torrent pieceId : Outcome AnyError Nat) = .ok size → size ≤ 2 ^ 32

theorem offsetsFit_of_piecesFit (hfit : torrent.PiecesFit build) (pieceId : UInt32)
    : OffsetsFit build torrent pieceId := by
  intro size hsize
  exact Nat.le_of_lt (pieceSize_lt hfit hsize)

theorem offsetsFit_of_mem (hfit : torrent.PiecesFit build) {available : List (UInt32 × List PeerId)}
    : ∀ entry ∈ available, OffsetsFit build torrent entry.1 :=
  fun entry _ => offsetsFit_of_piecesFit hfit entry.1

theorem length_of_blockRequest {pieceId : UInt32} {pieceSize : Nat} {peerId : PeerId} {begin : Nat}
    {req : PeerRequestedPiece} (hsize : pieceSize < 2 ^ 32) (hbegin : begin < pieceSize)
    (h : (blockRequest build pieceId pieceSize peerId begin : Outcome ε _) = .ok req)
    : req.length.toNat = min pieceBlockSize (pieceSize - begin) := by
  unfold blockRequest pieceBlockSize at h
  rw [Build.usizeAdd_of_fits _ _ _ (by omega)] at h
  simp only [Outcome.ok_bind, pure, Except.pure, Except.ok.injEq] at h
  have hu32 : UInt32.size = 2 ^ 32 := rfl
  rw [← h]
  dsimp only
  unfold pieceBlockSize
  split
  . rw [UInt32.toNat_ofNat_of_lt' (by omega)]
    omega
  . rw [UInt32.toNat_ofNat_of_lt' (by omega)]
    omega

theorem requestsToMake_complete {pieceId : UInt32} {pieceSize : Nat} {peerId : PeerId}
    {requested : PieceToBlockMap} {capacity : Nat} {begins : List Nat}
    {requests : List PeerRequestedPiece}
    (h : (requestsToMake build pieceId pieceSize peerId requested capacity begins : Outcome ε _)
      = .ok requests)
    : requests.length = capacity
        ∨ ∀ begin ∈ begins, (requested.containsInprogress pieceId (UInt32.ofNat begin)).isSome
            ∨ ∃ req ∈ requests, req.begin = UInt32.ofNat begin := by
  induction begins generalizing capacity requests with
  | nil => simp
  | cons begin begins ih =>
    cases capacity with
    | zero =>
      simp only [requestsToMake, pure, Except.pure, Except.ok.injEq] at h
      simp [← h]
    | succ capacity =>
      unfold requestsToMake at h
      rw [List.forall_mem_cons]
      split at h
      . next hold =>
        cases ih h with
        | inl hlen => exact .inl hlen
        | inr hall => exact .inr ⟨.inl hold, hall⟩
      . simp only [Outcome.bind_eq_ok, pure, Except.pure, Except.ok.injEq] at h
        obtain ⟨req, hreq, others, hothers, rfl⟩ := h
        cases ih hothers with
        | inl hlen =>
          left
          rw [List.length_cons, hlen]
        | inr hall =>
          right
          refine ⟨.inr ⟨req, List.mem_cons_self, (blockRequest_eq_ok hreq).2.2⟩, ?_⟩
          intro begin' hbegin'
          cases hall begin' hbegin' with
          | inl hold => exact .inl hold
          | inr hnew =>
            obtain ⟨req', hreq', heq⟩ := hnew
            exact .inr ⟨req', List.mem_cons_of_mem _ hreq', heq⟩

theorem nodup_blockBegins {pieceSize : Nat} (h : pieceSize ≤ 2 ^ 32)
    : ((blockBegins pieceSize).map UInt32.ofNat).Nodup := by
  unfold blockBegins
  rw [List.map_map]
  apply List.Nodup.map_on _ List.nodup_range
  intro k1 hk1 k2 hk2 heq
  rw [List.mem_range] at hk1 hk2
  have h1 := congrArg UInt32.toNat heq
  simp only [Function.comp_apply, pieceBlockSize] at h1 hk1 hk2
  have hsize : UInt32.size = 2 ^ 32 := rfl
  rw [UInt32.toNat_ofNat_of_lt' (by omega), UInt32.toNat_ofNat_of_lt' (by omega)] at h1
  omega

end PieceBlockAllocation

namespace InprogressPieceToBlockMap

theorem lookupAt_foldl_insert (requests : List PeerRequestedPiece) (now : Nat)
    (m : InprogressPieceToBlockMap) (hnodup : (requests.map PeerRequestedPiece.key).Nodup)
    (pieceId begin : UInt32)
    : (requests.foldl (fun m req => m.insert now req) m).pieceToBlocksStarted.downloading.lookupAt
        pieceId begin
        =
      ((requests.find? fun req => req.key = ⟨pieceId, begin⟩).map BlockDownload.mk).or
        (m.pieceToBlocksStarted.downloading.lookupAt pieceId begin) := by
  induction requests generalizing m with
  | nil => simp
  | cons req requests ih =>
    rw [List.map_cons, List.nodup_cons] at hnodup
    have hinsert : (m.insert now req).pieceToBlocksStarted.downloading.lookupAt pieceId begin
        = if req.key = ⟨pieceId, begin⟩ then some ⟨req⟩
          else m.pieceToBlocksStarted.downloading.lookupAt pieceId begin := by
      simp only [insert, PieceToBlockMap.insertRequest, NestedMap.lookupAt_insertAt,
        PeerRequestedPiece.key, PieceToBlockKey.mk.injEq]
      grind
    rw [List.foldl_cons, ih _ hnodup.2, hinsert]
    by_cases hkey : req.key = ⟨pieceId, begin⟩
    . -- the later requests are for other blocks
      have hnone : (requests.find? fun req => req.key = ⟨pieceId, begin⟩) = none := by
        rw [List.find?_eq_none]
        intro req' hmem heq
        simp only [decide_eq_true_eq] at heq
        apply hnodup.1
        rw [hkey, ← heq]
        apply List.mem_map_of_mem hmem
      simp [hkey, hnone]
    . simp [hkey]

end InprogressPieceToBlockMap

namespace PieceBlockTracker

inductive Called (build : Build) (torrent : V1Torrent) (tracker : PieceBlockTracker)
    : TrackerEvent → TrackerReply → PieceBlockTracker → Prop where
  | assigned {available : List (UInt32 × List PeerId)} {now : UInt32 → Nat}
      {requests : List PeerRequestedPiece} {tracker' : PieceBlockTracker}
      (hassign : (tracker.generateAssignments build torrent now available : Outcome AnyError _)
        = .ok (requests, tracker'))
      : Called build torrent tracker (.generateAssignments available now) (.assigned requests)
          tracker'
  | finished {pieceId begin : UInt32} {tracker' : PieceBlockTracker}
      (hset : tracker.setRequestFinished pieceId begin = some tracker')
      : Called build torrent tracker (.setRequestFinished pieceId begin) (.finished true) tracker'
  | notFound {pieceId begin : UInt32} (hset : tracker.setRequestFinished pieceId begin = none)
      : Called build torrent tracker (.setRequestFinished pieceId begin) (.finished false) tracker
  | removed {req : PeerRequestedPiece}
      : Called build torrent tracker (.removeRequest req) (.removed (tracker.removeRequest req).1)
          (tracker.removeRequest req).2
  | expired {now : Nat}
      : Called build torrent tracker (.removeExpired now) (.expired (tracker.removeExpired now).1)
          (tracker.removeExpired now).2
  | pieceFinished {pieceId : UInt32}
      : Called build torrent tracker (.setPieceFinished pieceId) .pieceFinished
          (tracker.setPieceFinished pieceId)

theorem called_of_step {tracker tracker' : PieceBlockTracker} {event : TrackerEvent}
    {reply : TrackerReply}
    (h : (trackerTask build torrent).step tracker event = some (reply, tracker'))
    : Called build torrent tracker event reply tracker' := by
  cases event with
  | generateAssignments available now =>
    simp only [trackerTask] at h
    split at h
    . next hassign =>
      simp only [Option.some.injEq, Prod.mk.injEq] at h
      obtain ⟨rfl, rfl⟩ := h
      exact .assigned hassign
    . contradiction
  | setRequestFinished pieceId begin =>
    simp only [trackerTask] at h
    split at h
    . next hset =>
      simp only [Option.some.injEq, Prod.mk.injEq] at h
      obtain ⟨rfl, rfl⟩ := h
      exact .finished hset
    . next hset =>
      simp only [Option.some.injEq, Prod.mk.injEq] at h
      obtain ⟨rfl, rfl⟩ := h
      exact .notFound hset
  | removeRequest req =>
    simp only [trackerTask, Option.some.injEq, Prod.mk.injEq] at h
    obtain ⟨rfl, rfl⟩ := h
    exact .removed
  | removeExpired now =>
    simp only [trackerTask, Option.some.injEq, Prod.mk.injEq] at h
    obtain ⟨rfl, rfl⟩ := h
    exact .expired
  | setPieceFinished pieceId =>
    simp only [trackerTask, Option.some.injEq, Prod.mk.injEq] at h
    obtain ⟨rfl, rfl⟩ := h
    exact .pieceFinished

def Held (tracker : PieceBlockTracker) (key : PieceToBlockKey) : Prop :=
  (tracker.blocks.containsInprogress key.pieceId key.blockBegin).isSome

/--
The requests are for different blocks, none of which was out or answered, and they are what has been
added to the requests that are out.
-/
structure Assigns (tracker : PieceBlockTracker) (requests : List PeerRequestedPiece)
    (tracker' : PieceBlockTracker) : Prop where
  nodup : (requests.map PeerRequestedPiece.key).Nodup
  fresh : ∀ req ∈ requests, ¬tracker.Held req.key
  downloading : ∀ pieceId begin,
    tracker'.blocks.downloading.lookupAt pieceId begin
      =
    ((requests.find? fun req => req.key = ⟨pieceId, begin⟩).map BlockDownload.mk).or
      (tracker.blocks.downloading.lookupAt pieceId begin)
  done_eq : tracker'.blocks.done = tracker.blocks.done

theorem held_iff {tracker : PieceBlockTracker} {key : PieceToBlockKey}
    : tracker.Held key
        ↔
      (tracker.blocks.downloading.lookupAt key.pieceId key.blockBegin).isSome
        ∨ (tracker.blocks.done.lookupAt key.pieceId key.blockBegin).isSome := by
  unfold Held PieceToBlockMap.containsInprogress
  rw [Option.isSome_or, Bool.or_eq_true]

theorem Assigns.held_iff {tracker tracker' : PieceBlockTracker} {requests : List PeerRequestedPiece}
    (h : tracker.Assigns requests tracker') (key : PieceToBlockKey)
    : tracker'.Held key ↔ tracker.Held key ∨ ∃ req ∈ requests, req.key = key := by
  obtain ⟨pieceId, begin⟩ := key
  rw [PieceBlockTracker.held_iff, PieceBlockTracker.held_iff, h.downloading, h.done_eq,
    Option.isSome_or, Option.isSome_map, Bool.or_eq_true, List.find?_isSome]
  simp only [decide_eq_true_eq]
  grind

theorem Assigns.refl (tracker : PieceBlockTracker) : tracker.Assigns [] tracker := by
  constructor
  . simp
  . simp
  . simp
  . rfl

theorem Assigns.append {tracker1 tracker2 tracker3 : PieceBlockTracker}
    {requests1 requests2 : List PeerRequestedPiece} (h1 : tracker1.Assigns requests1 tracker2)
    (h2 : tracker2.Assigns requests2 tracker3)
    : tracker1.Assigns (requests1 ++ requests2) tracker3 := by
  constructor
  . rw [List.map_append, List.nodup_append']
    refine ⟨h1.nodup, h2.nodup, ?_⟩
    intro key hkey1 hkey2
    rw [List.mem_map] at hkey1 hkey2
    obtain ⟨req2, hmem2, rfl⟩ := hkey2
    apply h2.fresh req2 hmem2
    rw [h1.held_iff]
    exact .inr hkey1
  . intro req hmem hheld
    rw [List.mem_append] at hmem
    cases hmem with
    | inl hmem => exact h1.fresh req hmem hheld
    | inr hmem =>
      apply h2.fresh req hmem
      rw [h1.held_iff]
      exact .inl hheld
  . intro pieceId begin
    have hfind : ∀ req ∈ requests2, req.key = ⟨pieceId, begin⟩ →
        (requests1.find? fun req => req.key = ⟨pieceId, begin⟩) = none := by
      intro req2 hmem2 hkey
      rw [List.find?_eq_none]
      intro req1 hmem1 heq
      simp only [decide_eq_true_eq] at heq
      apply h2.fresh req2 hmem2
      rw [h1.held_iff]
      exact .inr ⟨req1, hmem1, heq.trans hkey.symm⟩
    rw [h2.downloading, h1.downloading, List.find?_append]
    cases hfind2 : requests2.find? fun req => req.key = ⟨pieceId, begin⟩ with
    | none => simp
    | some req =>
      have hkey := List.find?_some hfind2
      simp only [decide_eq_true_eq] at hkey
      rw [hfind req (List.mem_of_find?_eq_some hfind2) hkey]
      simp
  . rw [h2.done_eq, h1.done_eq]

theorem assigns_recordRequests {tracker : PieceBlockTracker} (pieceId : UInt32) (now : Nat)
    {requests : List PeerRequestedPiece} (hnodup : (requests.map PeerRequestedPiece.key).Nodup)
    (hfresh : ∀ req ∈ requests, ¬tracker.Held req.key)
    : tracker.Assigns requests (tracker.recordRequests pieceId now requests) := by
  constructor
  . exact hnodup
  . exact hfresh
  . intro pieceId' begin
    apply InprogressPieceToBlockMap.lookupAt_foldl_insert requests now _ hnodup
  . apply InprogressPieceToBlockMap.foldl_insert_done

structure RequestFor (build : Build) (torrent : V1Torrent) (pieceId : UInt32)
    (peerIds : List PeerId) (req : PeerRequestedPiece) : Prop where
  index_eq : req.index = pieceId
  mem_peerIds : req.peerId ∈ peerIds
  block : ∃ size begin, (PieceBlockAllocation.pieceSize build torrent pieceId : Outcome AnyError _)
      = .ok size
    ∧ begin ∈ PieceBlockAllocation.blockBegins size
    ∧ (PieceBlockAllocation.blockRequest build pieceId size req.peerId begin : Outcome AnyError _)
        = .ok req

inductive AssignedPiece (build : Build) (torrent : V1Torrent) (tracker : PieceBlockTracker)
    (pieceId : UInt32) (now : Nat)
    : List PeerId → List PeerRequestedPiece → PieceBlockTracker → Prop where
  | nobody : AssignedPiece build torrent tracker pieceId now [] [] tracker
  | made {peerId : PeerId} {peerIds : List PeerId} {capacity size : Nat}
      {requests : List PeerRequestedPiece}
      (hcapacity : (build.usizeSub tracker.maxOutstandingRequests tracker.downloadingRequestsLen
        : Outcome AnyError Nat) = .ok capacity)
      (hsize : (PieceBlockAllocation.pieceSize build torrent pieceId : Outcome AnyError _) = .ok size)
      (hmake : (PieceBlockAllocation.requestsToMake build pieceId size peerId tracker.blocks capacity
        (PieceBlockAllocation.blockBegins size) : Outcome AnyError _) = .ok requests)
      : AssignedPiece build torrent tracker pieceId now (peerId :: peerIds) requests
          (tracker.recordRequests pieceId now requests)

theorem assignedPiece_of_assignPiece {tracker tracker' : PieceBlockTracker} {pieceId : UInt32}
    {peerIds : List PeerId} {now : Nat} {requests : List PeerRequestedPiece}
    (h : (tracker.assignPiece build torrent pieceId peerIds now : Outcome AnyError _)
      = .ok (requests, tracker'))
    : AssignedPiece build torrent tracker pieceId now peerIds requests tracker' := by
  unfold assignPiece at h
  simp only [Outcome.bind_eq_ok] at h
  obtain ⟨capacity, hcapacity, requests', hnew, h⟩ := h
  cases peerIds with
  | nil =>
    simp only [PieceBlockAllocation.new, pure, Except.pure, Except.ok.injEq] at hnew
    subst hnew
    simp only [pure, Except.pure, Except.ok.injEq, Prod.mk.injEq] at h
    obtain ⟨rfl, rfl⟩ := h
    exact .nobody
  | cons peerId peerIds =>
    obtain ⟨size, requests1, hsize, hmake, rfl⟩ := PieceBlockAllocation.new_cons_eq_ok hnew
    simp only [pure, Except.pure, Except.ok.injEq, Prod.mk.injEq] at h
    obtain ⟨rfl, rfl⟩ := h
    exact .made hcapacity hsize hmake

theorem assignPiece_requestFor {tracker tracker' : PieceBlockTracker} {pieceId : UInt32}
    {peerIds : List PeerId} {now : Nat} {requests : List PeerRequestedPiece}
    (h : (tracker.assignPiece build torrent pieceId peerIds now : Outcome AnyError _)
      = .ok (requests, tracker'))
    : ∀ req ∈ requests, RequestFor build torrent pieceId peerIds req := by
  cases assignedPiece_of_assignPiece h with
  | nobody => simp
  | made _ hsize hmake =>
    intro req hreq
    obtain ⟨_, begin, hbegin, hblock⟩ := (PieceBlockAllocation.requestsToMake_eq_ok hmake).2.2 req hreq
    obtain ⟨hpeer, hindex, _⟩ := PieceBlockAllocation.blockRequest_eq_ok hblock
    rw [← hpeer] at hblock
    exact ⟨hindex, by simp [hpeer], _, begin, hsize, hbegin, hblock⟩

theorem generateAssignments_requestFor {tracker tracker' : PieceBlockTracker} {now : UInt32 → Nat}
    {available : List (UInt32 × List PeerId)} {requests : List PeerRequestedPiece}
    (h : (tracker.generateAssignments build torrent now available : Outcome AnyError _)
      = .ok (requests, tracker'))
    : ∀ req ∈ requests, ∃ entry ∈ available, RequestFor build torrent entry.1 entry.2 req := by
  induction available generalizing tracker requests with
  | nil =>
    simp [(generateAssignments_nil h).1]
  | cons entry available ih =>
    obtain ⟨pieceId, peerIds⟩ := entry
    obtain ⟨requests1, tracker1, requests2, hassign, hothers, rfl⟩ :=
      generateAssignments_cons h
    intro req hreq
    rw [List.mem_append] at hreq
    cases hreq with
    | inl hreq => exact ⟨_, List.mem_cons_self, assignPiece_requestFor hassign req hreq⟩
    | inr hreq =>
      obtain ⟨entry, hentry, hfor⟩ := ih hothers req hreq
      exact ⟨entry, List.mem_cons_of_mem _ hentry, hfor⟩

theorem assignPiece_nodup {tracker tracker' : PieceBlockTracker} {pieceId : UInt32}
    {peerIds : List PeerId} {now : Nat} {requests : List PeerRequestedPiece}
    (hfit : PieceBlockAllocation.OffsetsFit build torrent pieceId)
    (h : (tracker.assignPiece build torrent pieceId peerIds now : Outcome AnyError _)
      = .ok (requests, tracker'))
    : (requests.map PeerRequestedPiece.key).Nodup := by
  have hfor := assignPiece_requestFor h
  cases assignedPiece_of_assignPiece h with
  | nobody => simp
  | made _ hsize hmake =>
    have hkeys : requests.map PeerRequestedPiece.key
        = (requests.map (·.begin)).map fun begin => ⟨pieceId, begin⟩ := by
      rw [List.map_map]
      apply List.map_congr_left
      intro req hreq
      simp [PeerRequestedPiece.key, (hfor req hreq).index_eq]
    have hnodup := PieceBlockAllocation.nodup_blockBegins (hfit _ hsize)
    rw [hkeys]
    apply ((PieceBlockAllocation.requestsToMake_eq_ok hmake).1.nodup hnodup).map
    intro begin1 begin2 heq
    simpa using heq

theorem assignPiece_assigns_of_nodup {tracker tracker' : PieceBlockTracker} {pieceId : UInt32}
    {peerIds : List PeerId} {now : Nat} {requests : List PeerRequestedPiece}
    (hnodup : (requests.map PeerRequestedPiece.key).Nodup)
    (h : (tracker.assignPiece build torrent pieceId peerIds now : Outcome AnyError _)
      = .ok (requests, tracker'))
    : tracker.Assigns requests tracker' := by
  have hfor := assignPiece_requestFor h
  cases assignedPiece_of_assignPiece h with
  | nobody => exact .refl _
  | made _ _ hmake =>
    apply assigns_recordRequests pieceId now hnodup
    intro req hreq
    unfold Held PeerRequestedPiece.key
    rw [(hfor req hreq).index_eq, ((PieceBlockAllocation.requestsToMake_eq_ok hmake).2.2 req hreq).1]
    simp

theorem assignPiece_assigns {tracker tracker' : PieceBlockTracker} {pieceId : UInt32}
    {peerIds : List PeerId} {now : Nat} {requests : List PeerRequestedPiece}
    (hfit : PieceBlockAllocation.OffsetsFit build torrent pieceId)
    (h : (tracker.assignPiece build torrent pieceId peerIds now : Outcome AnyError _)
      = .ok (requests, tracker'))
    : tracker.Assigns requests tracker' :=
  assignPiece_assigns_of_nodup (assignPiece_nodup hfit h) h

theorem generateAssignments_assigns {tracker tracker' : PieceBlockTracker} {now : UInt32 → Nat}
    {available : List (UInt32 × List PeerId)} {requests : List PeerRequestedPiece}
    (hfit : ∀ entry ∈ available, PieceBlockAllocation.OffsetsFit build torrent entry.1)
    (h : (tracker.generateAssignments build torrent now available : Outcome AnyError _)
      = .ok (requests, tracker'))
    : tracker.Assigns requests tracker' := by
  induction available generalizing tracker requests with
  | nil =>
    obtain ⟨rfl, rfl⟩ := generateAssignments_nil h
    exact .refl _
  | cons entry available ih =>
    obtain ⟨pieceId, peerIds⟩ := entry
    rw [List.forall_mem_cons] at hfit
    obtain ⟨requests1, tracker1, requests2, hassign, hothers, rfl⟩ :=
      generateAssignments_cons h
    exact (assignPiece_assigns hfit.1 hassign).append (ih hfit.2 hothers)

theorem downloadingRequestsLen_recordRequests {tracker : PieceBlockTracker} (pieceId : UInt32)
    (now : Nat) {requests : List PeerRequestedPiece}
    (hnodup : (requests.map PeerRequestedPiece.key).Nodup)
    (hfresh : ∀ req ∈ requests, ¬tracker.Held req.key)
    : (tracker.recordRequests pieceId now requests).downloadingRequestsLen
        =
      tracker.downloadingRequestsLen + requests.length := by
  have hnew : ∀ req ∈ requests,
      tracker.blocks.downloading.lookupAt req.index req.begin = none := by
    intro req hreq
    have h := hfresh req hreq
    rw [held_iff, not_or, Option.not_isSome_iff_eq_none] at h
    exact h.1
  have hsize : ∀ m : InprogressPieceToBlockMap,
      (∀ req ∈ requests,
        m.pieceToBlocksStarted.downloading.lookupAt req.index req.begin = none) →
      (requests.foldl (fun m req => m.insert now req) m).pieceToBlocksStarted.downloading.size
        = m.pieceToBlocksStarted.downloading.size + requests.length := by
    clear hfresh hnew
    induction requests with
    | nil => simp
    | cons req requests ih =>
      intro m hm
      rw [List.map_cons, List.nodup_cons] at hnodup
      rw [List.forall_mem_cons] at hm
      have hinsert : (m.insert now req).pieceToBlocksStarted.downloading.size
          = m.pieceToBlocksStarted.downloading.size + 1 := NestedMap.size_insertAt hm.1 _
      rw [List.foldl_cons, ih hnodup.2, hinsert, List.length_cons]
      . omega
      . intro req' hreq'
        rw [← hm.2 req' hreq']
        simp only [InprogressPieceToBlockMap.insert, PieceToBlockMap.insertRequest,
          NestedMap.lookupAt_insertAt]
        rw [if_neg]
        intro heq
        apply hnodup.1
        rw [List.mem_map]
        refine ⟨req', hreq', ?_⟩
        simp [PeerRequestedPiece.key, heq]
  exact hsize tracker.pieceToBlocksOutstanding hnew

theorem assignPiece_len {tracker tracker' : PieceBlockTracker} {pieceId : UInt32}
    {peerIds : List PeerId} {now : Nat} {requests : List PeerRequestedPiece}
    (hfit : PieceBlockAllocation.OffsetsFit build torrent pieceId)
    (h : (tracker.assignPiece build torrent pieceId peerIds now : Outcome AnyError _)
      = .ok (requests, tracker'))
    : tracker'.maxOutstandingRequests = tracker.maxOutstandingRequests
        ∧ tracker'.downloadingRequestsLen = tracker.downloadingRequestsLen + requests.length := by
  have hassigns := assignPiece_assigns hfit h
  rw [(assignPiece_eq_ok h).1]
  exact ⟨rfl, downloadingRequestsLen_recordRequests pieceId now hassigns.nodup hassigns.fresh⟩

theorem assignPiece_complete {tracker tracker' : PieceBlockTracker} {pieceId : UInt32}
    {peerIds : List PeerId} {now : Nat} {requests : List PeerRequestedPiece}
    (hfit : PieceBlockAllocation.OffsetsFit build torrent pieceId)
    (h : (tracker.assignPiece build torrent pieceId peerIds now : Outcome AnyError _)
      = .ok (requests, tracker'))
    (hpeers : peerIds ≠ [])
    : ∃ size capacity, (PieceBlockAllocation.pieceSize build torrent pieceId : Outcome AnyError _)
          = .ok size
        ∧ (build.usizeSub tracker.maxOutstandingRequests tracker.downloadingRequestsLen
            : Outcome AnyError _) = .ok capacity
        ∧ (requests.length = capacity
            ∨ ∀ begin ∈ PieceBlockAllocation.blockBegins size,
                tracker'.Held ⟨pieceId, UInt32.ofNat begin⟩) := by
  have hassigns := assignPiece_assigns hfit h
  have hfor := assignPiece_requestFor h
  cases assignedPiece_of_assignPiece h with
  | nobody => contradiction
  | made hcapacity hsize hmake =>
    refine ⟨_, _, hsize, hcapacity, ?_⟩
    cases PieceBlockAllocation.requestsToMake_complete hmake with
    | inl hlen => exact .inl hlen
    | inr hall =>
      right
      intro begin hbegin
      rw [hassigns.held_iff]
      cases hall begin hbegin with
      | inl hold => exact .inl hold
      | inr hnew =>
        obtain ⟨req, hreq, heq⟩ := hnew
        refine .inr ⟨req, hreq, ?_⟩
        rw [PeerRequestedPiece.key, (hfor req hreq).index_eq, heq]

theorem generateAssignments_len {tracker tracker' : PieceBlockTracker} {now : UInt32 → Nat}
    {available : List (UInt32 × List PeerId)} {requests : List PeerRequestedPiece}
    (hfit : ∀ entry ∈ available, PieceBlockAllocation.OffsetsFit build torrent entry.1)
    (h : (tracker.generateAssignments build torrent now available : Outcome AnyError _)
      = .ok (requests, tracker'))
    : tracker'.maxOutstandingRequests = tracker.maxOutstandingRequests
        ∧ tracker'.downloadingRequestsLen = tracker.downloadingRequestsLen + requests.length := by
  induction available generalizing tracker requests with
  | nil =>
    obtain ⟨rfl, rfl⟩ := generateAssignments_nil h
    exact ⟨rfl, rfl⟩
  | cons entry available ih =>
    obtain ⟨pieceId, peerIds⟩ := entry
    rw [List.forall_mem_cons] at hfit
    obtain ⟨requests1, tracker1, requests2, hassign, hothers, rfl⟩ :=
      generateAssignments_cons h
    obtain ⟨hmax1, hlen1⟩ := assignPiece_len hfit.1 hassign
    obtain ⟨hmax2, hlen2⟩ := ih hfit.2 hothers
    rw [hmax2, hmax1, hlen2, hlen1, List.length_append]
    exact ⟨rfl, by omega⟩

theorem generateAssignments_append {tracker tracker' : PieceBlockTracker} {now : UInt32 → Nat}
    {available1 available2 : List (UInt32 × List PeerId)} {requests : List PeerRequestedPiece}
    (h : (tracker.generateAssignments build torrent now (available1 ++ available2) : Outcome ε _)
      = .ok (requests, tracker'))
    : ∃ requests1 tracker1 requests2,
        (tracker.generateAssignments build torrent now available1 : Outcome ε _)
            = .ok (requests1, tracker1)
          ∧ (tracker1.generateAssignments build torrent now available2 : Outcome ε _)
              = .ok (requests2, tracker')
          ∧ requests = requests1 ++ requests2 := by
  induction available1 generalizing tracker requests with
  | nil => exact ⟨[], tracker, requests, rfl, h, rfl⟩
  | cons entry available1 ih =>
    obtain ⟨pieceId, peerIds⟩ := entry
    rw [List.cons_append] at h
    obtain ⟨requests1, tracker1, requests2, hassign, hothers, rfl⟩ :=
      generateAssignments_cons h
    obtain ⟨requests3, tracker3, requests4, h3, h4, rfl⟩ := ih hothers
    refine ⟨requests1 ++ requests3, tracker3, requests4, ?_, h4, (List.append_assoc _ _ _).symm⟩
    unfold generateAssignments
    rw [hassign, Outcome.ok_bind]
    dsimp only
    rw [h3]
    rfl

end PieceBlockTracker

namespace InprogressPieceToBlockMap

theorem lookupAt_expire (time ttl : Nat) (m : PieceToBlockMap)
    (expirations : List (Nat × PieceToBlockKey)) (pieceId begin : UInt32)
    : (expire time ttl m expirations).2.pieceToBlocksStarted.downloading.lookupAt pieceId begin
          = m.downloading.lookupAt pieceId begin
        ∨ (expire time ttl m expirations).2.pieceToBlocksStarted.downloading.lookupAt pieceId begin
            = none
          ∧ ∃ download, m.downloading.lookupAt pieceId begin = some download
            ∧ download.pieceRequest ∈ (expire time ttl m expirations).1 := by
  induction expirations generalizing m with
  | nil => exact .inl rfl
  | cons e expirations ih =>
    obtain ⟨entryTime, k⟩ := e
    unfold expire
    split
    . split
      . next expired hlookup =>
        dsimp only
        have herase := NestedMap.lookupAt_eraseAt m.downloading k.pieceId pieceId k.blockBegin begin
        cases ih { m with downloading := m.downloading.eraseAt k.pieceId k.blockBegin } with
        | inl heq =>
          rw [heq, herase]
          split
          . next hkey =>
            rw [hkey.1, hkey.2]
            exact .inr ⟨rfl, expired, hlookup, List.mem_cons_self⟩
          . exact .inl rfl
        | inr hnone =>
          obtain ⟨hnone, download, hdownload, hmem⟩ := hnone
          rw [herase] at hdownload
          split at hdownload
          . contradiction
          . exact .inr ⟨hnone, download, hdownload, List.mem_cons_of_mem _ hmem⟩
      . apply ih
    . exact .inl rfl

end InprogressPieceToBlockMap

namespace PieceBlockTracker

/--
What is out is filed under its own block, and no block is both out and answered.
-/
structure Tracks (tracker : PieceBlockTracker) : Prop where
  keyed : ∀ pieceId begin download,
    tracker.blocks.downloading.lookupAt pieceId begin = some download →
      download.pieceRequest.key = ⟨pieceId, begin⟩
  disjoint : ∀ pieceId begin, tracker.blocks.downloading.lookupAt pieceId begin = none
    ∨ tracker.blocks.done.lookupAt pieceId begin = none

theorem tracks_new (maxOutstandingRequests : Nat) (pieces : List V1Piece)
    : (new maxOutstandingRequests pieces).Tracks := by
  constructor
  . intro pieceId begin download h
    simp [new, blocks, InprogressPieceToBlockMap.empty, PieceToBlockMap.empty] at h
  . intro pieceId begin
    simp [new, blocks, InprogressPieceToBlockMap.empty, PieceToBlockMap.empty]

theorem Tracks.of_downloading_le {tracker tracker' : PieceBlockTracker} (h : tracker.Tracks)
    (hdownloading : ∀ pieceId begin download,
      tracker'.blocks.downloading.lookupAt pieceId begin = some download →
        tracker.blocks.downloading.lookupAt pieceId begin = some download)
    (hdone : ∀ pieceId begin, tracker.blocks.done.lookupAt pieceId begin = none →
      tracker'.blocks.done.lookupAt pieceId begin = none)
    : tracker'.Tracks := by
  constructor
  . intro pieceId begin download hlookup
    exact h.keyed pieceId begin download (hdownloading pieceId begin download hlookup)
  . intro pieceId begin
    cases hlookup : tracker'.blocks.downloading.lookupAt pieceId begin with
    | none => exact .inl rfl
    | some download =>
      right
      apply hdone
      cases h.disjoint pieceId begin with
      | inl hnone =>
        rw [hdownloading pieceId begin download hlookup] at hnone
        contradiction
      | inr hnone => exact hnone

theorem Tracks.assigns {tracker tracker' : PieceBlockTracker} {requests : List PeerRequestedPiece}
    (h : tracker.Tracks) (hassigns : tracker.Assigns requests tracker')
    : tracker'.Tracks := by
  constructor
  . intro pieceId begin download hlookup
    rw [hassigns.downloading] at hlookup
    cases hfind : requests.find? fun req => req.key = ⟨pieceId, begin⟩ with
    | none =>
      rw [hfind] at hlookup
      exact h.keyed pieceId begin download hlookup
    | some req =>
      have hkey := List.find?_some hfind
      simp only [hfind, Option.map_some, Option.some_or, Option.some.injEq] at hlookup
      rw [← hlookup]
      simpa using hkey
  . intro pieceId begin
    rw [hassigns.downloading, hassigns.done_eq]
    cases hfind : requests.find? fun req => req.key = ⟨pieceId, begin⟩ with
    | none => simpa using h.disjoint pieceId begin
    | some req =>
      have hkey := List.find?_some hfind
      simp only [decide_eq_true_eq] at hkey
      have hfresh := hassigns.fresh req (List.mem_of_find?_eq_some hfind)
      rw [hkey, held_iff, not_or] at hfresh
      right
      simpa using hfresh.2

theorem downloading_removeExpired (tracker : PieceBlockTracker) (now : Nat) (pieceId begin : UInt32)
    : (tracker.removeExpired now).2.blocks.downloading.lookupAt pieceId begin
          = tracker.blocks.downloading.lookupAt pieceId begin
        ∨ (tracker.removeExpired now).2.blocks.downloading.lookupAt pieceId begin = none
          ∧ ∃ download, tracker.blocks.downloading.lookupAt pieceId begin = some download
            ∧ download.pieceRequest ∈ (tracker.removeExpired now).1 := by
  apply InprogressPieceToBlockMap.lookupAt_expire

theorem downloading_removeExpired_le {tracker : PieceBlockTracker} {now : Nat}
    {pieceId begin : UInt32} {download : BlockDownload}
    (h : (tracker.removeExpired now).2.blocks.downloading.lookupAt pieceId begin = some download)
    : tracker.blocks.downloading.lookupAt pieceId begin = some download := by
  cases downloading_removeExpired tracker now pieceId begin with
  | inl heq => rwa [← heq]
  | inr hnone =>
    rw [hnone.1] at h
    contradiction

theorem downloading_removeRequest_le {tracker : PieceBlockTracker} {req : PeerRequestedPiece}
    {pieceId begin : UInt32} {download : BlockDownload}
    (h : (tracker.removeRequest req).2.blocks.downloading.lookupAt pieceId begin = some download)
    : tracker.blocks.downloading.lookupAt pieceId begin = some download := by
  simp only [PieceBlockTracker.removeRequest, PieceToBlockMap.removeDownloadingRequest,
    blocks_setBlocks, NestedMap.lookupAt_eraseAt] at h
  split at h
  . contradiction
  . exact h

theorem downloading_setPieceFinished_le {tracker : PieceBlockTracker} {pieceId' : UInt32}
    {pieceId begin : UInt32} {download : BlockDownload}
    (h : (tracker.setPieceFinished pieceId').blocks.downloading.lookupAt pieceId begin
      = some download)
    : tracker.blocks.downloading.lookupAt pieceId begin = some download := by
  have h' : (tracker.blocks.removePiece pieceId').downloading.lookupAt pieceId begin
      = some download := h
  unfold PieceToBlockMap.removePiece at h'
  rw [NestedMap.lookupAt_erase] at h'
  split at h'
  . contradiction
  . exact h'

theorem Tracks.removeExpired {tracker : PieceBlockTracker} (h : tracker.Tracks) (now : Nat)
    : (tracker.removeExpired now).2.Tracks := by
  apply h.of_downloading_le
  . exact fun _ _ _ => downloading_removeExpired_le
  . intro pieceId begin hnone
    rwa [done_removeExpired]

theorem Tracks.removeRequest {tracker : PieceBlockTracker} (h : tracker.Tracks)
    (req : PeerRequestedPiece)
    : (tracker.removeRequest req).2.Tracks := by
  apply h.of_downloading_le
  . exact fun _ _ _ => downloading_removeRequest_le
  . exact fun _ _ hnone => hnone

theorem Tracks.setPieceFinished {tracker : PieceBlockTracker} (h : tracker.Tracks)
    (pieceId : UInt32)
    : (tracker.setPieceFinished pieceId).Tracks := by
  apply h.of_downloading_le
  . exact fun _ _ _ => downloading_setPieceFinished_le
  . intro pieceId' begin hnone
    have hdone : (tracker.setPieceFinished pieceId).blocks.done.lookupAt pieceId' begin
        = (tracker.blocks.removePiece pieceId).done.lookupAt pieceId' begin := rfl
    rw [hdone, PieceToBlockMap.removePiece, NestedMap.lookupAt_erase, hnone]
    split
    . rfl
    . rfl

theorem setRequestFinished_eq_some {tracker tracker' : PieceBlockTracker} {pieceId begin : UInt32}
    (h : tracker.setRequestFinished pieceId begin = some tracker')
    : ∃ download, tracker.blocks.downloading.lookupAt pieceId begin = some download
        ∧ tracker'.blocks = ⟨tracker.blocks.downloading.eraseAt pieceId begin,
            tracker.blocks.done.insertAt pieceId begin download⟩ := by
  obtain ⟨blocks, hblocks, rfl⟩ := setBlocks_of_setRequestFinished h
  apply PieceToBlockMap.setRequestFinished_eq_some hblocks

theorem downloading_setRequestFinished_le {tracker tracker' : PieceBlockTracker}
    {pieceId' begin' : UInt32} (hset : tracker.setRequestFinished pieceId' begin' = some tracker')
    {pieceId begin : UInt32} {download : BlockDownload}
    (h : tracker'.blocks.downloading.lookupAt pieceId begin = some download)
    : tracker.blocks.downloading.lookupAt pieceId begin = some download := by
  obtain ⟨_, _, hblocks⟩ := setRequestFinished_eq_some hset
  rw [hblocks, NestedMap.lookupAt_eraseAt] at h
  split at h
  . contradiction
  . exact h

theorem maxOutstandingRequests_setRequestFinished {tracker tracker' : PieceBlockTracker}
    {pieceId begin : UInt32} (h : tracker.setRequestFinished pieceId begin = some tracker')
    : tracker'.maxOutstandingRequests = tracker.maxOutstandingRequests := by
  obtain ⟨blocks, _, rfl⟩ := setBlocks_of_setRequestFinished h
  rfl

theorem held_setRequestFinished_iff {tracker tracker' : PieceBlockTracker} {pieceId begin : UInt32}
    (h : tracker.setRequestFinished pieceId begin = some tracker') (key : PieceToBlockKey)
    : tracker'.Held key ↔ tracker.Held key := by
  obtain ⟨download, hdownload, hblocks⟩ := setRequestFinished_eq_some h
  rw [held_iff, held_iff, hblocks, NestedMap.lookupAt_eraseAt, NestedMap.lookupAt_insertAt]
  by_cases hkey : key.pieceId = pieceId ∧ key.blockBegin = begin
  . rw [hkey.1, hkey.2, hdownload]
    simp
  . rw [if_neg hkey, if_neg hkey]

theorem Tracks.setRequestFinished {tracker tracker' : PieceBlockTracker} {pieceId begin : UInt32}
    (h : tracker.Tracks) (hset : tracker.setRequestFinished pieceId begin = some tracker')
    : tracker'.Tracks := by
  obtain ⟨download, hdownload, hblocks⟩ := setRequestFinished_eq_some hset
  constructor
  . intro pieceId' begin' download' hlookup
    exact h.keyed pieceId' begin' download' (downloading_setRequestFinished_le hset hlookup)
  . intro pieceId' begin'
    rw [hblocks, NestedMap.lookupAt_eraseAt, NestedMap.lookupAt_insertAt]
    split
    . exact .inl rfl
    . exact h.disjoint pieceId' begin'

theorem Tracks.step {tracker tracker' : PieceBlockTracker} {event : TrackerEvent}
    {reply : TrackerReply} (hfit : torrent.PiecesFit build) (h : tracker.Tracks)
    (hstep : (trackerTask build torrent).step tracker event = some (reply, tracker'))
    : tracker'.Tracks := by
  cases called_of_step hstep with
  | assigned hassign => apply h.assigns (generateAssignments_assigns (PieceBlockAllocation.offsetsFit_of_mem hfit) hassign)
  | finished hset => apply h.setRequestFinished hset
  | notFound => exact h
  | removed => apply h.removeRequest
  | expired => apply h.removeExpired
  | pieceFinished => apply h.setPieceFinished

theorem Tracks.run {maxOutstandingRequests : Nat} {pieces : List V1Piece}
    {tr : List (TrackerEvent × TrackerReply)} {tracker : PieceBlockTracker}
    (hfit : torrent.PiecesFit build)
    (hrun : (trackerTask build torrent).Run (.new maxOutstandingRequests pieces) tr tracker)
    : tracker.Tracks := by
  apply hrun.invariant _ (tracks_new maxOutstandingRequests pieces)
  intro tracker1 event reply tracker2 _ hstep h
  apply h.step hfit hstep

def Releases (key : PieceToBlockKey) : TrackerEvent × TrackerReply → Prop
  | (.removeRequest req, _) => req.key = key
  | (.removeExpired _, .expired requests) => ∃ req ∈ requests, req.key = key
  | (.setPieceFinished pieceId, _) => pieceId = key.pieceId
  | _ => False

theorem Tracks.held_step {tracker tracker' : PieceBlockTracker} {event : TrackerEvent}
    {reply : TrackerReply} {key : PieceToBlockKey} (hfit : torrent.PiecesFit build)
    (h : tracker.Tracks)
    (hstep : (trackerTask build torrent).step tracker event = some (reply, tracker'))
    (hheld : tracker.Held key) (hkeeps : ¬Releases key (event, reply))
    : tracker'.Held key := by
  cases called_of_step hstep with
  | assigned hassign =>
    rw [(generateAssignments_assigns (PieceBlockAllocation.offsetsFit_of_mem hfit) hassign).held_iff]
    exact .inl hheld
  | finished hset =>
    rw [held_setRequestFinished_iff hset]
    exact hheld
  | notFound => exact hheld
  | @removed req =>
    rw [held_iff] at hheld ⊢
    simp only [PieceBlockTracker.removeRequest, PieceToBlockMap.removeDownloadingRequest,
      blocks_setBlocks, NestedMap.lookupAt_eraseAt]
    rw [if_neg]
    . exact hheld
    . intro heq
      apply hkeeps
      obtain ⟨pieceId, begin⟩ := key
      simp only [Releases, PeerRequestedPiece.key, PieceToBlockKey.mk.injEq]
      exact ⟨heq.1.symm, heq.2.symm⟩
  | @expired now =>
    rw [held_iff] at hheld ⊢
    rw [done_removeExpired]
    cases downloading_removeExpired tracker now key.pieceId key.blockBegin with
    | inl heq => rwa [heq]
    | inr hnone =>
      obtain ⟨_, download, hdownload, hmem⟩ := hnone
      exact absurd ⟨download.pieceRequest, hmem, h.keyed _ _ _ hdownload⟩ hkeeps
  | @pieceFinished pieceId =>
    have hblocks : (tracker.setPieceFinished pieceId).blocks = tracker.blocks.removePiece pieceId :=
      rfl
    have hne : key.pieceId ≠ pieceId := fun heq => hkeeps heq.symm
    rw [held_iff] at hheld ⊢
    rw [hblocks, PieceToBlockMap.removePiece, NestedMap.lookupAt_erase, NestedMap.lookupAt_erase,
      if_neg hne, if_neg hne]
    exact hheld

theorem Tracks.held_run {tracker tracker' : PieceBlockTracker}
    {tr : List (TrackerEvent × TrackerReply)} {key : PieceToBlockKey}
    (hfit : torrent.PiecesFit build) (h : tracker.Tracks)
    (hrun : (trackerTask build torrent).Run tracker tr tracker') (hheld : tracker.Held key)
    (hkeeps : ∀ x ∈ tr, ¬Releases key x)
    : tracker'.Held key := by
  induction hrun with
  | nil => exact hheld
  | cons _ hstep _ ih =>
    rw [List.forall_mem_cons] at hkeeps
    apply ih (h.step hfit hstep)
    . apply h.held_step hfit hstep hheld hkeeps.1
    . exact hkeeps.2

def Requests (key : PieceToBlockKey) : TrackerEvent × TrackerReply → Prop
  | (_, .assigned requests) => ∃ req ∈ requests, req.key = key
  | _ => False

structure RequestsFresh (build : Build) (torrent : V1Torrent)
    (tr : List (TrackerEvent × TrackerReply)) (tracker : PieceBlockTracker) : Prop where
  assigns : ∀ available now requests tracker',
    (trackerTask build torrent).step tracker (.generateAssignments available now)
        = some (.assigned requests, tracker') →
      tracker.Assigns requests tracker'
  disjoint : ∀ pieceId begin, tracker.blocks.downloading.lookupAt pieceId begin = none
    ∨ tracker.blocks.done.lookupAt pieceId begin = none
  released : ∀ tr1 x1 tr2 x2 tr3 key, tr = tr1 ++ x1 :: (tr2 ++ x2 :: tr3) →
    Requests key x1 → Requests key x2 → ∃ x ∈ tr2, Releases key x

theorem assigns_of_step {tracker tracker' : PieceBlockTracker} {event : TrackerEvent}
    {requests : List PeerRequestedPiece} (hfit : torrent.PiecesFit build)
    (hstep : (trackerTask build torrent).step tracker event = some (.assigned requests, tracker'))
    : tracker.Assigns requests tracker' := by
  cases called_of_step hstep with
  | assigned hassign => exact generateAssignments_assigns (PieceBlockAllocation.offsetsFit_of_mem hfit) hassign

theorem requestsFresh_of_run (build : Build) (torrent : V1Torrent) (maxOutstandingRequests : Nat)
    (pieces : List V1Piece) (tr : List (TrackerEvent × TrackerReply)) (tracker : PieceBlockTracker)
    (hfit : torrent.PiecesFit build)
    (hrun : (trackerTask build torrent).Run (.new maxOutstandingRequests pieces) tr tracker)
    : RequestsFresh build torrent tr tracker := by
  constructor
  . intro available now requests tracker' hstep
    apply assigns_of_step hfit hstep
  . apply (Tracks.run hfit hrun).disjoint
  . intro tr1 x1 tr2 x2 tr3 key htr h1 h2
    subst htr
    obtain ⟨tracker1, hrun1, hrun⟩ := Machine.RunWhile.append_iff.mp hrun
    obtain ⟨event1, reply1⟩ := x1
    obtain ⟨event2, reply2⟩ := x2
    obtain ⟨tracker2, _, hstep1, hrun⟩ := Machine.RunWhile.cons_iff.mp hrun
    obtain ⟨tracker3, hrun2, hrun⟩ := Machine.RunWhile.append_iff.mp hrun
    obtain ⟨tracker4, _, hstep2, _⟩ := Machine.RunWhile.cons_iff.mp hrun
    have htracks := (Tracks.run hfit hrun1).step hfit hstep1
    cases reply1 with
    | assigned requests1 =>
      cases reply2 with
      | assigned requests2 =>
        by_contra hkeeps
        -- the block is held from its first request on, and a held block is not requested
        have hheld : tracker2.Held key := by
          rw [(assigns_of_step hfit hstep1).held_iff]
          exact .inr h1
        obtain ⟨req2, hmem2, hkey2⟩ := h2
        apply (assigns_of_step hfit hstep2).fresh req2 hmem2
        rw [hkey2]
        apply htracks.held_run hfit hrun2 hheld
        intro x hmem hreleases
        exact hkeeps ⟨x, hmem, hreleases⟩
      | _ => contradiction
    | _ => contradiction

theorem requestsFresh_expired
    : ∃ tracker tracker', RequestsFresh ⟨true⟩ (torrentFixture 2 2 [[1, 2]])
        [(.generateAssignments [(0, [[5]])] fun _ => 0, .assigned [⟨[5], 0, 0, 2⟩]),
          (.removeExpired (10 * 10 ^ 9), .expired [⟨[5], 0, 0, 2⟩])] tracker
        ∧ tracker.Assigns [⟨[6], 0, 0, 2⟩] tracker' := by
  let torrent := torrentFixture 2 2 [[1, 2]]
  let tracker0 := PieceBlockTracker.new 1 torrent.info.pieces
  let tracker1 := tracker0.recordRequests 0 0 [⟨[5], 0, 0, 2⟩]
  let tracker2 := (tracker1.removeExpired (10 * 10 ^ 9)).2
  have hfit : torrent.PiecesFit ⟨true⟩ := by
    have halloc : (TorrentAllocation.allocateTorrent ⟨true⟩ torrent : Outcome AnyError _)
        = .ok ⟨1, 2, 2⟩ := by
      decide +kernel
    intro allocation h
    rw [halloc, Except.ok.injEq] at h
    subst h
    decide
  have hrun : (trackerTask ⟨true⟩ torrent).Run tracker0 _ tracker2 :=
    .cons (i := .generateAssignments [(0, [[5]])] fun _ => 0) (o := .assigned [⟨[5], 0, 0, 2⟩]) trivial
      (by decide +kernel : _ = some (_, tracker1))
      (.cons (i := .removeExpired (10 * 10 ^ 9)) (o := .expired [⟨[5], 0, 0, 2⟩]) trivial
        (by decide +kernel) (.nil _))
  have hfresh := requestsFresh_of_run ⟨true⟩ torrent 1 torrent.info.pieces _ tracker2 hfit hrun
  refine ⟨tracker2, tracker2.recordRequests 0 1 [⟨[6], 0, 0, 2⟩], hfresh, ?_⟩
  apply hfresh.assigns [(0, [[6]])] (fun _ => 1)
  decide +kernel

end PieceBlockTracker
