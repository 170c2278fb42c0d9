import BenTorrent.Peer.Start.News
import BenTorrent.Peer.Start.Sent
import BenTorrent.Peer.State.Rebuild

/-!
This module contains which blocks the peers are asked for: blocks of the torrent that a peer has and
is ready to send, and no block again before the request for it is given up.
-/

open Rust

namespace TorrentState

variable {build : Build} {torrent : V1Torrent} {state state' : TorrentState}

open PeerEvent (NotChoking Announced)

theorem Reflects.mem_pieceIdToPeers {n : Nat} {calls : List (PeerEvent × PeerReply)}
    {entry : UInt32 × Finset PeerId} {peerId : PeerId} (h : Reflects n calls state)
    (hentry : entry ∈ state.pieceIdToPeers) (hpeer : peerId ∈ entry.2)
    : NotChoking calls peerId ∧ Announced calls peerId entry.1 := by
  unfold pieceIdToPeers at hentry
  rw [List.mem_map] at hentry
  obtain ⟨piece, _, rfl⟩ := hentry
  rw [Finset.mem_inter, h.mirrored.mem_iff, h.announced] at hpeer
  refine ⟨(h.notChoking peerId).mp ?_, hpeer.2⟩
  simp only [peersThatChoke, Bool.false_eq_true, if_false, Finset.mem_inter] at hpeer
  exact hpeer.1.2

theorem tracks_of_calls {guard : TorrentState → PeerEvent → Prop} {maxOutstandingRequests : Nat}
    {calls : List (PeerEvent × PeerReply)} (hfit : torrent.PiecesFit build)
    (hcalls : (torrentStateTask build torrent).RunWhile guard
      (new torrent.info.pieces maxOutstandingRequests) calls state)
    : state.pieceBlockTracking.Tracks := by
  apply hcalls.invariant (P := fun state => state.pieceBlockTracking.Tracks)
  . intro state event reply state' _ hstep h
    cases called_of_step hstep with
    | choked => rwa [setPeerChokedUs_pieceBlockTracking]
    | interested => rwa [setPeersInterestedInUs_pieceBlockTracking]
    | addedPieces => rwa [addPiecesForPeer_pieceBlockTracking]
    | removed => rwa [removePeer_pieceBlockTracking]
    | tracked event reply tracker hcalled =>
      cases hcalled with
      | assigned hassign =>
        exact h.assigns (PieceBlockTracker.generateAssignments_assigns
          (PieceBlockAllocation.offsetsFit_of_mem hfit) hassign)
      | finished hset => exact h.setRequestFinished hset
      | notFound => exact h
      | removed => exact h.removeRequest _
      | expired => exact h.removeExpired _
      | pieceFinished => exact h.setPieceFinished _
  . exact PieceBlockTracker.tracks_new maxOutstandingRequests torrent.info.pieces

end TorrentState

/--
A block as the pieces are cut into them.
-/
structure TorrentAllocation.IsBlock (allocation : TorrentAllocation) (index begin length : UInt32)
    : Prop where
  index_lt : index.toNat < allocation.totalPieces
  begin_mod : begin.toNat % pieceBlockSize = 0
  begin_lt : begin.toNat < allocation.len index.toNat
  length_eq : length.toNat = min pieceBlockSize (allocation.len index.toNat - begin.toNat)

namespace TorrentProcessor

variable {σ : Type u} {p p' : TorrentProcessor σ} {c : Nat}
variable {build : Build} {torrentIo : TorrentIo σ} {config : Config} {torrent : V1Torrent}

inductive Dispatches (p : TorrentProcessor σ) (requests : List PeerRequestedPiece)
    : List Signal → TorrentProcessor σ → Prop where
  | waits (signals : List Signal) (p' : TorrentProcessor σ) (harm : p'.arm = .dispatching requests)
      (htracker : p'.tracker = p.tracker) (hsent : ∀ c msg, .sent c msg ∉ signals)
      : Dispatches p requests signals p'
  | sent (req : PeerRequestedPiece) (rest : List PeerRequestedPiece) (c : Nat)
      (p' : TorrentProcessor σ) (hrequests : requests = req :: rest)
      (hlookup : p.peerToTx.lookup req.peerId = some c) (harm : p'.arm = .dispatching rest)
      (htracker : p'.tracker = p.tracker)
      : Dispatches p requests [.sent c (.request req.index req.begin req.length)] p'
  | gaveBack (req : PeerRequestedPiece) (rest : List PeerRequestedPiece)
      (p' : TorrentProcessor σ) (hrequests : requests = req :: rest)
      (harm : p'.arm = .dispatching rest)
      (htracker : p'.tracker = (p.tracker.removeRequest req).2)
      : Dispatches p requests [] p'
  | done (p' : TorrentProcessor σ) (hrequests : requests = []) (harm : p'.arm = .dequeueing)
      (htracker : p'.tracker = p.tracker)
      : Dispatches p requests [] p'

theorem Advanced.dispatches {signals : List Signal} {requests : List PeerRequestedPiece}
    (harm : p.arm = .dispatching requests) (ha : p.Advanced torrentIo torrent signals p')
    : p.Dispatches requests signals p' := by
  cases ha with
  | dispatched req rest _ p1 harm1 htold =>
    rw [harm, Arm.dispatching.injEq] at harm1
    have htracker : p1.tracker = p.tracker := by
      unfold tracker
      rw [htold.torrentState_eq]
    cases htold with
    | delivered c _ hlookup => exact .sent req rest c _ harm1 hlookup rfl htracker
  | dispatchPending req rest _ _ harm1 htold =>
    have harm' : p'.arm = .dispatching requests := by rw [htold.arm_eq, harm]
    have htracker : p'.tracker = p.tracker := by
      unfold tracker
      rw [htold.torrentState_eq]
    cases htold with
    | pending => exact .waits [] p' harm' htracker (by simp)
  | undelivered req rest harm1 =>
    rw [harm, Arm.dispatching.injEq] at harm1
    exact .gaveBack req rest _ harm1 rfl rfl
  | dispatchedAll harm1 =>
    rw [harm, Arm.dispatching.injEq] at harm1
    exact .done _ harm1 rfl rfl
  | lockPending lock hlock hneeds =>
    rw [harm] at hneeds
    contradiction
  | passed peerId msg arm _ _ _ hpasses =>
    rw [harm] at hpasses
    cases hpasses
  | passPending peerId msg arm _ _ hpasses =>
    rw [harm] at hpasses
    cases hpasses
  | _ => simp_all

theorem Stepped.dispatches {event : StartEvent} {signals : List Signal}
    {requests : List PeerRequestedPiece} (harm : p.arm = .dispatching requests)
    (hs : p.Stepped build torrentIo config torrent event signals p')
    : p.Dispatches requests signals p' ∧ p.learns event = none := by
  have hclosing : ∀ c, p.arm ≠ .closing c := by simp [harm]
  have hwaits : ∀ {signals} {p' : TorrentProcessor σ}, p'.arm = p.arm → p'.tracker = p.tracker →
      (∀ c msg, .sent c msg ∉ signals) → p.Dispatches requests signals p' := by
    intro signals p' harm' htracker hsent
    exact .waits signals p' (by rw [harm', harm]) htracker hsent
  cases hs with
  | advanced _ _ hadvanced => exact ⟨hadvanced.dispatches harm, learns_advance_of_ne hclosing⟩
  | connected => exact ⟨hwaits rfl rfl (by simp), rfl⟩
  | linked => exact ⟨hwaits rfl rfl (by simp), rfl⟩
  | written =>
    refine ⟨hwaits rfl rfl ?_, rfl⟩
    intro c msg
    split
    . simp
    . simp
  | writeFailed => exact ⟨hwaits rfl rfl (by simp), rfl⟩
  | lockPending _ lock hlocks =>
    refine ⟨hwaits rfl rfl (by simp), ?_⟩
    cases event with
    | poll => exact False.elim hlocks
    | advance => exact False.elim hlocks
    | _ => rfl
  | _ => simp_all

theorem Stepped.request_of_sent {event : StartEvent} {signals : List Signal}
    {index begin length : UInt32} (hcoherent : p.Coherent) (hworded : p.Worded)
    (hs : p.Stepped build torrentIo config torrent event signals p')
    (hsent : .sent c (.request index begin length) ∈ signals)
    : ∃ req requests, p.arm = .dispatching (req :: requests)
        ∧ p.peerToTx.lookup req.peerId = some c ∧ req.index = index ∧ req.begin = begin
        ∧ req.length = length := by
  have hsays := hs.says hcoherent hworded hsent
  generalize hmsg : Messages.request index begin length = msg at hsays
  cases hsays with
  | informs _ hinforms =>
    subst hmsg
    contradiction
  | piece => contradiction
  | request req requests harm hlookup =>
    obtain ⟨rfl, rfl, rfl⟩ := Messages.request.inj hmsg
    exact ⟨req, requests, harm, hlookup, rfl, rfl, rfl⟩

/--
A block of a piece that is listed as incomplete, of a peer that has the piece and does not choke us,
after what was heard of it.
-/
structure MayAsk (allocation : TorrentAllocation) (history : List PeerNews)
    (tracker : PieceBlockTracker) (peerId : PeerId) (index begin length : UInt32) : Prop where
  notChoking : PeerNews.NotChoking history peerId
  announced : PeerNews.Announced history peerId index
  incomplete : index ∈ tracker.getIncompletePieces
  block : allocation.IsBlock index begin length

theorem mayAsk_of_generateAssignments {allocation : TorrentAllocation} {history : List PeerNews}
    {state : TorrentState} {maxOutstandingRequests : Nat} {calls : List (PeerEvent × PeerReply)}
    {available : List (UInt32 × List PeerId)} {now : UInt32 → Nat}
    {requests : List PeerRequestedPiece} {tracker : PieceBlockTracker}
    (halloc : (TorrentAllocation.allocateTorrent build torrent : Outcome AnyError _)
      = .ok allocation)
    (hlaid : allocation.LaidOut torrent.info) (hpieces : torrent.info.pieces.length < 2 ^ 32)
    (hfit : torrent.PiecesFit build)
    (hcalls : (torrentStateTask build torrent).RunWhile TorrentState.AssignsAvailable
      (TorrentState.new torrent.info.pieces maxOutstandingRequests) calls state)
    (hrecord : PeerEvent.Record calls history)
    (hiterates : TorrentState.Iterates state.pieceIdToPeers available)
    (hassign : (state.pieceBlockTracking.generateAssignments build torrent now available
      : Outcome AnyError _) = .ok (requests, tracker))
    : ∀ req ∈ requests,
        MayAsk allocation history tracker req.peerId req.index req.begin req.length := by
  have hreflects := TorrentState.reflects_of_run hcalls
  have hlisted : ∀ entry ∈ available, (entry.1, entry.2.toFinset) ∈ state.pieceIdToPeers := by
    intro entry hentry
    rw [← hiterates.2, List.mem_map]
    exact ⟨entry, hentry, rfl⟩
  have hincomplete : ∀ entry ∈ available, entry.1 ∈ state.pieceBlockTracking.getIncompletePieces :=
    fun entry hentry => TorrentState.mem_pieceIdToPeers (hlisted entry hentry)
  intro req hreq
  obtain ⟨entry, hentry, hfor⟩ := PieceBlockTracker.generateAssignments_requestFor hassign req hreq
  have hmem := hincomplete entry hentry
  obtain ⟨hnotChoking, hannounced⟩ :=
    hreflects.mem_pieceIdToPeers (hlisted entry hentry) (List.mem_toFinset.mpr hfor.mem_peerIds)
  have hsize := PieceBlockAllocation.pieceSize_of_laidOut (ε := AnyError) halloc hlaid hpieces entry.1
  obtain ⟨hbegin, hlength⟩ := PieceBlockTracker.RequestFor.block_eq hfit hsize hfor
  rw [PieceBlockAllocation.mem_blockBegins] at hbegin
  refine ⟨(hrecord.notChoking_iff req.peerId).mp hnotChoking, ?_, ?_, ?_⟩
  . rw [hfor.index_eq]
    exact (hrecord.announced_iff req.peerId entry.1).mp hannounced
  . rw [PieceBlockTracker.getIncompletePieces_generateAssignments hincomplete hassign, hfor.index_eq]
    exact hmem
  . rw [hfor.index_eq]
    refine ⟨?_, hbegin.1, hbegin.2, hlength⟩
    rw [hlaid.totalPieces_eq]
    exact hreflects.incomplete_lt entry.1 hmem

section

variable (allocation : TorrentAllocation) (history : List PeerNews)

def Asking (p : TorrentProcessor σ) : Prop :=
  ∀ requests, p.arm = .dispatching requests → ∀ req ∈ requests,
    MayAsk allocation history p.tracker req.peerId req.index req.begin req.length

variable {allocation history}

theorem MayAsk.removeRequest {tracker : PieceBlockTracker} {peerId : PeerId}
    {index begin length : UInt32}
    (h : MayAsk allocation history tracker peerId index begin length) (req : PeerRequestedPiece)
    : MayAsk allocation history (tracker.removeRequest req).2 peerId index begin length := by
  refine ⟨h.notChoking, h.announced, ?_, h.block⟩
  have hpieces : (tracker.removeRequest req).2.blocks.pieces = tracker.blocks.pieces :=
    PieceToBlockMap.pieces_removeDownloadingRequest _ _ _
  have heq : (tracker.removeRequest req).2.getIncompletePieces = tracker.getIncompletePieces := by
    unfold PieceBlockTracker.getIncompletePieces
    rw [hpieces]
    rfl
  rw [heq]
  exact h.incomplete

theorem Dispatches.asking {signals : List Signal} {requests : List PeerRequestedPiece}
    (h : p.Dispatches requests signals p') (harm : p.arm = .dispatching requests)
    (hasking : p.Asking allocation history)
    : p'.Asking allocation history := by
  intro requests' harm' req hreq
  cases h with
  | waits _ _ heq htracker =>
    rw [heq, Arm.dispatching.injEq] at harm'
    subst harm'
    rw [htracker]
    exact hasking requests harm req hreq
  | sent req' rest _ _ hrequests _ heq htracker =>
    rw [heq, Arm.dispatching.injEq] at harm'
    subst harm' hrequests
    rw [htracker]
    exact hasking _ harm req (List.mem_cons_of_mem req' hreq)
  | gaveBack req' rest _ hrequests heq htracker =>
    rw [heq, Arm.dispatching.injEq] at harm'
    subst harm' hrequests
    rw [htracker]
    exact (hasking _ harm req (List.mem_cons_of_mem req' hreq)).removeRequest req'
  | done _ _ heq =>
    rw [heq] at harm'
    contradiction

end

theorem Passes.arm_ne {arm arm' : Arm} {peerId : PeerId} {msg : Messages}
    {requests : List PeerRequestedPiece} (h : Passes arm peerId msg arm')
    : arm' ≠ .dispatching requests := by
  cases h with
  | announcing => simp
  | sending => simp

theorem Advanced.arm_ne {signals : List Signal} {requests : List PeerRequestedPiece}
    (hcoherent : p.Coherent) (ha : p.Advanced torrentIo torrent signals p')
    (hne : ∀ requests, p.arm ≠ .dispatching requests)
    : p'.arm ≠ .dispatching requests := by
  unfold Coherent at hcoherent
  cases ha with
  | passed _ _ _ _ _ _ hpasses => exact hpasses.arm_ne
  | passPending _ _ _ _ _ hpasses htold =>
    rw [htold.arm_eq]
    exact hne requests
  | greetPending _ _ _ _ _ hdelivered =>
    rw [hdelivered.arm_eq]
    exact hne requests
  | dispatched req rest _ _ harm => exact absurd harm (hne _)
  | dispatchPending req rest _ _ harm => exact absurd harm (hne _)
  | undelivered req rest harm => exact absurd harm (hne _)
  | choked _ _ _ _ _ harm =>
    rw [harm] at hcoherent
    contradiction
  | lockPending => exact hne requests
  | wakePending => exact hne requests
  | _ => exact Arm.noConfusion

theorem Stepped.dispatching_of_ne {event : StartEvent} {signals : List Signal}
    {requests : List PeerRequestedPiece} (hcoherent : p.Coherent)
    (hs : p.Stepped build torrentIo config torrent event signals p')
    (hne : ∀ requests, p.arm ≠ .dispatching requests) (harm' : p'.arm = .dispatching requests)
    : ∃ available now, p.learns event = none
        ∧ TorrentState.Iterates p.torrentState.pieceIdToPeers available
        ∧ (p.tracker.generateAssignments build torrent now available : Outcome AnyError _)
            = .ok (requests, p'.tracker) := by
  cases hs with
  | computed available now lock requests' tracker harm hlock hiterates hassign =>
    obtain rfl : requests' = requests := Arm.dispatching.inj harm'
    exact ⟨available, now, rfl, hiterates, hassign⟩
  | polled c _ _ harm hpolled =>
    rcases polled_arm harm hpolled with heq | ⟨heq, _⟩
    . rw [heq] at harm'
      contradiction
    . rw [heq] at harm'
      contradiction
  | advanced _ _ hadvanced => exact absurd harm' (hadvanced.arm_ne hcoherent hne)
  | took peerIds msg wakeUp arm harm hrecv hstarts =>
    replace harm' : arm = .dispatching requests := harm'
    rw [harm'] at hstarts
    cases hstarts
  | connected => exact absurd harm' (hne requests)
  | linked => exact absurd harm' (hne requests)
  | written => exact absurd harm' (hne requests)
  | writeFailed => exact absurd harm' (hne requests)
  | lockPending => exact absurd harm' (hne requests)
  | _ => exact Arm.noConfusion harm'

theorem piecesFit_of_laidOut {allocation : TorrentAllocation}
    (hlength : torrent.info.pieceLength.toInt < 2 ^ 32)
    (halloc : (TorrentAllocation.allocateTorrent build torrent : Outcome AnyError _)
      = .ok allocation)
    (hlaid : allocation.LaidOut torrent.info)
    : torrent.PiecesFit build := by
  intro allocation' halloc'
  rw [halloc, Except.ok.injEq] at halloc'
  subst halloc'
  have hmaxSize := hlaid.maxPieceSize_eq
  have hlastSize := hlaid.lastPieceSize_le
  omega

theorem asking_of_run {io : σ} {tr : StartTrace} {allocation : TorrentAllocation}
    (hlength : torrent.info.pieceLength.toInt < 2 ^ 32)
    (hpieces : torrent.info.pieces.length < 2 ^ 32)
    (halloc : (TorrentAllocation.allocateTorrent build torrent : Outcome AnyError _)
      = .ok allocation)
    (hlaid : allocation.LaidOut torrent.info)
    (hrun : (startTask build torrentIo config torrent).Run (new config torrent io) tr p)
    : p.Asking allocation
        (learnedIn build torrentIo config torrent (new config torrent io) tr) := by
  have hfit := piecesFit_of_laidOut hlength halloc hlaid
  suffices h : (startTask build torrentIo config torrent).Run (new config torrent io) tr p
      ∧ p.Asking allocation
        (learnedIn build torrentIo config torrent (new config torrent io) tr) from h.2
  apply hrun.invariant_trace (P := fun tr p =>
    (startTask build torrentIo config torrent).Run (new config torrent io) tr p
      ∧ p.Asking allocation
        (learnedIn build torrentIo config torrent (new config torrent io) tr))
  . intro tr p event signals p' _ hstep ⟨hrun, hasking⟩
    have hs := stepped_of_step hstep
    have hcoherent := coherent_of_run hrun
    have hcollect : learnedIn build torrentIo config torrent (new config torrent io)
        (tr ++ [(event, signals)])
      = learnedIn build torrentIo config torrent (new config torrent io) tr
        ++ (p.learns event).toList := hrun.collect_append_singleton learns hstep
    refine ⟨hrun.append (.cons trivial hstep (.nil _)), ?_⟩
    rw [hcollect]
    by_cases harm : ∃ requests, p.arm = .dispatching requests
    . obtain ⟨requests, harm⟩ := harm
      obtain ⟨hdispatches, hlearns⟩ := hs.dispatches harm
      rw [hlearns, Option.toList_none, List.append_nil]
      exact hdispatches.asking harm hasking
    . intro requests harm'
      obtain ⟨available, now, hlearns, hiterates, hassign⟩ :=
        hs.dispatching_of_ne hcoherent (not_exists.mp harm) harm'
      obtain ⟨calls, hcalls, hrecord⟩ := record_of_run hrun
      rw [hlearns, Option.toList_none, List.append_nil]
      exact mayAsk_of_generateAssignments halloc hlaid hpieces hfit hcalls hrecord hiterates hassign
  . refine ⟨.nil _, ?_⟩
    intro requests harm
    contradiction

/--
Whatever block a peer is asked for: the request goes to the connection that the loop has for the
peer, which has announced the piece and does not choke us by all that was handled of its messages.
-/
theorem mayAsk_of_run {io : σ} {tr : StartTrace} {event : StartEvent} {signals : List Signal}
    {index begin length : UInt32} (hconsistent : torrent.info.Consistent)
    (hlength : torrent.info.pieceLength.toInt < 2 ^ 32)
    (hpieces : torrent.info.pieces.length < 2 ^ 32)
    (hrun : (startTask build torrentIo config torrent).Run (new config torrent io) tr p)
    (hstep : (startTask build torrentIo config torrent).step p event = some (signals, p'))
    (hsent : .sent c (.request index begin length) ∈ signals)
    : ∃ allocation conn,
        (TorrentAllocation.allocateTorrent build torrent : Outcome AnyError _) = .ok allocation
        ∧ p.connections[c]? = some conn ∧ p.peerToTx.lookup conn.peerId = some c
        ∧ MayAsk allocation (learnedIn build torrentIo config torrent (new config torrent io) tr)
          p.tracker conn.peerId index begin length := by
  obtain ⟨allocation, halloc, hlaid⟩ :=
    TorrentAllocation.allocateTorrent_of_consistent (ε := AnyError) build torrent hconsistent
  obtain ⟨req, requests, harm, hlookup, rfl, rfl, rfl⟩ := (stepped_of_step hstep).request_of_sent
    (coherent_of_run hrun) (worded_of_run hrun) hsent
  obtain ⟨conn, hget, hid⟩ := txOwn_of_run hrun req.peerId c hlookup
  refine ⟨allocation, conn, halloc, hget, by rw [hid, hlookup], ?_⟩
  rw [hid]
  exact asking_of_run hlength hpieces halloc hlaid hrun _ harm req List.mem_cons_self

theorem mayAsk_onePiece
    : ∃ tr p event p', (onePieceTask ⟨false, 8, 8, 1⟩).Run (onePieceStart ⟨false, 8, 8, 1⟩) tr p
        ∧ (onePieceTask ⟨false, 8, 8, 1⟩).step p event = some ([.sent 0 (.request 0 0 2)], p')
        ∧ ∃ allocation conn, p.connections[0]? = some conn
          ∧ p.peerToTx.lookup conn.peerId = some 0
          ∧ MayAsk allocation
            (learnedIn ⟨true⟩ (MemoryTorrentIo.torrentIo ⟨true⟩) ⟨false, 8, 8, 1⟩
              (torrentFixture 2 2 [[1, 2]]) (onePieceStart ⟨false, 8, 8, 1⟩) tr)
            p.tracker conn.peerId 0 0 2 := by
  obtain ⟨tr, p, hrun, _, hstep⟩ := (onePieceTask ⟨false, 8, 8, 1⟩).exists_run_of_exec
    (onePieceStart ⟨false, 8, 8, 1⟩)
    (greetingEvents 0 [5] ++ handlingEvents 0 (.flag .unchoke) ++ handlingEvents 0 (.have 0)
      ++ [.recvWakeUp [], .compute [(0, [[5]])] (fun _ => 0)])
    (fun res => ((onePieceTask ⟨false, 8, 8, 1⟩).step res.2 .advance).map Prod.fst)
    (b := some [.sent 0 (.request 0 0 2)]) (by decide +kernel)
  obtain ⟨⟨signals, p'⟩, hstep, rfl⟩ := Option.map_eq_some_iff.mp hstep
  obtain ⟨allocation, conn, _, hget, hlookup, hmay⟩ := mayAsk_of_run (by decide +kernel)
    (by decide +kernel) (by decide +kernel) hrun hstep List.mem_cons_self
  exact ⟨tr, p, .advance, p', hrun, hstep, allocation, conn, hget, hlookup, hmay⟩

/--
The request of the block has expired, or a handler reports its piece as complete.
-/
def Releases (key : PieceToBlockKey) (signals : List Signal) : Prop :=
  (∃ requests, .expired requests ∈ signals ∧ ∃ req ∈ requests, req.key = key)
    ∨ ∃ w, .woke w (.pieceComplete key.pieceId) ∈ signals

variable {key : PieceToBlockKey}

theorem held_removeRequest {tracker : PieceBlockTracker} {req : PeerRequestedPiece}
    (hfit : torrent.PiecesFit build) (h : tracker.Tracks) (hheld : tracker.Held key)
    (hne : req.key ≠ key)
    : (tracker.removeRequest req).2.Held key := by
  have hstep : (trackerTask build torrent).step tracker (.removeRequest req)
      = some (.removed (tracker.removeRequest req).1, (tracker.removeRequest req).2) := rfl
  exact h.held_step hfit hstep hheld hne

theorem held_removeExpired {tracker tracker' : PieceBlockTracker} {now : Nat}
    {requests : List PeerRequestedPiece} (hfit : torrent.PiecesFit build) (h : tracker.Tracks)
    (hheld : tracker.Held key) (hexpire : tracker.removeExpired now = (requests, tracker'))
    (hne : ∀ req ∈ requests, req.key ≠ key)
    : tracker'.Held key := by
  have hstep : (trackerTask build torrent).step tracker (.removeExpired now)
      = some (.expired requests, tracker') := by
    simp only [trackerTask]
    rw [hexpire]
  apply h.held_step hfit hstep hheld
  rintro ⟨req, hreq, hkey⟩
  exact hne req hreq hkey

theorem held_handleWritten {tracker : PieceBlockTracker} {reply : WriteReply}
    (hfit : torrent.PiecesFit build) (h : tracker.Tracks) (hheld : tracker.Held key)
    (hne : reply.finished = true → reply.index ≠ key.pieceId)
    : (tracker.handleWritten reply).Held key := by
  obtain ⟨index, begin, finished⟩ := reply
  unfold PieceBlockTracker.handleWritten
  cases finished with
  | true =>
    have hstep : (trackerTask build torrent).step tracker (.setPieceFinished index)
        = some (.pieceFinished, tracker.setPieceFinished index) := rfl
    exact h.held_step hfit hstep hheld (hne rfl)
  | false =>
    simp only [Bool.false_eq_true, if_false]
    cases hset : tracker.setRequestFinished index begin with
    | none => exact hheld
    | some tracker' => exact (PieceBlockTracker.held_setRequestFinished_iff hset key).mpr hheld

theorem Polled.held {signals : List Signal} (hfit : torrent.PiecesFit build)
    (htracks : p.tracker.Tracks) (h : p.Polled c signals p') (hheld : p.tracker.Held key)
    (hkeeps : ¬Releases key signals)
    : p'.tracker.Held key := by
  cases h with
  | handled conn job lock next torrentState _ _ hget hhandler hlock hjob hproceeded =>
    have htracker : p'.tracker = (p.torrentState.handleJob conn.peerId job).2.pieceBlockTracking := by
      unfold tracker
      rw [hproceeded.torrentState_eq, hjob]
    rw [htracker]
    cases job with
    | message msg =>
      rw [TorrentState.pieceBlockTracking_handleMessage]
      exact hheld
    | reply reply =>
      apply held_handleWritten hfit htracks hheld
      intro hfinished heq
      apply hkeeps
      right
      obtain rfl : (p.torrentState.handleJob conn.peerId (.reply reply)).1 = next := by rw [hjob]
      simp only [TorrentState.handleJob, hfinished, if_true, heq] at hproceeded
      cases hproceeded with
      | wake => exact ⟨_, List.mem_cons_self⟩
  | signalled conn msg _ _ hget hhandler hs =>
    unfold tracker
    rw [hs.torrentState_eq]
    exact hheld
  | _ => exact hheld

theorem Advanced.tracker_eq {signals : List Signal} (hcoherent : p.Coherent)
    (ha : p.Advanced torrentIo torrent signals p')
    (hne : ∀ requests, p.arm ≠ .dispatching requests)
    : p'.tracker = p.tracker := by
  have hedited : p.Edited ⟨true⟩ torrent .advance p'.torrentState := ha.edited hcoherent
  unfold tracker
  generalize p'.torrentState = state' at hedited ⊢
  cases hedited with
  | same => rfl
  | handled c conn job hevent => contradiction
  | forgot c conn => exact TorrentState.removePeer_pieceBlockTracking _ _
  | gaveBack req requests hevent harm => exact absurd harm (hne _)
  | assigned available now requests tracker hevent => contradiction
  | expired now hevent => contradiction

theorem Stepped.held {event : StartEvent} {signals : List Signal} (hfit : torrent.PiecesFit build)
    (htracks : p.tracker.Tracks) (hcoherent : p.Coherent)
    (hs : p.Stepped build torrentIo config torrent event signals p')
    (hne : ∀ requests, p.arm ≠ .dispatching requests) (hheld : p.tracker.Held key)
    (hkeeps : ¬Releases key signals)
    : p'.tracker.Held key := by
  cases hs with
  | polled c _ _ harm hpolled => exact hpolled.held hfit htracks hheld hkeeps
  | advanced _ _ hadvanced =>
    rw [hadvanced.tracker_eq hcoherent hne]
    exact hheld
  | computed available now lock requests tracker harm hlock hiterates hassign =>
    apply ((PieceBlockTracker.generateAssignments_assigns
      (PieceBlockAllocation.offsetsFit_of_mem hfit) hassign).held_iff key).mpr
    exact .inl hheld
  | noneExpired now lock tracker harm hlock hexpire =>
    exact held_removeExpired hfit htracks hheld hexpire (by simp)
  | someExpired now lock req requests tracker harm hlock hexpire =>
    apply held_removeExpired hfit htracks hheld hexpire
    intro req' hreq' hkey
    exact hkeeps (.inl ⟨_, List.mem_cons_self, req', hreq', hkey⟩)
  | _ => exact hheld

def Batched (p : TorrentProcessor σ) : Prop :=
  ∀ requests, p.arm = .dispatching requests →
    (requests.map PeerRequestedPiece.key).Nodup ∧ ∀ req ∈ requests, p.tracker.Held req.key

/--
The block is held, and the loop has no request for it to send.
-/
def Asked (key : PieceToBlockKey) (p : TorrentProcessor σ) : Prop :=
  p.tracker.Held key ∧ ∀ requests, p.arm = .dispatching requests → ∀ req ∈ requests, req.key ≠ key

theorem Batched.dispatches {signals : List Signal} {requests : List PeerRequestedPiece}
    (hfit : torrent.PiecesFit build) (htracks : p.tracker.Tracks) (hbatched : p.Batched)
    (harm : p.arm = .dispatching requests) (h : p.Dispatches requests signals p')
    : p'.Batched := by
  obtain ⟨hnodup, hheld⟩ := hbatched requests harm
  intro requests' harm'
  cases h with
  | waits _ _ heq htracker =>
    rw [heq, Arm.dispatching.injEq] at harm'
    subst harm'
    rw [htracker]
    exact ⟨hnodup, hheld⟩
  | sent req rest _ _ hrequests _ heq htracker =>
    rw [heq, Arm.dispatching.injEq] at harm'
    subst harm' hrequests
    rw [htracker]
    exact ⟨(List.nodup_cons.mp hnodup).2, fun req' hreq' =>
      hheld req' (List.mem_cons_of_mem req hreq')⟩
  | gaveBack req rest _ hrequests heq htracker =>
    rw [heq, Arm.dispatching.injEq] at harm'
    subst harm' hrequests
    rw [List.map_cons, List.nodup_cons] at hnodup
    refine ⟨hnodup.2, ?_⟩
    intro req' hreq'
    rw [htracker]
    apply held_removeRequest hfit htracks (hheld req' (List.mem_cons_of_mem req hreq'))
    intro hkey
    apply hnodup.1
    rw [hkey]
    exact List.mem_map_of_mem hreq'
  | done _ _ heq =>
    rw [heq] at harm'
    contradiction

theorem Batched.stepped {event : StartEvent} {signals : List Signal}
    (hfit : torrent.PiecesFit build) (htracks : p.tracker.Tracks) (hcoherent : p.Coherent)
    (hbatched : p.Batched) (hs : p.Stepped build torrentIo config torrent event signals p')
    : p'.Batched := by
  by_cases harm : ∃ requests, p.arm = .dispatching requests
  . obtain ⟨requests, harm⟩ := harm
    exact hbatched.dispatches hfit htracks harm (hs.dispatches harm).1
  . intro requests harm'
    obtain ⟨available, now, _, _, hassign⟩ :=
      hs.dispatching_of_ne hcoherent (not_exists.mp harm) harm'
    have hassigns := PieceBlockTracker.generateAssignments_assigns
      (PieceBlockAllocation.offsetsFit_of_mem hfit) hassign
    refine ⟨hassigns.nodup, ?_⟩
    intro req hreq
    rw [hassigns.held_iff]
    exact .inr ⟨req, hreq, rfl⟩

theorem Asked.dispatches {signals : List Signal} {requests : List PeerRequestedPiece}
    (hfit : torrent.PiecesFit build) (htracks : p.tracker.Tracks) (hasked : p.Asked key)
    (harm : p.arm = .dispatching requests) (h : p.Dispatches requests signals p')
    : p'.Asked key := by
  obtain ⟨hheld, hnot⟩ := hasked
  replace hnot := hnot requests harm
  cases h with
  | waits _ _ heq htracker =>
    refine ⟨by rwa [htracker], ?_⟩
    intro requests' harm'
    rw [heq, Arm.dispatching.injEq] at harm'
    subst harm'
    exact hnot
  | sent req rest _ _ hrequests _ heq htracker =>
    refine ⟨by rwa [htracker], ?_⟩
    intro requests' harm'
    rw [heq, Arm.dispatching.injEq] at harm'
    subst harm' hrequests
    exact fun req' hreq' => hnot req' (List.mem_cons_of_mem req hreq')
  | gaveBack req rest _ hrequests heq htracker =>
    subst hrequests
    refine ⟨?_, ?_⟩
    . rw [htracker]
      exact held_removeRequest hfit htracks hheld (hnot req List.mem_cons_self)
    . intro requests' harm'
      rw [heq, Arm.dispatching.injEq] at harm'
      subst harm'
      exact fun req' hreq' => hnot req' (List.mem_cons_of_mem req hreq')
  | done _ _ heq htracker =>
    refine ⟨by rwa [htracker], ?_⟩
    intro requests' harm'
    rw [heq] at harm'
    contradiction

theorem Asked.stepped {event : StartEvent} {signals : List Signal}
    (hfit : torrent.PiecesFit build) (htracks : p.tracker.Tracks) (hcoherent : p.Coherent)
    (hasked : p.Asked key) (hs : p.Stepped build torrentIo config torrent event signals p')
    (hkeeps : ¬Releases key signals)
    : p'.Asked key := by
  by_cases harm : ∃ requests, p.arm = .dispatching requests
  . obtain ⟨requests, harm⟩ := harm
    exact hasked.dispatches hfit htracks harm (hs.dispatches harm).1
  . refine ⟨hs.held hfit htracks hcoherent (not_exists.mp harm) hasked.1 hkeeps, ?_⟩
    intro requests harm' req hreq hkey
    obtain ⟨available, now, _, _, hassign⟩ :=
      hs.dispatching_of_ne hcoherent (not_exists.mp harm) harm'
    -- a block that is held is not assigned
    apply (PieceBlockTracker.generateAssignments_assigns
      (PieceBlockAllocation.offsetsFit_of_mem hfit) hassign).fresh req hreq
    rw [hkey]
    exact hasked.1

theorem Batched.asked {event : StartEvent} {signals : List Signal} {index begin length : UInt32}
    (hcoherent : p.Coherent) (hworded : p.Worded) (hbatched : p.Batched)
    (hs : p.Stepped build torrentIo config torrent event signals p')
    (hsent : .sent c (.request index begin length) ∈ signals)
    : p'.Asked ⟨index, begin⟩ := by
  obtain ⟨req, requests, harm, _, rfl, rfl, rfl⟩ := hs.request_of_sent hcoherent hworded hsent
  obtain ⟨hnodup, hheld⟩ := hbatched _ harm
  rw [List.map_cons, List.nodup_cons] at hnodup
  have hdispatches := (hs.dispatches harm).1
  cases hdispatches with
  | waits _ _ _ _ hnone => exact absurd hsent (hnone _ _)
  | gaveBack => contradiction
  | done => contradiction
  | sent req' rest _ _ hrequests _ heq htracker =>
    rw [List.cons.injEq] at hrequests
    obtain ⟨rfl, rfl⟩ := hrequests
    refine ⟨?_, ?_⟩
    . rw [htracker]
      exact hheld req List.mem_cons_self
    . intro requests' harm' req' hreq' hkey
      rw [heq, Arm.dispatching.injEq] at harm'
      subst harm'
      apply hnodup.1
      rw [List.mem_map]
      exact ⟨req', hreq', hkey⟩

theorem tracks_of_run {io : σ} {tr : StartTrace} (hfit : torrent.PiecesFit build)
    (hrun : (startTask build torrentIo config torrent).Run (new config torrent io) tr p)
    : p.tracker.Tracks := by
  obtain ⟨calls, hcalls⟩ := exists_run_torrentState hrun
  exact TorrentState.tracks_of_calls hfit hcalls

theorem batched_of_run {io : σ} {tr : StartTrace} (hfit : torrent.PiecesFit build)
    (hrun : (startTask build torrentIo config torrent).Run (new config torrent io) tr p)
    : p.Batched := by
  suffices h : (startTask build torrentIo config torrent).Run (new config torrent io) tr p
      ∧ p.Batched from h.2
  apply hrun.invariant_trace (P := fun tr p =>
    (startTask build torrentIo config torrent).Run (new config torrent io) tr p ∧ p.Batched)
  . intro tr p event signals p' _ hstep ⟨hrun, hbatched⟩
    exact ⟨hrun.append (.cons trivial hstep (.nil _)),
      hbatched.stepped hfit (tracks_of_run hfit hrun) (coherent_of_run hrun) (stepped_of_step hstep)⟩
  . refine ⟨.nil _, ?_⟩
    intro requests harm
    contradiction

/--
From a request for the block on, up to the step that gives it up.
-/
theorem Asked.run {io : σ} {tr1 tr2 : StartTrace} (hfit : torrent.PiecesFit build)
    (hrun1 : (startTask build torrentIo config torrent).Run (new config torrent io) tr1 p)
    (hasked : p.Asked key) (hrun2 : (startTask build torrentIo config torrent).Run p tr2 p')
    (hkeeps : ∀ x ∈ tr2, ¬Releases key x.2)
    : p'.Asked key := by
  induction hrun2 generalizing tr1 with
  | nil => exact hasked
  | cons _ hstep _ ih =>
    rw [List.forall_mem_cons] at hkeeps
    apply ih (hrun1.append (.cons trivial hstep (.nil _))) _ hkeeps.2
    exact hasked.stepped hfit (tracks_of_run hfit hrun1) (coherent_of_run hrun1)
      (stepped_of_step hstep) hkeeps.1

/--
Between two requests for one block, whoever they go to, the first of them expires or the piece is
reported as complete.
-/
theorem releases_of_run {io : σ} {tr1 tr2 : StartTrace} {event1 event2 : StartEvent}
    {signals1 signals2 : List Signal} {c1 c2 : Nat} {index begin length1 length2 : UInt32}
    (hconsistent : torrent.info.Consistent) (hlength : torrent.info.pieceLength.toInt < 2 ^ 32)
    (hrun : (startTask build torrentIo config torrent).Run (new config torrent io)
      (tr1 ++ (event1, signals1) :: (tr2 ++ [(event2, signals2)])) p)
    (hsent1 : .sent c1 (.request index begin length1) ∈ signals1)
    (hsent2 : .sent c2 (.request index begin length2) ∈ signals2)
    : ∃ x ∈ tr2, Releases ⟨index, begin⟩ x.2 := by
  obtain ⟨allocation, halloc, hlaid⟩ :=
    TorrentAllocation.allocateTorrent_of_consistent (ε := AnyError) build torrent hconsistent
  have hfit := piecesFit_of_laidOut hlength halloc hlaid
  obtain ⟨p1, hrun1, hrun⟩ := Machine.RunWhile.append_iff.mp hrun
  obtain ⟨p2, _, hstep1, hrun⟩ := Machine.RunWhile.cons_iff.mp hrun
  obtain ⟨p3, hrun2, hrun⟩ := Machine.RunWhile.append_iff.mp hrun
  obtain ⟨p4, _, hstep2, _⟩ := Machine.RunWhile.cons_iff.mp hrun
  have hasked := (batched_of_run hfit hrun1).asked (coherent_of_run hrun1) (worded_of_run hrun1)
    (stepped_of_step hstep1) hsent1
  have hrun1' := hrun1.append (.cons trivial hstep1 (.nil _))
  have hrun2' := hrun1'.append hrun2
  by_contra hnone
  have hkeeps : ∀ x ∈ tr2, ¬Releases ⟨index, begin⟩ x.2 :=
    fun x hmem hreleases => hnone ⟨x, hmem, hreleases⟩
  obtain ⟨req, requests, harm, _, rfl, rfl, _⟩ := (stepped_of_step hstep2).request_of_sent
    (coherent_of_run hrun2') (worded_of_run hrun2') hsent2
  exact (hasked.run hfit hrun1' hrun2 hkeeps).2 _ harm req List.mem_cons_self rfl

def dispatchingEvents : List StartEvent :=
  greetingEvents 0 [5] ++ handlingEvents 0 (.flag .unchoke) ++ handlingEvents 0 (.have 0)
    ++ [.recvWakeUp [], .compute [(0, [[5]])] (fun _ => 0)]

def dispatchingAgainEvents : List StartEvent :=
  List.replicate 3 .advance ++ expiringEvents
    ++ [.advance, .recvWakeUp [], .compute [(0, [[5]])] (fun _ => 10 * 10 ^ 9)]

theorem releases_expired
    : ∃ tr1 tr2 p, tr2.map Prod.fst = dispatchingAgainEvents
        ∧ (onePieceTask ⟨false, 8, 8, 1⟩).Run (onePieceStart ⟨false, 8, 8, 1⟩)
          (tr1 ++ (.advance, [.sent 0 (.request 0 0 2)]) :: (tr2
            ++ [(.advance, [.sent 0 (.request 0 0 2)])])) p
        ∧ ∃ x ∈ tr2, Releases ⟨0, 0⟩ x.2 := by
  obtain ⟨tr, p, hrun, hevents, hsignals⟩ := (onePieceTask ⟨false, 8, 8, 1⟩).exists_run_of_exec
    (onePieceStart ⟨false, 8, 8, 1⟩)
    (dispatchingEvents ++ .advance :: (dispatchingAgainEvents ++ [.advance]))
    (fun res => ((res.1.map Prod.snd)[15]?, (res.1.map Prod.snd)[26]?))
    (b := (some [.sent 0 (.request 0 0 2)], some [.sent 0 (.request 0 0 2)]))
    (by decide +kernel)
  obtain ⟨tr1, tr', rfl, htr1, htr'⟩ := List.map_eq_append_iff.mp hevents
  obtain ⟨⟨_, signals1⟩, tr', rfl, rfl, hrest⟩ := List.map_eq_cons_iff.mp htr'
  obtain ⟨tr2, tr', rfl, htr2, hlast⟩ := List.map_eq_append_iff.mp hrest
  obtain ⟨⟨_, signals2⟩, rfl, rfl⟩ := List.map_eq_singleton_iff.mp hlast
  have hlength1 : tr1.length = 15 := by
    rw [← List.length_map (f := Prod.fst), htr1]
    rfl
  have hlength2 : tr2.length = 10 := by
    rw [← List.length_map (f := Prod.fst), htr2]
    rfl
  simp only [List.map_append, List.map_cons, List.map_nil, List.getElem?_append, List.length_map,
    hlength1, Prod.mk.injEq] at hsignals
  obtain ⟨hsignals1, hsignals2⟩ := hsignals
  obtain rfl : signals1 = [.sent 0 (.request 0 0 2)] := by simpa using hsignals1
  obtain rfl : signals2 = [.sent 0 (.request 0 0 2)] := by simpa [hlength2] using hsignals2
  exact ⟨tr1, tr2, p, htr2, hrun, releases_of_run (by decide +kernel) (by decide +kernel) hrun
    List.mem_cons_self List.mem_cons_self⟩

end TorrentProcessor
