import BenTorrent.Peer.Start.Step
import BenTorrent.Peer.State.History

/-!
This module contains that the state of the peers changes with each step of the loop as with a call
of its own, and so what holds of it after any calls.
-/

open Rust

namespace TorrentState

variable {state state' : TorrentState}

theorem signalInterest_snd (res : Option Bool × TorrentState) : (signalInterest res).2 = res.2 := by
  obtain ⟨interest, state⟩ := res
  cases interest with
  | none => rfl
  | some interest => rfl

theorem signalInterest_eq_signal {res : Option Bool × TorrentState} {msg : Messages}
    (h : (signalInterest res).1 = .signal msg)
    : ∃ interest, msg = FlagMessages.interestMsg interest := by
  obtain ⟨interest, state⟩ := res
  cases interest with
  | none => simp [signalInterest] at h
  | some interest =>
    simp only [signalInterest, Next.signal.injEq] at h
    exact ⟨interest, h.symm⟩

theorem handleJob_eq_signal {peerId : PeerId} {job : Job} {msg : Messages}
    (hjob : state.handleJob peerId job = (.signal msg, state'))
    : ∃ interest, msg = FlagMessages.interestMsg interest := by
  have h : (state.handleJob peerId job).1 = .signal msg := by rw [hjob]
  cases job with
  | reply reply => simp [handleJob] at h
  | message msg' =>
    cases msg' with
    | «have» pieceIndex => exact signalInterest_eq_signal h
    | bitField bitfield => exact signalInterest_eq_signal h
    | request index begin length =>
      simp only [handleJob] at h
      split at h
      . contradiction
      . contradiction
    | flag flag => simp [handleJob] at h
    | keepAlive => simp [handleJob] at h
    | cancel => simp [handleJob] at h
    | piece => simp [handleJob] at h

theorem pieceBlockTracking_handleMessage (peerId : PeerId) (msg : Messages)
    : (state.handleJob peerId (.message msg)).2.pieceBlockTracking = state.pieceBlockTracking := by
  cases msg with
  | flag flag =>
    simp only [handleJob]
    cases flag with
    | choke => exact setPeerChokedUs_pieceBlockTracking state peerId true
    | unchoke => exact setPeerChokedUs_pieceBlockTracking state peerId false
    | interested => exact setPeersInterestedInUs_pieceBlockTracking state peerId true
    | notInterested => exact setPeersInterestedInUs_pieceBlockTracking state peerId false
  | «have» pieceIndex =>
    simp only [handleJob, signalInterest_snd]
    apply addPiecesForPeer_pieceBlockTracking
  | bitField bitfield =>
    simp only [handleJob, signalInterest_snd]
    apply addPiecesForPeer_pieceBlockTracking
  | request =>
    simp only [handleJob]
    split
    . rfl
    . rfl
  | keepAlive => rfl
  | cancel => rfl
  | piece => rfl

inductive CalledOrSame (build : Build) (torrent : V1Torrent) (state : TorrentState)
    : TorrentState → Prop where
  | same : CalledOrSame build torrent state state
  | called (event : PeerEvent) (reply : PeerReply) (state' : TorrentState)
      (hguard : state.AssignsAvailable event)
      (hstep : (torrentStateTask build torrent).step state event = some (reply, state'))
      : CalledOrSame build torrent state state'

variable {build : Build} {torrent : V1Torrent}

theorem calledOrSame_tracker (event : TrackerEvent) (reply : TrackerReply)
    {tracker : PieceBlockTracker}
    (hstep : (trackerTask build torrent).step state.pieceBlockTracking event = some (reply, tracker))
    (hguard : state.AssignsAvailable (.tracker event))
    : CalledOrSame build torrent state { state with pieceBlockTracking := tracker } := by
  refine .called (.tracker event) (.tracked reply) _ hguard ?_
  simp only [torrentStateTask]
  rw [hstep]

theorem calledOrSame_handleFlag (peerId : PeerId) (flag : FlagMessages)
    : CalledOrSame build torrent state (state.handleFlag peerId flag) := by
  cases flag with
  | choke => exact .called (.chokedUs peerId true) .updated _ trivial rfl
  | unchoke => exact .called (.chokedUs peerId false) .updated _ trivial rfl
  | interested => exact .called (.interestedInUs peerId true) .updated _ trivial rfl
  | notInterested => exact .called (.interestedInUs peerId false) .updated _ trivial rfl

theorem calledOrSame_addPieces (peerId : PeerId) (pieces : List UInt32)
    : CalledOrSame build torrent state (signalInterest (state.addPiecesForPeer peerId pieces)).2 := by
  rw [signalInterest_snd]
  exact .called (.addPieces peerId pieces) (.interest (state.addPiecesForPeer peerId pieces).1) _
    trivial rfl

theorem calledOrSame_handleWritten (reply : WriteReply)
    : CalledOrSame build torrent state
        { state with pieceBlockTracking := state.pieceBlockTracking.handleWritten reply } := by
  obtain ⟨index, begin, finished⟩ := reply
  unfold PieceBlockTracker.handleWritten
  cases finished with
  | true =>
    exact calledOrSame_tracker (.setPieceFinished index) .pieceFinished rfl trivial
  | false =>
    simp only [Bool.false_eq_true, if_false]
    cases hset : state.pieceBlockTracking.setRequestFinished index begin with
    | none => exact .same
    | some tracker =>
      refine calledOrSame_tracker (.setRequestFinished index begin) (.finished true) ?_ trivial
      simp only [trackerTask]
      rw [hset]
      rfl

theorem calledOrSame_handleJob (peerId : PeerId) (job : Job)
    : CalledOrSame build torrent state (state.handleJob peerId job).2 := by
  cases job with
  | reply reply => exact calledOrSame_handleWritten reply
  | message msg =>
    cases msg with
    | flag flag => exact calledOrSame_handleFlag peerId flag
    | «have» pieceIndex => exact calledOrSame_addPieces peerId [pieceIndex]
    | bitField bitfield => exact calledOrSame_addPieces peerId _
    | request index begin length =>
      simp only [handleJob]
      split
      . exact .same
      . exact .same
    | _ => exact .same

end TorrentState

namespace TorrentProcessor

variable {σ : Type u} {p p' : TorrentProcessor σ} {c : Nat}
variable {build : Build} {torrentIo : TorrentIo σ} {config : Config} {torrent : V1Torrent}

open TorrentState (CalledOrSame)

theorem Told.torrentState_eq {peerId : PeerId} {msg : Messages} {delivery : Delivery}
    {signals : List Signal} (h : p.Told peerId msg delivery signals p')
    : p'.torrentState = p.torrentState := by
  obtain ⟨_, f, rfl, _⟩ := h.update_eq
  rfl

theorem Delivered.torrentState_eq {w : Party} {msg : Messages} {delivery : Delivery}
    (h : p.Delivered w c msg delivery p')
    : p'.torrentState = p.torrentState := by
  obtain ⟨f, rfl, _⟩ := h.update_eq
  rfl

inductive Edited (build : Build) (torrent : V1Torrent) (p : TorrentProcessor σ) (event : StartEvent)
    : TorrentState → Prop where
  | same : Edited build torrent p event p.torrentState
  | handled (c : Nat) (conn : PeerConnection) (job : Job) (hevent : event = .poll c)
      (hget : p.connections[c]? = some conn) (hhandler : conn.handler = .locking job)
      (hacquires : (p.lock.lock (.handler c)).1 = true)
      : Edited build torrent p event (p.torrentState.handleJob conn.peerId job).2
  | forgot (c : Nat) (conn : PeerConnection) (hevent : event = .advance)
      (harm : p.arm = .closing c) (hget : p.connections[c]? = some conn)
      : Edited build torrent p event (p.torrentState.removePeer conn.peerId)
  | gaveBack (req : PeerRequestedPiece) (requests : List PeerRequestedPiece)
      (hevent : event = .advance) (harm : p.arm = .dispatching (req :: requests))
      (hclosed : ∀ c conn, p.peerToTx.lookup req.peerId = some c →
        p.connections[c]? = some conn → conn.link = .ended)
      : Edited build torrent p event
          { p.torrentState with pieceBlockTracking := (p.tracker.removeRequest req).2 }
  | assigned (available : List (UInt32 × List PeerId)) (now : UInt32 → Nat)
      (requests : List PeerRequestedPiece) (tracker : PieceBlockTracker)
      (hevent : event = .compute available now)
      (hiterates : TorrentState.Iterates p.torrentState.pieceIdToPeers available)
      (hassign : (p.tracker.generateAssignments build torrent now available : Outcome AnyError _)
        = .ok (requests, tracker))
      : Edited build torrent p event { p.torrentState with pieceBlockTracking := tracker }
  | expired (now : Nat) (hevent : event = .expire now)
      : Edited build torrent p event
          { p.torrentState with pieceBlockTracking := (p.tracker.removeExpired now).2 }

theorem Polled.edited {signals : List Signal} (h : p.Polled c signals p')
    : p.Edited build torrent (.poll c) p'.torrentState := by
  cases h with
  | received => exact .same
  | finished => exact .same
  | lockPending => exact .same
  | woken => exact .same
  | signalled conn msg _ _ hget hhandler hs =>
    rw [hs.torrentState_eq]
    exact .same
  | handled conn job lock next torrentState _ _ hget hhandler hlock hjob hproceeded =>
    rw [hproceeded.torrentState_eq]
    have hstate : (p.torrentState.handleJob conn.peerId job).2 = torrentState := by rw [hjob]
    show p.Edited build torrent (.poll c) torrentState
    rw [← hstate]
    exact .handled c conn job rfl hget hhandler (by rw [hlock])

theorem Advanced.edited {signals : List Signal} (h : p.Coherent)
    (ha : p.Advanced torrentIo torrent signals p')
    : p.Edited build torrent .advance p'.torrentState := by
  unfold Coherent at h
  have hsame : ∀ {q : TorrentProcessor σ}, q.torrentState = p.torrentState →
      p.Edited build torrent .advance q.torrentState := by
    intro q heq
    rw [heq]
    exact .same
  cases ha with
  | greeted c msg msgs p1 harm hdelivered => exact hsame (q := p1) hdelivered.torrentState_eq
  | greetPending c msg msgs p1 harm hdelivered => exact hsame hdelivered.torrentState_eq
  | closing c lock conn harm hlock hget => exact .forgot c conn rfl harm hget
  | passed peerId msg arm _ _ p1 hpasses htold hdone => exact hsame (q := p1) htold.torrentState_eq
  | passPending peerId msg arm _ _ hpasses htold => exact hsame htold.torrentState_eq
  | queued req lock harm hlock =>
    obtain ⟨requests, heq⟩ := queueRequests_eq { p with lock } req
    rw [heq]
    exact .same
  | dispatched req requests _ p1 harm htold => exact hsame (q := p1) htold.torrentState_eq
  | dispatchPending req requests _ _ harm htold => exact hsame htold.torrentState_eq
  | undelivered req requests harm hclosed => exact .gaveBack req requests rfl harm hclosed
  | choked peerId choked combinedPeers _ _ harm =>
    rw [harm] at h
    contradiction
  | _ => exact .same

theorem Stepped.edited {event : StartEvent} {signals : List Signal} (h : p.Coherent)
    (hs : p.Stepped build torrentIo config torrent event signals p')
    : p.Edited build torrent event p'.torrentState := by
  have hexpired : ∀ {now requests tracker}, p.tracker.removeExpired now = (requests, tracker) →
      p.Edited build torrent (.expire now)
        { p.torrentState with pieceBlockTracking := tracker } := by
    intro now requests tracker hexpire
    obtain rfl : (p.tracker.removeExpired now).2 = tracker := by rw [hexpire]
    exact .expired now rfl
  cases hs with
  | polled c _ _ harm hpolled => exact hpolled.edited
  | advanced _ _ hadvanced => exact hadvanced.edited h
  | computed available now lock requests tracker harm hlock hiterates hassign =>
    exact .assigned available now requests tracker rfl hiterates hassign
  | noneExpired now lock tracker harm hlock hexpire => exact hexpired hexpire
  | someExpired now lock req requests tracker harm hlock hexpire => exact hexpired hexpire
  | _ => exact .same

theorem Stepped.calledOrSame {event : StartEvent} {signals : List Signal} (h : p.Coherent)
    (hs : p.Stepped build torrentIo config torrent event signals p')
    : CalledOrSame build torrent p.torrentState p'.torrentState := by
  have hedited := hs.edited h
  generalize p'.torrentState = state' at hedited ⊢
  cases hedited with
  | same => exact .same
  | handled c conn job => exact TorrentState.calledOrSame_handleJob conn.peerId job
  | forgot c conn => exact .called (.removePeer conn.peerId) .updated _ trivial rfl
  | gaveBack req requests =>
    exact TorrentState.calledOrSame_tracker (.removeRequest req)
      (.removed (p.tracker.removeRequest req).1) rfl trivial
  | assigned available now requests tracker _ hiterates hassign =>
    refine TorrentState.calledOrSame_tracker (.generateAssignments available now)
      (.assigned requests) ?_ hiterates
    simp only [trackerTask]
    unfold TorrentProcessor.tracker at hassign
    rw [hassign]
  | expired now =>
    exact TorrentState.calledOrSame_tracker (.removeExpired now)
      (.expired (p.tracker.removeExpired now).1) rfl trivial

theorem coherent_of_run {io : σ} {tr : StartTrace}
    (hrun : (startTask build torrentIo config torrent).Run (new config torrent io) tr p)
    : p.Coherent := by
  apply hrun.invariant
  . intro p event signals p' _ hstep h
    exact h.stepped (stepped_of_step hstep)
  . trivial

/--
The state of the peers in a run of the loop is one that calls of its own lead to.
-/
theorem exists_run_torrentState {io : σ} {tr : StartTrace}
    (hrun : (startTask build torrentIo config torrent).Run (new config torrent io) tr p)
    : ∃ calls, (torrentStateTask build torrent).RunWhile TorrentState.AssignsAvailable
        (TorrentState.new torrent.info.pieces config.maxOutstandingRequests) calls p.torrentState := by
  suffices h : p.Coherent ∧ ∃ calls, (torrentStateTask build torrent).RunWhile
      TorrentState.AssignsAvailable
      (TorrentState.new torrent.info.pieces config.maxOutstandingRequests) calls p.torrentState from
    h.2
  apply hrun.invariant (P := fun p => p.Coherent ∧ ∃ calls,
    (torrentStateTask build torrent).RunWhile TorrentState.AssignsAvailable
      (TorrentState.new torrent.info.pieces config.maxOutstandingRequests) calls p.torrentState)
  . intro p event signals p' _ hstep ⟨hcoherent, calls, hcalls⟩
    have hs := stepped_of_step hstep
    refine ⟨hcoherent.stepped hs, ?_⟩
    have hcalled := hs.calledOrSame hcoherent
    generalize p'.torrentState = state' at hcalled ⊢
    cases hcalled with
    | same => exact ⟨calls, hcalls⟩
    | called event reply _ hguard hcall =>
      exact ⟨calls ++ [(event, reply)], hcalls.append (.cons hguard hcall (.nil _))⟩
  . exact ⟨trivial, [], .nil _⟩

end TorrentProcessor
