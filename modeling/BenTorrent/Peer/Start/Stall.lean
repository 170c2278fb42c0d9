import BenTorrent.Peer.Start.Pending
import BenTorrent.Peer.Start.Sent
import BenTorrent.Peer.State.Offer

/-!
This module contains when the loop goes to sleep although a peer is there to be asked.
-/

open Rust

namespace Arm

def Assigns : Arm → Prop
  | .announcing _ _ => True
  | .queueing _ => True
  | .computing => True
  | .wakingUp => True
  | _ => False

def nextToDispatch : Arm → Option PeerRequestedPiece
  | .dispatching (req :: _) => some req
  | _ => none

end Arm

namespace Handler

def IsWaking : Handler → Prop
  | .waking _ => True
  | _ => False

instance (handler : Handler) : Decidable handler.IsWaking := by
  unfold IsWaking
  split
  . infer_instance
  . infer_instance

def IsSignalling : Handler → Prop
  | .signalling _ => True
  | _ => False

instance (handler : Handler) : Decidable handler.IsSignalling := by
  unfold IsSignalling
  split
  . infer_instance
  . infer_instance

end Handler

namespace TorrentState

variable {state : TorrentState} {peerId : PeerId} {job : Job}

theorem handleJob_of_receive (h : (state.handleJob peerId job).1 = .receive)
    : (state.handleJob peerId job).2 = state := by
  have hsignal : ∀ {res : Option Bool × TorrentState}, (signalInterest res).1 ≠ .receive := by
    intro ⟨interest, state⟩
    cases interest with
    | none => simp [signalInterest]
    | some interest => simp [signalInterest]
  cases job with
  | reply reply => contradiction
  | message msg =>
    cases msg with
    | flag flag => contradiction
    | «have» pieceIndex => exact absurd h hsignal
    | bitField bitfield => exact absurd h hsignal
    | request index begin length =>
      simp only [handleJob]
      split
      . rfl
      . rfl
    | keepAlive => rfl
    | cancel => rfl
    | piece => rfl

theorem handleJob_of_signal {msg : Messages} (h : (state.handleJob peerId job).1 = .signal msg)
    : ∃ pieces, (state.handleJob peerId job).2 = (state.addPiecesForPeer peerId pieces).2 := by
  cases job with
  | reply reply => contradiction
  | message msg' =>
    cases msg' with
    | flag flag => contradiction
    | «have» pieceIndex => exact ⟨[pieceIndex], signalInterest_snd _⟩
    | bitField bitfield =>
      exact ⟨BitFieldReader.piecesPresent ⟨bitfield⟩, signalInterest_snd _⟩
    | request index begin length =>
      simp only [handleJob] at h
      split at h
      . contradiction
      . contradiction
    | keepAlive => contradiction
    | cancel => contradiction
    | piece => contradiction

theorem maxOutstandingRequests_handleJob
    : (state.handleJob peerId job).2.pieceBlockTracking.maxOutstandingRequests
        =
      state.pieceBlockTracking.maxOutstandingRequests := by
  cases job with
  | message msg => rw [pieceBlockTracking_handleMessage]
  | reply reply =>
    dsimp only [handleJob]
    unfold PieceBlockTracker.handleWritten
    split
    . rfl
    . cases hset : state.pieceBlockTracking.setRequestFinished reply.index reply.begin with
      | none => rfl
      | some tracker => exact PieceBlockTracker.maxOutstandingRequests_setRequestFinished hset

end TorrentState

namespace TorrentProcessor

variable {σ : Type u} {p p' : TorrentProcessor σ} {c : Nat}
variable {build : Build} {torrentIo : TorrentIo σ} {config : Config} {torrent : V1Torrent}

def WakeUpComes (p : TorrentProcessor σ) : Prop :=
  p.wakeUp.msgs ≠ [] ∨ ∃ conn ∈ p.connections, conn.handler.IsWaking

instance : Decidable p.WakeUpComes :=
  inferInstanceAs (Decidable (_ ∨ _))

structure IsIdle (p : TorrentProcessor σ) : Prop where
  arm_eq : p.arm = .select
  noWakeUp : ¬p.WakeUpComes
  noneSignals : ∀ conn ∈ p.connections, ¬conn.handler.IsSignalling

instance : Decidable p.IsIdle :=
  decidable_of_iff (p.arm = .select ∧ ¬p.WakeUpComes
      ∧ ∀ conn ∈ p.connections, ¬conn.handler.IsSignalling)
    ⟨fun ⟨harm, hcomes, hsignals⟩ => ⟨harm, hcomes, hsignals⟩,
      fun h => ⟨h.arm_eq, h.noWakeUp, h.noneSignals⟩⟩

def IsReached (p : TorrentProcessor σ) (peerId : PeerId) : Prop :=
  ∃ c, p.Reaches peerId c

instance (peerId : PeerId) : Decidable (p.IsReached peerId) :=
  decidable_of_iff (∃ c ∈ p.peerToTx.lookup peerId, ∃ conn ∈ p.connections[c]?, conn.link ≠ .ended)
    (Iff.rfl)

/--
A peer that the loop reaches and that does not choke us has announced an incomplete piece of the
kind.
-/
def Offered (φ : UInt32 → Prop) (p : TorrentProcessor σ) : Prop :=
  ∃ peerId, p.IsReached peerId ∧ p.torrentState.Offers φ peerId

instance (φ : UInt32 → Prop) [DecidablePred φ] : Decidable (p.Offered φ) :=
  decidable_of_iff (∃ peerId ∈ p.torrentState.peersThatChoke false,
    p.IsReached peerId ∧ p.torrentState.Offers φ peerId) <| by
    constructor
    . rintro ⟨peerId, _, hreached, hoffers⟩
      exact ⟨peerId, hreached, hoffers⟩
    . rintro ⟨peerId, hreached, hoffers⟩
      exact ⟨peerId, hoffers.1, hreached, hoffers⟩

/--
While a peer is there to be asked, a request is out whose answer or expiry wakes the loop up.
-/
def NoLostWakeUp (build : Build) (torrent : V1Torrent) (p : TorrentProcessor σ) : Prop :=
  p.IsIdle → 0 < p.tracker.maxOutstandingRequests →
    p.Offered (p.tracker.Lacks build torrent) → 0 < p.tracker.downloadingRequestsLen

/--
Nobody is registered who could have been asked before, and no request comes back undelivered while a
peer is there to be asked: at least while nothing else will wake the loop up.
-/
def StaysAwake (build : Build) (torrent : V1Torrent) (p : TorrentProcessor σ) : StartEvent → Prop
  | .advance => 0 < p.tracker.maxOutstandingRequests →
    (∀ c ∈ p.arm.greeted, ∀ conn ∈ p.connections[c]?, conn.link ≠ .ended →
      p.torrentState.Offers (p.tracker.Lacks build torrent) conn.peerId →
        p.WakeUpComes ∨ 0 < p.tracker.downloadingRequestsLen)
    ∧ ∀ req ∈ p.arm.nextToDispatch, p.IsReached req.peerId ∨ p.WakeUpComes
      ∨ 1 < p.tracker.downloadingRequestsLen
      ∨ ¬p.Offered fun piece => piece = req.index ∨ p.tracker.Lacks build torrent piece
  | _ => True

instance (event : StartEvent) : Decidable (p.StaysAwake build torrent event) := by
  unfold StaysAwake
  split
  . infer_instance
  . infer_instance

theorem wakeUpComes_iff : p.WakeUpComes ↔ ∃ msg, p.Pending msg := by
  unfold WakeUpComes Pending HasHandler
  constructor
  . rintro (hmsgs | ⟨conn, hconn, hwaking⟩)
    . obtain ⟨msg, hmem⟩ := List.exists_mem_of_ne_nil _ hmsgs
      exact ⟨msg, .inl hmem⟩
    . rw [List.mem_iff_getElem?] at hconn
      obtain ⟨c, hget⟩ := hconn
      generalize hhandler : conn.handler = handler at hwaking
      cases handler with
      | waking msg => exact ⟨msg, .inr ⟨c, conn, hget, hhandler⟩⟩
      | _ => contradiction
  . rintro ⟨msg, hmem | ⟨c, conn, hget, hhandler⟩⟩
    . exact .inl (List.ne_nil_of_mem hmem)
    . refine .inr ⟨conn, List.mem_of_getElem? hget, ?_⟩
      rw [hhandler]
      trivial

def WillAssign (p : TorrentProcessor σ) : Prop :=
  p.arm.Assigns ∨ p.WakeUpComes

theorem Stepped.willAssign_of_arm {event : StartEvent} {signals : List Signal}
    (hs : p.Stepped build torrentIo config torrent event signals p')
    (hcompute : ∀ available now, event ≠ .compute available now) (h : p.arm.Assigns)
    : p'.WillAssign := by
  cases hs with
  | connected => exact .inl h
  | linked => exact .inl h
  | written => exact .inl h
  | writeFailed => exact .inl h
  | lockPending => exact .inl h
  | computed available now => exact absurd rfl (hcompute available now)
  | advanced _ _ hadvanced =>
    cases hadvanced with
    | lockPending => exact .inl h
    | passed peerId msg arm _ _ p1 hpasses htold hdone =>
      left
      show arm.Assigns
      generalize p.arm = arm' at h hpasses
      cases hpasses with
      | announcing => trivial
      | sending => contradiction
    | passPending peerId msg arm _ _ hpasses htold =>
      left
      rw [htold.arm_eq]
      exact h
    | announced => exact .inl trivial
    | queued => exact .inl trivial
    | wokeUp wakeUp harm hsend =>
      right
      left
      show wakeUp.msgs ≠ []
      rw [(Channel.send_eq_true hsend).2.1]
      simp
    | wakePending => exact .inl h
    | _ =>
      simp only [*] at h
      contradiction
  | _ =>
    simp only [*] at h
    contradiction

theorem Stepped.willAssign {event : StartEvent} {signals : List Signal} (h : p.Coherent)
    (hs : p.Stepped build torrentIo config torrent event signals p')
    (hcompute : ∀ available now, event ≠ .compute available now) (hwill : p.WillAssign)
    : p'.WillAssign := by
  rcases hwill with hassigns | hcomes
  . exact hs.willAssign_of_arm hcompute hassigns
  . obtain ⟨msg, hpending⟩ := wakeUpComes_iff.mp hcomes
    rcases hs.pending h hpending with hpending | hstarts
    . exact .inr (wakeUpComes_iff.mpr ⟨msg, hpending⟩)
    . left
      generalize p'.arm = arm at hstarts
      cases hstarts with
      | wakeup => trivial
      | pieceComplete => trivial
      | peerRequestedPiece => trivial

/--
The handler of a connection with the peer is about to wake the loop up after a message to the peer,
or the loop is about to forget the peer.
-/
def UnderWay (p : TorrentProcessor σ) (peerId : PeerId) : Prop :=
  ∃ c conn, p.connections[c]? = some conn ∧ conn.peerId = peerId
    ∧ ((∃ msg, conn.handler = .signalling msg) ∨ p.arm = .closing c)

theorem Signalled.underWay {msg : Messages} {signals : List Signal} {conn : PeerConnection}
    (h : p.Signalled c msg signals p') (hget : p.connections[c]? = some conn)
    : p'.WakeUpComes ∨ p'.UnderWay conn.peerId := by
  cases h with
  | delivered p1 hdelivered =>
    left
    obtain ⟨conn1, hget1, _⟩ := hasHandler_delivered ⟨conn, hget, rfl⟩ hdelivered
    rw [wakeUpComes_iff]
    exact ⟨.wakeup, pending_wake (p := p1.unlock) hget1 .wakeup⟩
  | pending p1 hdelivered =>
    right
    obtain ⟨f, rfl, hf⟩ := hdelivered.update_eq
    have hget1 : (p.update c f).connections[c]? = some (f conn) := by
      rw [getElem?_update]
      exact ⟨conn, hget, by rw [if_pos rfl]⟩
    refine ⟨c, _, getElem?_update.mpr ⟨f conn, hget1, rfl⟩, ?_, .inl ⟨msg, ?_⟩⟩
    . rw [if_pos rfl, hf conn]
    . rw [if_pos rfl]
  | closed =>
    right
    refine ⟨c, _, getElem?_update.mpr ⟨conn, hget, rfl⟩, ?_, .inr rfl⟩
    rw [if_pos rfl]

theorem UnderWay.closing {event : StartEvent} {signals : List Signal} {conn : PeerConnection}
    (hcoherent : p.Coherent) (hs : p.Stepped build torrentIo config torrent event signals p')
    (hget : p.connections[c]? = some conn) (harm : p.arm = .closing c)
    : p'.UnderWay conn.peerId ∨ conn.peerId ∉ p'.torrentState.peers := by
  have hstays : p'.arm = p.arm → p'.UnderWay conn.peerId := by
    intro heq
    obtain ⟨conn', hget', hid⟩ := hs.getElem? hcoherent hget
    exact ⟨c, conn', hget', hid, .inr (heq.trans harm)⟩
  cases hs with
  | connected => exact .inl (hstays rfl)
  | linked => exact .inl (hstays rfl)
  | written => exact .inl (hstays rfl)
  | writeFailed => exact .inl (hstays rfl)
  | lockPending => exact .inl (hstays rfl)
  | advanced _ _ hadvanced =>
    cases hadvanced with
    | lockPending => exact .inl (hstays rfl)
    | closing d lock conn1 harm1 hlock hget1 =>
      right
      rw [harm, Arm.closing.injEq] at harm1
      rw [← harm1, hget, Option.some.injEq] at hget1
      rw [hget1]
      intro hmem
      exact (TorrentState.mem_peers_removePeer.mp hmem).1 rfl
    | passed peerId msg arm _ _ p1 hpasses =>
      rw [harm] at hpasses
      contradiction
    | passPending peerId msg arm _ _ hpasses =>
      rw [harm] at hpasses
      contradiction
    | _ =>
      rw [harm] at *
      contradiction
  | _ =>
    rw [harm] at *
    contradiction

theorem UnderWay.stepped {event : StartEvent} {signals : List Signal} {peerId : PeerId}
    (h : p.UnderWay peerId) (hcoherent : p.Coherent)
    (hs : p.Stepped build torrentIo config torrent event signals p')
    : p'.WakeUpComes ∨ p'.UnderWay peerId ∨ peerId ∉ p'.torrentState.peers := by
  obtain ⟨c, conn, hget, rfl, ⟨msg, hhandler⟩ | harm⟩ := h
  . by_cases hpoll : event = .poll c
    . subst hpoll
      cases hs with
      | lockPending _ _ hlocks => exact absurd hlocks id
      | polled _ _ _ harm hpolled =>
        have hconn : ∀ {conn'}, p.connections[c]? = some conn' → conn'.handler = .signalling msg := by
          intro conn' hget'
          rw [hget, Option.some.injEq] at hget'
          rwa [← hget']
        cases hpolled with
        | signalled conn1 msg1 _ _ hget1 hhandler1 hsignalled =>
          rcases hsignalled.underWay hget with hcomes | hway
          . exact .inl hcomes
          . exact .inr (.inl hway)
        | finished conn1 hget1 hhandler1 =>
          rw [hconn hget1] at hhandler1
          simp at hhandler1
        | received conn1 _ _ hget1 hhandler1 =>
          rw [hconn hget1] at hhandler1
          contradiction
        | lockPending conn1 _ _ hget1 hhandler1 =>
          rw [hconn hget1] at hhandler1
          contradiction
        | handled conn1 _ _ _ _ _ _ hget1 hhandler1 =>
          rw [hconn hget1] at hhandler1
          contradiction
        | woken conn1 _ hget1 hhandler1 =>
          rw [hconn hget1] at hhandler1
          contradiction
    . obtain ⟨conn1, hget1, hhandler1⟩ := hs.hasHandler hcoherent hpoll ⟨conn, hget, hhandler⟩ trivial
      obtain ⟨conn2, hget2, hid⟩ := hs.getElem? hcoherent hget
      rw [hget1, Option.some.injEq] at hget2
      subst hget2
      exact .inr (.inl ⟨c, conn1, hget1, hid, .inl ⟨msg, hhandler1⟩⟩)
  . exact .inr (UnderWay.closing hcoherent hs hget harm)

/--
The loop is on its way to an assignment or will be, or the peers that it could ask are just being
dealt with.
-/
def Awake (build : Build) (torrent : V1Torrent) (p : TorrentProcessor σ) : Prop :=
  p.WillAssign ∨ 0 < p.tracker.downloadingRequestsLen ∨ ∀ peerId, p.IsReached peerId →
    p.torrentState.Offers (p.tracker.Lacks build torrent) peerId → p.UnderWay peerId

theorem Awake.noLostWakeUp (h : p.Awake build torrent) : p.NoLostWakeUp build torrent := by
  intro hidle _ ⟨peerId, hreached, hoffers⟩
  rcases h with (hassigns | hcomes) | hlen | hall
  . rw [hidle.arm_eq] at hassigns
    contradiction
  . exact absurd hcomes hidle.noWakeUp
  . exact hlen
  . obtain ⟨c, conn, hget, _, ⟨msg, hhandler⟩ | harm⟩ := hall peerId hreached hoffers
    . refine absurd ?_ (hidle.noneSignals conn (List.mem_of_getElem? hget))
      rw [hhandler]
      trivial
    . rw [hidle.arm_eq] at harm
      contradiction

theorem awake_of_assigned {available : List (UInt32 × List PeerId)} {now : UInt32 → Nat}
    {requests : List PeerRequestedPiece} {tracker : PieceBlockTracker}
    (hpos : 0 < p.tracker.maxOutstandingRequests) (hmax : p.tracker.maxOutstandingRequests < 2 ^ 64)
    (hmirrored : p.torrentState.blockPeerMap.Mirrored)
    (hiterates : TorrentState.Iterates p.torrentState.pieceIdToPeers available)
    (hassign : (p.tracker.generateAssignments build torrent now available : Outcome AnyError _)
      = .ok (requests, tracker))
    (hstate : p'.torrentState = { p.torrentState with pieceBlockTracking := tracker })
    : p'.Awake build torrent := by
  have htracker : p'.tracker = tracker := by
    unfold TorrentProcessor.tracker
    rw [hstate]
  right
  by_cases hlen : 0 < tracker.downloadingRequestsLen
  . left
    rwa [htracker]
  . right
    obtain ⟨rfl, hnone⟩ :=
      PieceBlockTracker.generateAssignments_idle hassign (Nat.eq_zero_of_not_pos hlen) hpos hmax
    intro peerId _ hoffers
    rw [htracker, hstate] at hoffers
    replace hoffers : p.torrentState.Offers (p.tracker.Lacks build torrent) peerId := hoffers
    obtain ⟨entry, hentry, hpeers, hlacks⟩ := hoffers.exists_available hmirrored hiterates
    exact absurd hlacks (hnone entry hentry hpeers)

theorem offers_of_removeRequest {req : PeerRequestedPiece} {peerId : PeerId}
    (h : { p.torrentState with pieceBlockTracking := (p.tracker.removeRequest req).2 }.Offers
      ((p.tracker.removeRequest req).2.Lacks build torrent) peerId)
    : p.torrentState.Offers
        (fun piece => piece = req.index ∨ p.tracker.Lacks build torrent piece) peerId := by
  obtain ⟨hpeer, piece, hpiece, hhas, hlacks⟩ := h
  replace hpiece : piece ∈ (p.tracker.removeRequest req).2.getIncompletePieces := hpiece
  rw [PieceBlockTracker.getIncompletePieces_removeRequest] at hpiece
  refine ⟨hpeer, piece, hpiece, hhas, ?_⟩
  by_cases heq : piece = req.index
  . exact .inl heq
  . right
    apply hlacks.of_held
    intro begin hheld
    exact PieceBlockTracker.held_removeRequest hheld heq

theorem Stepped.handled {signals : List Signal} {conn : PeerConnection} {job : Job}
    (hs : p.Stepped build torrentIo config torrent (.poll c) signals p')
    (hget : p.connections[c]? = some conn) (hhandler : conn.handler = .locking job)
    (hacquires : (p.lock.lock (.handler c)).1 = true)
    (hstate : p'.torrentState = (p.torrentState.handleJob conn.peerId job).2)
    : p'.WakeUpComes ∨ p'.torrentState = p.torrentState
        ∨ (p'.tracker = p.tracker ∧ p'.UnderWay conn.peerId ∧ ∀ peerId φ, peerId ≠ conn.peerId →
          p'.torrentState.Offers φ peerId → p.torrentState.Offers φ peerId) := by
  cases hs with
  | lockPending _ _ hlocks => exact absurd hlocks id
  | polled _ _ _ harm hpolled =>
    obtain ⟨lock, _, hproceeded⟩ := hpolled.of_locking hget hhandler hacquires
    generalize hnext : (p.torrentState.handleJob conn.peerId job).1 = next at hproceeded
    cases hproceeded with
    | receive => exact .inr (.inl (TorrentState.handleJob_of_receive hnext))
    | wake msg =>
      left
      rw [wakeUpComes_iff]
      refine ⟨msg, ?_⟩
      apply pending_wake
      exact hget
    | signal msg _ _ hsignalled =>
      rcases hsignalled.underWay hget with hcomes | hway
      . exact .inl hcomes
      . obtain ⟨pieces, hpieces⟩ := TorrentState.handleJob_of_signal hnext
        rw [hpieces] at hstate
        refine .inr (.inr ⟨?_, hway, ?_⟩)
        . unfold tracker
          rw [hstate, TorrentState.addPiecesForPeer_pieceBlockTracking]
        . intro peerId φ hne hoffers
          rw [hstate] at hoffers
          exact hoffers.of_addPiecesForPeer hne

theorem Stepped.isReached {event : StartEvent} {signals : List Signal} {peerId : PeerId}
    (hcoherent : p.Coherent) (hvalid : p.TxValid)
    (hs : p.Stepped build torrentIo config torrent event signals p') (h : p'.IsReached peerId)
    : p.IsReached peerId
        ∨ event = .advance ∧ ∃ c conn, p.arm = .greeting c [] ∧ p.connections[c]? = some conn
          ∧ conn.peerId = peerId ∧ conn.link ≠ .ended := by
  obtain ⟨c, hreaches⟩ := h
  rcases hs.reaches hcoherent hvalid hreaches with hreaches | ⟨hevent, harm, conn, hconn⟩
  . exact .inl ⟨c, hreaches⟩
  . exact .inr ⟨hevent, c, conn, harm, hconn⟩

theorem UnderWay.of_offers {event : StartEvent} {signals : List Signal} {peerId : PeerId}
    {φ : UInt32 → Prop} (h : p.UnderWay peerId) (hcoherent : p.Coherent)
    (hs : p.Stepped build torrentIo config torrent event signals p') (hcomes' : ¬p'.WakeUpComes)
    (hoffers : p'.torrentState.Offers φ peerId)
    : p'.UnderWay peerId := by
  have hmem := (TorrentState.mem_peersThatChoke_false.mp hoffers.1).1
  rcases h.stepped hcoherent hs with hcomes | hway | hnot
  . exact absurd hcomes hcomes'
  . exact hway
  . exact absurd hmem hnot

def AsksAll (build : Build) (torrent : V1Torrent) (p : TorrentProcessor σ) : Prop :=
  0 < p.tracker.downloadingRequestsLen ∨ ∀ peerId, p.IsReached peerId →
    p.torrentState.Offers (p.tracker.Lacks build torrent) peerId → p.UnderWay peerId

theorem AsksAll.kept {event : StartEvent} {signals : List Signal} (h : p.AsksAll build torrent)
    (hcoherent : p.Coherent) (hvalid : p.TxValid) (hpos : 0 < p.tracker.maxOutstandingRequests)
    (hs : p.Stepped build torrentIo config torrent event signals p')
    (hguard : p.StaysAwake build torrent event) (hcomes : ¬p.WakeUpComes)
    (hcomes' : ¬p'.WakeUpComes)
    (hlen : p'.tracker.downloadingRequestsLen = p.tracker.downloadingRequestsLen)
    (hbefore : ∀ peerId, p'.torrentState.Offers (p'.tracker.Lacks build torrent) peerId →
      p'.UnderWay peerId ∨ p.torrentState.Offers (p.tracker.Lacks build torrent) peerId)
    : p'.AsksAll build torrent := by
  unfold AsksAll
  rw [hlen]
  refine or_iff_not_imp_left.mpr fun hzero peerId hreached' hoffers' => ?_
  rcases hbefore peerId hoffers' with hway | hoffers
  . exact hway
  . rcases hs.isReached hcoherent hvalid hreached' with
      hreached | ⟨rfl, c, conn, harm, hget, rfl, hopen⟩
    . have hway := h.resolve_left hzero peerId hreached hoffers
      exact hway.of_offers hcoherent hs hcomes' hoffers'
    . have hgreeted : p.arm.greeted = some c := by
        rw [harm]
        rfl
      rcases (hguard hpos).1 c hgreeted conn hget hopen hoffers with hcomes1 | hlen1
      . exact absurd hcomes1 hcomes
      . exact absurd hlen1 hzero

theorem Awake.stepped {event : StartEvent} {signals : List Signal} (h : p.Awake build torrent)
    (hcoherent : p.Coherent) (hvalid : p.TxValid)
    (hmirrored : p.torrentState.blockPeerMap.Mirrored)
    (hpos : 0 < p.tracker.maxOutstandingRequests) (hmax : p.tracker.maxOutstandingRequests < 2 ^ 64)
    (hs : p.Stepped build torrentIo config torrent event signals p')
    (hguard : p.StaysAwake build torrent event)
    : p'.Awake build torrent := by
  by_cases hcompute : ∃ available now, event = .compute available now
  . obtain ⟨available, now, rfl⟩ := hcompute
    cases hs with
    | lockPending => exact h
    | computed _ _ lock requests tracker harm hlock hiterates hassign =>
      exact awake_of_assigned hpos hmax hmirrored hiterates hassign rfl
  have hcompute' : ∀ available now, event ≠ .compute available now :=
    fun available now heq => hcompute ⟨available, now, heq⟩
  by_cases hwill' : p'.WillAssign
  . exact .inl hwill'
  have hcomes' : ¬p'.WakeUpComes := fun hcomes => hwill' (.inr hcomes)
  have hwill : ¬p.WillAssign := fun hwill => hwill' (hs.willAssign hcoherent hcompute' hwill)
  have hcomes : ¬p.WakeUpComes := fun hcomes => hwill (.inr hcomes)
  replace h := h.resolve_left hwill
  right
  have hkept := AsksAll.kept h hcoherent hvalid hpos hs hguard hcomes hcomes'
  have hsame : p'.torrentState = p.torrentState → p'.AsksAll build torrent := by
    intro hstate
    have htracker : p'.tracker = p.tracker := congrArg TorrentState.pieceBlockTracking hstate
    apply hkept (by rw [htracker])
    intro peerId hoffers
    rw [htracker, hstate] at hoffers
    exact .inr hoffers
  have hedited := hs.edited hcoherent
  obtain ⟨state', hstate⟩ : ∃ state', p'.torrentState = state' := ⟨_, rfl⟩
  rw [hstate] at hedited
  cases hedited with
  | assigned available now _ _ hevent => exact absurd hevent (hcompute' available now)
  | same => exact hsame hstate
  | handled c conn job hevent hget hhandler hacquires =>
    subst hevent
    rcases hs.handled hget hhandler hacquires hstate with hcomes | heq | ⟨htracker, hway, hother⟩
    . exact absurd hcomes hcomes'
    . exact hsame heq
    . apply hkept (by rw [htracker])
      intro peerId hoffers
      by_cases heq : peerId = conn.peerId
      . rw [heq]
        exact .inl hway
      . rw [htracker] at hoffers
        exact .inr (hother peerId _ heq hoffers)
  | forgot c conn hevent harm hget =>
    have htracker : p'.tracker = p.tracker := by
      unfold tracker
      rw [hstate, TorrentState.removePeer_pieceBlockTracking]
    apply hkept (by rw [htracker])
    intro peerId hoffers
    rw [htracker, hstate] at hoffers
    exact .inr hoffers.of_removePeer.2
  | gaveBack req requests hevent harm hclosed =>
    have htracker : p'.tracker = (p.tracker.removeRequest req).2 :=
      congrArg TorrentState.pieceBlockTracking hstate
    have hnext : p.arm.nextToDispatch = some req := by
      rw [harm]
      rfl
    subst hevent
    rw [htracker]
    rcases (hguard hpos).2 req hnext with ⟨c, hlookup, conn, hget, hopen⟩ | hcomes1 | hlen | hnone
    . exact absurd (hclosed c conn hlookup hget) hopen
    . exact absurd hcomes1 hcomes
    . exact .inl (NestedMap.size_eraseAt_pos hlen req.index req.begin)
    . right
      intro peerId hreached' hoffers
      rcases hs.isReached hcoherent hvalid hreached' with hreached | ⟨_, c, conn, harm1, _⟩
      . rw [hstate] at hoffers
        exact absurd ⟨peerId, hreached, offers_of_removeRequest hoffers⟩ hnone
      . rw [harm] at harm1
        contradiction
  | expired now hevent =>
    subst hevent
    cases hs with
    | lockPending => exact hsame rfl
    | someExpired => exact absurd (.inl trivial) hwill'
    | noneExpired _ lock tracker harm hlock hexpire =>
      obtain ⟨hblocks, hnotStarted⟩ := PieceBlockTracker.blocks_of_noneExpired hexpire
      apply hkept
      . show tracker.blocks.downloadingRequestsLen = _
        rw [hblocks]
        rfl
      . intro peerId ⟨hpeer, piece, hpiece, hhas, hlacks⟩
        replace hpiece : piece ∈ tracker.blocks.pieces ∪ tracker.piecesNotStarted := hpiece
        rw [hblocks, hnotStarted] at hpiece
        exact .inr ⟨hpeer, piece, hpiece, hhas, hlacks.of_blocks_eq hblocks⟩

theorem Stepped.maxOutstandingRequests_eq {event : StartEvent} {signals : List Signal}
    (h : p.Coherent) (hs : p.Stepped build torrentIo config torrent event signals p')
    : p'.tracker.maxOutstandingRequests = p.tracker.maxOutstandingRequests := by
  have hedited := hs.edited h
  unfold tracker
  generalize p'.torrentState = state' at hedited ⊢
  cases hedited with
  | same => rfl
  | handled => exact TorrentState.maxOutstandingRequests_handleJob
  | forgot => rw [TorrentState.removePeer_pieceBlockTracking]
  | gaveBack => rfl
  | assigned available now requests tracker _ _ hassign =>
    exact PieceBlockTracker.generateAssignments_invariant
      (P := fun t => t.maxOutstandingRequests = p.tracker.maxOutstandingRequests) hassign
      (fun _ _ _ _ _ _ heq => heq) rfl
  | expired => rfl

structure AwakeKept (build : Build) (config : Config) (torrent : V1Torrent)
    (p : TorrentProcessor σ) : Prop where
  coherent : p.Coherent
  txValid : p.TxValid
  maxOutstandingRequests_eq : p.tracker.maxOutstandingRequests = config.maxOutstandingRequests
  awake : 0 < config.maxOutstandingRequests → p.Awake build torrent

theorem AwakeKept.stepped {event : StartEvent} {signals : List Signal}
    (h : p.AwakeKept build config torrent) (hmax : config.maxOutstandingRequests < 2 ^ 64)
    (hmirrored : p.torrentState.blockPeerMap.Mirrored)
    (hs : p.Stepped build torrentIo config torrent event signals p')
    (hguard : p.StaysAwake build torrent event)
    : p'.AwakeKept build config torrent := by
  have heq := h.maxOutstandingRequests_eq
  constructor
  . exact h.coherent.stepped hs
  . exact h.txValid.stepped h.coherent hs
  . rw [hs.maxOutstandingRequests_eq h.coherent, heq]
  . intro hpos
    refine (h.awake hpos).stepped h.coherent h.txValid hmirrored ?_ ?_ hs hguard
    . rwa [heq]
    . rwa [heq]

theorem awakeKept_new (build : Build) (config : Config) (torrent : V1Torrent) (io : σ)
    : (new config torrent io).AwakeKept build config torrent := by
  constructor
  . trivial
  . intro peerId c hlookup
    contradiction
  . rfl
  . intro _
    refine .inr (.inr ?_)
    intro peerId ⟨c, hlookup, _⟩
    contradiction

/--
The loop never goes to sleep with a peer left to ask as long as no step in the run is of the kind
that leaves a peer to ask without anything to wake it up.
-/
theorem noLostWakeUp_of_run (build : Build) (torrentIo : TorrentIo σ) (config : Config)
    (torrent : V1Torrent) (io : σ) (p : TorrentProcessor σ) (tr : StartTrace)
    (hmax : config.maxOutstandingRequests < 2 ^ 64)
    (hrun : (startTask build torrentIo config torrent).RunWhile (StaysAwake build torrent)
      (new config torrent io) tr p)
    : p.NoLostWakeUp build torrent := by
  suffices h : (startTask build torrentIo config torrent).Run (new config torrent io) tr p
      ∧ p.AwakeKept build config torrent by
    intro hidle hpos
    apply (h.2.awake _).noLostWakeUp hidle hpos
    rwa [← h.2.maxOutstandingRequests_eq]
  apply hrun.invariant_trace (P := fun tr p =>
    (startTask build torrentIo config torrent).Run (new config torrent io) tr p
      ∧ p.AwakeKept build config torrent)
  . intro tr p event signals p' hguard hstep ⟨hrun, h⟩
    refine ⟨hrun.append (.cons trivial hstep (.nil p')), ?_⟩
    obtain ⟨calls, hcalls⟩ := exists_run_torrentState hrun
    exact h.stepped hmax (TorrentState.reflects_of_run hcalls).mirrored (stepped_of_step hstep) hguard
  . exact ⟨.nil _, awakeKept_new build config torrent io⟩

def twoBlockTask (config : Config)
    : Machine (TorrentProcessor MemoryTorrentIo) StartEvent (List Signal) :=
  startTask ⟨true⟩ (MemoryTorrentIo.torrentIo ⟨true⟩) config (torrentFixture 16385 16385 [[1]])

def twoBlockStart (config : Config) : TorrentProcessor MemoryTorrentIo :=
  .new config (torrentFixture 16385 16385 [[1]])
    { memory := [⟨List.replicate 16385 0, .new 16385⟩] }

def assigningEvents (availiablePieceToPeers : List (UInt32 × List PeerId)) : List StartEvent :=
  [.recvWakeUp [], .compute availiablePieceToPeers (fun _ => 0), .advance, .advance, .advance]

theorem noLostWakeUp_oneRequest
    : ∃ tr p, (twoBlockTask ⟨false, 8, 1, 1⟩).RunWhile
          (StaysAwake ⟨true⟩ (torrentFixture 16385 16385 [[1]]))
          (twoBlockStart ⟨false, 8, 1, 1⟩) tr p
        ∧ p.IsIdle ∧ p.Offered (p.tracker.Lacks ⟨true⟩ (torrentFixture 16385 16385 [[1]]))
        ∧ 0 < p.tracker.downloadingRequestsLen := by
  let torrent := torrentFixture 16385 16385 [[1]]
  let guard : TorrentProcessor MemoryTorrentIo → StartEvent → Prop := StaysAwake ⟨true⟩ torrent
  obtain ⟨tr, p, hrun, _, hstate⟩ :=
    ((twoBlockTask ⟨false, 8, 1, 1⟩).restrict guard).exists_run_of_exec
      (twoBlockStart ⟨false, 8, 1, 1⟩)
      (greetingEvents 0 [5] ++ handlingEvents 0 (.flag .unchoke) ++ handlingEvents 0 (.have 0)
        ++ assigningEvents [(0, [[5]])] ++ [.advance] ++ assigningEvents [(0, [[5]])])
      (fun x => (decide x.2.IsIdle, decide (x.2.Offered (x.2.tracker.Lacks ⟨true⟩ torrent)),
        x.2.tracker.maxOutstandingRequests))
      (b := (true, true, 1)) (by decide +kernel)
  simp only [Prod.mk.injEq, decide_eq_true_iff] at hstate
  have hwhile := Machine.runWhile_of_restrict _ _ hrun
  refine ⟨tr, p, hwhile, hstate.1, hstate.2.1, ?_⟩
  apply noLostWakeUp_of_run ⟨true⟩ (MemoryTorrentIo.torrentIo ⟨true⟩) ⟨false, 8, 1, 1⟩ torrent _ p tr
    (by decide) hwhile hstate.1 _ hstate.2.1
  rw [hstate.2.2]
  exact Nat.one_pos

/--
The request goes to the first peer, whose connection has just ended. It comes back, and the second
peer, who has the piece as well, is not asked for it.
-/
theorem not_noLostWakeUp_deadPeer
    : ∃ tr p, (onePieceTask ⟨false, 8, 1, 1⟩).Run (onePieceStart ⟨false, 8, 1, 1⟩) tr p
        ∧ ¬p.NoLostWakeUp ⟨true⟩ (torrentFixture 2 2 [[1, 2]]) := by
  let torrent := torrentFixture 2 2 [[1, 2]]
  let assigning := assigningEvents [(0, [[5], [6]])] ++ [.advance]
  obtain ⟨tr, p, hrun, _, hstate⟩ :=
    (onePieceTask ⟨false, 8, 1, 1⟩).exists_run_of_exec (onePieceStart ⟨false, 8, 1, 1⟩)
      (greetingEvents 0 [5] ++ greetingEvents 1 [6]
        ++ handlingEvents 0 (.flag .unchoke) ++ handlingEvents 0 (.have 0)
        ++ handlingEvents 1 (.flag .unchoke) ++ handlingEvents 1 (.have 0)
        ++ [.link 0 .writeFails] ++ assigning ++ assigning ++ assigning ++ assigning
        ++ [.poll 0, .advance])
      (fun x => (decide x.2.IsIdle, decide (x.2.Offered (x.2.tracker.Lacks ⟨true⟩ torrent)),
        x.2.tracker.maxOutstandingRequests, x.2.tracker.downloadingRequestsLen))
      (b := (true, true, 1, 0)) (by decide +kernel)
  simp only [Prod.mk.injEq, decide_eq_true_iff] at hstate
  obtain ⟨hidle, hoffered, hmax, hlen⟩ := hstate
  refine ⟨tr, p, hrun, ?_⟩
  intro h
  have hpos := h hidle (by omega) hoffered
  omega

end TorrentProcessor
