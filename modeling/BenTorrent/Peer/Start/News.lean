import BenTorrent.Peer.Start.Announce
import BenTorrent.Peer.Start.State

/-!
This module contains what the loop and the handlers have heard of the peers, and that the state of
the peers says just that.
-/

open Rust

inductive PeerNews where
  | heard (peerId : PeerId) (msg : Messages)
  | left (peerId : PeerId)
  deriving DecidableEq

namespace PeerNews

def Announces (peerId : PeerId) (piece : UInt32) (news : PeerNews) : Prop :=
  ∃ msg, news = .heard peerId msg ∧ msg.Tells piece

/--
The peer has unchoked us, and since then has neither choked us nor left.
-/
def NotChoking (history : List PeerNews) (peerId : PeerId) : Prop :=
  Since (· = .heard peerId (.flag .unchoke))
    (fun news => news = .heard peerId (.flag .choke) ∨ news = .left peerId) history

/--
The peer has said that it has the piece, and has not left since then.
-/
def Announced (history : List PeerNews) (peerId : PeerId) (piece : UInt32) : Prop :=
  Since (Announces peerId piece) (· = .left peerId) history

def call : PeerNews → Option PeerEvent
  | .heard peerId (.flag .choke) => some (.chokedUs peerId true)
  | .heard peerId (.flag .unchoke) => some (.chokedUs peerId false)
  | .heard peerId (.flag .interested) => some (.interestedInUs peerId true)
  | .heard peerId (.flag .notInterested) => some (.interestedInUs peerId false)
  | .heard peerId (.have pieceIndex) => some (.addPieces peerId [pieceIndex])
  | .heard peerId (.bitField bitfield) =>
    some (.addPieces peerId (BitFieldReader.piecesPresent ⟨bitfield⟩))
  | .heard _ _ => none
  | .left peerId => some (.removePeer peerId)

theorem call_eq_chokedUs {news : PeerNews} {peerId : PeerId} {choked : Bool}
    : news.call = some (.chokedUs peerId choked)
        ↔
      news = .heard peerId (.flag (if choked then .choke else .unchoke)) := by
  cases news with
  | left => simp [call]
  | heard peerId' msg =>
    cases msg with
    | flag flag =>
      cases choked with
      | true => cases flag with | _ => simp [call]
      | false => cases flag with | _ => simp [call]
    | _ => simp [call]

theorem ne_tracker_of_call {news : PeerNews} {event : PeerEvent} {trackerEvent : TrackerEvent}
    (h : news.call = some event)
    : event ≠ .tracker trackerEvent := by
  rintro rfl
  cases news with
  | left => simp [call] at h
  | heard peerId msg =>
    cases msg with
    | flag flag => cases flag with | _ => simp [call] at h
    | _ => simp [call] at h

theorem call_eq_removePeer {news : PeerNews} {peerId : PeerId}
    : news.call = some (.removePeer peerId) ↔ news = .left peerId := by
  cases news with
  | left => simp [call]
  | heard peerId' msg =>
    cases msg with
    | flag flag => cases flag with | _ => simp [call]
    | _ => simp [call]

theorem call_eq_addPieces {news : PeerNews} {peerId : PeerId} {piece : UInt32}
    : (∃ pieces, news.call = some (.addPieces peerId pieces) ∧ piece ∈ pieces)
        ↔
      news.Announces peerId piece := by
  unfold Announces
  cases news with
  | left => simp [call]
  | heard peerId' msg =>
    cases msg with
    | flag flag => cases flag with | _ => simp [call, Messages.Tells]
    | «have» pieceIndex => simp [call, Messages.Tells, eq_comm, and_comm]
    | bitField bitfield => simp [call, Messages.Tells, and_comm]
    | _ => simp [call, Messages.Tells]

end PeerNews

namespace PeerEvent

def ofPeer : PeerEvent × PeerReply → Option PeerEvent
  | (.tracker _, _) => none
  | (event, _) => some event

theorem ofPeer_eq_some {x : PeerEvent × PeerReply} {event : PeerEvent}
    : ofPeer x = some event ↔ x.1 = event ∧ ∀ trackerEvent, event ≠ .tracker trackerEvent := by
  obtain ⟨event', reply⟩ := x
  cases event' with
  | tracker trackerEvent =>
    simp only [ofPeer, reduceCtorEq, false_iff, not_and]
    rintro rfl h
    exact h trackerEvent rfl
  | _ =>
    simp only [ofPeer, Option.some.injEq]
    constructor
    . rintro rfl
      simp
    . exact And.left

variable {calls : List (PeerEvent × PeerReply)} {history : List PeerNews}

/--
The calls that are about the peers come from the news.
-/
def Record (calls : List (PeerEvent × PeerReply)) (history : List PeerNews) : Prop :=
  calls.filterMap ofPeer = history.filterMap PeerNews.call

theorem Record.since_iff {P Q : PeerEvent → Prop} (h : Record calls history)
    (hP : ∀ trackerEvent, ¬P (.tracker trackerEvent))
    (hQ : ∀ trackerEvent, ¬Q (.tracker trackerEvent))
    : Since (fun x => P x.1) (fun x => Q x.1) calls
        ↔
      Since (fun news => ∃ event ∈ news.call, P event) (fun news => ∃ event ∈ news.call, Q event)
        history := by
  have hof : ∀ {R : PeerEvent → Prop}, (∀ trackerEvent, ¬R (.tracker trackerEvent)) →
      ∀ x : PeerEvent × PeerReply, R x.1 ↔ ∃ event ∈ ofPeer x, R event := by
    intro R hR x
    constructor
    . intro hx
      refine ⟨x.1, ofPeer_eq_some.mpr ⟨rfl, ?_⟩, hx⟩
      intro trackerEvent heq
      rw [heq] at hx
      exact hR trackerEvent hx
    . rintro ⟨event, hevent, hx⟩
      rwa [(ofPeer_eq_some.mp hevent).1]
  rw [since_congr (hof hP) (hof hQ), ← since_filterMap, h, since_filterMap]

theorem Record.notChoking_iff (h : Record calls history) (peerId : PeerId)
    : NotChoking calls peerId ↔ PeerNews.NotChoking history peerId := by
  unfold NotChoking PeerNews.NotChoking Unchokes Chokes Removes
  rw [h.since_iff (P := (· = .chokedUs peerId false))
    (Q := fun event => event = .chokedUs peerId true ∨ event = .removePeer peerId) (by simp)
    (by simp)]
  apply since_congr
  . intro news
    simp [PeerNews.call_eq_chokedUs]
  . intro news
    simp [PeerNews.call_eq_chokedUs, PeerNews.call_eq_removePeer, exists_or, and_or_left]

theorem Record.announced_iff (h : Record calls history) (peerId : PeerId) (piece : UInt32)
    : Announced calls peerId piece ↔ PeerNews.Announced history peerId piece := by
  unfold Announced PeerNews.Announced Announces Removes
  rw [h.since_iff (P := fun event => ∃ pieces, event = .addPieces peerId pieces ∧ piece ∈ pieces)
    (Q := (· = .removePeer peerId)) (by simp) (by simp)]
  apply since_congr
  . intro news
    rw [← PeerNews.call_eq_addPieces]
    constructor
    . rintro ⟨_, hcall, pieces, rfl, hmem⟩
      exact ⟨pieces, hcall, hmem⟩
    . rintro ⟨pieces, hcall, hmem⟩
      exact ⟨_, hcall, pieces, rfl, hmem⟩
  . intro news
    simp [PeerNews.call_eq_removePeer]

end PeerEvent

namespace TorrentState

variable {build : Build} {torrent : V1Torrent} {state state' : TorrentState}

theorem assignsAvailable_of_ne {event : PeerEvent}
    (hne : ∀ trackerEvent, event ≠ .tracker trackerEvent)
    : state.AssignsAvailable event := by
  cases event with
  | tracker trackerEvent => exact absurd rfl (hne trackerEvent)
  | _ => trivial

theorem handleJob_heard (build : Build) (torrent : V1Torrent) (state : TorrentState)
    (peerId : PeerId) (msg : Messages)
    : match (PeerNews.heard peerId msg).call with
      | some event => ∃ reply, (torrentStateTask build torrent).step state event
          = some (reply, (state.handleJob peerId (.message msg)).2)
      | none => (state.handleJob peerId (.message msg)).2 = state := by
  cases msg with
  | flag flag => cases flag with | _ => exact ⟨.updated, rfl⟩
  | «have» pieceIndex =>
    exact ⟨.interest (state.addPiecesForPeer peerId [pieceIndex]).1, by
      rw [handleJob, signalInterest_snd]
      rfl⟩
  | bitField bitfield =>
    exact ⟨.interest (state.addPiecesForPeer peerId _).1, by
      rw [handleJob, signalInterest_snd]
      rfl⟩
  | request index begin length =>
    simp only [PeerNews.call, handleJob]
    split
    . rfl
    . rfl
  | keepAlive => rfl
  | cancel => rfl
  | piece => rfl

inductive Learned (build : Build) (torrent : V1Torrent) (state : TorrentState)
    : Option PeerNews → TorrentState → Prop where
  | heard (peerId : PeerId) (msg : Messages)
      : Learned build torrent state (some (.heard peerId msg))
          (state.handleJob peerId (.message msg)).2
  | left (peerId : PeerId)
      : Learned build torrent state (some (.left peerId)) (state.removePeer peerId)
  | same : Learned build torrent state none state
  | tracked (event : TrackerEvent) (reply : PeerReply) (state' : TorrentState)
      (hguard : state.AssignsAvailable (.tracker event))
      (hstep : (torrentStateTask build torrent).step state (.tracker event) = some (reply, state'))
      : Learned build torrent state none state'

theorem Learned.record {news : Option PeerNews} (h : Learned build torrent state news state')
    : ∃ calls, (torrentStateTask build torrent).RunWhile AssignsAvailable state calls state'
        ∧ PeerEvent.Record calls news.toList := by
  cases h with
  | same => exact ⟨[], .nil _, rfl⟩
  | tracked event reply _ hguard hstep => exact ⟨_, .cons hguard hstep (.nil _), rfl⟩
  | left peerId =>
    have hstep : (torrentStateTask build torrent).step state (.removePeer peerId)
        = some (.updated, state.removePeer peerId) := rfl
    have hguard : state.AssignsAvailable (.removePeer peerId) := trivial
    exact ⟨_, .cons hguard hstep (.nil _), rfl⟩
  | heard peerId msg =>
    have hheard := handleJob_heard build torrent state peerId msg
    split at hheard
    . next event hcall =>
      obtain ⟨reply, hstep⟩ := hheard
      have hne : ∀ trackerEvent, event ≠ .tracker trackerEvent :=
        fun _ => PeerNews.ne_tracker_of_call hcall
      have hpeer : PeerEvent.ofPeer (event, reply) = some event :=
        PeerEvent.ofPeer_eq_some.mpr ⟨rfl, hne⟩
      refine ⟨_, .cons (assignsAvailable_of_ne hne) hstep (.nil _), ?_⟩
      simp [PeerEvent.Record, hpeer, hcall]
    . next hcall =>
      rw [hheard]
      exact ⟨[], .nil _, by simp [PeerEvent.Record, hcall]⟩

theorem Learned.tracker (event : TrackerEvent) (reply : TrackerReply) {tracker : PieceBlockTracker}
    (hstep : (trackerTask build torrent).step state.pieceBlockTracking event = some (reply, tracker))
    (hguard : state.AssignsAvailable (.tracker event))
    : Learned build torrent state none { state with pieceBlockTracking := tracker } := by
  refine .tracked event (.tracked reply) _ hguard ?_
  simp only [torrentStateTask]
  rw [hstep]

theorem learned_handleWritten (peerId : PeerId) (reply : WriteReply)
    : Learned build torrent state none (state.handleJob peerId (.reply reply)).2 := by
  obtain ⟨index, begin, finished⟩ := reply
  simp only [handleJob]
  unfold PieceBlockTracker.handleWritten
  cases finished with
  | true => exact .tracker (.setPieceFinished index) .pieceFinished rfl trivial
  | false =>
    simp only [Bool.false_eq_true, if_false]
    cases hset : state.pieceBlockTracking.setRequestFinished index begin with
    | none => exact .same
    | some tracker =>
      apply Learned.tracker (.setRequestFinished index begin) (.finished true)
      . simp only [trackerTask]
        rw [hset]
        rfl
      . trivial

end TorrentState

namespace TorrentProcessor

variable {σ : Type u} {p p' : TorrentProcessor σ} {c : Nat}

def learns (p : TorrentProcessor σ) : StartEvent → Option PeerNews
  | .poll c =>
    match p.connections[c]? with
    | some { peerId, handler := .locking (.message msg), .. } =>
      if (p.lock.lock (.handler c)).1 then some (.heard peerId msg) else none
    | _ => none
  | .advance =>
    match p.arm with
    | .closing c =>
      match p.connections[c]? with
      | some conn => if (p.lock.lock .mainLoop).1 then some (.left conn.peerId) else none
      | none => none
    | _ => none
  | _ => none

theorem learns_poll {conn : PeerConnection} {msg : Messages} (hget : p.connections[c]? = some conn)
    (hhandler : conn.handler = .locking (.message msg))
    : p.learns (.poll c)
        =
      if (p.lock.lock (.handler c)).1 then some (.heard conn.peerId msg) else none := by
  obtain ⟨peerId, inbound, outbound, link, handler⟩ := conn
  dsimp only at hhandler
  subst hhandler
  simp only [learns, hget]

theorem learns_poll_of_ne {conn : PeerConnection} (hget : p.connections[c]? = some conn)
    (hne : ∀ msg, conn.handler ≠ .locking (.message msg))
    : p.learns (.poll c) = none := by
  simp only [learns]
  split
  . next hget' =>
    rw [hget, Option.some.injEq] at hget'
    subst hget'
    exact absurd rfl (hne _)
  . rfl

theorem learns_advance {conn : PeerConnection} (harm : p.arm = .closing c)
    (hget : p.connections[c]? = some conn)
    : p.learns .advance
        =
      if (p.lock.lock .mainLoop).1 then some (.left conn.peerId) else none := by
  simp only [learns, harm, hget]

theorem learns_advance_of_ne (hne : ∀ c, p.arm ≠ .closing c) : p.learns .advance = none := by
  cases harm : p.arm with
  | closing c => exact absurd harm (hne c)
  | _ => simp only [learns, harm]

theorem learns_advance_of_lock (hlock : (p.lock.lock .mainLoop).1 = false)
    : p.learns .advance = none := by
  simp only [learns, hlock]
  split
  . split
    . rfl
    . rfl
  . rfl

variable {build : Build} {torrentIo : TorrentIo σ} {config : Config} {torrent : V1Torrent}

open TorrentState (Learned)

theorem Polled.learned {signals : List Signal} (h : p.Polled c signals p')
    : Learned build torrent p.torrentState (p.learns (.poll c)) p'.torrentState := by
  cases h with
  | received conn msg inbound hget hhandler =>
    rw [learns_poll_of_ne hget (by simp [hhandler])]
    exact .same
  | finished conn hget hhandler =>
    rw [learns_poll_of_ne hget (by rcases hhandler with h | h <;> simp [h])]
    exact .same
  | lockPending conn job lock hget hhandler hlock =>
    have hnone : p.learns (.poll c) = none := by
      cases job with
      | message msg => rw [learns_poll hget hhandler, hlock, if_neg (by simp)]
      | reply reply => exact learns_poll_of_ne hget (by simp [hhandler])
    rw [hnone]
    exact .same
  | handled conn job lock next torrentState _ _ hget hhandler hlock hjob hproceeded =>
    rw [hproceeded.torrentState_eq]
    obtain rfl : (p.torrentState.handleJob conn.peerId job).2 = torrentState := by rw [hjob]
    cases job with
    | message msg =>
      rw [learns_poll hget hhandler, hlock, if_pos rfl]
      exact .heard conn.peerId msg
    | reply reply =>
      rw [learns_poll_of_ne hget (by simp [hhandler])]
      exact TorrentState.learned_handleWritten conn.peerId reply
  | signalled conn msg _ _ hget hhandler hs =>
    rw [learns_poll_of_ne hget (by simp [hhandler]), hs.torrentState_eq]
    exact .same
  | woken conn msg hget hhandler =>
    rw [learns_poll_of_ne hget (by simp [hhandler])]
    exact .same

theorem Advanced.learned {signals : List Signal} (h : p.Coherent)
    (ha : p.Advanced torrentIo torrent signals p')
    : Learned build torrent p.torrentState (p.learns .advance) p'.torrentState := by
  unfold Coherent at h
  have hsame : ∀ {q : TorrentProcessor σ}, (∀ c, p.arm ≠ .closing c) →
      q.torrentState = p.torrentState →
        Learned build torrent p.torrentState (p.learns .advance) q.torrentState := by
    intro q hne heq
    rw [learns_advance_of_ne hne, heq]
    exact .same
  cases ha with
  | lockPending lock hlock =>
    rw [learns_advance_of_lock (by rw [hlock])]
    exact .same
  | initConnection c lock harm => exact hsame (q := { p with lock }) (by simp [harm]) rfl
  | greeted c msg msgs p1 harm hdelivered =>
    exact hsame (q := p1) (by simp [harm]) hdelivered.torrentState_eq
  | greetPending c msg msgs _ harm hdelivered => exact hsame (by simp [harm]) hdelivered.torrentState_eq
  | greetClosed c msg msgs harm => exact hsame (q := p) (by simp [harm]) rfl
  | registered c conn harm => exact hsame (q := p) (by simp [harm]) rfl
  | closing c lock conn harm hlock hget =>
    rw [learns_advance harm hget, hlock, if_pos rfl]
    exact .left conn.peerId
  | passed peerId msg arm _ _ p1 hpasses htold =>
    refine hsame (q := p1) ?_ htold.torrentState_eq
    generalize p.arm = arm1 at hpasses
    cases hpasses with
    | _ => simp
  | passPending peerId msg arm _ _ hpasses htold =>
    refine hsame ?_ htold.torrentState_eq
    generalize p.arm = arm1 at hpasses
    cases hpasses with
    | _ => simp
  | announced pieceId harm => exact hsame (q := p) (by simp [harm]) rfl
  | queued req lock harm =>
    obtain ⟨requests, heq⟩ := queueRequests_eq { p with lock } req
    rw [heq]
    exact hsame (q := p) (by simp [harm]) rfl
  | dispatched req requests _ p1 harm htold =>
    exact hsame (q := p1) (by simp [harm]) htold.torrentState_eq
  | dispatchPending req requests _ _ harm htold => exact hsame (by simp [harm]) htold.torrentState_eq
  | undelivered req requests harm =>
    rw [learns_advance_of_ne (by simp [harm])]
    exact .tracker (.removeRequest req) (.removed (p.tracker.removeRequest req).1) rfl trivial
  | dispatchedAll harm => exact hsame (q := p) (by simp [harm]) rfl
  | dequeued lock harm => exact hsame (q := p) (by simp [harm]) rfl
  | answerSkipped req dequed harm => exact hsame (q := p) (by simp [harm]) rfl
  | answerRead req dequed block io harm => exact hsame (q := p) (by simp [harm]) rfl
  | answerFailed req dequed e io harm => exact hsame (q := p) (by simp [harm]) rfl
  | answeredAll harm => exact hsame (q := p) (by simp [harm]) rfl
  | choked peerId choked combinedPeers _ _ harm =>
    rw [harm] at h
    contradiction
  | chokedAll harm => exact hsame (q := p) (by simp [harm]) rfl
  | wokeUp wakeUp harm => exact hsame (q := p) (by simp [harm]) rfl
  | wakePending wakeUp harm => exact hsame (q := p) (by simp [harm]) rfl

theorem Stepped.learned {event : StartEvent} {signals : List Signal} (h : p.Coherent)
    (hs : p.Stepped build torrentIo config torrent event signals p')
    : Learned build torrent p.torrentState (p.learns event) p'.torrentState := by
  have hexpired : ∀ {now requests tracker}, p.tracker.removeExpired now = (requests, tracker) →
      Learned build torrent p.torrentState none
        { p.torrentState with pieceBlockTracking := tracker } := by
    intro now requests tracker hexpire
    obtain rfl : (p.tracker.removeExpired now).2 = tracker := by rw [hexpire]
    exact .tracker (.removeExpired now) (.expired (p.tracker.removeExpired now).1) rfl trivial
  cases hs with
  | polled c _ _ harm hpolled => exact hpolled.learned
  | advanced _ _ hadvanced => exact hadvanced.learned h
  | lockPending _ lock hlocks =>
    cases event with
    | poll => exact False.elim hlocks
    | advance => exact False.elim hlocks
    | _ => exact .same
  | computed available now lock requests tracker harm hlock hiterates hassign =>
    refine .tracker (.generateAssignments available now) (.assigned requests) ?_ hiterates
    simp only [trackerTask]
    unfold TorrentProcessor.tracker at hassign
    rw [hassign]
  | noneExpired now lock tracker harm hlock hexpire => exact hexpired hexpire
  | someExpired now lock req requests tracker harm hlock hexpire => exact hexpired hexpire
  | _ => exact .same

section

variable (build torrentIo config torrent)

def learnedIn (p0 : TorrentProcessor σ) (tr : StartTrace) : List PeerNews :=
  (startTask build torrentIo config torrent).collect learns p0 tr

end

/--
The state of the peers is one that its own calls lead to, and of these the ones about the peers come
from the news.
-/
theorem record_of_run {io : σ} {tr : StartTrace}
    (hrun : (startTask build torrentIo config torrent).Run (new config torrent io) tr p)
    : ∃ calls, (torrentStateTask build torrent).RunWhile TorrentState.AssignsAvailable
          (TorrentState.new torrent.info.pieces config.maxOutstandingRequests) calls p.torrentState
        ∧ PeerEvent.Record calls
            (learnedIn build torrentIo config torrent (new config torrent io) tr) := by
  suffices h : (startTask build torrentIo config torrent).Run (new config torrent io) tr p
      ∧ p.Coherent ∧ ∃ calls, (torrentStateTask build torrent).RunWhile TorrentState.AssignsAvailable
          (TorrentState.new torrent.info.pieces config.maxOutstandingRequests) calls p.torrentState
        ∧ PeerEvent.Record calls
            (learnedIn build torrentIo config torrent (new config torrent io) tr) from h.2.2
  apply hrun.invariant_trace (P := fun tr p =>
    (startTask build torrentIo config torrent).Run (new config torrent io) tr p
      ∧ p.Coherent ∧ ∃ calls, (torrentStateTask build torrent).RunWhile TorrentState.AssignsAvailable
          (TorrentState.new torrent.info.pieces config.maxOutstandingRequests) calls p.torrentState
        ∧ PeerEvent.Record calls
            (learnedIn build torrentIo config torrent (new config torrent io) tr))
  . intro tr p event signals p' _ hstep ⟨hrun, hcoherent, calls, hcalls, hrecord⟩
    have hs := stepped_of_step hstep
    have hlearned := hs.learned hcoherent
    have hcollect : learnedIn build torrentIo config torrent (new config torrent io)
        (tr ++ [(event, signals)]) = _ := hrun.collect_append_singleton learns hstep
    obtain ⟨calls', hcalls', hrecord'⟩ := hlearned.record
    refine ⟨hrun.append (.cons trivial hstep (.nil _)), hcoherent.stepped hs, calls ++ calls',
      hcalls.append hcalls', ?_⟩
    unfold PeerEvent.Record at hrecord hrecord' ⊢
    rw [hcollect, List.filterMap_append, List.filterMap_append, hrecord, hrecord']
    rfl
  . exact ⟨.nil _, trivial, [], .nil _, rfl⟩

end TorrentProcessor
