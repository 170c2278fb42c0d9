import BenTorrent.Peer.Start.Announce
import BenTorrent.Peer.Start.Queue
import BenTorrent.Peer.Start.Sent
import BenTorrent.Peer.Start.Wait

/-!
This module contains how the requests of the peers are answered.
-/

open Rust

structure Answer where
  c : Nat
  index : UInt32
  begin : UInt32
  block : Bytes
  deriving DecidableEq

/--
The answer has the place that the request asks for, and its length.
-/
structure Answer.Fits (ans : Answer) (req : PeerRequestedPiece) : Prop where
  index_eq : ans.index = req.index
  begin_eq : ans.begin = req.begin
  length_eq : ans.block.length = req.length.toNat

def Signal.answer : Signal → Option Answer
  | .sent c (.piece index begin block) => some { c, index, begin, block }
  | _ => none

def answersIn (tr : StartTrace) : List Answer :=
  tr.flatMap fun x => x.2.filterMap Signal.answer

namespace Arm

def requests : Arm → List PeerRequestedPiece
  | .queueing req => [req]
  | .answering dequed => dequed
  | .sending peerId (.piece index begin block) dequed =>
    { peerId, index, begin, length := UInt32.ofNat block.length } :: dequed
  | _ => []

/--
The arms between the queue and what is taken from it.
-/
def Waits : Arm → Prop
  | .computing => True
  | .dispatching _ => True
  | .dequeueing => True
  | _ => False

def Fits : Arm → Prop
  | .sending _ (.piece _ _ block) _ => block.length < 2 ^ 32
  | _ => True

def nextToAnswer : Arm → Option PeerRequestedPiece
  | .answering (req :: _) => some req
  | _ => none

def isSending : Arm → Bool
  | .sending _ _ _ => true
  | _ => false

theorem fits_of_requests {arm : Arm} (h : arm.requests = []) : arm.Fits := by
  unfold requests at h
  unfold Fits
  split
  . contradiction
  . trivial

end Arm

namespace TorrentProcessor

variable {σ : Type u} {p p' : TorrentProcessor σ} {c : Nat}
variable {build : Build} {torrentIo : TorrentIo σ} {config : Config} {torrent : V1Torrent}

structure InHand (p : TorrentProcessor σ) (held : Option PeerRequestedPiece) : Prop where
  requests_eq : p.outstandingPeerRequests ++ p.arm.requests = held.toList
  waits : p.outstandingPeerRequests = [] ∨ p.arm.Waits
  fits : p.arm.Fits

variable {held : Option PeerRequestedPiece}

theorem InHand.stays (h : p.InHand held)
    (hqueue : p'.outstandingPeerRequests = p.outstandingPeerRequests) (harm : p'.arm = p.arm)
    : p'.InHand held := by
  constructor
  . rw [hqueue, harm]
    exact h.requests_eq
  . rw [hqueue, harm]
    exact h.waits
  . rw [harm]
    exact h.fits

theorem InHand.moves (h : p.InHand held)
    (hqueue : p'.outstandingPeerRequests = p.outstandingPeerRequests)
    (hnil : p.arm.requests = []) (hnil' : p'.arm.requests = [])
    (hwaits : p.arm.Waits → p'.arm.Waits)
    : p'.InHand held := by
  constructor
  . rw [hqueue, hnil', ← h.requests_eq, hnil]
  . rw [hqueue]
    cases h.waits with
    | inl hempty => exact .inl hempty
    | inr hwait => exact .inr (hwaits hwait)
  . exact Arm.fits_of_requests hnil'

theorem InHand.leaves {arm : Arm} (h : p.InHand held) (harm : p.arm = arm)
    (hnil : arm.requests = []) (hfree : ¬arm.Waits)
    (hqueue : p'.outstandingPeerRequests = p.outstandingPeerRequests)
    (hnil' : p'.arm.requests = [])
    : p'.InHand held := by
  refine h.moves hqueue ?_ hnil' ?_
  . rw [harm]
    exact hnil
  . rw [harm]
    exact fun hwaits => absurd hwaits hfree

theorem InHand.of_requests {req : PeerRequestedPiece} {dequed : List PeerRequestedPiece}
    (h : p.InHand held) (hreqs : p.arm.requests = req :: dequed)
    : held = some req ∧ dequed = [] ∧ p.outstandingPeerRequests = [] := by
  have hempty : p.outstandingPeerRequests = [] := by
    cases h.waits with
    | inl hempty => exact hempty
    | inr hwait =>
      generalize p.arm = arm at hreqs hwait
      unfold Arm.Waits at hwait
      split at hwait
      . contradiction
      . contradiction
      . contradiction
      . contradiction
  have heq := h.requests_eq
  rw [hempty, hreqs, List.nil_append] at heq
  cases held with
  | none => contradiction
  | some req' =>
    rw [Option.toList_some, List.cons.injEq] at heq
    rw [heq.1]
    exact ⟨rfl, heq.2, hempty⟩

theorem InHand.of_select (h : p.InHand held) (harm : p.arm = .select)
    : held = none ∧ p.outstandingPeerRequests = [] := by
  have hempty : p.outstandingPeerRequests = [] := by
    have hwaits := h.waits
    rw [harm] at hwaits
    exact hwaits.resolve_right id
  have heq := h.requests_eq
  rw [hempty, harm] at heq
  cases held with
  | none => exact ⟨rfl, hempty⟩
  | some _ => contradiction

def Quiet (signals : List Signal) : Prop :=
  ∀ signal ∈ signals, signal.answer = none ∧ ∀ peerId, signal.takes peerId = none

/--
Why the loop leaves a request without an answer.
-/
inductive GivesUp (torrentIo : TorrentIo σ) (p : TorrentProcessor σ) (req : PeerRequestedPiece)
    : Prop where
  | unknown (harm : p.arm = .queueing req)
      (hpeers : p.torrentState.getInternalPeerState req.peerId = none) : GivesUp torrentIo p req
  | noSender (harm : p.arm = .answering [req]) (hlookup : p.peerToTx.lookup req.peerId = none)
      : GivesUp torrentIo p req
  | readFailed (e : Fault AnyError) (io : σ) (harm : p.arm = .answering [req])
      (hread : torrentIo.readPiece p.io req.index req.begin req.length = (.error e, io))
      : GivesUp torrentIo p req
  | closed (msg : Messages) (harm : p.arm = .sending req.peerId msg [])
      (hclosed : ∀ c conn, p.peerToTx.lookup req.peerId = some c →
        p.connections[c]? = some conn → conn.link = .ended)
      : GivesUp torrentIo p req

inductive Serves (torrentIo : TorrentIo σ) (p : TorrentProcessor σ)
    : Option PeerRequestedPiece → List Signal → Option PeerRequestedPiece → Prop where
  | kept (held : Option PeerRequestedPiece) (signals : List Signal) (hquiet : Quiet signals)
      : Serves torrentIo p held signals held
  | took (req : PeerRequestedPiece) (harm : p.arm = .select)
      : Serves torrentIo p none [.took (.peerRequestedPiece req)] (some req)
  | dropped (req : PeerRequestedPiece) (hgives : p.GivesUp torrentIo req)
      : Serves torrentIo p (some req) [] none
  | answered (req : PeerRequestedPiece) (c : Nat) (block : Bytes)
      (hlookup : p.peerToTx.lookup req.peerId = some c)
      (hlength : block.length = req.length.toNat)
      : Serves torrentIo p (some req) [.sent c (.piece req.index req.begin block)] none

theorem quiet_nil : Quiet [] := by
  intro signal hmem
  contradiction

theorem Signal.answer_of_informs {msg : Messages} (h : msg.Informs) (c : Nat)
    : (Signal.sent c msg).answer = none := by
  unfold Signal.answer
  split
  . next heq =>
    rw [Signal.sent.injEq] at heq
    rw [heq.2] at h
    contradiction
  . rfl

theorem quiet_of_isMessage {signals : List Signal}
    (hmessage : ∀ signal ∈ signals, signal.isMessage = true)
    (hsent : ∀ c msg, .sent c msg ∈ signals → (Signal.sent c msg).answer = none)
    : Quiet signals := by
  intro signal hmem
  replace hmessage := hmessage signal hmem
  cases signal with
  | sent c msg => exact ⟨hsent c msg hmem, fun _ => rfl⟩
  | woke => exact ⟨rfl, fun _ => rfl⟩
  | _ => contradiction

theorem Polled.queue_eq {signals : List Signal} (h : p.Polled c signals p')
    : p'.outstandingPeerRequests = p.outstandingPeerRequests := by
  obtain ⟨_, _, _, _, _, rfl⟩ := h.frame
  rfl

theorem Delivered.queue_eq {w : Party} {msg : Messages} {delivery : Delivery}
    (h : p.Delivered w c msg delivery p')
    : p'.outstandingPeerRequests = p.outstandingPeerRequests := by
  obtain ⟨f, rfl, _⟩ := h.update_eq
  rfl

theorem Told.queue_eq {peerId : PeerId} {msg : Messages} {delivery : Delivery}
    {signals : List Signal} (h : p.Told peerId msg delivery signals p')
    : p'.outstandingPeerRequests = p.outstandingPeerRequests := by
  obtain ⟨_, f, rfl, _⟩ := h.update_eq
  rfl

theorem InHand.dequeued (h : p.InHand held) (harm : p.arm = .dequeueing) (lock : Mutex Party)
    : InHand { p with lock }.dequeueRequests.unlock held := by
  have heq : p.outstandingPeerRequests = held.toList := by
    have heq := h.requests_eq
    rw [harm] at heq
    exact (List.append_nil _).symm.trans heq
  constructor
  . show p.outstandingPeerRequests.drop 5 ++ p.outstandingPeerRequests.take 4 = held.toList
    rw [heq]
    cases held with
    | none => rfl
    | some req => rfl
  . left
    show p.outstandingPeerRequests.drop 5 = []
    rw [heq]
    cases held with
    | none => rfl
    | some req => rfl
  . trivial

theorem Passes.serves {peerId : PeerId} {msg : Messages} {arm : Arm} {delivery : Delivery}
    {signals : List Signal} {p1 : TorrentProcessor σ} (hworded : p.Worded) (h : p.InHand held)
    (hpasses : Passes p.arm peerId msg arm) (htold : p.Told peerId msg delivery signals p1)
    (hdone : delivery ≠ .pending)
    : ∃ held', (p1.setArm arm).InHand held' ∧ Serves torrentIo p held signals held' := by
  have hqueue : (p1.setArm arm).outstandingPeerRequests = p.outstandingPeerRequests :=
    htold.queue_eq
  generalize harm : p.arm = arm' at hpasses
  cases hpasses with
  | announcing pieceId _ peerIds =>
    refine ⟨held, h.leaves harm rfl id hqueue rfl, ?_⟩
    apply Serves.kept
    apply quiet_of_isMessage fun _ => htold.isMessage
    intro c msg' hsent
    rw [(htold.of_sent hsent).1]
    rfl
  | sending _ _ dequed =>
    obtain ⟨index, begin, block, rfl⟩ := hworded.sending _ _ _ harm
    have hreqs : p.arm.requests
        = { peerId, index, begin, length := UInt32.ofNat block.length } :: dequed := by
      rw [harm]
      rfl
    obtain ⟨rfl, rfl, hempty⟩ := h.of_requests hreqs
    have hnone : (p1.setArm (.answering [])).InHand none := by
      constructor
      . rw [hqueue, hempty]
        rfl
      . rw [hqueue]
        exact .inl hempty
      . trivial
    refine ⟨none, hnone, ?_⟩
    cases htold with
    | delivered c _ hlookup hdelivered =>
      have hfits := h.fits
      rw [harm] at hfits
      refine Serves.answered
        { peerId, index, begin, length := UInt32.ofNat block.length } c block hlookup ?_
      symm
      exact UInt32.toNat_ofNat_of_lt' hfits
    | pending => contradiction
    | closed hclosed => exact .dropped _ (.closed _ harm hclosed)

theorem InHand.advanced {signals : List Signal} (hreads : torrentIo.ReadsInFull)
    (hcoherent : p.Coherent) (hworded : p.Worded) (h : p.InHand held)
    (ha : p.Advanced torrentIo torrent signals p')
    : ∃ held', p'.InHand held' ∧ Serves torrentIo p held signals held' := by
  unfold Coherent at hcoherent
  have hkept : ∀ {q : TorrentProcessor σ}, q.InHand held → Quiet signals →
      ∃ held', q.InHand held' ∧ Serves torrentIo p held signals held' :=
    fun hq hquiet => ⟨held, hq, .kept held _ hquiet⟩
  have htold : ∀ {peerId msg delivery} {p1 : TorrentProcessor σ},
      p.Told peerId msg delivery signals p1 → (∀ c, (Signal.sent c msg).answer = none) →
      Quiet signals := by
    intro peerId msg delivery p1 ht hmsg
    apply quiet_of_isMessage fun _ => ht.isMessage
    intro c msg' hsent
    rw [(ht.of_sent hsent).1]
    exact hmsg c
  have hrequest : ∀ {index begin length} c, (Signal.sent c (.request index begin length)).answer = none :=
    fun _ => rfl
  cases ha with
  | lockPending => exact hkept (h.stays rfl rfl) quiet_nil
  | initConnection c lock harm =>
    exact hkept (h.leaves harm rfl id rfl rfl) quiet_nil
  | greeted c msg msgs p1 harm hdelivered =>
    have hqueue : p1.outstandingPeerRequests = p.outstandingPeerRequests := hdelivered.queue_eq
    refine hkept (h.leaves harm rfl id hqueue rfl) ?_
    intro signal hmem
    rw [List.mem_singleton] at hmem
    rw [hmem]
    have hinforms := hworded.greeting c _ harm msg List.mem_cons_self
    exact ⟨Signal.answer_of_informs hinforms c, fun _ => rfl⟩
  | greetPending c msg msgs p1 harm hdelivered =>
    exact hkept (h.stays hdelivered.queue_eq hdelivered.arm_eq) quiet_nil
  | greetClosed c msg msgs harm =>
    exact hkept (h.leaves harm rfl id rfl rfl) quiet_nil
  | registered c conn harm =>
    exact hkept (h.leaves harm rfl id rfl rfl) quiet_nil
  | closing c lock conn harm =>
    exact hkept (h.leaves harm rfl id rfl rfl) quiet_nil
  | passed peerId msg arm delivery _ p1 hpasses ht hdone =>
    exact Passes.serves hworded h hpasses ht hdone
  | passPending peerId msg arm _ _ hpasses ht =>
    have hsame := h.stays ht.queue_eq ht.arm_eq
    cases ht with
    | pending => exact hkept hsame quiet_nil
  | announced pieceId harm =>
    exact hkept (h.leaves harm rfl id rfl rfl) quiet_nil
  | queued req lock harm hlock =>
    have hreqs : p.arm.requests = [req] := by
      rw [harm]
      rfl
    obtain ⟨rfl, _, hempty⟩ := h.of_requests hreqs
    unfold queueRequests
    split
    . refine hkept ⟨?_, .inr trivial, trivial⟩ quiet_nil
      show p.outstandingPeerRequests ++ [req] ++ [] = [req]
      rw [hempty]
      rfl
    . next hpeers =>
      refine ⟨none, ⟨?_, .inl hempty, trivial⟩, ?_⟩
      . show p.outstandingPeerRequests ++ [] = []
        rw [hempty]
        rfl
      . apply Serves.dropped
        apply GivesUp.unknown harm
        simpa using hpeers
  | dispatched req requests _ p1 harm ht =>
    have hqueue : p1.outstandingPeerRequests = p.outstandingPeerRequests := ht.queue_eq
    exact hkept (h.moves hqueue (by rw [harm]; rfl) rfl (fun _ => trivial)) (htold ht hrequest)
  | dispatchPending req requests _ _ harm ht =>
    exact hkept (h.stays ht.queue_eq ht.arm_eq) (htold ht hrequest)
  | undelivered req requests harm =>
    exact hkept (h.moves rfl (by rw [harm]; rfl) rfl (fun _ => trivial)) quiet_nil
  | dispatchedAll harm =>
    exact hkept (h.moves rfl (by rw [harm]; rfl) rfl (fun _ => trivial)) quiet_nil
  | dequeued lock harm hlock => exact hkept (h.dequeued harm lock) quiet_nil
  | answerSkipped req dequed harm hlookup =>
    have hreqs : p.arm.requests = req :: dequed := by
      rw [harm]
      rfl
    obtain ⟨rfl, rfl, hempty⟩ := h.of_requests hreqs
    refine ⟨none, ⟨?_, .inl hempty, trivial⟩, .dropped req (.noSender harm hlookup)⟩
    show p.outstandingPeerRequests ++ [] = []
    rw [hempty]
    rfl
  | answerRead req dequed block io harm hread =>
    have hreqs : p.arm.requests = req :: dequed := by
      rw [harm]
      rfl
    obtain ⟨rfl, rfl, hempty⟩ := h.of_requests hreqs
    have hlength := hreads _ _ _ _ _ _ hread
    have hlt := req.length.toNat_lt
    refine hkept ⟨?_, .inl hempty, ?_⟩ quiet_nil
    . show p.outstandingPeerRequests
          ++ [{ req with length := UInt32.ofNat block.length }] = [req]
      rw [hempty, hlength, UInt32.ofNat_toNat]
      rfl
    . show block.length < 2 ^ 32
      omega
  | answerFailed req dequed e io harm hread =>
    have hreqs : p.arm.requests = req :: dequed := by
      rw [harm]
      rfl
    obtain ⟨rfl, rfl, hempty⟩ := h.of_requests hreqs
    refine ⟨none, ⟨?_, .inl hempty, trivial⟩, .dropped req (.readFailed e io harm hread)⟩
    show p.outstandingPeerRequests ++ [] = []
    rw [hempty]
    rfl
  | answeredAll harm =>
    exact hkept (h.leaves harm rfl id rfl rfl) quiet_nil
  | choked peerId choked combinedPeers _ _ harm =>
    rw [harm] at hcoherent
    contradiction
  | chokedAll harm =>
    exact hkept (h.leaves harm rfl id rfl rfl) quiet_nil
  | wokeUp wakeUp harm hsend =>
    refine hkept (h.leaves harm rfl id rfl rfl) ?_
    split
    . exact quiet_nil
    . simp [Quiet, Signal.answer, Signal.takes]
  | wakePending wakeUp harm hsend =>
    refine hkept (h.stays rfl rfl) ?_
    split
    . exact quiet_nil
    . simp [Quiet, Signal.answer, Signal.takes]

theorem InHand.stepped {event : StartEvent} {signals : List Signal} (hreads : torrentIo.ReadsInFull)
    (hcoherent : p.Coherent) (hworded : p.Worded) (h : p.InHand held)
    (hs : p.Stepped build torrentIo config torrent event signals p')
    : ∃ held', p'.InHand held' ∧ Serves torrentIo p held signals held' := by
  have hkept : ∀ {q : TorrentProcessor σ}, q.InHand held → Quiet signals →
      ∃ held', q.InHand held' ∧ Serves torrentIo p held signals held' :=
    fun hq hquiet => ⟨held, hq, .kept held _ hquiet⟩
  cases hs with
  | connected => exact hkept (h.stays rfl rfl) quiet_nil
  | linked => exact hkept (h.stays rfl rfl) quiet_nil
  | written c conn index begin block finished =>
    refine hkept (h.stays rfl rfl) ?_
    split
    . simp [Quiet, Signal.answer, Signal.takes]
    . exact quiet_nil
  | writeFailed => exact hkept (h.stays rfl rfl) quiet_nil
  | polled c _ _ harm hpolled =>
    have hnil : p'.arm.requests = [] := by
      rcases polled_arm harm hpolled with harm' | ⟨harm', _⟩
      . rw [harm']
        rfl
      . rw [harm']
        rfl
    refine hkept (h.leaves harm rfl id hpolled.queue_eq hnil) ?_
    apply quiet_of_isMessage fun _ => hpolled.isMessage
    intro d msg hsent
    exact Signal.answer_of_informs (hpolled.of_sent hworded hsent) d
  | accepted c conn harm => exact hkept (h.leaves harm rfl id rfl rfl) quiet_nil
  | took peerIds msg wakeUp arm harm hrecv hstarts =>
    cases hstarts with
    | wakeup =>
      refine hkept (h.leaves harm rfl id rfl rfl) ?_
      simp [Quiet, Signal.answer, Signal.takes, InternalStateMessage.requestOf]
    | pieceComplete =>
      refine hkept (h.leaves harm rfl id rfl rfl) ?_
      simp [Quiet, Signal.answer, Signal.takes, InternalStateMessage.requestOf]
    | peerRequestedPiece req =>
      obtain ⟨rfl, hempty⟩ := h.of_select harm
      refine ⟨some req, ⟨?_, .inl hempty, trivial⟩, .took req harm⟩
      show p.outstandingPeerRequests ++ [req] = [req]
      rw [hempty]
      rfl
  | ticked harm => exact hkept (h.leaves harm rfl id rfl rfl) quiet_nil
  | advanced _ _ hadvanced => exact h.advanced hreads hcoherent hworded hadvanced
  | lockPending => exact hkept (h.stays rfl rfl) quiet_nil
  | computed available now lock requests tracker harm =>
    exact hkept (h.moves rfl (by rw [harm]; rfl) rfl (fun _ => trivial)) quiet_nil
  | unchoked _ _ _ harm => exact hkept (h.leaves harm rfl id rfl rfl) quiet_nil
  | noneExpired _ _ _ harm => exact hkept (h.leaves harm rfl id rfl rfl) quiet_nil
  | someExpired _ _ _ _ _ harm =>
    refine hkept (h.leaves harm rfl id rfl rfl) ?_
    simp [Quiet, Signal.answer, Signal.takes]

def answersTo (p : TorrentProcessor σ) (peerId : PeerId) (tr : StartTrace) : List Answer :=
  (answersIn tr).filter fun ans => decide (p.connections[ans.c]?.map (·.peerId) = some peerId)

def heldFrom (held : Option PeerRequestedPiece) (peerId : PeerId) : List PeerRequestedPiece :=
  held.toList.filter fun req => decide (req.peerId = peerId)

/--
What was taken from the channel of the loop is done but for the request in hand, and the answers are
to requests among those that are done, in their order.
-/
def Ledger (tr : StartTrace) (p : TorrentProcessor σ) (held : Option PeerRequestedPiece)
    (peerId : PeerId) : Prop :=
  ∃ done reqs, takenFrom peerId tr = done ++ heldFrom held peerId ∧ reqs.Sublist done
    ∧ List.Forall₂ Answer.Fits (p.answersTo peerId tr) reqs

def AnswersSome (tr : StartTrace) (p : TorrentProcessor σ) : Prop :=
  ∀ ans ∈ answersIn tr, ∃ conn, p.connections[ans.c]? = some conn

theorem answersIn_append (tr : StartTrace) (event : StartEvent) (signals : List Signal)
    : answersIn (tr ++ [(event, signals)]) = answersIn tr ++ signals.filterMap Signal.answer := by
  simp [answersIn]

theorem answersIn_append_trace (tr1 tr2 : StartTrace)
    : answersIn (tr1 ++ tr2) = answersIn tr1 ++ answersIn tr2 :=
  List.flatMap_append

theorem answersIn_eq_nil {tr : StartTrace} (h : ∀ x ∈ tr, ∀ d msg, .sent d msg ∉ x.2)
    : answersIn tr = [] := by
  unfold answersIn
  rw [List.flatMap_eq_nil_iff]
  intro x hx
  rw [List.filterMap_eq_nil_iff]
  intro signal hmem
  cases signal with
  | sent d msg => exact absurd hmem (h x hx d msg)
  | _ => rfl

theorem takenFrom_append (peerId : PeerId) (tr : StartTrace) (event : StartEvent)
    (signals : List Signal)
    : takenFrom peerId (tr ++ [(event, signals)])
        =
      takenFrom peerId tr ++ signals.filterMap (Signal.takes peerId) := by
  simp [takenFrom]

theorem acceptedFrom_append (peerId : PeerId) (tr : StartTrace) (event : StartEvent)
    (signals : List Signal)
    : acceptedFrom peerId (tr ++ [(event, signals)])
        =
      acceptedFrom peerId tr ++ signals.filterMap (Signal.accepts peerId) := by
  simp [acceptedFrom]

theorem Quiet.answers_eq {signals : List Signal} (h : Quiet signals)
    : signals.filterMap Signal.answer = [] := by
  rw [List.filterMap_eq_nil_iff]
  intro signal hmem
  exact (h signal hmem).1

theorem Quiet.takes_eq {signals : List Signal} (h : Quiet signals) (peerId : PeerId)
    : signals.filterMap (Signal.takes peerId) = [] := by
  rw [List.filterMap_eq_nil_iff]
  intro signal hmem
  exact (h signal hmem).2 peerId

variable {held' : Option PeerRequestedPiece} {tr : StartTrace} {signals : List Signal}

theorem AnswersSome.stepped {event : StartEvent} (h : p.AnswersSome tr) (hcoherent : p.Coherent)
    (hown : p.TxOwn) (hs : p.Stepped build torrentIo config torrent event signals p')
    (hserves : Serves torrentIo p held signals held')
    : p'.AnswersSome (tr ++ [(event, signals)]) := by
  intro ans hmem
  suffices hsome : ∃ conn, p.connections[ans.c]? = some conn by
    obtain ⟨conn, hget⟩ := hsome
    obtain ⟨conn', hget', _⟩ := hs.getElem? hcoherent hget
    exact ⟨conn', hget'⟩
  rw [answersIn_append, List.mem_append] at hmem
  rcases hmem with hmem | hmem
  . exact h ans hmem
  . cases hserves with
    | kept _ _ hquiet =>
      rw [hquiet.answers_eq] at hmem
      contradiction
    | took => contradiction
    | dropped => contradiction
    | answered req c block hlookup =>
      simp only [List.filterMap_cons, Signal.answer, List.filterMap_nil, List.mem_singleton] at hmem
      obtain ⟨conn, hget, _⟩ := hown req.peerId c hlookup
      rw [hmem]
      exact ⟨conn, hget⟩

theorem AnswersSome.answersTo_eq {event : StartEvent} (h : p.AnswersSome tr)
    (hcoherent : p.Coherent) (hs : p.Stepped build torrentIo config torrent event signals p')
    (peerId : PeerId)
    : p'.answersTo peerId tr = p.answersTo peerId tr := by
  apply List.filter_congr
  intro ans hmem
  obtain ⟨conn, hget⟩ := h ans hmem
  obtain ⟨conn', hget', hid⟩ := hs.getElem? hcoherent hget
  rw [hget, hget', Option.map_some, Option.map_some, hid]

theorem Ledger.stepped {event : StartEvent} {peerId : PeerId} (h : Ledger tr p held peerId)
    (hsome : p.AnswersSome tr) (hcoherent : p.Coherent) (hown : p.TxOwn)
    (hs : p.Stepped build torrentIo config torrent event signals p')
    (hserves : Serves torrentIo p held signals held')
    : Ledger (tr ++ [(event, signals)]) p' held' peerId := by
  obtain ⟨done, reqs, htaken, hsub, hfits⟩ := h
  have hto : p'.answersTo peerId (tr ++ [(event, signals)])
      = p.answersTo peerId tr ++ (signals.filterMap Signal.answer).filter
        fun ans => decide (p'.connections[ans.c]?.map (·.peerId) = some peerId) := by
    rw [← hsome.answersTo_eq hcoherent hs]
    unfold answersTo
    rw [answersIn_append, List.filter_append]
  unfold Ledger
  rw [hto, takenFrom_append, htaken]
  cases hserves with
  | kept _ _ hquiet =>
    refine ⟨done, reqs, ?_, hsub, ?_⟩
    . rw [hquiet.takes_eq, List.append_nil]
    . rw [hquiet.answers_eq, List.filter_nil, List.append_nil]
      exact hfits
  | took req =>
    refine ⟨done, reqs, ?_, hsub, ?_⟩
    . by_cases hid : req.peerId = peerId
      . simp [heldFrom, Signal.takes, InternalStateMessage.requestOf, hid]
      . simp [heldFrom, Signal.takes, InternalStateMessage.requestOf, hid]
    . exact (List.append_nil _).symm ▸ hfits
  | dropped req =>
    refine ⟨done ++ heldFrom (some req) peerId, reqs, ?_, hsub.trans (List.sublist_append_left _ _), ?_⟩
    . simp [heldFrom]
    . exact (List.append_nil _).symm ▸ hfits
  | answered req c block hlookup hlength =>
    obtain ⟨conn, hget, hid⟩ := hown req.peerId c hlookup
    obtain ⟨conn', hget', hid'⟩ := hs.getElem? hcoherent hget
    rw [hid] at hid'
    by_cases heq : req.peerId = peerId
    . refine ⟨done ++ [req], reqs ++ [req], ?_, hsub.append (.refl _), ?_⟩
      . simp [heldFrom, heq, Signal.takes]
      . simp only [List.filterMap_cons, Signal.answer, List.filterMap_nil, List.filter_cons, hget',
          Option.map_some, hid', heq, decide_true, if_true, List.filter_nil]
        exact List.rel_append hfits (.cons ⟨rfl, rfl, hlength⟩ .nil)
    . refine ⟨done, reqs, ?_, hsub, ?_⟩
      . simp [heldFrom, heq, Signal.takes]
      . simp [Signal.answer, hget', hid', heq]
        exact hfits

theorem Serves.of_took {req : PeerRequestedPiece} (h : Serves torrentIo p held signals held')
    (htook : .took (.peerRequestedPiece req) ∈ signals)
    : held' = some req := by
  cases h with
  | kept _ _ hquiet =>
    have hnone := (hquiet _ htook).2 req.peerId
    simp [Signal.takes, InternalStateMessage.requestOf] at hnone
  | took req' =>
    simp only [List.mem_singleton, Signal.took.injEq, InternalStateMessage.peerRequestedPiece.injEq]
      at htook
    rw [htook]
  | dropped => contradiction
  | answered => simp at htook

structure UploadsKept (tr : StartTrace) (p : TorrentProcessor σ)
    (held : Option PeerRequestedPiece) : Prop where
  coherent : p.Coherent
  worded : p.Worded
  oneHandler : p.OneHandler
  txOwn : p.TxOwn
  inHand : p.InHand held
  answersSome : p.AnswersSome tr
  ledger : ∀ peerId, Ledger tr p held peerId
  flows : ∀ peerId, takenFrom peerId tr ++ p.waitingFrom peerId = acceptedFrom peerId tr

theorem UploadsKept.stepped {event : StartEvent} (hreads : torrentIo.ReadsInFull)
    (h : p.UploadsKept tr held) (hdistinct : p.DistinctIds event)
    (hs : p.Stepped build torrentIo config torrent event signals p')
    : ∃ held', p'.UploadsKept (tr ++ [(event, signals)]) held'
        ∧ Serves torrentIo p held signals held' := by
  obtain ⟨held', hinHand, hserves⟩ := h.inHand.stepped hreads h.coherent h.worded hs
  refine ⟨held', ?_, hserves⟩
  constructor
  . exact h.coherent.stepped hs
  . exact h.worded.stepped h.coherent hs
  . exact h.oneHandler.stepped h.coherent hs hdistinct
  . exact h.txOwn.stepped h.coherent hs
  . exact hinHand
  . exact h.answersSome.stepped h.coherent h.txOwn hs hserves
  . intro peerId
    exact (h.ledger peerId).stepped h.answersSome h.coherent h.txOwn hs hserves
  . intro peerId
    have hflows : signals.filterMap (Signal.takes peerId) ++ p'.waitingFrom peerId
        = p.waitingFrom peerId ++ signals.filterMap (Signal.accepts peerId) :=
      hs.flows h.coherent h.oneHandler
    rw [takenFrom_append, acceptedFrom_append, List.append_assoc, hflows, ← List.append_assoc,
      h.flows peerId]

theorem uploadsKept_new (config : Config) (torrent : V1Torrent) (io : σ)
    : (new config torrent io).UploadsKept [] none := by
  constructor
  . trivial
  . exact worded_new io
  . constructor
    . intro c d conn conn' hget
      contradiction
    . intro c conn hget
      contradiction
  . intro peerId c hlookup
    contradiction
  . exact ⟨rfl, .inl rfl, trivial⟩
  . intro ans hmem
    contradiction
  . intro peerId
    exact ⟨[], [], rfl, .refl _, .nil⟩
  . intro peerId
    rfl

theorem uploadsKept_of_run {io : σ} (hreads : torrentIo.ReadsInFull)
    (hrun : (startTask build torrentIo config torrent).RunWhile DistinctIds (new config torrent io)
      tr p)
    : ∃ held, p.UploadsKept tr held := by
  apply hrun.invariant_trace (P := fun tr p => ∃ held, p.UploadsKept tr held)
  . intro tr p event signals p' hdistinct hstep ⟨held, h⟩
    obtain ⟨held', h', _⟩ := h.stepped hreads hdistinct (stepped_of_step hstep)
    exact ⟨held', h'⟩
  . exact ⟨none, uploadsKept_new config torrent io⟩

/--
What was accepted from a peer was taken by the loop or waits for it, in the order in which it was
accepted, and the answers go to requests that were taken, in that order and each to one of its own.
-/
structure UploadsInTurn (tr : StartTrace) (p : TorrentProcessor σ) : Prop where
  accepted : ∀ peerId, acceptedFrom peerId tr = takenFrom peerId tr ++ p.waitingFrom peerId
  inOrder : ∀ peerId, ∃ reqs : List PeerRequestedPiece, reqs.Sublist (takenFrom peerId tr)
    ∧ List.Forall₂ Answer.Fits (p.answersTo peerId tr) reqs
  toSome : ∀ ans ∈ answersIn tr, ∃ peerId, ans ∈ p.answersTo peerId tr

theorem UploadsKept.inTurn (h : p.UploadsKept tr held) : p.UploadsInTurn tr := by
  constructor
  . intro peerId
    exact (h.flows peerId).symm
  . intro peerId
    obtain ⟨done, reqs, htaken, hsub, hfits⟩ := h.ledger peerId
    refine ⟨reqs, ?_, hfits⟩
    rw [htaken]
    exact hsub.trans (List.sublist_append_left _ _)
  . intro ans hmem
    obtain ⟨conn, hget⟩ := h.answersSome ans hmem
    refine ⟨conn.peerId, ?_⟩
    unfold answersTo
    rw [List.mem_filter, hget]
    exact ⟨hmem, decide_eq_true rfl⟩

section serving

/--
The block of the request that is next to answer is read.
-/
def ReadSucceeds (torrentIo : TorrentIo σ) (p : TorrentProcessor σ) : Prop :=
  ∀ req ∈ p.arm.nextToAnswer,
    (torrentIo.readPiece p.io req.index req.begin req.length).1.isOk = true

instance : Decidable (p.ReadSucceeds torrentIo) :=
  inferInstanceAs (Decidable (∀ req ∈ _, _))

/--
The loop is still with a request of the peer, which is registered, with its sender, and its block is
read.
-/
def Staying (torrentIo : TorrentIo σ) (peerId : PeerId) (c : Nat) (p : TorrentProcessor σ) : Prop :=
  p.arm ≠ .select ∧ peerId ∈ p.torrentState.peers ∧ p.peerToTx.lookup peerId = some c
    ∧ p.ReadSucceeds torrentIo

instance (peerId : PeerId) : Decidable (Staying torrentIo peerId c p) :=
  inferInstanceAs (Decidable (_ ∧ _))

/--
The connection is there for the block that is sent on it.
-/
def SendsOpen (c : Nat) (p : TorrentProcessor σ) : Prop :=
  p.arm.isSending = true → ∃ conn ∈ p.connections[c]?, conn.link ≠ .ended

instance : Decidable (p.SendsOpen c) :=
  inferInstanceAs (Decidable (_ → ∃ conn ∈ _, _))

variable {req : PeerRequestedPiece}

theorem Staying.not_givesUp (h : Staying torrentIo req.peerId c p) (hopen : p.SendsOpen c)
    : ¬p.GivesUp torrentIo req := by
  obtain ⟨_, hpeers, hlookup, hread⟩ := h
  intro hgives
  cases hgives with
  | unknown _ hnone =>
    unfold TorrentState.getInternalPeerState at hnone
    rw [Finmap.lookup_eq_none] at hnone
    exact hnone hpeers
  | noSender _ hnone =>
    rw [hlookup] at hnone
    contradiction
  | readFailed e io harm herror =>
    replace hread := hread req (by rw [harm]; rfl)
    rw [herror] at hread
    contradiction
  | closed msg harm hclosed =>
    obtain ⟨conn, hget, hthere⟩ := hopen (by rw [harm]; rfl)
    exact hthere (hclosed c conn hlookup hget)

def Answered (c : Nat) (req : PeerRequestedPiece) (tr : StartTrace) (p : TorrentProcessor σ) : Prop :=
  (p.InHand (some req) ∧ answersIn tr = [])
    ∨ (p.InHand none ∧ ∃ block : Bytes, answersIn tr = [⟨c, req.index, req.begin, block⟩]
      ∧ block.length = req.length.toNat)

theorem Answered.stepped {event : StartEvent} (hreads : torrentIo.ReadsInFull)
    (h : Answered c req tr p) (hcoherent : p.Coherent) (hworded : p.Worded)
    (hstaying : Staying torrentIo req.peerId c p) (hopen : p.SendsOpen c)
    (hs : p.Stepped build torrentIo config torrent event signals p')
    : Answered c req (tr ++ [(event, signals)]) p' := by
  unfold Answered
  rw [answersIn_append]
  rcases h with ⟨hinHand, hnil⟩ | ⟨hinHand, block, hanswers, hlength⟩
  . obtain ⟨held', hinHand', hserves⟩ := hinHand.stepped hreads hcoherent hworded hs
    rw [hnil, List.nil_append]
    cases hserves with
    | kept _ _ hquiet => exact .inl ⟨hinHand', hquiet.answers_eq⟩
    | dropped _ hgives => exact absurd hgives (hstaying.not_givesUp hopen)
    | answered _ c' block hlookup hlength =>
      rw [hstaying.2.2.1, Option.some.injEq] at hlookup
      subst hlookup
      exact .inr ⟨hinHand', block, rfl, hlength⟩
  . obtain ⟨held', hinHand', hserves⟩ := hinHand.stepped hreads hcoherent hworded hs
    cases hserves with
    | kept _ _ hquiet =>
      rw [hquiet.answers_eq, List.append_nil]
      exact .inr ⟨hinHand', block, hanswers, hlength⟩
    | took _ harm => exact absurd harm hstaying.1

end serving

/--
The handler has a request of its peer to handle, which is not choked.
-/
structure Accepting (p : TorrentProcessor σ) (c : Nat) (req : PeerRequestedPiece) : Prop where
  locking : ∃ conn, p.connections[c]? = some conn ∧ conn.peerId = req.peerId
    ∧ conn.handler = .locking (.message (.request req.index req.begin req.length))
  acquires : (p.lock.lock (.handler c)).1 = true
  not_chokes : p.torrentState.chokes req.peerId = false

theorem Accepting.accepts {req : PeerRequestedPiece} (h : p.Accepting c req)
    (hs : p.Stepped build torrentIo config torrent (.poll c) signals p')
    : signals.filterMap (Signal.accepts req.peerId) = [req] := by
  obtain ⟨conn, hget, hid, hhandler⟩ := h.locking
  cases hs with
  | lockPending _ _ hlocks => exact absurd hlocks id
  | polled _ _ _ harm hpolled =>
    obtain ⟨lock, _, hproceeded⟩ := hpolled.of_locking hget hhandler h.acquires
    simp only [hid, TorrentState.handleJob, h.not_chokes, Bool.false_eq_true, if_false]
      at hproceeded
    cases hproceeded with
    | wake => simp [Signal.accepts, InternalStateMessage.requestOf]

/--
In a run with distinct peers, the requests of a peer that is not choked are accepted, and they are
answered in their order and at most once. The loop has answered a request that it took when it is
back in its select, if meanwhile the peer stayed registered, the block was read and the connection
was open when the block was sent. Before that it may have answered it or not.
-/
theorem uploads_of_run (build : Build) (torrentIo : TorrentIo σ) (config : Config)
    (torrent : V1Torrent) (io : σ) (p : TorrentProcessor σ) (tr : StartTrace)
    (hreads : torrentIo.ReadsInFull)
    (hrun : (startTask build torrentIo config torrent).RunWhile DistinctIds
      (new config torrent io) tr p)
    : p.UploadsInTurn tr
        ∧ (∀ tr1 c signals tr2 p1 req, tr = tr1 ++ (.poll c, signals) :: tr2 →
          (startTask build torrentIo config torrent).Run (new config torrent io) tr1 p1 →
          p1.Accepting c req → signals.filterMap (Signal.accepts req.peerId) = [req])
        ∧ ∀ tr1 x seg tr2 p1 p2 req c, tr = tr1 ++ x :: (seg ++ tr2) →
          .took (.peerRequestedPiece req) ∈ x.2 →
          (startTask build torrentIo config torrent).Run (new config torrent io) (tr1 ++ [x]) p1 →
          (startTask build torrentIo config torrent).RunWhile
            (fun p _ => Staying torrentIo req.peerId c p ∧ p.SendsOpen c)
            p1 seg p2 →
          (p2.arm ≠ .select ∧ answersIn seg = [])
            ∨ ∃ block : Bytes, answersIn seg = [⟨c, req.index, req.begin, block⟩]
              ∧ block.length = req.length.toNat := by
  have hprefix : ∀ {tr1 tr2 p1}, tr = tr1 ++ tr2 →
      (startTask build torrentIo config torrent).Run (new config torrent io) tr1 p1 →
      (∃ held, p1.UploadsKept tr1 held)
        ∧ (startTask build torrentIo config torrent).RunWhile DistinctIds p1 tr2 p := by
    intro tr1 tr2 p1 htr hrun1
    subst htr
    obtain ⟨p1', hrun1', hrun2⟩ := Machine.RunWhile.append_iff.mp hrun
    obtain rfl := hrun1.final_unique hrun1'
    exact ⟨uploadsKept_of_run hreads hrun1', hrun2⟩
  refine ⟨?_, ?_, ?_⟩
  . obtain ⟨held, h⟩ := uploadsKept_of_run hreads hrun
    exact h.inTurn
  . intro tr1 c signals tr2 p1 req htr hrun1 haccepting
    obtain ⟨_, hrun2⟩ := hprefix htr hrun1
    obtain ⟨p2, _, hstep, _⟩ := Machine.RunWhile.cons_iff.mp hrun2
    exact haccepting.accepts (stepped_of_step hstep)
  . intro tr1 x seg tr2 p1 p2 req c htr htook hrun1 hseg
    have hinHand : p1.InHand (some req) ∧ p1.Coherent ∧ p1.Worded := by
      obtain ⟨p0, hrun0, hstep0⟩ := Machine.RunWhile.append_iff.mp hrun1
      obtain ⟨⟨held, h0⟩, hrun2⟩ := hprefix htr hrun0
      obtain ⟨p1', hdistinct, hstep, _⟩ := Machine.RunWhile.cons_iff.mp hrun2
      obtain ⟨p1'', _, hstep', hnil⟩ := Machine.RunWhile.cons_iff.mp hstep0
      cases hnil
      rw [hstep, Option.some.injEq, Prod.mk.injEq] at hstep'
      obtain ⟨_, rfl⟩ := hstep'
      obtain ⟨held', h1, hserves⟩ := h0.stepped hreads hdistinct (stepped_of_step hstep)
      rw [← hserves.of_took htook]
      exact ⟨h1.inHand, h1.coherent, h1.worded⟩
    have hanswered : Answered c req seg p2 ∧ p2.Coherent ∧ p2.Worded := by
      apply hseg.invariant_trace (P := fun tr p => Answered c req tr p ∧ p.Coherent ∧ p.Worded)
      . intro tr p event signals p' ⟨hstaying, hopen⟩ hstep ⟨h, hcoherent, hworded⟩
        have hs := stepped_of_step hstep
        exact ⟨h.stepped hreads hcoherent hworded hstaying hopen hs, hcoherent.stepped hs,
          hworded.stepped hcoherent hs⟩
      . exact ⟨.inl ⟨hinHand.1, rfl⟩, hinHand.2⟩
    rcases hanswered.1 with ⟨hheld, hnil⟩ | ⟨_, hblock⟩
    . left
      refine ⟨?_, hnil⟩
      intro hselect
      have hnone := (hheld.of_select hselect).1
      contradiction
    . exact .inr hblock

def askingEvents : List StartEvent :=
  greetingEvents 0 [5] ++ handlingEvents 0 (.flag .interested)
    ++ [.recvWakeUp [], .compute [(0, [])] (fun _ => 0), .advance, .advance, .advance]
    ++ handlingEvents 0 (.request 0 0 2)

/--
The loop queues the request, takes it from the queue again and reads the block.
-/
def servingEvents : List StartEvent :=
  [.advance, .compute [(0, [])] (fun _ => 0), .advance, .advance, .advance]

theorem uploads_asking
    : ∃ tr1 x seg p1 p2, (storeTask ⟨true⟩ (torrentFixture 2 2 [[1, 2]])).Run
          (new ⟨false, 8, 1, 1⟩ (torrentFixture 2 2 [[1, 2]]) twoByteStore) (tr1 ++ [x]) p1
        ∧ (storeTask ⟨true⟩ (torrentFixture 2 2 [[1, 2]])).Run p1 seg p2
        ∧ acceptedFrom [5] (tr1 ++ [x]) = [⟨[5], 0, 0, 2⟩]
        ∧ p2.UploadsInTurn (tr1 ++ x :: (seg ++ []))
        ∧ ∃ block : Bytes, answersIn seg = [⟨0, 0, 0, block⟩] ∧ block.length = 2 := by
  let req : PeerRequestedPiece := ⟨[5], 0, 0, 2⟩
  let guard : TorrentProcessor (Option Store) → StartEvent → Prop := DistinctIds
  let serving : TorrentProcessor (Option Store) → StartEvent → Prop := fun p event => p.DistinctIds event
    ∧ Staying (Store.torrentIo ⟨true⟩ Sha1.digest).handled req.peerId 0 p ∧ p.SendsOpen 0
  obtain ⟨tr, p1, seg, p2, hrun, hseg, hstate⟩ :=
    (storeTask ⟨true⟩ (torrentFixture 2 2 [[1, 2]])).exists_runs_of_exec guard serving
      (new ⟨false, 8, 1, 1⟩ (torrentFixture 2 2 [[1, 2]]) twoByteStore)
      (askingEvents ++ [.recvWakeUp []]) (servingEvents ++ [.advance, .advance])
      (fun x => (x.1.getLast?.map Prod.snd, acceptedFrom [5] x.1, x.2.2.2.arm))
      (b := (some [.took (.peerRequestedPiece req)], [req], .select)) (by decide +kernel)
  simp only [Prod.mk.injEq, Option.map_eq_some_iff, List.getLast?_eq_some_iff] at hstate
  obtain ⟨⟨x, ⟨tr1, rfl⟩, hx⟩, haccepted, hselect⟩ := hstate
  have hrun1 : (storeTask ⟨true⟩ (torrentFixture 2 2 [[1, 2]])).Run _ _ _ :=
    hrun.mono fun _ _ _ => trivial
  have hseg1 : (storeTask ⟨true⟩ (torrentFixture 2 2 [[1, 2]])).Run _ _ _ :=
    hseg.mono fun _ _ _ => trivial
  have hwhole := hrun.append (hseg.mono fun _ _ hguard => hguard.1)
  rw [List.append_assoc, List.singleton_append, ← List.append_nil seg] at hwhole
  have huploads := uploads_of_run ⟨true⟩ (Store.torrentIo ⟨true⟩ Sha1.digest).handled
    ⟨false, 8, 1, 1⟩ (torrentFixture 2 2 [[1, 2]]) twoByteStore p2 _
    (Store.readsInFull ⟨true⟩ Sha1.digest).handled hwhole
  refine ⟨tr1, x, seg, p1, p2, hrun1, hseg1, haccepted, huploads.1, ?_⟩
  have htook : .took (.peerRequestedPiece req) ∈ x.2 := by
    rw [hx]
    exact List.mem_cons_self
  rcases huploads.2.2 tr1 x seg [] p1 p2 req 0 rfl htook hrun1
    (hseg.mono fun _ _ hguard => hguard.2) with ⟨hbusy, _⟩ | hanswered
  . contradiction
  . exact hanswered

/--
The peer reads nothing, and sends two messages more that the loop does not get to.
-/
def stuckEvents : List StartEvent :=
  servingEvents ++ [.advance, .link 0 (.read .keepAlive), .link 0 (.read .keepAlive)]

/--
Nothing is answered when the connection is gone before the block is to be sent while the peer is
still registered, nor when the loop and the connection come to wait for each other.
-/
theorem not_uploads_closed
    : (∃ tr1 x seg p1 p2, (storeTask ⟨true⟩ (torrentFixture 2 2 [[1, 2]])).RunWhile DistinctIds
          (new ⟨false, 8, 1, 1⟩ (torrentFixture 2 2 [[1, 2]]) twoByteStore) (tr1 ++ [x]) p1
        ∧ (storeTask ⟨true⟩ (torrentFixture 2 2 [[1, 2]])).RunWhile
          (fun p event => p.DistinctIds event
            ∧ Staying (Store.torrentIo ⟨true⟩ Sha1.digest).handled [5] 0 p)
          p1 seg p2
        ∧ acceptedFrom [5] (tr1 ++ [x]) = [⟨[5], 0, 0, 2⟩]
        ∧ .took (.peerRequestedPiece ⟨[5], 0, 0, 2⟩) ∈ x.2 ∧ p2.arm = .select
        ∧ answersIn (tr1 ++ [x] ++ seg) = [])
      ∧ ∃ tr1 x seg p1 p2, (onePieceTask ⟨false, 3, 1, 1⟩).RunWhile DistinctIds
          (onePieceStart ⟨false, 3, 1, 1⟩) (tr1 ++ [x]) p1
        ∧ (onePieceTask ⟨false, 3, 1, 1⟩).RunWhile
          (fun p event => p.DistinctIds event
            ∧ Staying (MemoryTorrentIo.torrentIo ⟨true⟩) [5] 0 p ∧ p.SendsOpen 0)
          p1 seg p2
        ∧ acceptedFrom [5] (tr1 ++ [x]) = [⟨[5], 0, 0, 2⟩]
        ∧ .took (.peerRequestedPiece ⟨[5], 0, 0, 2⟩) ∈ x.2
        ∧ ∀ tr p, (onePieceTask ⟨false, 3, 1, 1⟩).Run p2 tr p →
          p.LoopWaits 0 ∧ answersIn (tr1 ++ [x] ++ seg ++ tr) = [] := by
  let accepted (tr : StartTrace) : Option (List Signal) × List PeerRequestedPiece :=
    (tr.getLast?.map Prod.snd, acceptedFrom [5] tr)
  constructor
  . obtain ⟨tr, p1, seg, p2, hrun, hseg, hstate⟩ :=
      (storeTask ⟨true⟩ (torrentFixture 2 2 [[1, 2]])).exists_runs_of_exec (DistinctIds ·)
        (fun p event => p.DistinctIds event
          ∧ Staying (Store.torrentIo ⟨true⟩ Sha1.digest).handled [5] 0 p)
        (new ⟨false, 8, 1, 1⟩ (torrentFixture 2 2 [[1, 2]]) twoByteStore)
        (askingEvents ++ [.recvWakeUp []])
        (servingEvents ++ [.link 0 .writeFails, .advance, .advance])
        (fun x => (accepted x.1, x.2.2.2.arm, answersIn (x.1 ++ x.2.2.1)))
        (b := ((some [.took (.peerRequestedPiece ⟨[5], 0, 0, 2⟩)], [⟨[5], 0, 0, 2⟩]), .select, []))
        (by decide +kernel)
    simp only [accepted, Prod.mk.injEq, Option.map_eq_some_iff, List.getLast?_eq_some_iff] at hstate
    obtain ⟨⟨⟨x, ⟨tr1, rfl⟩, hx⟩, haccepted⟩, hselect, hanswers⟩ := hstate
    refine ⟨tr1, x, seg, p1, p2, hrun, hseg, haccepted, ?_, hselect, hanswers⟩
    rw [hx]
    exact List.mem_cons_self
  . obtain ⟨tr, p1, seg, p2, hrun, hseg, hstate⟩ :=
      (onePieceTask ⟨false, 3, 1, 1⟩).exists_runs_of_exec (DistinctIds ·)
        (fun p event => p.DistinctIds event
          ∧ Staying (MemoryTorrentIo.torrentIo ⟨true⟩) [5] 0 p ∧ p.SendsOpen 0)
        (onePieceStart ⟨false, 3, 1, 1⟩) (askingEvents ++ [.recvWakeUp []]) stuckEvents
        (fun x => (accepted x.1, answersIn (x.1 ++ x.2.2.1),
          decide (x.2.2.2.LoopWaits 0 ∧ x.2.2.2.LinkWaits 0)))
        (b := ((some [.took (.peerRequestedPiece ⟨[5], 0, 0, 2⟩)], [⟨[5], 0, 0, 2⟩]), [], true))
        (by decide +kernel)
    simp only [accepted, Prod.mk.injEq, Option.map_eq_some_iff, List.getLast?_eq_some_iff,
      decide_eq_true_iff] at hstate
    obtain ⟨⟨⟨x, ⟨tr1, rfl⟩, hx⟩, haccepted⟩, hanswers, hloop, hlink⟩ := hstate
    have hcoherent : p2.Coherent :=
      coherent_of_run ((hrun.mono fun _ _ _ => trivial).append (hseg.mono fun _ _ _ => trivial))
    refine ⟨tr1, x, seg, p1, p2, hrun, hseg, haccepted, ?_, ?_⟩
    . rw [hx]
      exact List.mem_cons_self
    . intro tr p hrest
      obtain ⟨hkept, _, hsent⟩ := CircularWait.of_run ⟨hloop, hlink⟩ hcoherent hrest
      refine ⟨hkept.loop, ?_⟩
      rw [answersIn_append_trace, hanswers, answersIn_eq_nil hsent, List.append_nil]

end TorrentProcessor
