import BenTorrent.Peer.Start.Connection

/-!
This module contains which arm follows on which, and which messages the peers are sent.
-/

open Rust

/--
The messages that neither ask for a block nor bring one.
-/
def Messages.Informs : Messages → Prop
  | .request _ _ _ => False
  | .piece _ _ _ => False
  | _ => True

theorem informs_interestMsg (interest : Bool) : (FlagMessages.interestMsg interest).Informs := by
  unfold FlagMessages.interestMsg
  split
  . trivial
  . trivial

theorem Follows.eq_signal {next : Next} {msg : Messages} (h : Follows next (.signalling msg))
    : next = .signal msg := by
  cases h with
  | signalling => rfl

theorem Turns.informs {state : TorrentState} {peerId : PeerId} {handler : Handler} {msg : Messages}
    (h : Turns state peerId handler (.signalling msg))
    : handler = .signalling msg ∨ msg.Informs := by
  cases h with
  | handled job _ hfollows =>
    obtain ⟨interest, rfl⟩ := TorrentState.handleJob_eq_signal (Prod.ext hfollows.eq_signal rfl)
    exact .inr (informs_interestMsg interest)
  | signalled msg' _ hfollows =>
    have heq := hfollows.eq_signal
    rw [Next.signal.injEq] at heq
    rw [heq]
    exact .inl rfl
  | woken msg' _ hfollows =>
    have heq := hfollows.eq_signal
    contradiction

namespace TorrentProcessor

variable {σ : Type u} {p p' : TorrentProcessor σ} {c : Nat}
variable {build : Build} {torrentIo : TorrentIo σ} {config : Config} {torrent : V1Torrent}

inductive Moves (build : Build) (torrentIo : TorrentIo σ) (torrent : V1Torrent)
    (p : TorrentProcessor σ) : Arm → Prop where
  | stays : Moves build torrentIo torrent p p.arm
  | select : Moves build torrentIo torrent p .select
  | initConnection (c : Nat) : Moves build torrentIo torrent p (.initConnection c)
  | greets (c : Nat) : Moves build torrentIo torrent p (.greeting c (p.initialMessages torrent))
  | greeted (c : Nat) (msg : Messages) (msgs : List Messages)
      (harm : p.arm = .greeting c (msg :: msgs))
      : Moves build torrentIo torrent p (.greeting c msgs)
  | closing (c : Nat) : Moves build torrentIo torrent p (.closing c)
  | announcing (pieceId : UInt32) (peerIds : List PeerId)
      : Moves build torrentIo torrent p (.announcing pieceId peerIds)
  | queueing (req : PeerRequestedPiece) : Moves build torrentIo torrent p (.queueing req)
  | computing : Moves build torrentIo torrent p .computing
  | dispatches (availiablePieceToPeers : List (UInt32 × List PeerId)) (now : UInt32 → Nat)
      (requests : List PeerRequestedPiece) (tracker : PieceBlockTracker)
      (hiterates : TorrentState.Iterates p.torrentState.pieceIdToPeers availiablePieceToPeers)
      (hassign : (p.tracker.generateAssignments build torrent now availiablePieceToPeers
        : Outcome AnyError _) = .ok (requests, tracker))
      : Moves build torrentIo torrent p (.dispatching requests)
  | dispatched (req : PeerRequestedPiece) (requests : List PeerRequestedPiece)
      (harm : p.arm = .dispatching (req :: requests))
      : Moves build torrentIo torrent p (.dispatching requests)
  | dequeueing : Moves build torrentIo torrent p .dequeueing
  | answering (dequed : List PeerRequestedPiece)
      : Moves build torrentIo torrent p (.answering dequed)
  | sends (req : PeerRequestedPiece) (dequed : List PeerRequestedPiece) (block : Bytes) (io : σ)
      (harm : p.arm = .answering (req :: dequed))
      (hread : torrentIo.readPiece p.io req.index req.begin req.length = (.ok block, io))
      : Moves build torrentIo torrent p
          (.sending req.peerId (.piece req.index req.begin block) dequed)
  | unchoking : Moves build torrentIo torrent p .unchoking
  | choking : Moves build torrentIo torrent p (.choking [])
  | expiring : Moves build torrentIo torrent p .expiring
  | wakingUp : Moves build torrentIo torrent p .wakingUp

theorem Advanced.moves {signals : List Signal} (h : p.Coherent)
    (ha : p.Advanced torrentIo torrent signals p')
    : p.Moves build torrentIo torrent p'.arm := by
  unfold Coherent at h
  cases ha with
  | lockPending => exact .stays
  | initConnection c => exact .greets c
  | greeted c msg msgs p1 harm => exact .greeted c msg msgs harm
  | greetPending c msg msgs p1 harm hdelivered =>
    rw [hdelivered.arm_eq]
    exact .stays
  | greetClosed => exact .select
  | registered => exact .select
  | closing => exact .select
  | passed peerId msg arm _ _ p1 hpasses htold hdone =>
    generalize p.arm = arm1 at hpasses
    cases hpasses with
    | announcing pieceId _ peerIds => exact .announcing pieceId peerIds
    | sending _ _ dequed => exact .answering dequed
  | passPending peerId msg arm _ _ hpasses htold =>
    rw [htold.arm_eq]
    exact .stays
  | announced => exact .computing
  | queued => exact .computing
  | dispatched req requests _ p1 harm => exact .dispatched req requests harm
  | dispatchPending req requests _ _ harm htold =>
    rw [htold.arm_eq]
    exact .stays
  | undelivered req requests harm => exact .dispatched req requests harm
  | dispatchedAll => exact .dequeueing
  | dequeued lock harm hlock => exact .answering (p.outstandingPeerRequests.take 4)
  | answerSkipped req dequed => exact .answering dequed
  | answerRead req dequed block io harm hread => exact .sends req dequed block io harm hread
  | answerFailed => exact .select
  | answeredAll => exact .select
  | choked peerId choked combinedPeers _ _ harm =>
    rw [harm] at h
    contradiction
  | chokedAll => exact .expiring
  | wokeUp => exact .select
  | wakePending => exact .stays

theorem Stepped.moves {event : StartEvent} {signals : List Signal} (h : p.Coherent)
    (hs : p.Stepped build torrentIo config torrent event signals p')
    : p.Moves build torrentIo torrent p'.arm := by
  cases hs with
  | polled c _ _ harm hpolled =>
    rcases polled_arm harm hpolled with harm' | ⟨harm', _⟩
    . rw [harm']
      exact .select
    . rw [harm']
      exact .closing c
  | accepted c => exact .initConnection c
  | took peerIds msg wakeUp arm harm hrecv hstarts =>
    show p.Moves build torrentIo torrent arm
    cases hstarts with
    | wakeup => exact .computing
    | pieceComplete pieceId peerIds => exact .announcing pieceId peerIds
    | peerRequestedPiece req => exact .queueing req
  | ticked => exact .unchoking
  | advanced _ _ hadvanced => exact hadvanced.moves h
  | computed available now lock requests tracker harm hlock hiterates hassign =>
    exact .dispatches available now requests tracker hiterates hassign
  | unchoked => exact .choking
  | noneExpired => exact .select
  | someExpired => exact .wakingUp
  | connected => exact .stays
  | linked => exact .stays
  | written => exact .stays
  | writeFailed => exact .stays
  | lockPending => exact .stays

structure Worded (p : TorrentProcessor σ) : Prop where
  greeting : ∀ c msgs, p.arm = .greeting c msgs → ∀ msg ∈ msgs, msg.Informs
  sending : ∀ peerId msg dequed, p.arm = .sending peerId msg dequed →
    ∃ index begin block, msg = .piece index begin block
  signalling : p.ForallConn fun _ conn => ∀ msg, conn.handler = .signalling msg → msg.Informs

theorem informs_initialMessages : ∀ msg ∈ p.initialMessages torrent, msg.Informs := by
  unfold initialMessages
  simp [Messages.Informs]

theorem Worded.stepped {event : StartEvent} {signals : List Signal} (h : p.Worded)
    (hcoherent : p.Coherent) (hs : p.Stepped build torrentIo config torrent event signals p')
    : p'.Worded := by
  have hmoves : p.Moves build torrentIo torrent p'.arm := hs.moves hcoherent
  constructor
  . intro c msgs harm'
    rw [harm'] at hmoves
    generalize hgreeting : Arm.greeting c msgs = arm at hmoves
    cases hmoves with
    | stays => exact h.greeting c msgs hgreeting.symm
    | greets c' =>
      rw [Arm.greeting.injEq] at hgreeting
      rw [hgreeting.2]
      exact informs_initialMessages
    | greeted c' msg msgs' harm =>
      rw [Arm.greeting.injEq] at hgreeting
      rw [hgreeting.2]
      intro msg' hmem
      exact h.greeting c' _ harm msg' (List.mem_cons_of_mem msg hmem)
    | _ => contradiction
  . intro peerId msg dequed harm'
    rw [harm'] at hmoves
    generalize hsending : Arm.sending peerId msg dequed = arm at hmoves
    cases hmoves with
    | stays => exact h.sending peerId msg dequed hsending.symm
    | sends req _ block =>
      rw [Arm.sending.injEq] at hsending
      exact ⟨req.index, req.begin, block, hsending.2.1⟩
    | _ => contradiction
  . intro c conn' hget' msg hhandler'
    rcases hs.conn hcoherent hget' with ⟨conn, hget, hbecame⟩ | ⟨_, _, _, rfl⟩
    . cases hbecame with
      | kept => exact h.signalling c conn hget msg hhandler'
      | turned outbound handler hgrows hturns =>
        dsimp only at hhandler'
        rw [hhandler'] at hturns
        rcases hturns.informs with hold | hinforms
        . exact h.signalling c conn hget msg hold
        . exact hinforms
      | received msg' =>
        cases msg' with
        | _ => contradiction
      | linked linkEvent _ _ hran =>
        rw [hran.frame.2.1] at hhandler'
        exact h.signalling c conn hget msg hhandler'
    . contradiction

theorem worded_new (io : σ) : (new config torrent io).Worded := by
  constructor
  . intro c msgs harm
    contradiction
  . intro peerId msg dequed harm
    contradiction
  . intro c conn hget
    simp [new] at hget

/--
Why a message is sent, and that the loop sends what asks or brings to the connection that it has for
the peer.
-/
inductive Says (p : TorrentProcessor σ) (c : Nat) : Messages → Prop where
  | informs (msg : Messages) (hinforms : msg.Informs) : Says p c msg
  | request (req : PeerRequestedPiece) (requests : List PeerRequestedPiece)
      (harm : p.arm = .dispatching (req :: requests))
      (hlookup : p.peerToTx.lookup req.peerId = some c)
      : Says p c (.request req.index req.begin req.length)
  | piece (peerId : PeerId) (index begin : UInt32) (block : Bytes)
      (dequed : List PeerRequestedPiece)
      (harm : p.arm = .sending peerId (.piece index begin block) dequed)
      (hlookup : p.peerToTx.lookup peerId = some c)
      : Says p c (.piece index begin block)

theorem Told.of_sent {peerId : PeerId} {msg msg' : Messages} {delivery : Delivery}
    {signals : List Signal} (h : p.Told peerId msg delivery signals p')
    (hsent : .sent c msg' ∈ signals)
    : msg' = msg ∧ p.peerToTx.lookup peerId = some c := by
  cases h with
  | delivered d _ hlookup =>
    rw [List.mem_singleton, Signal.sent.injEq] at hsent
    rw [hsent.1, hsent.2]
    exact ⟨rfl, hlookup⟩
  | pending => contradiction
  | closed => contradiction

theorem Signalled.of_sent {d : Nat} {msg msg' : Messages} {signals : List Signal}
    (h : p.Signalled d msg signals p') (hsent : .sent c msg' ∈ signals)
    : msg' = msg := by
  cases h with
  | delivered =>
    simp only [List.mem_cons, Signal.sent.injEq, reduceCtorEq, List.not_mem_nil, or_false] at hsent
    exact hsent.2
  | pending => contradiction
  | closed => contradiction

theorem Polled.of_sent {d : Nat} {msg : Messages} {signals : List Signal} (h : p.Polled d signals p')
    (hw : p.Worded) (hsent : .sent c msg ∈ signals)
    : msg.Informs := by
  cases h with
  | handled conn job lock next torrentState _ _ hget hhandler hlock hjob hproceeded =>
    cases hproceeded with
    | receive => contradiction
    | wake => simp at hsent
    | signal msg' _ _ hsignalled =>
      obtain ⟨interest, rfl⟩ := TorrentState.handleJob_eq_signal hjob
      rw [hsignalled.of_sent hsent]
      exact informs_interestMsg interest
  | signalled conn msg' _ _ hget hhandler hsignalled =>
    rw [hsignalled.of_sent hsent]
    exact hw.signalling d conn hget msg' hhandler
  | received => contradiction
  | finished => contradiction
  | lockPending => contradiction
  | woken => contradiction

theorem Advanced.says {msg : Messages} {signals : List Signal} (hcoherent : p.Coherent)
    (h : p.Worded) (ha : p.Advanced torrentIo torrent signals p') (hsent : .sent c msg ∈ signals)
    : p.Says c msg := by
  unfold Coherent at hcoherent
  have hpassed : ∀ {peerId msg' arm delivery} {p1 : TorrentProcessor σ},
      Passes p.arm peerId msg' arm → p.Told peerId msg' delivery signals p1 → p.Says c msg := by
    intro peerId msg' arm delivery p1 hpasses htold
    obtain ⟨rfl, hlookup⟩ := htold.of_sent hsent
    generalize harm : p.arm = arm1 at hpasses
    cases hpasses with
    | announcing => exact .informs _ trivial
    | sending _ _ dequed =>
      obtain ⟨index, begin, block, rfl⟩ := h.sending _ _ _ harm
      exact .piece peerId index begin block dequed harm hlookup
  cases ha with
  | greeted d msg' msgs p1 harm hdelivered =>
    rw [List.mem_singleton, Signal.sent.injEq] at hsent
    rw [hsent.2]
    exact .informs _ (h.greeting d _ harm msg' List.mem_cons_self)
  | passed _ _ _ _ _ _ hpasses htold => exact hpassed hpasses htold
  | passPending _ _ _ _ _ hpasses htold => exact hpassed hpasses htold
  | dispatched req requests _ p1 harm htold =>
    obtain ⟨rfl, hlookup⟩ := htold.of_sent hsent
    exact .request req requests harm hlookup
  | dispatchPending req requests _ _ harm htold =>
    obtain ⟨rfl, hlookup⟩ := htold.of_sent hsent
    exact .request req requests harm hlookup
  | choked peerId choked combinedPeers _ _ harm =>
    rw [harm] at hcoherent
    contradiction
  | wokeUp =>
    split at hsent
    . contradiction
    . simp at hsent
  | wakePending =>
    split at hsent
    . contradiction
    . simp at hsent
  | _ => contradiction

theorem Stepped.says {event : StartEvent} {signals : List Signal} {msg : Messages}
    (hcoherent : p.Coherent) (h : p.Worded)
    (hs : p.Stepped build torrentIo config torrent event signals p') (hsent : .sent c msg ∈ signals)
    : p.Says c msg := by
  cases hs with
  | polled d _ _ harm hpolled => exact .informs msg (hpolled.of_sent h hsent)
  | advanced _ _ hadvanced => exact hadvanced.says hcoherent h hsent
  | written =>
    split at hsent
    . simp at hsent
    . contradiction
  | took => simp at hsent
  | someExpired => simp at hsent
  | connected => contradiction
  | linked => contradiction
  | writeFailed => contradiction
  | accepted => contradiction
  | ticked => contradiction
  | lockPending => contradiction
  | computed => contradiction
  | unchoked => contradiction
  | noneExpired => contradiction

theorem worded_of_run {io : σ} {tr : StartTrace}
    (hrun : (startTask build torrentIo config torrent).Run (new config torrent io) tr p)
    : p.Worded := by
  suffices h : p.Coherent ∧ p.Worded from h.2
  apply hrun.invariant (P := fun p => p.Coherent ∧ p.Worded)
  . intro p event signals p' _ hstep ⟨hcoherent, hworded⟩
    have hs := stepped_of_step hstep
    exact ⟨hcoherent.stepped hs, hworded.stepped hcoherent hs⟩
  . exact ⟨trivial, worded_new io⟩

end TorrentProcessor
