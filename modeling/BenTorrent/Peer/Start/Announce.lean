import BenTorrent.Peer.Start.Pending
import BenTorrent.Peer.Start.Reach
import BenTorrent.Sha1.Basic

/-!
This module contains that the peers are told of every piece that is finished, and of no other.
-/

open Rust

namespace TorrentState

variable {build : Build} {torrent : V1Torrent} {state state' : TorrentState}

theorem piecesCompleted_handleWritten (tracker : PieceBlockTracker) (reply : WriteReply)
    : (tracker.handleWritten reply).piecesCompleted
        =
      if reply.finished then insert reply.index tracker.piecesCompleted else tracker.piecesCompleted := by
  unfold PieceBlockTracker.handleWritten
  split
  . rfl
  . cases hset : tracker.setRequestFinished reply.index reply.begin with
    | none => rfl
    | some tracker' =>
      unfold PieceBlockTracker.setRequestFinished at hset
      simp only [Option.bind_eq_bind, Option.bind_eq_some_iff, Option.pure_def,
        Option.some.injEq] at hset
      obtain ⟨blocks, _, rfl⟩ := hset
      rfl

theorem mem_piecesCompleted_handleJob {peerId : PeerId} {job : Job} {piece : UInt32}
    : piece ∈ (state.handleJob peerId job).2.pieceBlockTracking.piecesCompleted
        ↔
      piece ∈ state.pieceBlockTracking.piecesCompleted
        ∨ ∃ begin, job = .reply { index := piece, begin, finished := true } := by
  cases job with
  | reply reply =>
    obtain ⟨index, begin, finished⟩ := reply
    simp only [handleJob]
    rw [piecesCompleted_handleWritten]
    cases finished with
    | true =>
      simp only [if_true, Finset.mem_insert, Job.reply.injEq, WriteReply.mk.injEq, and_true,
        exists_and_left, exists_eq', or_comm, eq_comm]
    | false => simp
  | message msg =>
    rw [pieceBlockTracking_handleMessage]
    simp

theorem handleJob_eq_pieceComplete {peerId : PeerId} {job : Job} {piece : UInt32}
    (hjob : state.handleJob peerId job = (.wake (.pieceComplete piece), state'))
    : ∃ begin, job = .reply { index := piece, begin, finished := true } := by
  have h : (state.handleJob peerId job).1 = .wake (.pieceComplete piece) := by rw [hjob]
  have hinterest : ∀ res, (signalInterest res).1 ≠ .wake (.pieceComplete piece) := by
    intro res
    obtain ⟨interest, state1⟩ := res
    cases interest with
    | none => simp [signalInterest]
    | some interest => simp [signalInterest]
  cases job with
  | reply reply =>
    obtain ⟨index, begin, finished⟩ := reply
    cases finished with
    | true =>
      simp only [handleJob, if_true, Next.wake.injEq, InternalStateMessage.pieceComplete.injEq] at h
      exact ⟨begin, by rw [h]⟩
    | false => simp [handleJob] at h
  | message msg =>
    cases msg with
    | «have» pieceIndex => exact absurd h (hinterest _)
    | bitField bitfield => exact absurd h (hinterest _)
    | request index begin length =>
      simp only [handleJob] at h
      split at h
      . contradiction
      . simp at h
    | flag flag => simp [handleJob] at h
    | keepAlive => simp [handleJob] at h
    | cancel => simp [handleJob] at h
    | piece => simp [handleJob] at h

end TorrentState

def Messages.Tells (piece : UInt32) : Messages → Prop
  | .have pieceIndex => pieceIndex = piece
  | .bitField bitfield => piece ∈ BitFieldReader.piecesPresent ⟨bitfield⟩
  | _ => False

def Handler.Tells (piece : UInt32) : Handler → Prop
  | .locking (.reply reply) => reply.index = piece ∧ reply.finished = true
  | .signalling msg => msg.Tells piece
  | .waking msg => msg = .pieceComplete piece
  | _ => False

def Arm.Tells (piece : UInt32) : Arm → Prop
  | .greeting _ msgs => ∃ msg ∈ msgs, msg.Tells piece
  | .announcing pieceId _ => pieceId = piece
  | .sending _ msg _ => msg.Tells piece
  | _ => False

theorem not_tells_interestMsg (interest : Bool) (piece : UInt32)
    : ¬(FlagMessages.interestMsg interest).Tells piece := by
  unfold FlagMessages.interestMsg
  split
  . exact id
  . exact id

def Signal.isMessage : Signal → Bool
  | .sent _ _ => true
  | .woke _ _ => true
  | _ => false

namespace TorrentProcessor

variable {σ : Type u} {p p' : TorrentProcessor σ} {c : Nat}

/--
Somewhere the piece counts as finished.
-/
def Tells (p : TorrentProcessor σ) (piece : UInt32) : Prop :=
  piece ∈ p.tracker.piecesCompleted
    ∨ .pieceComplete piece ∈ p.wakeUp.msgs
    ∨ (∃ c handler, p.HasHandler c handler ∧ handler.Tells piece)
    ∨ p.arm.Tells piece

def TellsFrom (p p' : TorrentProcessor σ) : Prop :=
  ∀ piece, p'.Tells piece → p.Tells piece

def SentTells (p : TorrentProcessor σ) (signals : List Signal) : Prop :=
  ∀ c msg piece, .sent c msg ∈ signals → msg.Tells piece → p.Tells piece

theorem TellsFrom.trans {p1 : TorrentProcessor σ} (h : TellsFrom p p1) (h' : TellsFrom p1 p')
    : TellsFrom p p' :=
  fun piece htells => h piece (h' piece htells)

theorem Tells.of_hasHandler {handler : Handler} {piece : UInt32} (hhas : p.HasHandler c handler)
    (htells : handler.Tells piece)
    : p.Tells piece :=
  .inr (.inr (.inl ⟨c, handler, hhas, htells⟩))

theorem Tells.of_arm {arm : Arm} {piece : UInt32} (harm : p.arm = arm) (htells : arm.Tells piece)
    : p.Tells piece := by
  subst harm
  exact .inr (.inr (.inr htells))

theorem tellsFrom_setArm {arm : Arm} (harm : ∀ piece, arm.Tells piece → p.Tells piece)
    : TellsFrom p (p.setArm arm) := by
  rintro piece (hcompleted | hmem | hhandler | htells)
  . exact .inl hcompleted
  . exact .inr (.inl hmem)
  . exact .inr (.inr (.inl hhandler))
  . exact harm piece htells

theorem TellsFrom.update {p1 : TorrentProcessor σ} {f : PeerConnection → PeerConnection}
    (h : TellsFrom p p1)
    (hf : ∀ conn, p1.connections[c]? = some conn → ∀ piece, (f conn).handler.Tells piece →
      p.Tells piece)
    : TellsFrom p (p1.update c f) := by
  rintro piece (hcompleted | hmem | ⟨d, handler, ⟨conn', hget', rfl⟩, htells⟩ | htells)
  . exact h piece (.inl hcompleted)
  . exact h piece (.inr (.inl hmem))
  . obtain ⟨conn, hget, rfl⟩ := getElem?_update.mp hget'
    split at htells
    . next heq =>
      subst heq
      exact hf conn hget piece htells
    . exact h piece (.of_hasHandler ⟨conn, hget, rfl⟩ htells)
  . exact h piece (.inr (.inr (.inr htells)))

theorem TellsFrom.refl : TellsFrom p p :=
  fun _ htells => htells

theorem TellsFrom.setHandler {p1 : TorrentProcessor σ} {handler : Handler} (h : TellsFrom p p1)
    (hhandler : ∀ piece, handler.Tells piece → p.Tells piece)
    : TellsFrom p (p1.setHandler c handler) :=
  h.update fun _ _ => hhandler

theorem Delivered.tellsFrom {w : Party} {msg : Messages} {delivery : Delivery}
    (h : p.Delivered w c msg delivery p')
    : TellsFrom p p' := by
  obtain ⟨f, rfl, hf⟩ := h.update_eq
  apply TellsFrom.refl.update
  intro conn hget piece htells
  rw [hf conn] at htells
  exact .of_hasHandler ⟨conn, hget, rfl⟩ htells

theorem Told.tellsFrom {peerId : PeerId} {msg : Messages} {delivery : Delivery}
    {signals : List Signal} (h : p.Told peerId msg delivery signals p')
    : TellsFrom p p' := by
  cases h with
  | delivered c _ _ hdelivered => exact hdelivered.tellsFrom
  | pending c _ _ hdelivered => exact hdelivered.tellsFrom
  | closed => exact fun _ htells => htells

theorem Told.sentTells {peerId : PeerId} {msg : Messages} {delivery : Delivery}
    {signals : List Signal} (h : p.Told peerId msg delivery signals p')
    (hmsg : ∀ piece, msg.Tells piece → p.Tells piece)
    : p.SentTells signals := by
  cases h with
  | delivered d _ _ hdelivered =>
    intro c msg' piece hmem htells
    rw [List.mem_singleton, Signal.sent.injEq] at hmem
    rw [hmem.2] at htells
    exact hmsg piece htells
  | pending => exact fun _ _ _ hmem => absurd hmem (List.not_mem_nil)
  | closed => exact fun _ _ _ hmem => absurd hmem (List.not_mem_nil)

theorem sentTells_of_not_mem {signals : List Signal} (h : ∀ c msg, .sent c msg ∉ signals)
    : p.SentTells signals :=
  fun c msg _ hmem => absurd hmem (h c msg)

theorem tellsFrom_wake {msg : InternalStateMessage}
    (hmsg : ∀ piece, msg = .pieceComplete piece → p.Tells piece)
    : TellsFrom p (p.wake c msg) := by
  obtain ⟨sent, wakeUp, hsend⟩ : ∃ sent wakeUp, p.wakeUp.send (.handler c) msg = (sent, wakeUp) :=
    ⟨_, _, rfl⟩
  unfold wake
  rw [hsend]
  have hset : TellsFrom p (p.setHandler c (if sent = true then .receiving else .waking msg)) := by
    apply TellsFrom.refl.setHandler
    intro piece htells
    split at htells
    . contradiction
    . exact hmsg piece htells
  rintro piece (hcompleted | hmem | hhandler | htells)
  . exact .inl hcompleted
  . cases sent with
    | true =>
      replace hmem : .pieceComplete piece ∈ wakeUp.msgs := hmem
      rw [(Channel.send_eq_true hsend).2.1, List.mem_append, List.mem_singleton] at hmem
      rcases hmem with hmem | heq
      . exact .inr (.inl hmem)
      . exact hmsg piece heq.symm
    | false =>
      replace hmem : .pieceComplete piece ∈ wakeUp.msgs := hmem
      rw [(Channel.send_eq_false hsend).2.1] at hmem
      exact .inr (.inl hmem)
  . exact hset piece (.inr (.inr (.inl hhandler)))
  . exact .inr (.inr (.inr htells))

theorem tellsFrom_finish (p : TorrentProcessor σ) (c : Nat) : TellsFrom p (p.finish c) := by
  have hset : TellsFrom p (p.setHandler c .finished) :=
    TellsFrom.refl.setHandler fun _ htells => absurd htells id
  exact hset.trans (tellsFrom_setArm fun _ htells => absurd htells id)

theorem Signalled.tells {msg : Messages} {signals : List Signal} (h : p.Signalled c msg signals p')
    (hmsg : ∀ piece, msg.Tells piece → p.Tells piece)
    : TellsFrom p p' ∧ p.SentTells signals := by
  cases h with
  | delivered p1 hdelivered =>
    constructor
    . have hwake : TellsFrom p1 (p1.unlock.wake c .wakeup) :=
        tellsFrom_wake (p := p1.unlock) (by simp)
      exact hdelivered.tellsFrom.trans hwake
    . intro d msg' piece hmem htells
      simp only [List.mem_cons, Signal.sent.injEq, reduceCtorEq, List.not_mem_nil, or_false] at hmem
      rw [hmem.2] at htells
      exact hmsg piece htells
  | pending p1 hdelivered =>
    exact ⟨hdelivered.tellsFrom.setHandler hmsg, sentTells_of_not_mem (by simp)⟩
  | closed =>
    refine ⟨?_, sentTells_of_not_mem (by simp)⟩
    exact tellsFrom_finish p.unlock c

theorem Polled.tells {signals : List Signal} (h : p.Polled c signals p')
    : TellsFrom p p' ∧ p.SentTells signals := by
  cases h with
  | received conn msg inbound hget hhandler hrecv =>
    refine ⟨?_, sentTells_of_not_mem (by simp)⟩
    apply TellsFrom.refl.update
    intro _ _ piece htells
    cases msg with
    | _ => contradiction
  | finished conn hget hhandler =>
    exact ⟨tellsFrom_finish p c, sentTells_of_not_mem (by simp)⟩
  | lockPending => exact ⟨fun _ htells => htells, sentTells_of_not_mem (by simp)⟩
  | handled conn job lock next torrentState _ _ hget hhandler hlock hjob hproceeded =>
    have hstate : (p.torrentState.handleJob conn.peerId job).2 = torrentState := by rw [hjob]
    have hreply : ∀ {piece begin}, job = .reply { index := piece, begin, finished := true } →
        p.Tells piece := by
      rintro piece begin rfl
      exact .of_hasHandler ⟨conn, hget, hhandler⟩ ⟨rfl, rfl⟩
    have hafter : TellsFrom p { p with lock, torrentState } := by
      rintro piece (hcompleted | hrest)
      . replace hcompleted : piece ∈ torrentState.pieceBlockTracking.piecesCompleted := hcompleted
        rw [← hstate, TorrentState.mem_piecesCompleted_handleJob] at hcompleted
        rcases hcompleted with hcompleted | ⟨begin, heq⟩
        . exact .inl hcompleted
        . exact hreply heq
      . exact .inr hrest
    cases hproceeded with
    | receive =>
      have hset : TellsFrom p (({ p with lock, torrentState } : TorrentProcessor σ).setHandler c
          .receiving) :=
        hafter.setHandler fun _ htells => absurd htells id
      exact ⟨hset, sentTells_of_not_mem (by simp)⟩
    | wake msg =>
      refine ⟨hafter.trans ?_, sentTells_of_not_mem (by simp)⟩
      refine tellsFrom_wake (p := { p with lock, torrentState }.unlock) ?_
      rintro piece rfl
      obtain ⟨begin, heq⟩ := TorrentState.handleJob_eq_pieceComplete hjob
      left
      show piece ∈ torrentState.pieceBlockTracking.piecesCompleted
      rw [← hstate, TorrentState.mem_piecesCompleted_handleJob]
      exact .inr ⟨begin, heq⟩
    | signal msg _ _ hsignalled =>
      obtain ⟨interest, rfl⟩ := TorrentState.handleJob_eq_signal hjob
      obtain ⟨htells, hsent⟩ := Signalled.tells hsignalled
        fun piece htells => absurd htells (not_tells_interestMsg interest piece)
      refine ⟨hafter.trans htells, ?_⟩
      intro d msg piece hmem hmsg
      exact hafter piece (hsent d msg piece hmem hmsg)
  | signalled conn msg _ _ hget hhandler hsignalled =>
    exact hsignalled.tells fun _ htells => .of_hasHandler ⟨conn, hget, hhandler⟩ htells
  | woken conn msg hget hhandler =>
    refine ⟨?_, sentTells_of_not_mem (by simp)⟩
    apply tellsFrom_wake
    rintro piece rfl
    exact .of_hasHandler ⟨conn, hget, hhandler⟩ rfl

variable {build : Build} {torrentIo : TorrentIo σ} {config : Config} {torrent : V1Torrent}

theorem tells_initialMessages (hlt : torrent.info.pieces.length < 2 ^ 32) {piece : UInt32}
    : (∃ msg ∈ p.initialMessages torrent, msg.Tells piece)
        ↔
      piece.toNat < torrent.info.pieces.length ∧ piece ∈ p.tracker.piecesCompleted := by
  unfold initialMessages
  simp only [List.mem_cons, List.not_mem_nil, or_false, exists_eq_or_imp, exists_eq_left,
    Messages.Tells]
  rw [BitFieldWriter.mem_piecesPresent_putBitSet hlt]

theorem Passes.tells {peerId : PeerId} {msg : Messages} {arm arm' : Arm} {piece : UInt32}
    (h : Passes arm peerId msg arm')
    : (msg.Tells piece → arm.Tells piece) ∧ (arm'.Tells piece → arm.Tells piece) := by
  cases h with
  | announcing pieceId => exact ⟨id, id⟩
  | sending => exact ⟨id, fun htells => absurd htells id⟩

theorem Advanced.tells {signals : List Signal} (hlt : torrent.info.pieces.length < 2 ^ 32)
    (h : p.Coherent) (ha : p.Advanced torrentIo torrent signals p')
    : TellsFrom p p' ∧ p.SentTells signals := by
  unfold Coherent at h
  have hset : ∀ {p1 : TorrentProcessor σ} {arm}, TellsFrom p p1 → (∀ piece, ¬Arm.Tells piece arm) →
      TellsFrom p (p1.setArm arm) :=
    fun hfrom hno => hfrom.trans (tellsFrom_setArm fun piece htells => absurd htells (hno piece))
  have hnone : p.SentTells [] := sentTells_of_not_mem (by simp)
  cases ha with
  | lockPending => exact ⟨.refl, hnone⟩
  | initConnection c lock harm hlock =>
    refine ⟨?_, hnone⟩
    refine tellsFrom_setArm (p := { p with lock }) ?_
    intro piece htells
    exact .inl ((tells_initialMessages hlt).mp htells).2
  | greeted c msg msgs p1 harm hdelivered =>
    constructor
    . have hfrom := hdelivered.tellsFrom
      have hmsgs : ∀ piece, Arm.Tells piece (.greeting c msgs) → p1.Tells piece := by
        rintro piece ⟨msg', hmem, htells⟩
        have harm' : p1.arm = .greeting c (msg :: msgs) := by
          obtain ⟨f, rfl, _⟩ := hdelivered.update_eq
          exact harm
        exact .of_arm harm' ⟨msg', List.mem_cons_of_mem _ hmem, htells⟩
      exact hfrom.trans (tellsFrom_setArm hmsgs)
    . intro d msg' piece hmem htells
      rw [List.mem_singleton, Signal.sent.injEq] at hmem
      rw [hmem.2] at htells
      exact .of_arm harm ⟨msg, List.mem_cons_self, htells⟩
  | greetPending c msg msgs p1 harm hdelivered => exact ⟨hdelivered.tellsFrom, hnone⟩
  | greetClosed c msg msgs harm hclosed =>
    have hfrom : TellsFrom p (p.unlock.setHandler c .closed) :=
      TellsFrom.refl.setHandler fun _ htells => absurd htells id
    exact ⟨hset hfrom fun _ => id, hnone⟩
  | registered c conn harm hget =>
    have hfrom : TellsFrom p (p.setHandler c .receiving) :=
      TellsFrom.refl.setHandler fun _ htells => absurd htells id
    exact ⟨hset hfrom fun _ => id, hnone⟩
  | closing c lock conn harm hlock hget =>
    have hstate : TellsFrom p { p with torrentState := p.torrentState.removePeer conn.peerId } := by
      rintro piece (hcompleted | hrest)
      . left
        unfold tracker at hcompleted ⊢
        rwa [TorrentState.removePeer_pieceBlockTracking] at hcompleted
      . exact .inr hrest
    have hfrom : TellsFrom p
        (({ p with torrentState := p.torrentState.removePeer conn.peerId } :
          TorrentProcessor σ).setHandler c .closed) :=
      hstate.setHandler fun _ htells => absurd htells id
    exact ⟨hset hfrom fun _ => id, hnone⟩
  | passed peerId msg arm _ _ p1 hpasses htold hdone =>
    constructor
    . refine htold.tellsFrom.trans (tellsFrom_setArm ?_)
      intro piece htells
      have harm : p1.arm = p.arm := by
        obtain ⟨_, f, rfl, _⟩ := htold.update_eq
        rfl
      exact .of_arm harm (hpasses.tells.2 htells)
    . exact htold.sentTells fun piece htells => .of_arm rfl (hpasses.tells.1 htells)
  | passPending peerId msg arm _ _ hpasses htold =>
    exact ⟨htold.tellsFrom, htold.sentTells fun piece htells => .of_arm rfl (hpasses.tells.1 htells)⟩
  | announced pieceId harm => exact ⟨hset .refl fun _ => id, hnone⟩
  | queued req lock harm hlock =>
    refine ⟨?_, hnone⟩
    obtain ⟨requests, heq⟩ := queueRequests_eq { p with lock } req
    rw [heq]
    exact hset .refl fun _ => id
  | dispatched req requests _ p1 harm htold =>
    exact ⟨hset htold.tellsFrom fun _ => id, htold.sentTells fun _ htells => absurd htells id⟩
  | dispatchPending req requests _ _ harm htold =>
    exact ⟨htold.tellsFrom, htold.sentTells fun _ htells => absurd htells id⟩
  | undelivered req requests harm hclosed => exact ⟨hset .refl fun _ => id, hnone⟩
  | dispatchedAll harm => exact ⟨hset .refl fun _ => id, hnone⟩
  | dequeued lock harm hlock =>
    have hfrom : TellsFrom p (p.setArm (.answering (p.outstandingPeerRequests.take 4))) :=
      hset .refl fun _ => id
    exact ⟨hfrom, hnone⟩
  | answerSkipped req dequed harm => exact ⟨hset .refl fun _ => id, hnone⟩
  | answerRead req dequed block io harm => exact ⟨hset .refl fun _ => id, hnone⟩
  | answerFailed req dequed e io harm => exact ⟨hset .refl fun _ => id, hnone⟩
  | answeredAll harm => exact ⟨hset .refl fun _ => id, hnone⟩
  | choked peerId choked combinedPeers _ _ harm =>
    rw [harm] at h
    contradiction
  | chokedAll harm => exact ⟨hset .refl fun _ => id, hnone⟩
  | wokeUp wakeUp harm hsend =>
    constructor
    . have hfrom : TellsFrom p { p with wakeUp } := by
        rintro piece (hcompleted | hmem | hrest)
        . exact .inl hcompleted
        . rw [(Channel.send_eq_true hsend).2.1, List.mem_append, List.mem_singleton] at hmem
          rcases hmem with hmem | heq
          . exact .inr (.inl hmem)
          . contradiction
        . exact .inr (.inr hrest)
      exact hset hfrom fun _ => id
    . apply sentTells_of_not_mem
      intro d msg
      split
      . simp
      . simp
  | wakePending wakeUp harm hsend =>
    constructor
    . rintro piece (hcompleted | hmem | hrest)
      . exact .inl hcompleted
      . rw [(Channel.send_eq_false hsend).2.1] at hmem
        exact .inr (.inl hmem)
      . exact .inr (.inr hrest)
    . apply sentTells_of_not_mem
      intro d msg
      split
      . simp
      . simp

theorem piecesCompleted_of_generateAssignments {tracker tracker' : PieceBlockTracker}
    {now : UInt32 → Nat} {available : List (UInt32 × List PeerId)}
    {requests : List PeerRequestedPiece}
    (h : (tracker.generateAssignments build torrent now available : Outcome AnyError _)
      = .ok (requests, tracker'))
    : tracker'.piecesCompleted = tracker.piecesCompleted :=
  PieceBlockTracker.generateAssignments_invariant
    (P := fun t => t.piecesCompleted = tracker.piecesCompleted) h (fun _ _ _ _ _ _ heq => heq) rfl

theorem Stepped.piecesCompleted_eq {event : StartEvent} {signals : List Signal} (h : p.Coherent)
    (hs : p.Stepped build torrentIo config torrent event signals p')
    (hpoll : ∀ c, event ≠ .poll c)
    : p'.tracker.piecesCompleted = p.tracker.piecesCompleted := by
  have hedited := hs.edited h
  unfold tracker
  generalize p'.torrentState = state' at hedited ⊢
  cases hedited with
  | handled c conn job hevent => exact absurd hevent (hpoll c)
  | forgot c conn => rw [TorrentState.removePeer_pieceBlockTracking]
  | assigned available now requests tracker _ _ hassign =>
    exact piecesCompleted_of_generateAssignments hassign
  | _ => rfl

theorem Polled.mem_piecesCompleted {signals : List Signal} {piece : UInt32}
    (h : p.Polled c signals p') (hmem : piece ∈ p'.tracker.piecesCompleted)
    : piece ∈ p.tracker.piecesCompleted ∨ p'.Pending (.pieceComplete piece) := by
  unfold tracker at hmem ⊢
  cases h with
  | handled conn job lock next torrentState _ _ hget hhandler hlock hjob hproceeded =>
    rw [hproceeded.torrentState_eq] at hmem
    replace hmem : piece ∈ torrentState.pieceBlockTracking.piecesCompleted := hmem
    have hstate : (p.torrentState.handleJob conn.peerId job).2 = torrentState := by rw [hjob]
    rw [← hstate, TorrentState.mem_piecesCompleted_handleJob] at hmem
    rcases hmem with hmem | ⟨begin, rfl⟩
    . exact .inl hmem
    . right
      have hnext : next = .wake (.pieceComplete piece) := by
        have hfst := congrArg Prod.fst hjob
        exact hfst.symm
      subst hnext
      cases hproceeded with
      | wake => exact pending_wake (p := { p with lock, torrentState }.unlock) hget _
  | signalled conn msg _ _ hget hhandler hsignalled =>
    rw [hsignalled.torrentState_eq] at hmem
    exact .inl hmem
  | _ => exact .inl hmem

theorem Stepped.piecesCompleted {event : StartEvent} {signals : List Signal} {piece : UInt32}
    (h : p.Coherent) (hs : p.Stepped build torrentIo config torrent event signals p')
    (hmem : piece ∈ p'.tracker.piecesCompleted)
    : piece ∈ p.tracker.piecesCompleted ∨ p'.Pending (.pieceComplete piece) := by
  by_cases hpoll : ∃ c, event = .poll c
  . obtain ⟨c, rfl⟩ := hpoll
    cases hs with
    | polled _ _ _ harm hpolled => exact hpolled.mem_piecesCompleted hmem
    | lockPending _ _ hlocks => exact absurd hlocks id
  . rw [hs.piecesCompleted_eq h fun c heq => hpoll ⟨c, heq⟩] at hmem
    exact .inl hmem

theorem tellsFrom_of_tracker (lock : Mutex Party) {tracker : PieceBlockTracker}
    (hcompleted : tracker.piecesCompleted = p.tracker.piecesCompleted)
    : TellsFrom p ({ p with lock }.setTracker tracker) := by
  rintro piece (hmem | hrest)
  . left
    rw [← hcompleted]
    exact hmem
  . exact .inr hrest

theorem Stepped.tells {event : StartEvent} {signals : List Signal}
    (hlt : torrent.info.pieces.length < 2 ^ 32) (h : p.Coherent)
    (hs : p.Stepped build torrentIo config torrent event signals p')
    : (∀ piece, p'.Tells piece → p.Tells piece ∨ .written piece ∈ signals)
        ∧ p.SentTells signals := by
  have hfrom : ∀ {p' : TorrentProcessor σ} {signals : List Signal},
      TellsFrom p p' → p.SentTells signals →
        (∀ piece, p'.Tells piece → p.Tells piece ∨ .written piece ∈ signals)
          ∧ p.SentTells signals :=
    fun hfrom hsent => ⟨fun piece htells => .inl (hfrom piece htells), hsent⟩
  have hsetArm : ∀ {p1 : TorrentProcessor σ} {arm}, TellsFrom p p1 →
      (∀ piece, ¬Arm.Tells piece arm) → TellsFrom p (p1.setArm arm) :=
    fun hfrom hno => hfrom.trans (tellsFrom_setArm fun piece htells => absurd htells (hno piece))
  have hnone : p.SentTells [] := sentTells_of_not_mem (by simp)
  cases hs with
  | connected peerId =>
    refine hfrom ?_ hnone
    rintro piece (hcompleted | hmem | ⟨d, handler, ⟨conn, hget, rfl⟩, htells⟩ | htells)
    . exact .inl hcompleted
    . exact .inr (.inl hmem)
    . dsimp only at hget
      rw [List.getElem?_append] at hget
      split at hget
      . exact .of_hasHandler ⟨conn, hget, rfl⟩ htells
      . rw [List.getElem?_singleton] at hget
        split at hget
        . rw [Option.some.injEq] at hget
          rw [← hget] at htells
          exact absurd htells id
        . contradiction
    . exact .inr (.inr (.inr htells))
  | linked c event conn conn' hget hran =>
    refine hfrom ?_ hnone
    apply TellsFrom.refl.update
    intro _ _ piece htells
    rw [hran.frame.2.1] at htells
    exact .of_hasHandler ⟨conn, hget, rfl⟩ htells
  | written c conn index begin block finished io hget hhandler hwrite =>
    constructor
    . have hcases : ∀ piece, (Handler.locking (.reply { index, begin, finished })).Tells piece →
          index = piece ∧ finished = true := fun _ htells => htells
      rintro piece (hcompleted | hmem | ⟨d, handler, ⟨conn', hget', rfl⟩, htells⟩ | htells)
      . exact .inl (.inl hcompleted)
      . exact .inl (.inr (.inl hmem))
      . obtain ⟨conn1, hget1, rfl⟩ := getElem?_update.mp hget'
        split at htells
        . obtain ⟨rfl, rfl⟩ := hcases piece htells
          exact .inr (by simp)
        . exact .inl (.of_hasHandler ⟨conn1, hget1, rfl⟩ htells)
      . exact .inl (.inr (.inr (.inr htells)))
    . apply sentTells_of_not_mem
      intro d msg
      split
      . simp
      . simp
  | writeFailed c conn index begin block e io hget hhandler hwrite =>
    have hset : TellsFrom p (p.setHandler c .failed) :=
      TellsFrom.refl.setHandler fun _ htells => absurd htells id
    exact hfrom hset hnone
  | polled c _ _ harm hpolled =>
    obtain ⟨htells, hsent⟩ := hpolled.tells
    exact hfrom htells hsent
  | accepted c conn harm hget hhandler =>
    have hset : TellsFrom p (p.setHandler c .accepted) :=
      TellsFrom.refl.setHandler fun _ htells => absurd htells id
    exact hfrom (hsetArm hset fun _ => id) hnone
  | took peerIds msg wakeUp arm harm hrecv hstarts =>
    obtain ⟨_, hmsgs, _⟩ := Channel.recv_eq_some hrecv
    have hpruned : TellsFrom p { p with wakeUp }.pruneClosedTx := by
      rintro piece (hcompleted | hmem | hrest)
      . exact .inl hcompleted
      . refine .inr (.inl ?_)
        rw [hmsgs]
        exact List.mem_cons_of_mem _ hmem
      . exact .inr (.inr hrest)
    refine hfrom ?_ (sentTells_of_not_mem (by simp))
    cases hstarts with
    | wakeup => exact hsetArm hpruned fun _ => id
    | pieceComplete pieceId peerIds =>
      rintro piece (hcompleted | hmem | hhandler | rfl)
      . exact hpruned piece (.inl hcompleted)
      . exact hpruned piece (.inr (.inl hmem))
      . exact hpruned piece (.inr (.inr (.inl hhandler)))
      . refine .inr (.inl ?_)
        rw [hmsgs]
        exact List.mem_cons_self
    | peerRequestedPiece req => exact hsetArm hpruned fun _ => id
  | ticked harm => exact hfrom (hsetArm .refl fun _ => id) hnone
  | advanced _ _ hadvanced =>
    obtain ⟨htells, hsent⟩ := hadvanced.tells hlt h
    exact hfrom htells hsent
  | lockPending => exact hfrom .refl hnone
  | computed available now lock requests tracker harm hlock hiterates hassign =>
    have htracker := tellsFrom_of_tracker lock
      (piecesCompleted_of_generateAssignments hassign)
    exact hfrom (hsetArm htracker fun _ => id) hnone
  | unchoked _ _ lock harm => exact hfrom (hsetArm .refl fun _ => id) hnone
  | noneExpired now lock tracker harm hlock hexpire =>
    obtain rfl : (p.tracker.removeExpired now).2 = tracker := by rw [hexpire]
    have htracker : TellsFrom p ({ p with lock }.setTracker (p.tracker.removeExpired now).2) :=
      tellsFrom_of_tracker lock rfl
    exact hfrom (hsetArm htracker fun _ => id) hnone
  | someExpired now lock req requests tracker harm hlock hexpire =>
    obtain rfl : (p.tracker.removeExpired now).2 = tracker := by rw [hexpire]
    have htracker : TellsFrom p ({ p with lock }.setTracker (p.tracker.removeExpired now).2) :=
      tellsFrom_of_tracker lock rfl
    exact hfrom (hsetArm htracker fun _ => id) (sentTells_of_not_mem (by simp))

theorem Stepped.greeting {event : StartEvent} {signals : List Signal} {msgs : List Messages}
    (h : p.Coherent) (hs : p.Stepped build torrentIo config torrent event signals p')
    (harm' : p'.arm = .greeting c msgs)
    : p'.tracker.piecesCompleted = p.tracker.piecesCompleted
        ∧ (p.arm = .greeting c msgs
          ∨ (∃ msg, p.arm = .greeting c (msg :: msgs) ∧ .sent c msg ∈ signals)
          ∨ msgs = p.initialMessages torrent) := by
  cases hs with
  | connected => exact ⟨rfl, .inl harm'⟩
  | linked => exact ⟨rfl, .inl harm'⟩
  | written => exact ⟨rfl, .inl harm'⟩
  | writeFailed => exact ⟨rfl, .inl harm'⟩
  | lockPending => exact ⟨rfl, .inl harm'⟩
  | polled d _ _ harm hpolled =>
    rcases polled_arm harm hpolled with heq | ⟨heq, _⟩
    . rw [harm'] at heq
      contradiction
    . rw [harm'] at heq
      contradiction
  | took peerIds msg wakeUp arm harm hrecv hstarts =>
    rw [show arm = .greeting c msgs from harm'] at hstarts
    cases hstarts
  | advanced _ _ hadvanced =>
    have hadvance : p.Stepped build torrentIo config torrent .advance _ p' :=
      .advanced _ p' hadvanced
    refine ⟨hadvance.piecesCompleted_eq h (by simp), ?_⟩
    unfold Coherent at h
    cases hadvanced with
    | lockPending => exact .inl harm'
    | initConnection d lock harm hlock =>
      simp only [setArm, Arm.greeting.injEq] at harm'
      rw [← harm'.2]
      exact .inr (.inr rfl)
    | greeted d msg msgs' p1 harm hdelivered =>
      simp only [setArm, Arm.greeting.injEq] at harm'
      obtain ⟨rfl, rfl⟩ := harm'
      exact .inr (.inl ⟨msg, harm, List.mem_singleton_self _⟩)
    | greetPending d msg msgs' p1 harm hdelivered =>
      obtain ⟨f, rfl, _⟩ := hdelivered.update_eq
      exact .inl harm'
    | passed peerId msg arm _ _ p1 hpasses htold hdone =>
      obtain rfl : arm = .greeting c msgs := harm'
      generalize p.arm = arm' at hpasses
      cases hpasses
    | passPending peerId msg arm _ _ hpasses htold =>
      obtain ⟨_, f, rfl, _⟩ := htold.update_eq
      exact .inl harm'
    | dispatchPending req requests _ _ harm htold =>
      obtain ⟨_, f, rfl, _⟩ := htold.update_eq
      exact .inl harm'
    | choked peerId choked combinedPeers _ _ harm =>
      rw [harm] at h
      contradiction
    | wakePending => exact .inl harm'
    | _ => contradiction
  | accepted => contradiction
  | ticked => contradiction
  | computed => contradiction
  | unchoked => contradiction
  | noneExpired => contradiction
  | someExpired => contradiction

theorem Stepped.announcing {event : StartEvent} {signals : List Signal} {piece : UInt32}
    {peerId : PeerId} {peerIds : List PeerId}
    (hs : p.Stepped build torrentIo config torrent event signals p')
    (harm : p.arm = .announcing piece peerIds) (hmem : peerId ∈ peerIds)
    (hreaches : p'.Reaches peerId c)
    : (∃ peerIds', p'.arm = .announcing piece peerIds' ∧ peerId ∈ peerIds')
        ∨ .sent c (.have piece) ∈ signals := by
  have hselect : p.arm ≠ .select := by simp [harm]
  cases hs with
  | connected => exact .inl ⟨peerIds, harm, hmem⟩
  | linked => exact .inl ⟨peerIds, harm, hmem⟩
  | written => exact .inl ⟨peerIds, harm, hmem⟩
  | writeFailed => exact .inl ⟨peerIds, harm, hmem⟩
  | lockPending => exact .inl ⟨peerIds, harm, hmem⟩
  | advanced _ _ hadvanced =>
    cases hadvanced with
    | lockPending => exact .inl ⟨peerIds, harm, hmem⟩
    | passed peerId1 msg arm delivery _ p1 hpasses htold hdone =>
      rw [harm] at hpasses
      cases hpasses with
      | announcing _ _ peerIds' =>
        rcases List.mem_cons.mp hmem with rfl | hmem
        . right
          obtain ⟨hlookup, conn, hget, hopen⟩ := hreaches
          cases htold with
          | delivered d _ hlookup' hdelivered =>
            replace hlookup : p1.peerToTx.lookup peerId = some c := hlookup
            rw [hdelivered.peerToTx_eq, hlookup', Option.some.injEq] at hlookup
            rw [hlookup]
            exact List.mem_singleton_self _
          | pending => contradiction
          | closed hclosed => exact absurd (hclosed c conn hlookup hget) hopen
        . exact .inl ⟨peerIds', rfl, hmem⟩
    | passPending peerId1 msg arm _ _ hpasses htold =>
      obtain ⟨_, f, rfl, _⟩ := htold.update_eq
      exact .inl ⟨peerIds, harm, hmem⟩
    | announced pieceId harm1 =>
      rw [harm, Arm.announcing.injEq] at harm1
      rw [harm1.2] at hmem
      contradiction
    | _ =>
      rw [harm] at *
      contradiction
  | _ =>
    rw [harm] at *
    contradiction

theorem Polled.io_eq {signals : List Signal} (h : p.Polled c signals p') : p'.io = p.io := by
  obtain ⟨_, _, _, _, _, rfl⟩ := h.frame
  rfl

theorem Advanced.io_eq {signals : List Signal} (h : p.Coherent)
    (ha : p.Advanced torrentIo torrent signals p')
    : p'.io = p.io ∨ ∃ index begin length, p'.io = (torrentIo.readPiece p.io index begin length).2 := by
  unfold Coherent at h
  have htold : ∀ {p1 : TorrentProcessor σ} {peerId msg delivery signals},
      p.Told peerId msg delivery signals p1 → p1.io = p.io := by
    intro p1 peerId msg delivery signals ht
    obtain ⟨_, f, rfl, _⟩ := ht.update_eq
    rfl
  cases ha with
  | greeted c msg msgs p1 harm hdelivered =>
    obtain ⟨f, rfl, _⟩ := hdelivered.update_eq
    exact .inl rfl
  | greetPending c msg msgs p1 harm hdelivered =>
    obtain ⟨f, rfl, _⟩ := hdelivered.update_eq
    exact .inl rfl
  | passed peerId msg arm _ _ p1 hpasses ht hdone =>
    have heq := htold ht
    exact .inl heq
  | passPending peerId msg arm _ _ hpasses ht => exact .inl (htold ht)
  | queued req lock harm hlock =>
    left
    obtain ⟨requests, heq⟩ := queueRequests_eq { p with lock } req
    rw [heq]
    rfl
  | dispatched req requests _ p1 harm ht =>
    have heq := htold ht
    exact .inl heq
  | dispatchPending req requests _ _ harm ht => exact .inl (htold ht)
  | answerRead req dequed block io harm hread =>
    right
    refine ⟨req.index, req.begin, req.length, ?_⟩
    rw [hread]
    rfl
  | answerFailed req dequed e io harm hread =>
    right
    refine ⟨req.index, req.begin, req.length, ?_⟩
    rw [hread]
    rfl
  | choked peerId choked combinedPeers _ _ harm =>
    rw [harm] at h
    contradiction
  | _ => exact .inl rfl

variable {signals : List Signal} {signal : Signal}

theorem Told.isMessage {peerId : PeerId} {msg : Messages} {delivery : Delivery}
    (h : p.Told peerId msg delivery signals p') (hmem : signal ∈ signals)
    : signal.isMessage = true := by
  cases h with
  | delivered =>
    rw [List.mem_singleton] at hmem
    rw [hmem]
    rfl
  | _ => contradiction

theorem Signalled.isMessage {msg : Messages} (h : p.Signalled c msg signals p')
    (hmem : signal ∈ signals)
    : signal.isMessage = true := by
  cases h with
  | delivered =>
    rw [List.mem_pair] at hmem
    rcases hmem with rfl | rfl
    . rfl
    . rfl
  | _ => contradiction

theorem Polled.isMessage (h : p.Polled c signals p') (hmem : signal ∈ signals)
    : signal.isMessage = true := by
  cases h with
  | handled conn job lock next torrentState _ _ hget hhandler hlock hjob hproceeded =>
    cases hproceeded with
    | receive => contradiction
    | wake =>
      rw [List.mem_singleton] at hmem
      rw [hmem]
      rfl
    | signal _ _ _ hs => exact hs.isMessage hmem
  | signalled conn msg _ _ hget hhandler hs => exact hs.isMessage hmem
  | _ => contradiction

theorem Advanced.isMessage (h : p.Coherent) (ha : p.Advanced torrentIo torrent signals p')
    (hmem : signal ∈ signals)
    : signal.isMessage = true := by
  unfold Coherent at h
  have hwoke : signal ∈ (if .mainLoop ∈ p.wakeUp.senders then [] else [.woke .mainLoop .wakeup]) →
      signal.isMessage = true := by
    split
    . intro hmem
      contradiction
    . intro hmem
      rw [List.mem_singleton] at hmem
      rw [hmem]
      rfl
  cases ha with
  | greeted =>
    rw [List.mem_singleton] at hmem
    rw [hmem]
    rfl
  | passed _ _ _ _ _ _ _ ht => exact ht.isMessage hmem
  | passPending _ _ _ _ _ _ ht => exact ht.isMessage hmem
  | dispatched _ _ _ _ _ ht => exact ht.isMessage hmem
  | dispatchPending _ _ _ _ _ ht => exact ht.isMessage hmem
  | choked peerId choked combinedPeers _ _ harm =>
    rw [harm] at h
    contradiction
  | wokeUp => exact hwoke hmem
  | wakePending => exact hwoke hmem
  | _ => contradiction

theorem Stepped.kind {event : StartEvent} {n : Nat} {kind : σ → Prop} (h : p.Coherent)
    (hstore : torrentIo.WritesWithin n kind)
    (hs : p.Stepped build torrentIo config torrent event signals p') (hkind : kind p.io)
    : kind p'.io ∧ ∀ piece, .written piece ∈ signals → piece.toNat < n := by
  have hwrite : ∀ {index begin block res io}, torrentIo.writePiece p.io index begin block = (res, io) →
      kind io := by
    intro index begin block res io heq
    have hkept := hstore.writePiece p.io index begin block hkind
    rwa [heq] at hkept
  cases hs with
  | written c conn index begin block finished io hget hhandler heq =>
    refine ⟨hwrite heq, ?_⟩
    intro piece hmem
    split at hmem
    . rw [List.mem_singleton, Signal.written.injEq] at hmem
      rw [hmem]
      exact hstore.lt p.io index begin block finished hkind (by rw [heq])
    . contradiction
  | writeFailed c conn index begin block e io hget hhandler heq => exact ⟨hwrite heq, by simp⟩
  | polled c _ _ harm hpolled =>
    rw [hpolled.io_eq]
    refine ⟨hkind, ?_⟩
    intro piece hmem
    have hmessage := hpolled.isMessage hmem
    contradiction
  | advanced _ _ hadvanced =>
    constructor
    . rcases hadvanced.io_eq h with heq | ⟨index, begin, length, heq⟩
      . rw [heq]
        exact hkind
      . rw [heq]
        exact hstore.readPiece p.io index begin length hkind
    . intro piece hmem
      have hmessage := hadvanced.isMessage h hmem
      contradiction
  | _ => exact ⟨hkind, by simp⟩

/--
The connection was sent the piece, in its first bitfield or later.
-/
def WasTold (tr : StartTrace) (c : Nat) (piece : UInt32) : Prop :=
  ∃ x ∈ tr, ∃ msg, .sent c msg ∈ x.2 ∧ msg.Tells piece

def WasWritten (tr : StartTrace) (piece : UInt32) : Prop :=
  ∃ x ∈ tr, .written piece ∈ x.2

/--
Announcements are neither lost nor false.
-/
structure Announces (p : TorrentProcessor σ) (tr : StartTrace) : Prop where
  notLost : p.wakeUp.msgs = [] → (∀ c piece, ¬p.HasHandler c (.waking (.pieceComplete piece))) →
    (∀ piece peerIds, p.arm = .announcing piece peerIds → peerIds = []) →
    ∀ peerId c, p.Reaches peerId c → ∀ piece ∈ p.tracker.piecesCompleted, WasTold tr c piece
  notFalse : ∀ c piece, WasTold tr c piece → WasWritten tr piece

structure AnnounceKept (n : Nat) (kind : σ → Prop) (p : TorrentProcessor σ) (tr : StartTrace)
    : Prop where
  coherent : p.Coherent
  txValid : p.TxValid
  kind : kind p.io
  lt : ∀ piece, WasWritten tr piece → piece.toNat < n
  tells : ∀ piece, p.Tells piece → WasWritten tr piece
  told : ∀ c piece, WasTold tr c piece → WasWritten tr piece
  greeting : ∀ c msgs, p.arm = .greeting c msgs → ∀ piece ∈ p.tracker.piecesCompleted,
    WasTold tr c piece ∨ ∃ msg ∈ msgs, msg.Tells piece
  reached : ∀ peerId c, p.Reaches peerId c → ∀ piece ∈ p.tracker.piecesCompleted,
    WasTold tr c piece ∨ p.Pending (.pieceComplete piece)
      ∨ ∃ peerIds, p.arm = .announcing piece peerIds ∧ peerId ∈ peerIds

theorem wasTold_append {tr : StartTrace} {event : StartEvent} {signals : List Signal}
    {piece : UInt32}
    : WasTold (tr ++ [(event, signals)]) c piece
        ↔
      WasTold tr c piece ∨ ∃ msg, .sent c msg ∈ signals ∧ msg.Tells piece := by
  unfold WasTold
  simp only [List.mem_append, List.mem_singleton, or_and_right, exists_or, exists_eq_left]

theorem wasWritten_append {tr : StartTrace} {event : StartEvent} {signals : List Signal}
    {piece : UInt32}
    : WasWritten (tr ++ [(event, signals)]) piece ↔ WasWritten tr piece ∨ .written piece ∈ signals := by
  unfold WasWritten
  simp only [List.mem_append, List.mem_singleton, or_and_right, exists_or, exists_eq_left]

theorem AnnounceKept.stepped {kind : σ → Prop} {event : StartEvent} {tr : StartTrace}
    (hlt : torrent.info.pieces.length < 2 ^ 32)
    (hstore : torrentIo.WritesWithin torrent.info.pieces.length kind)
    (h : AnnounceKept torrent.info.pieces.length kind p tr)
    (hs : p.Stepped build torrentIo config torrent event signals p')
    : AnnounceKept torrent.info.pieces.length kind p' (tr ++ [(event, signals)]) := by
  have hcoherent := h.coherent
  obtain ⟨htells, hsent⟩ := hs.tells hlt hcoherent
  obtain ⟨hkind, hwritten⟩ := hs.kind hcoherent hstore h.kind
  constructor
  . exact hcoherent.stepped hs
  . exact h.txValid.stepped hcoherent hs
  . exact hkind
  . intro piece hmem
    rcases wasWritten_append.mp hmem with hmem | hmem
    . exact h.lt piece hmem
    . exact hwritten piece hmem
  . intro piece hmem
    rcases htells piece hmem with hmem | hmem
    . exact wasWritten_append.mpr (.inl (h.tells piece hmem))
    . exact wasWritten_append.mpr (.inr hmem)
  . intro c piece htold
    apply wasWritten_append.mpr
    rcases wasTold_append.mp htold with htold | ⟨msg, hmem, hmsg⟩
    . exact .inl (h.told c piece htold)
    . exact .inl (h.tells piece (hsent c msg piece hmem hmsg))
  . intro c msgs harm' piece hcompleted
    rw [wasTold_append]
    obtain ⟨hsame, harm⟩ := hs.greeting hcoherent harm'
    rw [hsame] at hcompleted
    rcases harm with harm | ⟨msg, harm, hmem⟩ | rfl
    . rcases h.greeting c msgs harm piece hcompleted with htold | hmsg
      . exact .inl (.inl htold)
      . exact .inr hmsg
    . rcases h.greeting c _ harm piece hcompleted with htold | ⟨msg', hmem', hmsg⟩
      . exact .inl (.inl htold)
      . rcases List.mem_cons.mp hmem' with rfl | hmem'
        . exact .inl (.inr ⟨msg', hmem, hmsg⟩)
        . exact .inr ⟨msg', hmem', hmsg⟩
    . right
      rw [tells_initialMessages hlt]
      exact ⟨h.lt piece (h.tells piece (.inl hcompleted)), hcompleted⟩
  . intro peerId c hreaches' piece hcompleted'
    rw [wasTold_append]
    rcases hs.piecesCompleted hcoherent hcompleted' with hcompleted | hpending
    . rcases hs.reaches hcoherent h.txValid hreaches' with hreaches | ⟨_, harm, _⟩
      . rcases h.reached peerId c hreaches piece hcompleted with htold | hpending | ⟨peerIds, harm, hmem⟩
        . exact .inl (.inl htold)
        . rcases hs.pending hcoherent hpending with hpending | hstarts
          . exact .inr (.inl hpending)
          . right
            right
            generalize harm' : p'.arm = arm at hstarts
            cases hstarts with
            | pieceComplete _ peerIds hnodup hkeys =>
              refine ⟨peerIds, rfl, ?_⟩
              rw [← List.mem_toFinset, hkeys, Finmap.mem_keys, Finmap.mem_iff]
              exact ⟨c, hreaches'.1⟩
        . rcases hs.announcing harm hmem hreaches' with harm' | hmem
          . exact .inr (.inr harm')
          . exact .inl (.inr ⟨_, hmem, rfl⟩)
      . rcases h.greeting c [] harm piece hcompleted with htold | ⟨msg, hmem, _⟩
        . exact .inl (.inl htold)
        . contradiction
    . exact .inr (.inl hpending)

theorem announceKept_new {kind : σ → Prop} {io : σ} (hio : kind io) (n : Nat)
    : AnnounceKept n kind (new config torrent io) [] := by
  have htold : ∀ c piece, ¬WasTold [] c piece := by
    intro c piece ⟨_, hmem, _⟩
    contradiction
  have hwritten : ∀ piece, ¬WasWritten [] piece := by
    intro piece ⟨_, hmem, _⟩
    contradiction
  have hlookup : ∀ peerId c, (new config torrent io).peerToTx.lookup peerId ≠ some c := by
    intro peerId c
    simp [new]
  constructor
  . trivial
  . intro peerId c h
    exact absurd h (hlookup peerId c)
  . exact hio
  . intro piece h
    exact absurd h (hwritten piece)
  . rintro piece (hmem | hmem | ⟨c, _, ⟨conn, hget, _⟩, _⟩ | htells)
    . contradiction
    . contradiction
    . contradiction
    . contradiction
  . intro c piece h
    exact absurd h (htold c piece)
  . intro c msgs harm
    contradiction
  . intro peerId c h
    exact absurd h.1 (hlookup peerId c)

theorem AnnounceKept.announces {n : Nat} {kind : σ → Prop} {tr : StartTrace}
    (h : AnnounceKept n kind p tr)
    : p.Announces tr := by
  constructor
  . intro hmsgs hwaking harm peerId c hreaches piece hcompleted
    rcases h.reached peerId c hreaches piece hcompleted with htold | (hmem | ⟨d, hhas⟩)
      | ⟨peerIds, harm', hmem⟩
    . exact htold
    . rw [hmsgs] at hmem
      contradiction
    . exact absurd hhas (hwaking d piece)
    . rw [harm piece peerIds harm'] at hmem
      contradiction
  . exact h.told

/--
Whenever no announcement is on its way, each peer that the loop reaches was told of each piece that
is finished, and no peer is ever told of a piece that the store did not say to be finished.
-/
theorem announces_of_run (build : Build) (torrentIo : TorrentIo σ) (config : Config)
    (torrent : V1Torrent) (kind : σ → Prop) (io : σ) (p : TorrentProcessor σ) (tr : StartTrace)
    (hlt : torrent.info.pieces.length < 2 ^ 32)
    (hstore : torrentIo.WritesWithin torrent.info.pieces.length kind) (hio : kind io)
    (hrun : (startTask build torrentIo config torrent).Run (new config torrent io) tr p)
    : p.Announces tr := by
  suffices h : AnnounceKept torrent.info.pieces.length kind p tr from h.announces
  apply hrun.invariant_trace
    (P := fun tr p => AnnounceKept torrent.info.pieces.length kind p tr)
  . intro tr p event signals p' _ hstep h
    exact h.stepped hlt hstore (stepped_of_step hstep)
  . exact announceKept_new hio _

/--
The loop with its store in memory behind an `IoHandler`, as it is for a torrent with room for two bytes.
-/
def storeTask (build : Build) (torrent : V1Torrent)
    : Machine (TorrentProcessor (Option Store)) StartEvent (List Signal) :=
  startTask build (Store.torrentIo build Sha1.digest).handled ⟨false, 8, 1, 1⟩ torrent

def twoByteStore : Option Store :=
  some (.memory { memory := [⟨[0, 0], .new 2⟩] })

/--
The peer `[5]` sends the two bytes, and the loop takes the message that the piece is complete.
-/
def completingEvents : List StartEvent :=
  greetingEvents 0 [5] ++ [.link 0 (.read (.piece 0 0 [1, 2])), .poll 0, .io 0, .poll 0]
    ++ [.recvWakeUp [[5]]]

def returningEvents (availiablePieceToPeers : List (UInt32 × List PeerId)) : List StartEvent :=
  [.compute availiablePieceToPeers (fun _ => 0), .advance, .advance, .advance]

/--
The peer asks for more than the piece has, and the read of the store panics.
-/
def endingEvents : List StartEvent :=
  [.advance, .advance] ++ returningEvents [(0, [])] ++ handlingEvents 0 (.flag .interested)
    ++ [.recvWakeUp []] ++ returningEvents [(0, [])] ++ handlingEvents 0 (.request 0 0 5)
    ++ [.recvWakeUp [], .advance] ++ returningEvents [(0, [])]

theorem reaches_of_selecting {p : TorrentProcessor σ} {links : List Link} {peerId : PeerId}
    {readDone : Bool} (hlookup : p.peerToTx.lookup peerId = some c)
    (hlinks : p.connections.map (·.link) = links) (hlink : links[c]? = some (.selecting readDone))
    : p.Reaches peerId c := by
  rw [← hlinks, List.getElem?_map, Option.map_eq_some_iff] at hlink
  obtain ⟨conn, hget, hlink⟩ := hlink
  refine ⟨hlookup, conn, hget, ?_⟩
  rw [hlink]
  simp

theorem not_hasHandler {p : TorrentProcessor σ} {handlers : List Handler} {handler : Handler}
    (hhandlers : p.connections.map (·.handler) = handlers) (h : handler ∉ handlers)
    : ¬p.HasHandler c handler := by
  intro ⟨conn, hget, hhandler⟩
  apply h
  rw [← hhandlers, ← hhandler]
  exact List.mem_map_of_mem (List.mem_of_getElem? hget)

theorem wasTold_iff {tr : StartTrace} {signals : List Signal} {piece : UInt32}
    (h : tr.flatMap (·.2) = signals)
    : WasTold tr c piece ↔ ∃ msg, .sent c msg ∈ signals ∧ msg.Tells piece := by
  unfold WasTold
  rw [← h]
  simp only [List.mem_flatMap]
  constructor
  . intro ⟨x, hx, msg, hmem, hmsg⟩
    exact ⟨msg, ⟨x, hx, hmem⟩, hmsg⟩
  . intro ⟨msg, ⟨x, hx, hmem⟩, hmsg⟩
    exact ⟨x, hx, msg, hmem, hmsg⟩

theorem announces_ending
    : ∃ p tr, (storeTask ⟨true⟩ (torrentFixture 2 2 [[1, 2]])).Run
          (new ⟨false, 8, 1, 1⟩ (torrentFixture 2 2 [[1, 2]]) twoByteStore) tr p
        ∧ p.io = none ∧ 0 ∈ p.tracker.piecesCompleted ∧ p.Reaches [5] 0 ∧ WasTold tr 0 0 := by
  obtain ⟨tr, p, hrun, _, hstate⟩ :=
    (storeTask ⟨true⟩ (torrentFixture 2 2 [[1, 2]])).exists_run_of_exec
      (new ⟨false, 8, 1, 1⟩ (torrentFixture 2 2 [[1, 2]]) twoByteStore)
      (completingEvents ++ endingEvents)
      (fun x => ((x.2.wakeUp.msgs, x.2.peerToTx.lookup [5]),
        x.2.connections.map (·.handler), x.2.connections.map (·.link),
        decide (x.2.io.isNone = true ∧ x.2.arm = .select ∧ 0 ∈ x.2.tracker.piecesCompleted)))
      (b := (([], some 0), [.receiving], [.selecting false], true))
      (by decide +kernel)
  simp only [Prod.mk.injEq, decide_eq_true_iff, Option.isNone_iff_eq_none] at hstate
  obtain ⟨⟨hmsgs, hlookup⟩, hhandlers, hlinks, hio, harm, hcompleted⟩ := hstate
  have hreaches : p.Reaches [5] 0 := reaches_of_selecting hlookup hlinks rfl
  refine ⟨p, tr, hrun, hio, hcompleted, hreaches, ?_⟩
  apply (announces_of_run ⟨true⟩ (Store.torrentIo ⟨true⟩ Sha1.digest).handled ⟨false, 8, 1, 1⟩
    (torrentFixture 2 2 [[1, 2]]) (fun store => ∀ store' ∈ store, store'.Sized 1) twoByteStore
    p tr (by decide) (Store.writesWithin ⟨true⟩ Sha1.digest 1).handled ?_ hrun).notLost hmsgs
  . exact fun c piece => not_hasHandler hhandlers (by simp)
  . intro piece peerIds hannouncing
    rw [harm] at hannouncing
    contradiction
  . exact hreaches
  . exact hcompleted
  . intro store' hmem
    rw [← Option.some.inj hmem]
    rfl

/--
The loop may be about to tell a peer of a piece when no message is left, and the bitfield of a
torrent without pieces never tells a peer of the one that the store finishes all the same.
-/
theorem not_announces_taken
    : (∃ p tr, (storeTask ⟨true⟩ (torrentFixture 2 2 [[1, 2]])).Run
          (new ⟨false, 8, 1, 1⟩ (torrentFixture 2 2 [[1, 2]]) twoByteStore) tr p
        ∧ p.wakeUp.msgs = [] ∧ (∀ c piece, ¬p.HasHandler c (.waking (.pieceComplete piece)))
        ∧ p.Reaches [5] 0 ∧ 0 ∈ p.tracker.piecesCompleted ∧ ¬WasTold tr 0 0)
      ∧ ∃ p tr, (storeTask ⟨false⟩ (torrentFixture 2 0 [])).Run
          (new ⟨false, 8, 1, 1⟩ (torrentFixture 2 0 []) twoByteStore) tr p
        ∧ p.arm = .select
        ∧ p.wakeUp.msgs = [] ∧ (∀ c piece, ¬p.HasHandler c (.waking (.pieceComplete piece)))
        ∧ p.Reaches [6] 1 ∧ 0 ∈ p.tracker.piecesCompleted ∧ ¬WasTold tr 1 0 := by
  constructor
  . obtain ⟨tr, p, hrun, _, hstate⟩ :=
      (storeTask ⟨true⟩ (torrentFixture 2 2 [[1, 2]])).exists_run_of_exec
        (new ⟨false, 8, 1, 1⟩ (torrentFixture 2 2 [[1, 2]]) twoByteStore) completingEvents
        (fun x => ((x.2.wakeUp.msgs, x.2.peerToTx.lookup [5], x.1.flatMap (·.2)),
          x.2.connections.map (·.handler), x.2.connections.map (·.link),
          decide (0 ∈ x.2.tracker.piecesCompleted)))
        (b := (([], some 0, [.sent 0 (.bitField [0]), .sent 0 (.flag .choke),
            .sent 0 (.flag .notInterested), .written 0, .woke (.handler 0) (.pieceComplete 0),
            .took (.pieceComplete 0)]),
          [.receiving], [.selecting false], true)) (by decide +kernel)
    simp only [Prod.mk.injEq, decide_eq_true_iff] at hstate
    obtain ⟨⟨hmsgs, hlookup, hsignals⟩, hhandlers, hlinks, hcompleted⟩ := hstate
    refine ⟨p, tr, hrun, hmsgs, fun c piece => not_hasHandler hhandlers (by simp),
      reaches_of_selecting hlookup hlinks rfl, hcompleted, ?_⟩
    rw [wasTold_iff hsignals]
    simp [Messages.Tells]
    decide +kernel
  . obtain ⟨tr, p, hrun, _, hstate⟩ :=
      (storeTask ⟨false⟩ (torrentFixture 2 0 [])).exists_run_of_exec
        (new ⟨false, 8, 1, 1⟩ (torrentFixture 2 0 []) twoByteStore)
        (completingEvents ++ [.advance, .advance] ++ returningEvents [] ++ greetingEvents 1 [6])
        (fun x => ((x.2.wakeUp.msgs, x.2.peerToTx.lookup [6], x.1.flatMap (·.2)),
          x.2.connections.map (·.handler), x.2.connections.map (·.link),
          decide (x.2.arm = .select ∧ 0 ∈ x.2.tracker.piecesCompleted)))
        (b := (([], some 1, [.sent 0 (.bitField []), .sent 0 (.flag .choke),
            .sent 0 (.flag .notInterested), .written 0, .woke (.handler 0) (.pieceComplete 0),
            .took (.pieceComplete 0), .sent 0 (.have 0), .sent 1 (.bitField []),
            .sent 1 (.flag .choke), .sent 1 (.flag .notInterested)]),
          [.receiving, .receiving], [.selecting false, .selecting false], true))
        (by decide +kernel)
    simp only [Prod.mk.injEq, decide_eq_true_iff] at hstate
    obtain ⟨⟨hmsgs, hlookup, hsignals⟩, hhandlers, hlinks, harm, hcompleted⟩ := hstate
    refine ⟨p, tr, hrun, harm, hmsgs, fun c piece => not_hasHandler hhandlers (by simp),
      reaches_of_selecting hlookup hlinks rfl, hcompleted, ?_⟩
    rw [wasTold_iff hsignals]
    simp [Messages.Tells]
    decide +kernel

end TorrentProcessor
