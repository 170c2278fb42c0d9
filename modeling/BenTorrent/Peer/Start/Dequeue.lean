import BenTorrent.Peer.Start.Upload

/-!
This module contains what becomes of the requests that are queued when the loop takes from the
queue, whatever the queue, the senders and the store are.
-/

open Rust

/--
The arms in which the loop takes from the queue and answers what it took.
-/
def Arm.dequeues : Arm → Bool
  | .dequeueing => true
  | .answering _ => true
  | .sending _ _ _ => true
  | _ => false

namespace TorrentProcessor

variable {σ : Type u} {p p' : TorrentProcessor σ} {c : Nat}

def readFails (torrentIo : TorrentIo σ) (p : TorrentProcessor σ) (req : PeerRequestedPiece) : Bool :=
  (p.peerToTx.lookup req.peerId).isSome
    && !(torrentIo.readPiece p.io req.index req.begin req.length).1.isOk

/--
The request whose own read fails, with those that were taken behind it.
-/
def failedRead (torrentIo : TorrentIo σ) (p : TorrentProcessor σ) (event : StartEvent)
    : Option (PeerRequestedPiece × List PeerRequestedPiece) :=
  match event, p.arm with
  | .advance, .answering (req :: dequed) =>
    if p.readFails torrentIo req then some (req, dequed) else none
  | _, _ => none

def failedReads (build : Build) (torrentIo : TorrentIo σ) (config : Config) (torrent : V1Torrent)
    (p : TorrentProcessor σ) (tr : StartTrace)
    : List (PeerRequestedPiece × List PeerRequestedPiece) :=
  (startTask build torrentIo config torrent).collect (failedRead torrentIo) p tr

/--
None of the connections that were there reaches the peer any more.
-/
def Left (p p' : TorrentProcessor σ) (peerId : PeerId) : Prop :=
  ∀ c < p.connections.length, ¬p'.Reaches peerId c

/--
The answer is a block of the store at the place of the request, sent through the sender of its peer.
-/
structure Replies (torrentIo : TorrentIo σ) (p : TorrentProcessor σ) (req : PeerRequestedPiece)
    (ans : Answer) : Prop where
  lookup_eq : p.peerToTx.lookup req.peerId = some ans.c
  index_eq : ans.index = req.index
  begin_eq : ans.begin = req.begin
  read : ∃ store store',
    torrentIo.readPiece store req.index req.begin req.length = (.ok ans.block, store')

/--
What has become of requests in their order: those that are queued, the answers, those whose block
was not read and those that are lost. The others are of peers that have left.
-/
inductive Accounts (torrentIo : TorrentIo σ) (p p' : TorrentProcessor σ)
    : List PeerRequestedPiece → List PeerRequestedPiece → List Answer → List PeerRequestedPiece →
      List PeerRequestedPiece → Prop where
  | nil : Accounts torrentIo p p' [] [] [] [] []
  | queued (req : PeerRequestedPiece) {reqs queued unread lost : List PeerRequestedPiece}
      {answers : List Answer} (h : Accounts torrentIo p p' reqs queued answers unread lost)
      : Accounts torrentIo p p' (req :: reqs) (req :: queued) answers unread lost
  | answered (req : PeerRequestedPiece) (ans : Answer)
      {reqs queued unread lost : List PeerRequestedPiece} {answers : List Answer}
      (hreplies : p.Replies torrentIo req ans)
      (h : Accounts torrentIo p p' reqs queued answers unread lost)
      : Accounts torrentIo p p' (req :: reqs) queued (ans :: answers) unread lost
  | left (req : PeerRequestedPiece) {reqs queued unread lost : List PeerRequestedPiece}
      {answers : List Answer} (hleft : Left p p' req.peerId)
      (h : Accounts torrentIo p p' reqs queued answers unread lost)
      : Accounts torrentIo p p' (req :: reqs) queued answers unread lost
  | unread (req : PeerRequestedPiece) {reqs queued unread lost : List PeerRequestedPiece}
      {answers : List Answer} (h : Accounts torrentIo p p' reqs queued answers unread lost)
      : Accounts torrentIo p p' (req :: reqs) queued answers (req :: unread) lost
  | lost (req : PeerRequestedPiece) {reqs queued unread lost : List PeerRequestedPiece}
      {answers : List Answer} (h : Accounts torrentIo p p' reqs queued answers unread lost)
      : Accounts torrentIo p p' (req :: reqs) queued answers unread (req :: lost)

section accounts

variable {torrentIo : TorrentIo σ}
variable {reqs reqs' queued queued' unread unread' lost lost' : List PeerRequestedPiece}
variable {answers answers' : List Answer}

theorem accounts_queued (reqs : List PeerRequestedPiece)
    : Accounts torrentIo p p' reqs reqs [] [] [] := by
  induction reqs with
  | nil => exact .nil
  | cons req _ ih => exact .queued req ih

theorem accounts_lost (reqs : List PeerRequestedPiece)
    : Accounts torrentIo p p' reqs [] [] [] reqs := by
  induction reqs with
  | nil => exact .nil
  | cons req _ ih => exact .lost req ih

theorem Accounts.append (h : Accounts torrentIo p p' reqs queued answers unread lost)
    (h' : Accounts torrentIo p p' reqs' queued' answers' unread' lost')
    : Accounts torrentIo p p' (reqs ++ reqs') (queued ++ queued') (answers ++ answers')
        (unread ++ unread') (lost ++ lost') := by
  induction h with
  | nil => exact h'
  | queued req _ ih => exact .queued req ih
  | answered req ans hreplies _ ih => exact .answered req ans hreplies ih
  | left req hleft _ ih => exact .left req hleft ih
  | unread req _ ih => exact .unread req ih
  | lost req _ ih => exact .lost req ih

theorem Accounts.nothing_lost (h : Accounts torrentIo p p' reqs queued answers unread lost)
    (hleft : ∀ req ∈ lost, Left p p' req.peerId)
    : Accounts torrentIo p p' reqs queued answers unread [] := by
  induction h with
  | nil => exact .nil
  | queued req _ ih => exact .queued req (ih hleft)
  | answered req ans hreplies _ ih => exact .answered req ans hreplies (ih hleft)
  | left req hleft' _ ih => exact .left req hleft' (ih hleft)
  | unread req _ ih => exact .unread req (ih hleft)
  | lost req _ ih =>
    rw [List.forall_mem_cons] at hleft
    exact .left req hleft.1 (ih hleft.2)

def isThrough (p : TorrentProcessor σ) (c : Nat) (req : PeerRequestedPiece) : Bool :=
  decide (p.peerToTx.lookup req.peerId = some c)

theorem Accounts.countP_eq (h : Accounts torrentIo p p' reqs queued answers unread lost)
    (htx : p'.peerToTx = p.peerToTx) {peerId : PeerId} (hlt : c < p.connections.length)
    (hreaches : p'.Reaches peerId c)
    : reqs.countP (p.isThrough c)
        =
      queued.countP (p.isThrough c) + answers.countP (fun ans => decide (ans.c = c))
        + unread.countP (p.isThrough c) + lost.countP (p.isThrough c) := by
  induction h with
  | nil => rfl
  | queued req _ ih =>
    rw [List.countP_cons, List.countP_cons, ih]
    omega
  | answered req ans hreplies _ ih =>
    have hthrough : p.isThrough c req = decide (ans.c = c) := by
      unfold isThrough
      simp only [hreplies.lookup_eq, Option.some.injEq]
    rw [List.countP_cons, List.countP_cons, ih, hthrough]
    omega
  | left req hleft _ ih =>
    have hthrough : p.isThrough c req = false := by
      refine decide_eq_false fun hlookup => hleft c hlt ⟨?_, hreaches.2⟩
      rw [htx, hlookup]
    rw [List.countP_cons, ih, hthrough]
    simp
  | unread req _ ih =>
    rw [List.countP_cons, List.countP_cons, ih]
    omega
  | lost req _ ih =>
    rw [List.countP_cons, List.countP_cons, ih]
    omega

theorem Accounts.left_of_lost (h : Accounts torrentIo p p' reqs queued answers unread lost)
    (h' : Accounts torrentIo p p' reqs queued answers unread [])
    (htx : p'.peerToTx = p.peerToTx)
    : ∀ req ∈ lost, Left p p' req.peerId := by
  intro req hmem c hlt hreaches
  have hcount := h.countP_eq htx hlt hreaches
  rw [h'.countP_eq htx hlt hreaches, List.countP_nil] at hcount
  have hzero : lost.countP (p.isThrough c) = 0 := by
    omega
  have hthrough : p.isThrough c req = true := by
    apply decide_eq_true
    rw [← htx, hreaches.1]
  exact List.countP_eq_zero.mp hzero req hmem hthrough

end accounts

structure Keeps (p p' : TorrentProcessor σ) : Prop where
  peerToTx_eq : p'.peerToTx = p.peerToTx
  openBefore : OpenBefore p p'

theorem OpenBefore.refl (p : TorrentProcessor σ) : OpenBefore p p :=
  (touches_of_eq (c := 0) rfl).openBefore

theorem OpenBefore.trans {p1 : TorrentProcessor σ} (h : OpenBefore p p1) (h' : OpenBefore p1 p')
    : OpenBefore p p' := by
  refine ⟨Nat.le_trans h.1 h'.1, ?_⟩
  intro c conn' hget' hlt
  obtain ⟨conn1, hget1, hid1, hopen1⟩ := h'.2 c conn' hget' (Nat.lt_of_lt_of_le hlt h.1)
  obtain ⟨conn, hget, hid, hopen⟩ := h.2 c conn1 hget1 hlt
  exact ⟨conn, hget, hid1.trans hid, fun hopen' => hopen (hopen1 hopen')⟩

theorem Keeps.refl (p : TorrentProcessor σ) : Keeps p p :=
  ⟨rfl, .refl p⟩

theorem Keeps.trans {p1 : TorrentProcessor σ} (h : Keeps p p1) (h' : Keeps p1 p') : Keeps p p' :=
  ⟨h'.peerToTx_eq.trans h.peerToTx_eq, h.openBefore.trans h'.openBefore⟩

theorem Keeps.left {p1 : TorrentProcessor σ} {peerId : PeerId} (h : Keeps p p1) (h' : Keeps p1 p')
    (hclosed : ∀ c conn, p1.peerToTx.lookup peerId = some c → p1.connections[c]? = some conn →
      conn.link = .ended)
    : Left p p' peerId := by
  rintro c hlt ⟨hlookup, conn', hget', hopen'⟩
  have hlt1 := Nat.lt_of_lt_of_le hlt h.openBefore.1
  obtain ⟨conn, hget, _, hopen⟩ := h'.openBefore.2 c conn' hget' hlt1
  rw [h'.peerToTx_eq] at hlookup
  exact hopen hopen' (hclosed c conn hlookup hget)

/--
What a step of the arms makes of the arm and of the queue, with the answer that it sends and the read
that fails in it.
-/
inductive Drains (torrentIo : TorrentIo σ) (p : TorrentProcessor σ)
    : Arm → List PeerRequestedPiece → List Answer →
      Option (PeerRequestedPiece × List PeerRequestedPiece) → Arm → List PeerRequestedPiece →
      Prop where
  | waited (arm : Arm) (queue : List PeerRequestedPiece)
      : Drains torrentIo p arm queue [] none arm queue
  | dequeued (queue : List PeerRequestedPiece)
      : Drains torrentIo p .dequeueing queue [] none (.answering (queue.take 4)) (queue.drop 5)
  | skipped (req : PeerRequestedPiece) (dequed queue : List PeerRequestedPiece)
      (hlookup : p.peerToTx.lookup req.peerId = none)
      : Drains torrentIo p (.answering (req :: dequed)) queue [] none (.answering dequed) queue
  | read (req : PeerRequestedPiece) (dequed queue : List PeerRequestedPiece) (block : Bytes)
      (hread : ∃ store store',
        torrentIo.readPiece store req.index req.begin req.length = (.ok block, store'))
      : Drains torrentIo p (.answering (req :: dequed)) queue [] none
          (.sending req.peerId (.piece req.index req.begin block) dequed) queue
  | readFailed (req : PeerRequestedPiece) (dequed queue : List PeerRequestedPiece)
      : Drains torrentIo p (.answering (req :: dequed)) queue [] (some (req, dequed)) .select queue
  | answeredAll (queue : List PeerRequestedPiece)
      : Drains torrentIo p (.answering []) queue [] none .select queue
  | sent (peerId : PeerId) (c : Nat) (msg : Messages) (dequed queue : List PeerRequestedPiece)
      (hlookup : p.peerToTx.lookup peerId = some c)
      : Drains torrentIo p (.sending peerId msg dequed) queue (Signal.sent c msg).answer.toList none
          (.answering dequed) queue
  | closed (peerId : PeerId) (msg : Messages) (dequed queue : List PeerRequestedPiece)
      (hclosed : ∀ c conn, p.peerToTx.lookup peerId = some c → p.connections[c]? = some conn →
        conn.link = .ended)
      : Drains torrentIo p (.sending peerId msg dequed) queue [] none (.answering dequed) queue

variable {build : Build} {torrentIo : TorrentIo σ} {config : Config} {torrent : V1Torrent}
variable {event : StartEvent} {signals : List Signal}

theorem drains_of_answer {req : PeerRequestedPiece} {dequed : List PeerRequestedPiece}
    (h : p.answer torrentIo req dequed = p')
    : Drains torrentIo p (.answering (req :: dequed)) p.outstandingPeerRequests []
        (if p.readFails torrentIo req then some (req, dequed) else none) p'.arm
        p'.outstandingPeerRequests := by
  unfold readFails
  unfold answer at h
  split at h
  . next hlookup =>
    rw [← h, hlookup]
    exact .skipped req dequed _ hlookup
  . next c hlookup =>
    rw [hlookup]
    split at h
    . next block io hread =>
      rw [← h, hread]
      exact .read req dequed _ block ⟨p.io, io, hread⟩
    . next e io hread =>
      rw [← h, hread]
      exact .readFailed req dequed _

theorem drains_of_tellThen {peerId : PeerId} {msg : Messages} {dequed : List PeerRequestedPiece}
    (harm : p.arm = .sending peerId msg dequed)
    (h : p.tellThen peerId msg (.answering dequed) = (signals, p'))
    : Drains torrentIo p (.sending peerId msg dequed) p.outstandingPeerRequests
        (signals.filterMap Signal.answer) none p'.arm p'.outstandingPeerRequests := by
  rcases tellThen_eq h with htold | ⟨delivery, p1, hdone, htold, rfl⟩
  . rw [htold.arm_eq, htold.queue_eq, harm]
    cases htold with
    | pending => exact .waited _ _
  . have hqueue : (p1.setArm (.answering dequed)).outstandingPeerRequests
        = p.outstandingPeerRequests := htold.queue_eq
    rw [hqueue]
    cases htold with
    | delivered c _ hlookup =>
      have hanswers : [Signal.sent c msg].filterMap Signal.answer = (Signal.sent c msg).answer.toList := by
        cases hanswer : (Signal.sent c msg).answer with
        | none => rw [List.filterMap_cons_none hanswer]; rfl
        | some ans => rw [List.filterMap_cons_some hanswer]; rfl
      rw [hanswers]
      exact .sent peerId c msg dequed _ hlookup
    | pending => contradiction
    | closed hclosed => exact .closed peerId msg dequed _ hclosed

theorem drains_of_advance (hdequeues : p.arm.dequeues = true)
    (h : p.advance torrentIo torrent = some (signals, p'))
    : Drains torrentIo p p.arm p.outstandingPeerRequests (signals.filterMap Signal.answer)
        (p.failedRead torrentIo .advance) p'.arm p'.outstandingPeerRequests := by
  unfold advance at h
  unfold failedRead
  cases harm : p.arm with
  | dequeueing =>
    rw [harm] at h
    rcases withLock_eq_some h with ⟨lock, _, hbody⟩ | ⟨lock, _, rfl, rfl⟩
    . rw [Option.some.injEq, Prod.mk.injEq] at hbody
      rw [← hbody.1, ← hbody.2]
      exact .dequeued _
    . rw [harm]
      exact .waited _ _
  | answering dequed =>
    rw [harm] at h
    cases dequed with
    | nil =>
      rw [Option.some.injEq, Prod.mk.injEq] at h
      rw [← h.1, ← h.2]
      exact .answeredAll _
    | cons req dequed =>
      rw [Option.some.injEq, Prod.mk.injEq] at h
      rw [← h.1]
      exact drains_of_answer h.2
  | sending peerId msg dequed =>
    rw [harm, Option.some.injEq] at h
    exact drains_of_tellThen harm h
  | _ =>
    rw [harm] at hdequeues
    contradiction

theorem drains_of_step (hdequeues : p.arm.dequeues = true)
    (hstep : (startTask build torrentIo config torrent).step p event = some (signals, p'))
    : Drains torrentIo p p.arm p.outstandingPeerRequests (signals.filterMap Signal.answer)
        (p.failedRead torrentIo event) p'.arm p'.outstandingPeerRequests := by
  have harm : ∀ {arm}, p.arm = arm → arm.dequeues = false → False := by
    intro arm harm hfalse
    rw [harm, hfalse] at hdequeues
    contradiction
  have hs := stepped_of_step hstep
  cases hs with
  | connected => exact .waited _ _
  | linked => exact .waited _ _
  | written =>
    split
    . exact .waited _ _
    . exact .waited _ _
  | writeFailed => exact .waited _ _
  | polled _ _ _ hselect => exact (harm hselect rfl).elim
  | accepted _ _ hselect => exact (harm hselect rfl).elim
  | took _ _ _ _ hselect => exact (harm hselect rfl).elim
  | ticked hselect => exact (harm hselect rfl).elim
  | advanced => exact drains_of_advance hdequeues hstep
  | lockPending _ _ hlocks =>
    have hidle : p.failedRead torrentIo event = none := by
      unfold failedRead
      split
      . contradiction
      . rfl
    rw [hidle]
    exact .waited _ _
  | computed _ _ _ _ _ hcomputing => exact (harm hcomputing rfl).elim
  | unchoked _ _ _ hunchoking => exact (harm hunchoking rfl).elim
  | noneExpired _ _ _ hexpiring => exact (harm hexpiring rfl).elim
  | someExpired _ _ _ _ _ hexpiring => exact (harm hexpiring rfl).elim

theorem Keeps.step (hdequeues : p.arm.dequeues = true)
    (hstep : (startTask build torrentIo config torrent).step p event = some (signals, p'))
    : Keeps p p' := by
  have hother : ∀ {arm}, p.arm = arm → arm.dequeues = false → p'.peerToTx = p.peerToTx := by
    intro arm harm hfalse
    rw [harm, hfalse] at hdequeues
    contradiction
  have hcoherent : p.Coherent := by
    unfold Coherent
    cases harm : p.arm with
    | dequeueing => trivial
    | answering => trivial
    | sending => trivial
    | _ =>
      rw [harm] at hdequeues
      contradiction
  have hs := stepped_of_step hstep
  refine ⟨?_, hs.openBefore hcoherent⟩
  cases hs with
  | polled _ _ _ hselect => exact hother hselect rfl
  | took _ _ _ _ hselect => exact hother hselect rfl
  | advanced _ _ hadvanced =>
    cases hadvanced with
    | greeted _ _ _ _ hgreeting => exact hother hgreeting rfl
    | greetPending _ _ _ _ hgreeting => exact hother hgreeting rfl
    | registered _ _ hgreeting => exact hother hgreeting rfl
    | closing _ _ _ hclosing => exact hother hclosing rfl
    | passed _ _ _ _ _ _ _ htold => exact htold.peerToTx_eq
    | passPending _ _ _ _ _ _ htold => exact htold.peerToTx_eq
    | queued _ _ hqueueing => exact hother hqueueing rfl
    | dispatched _ _ _ _ hdispatching => exact hother hdispatching rfl
    | dispatchPending _ _ _ _ hdispatching => exact hother hdispatching rfl
    | choked _ _ _ _ _ hchoking => exact hother hchoking rfl
    | _ => rfl
  | _ => rfl

def Dequeues (p : TorrentProcessor σ) (_ : StartEvent) : Prop :=
  p.arm.dequeues = true

instance (event : StartEvent) : Decidable (p.Dequeues event) :=
  inferInstanceAs (Decidable (_ = _))

variable {tr : StartTrace}

theorem keeps_of_run
    (hrun : (startTask build torrentIo config torrent).RunWhile Dequeues p tr p')
    : Keeps p p' := by
  apply hrun.invariant (P := Keeps p)
  . intro p1 event signals p2 hdequeues hstep hkeeps
    exact hkeeps.trans (.step hdequeues hstep)
  . exact .refl p

/--
The requests that the arm has to answer, when the block of the first was read.
-/
inductive Owes (torrentIo : TorrentIo σ) : Arm → List PeerRequestedPiece → Prop where
  | select : Owes torrentIo .select []
  | answering (dequed : List PeerRequestedPiece) : Owes torrentIo (.answering dequed) dequed
  | sending (req : PeerRequestedPiece) (block : Bytes) (dequed : List PeerRequestedPiece)
      (hread : ∃ store store',
        torrentIo.readPiece store req.index req.begin req.length = (.ok block, store'))
      : Owes torrentIo (.sending req.peerId (.piece req.index req.begin block) dequed)
          (req :: dequed)

theorem failedReads_cons
    (hstep : (startTask build torrentIo config torrent).step p event = some (signals, p'))
    (tr : StartTrace)
    : failedReads build torrentIo config torrent p ((event, signals) :: tr)
        =
      (p.failedRead torrentIo event).toList ++ failedReads build torrentIo config torrent p' tr :=
  Machine.collect_cons _ _ hstep tr

theorem answersIn_cons (event : StartEvent) (signals : List Signal) (tr : StartTrace)
    : answersIn ((event, signals) :: tr) = signals.filterMap Signal.answer ++ answersIn tr :=
  List.flatMap_cons

/--
What was taken from the queue is answered, or its peer has left, up to a request whose own read
fails.
-/
theorem accounts_of_owes {p0 : TorrentProcessor σ} {reqs : List PeerRequestedPiece}
    (hrun : (startTask build torrentIo config torrent).RunWhile Dequeues p tr p')
    (hselect : p'.arm = .select) (hkeeps : Keeps p0 p) (howes : Owes torrentIo p.arm reqs)
    : p'.outstandingPeerRequests = p.outstandingPeerRequests
        ∧ Accounts torrentIo p0 p' reqs [] (answersIn tr)
            ((failedReads build torrentIo config torrent p tr).map Prod.fst)
            ((failedReads build torrentIo config torrent p tr).flatMap Prod.snd) := by
  induction hrun generalizing reqs with
  | nil p =>
    rw [hselect] at howes
    cases howes
    exact ⟨rfl, .nil⟩
  | @cons p p1 p' event signals tr hdequeues hstep hrun ih =>
    have hstays : Keeps p p' := (Keeps.step hdequeues hstep).trans (keeps_of_run hrun)
    have hdrains := drains_of_step hdequeues hstep
    replace ih := fun reqs => @ih reqs hselect (hkeeps.trans (.step hdequeues hstep))
    rw [answersIn_cons, failedReads_cons hstep]
    generalize p.arm = arm, p1.arm = arm1, p.outstandingPeerRequests = queue,
      p1.outstandingPeerRequests = queue1, signals.filterMap Signal.answer = answers,
      p.failedRead torrentIo event = failed at *
    cases hdrains with
    | waited => exact ih _ howes
    | dequeued => contradiction
    | skipped req dequed queue hlookup =>
      cases howes
      obtain ⟨hqueue, haccounts⟩ := ih _ (.answering dequed)
      refine ⟨hqueue, .left req ?_ haccounts⟩
      apply hkeeps.left hstays
      intro c conn hlookup'
      rw [hlookup] at hlookup'
      contradiction
    | read req dequed queue block hread =>
      cases howes
      exact ih _ (.sending req block dequed hread)
    | readFailed req dequed =>
      cases howes
      obtain ⟨hqueue, haccounts⟩ := ih _ .select
      refine ⟨hqueue, ?_⟩
      rw [← List.append_nil (req :: dequed)]
      exact Accounts.append (.unread req (accounts_lost dequed)) haccounts
    | answeredAll =>
      cases howes
      exact ih _ .select
    | sent peerId c msg dequed queue hlookup =>
      cases howes with
      | sending req block _ hread =>
        obtain ⟨hqueue, haccounts⟩ := ih _ (.answering dequed)
        refine ⟨hqueue, .answered req _ ⟨?_, rfl, rfl, hread⟩ haccounts⟩
        rw [← hkeeps.peerToTx_eq]
        exact hlookup
    | closed peerId msg dequed queue hclosed =>
      cases howes with
      | sending req block _ hread =>
        obtain ⟨hqueue, haccounts⟩ := ih _ (.answering dequed)
        exact ⟨hqueue, .left req (hkeeps.left hstays hclosed) haccounts⟩

theorem accounts_of_run
    (hrun : (startTask build torrentIo config torrent).RunWhile Dequeues p tr p')
    (harm : p.arm = .dequeueing) (hselect : p'.arm = .select)
    : Accounts torrentIo p p' p.outstandingPeerRequests p'.outstandingPeerRequests (answersIn tr)
        ((failedReads build torrentIo config torrent p tr).map Prod.fst)
        ((failedReads build torrentIo config torrent p tr).flatMap Prod.snd
          ++ p.outstandingPeerRequests[4]?.toList) := by
  suffices h : ∀ p0, Keeps p0 p →
      Accounts torrentIo p0 p' p.outstandingPeerRequests p'.outstandingPeerRequests (answersIn tr)
        ((failedReads build torrentIo config torrent p tr).map Prod.fst)
        ((failedReads build torrentIo config torrent p tr).flatMap Prod.snd
          ++ p.outstandingPeerRequests[4]?.toList) from h p (.refl p)
  intro p0 hkeeps
  induction hrun with
  | nil =>
    rw [hselect] at harm
    contradiction
  | @cons p p1 p' event signals tr hdequeues hstep hrun ih =>
    have hkeeps1 : Keeps p0 p1 := hkeeps.trans (.step hdequeues hstep)
    have hdrains := drains_of_step hdequeues hstep
    rw [answersIn_cons, failedReads_cons hstep]
    rw [harm] at hdrains
    generalize harm1 : p1.arm = arm1, hqueue1 : p1.outstandingPeerRequests = queue1,
      p.outstandingPeerRequests = queue, signals.filterMap Signal.answer = answers,
      p.failedRead torrentIo event = failed at *
    cases hdrains with
    | waited => exact ih rfl hselect hkeeps1
    | dequeued =>
      -- the limit parts the queue into those that are taken, the one that is lost and the rest
      have howes : Owes torrentIo p1.arm (queue.take 4) := by
        rw [harm1]
        exact .answering _
      obtain ⟨hqueue, haccounts⟩ := accounts_of_owes hrun hselect hkeeps1 howes
      rw [hqueue, hqueue1]
      have happend := (haccounts.append (accounts_lost queue[4]?.toList)).append
        (accounts_queued (queue.drop 5))
      simp only [List.append_nil, List.nil_append, List.append_assoc] at happend
      rw [← List.drop_eq_getElem?_toList_append, List.take_append_drop] at happend
      exact happend

/--
Each request that was queued is queued in its place, answered in its turn, of a peer that has left
or one whose own read failed.
-/
def LosesNothing (build : Build) (torrentIo : TorrentIo σ) (config : Config) (torrent : V1Torrent)
    (p : TorrentProcessor σ) (tr : StartTrace) (p' : TorrentProcessor σ) : Prop :=
  Accounts torrentIo p p' p.outstandingPeerRequests p'.outstandingPeerRequests (answersIn tr)
    ((failedReads build torrentIo config torrent p tr).map Prod.fst) []

/--
The peers of the fifth request in the queue and of those behind one whose read fails have left.
-/
structure PassesOverLeft (build : Build) (torrentIo : TorrentIo σ) (config : Config)
    (torrent : V1Torrent) (p : TorrentProcessor σ) (tr : StartTrace) (p' : TorrentProcessor σ)
    : Prop where
  fifth : ∀ req ∈ p.outstandingPeerRequests[4]?, Left p p' req.peerId
  behind : ∀ x ∈ failedReads build torrentIo config torrent p tr, ∀ req ∈ x.2,
    Left p p' req.peerId

theorem passesOverLeft_iff
    : PassesOverLeft build torrentIo config torrent p tr p'
        ↔
      ∀ req ∈ (failedReads build torrentIo config torrent p tr).flatMap Prod.snd
          ++ p.outstandingPeerRequests[4]?.toList,
        Left p p' req.peerId := by
  simp only [List.mem_append, List.mem_flatMap, Option.mem_toList]
  constructor
  . rintro ⟨hfifth, hbehind⟩ req (⟨x, hx, hreq⟩ | hreq)
    . exact hbehind x hx req hreq
    . exact hfifth req hreq
  . intro h
    exact ⟨fun req hreq => h req (.inr hreq), fun x hx req hreq => h req (.inl ⟨x, hx, hreq⟩)⟩

theorem passesOverLeft_of_losesNothing
    (hrun : (startTask build torrentIo config torrent).RunWhile Dequeues p tr p')
    (harm : p.arm = .dequeueing) (hselect : p'.arm = .select)
    (h : LosesNothing build torrentIo config torrent p tr p')
    : PassesOverLeft build torrentIo config torrent p tr p' := by
  rw [passesOverLeft_iff]
  exact (accounts_of_run hrun harm hselect).left_of_lost h (keeps_of_run hrun).peerToTx_eq

/--
Whatever is queued, whichever senders there are and whatever the reads return, taking from the queue
and answering loses no request exactly when the fifth of them and those behind a failing read are of
peers that have left.
-/
theorem losesNothing_iff_of_run (build : Build) (torrentIo : TorrentIo σ) (config : Config)
    (torrent : V1Torrent) (p p' : TorrentProcessor σ) (tr : StartTrace)
    (hrun : (startTask build torrentIo config torrent).RunWhile Dequeues p tr p')
    (harm : p.arm = .dequeueing) (hselect : p'.arm = .select)
    : LosesNothing build torrentIo config torrent p tr p'
        ↔
      PassesOverLeft build torrentIo config torrent p tr p' := by
  constructor
  . exact passesOverLeft_of_losesNothing hrun harm hselect
  . intro h
    apply (accounts_of_run hrun harm hselect).nothing_lost
    exact passesOverLeft_iff.mp h

def queuedStart (reqs : List PeerRequestedPiece) : TorrentProcessor MemoryTorrentIo :=
  { onePieceStart ⟨false, 8, 8, 1⟩ with
    outstandingPeerRequests := reqs
    peerToTx := Finmap.singleton [5] 0
    connections := [{
      peerId := [5]
      inbound := .new 8
      outbound := .new 8
      link := .selecting false
      handler := .receiving
    }]
    arm := .dequeueing }

/--
What was taken behind the first request and what is past the limit are of the peer `[6]`, which has
no sender.
-/
theorem losesNothing_sixth
    : ∃ tr p', (onePieceTask ⟨false, 8, 8, 1⟩).RunWhile Dequeues
          (queuedStart [⟨[5], 0, 0, 2⟩, ⟨[5], 7, 0, 2⟩, ⟨[6], 0, 0, 2⟩, ⟨[6], 0, 0, 2⟩,
            ⟨[6], 0, 0, 2⟩, ⟨[5], 0, 0, 2⟩]) tr p'
        ∧ p'.arm = .select
        ∧ LosesNothing ⟨true⟩ (MemoryTorrentIo.torrentIo ⟨true⟩) ⟨false, 8, 8, 1⟩
          (torrentFixture 2 2 [[1, 2]])
          (queuedStart [⟨[5], 0, 0, 2⟩, ⟨[5], 7, 0, 2⟩, ⟨[6], 0, 0, 2⟩, ⟨[6], 0, 0, 2⟩,
            ⟨[6], 0, 0, 2⟩, ⟨[5], 0, 0, 2⟩]) tr p' := by
  let p := queuedStart [⟨[5], 0, 0, 2⟩, ⟨[5], 7, 0, 2⟩, ⟨[6], 0, 0, 2⟩, ⟨[6], 0, 0, 2⟩,
    ⟨[6], 0, 0, 2⟩, ⟨[5], 0, 0, 2⟩]
  let guard : TorrentProcessor MemoryTorrentIo → StartEvent → Prop := Dequeues
  obtain ⟨tr, p', hrun, _, hstate⟩ :=
    ((onePieceTask ⟨false, 8, 8, 1⟩).restrict guard).exists_run_of_exec p
      (List.replicate 4 .advance)
      (fun x => (x.2.arm,
        failedReads ⟨true⟩ (MemoryTorrentIo.torrentIo ⟨true⟩) ⟨false, 8, 8, 1⟩
          (torrentFixture 2 2 [[1, 2]]) p x.1))
      (b := (.select, [(⟨[5], 7, 0, 2⟩, [⟨[6], 0, 0, 2⟩, ⟨[6], 0, 0, 2⟩])]))
      (by decide +kernel)
  rw [Prod.mk.injEq] at hstate
  obtain ⟨hselect, hfailed⟩ := hstate
  replace hrun := Machine.runWhile_of_restrict _ _ hrun
  have hleft : Left p p' [6] := by
    intro c _ hreaches
    have hlookup := hreaches.1
    rw [(keeps_of_run hrun).peerToTx_eq] at hlookup
    contradiction
  refine ⟨tr, p', hrun, hselect, ?_⟩
  apply (losesNothing_iff_of_run ⟨true⟩ (MemoryTorrentIo.torrentIo ⟨true⟩) ⟨false, 8, 8, 1⟩
    (torrentFixture 2 2 [[1, 2]]) p p' tr hrun rfl hselect).mpr
  constructor
  . intro req hmem
    cases hmem
    exact hleft
  . rw [hfailed]
    simpa using hleft

/--
The fifth of five requests is taken from the queue and dropped, and so is the one behind a request
of a piece that does not exist.
-/
theorem not_losesNothing
    : (∃ tr p', (onePieceTask ⟨false, 8, 8, 1⟩).RunWhile Dequeues
          (queuedStart (List.replicate 5 ⟨[5], 0, 0, 2⟩)) tr p'
        ∧ p'.arm = .select
        ∧ ¬LosesNothing ⟨true⟩ (MemoryTorrentIo.torrentIo ⟨true⟩) ⟨false, 8, 8, 1⟩
          (torrentFixture 2 2 [[1, 2]]) (queuedStart (List.replicate 5 ⟨[5], 0, 0, 2⟩)) tr p')
      ∧ ∃ tr p', (onePieceTask ⟨false, 8, 8, 1⟩).RunWhile Dequeues
          (queuedStart [⟨[5], 7, 0, 2⟩, ⟨[5], 0, 0, 2⟩]) tr p'
        ∧ p'.arm = .select
        ∧ ¬LosesNothing ⟨true⟩ (MemoryTorrentIo.torrentIo ⟨true⟩) ⟨false, 8, 8, 1⟩
          (torrentFixture 2 2 [[1, 2]]) (queuedStart [⟨[5], 7, 0, 2⟩, ⟨[5], 0, 0, 2⟩]) tr p' := by
  let guard : TorrentProcessor MemoryTorrentIo → StartEvent → Prop := Dequeues
  have hstays : ∀ {reqs tr p'}, (onePieceTask ⟨false, 8, 8, 1⟩).RunWhile Dequeues
      (queuedStart reqs) tr p' → (p'.connections[0]?).map (·.link) = some (.selecting false) →
      ¬Left (queuedStart reqs) p' [5] := by
    intro reqs tr p' hrun hlink hleft
    obtain ⟨conn, hget, hlink⟩ := Option.map_eq_some_iff.mp hlink
    refine hleft 0 Nat.zero_lt_one ⟨?_, conn, hget, ?_⟩
    . rw [(keeps_of_run hrun).peerToTx_eq]
      rfl
    . rw [hlink]
      decide
  constructor
  . obtain ⟨tr, p', hrun, _, hstate⟩ :=
      ((onePieceTask ⟨false, 8, 8, 1⟩).restrict guard).exists_run_of_exec
        (queuedStart (List.replicate 5 ⟨[5], 0, 0, 2⟩)) (List.replicate 10 .advance)
        (fun x => (x.2.arm, (x.2.connections[0]?).map (·.link)))
        (b := (.select, some (.selecting false))) (by decide +kernel)
    rw [Prod.mk.injEq] at hstate
    replace hrun := Machine.runWhile_of_restrict _ _ hrun
    refine ⟨tr, p', hrun, hstate.1, ?_⟩
    intro h
    apply hstays hrun hstate.2
    exact (passesOverLeft_of_losesNothing hrun rfl hstate.1 h).fifth ⟨[5], 0, 0, 2⟩ rfl
  . obtain ⟨tr, p', hrun, _, hstate⟩ :=
      ((onePieceTask ⟨false, 8, 8, 1⟩).restrict guard).exists_run_of_exec
        (queuedStart [⟨[5], 7, 0, 2⟩, ⟨[5], 0, 0, 2⟩]) (List.replicate 2 .advance)
        (fun x => (x.2.arm, (x.2.connections[0]?).map (·.link),
          failedReads ⟨true⟩ (MemoryTorrentIo.torrentIo ⟨true⟩) ⟨false, 8, 8, 1⟩
            (torrentFixture 2 2 [[1, 2]]) (queuedStart [⟨[5], 7, 0, 2⟩, ⟨[5], 0, 0, 2⟩]) x.1))
        (b := (.select, some (.selecting false), [(⟨[5], 7, 0, 2⟩, [⟨[5], 0, 0, 2⟩])]))
        (by decide +kernel)
    simp only [Prod.mk.injEq] at hstate
    obtain ⟨hselect, hlink, hfailed⟩ := hstate
    replace hrun := Machine.runWhile_of_restrict _ _ hrun
    refine ⟨tr, p', hrun, hselect, ?_⟩
    intro h
    apply hstays hrun hlink
    have hbehind := (passesOverLeft_of_losesNothing hrun rfl hselect h).behind
    rw [hfailed] at hbehind
    exact hbehind _ List.mem_cons_self ⟨[5], 0, 0, 2⟩ List.mem_cons_self

end TorrentProcessor
