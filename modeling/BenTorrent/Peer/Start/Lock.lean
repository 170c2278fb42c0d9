import BenTorrent.Peer.Start.Step

/-!
This module contains when the loop waits for a lock that a handler of its own holds.
-/

open Rust

namespace Arm

def holdsLock : Arm → Bool
  | .greeting _ _ => true
  | .dispatching _ => true
  | .choking _ => true
  | _ => false

end Arm

namespace TorrentProcessor

variable {σ : Type u} {p p' : TorrentProcessor σ} {c : Nat}

/--
A lock that the loop waits for is not with a handler.
-/
def LoopGetsLock (p : TorrentProcessor σ) : Prop :=
  p.arm.NeedsLock → ∀ c, p.lock.owner ≠ some (.handler c)

/--
A handler that signals a change of interest finds a slot in the channel of its peer, or the channel
closed.
-/
def SignalsAtOnce (p : TorrentProcessor σ) : StartEvent → Prop
  | .poll c => ∀ conn job, p.connections[c]? = some conn → conn.handler = .locking job →
      (p.lock.lock (.handler c)).1 = true →
      ∀ msg, (p.torrentState.handleJob conn.peerId job).1 = .signal msg →
        conn.link = .ended ∨ conn.outbound.HasSlot
  | _ => True

def Owned (lock : Mutex Party) (arm : Arm) : Prop :=
  lock.waiting = [] ∧ lock.owner = if arm.holdsLock then some .mainLoop else none

def NoneSignals (p : TorrentProcessor σ) : Prop :=
  p.ForallConn fun _ conn => (∀ msg, conn.handler ≠ .signalling msg)
    ∧ ∀ d, .handler d ∉ conn.outbound.senders

/--
Only the loop keeps the lock from one step to another.
-/
structure LockKept (p : TorrentProcessor σ) : Prop where
  coherent : p.Coherent
  owned : Owned p.lock p.arm
  noneSignals : p.NoneSignals

theorem LockKept.loopGetsLock (h : p.LockKept) : p.LoopGetsLock := by
  intro harm c
  rw [h.owned.2]
  split
  . simp
  . simp

theorem NoneSignals.update {f : PeerConnection → PeerConnection} (h : p.NoneSignals)
    (hf : ∀ conn, p.connections[c]? = some conn →
      (∀ msg, (f conn).handler = .signalling msg → conn.handler = .signalling msg)
        ∧ ∀ d, .handler d ∈ (f conn).outbound.senders → .handler d ∈ conn.outbound.senders)
    : (p.update c f).NoneSignals := by
  apply ForallConn.update h
  intro conn hget hconn
  obtain ⟨hhandler, hsenders⟩ := hf conn hget
  exact ⟨fun msg heq => hconn.1 msg (hhandler msg heq), fun d hmem => hconn.2 d (hsenders d hmem)⟩

theorem NoneSignals.setHandler (handler : Handler) (h : p.NoneSignals)
    (hhandler : ∀ msg, handler ≠ .signalling msg)
    : (p.setHandler c handler).NoneSignals := by
  apply h.update
  intro conn _
  exact ⟨fun msg heq => absurd heq (hhandler msg), fun d hmem => hmem⟩

theorem NoneSignals.delivered {msg : Messages} {delivery : Delivery} (h : p.NoneSignals)
    (hdelivered : p.Delivered .mainLoop c msg delivery p')
    : p'.NoneSignals := by
  cases hdelivered with
  | delivered conn outbound hget hopen hsend =>
    apply h.update
    intro conn1 hget1
    rw [hget, Option.some.injEq] at hget1
    subst hget1
    refine ⟨fun _ heq => heq, ?_⟩
    intro d hmem
    exact ((Channel.mem_senders_of_send_eq_true hsend).mp hmem).2
  | pending conn outbound hget hopen hsend =>
    apply h.update
    intro conn1 hget1
    rw [hget, Option.some.injEq] at hget1
    subst hget1
    refine ⟨fun _ heq => heq, ?_⟩
    intro d hmem
    rcases (Channel.mem_senders_of_send_eq_false hsend).mp hmem with heq | hmem
    . contradiction
    . exact hmem
  | closed => exact h

theorem NoneSignals.told {peerId : PeerId} {msg : Messages} {delivery : Delivery}
    {signals : List Signal} (h : p.NoneSignals) (htold : p.Told peerId msg delivery signals p')
    : p'.NoneSignals := by
  cases htold with
  | delivered c p1 _ hdelivered => exact h.delivered hdelivered
  | pending c p1 _ hdelivered => exact h.delivered hdelivered
  | closed => exact h

theorem Delivered.lock_eq {w : Party} {msg : Messages} {delivery : Delivery}
    (h : p.Delivered w c msg delivery p')
    : p'.lock = p.lock ∧ p'.arm = p.arm := by
  obtain ⟨f, rfl, _⟩ := h.update_eq
  exact ⟨rfl, rfl⟩

theorem Told.lock_eq {peerId : PeerId} {msg : Messages} {delivery : Delivery}
    {signals : List Signal} (h : p.Told peerId msg delivery signals p')
    : p'.lock = p.lock ∧ p'.arm = p.arm := by
  obtain ⟨_, f, rfl, _⟩ := h.update_eq
  exact ⟨rfl, rfl⟩

theorem owned_unlock {lock : Mutex Party} {arm : Arm} (h : lock.waiting = [])
    (harm : arm.holdsLock = false)
    : Owned lock.unlock arm := by
  rw [Mutex.unlock_of_waiting_eq_nil h]
  refine ⟨rfl, ?_⟩
  rw [harm]
  rfl

theorem Owned.lock_true {lock lock' : Mutex Party} {arm : Arm} {w : Party} (h : Owned lock arm)
    (hlock : lock.lock w = (true, lock'))
    : lock'.waiting = [] ∧ lock'.owner = some w := by
  obtain ⟨howner, hwaiting, _⟩ := Mutex.lock_eq_true hlock
  exact ⟨hwaiting.trans h.1, howner⟩

theorem Owned.lock_false {lock lock' : Mutex Party} {arm : Arm} {w : Party} (h : Owned lock arm)
    (harm : arm.holdsLock = false)
    : lock.lock w ≠ (false, lock') := by
  intro hlock
  obtain ⟨_, _, w', howner, _⟩ := Mutex.lock_eq_false hlock
  rw [h.2, harm] at howner
  contradiction

theorem Owned.lockPending {lock lock' : Mutex Party} {arm : Arm} (h : Owned lock arm)
    (hlock : lock.lock .mainLoop = (false, lock'))
    : False := by
  obtain ⟨_, _, w', howner, hne⟩ := Mutex.lock_eq_false hlock
  rw [h.2] at howner
  split at howner
  . rw [Option.some.injEq] at howner
    exact hne howner.symm
  . contradiction

theorem Owned.of_eq {lock : Mutex Party} {arm arm' : Arm} (h : Owned lock arm)
    (harm : arm'.holdsLock = arm.holdsLock)
    : Owned lock arm' := by
  unfold Owned
  rw [harm]
  exact h

theorem LockKept.advanced {torrentIo : TorrentIo σ} {torrent : V1Torrent} {signals : List Signal}
    (h : p.LockKept) (ha : p.Advanced torrentIo torrent signals p')
    : Owned p'.lock p'.arm ∧ p'.NoneSignals := by
  have hcoherent := h.coherent
  unfold Coherent at hcoherent
  have howned := h.owned
  have hpass : ∀ {peerId msg arm}, Passes p.arm peerId msg arm →
      arm.holdsLock = p.arm.holdsLock := by
    intro peerId msg arm hpasses
    generalize p.arm = arm' at hpasses
    cases hpasses with
    | _ => rfl
  cases ha with
  | lockPending lock hlock => exact absurd hlock fun hlock => howned.lockPending hlock
  | initConnection c lock harm hlock => exact ⟨howned.lock_true hlock, h.noneSignals⟩
  | greeted c msg msgs p1 harm hdelivered =>
    obtain ⟨hlock, _⟩ := hdelivered.lock_eq
    have hnone := h.noneSignals.delivered hdelivered
    refine ⟨?_, hnone⟩
    show Owned p1.lock _
    rw [hlock]
    exact howned.of_eq (by rw [harm]; rfl)
  | greetPending c msg msgs p1 harm hdelivered =>
    obtain ⟨hlock, harm'⟩ := hdelivered.lock_eq
    rw [hlock, harm']
    exact ⟨howned, h.noneSignals.delivered hdelivered⟩
  | greetClosed c msg msgs harm hclosed =>
    refine ⟨owned_unlock howned.1 rfl, ?_⟩
    exact NoneSignals.setHandler (p := p.unlock) .closed h.noneSignals (by simp)
  | registered c conn harm hget =>
    refine ⟨owned_unlock howned.1 rfl, ?_⟩
    exact NoneSignals.setHandler .receiving h.noneSignals (by simp)
  | closing c lock conn harm hlock hget =>
    refine ⟨owned_unlock (howned.lock_true hlock).1 rfl, ?_⟩
    exact NoneSignals.setHandler .closed h.noneSignals (by simp)
  | passed peerId msg arm delivery _ p1 hpasses htold hdone =>
    obtain ⟨hlock, _⟩ := htold.lock_eq
    have hnone := h.noneSignals.told htold
    refine ⟨?_, hnone⟩
    show Owned p1.lock _
    rw [hlock]
    exact howned.of_eq (hpass hpasses)
  | passPending peerId msg arm _ _ hpasses htold =>
    obtain ⟨hlock, harm'⟩ := htold.lock_eq
    rw [hlock, harm']
    exact ⟨howned, h.noneSignals.told htold⟩
  | announced pieceId harm => exact ⟨howned.of_eq (by rw [harm]; rfl), h.noneSignals⟩
  | queued req lock harm hlock =>
    have hwaiting := (howned.lock_true hlock).1
    obtain ⟨requests, heq⟩ := queueRequests_eq { p with lock } req
    rw [heq]
    exact ⟨owned_unlock hwaiting rfl, h.noneSignals⟩
  | dispatched req requests _ p1 harm htold =>
    obtain ⟨hlock, _⟩ := htold.lock_eq
    have hnone := h.noneSignals.told htold
    refine ⟨?_, hnone⟩
    show Owned p1.lock _
    rw [hlock]
    exact howned.of_eq (by rw [harm]; rfl)
  | dispatchPending req requests _ _ harm htold =>
    obtain ⟨hlock, harm'⟩ := htold.lock_eq
    rw [hlock, harm']
    exact ⟨howned, h.noneSignals.told htold⟩
  | undelivered req requests harm => exact ⟨howned.of_eq (by rw [harm]; rfl), h.noneSignals⟩
  | dispatchedAll harm => exact ⟨owned_unlock howned.1 rfl, h.noneSignals⟩
  | dequeued lock harm hlock =>
    exact ⟨owned_unlock (howned.lock_true hlock).1 rfl, h.noneSignals⟩
  | answerSkipped req dequed harm => exact ⟨howned.of_eq (by rw [harm]; rfl), h.noneSignals⟩
  | answerRead req dequed block io harm => exact ⟨howned.of_eq (by rw [harm]; rfl), h.noneSignals⟩
  | answerFailed req dequed e io harm => exact ⟨howned.of_eq (by rw [harm]; rfl), h.noneSignals⟩
  | answeredAll harm => exact ⟨howned.of_eq (by rw [harm]; rfl), h.noneSignals⟩
  | choked peerId choked combinedPeers _ _ harm =>
    rw [harm] at hcoherent
    contradiction
  | chokedAll harm => exact ⟨owned_unlock howned.1 rfl, h.noneSignals⟩
  | wokeUp wakeUp harm => exact ⟨howned.of_eq (by rw [harm]; rfl), h.noneSignals⟩
  | wakePending wakeUp harm => exact ⟨howned, h.noneSignals⟩

theorem NoneSignals.wake (h : p.NoneSignals) (msg : InternalStateMessage)
    : (p.wake c msg).NoneSignals := by
  have hnone : (p.setHandler c
      (if (p.wakeUp.send (.handler c) msg).1 then .receiving else .waking msg)).NoneSignals := by
    apply h.setHandler
    intro _
    split
    . simp
    . simp
  exact hnone

theorem LockKept.polled {signals : List Signal} (h : p.LockKept) (harm : p.arm = .select)
    (hguard : p.SignalsAtOnce (.poll c)) (hpolled : p.Polled c signals p')
    : Owned p'.lock p'.arm ∧ p'.NoneSignals := by
  have howned := h.owned
  cases hpolled with
  | received conn msg inbound hget hhandler hrecv =>
    refine ⟨howned, ?_⟩
    apply h.noneSignals.update
    intro conn1 hget1
    refine ⟨?_, fun d hmem => hmem⟩
    intro _ heq
    cases msg with
    | _ => contradiction
  | finished =>
    have hnone := h.noneSignals.setHandler (c := c) .finished (by simp)
    exact ⟨howned.of_eq (by rw [harm]; rfl), hnone⟩
  | lockPending conn job lock hget hhandler hlock =>
    exact absurd hlock (howned.lock_false (by rw [harm]; rfl))
  | signalled conn msg _ _ hget hhandler =>
    exact absurd hhandler ((h.noneSignals c conn hget).1 msg)
  | woken conn msg hget hhandler => exact ⟨howned, h.noneSignals.wake msg⟩
  | handled conn job lock next torrentState _ _ hget hhandler hlock hjob hproceeded =>
    have hfree : Owned lock.unlock p.arm :=
      owned_unlock (howned.lock_true hlock).1 (by rw [harm]; rfl)
    have hnone : { p with lock, torrentState }.NoneSignals := h.noneSignals
    cases hproceeded with
    | receive => exact ⟨hfree, hnone.setHandler .receiving (by simp)⟩
    | wake msg => exact ⟨hfree, NoneSignals.wake (p := { p with lock, torrentState }.unlock) hnone msg⟩
    | signal msg _ _ hsignalled =>
      cases hsignalled with
      | delivered p1 hdelivered =>
        cases hdelivered with
        | delivered conn1 outbound hget1 hopen hsend =>
          refine ⟨hfree, ?_⟩
          refine NoneSignals.wake ?_ .wakeup
          refine hnone.update ?_
          intro conn2 hget2
          rw [hget1, Option.some.injEq] at hget2
          subst hget2
          refine ⟨fun _ heq => heq, ?_⟩
          intro d hmem
          exact ((Channel.mem_senders_of_send_eq_true hsend).mp hmem).2
      | pending p1 hdelivered =>
        cases hdelivered with
        | pending conn1 outbound hget1 hopen hsend =>
          obtain rfl : conn = conn1 := by
            rw [hget, Option.some.injEq] at hget1
            exact hget1
          obtain ⟨_, _, _, _, _, _, hfull⟩ := Channel.send_eq_false hsend
          rcases hguard conn job hget hhandler (by rw [hlock]) msg (by rw [hjob]) with hended | hslot
          . contradiction
          . contradiction
      | closed hclosed =>
        have hnone' := hnone.setHandler (c := c) .finished (by simp)
        exact ⟨owned_unlock (howned.lock_true hlock).1 rfl, hnone'⟩

variable {build : Build} {torrentIo : TorrentIo σ} {config : Config} {torrent : V1Torrent}

theorem NoneSignals.of_ran {event : LinkEvent} {conn conn' : PeerConnection} (h : p.NoneSignals)
    (hget : p.connections[c]? = some conn) (hran : Ran conn event conn')
    : (p.update c fun _ => conn').NoneSignals := by
  apply h.update
  intro conn1 hget1
  rw [hget, Option.some.injEq] at hget1
  subst hget1
  obtain ⟨_, hhandler, hsenders, _⟩ := hran.frame
  rw [hhandler, hsenders]
  exact ⟨fun _ heq => heq, fun _ hmem => hmem⟩

theorem LockKept.stepped {event : StartEvent} {signals : List Signal} (h : p.LockKept)
    (hs : p.Stepped build torrentIo config torrent event signals p')
    (hguard : p.SignalsAtOnce event)
    : p'.LockKept := by
  have howned := h.owned
  suffices hkept : Owned p'.lock p'.arm ∧ p'.NoneSignals from
    ⟨h.coherent.stepped hs, hkept.1, hkept.2⟩
  cases hs with
  | connected =>
    refine ⟨howned, ?_⟩
    apply ForallConn.append h.noneSignals
    refine ⟨by simp, ?_⟩
    intro d hmem
    contradiction
  | linked c event conn conn' hget hran => exact ⟨howned, h.noneSignals.of_ran hget hran⟩
  | written c conn index begin block finished io =>
    have hnone := h.noneSignals.setHandler (c := c)
      (.locking (.reply { index, begin, finished })) (by simp)
    exact ⟨howned, hnone⟩
  | writeFailed c =>
    have hnone := h.noneSignals.setHandler (c := c) .failed (by simp)
    exact ⟨howned, hnone⟩
  | polled c _ _ harm hpolled => exact h.polled harm hguard hpolled
  | accepted c conn harm hget hhandler =>
    have hnone := h.noneSignals.setHandler (c := c) .accepted (by simp)
    exact ⟨howned.of_eq (by rw [harm]; rfl), hnone⟩
  | took peerIds msg wakeUp arm harm hrecv hstarts =>
    refine ⟨howned.of_eq ?_, h.noneSignals⟩
    rw [harm]
    cases hstarts with
    | _ => rfl
  | ticked harm => exact ⟨howned.of_eq (by rw [harm]; rfl), h.noneSignals⟩
  | advanced _ _ hadvanced => exact h.advanced hadvanced
  | lockPending _ lock _ hlock => exact absurd hlock fun hlock => howned.lockPending hlock
  | computed _ _ lock _ _ harm hlock => exact ⟨howned.lock_true hlock, h.noneSignals⟩
  | unchoked _ _ lock harm hlock => exact ⟨howned.lock_true hlock, h.noneSignals⟩
  | noneExpired now lock _ harm hlock =>
    exact ⟨owned_unlock (howned.lock_true hlock).1 rfl, h.noneSignals⟩
  | someExpired now lock _ _ _ harm hlock =>
    exact ⟨owned_unlock (howned.lock_true hlock).1 rfl, h.noneSignals⟩

theorem lockKept_new (config : Config) (torrent : V1Torrent) (io : σ)
    : (new config torrent io).LockKept := by
  refine ⟨trivial, ⟨rfl, rfl⟩, ?_⟩
  intro c conn hget
  contradiction

theorem LockKept.keepsLock {event : StartEvent} {signals : List Signal} (h : p.LockKept)
    (hs : p.Stepped build torrentIo config torrent event signals p')
    (hguard : ¬p.SignalsAtOnce event)
    : p'.arm = .select ∧ ∃ c, p'.lock.owner = some (.handler c) := by
  cases hs with
  | polled c _ _ harm hpolled =>
    simp only [SignalsAtOnce] at hguard
    push Not at hguard
    obtain ⟨conn, job, hget, hhandler, hlock, msg, hjob, hopen, hfull⟩ := hguard
    have hwaits : ∀ {job'}, conn.handler = .locking job' → job' = job := by
      intro job' hhandler'
      rw [hhandler, Handler.locking.injEq] at hhandler'
      exact hhandler'.symm
    have hconn : ∀ {conn'}, p.connections[c]? = some conn' → conn' = conn := by
      intro conn' hget'
      rw [hget, Option.some.injEq] at hget'
      exact hget'.symm
    cases hpolled with
    | handled conn1 job1 lock next torrentState _ _ hget1 hhandler1 hlock1 hjob1 hproceeded =>
      obtain rfl := hconn hget1
      obtain rfl := hwaits hhandler1
      rw [hjob1] at hjob
      obtain rfl : next = .signal msg := hjob
      cases hproceeded with
      | signal _ _ _ hsignalled =>
        cases hsignalled with
        | delivered p1 hdelivered =>
          cases hdelivered with
          | delivered conn2 outbound hget2 hopen2 hsend =>
            obtain rfl := hconn hget2
            obtain ⟨_, _, _, _, hslot⟩ := Channel.send_eq_true hsend
            rcases hslot with hgranted | hslot
            . exact absurd (List.mem_append_left _ hgranted) ((h.noneSignals c conn2 hget).2 c)
            . contradiction
        | pending p1 hdelivered =>
          obtain ⟨hlock2, harm2⟩ := hdelivered.lock_eq
          refine ⟨?_, c, ?_⟩
          . exact harm2.trans harm
          . rw [show (p1.setHandler c (.signalling msg)).lock = lock from hlock2]
            exact (Mutex.lock_eq_true hlock1).1
        | closed hclosed => exact absurd (hclosed conn1 hget1) hopen
    | lockPending conn1 job1 lock hget1 hhandler1 hlock1 =>
      rw [hlock1] at hlock
      contradiction
    | received conn1 _ _ hget1 hhandler1 =>
      obtain rfl := hconn hget1
      rw [hhandler] at hhandler1
      contradiction
    | finished conn1 hget1 hhandler1 =>
      obtain rfl := hconn hget1
      rw [hhandler] at hhandler1
      simp at hhandler1
    | signalled conn1 _ _ _ hget1 hhandler1 =>
      obtain rfl := hconn hget1
      rw [hhandler] at hhandler1
      contradiction
    | woken conn1 _ hget1 hhandler1 =>
      obtain rfl := hconn hget1
      rw [hhandler] at hhandler1
      contradiction
  | lockPending _ lock _ hlock => exact absurd hlock fun hlock => h.owned.lockPending hlock
  | _ =>
    simp only [SignalsAtOnce] at hguard
    contradiction

/--
The loop gets the lock in every state, and whatever it turns to next, if, and only if, every handler
that signals a change of interest does so at once.
-/
theorem loopGetsLock_iff_of_run (build : Build) (torrentIo : TorrentIo σ) (config : Config)
    (torrent : V1Torrent) (io : σ) (p : TorrentProcessor σ) (tr : StartTrace)
    (hrun : (startTask build torrentIo config torrent).Run (new config torrent io) tr p)
    : (startTask build torrentIo config torrent).RunWhile SignalsAtOnce (new config torrent io) tr p
        ↔
      ∀ tr1 tr2 p1, tr = tr1 ++ tr2 →
        (startTask build torrentIo config torrent).Run (new config torrent io) tr1 p1 →
        p1.LoopGetsLock ∧ ∀ event signals p2,
          (startTask build torrentIo config torrent).step p1 event = some (signals, p2) →
          p2.LoopGetsLock := by
  apply Machine.RunWhile.iff_of_invariant (P := fun _ p1 =>
    p1.LoopGetsLock ∧ ∀ event signals p2,
      (startTask build torrentIo config torrent).step p1 event = some (signals, p2) →
      p2.LoopGetsLock) (Q := fun _ p => p.LockKept) hrun
  . intro _ p1 event signals p2 h hstep hguard
    exact h.stepped (stepped_of_step hstep) hguard
  . intro _ p1 event signals p2 h hstep hguard hP
    obtain ⟨harm, c, howner⟩ := h.keepsLock (stepped_of_step hstep) hguard
    -- the timer finds the lock with the handler
    have htick : (startTask build torrentIo config torrent).step p2 .tick
        = some ([], p2.setArm .unchoking) := if_pos harm
    exact hP.2 .tick [] _ htick trivial c howner
  . intro _ p1 h
    refine ⟨h.loopGetsLock, ?_⟩
    intro event signals p2 hstep
    by_cases hguard : p1.SignalsAtOnce event
    . exact (h.stepped (stepped_of_step hstep) hguard).loopGetsLock
    . have harm := (h.keepsLock (stepped_of_step hstep) hguard).1
      intro hneeds
      rw [harm] at hneeds
      contradiction
  . exact lockKept_new config torrent io

def pollsWithSlot (p : TorrentProcessor σ) : StartEvent → Bool
  | .poll c => p.connections[c]?.all fun conn => decide conn.outbound.HasSlot
  | _ => true

theorem signalsAtOnce_of_pollsWithSlot {event : StartEvent} (h : p.pollsWithSlot event = true)
    : p.SignalsAtOnce event := by
  cases event with
  | poll c =>
    intro conn job hget _ _ msg _
    simp only [pollsWithSlot, hget, Option.all_some, decide_eq_true_iff] at h
    exact .inr h
  | _ => trivial

theorem loopGetsLock_haveWritten
    : ∃ tr p, (onePieceTask ⟨false, 3, 1, 1⟩).Run (onePieceStart ⟨false, 3, 1, 1⟩) tr p
        ∧ .sent 0 (.flag .interested) ∈ tr.flatMap (·.2) ∧ p.arm = .unchoking ∧ p.LoopGetsLock := by
  let guard (p : TorrentProcessor MemoryTorrentIo) (event : StartEvent) : Prop :=
    p.pollsWithSlot event = true
  obtain ⟨tr, p, hrun, _, hstate⟩ :=
    ((onePieceTask ⟨false, 3, 1, 1⟩).restrict guard).exists_run_of_exec
      (onePieceStart ⟨false, 3, 1, 1⟩)
      (greetingEvents 0 [5] ++ [.link 0 .write] ++ handlingEvents 0 (.have 0) ++ [.tick])
      (fun x => (decide (Signal.sent 0 (.flag .interested) ∈ x.1.flatMap (·.2)), x.2.arm))
      (b := (true, .unchoking)) (by decide +kernel)
  rw [Prod.mk.injEq, decide_eq_true_iff] at hstate
  have hwhile := Machine.runWhile_of_restrict _ _ hrun
  have hrun' : (onePieceTask ⟨false, 3, 1, 1⟩).Run (onePieceStart ⟨false, 3, 1, 1⟩) tr p :=
    hwhile.mono fun _ _ _ => trivial
  refine ⟨tr, p, hrun', hstate.1, hstate.2, ?_⟩
  exact ((loopGetsLock_iff_of_run ⟨true⟩ (MemoryTorrentIo.torrentIo ⟨true⟩) ⟨false, 3, 1, 1⟩
    (torrentFixture 2 2 [[1, 2]]) _ p tr hrun').mp
    (hwhile.mono fun _ _ => signalsAtOnce_of_pollsWithSlot) tr [] p (List.append_nil tr).symm
    hrun').1

theorem not_loopGetsLock_haveFull
    : ∃ tr p, (onePieceTask ⟨false, 3, 1, 1⟩).Run (onePieceStart ⟨false, 3, 1, 1⟩) tr p
        ∧ ¬p.LoopGetsLock := by
  obtain ⟨tr, p, hrun, _, hstate⟩ :=
    (onePieceTask ⟨false, 3, 1, 1⟩).exists_run_of_exec (onePieceStart ⟨false, 3, 1, 1⟩)
      (greetingEvents 0 [5] ++ handlingEvents 0 (.have 0) ++ [.tick])
      (fun x => (x.2.arm, x.2.lock.owner)) (b := (.unchoking, some (.handler 0)))
      (by decide +kernel)
  rw [Prod.mk.injEq] at hstate
  refine ⟨tr, p, hrun, ?_⟩
  intro h
  refine h ?_ 0 hstate.2
  rw [hstate.1]
  trivial

end TorrentProcessor
