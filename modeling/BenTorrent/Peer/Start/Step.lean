import BenTorrent.Peer.Start.Basic

/-!
This module contains what one step of the loop, of a handler or of a connection can do.
-/

open Rust

def Arm.NeedsLock : Arm → Prop
  | .initConnection _ => True
  | .closing _ => True
  | .queueing _ => True
  | .computing => True
  | .dequeueing => True
  | .unchoking => True
  | .expiring => True
  | _ => False

/--
From the end of the greeting until the loop has forgotten the peer.
-/
def Handler.IsConnected (handler : Handler) : Prop :=
  handler ≠ .queued ∧ handler ≠ .accepted ∧ handler ≠ .closed

namespace TorrentProcessor

variable {σ : Type u} {p p' : TorrentProcessor σ} {c : Nat}

theorem getElem?_update {f : PeerConnection → PeerConnection} {d : Nat} {conn' : PeerConnection}
    : (p.update c f).connections[d]? = some conn'
        ↔
      ∃ conn, p.connections[d]? = some conn ∧ conn' = if c = d then f conn else conn := by
  unfold update
  dsimp only
  rw [List.getElem?_modify, Option.map_eq_map, Option.map_eq_some_iff]
  constructor
  . intro ⟨conn, hget, heq⟩
    refine ⟨conn, hget, ?_⟩
    rw [← heq]
  . intro ⟨conn, hget, heq⟩
    refine ⟨conn, hget, ?_⟩
    rw [heq]

def ForallConn (p : TorrentProcessor σ) (φ : Nat → PeerConnection → Prop) : Prop :=
  ∀ c conn, p.connections[c]? = some conn → φ c conn

instance (φ : Nat → PeerConnection → Prop) [∀ c conn, Decidable (φ c conn)]
    : Decidable (p.ForallConn φ) :=
  decidable_of_iff (∀ c < p.connections.length, ∀ conn ∈ p.connections[c]?, φ c conn) <| by
    constructor
    . intro h c conn hget
      exact h c (List.getElem?_eq_some_iff.mp hget).1 conn hget
    . intro h c _ conn hget
      exact h c conn hget

theorem forallConn_update {f : PeerConnection → PeerConnection} {φ : Nat → PeerConnection → Prop}
    (hother : ∀ d conn, p.connections[d]? = some conn → c ≠ d → φ d conn)
    (hself : ∀ conn, p.connections[c]? = some conn → φ c (f conn))
    : (p.update c f).ForallConn φ := by
  intro d conn' hget'
  rw [getElem?_update] at hget'
  obtain ⟨conn, hget, rfl⟩ := hget'
  split
  . next heq =>
    subst heq
    exact hself conn hget
  . next hne => exact hother d conn hget hne

theorem ForallConn.update {f : PeerConnection → PeerConnection} {φ : Nat → PeerConnection → Prop}
    (h : p.ForallConn φ)
    (hself : ∀ conn, p.connections[c]? = some conn → φ c conn → φ c (f conn))
    : (p.update c f).ForallConn φ := by
  apply forallConn_update
  . intro d conn hget _
    exact h d conn hget
  . intro conn hget
    exact hself conn hget (h c conn hget)

theorem ForallConn.append {φ : Nat → PeerConnection → Prop} {conn : PeerConnection}
    (h : p.ForallConn φ) (hnew : φ p.connections.length conn)
    : ForallConn { p with connections := p.connections ++ [conn] } φ := by
  intro d conn' hget'
  rw [List.getElem?_append] at hget'
  split at hget'
  . exact h d conn' hget'
  . next hle =>
    rw [List.getElem?_singleton] at hget'
    split at hget'
    . next hzero =>
      rw [Option.some.injEq] at hget'
      have hd : d = p.connections.length := by omega
      rw [← hget', hd]
      exact hnew
    . contradiction

inductive Delivered (p : TorrentProcessor σ) (w : Party) (c : Nat) (msg : Messages)
    : Delivery → TorrentProcessor σ → Prop where
  | delivered (conn : PeerConnection) (outbound : Channel Party Messages)
      (hget : p.connections[c]? = some conn) (hopen : conn.link ≠ .ended)
      (hsend : conn.outbound.send w msg = (true, outbound))
      : Delivered p w c msg .delivered (p.update c fun conn => { conn with outbound })
  | pending (conn : PeerConnection) (outbound : Channel Party Messages)
      (hget : p.connections[c]? = some conn) (hopen : conn.link ≠ .ended)
      (hsend : conn.outbound.send w msg = (false, outbound))
      : Delivered p w c msg .pending (p.update c fun conn => { conn with outbound })
  | closed (hclosed : ∀ conn, p.connections[c]? = some conn → conn.link = .ended)
      : Delivered p w c msg .closed p

theorem delivered_of_deliver {w : Party} {msg : Messages} {delivery : Delivery}
    (h : p.deliver w c msg = (delivery, p'))
    : p.Delivered w c msg delivery p' := by
  unfold deliver at h
  split at h
  . next hget =>
    rw [Prod.mk.injEq] at h
    rw [← h.1, ← h.2]
    apply Delivered.closed
    intro conn hget'
    rw [hget] at hget'
    contradiction
  . next conn hget =>
    split at h
    . next hended =>
      rw [Prod.mk.injEq] at h
      rw [← h.1, ← h.2]
      apply Delivered.closed
      intro conn' hget'
      rw [hget, Option.some.injEq] at hget'
      rwa [← hget']
    . next hopen =>
      split at h
      . next outbound hsend =>
        rw [Prod.mk.injEq] at h
        rw [← h.1, ← h.2]
        exact .delivered conn outbound hget hopen hsend
      . next outbound hsend =>
        rw [Prod.mk.injEq] at h
        rw [← h.1, ← h.2]
        exact .pending conn outbound hget hopen hsend

theorem Delivered.update_eq {w : Party} {msg : Messages} {delivery : Delivery}
    (h : p.Delivered w c msg delivery p')
    : ∃ f : PeerConnection → PeerConnection, p' = p.update c f
        ∧ ∀ conn, f conn = { conn with outbound := (f conn).outbound } := by
  cases h with
  | delivered conn outbound => exact ⟨_, rfl, fun _ => rfl⟩
  | pending conn outbound => exact ⟨_, rfl, fun _ => rfl⟩
  | closed =>
    refine ⟨id, ?_, fun _ => rfl⟩
    unfold update
    rw [List.modify_id]

inductive Told (p : TorrentProcessor σ) (peerId : PeerId) (msg : Messages)
    : Delivery → List Signal → TorrentProcessor σ → Prop where
  | delivered (c : Nat) (p' : TorrentProcessor σ) (hlookup : p.peerToTx.lookup peerId = some c)
      (hdelivered : p.Delivered .mainLoop c msg .delivered p')
      : Told p peerId msg .delivered [.sent c msg] p'
  | pending (c : Nat) (p' : TorrentProcessor σ) (hlookup : p.peerToTx.lookup peerId = some c)
      (hdelivered : p.Delivered .mainLoop c msg .pending p')
      : Told p peerId msg .pending [] p'
  | closed (hclosed : ∀ c conn, p.peerToTx.lookup peerId = some c →
        p.connections[c]? = some conn → conn.link = .ended)
      : Told p peerId msg .closed [] p

theorem told_of_tell {peerId : PeerId} {msg : Messages} {delivery : Delivery}
    {signals : List Signal} (h : p.tell peerId msg = (delivery, signals, p'))
    : p.Told peerId msg delivery signals p' := by
  unfold tell at h
  split at h
  . next hlookup =>
    simp only [Prod.mk.injEq] at h
    obtain ⟨rfl, rfl, rfl⟩ := h
    apply Told.closed
    intro c conn hlookup'
    rw [hlookup] at hlookup'
    contradiction
  . next c hlookup =>
    split at h
    . next p1 hdeliver =>
      simp only [Prod.mk.injEq] at h
      obtain ⟨rfl, rfl, rfl⟩ := h
      exact .delivered c p1 hlookup (delivered_of_deliver hdeliver)
    . next p1 hdeliver =>
      simp only [Prod.mk.injEq] at h
      obtain ⟨rfl, rfl, rfl⟩ := h
      exact .pending c p1 hlookup (delivered_of_deliver hdeliver)
    . next p1 hdeliver =>
      simp only [Prod.mk.injEq] at h
      obtain ⟨rfl, rfl, rfl⟩ := h
      have hdelivered := delivered_of_deliver hdeliver
      cases hdelivered with
      | closed hclosed =>
        apply Told.closed
        intro c' conn hlookup' hget
        rw [hlookup, Option.some.injEq] at hlookup'
        apply hclosed conn
        rwa [hlookup']

theorem Told.update_eq {peerId : PeerId} {msg : Messages} {delivery : Delivery}
    {signals : List Signal} (h : p.Told peerId msg delivery signals p')
    : ∃ c, ∃ f : PeerConnection → PeerConnection, p' = p.update c f
        ∧ ∀ conn, f conn = { conn with outbound := (f conn).outbound } := by
  cases h with
  | delivered c p' _ hdelivered => exact ⟨c, hdelivered.update_eq⟩
  | pending c p' _ hdelivered => exact ⟨c, hdelivered.update_eq⟩
  | closed =>
    refine ⟨0, id, ?_, fun _ => rfl⟩
    unfold update
    rw [List.modify_id]

theorem Delivered.arm_eq {w : Party} {msg : Messages} {delivery : Delivery}
    (h : p.Delivered w c msg delivery p')
    : p'.arm = p.arm := by
  obtain ⟨f, rfl, _⟩ := h.update_eq
  rfl

theorem Told.arm_eq {peerId : PeerId} {msg : Messages} {delivery : Delivery}
    {signals : List Signal} (h : p.Told peerId msg delivery signals p')
    : p'.arm = p.arm := by
  obtain ⟨_, f, rfl, _⟩ := h.update_eq
  rfl

inductive Signalled (p : TorrentProcessor σ) (c : Nat) (msg : Messages)
    : List Signal → TorrentProcessor σ → Prop where
  | delivered (p' : TorrentProcessor σ) (hdelivered : p.Delivered (.handler c) c msg .delivered p')
      : Signalled p c msg [.sent c msg, .woke (.handler c) .wakeup] (p'.unlock.wake c .wakeup)
  | pending (p' : TorrentProcessor σ) (hdelivered : p.Delivered (.handler c) c msg .pending p')
      : Signalled p c msg [] (p'.setHandler c (.signalling msg))
  | closed (hclosed : ∀ conn, p.connections[c]? = some conn → conn.link = .ended)
      : Signalled p c msg [] (p.unlock.finish c)

theorem signalled_of_signal {msg : Messages} {signals : List Signal}
    (h : p.signal c msg = (signals, p'))
    : p.Signalled c msg signals p' := by
  unfold signal at h
  split at h
  . next p1 hdeliver =>
    rw [Prod.mk.injEq] at h
    rw [← h.1, ← h.2]
    exact .delivered p1 (delivered_of_deliver hdeliver)
  . next p1 hdeliver =>
    rw [Prod.mk.injEq] at h
    rw [← h.1, ← h.2]
    exact .pending p1 (delivered_of_deliver hdeliver)
  . next p1 hdeliver =>
    rw [Prod.mk.injEq] at h
    rw [← h.1, ← h.2]
    have hdelivered := delivered_of_deliver hdeliver
    cases hdelivered with
    | closed hclosed => exact .closed hclosed

inductive Proceeded (p : TorrentProcessor σ) (c : Nat)
    : Next → List Signal → TorrentProcessor σ → Prop where
  | receive : Proceeded p c .receive [] (p.unlock.setHandler c .receiving)
  | wake (msg : InternalStateMessage)
      : Proceeded p c (.wake msg) [.woke (.handler c) msg] (p.unlock.wake c msg)
  | signal (msg : Messages) (signals : List Signal) (p' : TorrentProcessor σ)
      (hsignalled : p.Signalled c msg signals p')
      : Proceeded p c (.signal msg) signals p'

theorem proceeded_of_proceed {next : Next} {signals : List Signal}
    (h : p.proceed c next = (signals, p'))
    : p.Proceeded c next signals p' := by
  unfold proceed at h
  cases next with
  | receive =>
    simp only [Prod.mk.injEq] at h
    rw [← h.1, ← h.2]
    exact .receive
  | wake msg =>
    simp only [Prod.mk.injEq] at h
    rw [← h.1, ← h.2]
    exact .wake msg
  | signal msg => exact .signal msg signals p' (signalled_of_signal h)

theorem Signalled.frame {msg : Messages} {signals : List Signal}
    (h : p.Signalled c msg signals p')
    : ∃ lock wakeUp connections arm, p' = { p with lock, wakeUp, connections, arm } := by
  cases h with
  | delivered p1 hdelivered =>
    obtain ⟨f, rfl, _⟩ := hdelivered.update_eq
    exact ⟨_, _, _, _, rfl⟩
  | pending p1 hdelivered =>
    obtain ⟨f, rfl, _⟩ := hdelivered.update_eq
    exact ⟨_, _, _, _, rfl⟩
  | closed => exact ⟨_, _, _, _, rfl⟩

theorem Proceeded.frame {next : Next} {signals : List Signal} (h : p.Proceeded c next signals p')
    : ∃ lock wakeUp connections arm, p' = { p with lock, wakeUp, connections, arm } := by
  cases h with
  | receive => exact ⟨_, _, _, _, rfl⟩
  | wake => exact ⟨_, _, _, _, rfl⟩
  | signal _ _ _ hsignalled => exact hsignalled.frame

theorem Signalled.torrentState_eq {msg : Messages} {signals : List Signal}
    (h : p.Signalled c msg signals p')
    : p'.torrentState = p.torrentState := by
  obtain ⟨_, _, _, _, rfl⟩ := h.frame
  rfl

theorem Proceeded.torrentState_eq {next : Next} {signals : List Signal}
    (h : p.Proceeded c next signals p')
    : p'.torrentState = p.torrentState := by
  obtain ⟨_, _, _, _, rfl⟩ := h.frame
  rfl

inductive Polled (p : TorrentProcessor σ) (c : Nat)
    : List Signal → TorrentProcessor σ → Prop where
  | received (conn : PeerConnection) (msg : Messages) (inbound : Channel Party Messages)
      (hget : p.connections[c]? = some conn) (hhandler : conn.handler = .receiving)
      (hrecv : conn.inbound.recv = some (msg, inbound))
      : Polled p c []
          (p.update c fun conn => { conn with inbound, handler := .ofMessage msg })
  | finished (conn : PeerConnection) (hget : p.connections[c]? = some conn)
      (hhandler : conn.handler = .receiving ∨ conn.handler = .failed)
      : Polled p c [] (p.finish c)
  | lockPending (conn : PeerConnection) (job : Job) (lock : Mutex Party)
      (hget : p.connections[c]? = some conn) (hhandler : conn.handler = .locking job)
      (hlock : p.lock.lock (.handler c) = (false, lock))
      : Polled p c [] { p with lock }
  | handled (conn : PeerConnection) (job : Job) (lock : Mutex Party) (next : Next)
      (torrentState : TorrentState) (signals : List Signal) (p' : TorrentProcessor σ)
      (hget : p.connections[c]? = some conn) (hhandler : conn.handler = .locking job)
      (hlock : p.lock.lock (.handler c) = (true, lock))
      (hjob : p.torrentState.handleJob conn.peerId job = (next, torrentState))
      (hproceeded : Proceeded { p with lock, torrentState } c next signals p')
      : Polled p c signals p'
  | signalled (conn : PeerConnection) (msg : Messages) (signals : List Signal)
      (p' : TorrentProcessor σ) (hget : p.connections[c]? = some conn)
      (hhandler : conn.handler = .signalling msg) (hsignalled : p.Signalled c msg signals p')
      : Polled p c signals p'
  | woken (conn : PeerConnection) (msg : InternalStateMessage)
      (hget : p.connections[c]? = some conn) (hhandler : conn.handler = .waking msg)
      : Polled p c [] (p.wake c msg)

theorem Polled.frame {signals : List Signal} (h : p.Polled c signals p')
    : ∃ torrentState lock wakeUp connections arm,
        p' = { p with torrentState, lock, wakeUp, connections, arm } := by
  cases h with
  | handled conn job lock next torrentState _ _ hget hhandler hlock hjob hproceeded =>
    obtain ⟨lock', wakeUp, connections, arm, rfl⟩ := hproceeded.frame
    exact ⟨_, _, _, _, _, rfl⟩
  | signalled conn msg _ _ hget hhandler hsignalled =>
    obtain ⟨lock, wakeUp, connections, arm, rfl⟩ := hsignalled.frame
    exact ⟨_, _, _, _, _, rfl⟩
  | _ => exact ⟨_, _, _, _, _, rfl⟩

theorem polled_of_poll {signals : List Signal} (h : p.poll c = some (signals, p'))
    : p.Polled c signals p' := by
  unfold poll at h
  split at h
  . contradiction
  . next conn hget =>
    split at h
    . next hhandler =>
      split at h
      . next msg inbound hrecv =>
        simp only [Option.some.injEq, Prod.mk.injEq] at h
        obtain ⟨rfl, rfl⟩ := h
        exact .received conn msg inbound hget hhandler hrecv
      . split at h
        . simp only [Option.some.injEq, Prod.mk.injEq] at h
          obtain ⟨rfl, rfl⟩ := h
          exact .finished conn hget (.inl hhandler)
        . contradiction
    . next hhandler =>
      simp only [Option.some.injEq, Prod.mk.injEq] at h
      obtain ⟨rfl, rfl⟩ := h
      exact .finished conn hget (.inr hhandler)
    . next job hhandler =>
      split at h
      . next lock hlock =>
        rw [Option.some.injEq] at h
        exact .handled conn job lock _ _ signals p' hget hhandler hlock rfl (proceeded_of_proceed h)
      . next lock hlock =>
        simp only [Option.some.injEq, Prod.mk.injEq] at h
        obtain ⟨rfl, rfl⟩ := h
        exact .lockPending conn job lock hget hhandler hlock
    . next msg hhandler =>
      rw [Option.some.injEq] at h
      exact .signalled conn msg signals p' hget hhandler (signalled_of_signal h)
    . next msg hhandler =>
      simp only [Option.some.injEq, Prod.mk.injEq] at h
      obtain ⟨rfl, rfl⟩ := h
      exact .woken conn msg hget hhandler
    . contradiction

theorem Polled.of_locking {signals : List Signal} {conn : PeerConnection} {job : Job}
    (h : p.Polled c signals p') (hget : p.connections[c]? = some conn)
    (hhandler : conn.handler = .locking job) (hacquires : (p.lock.lock (.handler c)).1 = true)
    : ∃ lock, p.lock.lock (.handler c) = (true, lock)
        ∧ Proceeded { p with lock, torrentState := (p.torrentState.handleJob conn.peerId job).2 } c
          (p.torrentState.handleJob conn.peerId job).1 signals p' := by
  have hconn : ∀ {conn'}, p.connections[c]? = some conn' → conn' = conn := by
    intro conn' hget'
    rw [hget, Option.some.injEq] at hget'
    exact hget'.symm
  cases h with
  | received conn' msg inbound hget' hhandler' =>
    rw [hconn hget', hhandler] at hhandler'
    contradiction
  | finished conn' hget' hhandler' =>
    rw [hconn hget', hhandler] at hhandler'
    simp at hhandler'
  | lockPending conn' job' lock hget' hhandler' hlock =>
    rw [hlock] at hacquires
    contradiction
  | handled conn' job' lock next torrentState _ _ hget' hhandler' hlock hjob hproceeded =>
    obtain rfl := hconn hget'
    rw [hhandler, Handler.locking.injEq] at hhandler'
    subst hhandler'
    rw [hjob]
    exact ⟨lock, hlock, hproceeded⟩
  | signalled conn' msg _ _ hget' hhandler' =>
    rw [hconn hget', hhandler] at hhandler'
    contradiction
  | woken conn' msg hget' hhandler' =>
    rw [hconn hget', hhandler] at hhandler'
    contradiction

inductive SentToProcessor (conn : PeerConnection) (msg : Messages) : PeerConnection → Prop where
  | gone (hgone : conn.handler.IsGone) : SentToProcessor conn msg { conn with link := .ended }
  | sent (inbound : Channel Party Messages) (hthere : ¬conn.handler.IsGone)
      (hsend : conn.inbound.send .runConnection msg = (true, inbound))
      : SentToProcessor conn msg { conn with inbound, link := .selecting false }
  | pending (inbound : Channel Party Messages) (hthere : ¬conn.handler.IsGone)
      (hsend : conn.inbound.send .runConnection msg = (false, inbound))
      : SentToProcessor conn msg { conn with inbound, link := .sending msg }

theorem sentToProcessor (conn : PeerConnection) (msg : Messages)
    : SentToProcessor conn msg (sendToProcessor conn msg) := by
  unfold sendToProcessor
  split
  . next hgone => exact .gone hgone
  . next hthere =>
    obtain ⟨sent, inbound, hsend⟩ :
      ∃ sent inbound, conn.inbound.send .runConnection msg = (sent, inbound) := ⟨_, _, rfl⟩
    dsimp only
    rw [hsend]
    cases sent with
    | true => exact .sent inbound hthere hsend
    | false => exact .pending inbound hthere hsend

inductive Ran (conn : PeerConnection) : LinkEvent → PeerConnection → Prop where
  | read (msg : Messages) (conn' : PeerConnection) (hlink : conn.link = .selecting false)
      (hsent : SentToProcessor conn msg conn')
      : Ran conn (.read msg) conn'
  | resumed (msg : Messages) (conn' : PeerConnection) (hlink : conn.link = .sending msg)
      (hsent : SentToProcessor conn msg conn')
      : Ran conn .resume conn'
  | eof (hlink : conn.link = .selecting false)
      : Ran conn .eof { conn with link := .selecting true }
  | wrote (readDone : Bool) (msg : Messages) (outbound : Channel Party Messages)
      (hlink : conn.link = .selecting readDone) (hrecv : conn.outbound.recv = some (msg, outbound))
      : Ran conn .write { conn with outbound, link := .selecting false }
  | writeFailed (readDone : Bool) (hlink : conn.link = .selecting readDone)
      : Ran conn .writeFails { conn with link := .ended }
  | hungUp (hlink : conn.link = .selecting true)
      : Ran conn .hangUp { conn with link := .ended }

theorem ran_of_runConnection {conn conn' : PeerConnection} {event : LinkEvent}
    (h : runConnection p c conn event = some conn')
    : Ran conn event conn' := by
  unfold runConnection at h
  split at h
  . split at h
    . next msg hlink =>
      rw [Option.some.injEq] at h
      rw [← h]
      exact .read msg _ hlink (sentToProcessor conn msg)
    . contradiction
  . split at h
    . next msg hlink =>
      rw [Option.some.injEq] at h
      rw [← h]
      exact .resumed msg _ hlink (sentToProcessor conn msg)
    . contradiction
  . split at h
    . next hlink =>
      rw [Option.some.injEq] at h
      rw [← h]
      exact .eof hlink
    . contradiction
  . split at h
    . next readDone msg outbound hlink hrecv =>
      rw [Option.some.injEq] at h
      rw [← h]
      exact .wrote readDone msg outbound hlink hrecv
    . contradiction
  . split at h
    . next readDone _ hlink _ =>
      rw [Option.some.injEq] at h
      rw [← h]
      exact .writeFailed readDone hlink
    . contradiction
  . split at h
    . next hlink =>
      rw [Option.some.injEq] at h
      rw [← h]
      exact .hungUp hlink.1
    . contradiction

theorem Ran.frame {conn conn' : PeerConnection} {event : LinkEvent} (h : Ran conn event conn')
    : conn'.peerId = conn.peerId ∧ conn'.handler = conn.handler
        ∧ conn'.outbound.senders = conn.outbound.senders ∧ conn.link ≠ .ended := by
  have hframe : ∀ {msg}, SentToProcessor conn msg conn' →
      conn'.peerId = conn.peerId ∧ conn'.handler = conn.handler
        ∧ conn'.outbound.senders = conn.outbound.senders := by
    intro msg hsent
    cases hsent with
    | _ => exact ⟨rfl, rfl, rfl⟩
  cases h with
  | read msg _ hlink hsent =>
    obtain ⟨hid, hhandler, hsenders⟩ := hframe hsent
    exact ⟨hid, hhandler, hsenders, by simp [hlink]⟩
  | resumed msg _ hlink hsent =>
    obtain ⟨hid, hhandler, hsenders⟩ := hframe hsent
    exact ⟨hid, hhandler, hsenders, by simp [hlink]⟩
  | eof hlink => exact ⟨rfl, rfl, rfl, by simp [hlink]⟩
  | wrote readDone msg outbound hlink hrecv =>
    exact ⟨rfl, rfl, (Channel.recv_eq_some hrecv).2.2.1, by simp [hlink]⟩
  | writeFailed readDone hlink => exact ⟨rfl, rfl, rfl, by simp [hlink]⟩
  | hungUp hlink => exact ⟨rfl, rfl, rfl, by simp [hlink]⟩

/--
The arms that send a message whose loss is only logged, with the arm after it.
-/
inductive Passes : Arm → PeerId → Messages → Arm → Prop where
  | announcing (pieceId : UInt32) (peerId : PeerId) (peerIds : List PeerId)
      : Passes (.announcing pieceId (peerId :: peerIds)) peerId (.have pieceId)
          (.announcing pieceId peerIds)
  | sending (peerId : PeerId) (msg : Messages) (dequed : List PeerRequestedPiece)
      : Passes (.sending peerId msg dequed) peerId msg (.answering dequed)

inductive Advanced (torrentIo : TorrentIo σ) (torrent : V1Torrent) (p : TorrentProcessor σ)
    : List Signal → TorrentProcessor σ → Prop where
  | lockPending (lock : Mutex Party) (hlock : p.lock.lock .mainLoop = (false, lock))
      (hneeds : p.arm.NeedsLock)
      : Advanced torrentIo torrent p [] { p with lock }
  | initConnection (c : Nat) (lock : Mutex Party) (harm : p.arm = .initConnection c)
      (hlock : p.lock.lock .mainLoop = (true, lock))
      : Advanced torrentIo torrent p []
          ({ p with lock }.setArm (.greeting c (p.initialMessages torrent)))
  | greeted (c : Nat) (msg : Messages) (msgs : List Messages) (p' : TorrentProcessor σ)
      (harm : p.arm = .greeting c (msg :: msgs))
      (hdelivered : p.Delivered .mainLoop c msg .delivered p')
      : Advanced torrentIo torrent p [.sent c msg] (p'.setArm (.greeting c msgs))
  | greetPending (c : Nat) (msg : Messages) (msgs : List Messages) (p' : TorrentProcessor σ)
      (harm : p.arm = .greeting c (msg :: msgs))
      (hdelivered : p.Delivered .mainLoop c msg .pending p')
      : Advanced torrentIo torrent p [] p'
  | greetClosed (c : Nat) (msg : Messages) (msgs : List Messages)
      (harm : p.arm = .greeting c (msg :: msgs))
      (hclosed : ∀ conn, p.connections[c]? = some conn → conn.link = .ended)
      : Advanced torrentIo torrent p [] ((p.unlock.setHandler c .closed).setArm .select)
  | registered (c : Nat) (conn : PeerConnection) (harm : p.arm = .greeting c [])
      (hget : p.connections[c]? = some conn)
      : Advanced torrentIo torrent p []
          (({ p with peerToTx := p.peerToTx.insert conn.peerId c }.unlock.setHandler c
            .receiving).setArm .select)
  | closing (c : Nat) (lock : Mutex Party) (conn : PeerConnection) (harm : p.arm = .closing c)
      (hlock : p.lock.lock .mainLoop = (true, lock)) (hget : p.connections[c]? = some conn)
      : Advanced torrentIo torrent p []
          (({ p with
            lock
            peerToTx := p.peerToTx.erase conn.peerId
            torrentState := p.torrentState.removePeer conn.peerId }.unlock.setHandler c
            .closed).setArm .select)
  | passed (peerId : PeerId) (msg : Messages) (arm : Arm) (delivery : Delivery)
      (signals : List Signal) (p' : TorrentProcessor σ) (hpasses : Passes p.arm peerId msg arm)
      (htold : p.Told peerId msg delivery signals p') (hdone : delivery ≠ .pending)
      : Advanced torrentIo torrent p signals (p'.setArm arm)
  | passPending (peerId : PeerId) (msg : Messages) (arm : Arm) (signals : List Signal)
      (p' : TorrentProcessor σ) (hpasses : Passes p.arm peerId msg arm)
      (htold : p.Told peerId msg .pending signals p')
      : Advanced torrentIo torrent p signals p'
  | announced (pieceId : UInt32) (harm : p.arm = .announcing pieceId [])
      : Advanced torrentIo torrent p [] (p.setArm .computing)
  | queued (req : PeerRequestedPiece) (lock : Mutex Party) (harm : p.arm = .queueing req)
      (hlock : p.lock.lock .mainLoop = (true, lock))
      : Advanced torrentIo torrent p []
          (({ p with lock }.queueRequests req).unlock.setArm .computing)
  | dispatched (req : PeerRequestedPiece) (requests : List PeerRequestedPiece)
      (signals : List Signal) (p' : TorrentProcessor σ)
      (harm : p.arm = .dispatching (req :: requests))
      (htold : p.Told req.peerId (.request req.index req.begin req.length) .delivered signals p')
      : Advanced torrentIo torrent p signals (p'.setArm (.dispatching requests))
  | dispatchPending (req : PeerRequestedPiece) (requests : List PeerRequestedPiece)
      (signals : List Signal) (p' : TorrentProcessor σ)
      (harm : p.arm = .dispatching (req :: requests))
      (htold : p.Told req.peerId (.request req.index req.begin req.length) .pending signals p')
      : Advanced torrentIo torrent p signals p'
  | undelivered (req : PeerRequestedPiece) (requests : List PeerRequestedPiece)
      (harm : p.arm = .dispatching (req :: requests))
      (hclosed : ∀ c conn, p.peerToTx.lookup req.peerId = some c →
        p.connections[c]? = some conn → conn.link = .ended)
      : Advanced torrentIo torrent p []
          ((p.setTracker (p.tracker.removeRequest req).2).setArm (.dispatching requests))
  | dispatchedAll (harm : p.arm = .dispatching [])
      : Advanced torrentIo torrent p [] (p.unlock.setArm .dequeueing)
  | dequeued (lock : Mutex Party) (harm : p.arm = .dequeueing)
      (hlock : p.lock.lock .mainLoop = (true, lock))
      : Advanced torrentIo torrent p [] ({ p with lock }.dequeueRequests.unlock)
  | answerSkipped (req : PeerRequestedPiece) (dequed : List PeerRequestedPiece)
      (harm : p.arm = .answering (req :: dequed)) (hlookup : p.peerToTx.lookup req.peerId = none)
      : Advanced torrentIo torrent p [] (p.setArm (.answering dequed))
  | answerRead (req : PeerRequestedPiece) (dequed : List PeerRequestedPiece) (block : Bytes)
      (io : σ) (harm : p.arm = .answering (req :: dequed))
      (hread : torrentIo.readPiece p.io req.index req.begin req.length = (.ok block, io))
      : Advanced torrentIo torrent p []
          ({ p with io }.setArm (.sending req.peerId (.piece req.index req.begin block) dequed))
  | answerFailed (req : PeerRequestedPiece) (dequed : List PeerRequestedPiece)
      (e : Fault AnyError) (io : σ) (harm : p.arm = .answering (req :: dequed))
      (hread : torrentIo.readPiece p.io req.index req.begin req.length = (.error e, io))
      : Advanced torrentIo torrent p [] ({ p with io }.setArm .select)
  | answeredAll (harm : p.arm = .answering []) : Advanced torrentIo torrent p [] (p.setArm .select)
  | choked (peerId : PeerId) (choked : Bool) (combinedPeers : List (PeerId × Bool))
      (signals : List Signal) (p' : TorrentProcessor σ)
      (harm : p.arm = .choking ((peerId, choked) :: combinedPeers))
      (hchoke : p.chokePeer peerId choked combinedPeers = (signals, p'))
      : Advanced torrentIo torrent p signals p'
  | chokedAll (harm : p.arm = .choking []) : Advanced torrentIo torrent p [] (p.unlock.setArm .expiring)
  | wokeUp (wakeUp : Channel Party InternalStateMessage) (harm : p.arm = .wakingUp)
      (hsend : p.wakeUp.send .mainLoop .wakeup = (true, wakeUp))
      : Advanced torrentIo torrent p
          (if .mainLoop ∈ p.wakeUp.senders then [] else [.woke .mainLoop .wakeup])
          ({ p with wakeUp }.setArm .select)
  | wakePending (wakeUp : Channel Party InternalStateMessage) (harm : p.arm = .wakingUp)
      (hsend : p.wakeUp.send .mainLoop .wakeup = (false, wakeUp))
      : Advanced torrentIo torrent p
          (if .mainLoop ∈ p.wakeUp.senders then [] else [.woke .mainLoop .wakeup])
          { p with wakeUp }

theorem queueRequests_eq (p : TorrentProcessor σ) (req : PeerRequestedPiece)
    : ∃ requests, p.queueRequests req = { p with outstandingPeerRequests := requests } := by
  unfold queueRequests
  split
  . exact ⟨_, rfl⟩
  . exact ⟨p.outstandingPeerRequests, rfl⟩

theorem withLock_eq_some {body : TorrentProcessor σ → Option (List Signal × TorrentProcessor σ)}
    {signals : List Signal} (h : p.withLock body = some (signals, p'))
    : (∃ lock, p.lock.lock .mainLoop = (true, lock) ∧ body { p with lock } = some (signals, p'))
        ∨
      (∃ lock, p.lock.lock .mainLoop = (false, lock) ∧ signals = [] ∧ p' = { p with lock }) := by
  unfold withLock at h
  split at h
  . next lock hlock => exact .inl ⟨lock, hlock, h⟩
  . next lock hlock =>
    simp only [Option.some.injEq, Prod.mk.injEq] at h
    exact .inr ⟨lock, hlock, h.1.symm, h.2.symm⟩

theorem tellThen_eq {peerId : PeerId} {msg : Messages} {arm : Arm} {signals : List Signal}
    (h : p.tellThen peerId msg arm = (signals, p'))
    : p.Told peerId msg .pending signals p'
        ∨
      ∃ delivery p1, delivery ≠ .pending ∧ p.Told peerId msg delivery signals p1
        ∧ p' = p1.setArm arm := by
  unfold tellThen at h
  split at h
  . next htell =>
    rw [Prod.mk.injEq] at h
    rw [← h.1, ← h.2]
    exact .inl (told_of_tell htell)
  . next delivery signals' p1 hpending htell =>
    rw [Prod.mk.injEq] at h
    rw [← h.1, ← h.2]
    exact .inr ⟨delivery, p1, hpending, told_of_tell htell, rfl⟩

variable {torrentIo : TorrentIo σ} {torrent : V1Torrent}

theorem advanced_of_passes {peerId : PeerId} {msg : Messages} {arm : Arm} {signals : List Signal}
    (hpasses : Passes p.arm peerId msg arm) (h : p.tellThen peerId msg arm = (signals, p'))
    : p.Advanced torrentIo torrent signals p' := by
  rcases tellThen_eq h with htold | ⟨delivery, p1, hdone, htold, rfl⟩
  . exact .passPending peerId msg arm signals p' hpasses htold
  . exact .passed peerId msg arm delivery signals p1 hpasses htold hdone

theorem advanced_of_greet {msgs : List Messages} {signals : List Signal}
    (harm : p.arm = .greeting c msgs) (h : p.greet c msgs = some (signals, p'))
    : p.Advanced torrentIo torrent signals p' := by
  cases msgs with
  | nil =>
    simp only [greet] at h
    split at h
    . contradiction
    . next conn hget =>
      simp only [Option.some.injEq, Prod.mk.injEq] at h
      obtain ⟨rfl, rfl⟩ := h
      exact .registered c conn harm hget
  | cons msg msgs =>
    simp only [greet] at h
    split at h
    . next p1 hdeliver =>
      simp only [Option.some.injEq, Prod.mk.injEq] at h
      obtain ⟨rfl, rfl⟩ := h
      exact .greeted c msg msgs p1 harm (delivered_of_deliver hdeliver)
    . next p1 hdeliver =>
      simp only [Option.some.injEq, Prod.mk.injEq] at h
      obtain ⟨rfl, rfl⟩ := h
      exact .greetPending c msg msgs p1 harm (delivered_of_deliver hdeliver)
    . next p1 hdeliver =>
      simp only [Option.some.injEq, Prod.mk.injEq] at h
      obtain ⟨rfl, rfl⟩ := h
      have hdelivered := delivered_of_deliver hdeliver
      cases hdelivered with
      | closed hclosed => exact .greetClosed c msg msgs harm hclosed

theorem advanced_of_dispatch {req : PeerRequestedPiece} {requests : List PeerRequestedPiece}
    {signals : List Signal} (harm : p.arm = .dispatching (req :: requests))
    (h : p.dispatch req requests = (signals, p'))
    : p.Advanced torrentIo torrent signals p' := by
  unfold dispatch at h
  split at h
  . next signals' p1 htell =>
    rw [Prod.mk.injEq] at h
    rw [← h.1, ← h.2]
    exact .dispatched req requests signals' p1 harm (told_of_tell htell)
  . next signals' p1 htell =>
    rw [Prod.mk.injEq] at h
    rw [← h.1, ← h.2]
    exact .dispatchPending req requests signals' p1 harm (told_of_tell htell)
  . next signals' p1 htell =>
    rw [Prod.mk.injEq] at h
    rw [← h.1, ← h.2]
    have htold := told_of_tell htell
    cases htold with
    | closed hclosed => exact .undelivered req requests harm hclosed

theorem advanced_of_answer {req : PeerRequestedPiece} {dequed : List PeerRequestedPiece}
    (harm : p.arm = .answering (req :: dequed))
    : p.Advanced torrentIo torrent [] (p.answer torrentIo req dequed) := by
  unfold answer
  split
  . next hlookup => exact .answerSkipped req dequed harm hlookup
  . split
    . next block io hread => exact .answerRead req dequed block io harm hread
    . next e io hread => exact .answerFailed req dequed e io harm hread

theorem advanced_of_sendWakeUp {signals : List Signal} (harm : p.arm = .wakingUp)
    (h : p.sendWakeUp = (signals, p'))
    : p.Advanced torrentIo torrent signals p' := by
  unfold sendWakeUp at h
  dsimp only at h
  split at h
  . next wakeUp hsend =>
    rw [Prod.mk.injEq] at h
    rw [← h.1, ← h.2]
    exact .wokeUp wakeUp harm hsend
  . next wakeUp hsend =>
    rw [Prod.mk.injEq] at h
    rw [← h.1, ← h.2]
    exact .wakePending wakeUp harm hsend

theorem advanced_of_advance {signals : List Signal}
    (h : p.advance torrentIo torrent = some (signals, p'))
    : p.Advanced torrentIo torrent signals p' := by
  unfold advance at h
  split at h
  . next c harm =>
    rcases withLock_eq_some h with ⟨lock, hlock, h⟩ | ⟨lock, hlock, rfl, rfl⟩
    . simp only [Option.some.injEq, Prod.mk.injEq] at h
      obtain ⟨rfl, rfl⟩ := h
      exact .initConnection c lock harm hlock
    . exact .lockPending lock hlock (by rw [harm]; trivial)
  . next c msgs harm => exact advanced_of_greet harm h
  . next c harm =>
    rcases withLock_eq_some h with ⟨lock, hlock, h⟩ | ⟨lock, hlock, rfl, rfl⟩
    . unfold close at h
      split at h
      . contradiction
      . next conn hget =>
        simp only [Option.some.injEq, Prod.mk.injEq] at h
        obtain ⟨rfl, rfl⟩ := h
        exact .closing c lock conn harm hlock hget
    . exact .lockPending lock hlock (by rw [harm]; trivial)
  . next pieceId peerId peerIds harm =>
    rw [Option.some.injEq] at h
    exact advanced_of_passes (harm ▸ .announcing pieceId peerId peerIds) h
  . next pieceId harm =>
    simp only [Option.some.injEq, Prod.mk.injEq] at h
    obtain ⟨rfl, rfl⟩ := h
    exact .announced pieceId harm
  . next req harm =>
    rcases withLock_eq_some h with ⟨lock, hlock, h⟩ | ⟨lock, hlock, rfl, rfl⟩
    . simp only [Option.some.injEq, Prod.mk.injEq] at h
      obtain ⟨rfl, rfl⟩ := h
      exact .queued req lock harm hlock
    . exact .lockPending lock hlock (by rw [harm]; trivial)
  . next req requests harm =>
    rw [Option.some.injEq] at h
    exact advanced_of_dispatch harm h
  . next harm =>
    simp only [Option.some.injEq, Prod.mk.injEq] at h
    obtain ⟨rfl, rfl⟩ := h
    exact .dispatchedAll harm
  . next harm =>
    rcases withLock_eq_some h with ⟨lock, hlock, h⟩ | ⟨lock, hlock, rfl, rfl⟩
    . simp only [Option.some.injEq, Prod.mk.injEq] at h
      obtain ⟨rfl, rfl⟩ := h
      exact .dequeued lock harm hlock
    . exact .lockPending lock hlock (by rw [harm]; trivial)
  . next req dequed harm =>
    simp only [Option.some.injEq, Prod.mk.injEq] at h
    obtain ⟨rfl, rfl⟩ := h
    exact advanced_of_answer harm
  . next harm =>
    simp only [Option.some.injEq, Prod.mk.injEq] at h
    obtain ⟨rfl, rfl⟩ := h
    exact .answeredAll harm
  . next peerId msg dequed harm =>
    rw [Option.some.injEq] at h
    exact advanced_of_passes (harm ▸ .sending peerId msg dequed) h
  . next peerId choked combinedPeers harm =>
    rw [Option.some.injEq] at h
    exact .choked peerId choked combinedPeers signals p' harm h
  . next harm =>
    simp only [Option.some.injEq, Prod.mk.injEq] at h
    obtain ⟨rfl, rfl⟩ := h
    exact .chokedAll harm
  . next harm =>
    rw [Option.some.injEq] at h
    exact advanced_of_sendWakeUp harm h
  . contradiction
  . contradiction
  . contradiction
  . contradiction

def Locks : StartEvent → Prop
  | .compute _ _ => True
  | .unchoke _ _ => True
  | .expire _ => True
  | _ => False

inductive Starts (p : TorrentProcessor σ) : InternalStateMessage → Arm → Prop where
  | wakeup : Starts p .wakeup .computing
  | pieceComplete (pieceId : UInt32) (peerIds : List PeerId) (hnodup : peerIds.Nodup)
      (hkeys : peerIds.toFinset = p.peerToTx.keys)
      : Starts p (.pieceComplete pieceId) (.announcing pieceId peerIds)
  | peerRequestedPiece (req : PeerRequestedPiece)
      : Starts p (.peerRequestedPiece req) (.queueing req)

inductive Stepped (build : Build) (torrentIo : TorrentIo σ) (config : Config) (torrent : V1Torrent)
    (p : TorrentProcessor σ) : StartEvent → List Signal → TorrentProcessor σ → Prop where
  | connected (peerId : PeerId)
      : Stepped build torrentIo config torrent p (.connect peerId) [] { p with
          connections := p.connections ++ [{
            peerId
            inbound := .new config.peerRxSize
            outbound := .new config.peerTxSize
            link := .selecting false
            handler := .queued
          }] }
  | linked (c : Nat) (event : LinkEvent) (conn conn' : PeerConnection)
      (hget : p.connections[c]? = some conn)
      (hran : Ran conn event conn')
      : Stepped build torrentIo config torrent p (.link c event) [] (p.update c fun _ => conn')
  | written (c : Nat) (conn : PeerConnection) (index begin : UInt32) (block : Bytes)
      (finished : Bool) (io : σ) (hget : p.connections[c]? = some conn)
      (hhandler : conn.handler = .writing index begin block)
      (hwrite : torrentIo.writePiece p.io index begin block = (.ok finished, io))
      : Stepped build torrentIo config torrent p (.io c) (if finished then [.written index] else [])
          { p.setHandler c (.locking (.reply { index, begin, finished })) with io }
  | writeFailed (c : Nat) (conn : PeerConnection) (index begin : UInt32) (block : Bytes)
      (e : Fault AnyError) (io : σ) (hget : p.connections[c]? = some conn)
      (hhandler : conn.handler = .writing index begin block)
      (hwrite : torrentIo.writePiece p.io index begin block = (.error e, io))
      : Stepped build torrentIo config torrent p (.io c) [] { p.setHandler c .failed with io }
  | polled (c : Nat) (signals : List Signal) (p' : TorrentProcessor σ) (harm : p.arm = .select)
      (hpolled : p.Polled c signals p')
      : Stepped build torrentIo config torrent p (.poll c) signals p'
  | accepted (c : Nat) (conn : PeerConnection) (harm : p.arm = .select)
      (hget : p.connections[c]? = some conn) (hhandler : conn.handler = .queued)
      : Stepped build torrentIo config torrent p (.accept c) []
          ((p.setHandler c .accepted).setArm (.initConnection c))
  | took (peerIds : List PeerId) (msg : InternalStateMessage)
      (wakeUp : Channel Party InternalStateMessage) (arm : Arm) (harm : p.arm = .select)
      (hrecv : p.wakeUp.recv = some (msg, wakeUp))
      (hstarts : Starts { p with wakeUp }.pruneClosedTx msg arm)
      : Stepped build torrentIo config torrent p (.recvWakeUp peerIds) [.took msg]
          ({ p with wakeUp }.pruneClosedTx.setArm arm)
  | ticked (harm : p.arm = .select)
      : Stepped build torrentIo config torrent p .tick [] (p.setArm .unchoking)
  | advanced (signals : List Signal) (p' : TorrentProcessor σ)
      (hadvanced : p.Advanced torrentIo torrent signals p')
      : Stepped build torrentIo config torrent p .advance signals p'
  | lockPending (event : StartEvent) (lock : Mutex Party) (hlocks : Locks event)
      (hlock : p.lock.lock .mainLoop = (false, lock))
      : Stepped build torrentIo config torrent p event [] { p with lock }
  | computed (availiablePieceToPeers : List (UInt32 × List PeerId)) (now : UInt32 → Nat)
      (lock : Mutex Party) (requests : List PeerRequestedPiece) (tracker : PieceBlockTracker)
      (harm : p.arm = .computing) (hlock : p.lock.lock .mainLoop = (true, lock))
      (hiterates : TorrentState.Iterates p.torrentState.pieceIdToPeers availiablePieceToPeers)
      (hassign : (p.tracker.generateAssignments build torrent now availiablePieceToPeers
        : Outcome AnyError _) = .ok (requests, tracker))
      : Stepped build torrentIo config torrent p (.compute availiablePieceToPeers now) []
          (({ p with lock }.setTracker tracker).setArm (.dispatching requests))
  | unchoked (newPotentialPeers peersThatLeft : List PeerId) (lock : Mutex Party)
      (harm : p.arm = .unchoking) (hlock : p.lock.lock .mainLoop = (true, lock))
      : Stepped build torrentIo config torrent p (.unchoke newPotentialPeers peersThatLeft) []
          ({ p with lock }.setArm (.choking []))
  | noneExpired (now : Nat) (lock : Mutex Party) (tracker : PieceBlockTracker)
      (harm : p.arm = .expiring) (hlock : p.lock.lock .mainLoop = (true, lock))
      (hexpire : p.tracker.removeExpired now = ([], tracker))
      : Stepped build torrentIo config torrent p (.expire now) []
          (({ p with lock }.setTracker tracker).unlock.setArm .select)
  | someExpired (now : Nat) (lock : Mutex Party) (req : PeerRequestedPiece)
      (requests : List PeerRequestedPiece) (tracker : PieceBlockTracker)
      (harm : p.arm = .expiring) (hlock : p.lock.lock .mainLoop = (true, lock))
      (hexpire : p.tracker.removeExpired now = (req :: requests, tracker))
      : Stepped build torrentIo config torrent p (.expire now) [.expired (req :: requests)]
          (({ p with lock }.setTracker tracker).unlock.setArm .wakingUp)

/--
`compute_unchoke` finds nobody to choke or unchoke: it looks outside of a set that contains all that
it picks from.
-/
theorem combinedPeers_eq_nil {state : TorrentState} {newPotentialPeers peersThatLeft : List PeerId}
    (hnew : newPotentialPeers.toFinset
      = state.peersThatAreInterested true \ state.stationaryPeerSet)
    (hleft : peersThatLeft.toFinset = state.unchokedPeers \ state.stationaryPeerSet)
    : state.combinedPeers newPotentialPeers peersThatLeft = [] := by
  have hnew' : newPotentialPeers = [] := by
    rw [← List.toFinset_eq_empty_iff, hnew, Finset.sdiff_eq_empty_iff_subset]
    apply Finset.subset_union_right
  have hleft' : peersThatLeft = [] := by
    rw [← List.toFinset_eq_empty_iff, hleft, Finset.sdiff_eq_empty_iff_subset]
    apply Finset.subset_union_left
  unfold TorrentState.combinedPeers
  dsimp only
  rw [hnew', hleft', List.take_nil]
  split
  . rfl
  . rfl

variable {build : Build} {config : Config}

theorem stepped_of_recvWakeUp {peerIds : List PeerId} {signals : List Signal}
    (harm : p.arm = .select) (h : p.recvWakeUp peerIds = some (signals, p'))
    : p.Stepped build torrentIo config torrent (.recvWakeUp peerIds) signals p' := by
  unfold recvWakeUp at h
  split at h
  . contradiction
  . next msg wakeUp hrecv =>
    dsimp only at h
    split at h
    . simp only [Option.some.injEq, Prod.mk.injEq] at h
      obtain ⟨rfl, rfl⟩ := h
      exact .took peerIds _ wakeUp _ harm hrecv .wakeup
    . next pieceId =>
      split at h
      . next hiterates =>
        simp only [Option.some.injEq, Prod.mk.injEq] at h
        obtain ⟨rfl, rfl⟩ := h
        exact .took peerIds _ wakeUp _ harm hrecv
          (.pieceComplete pieceId peerIds hiterates.1 hiterates.2)
      . contradiction
    . next req =>
      simp only [Option.some.injEq, Prod.mk.injEq] at h
      obtain ⟨rfl, rfl⟩ := h
      exact .took peerIds _ wakeUp _ harm hrecv (.peerRequestedPiece req)

theorem stepped_of_write {signals : List Signal} (h : p.write torrentIo c = some (signals, p'))
    : p.Stepped build torrentIo config torrent (.io c) signals p' := by
  unfold write at h
  split at h
  . contradiction
  . next conn hget =>
    split at h
    . next index begin block hhandler =>
      split at h
      . next finished io hwrite =>
        simp only [Option.some.injEq, Prod.mk.injEq] at h
        obtain ⟨rfl, rfl⟩ := h
        exact .written c conn index begin block finished io hget hhandler hwrite
      . next e io hwrite =>
        simp only [Option.some.injEq, Prod.mk.injEq] at h
        obtain ⟨rfl, rfl⟩ := h
        exact .writeFailed c conn index begin block e io hget hhandler hwrite
    . contradiction

theorem stepped_of_runConnectionAt {event : LinkEvent} {signals : List Signal}
    (h : p.runConnectionAt c event = some (signals, p'))
    : p.Stepped build torrentIo config torrent (.link c event) signals p' := by
  unfold runConnectionAt at h
  split at h
  . contradiction
  . next conn hget =>
    split at h
    . next conn' hrun =>
      simp only [Option.some.injEq, Prod.mk.injEq] at h
      obtain ⟨rfl, rfl⟩ := h
      exact .linked c event conn conn' hget (ran_of_runConnection hrun)
    . contradiction

theorem stepped_of_removeExpired {now : Nat} {signals : List Signal} {lock : Mutex Party}
    (harm : p.arm = .expiring) (hlock : p.lock.lock .mainLoop = (true, lock))
    (h : { p with lock }.removeExpired now = (signals, p'))
    : p.Stepped build torrentIo config torrent (.expire now) signals p' := by
  unfold removeExpired at h
  dsimp only at h
  split at h
  . next hexpire =>
    rw [Prod.mk.injEq] at h
    rw [← h.1, ← h.2]
    exact .noneExpired now lock _ harm hlock (Prod.ext hexpire rfl)
  . next req requests hexpire =>
    rw [Prod.mk.injEq] at h
    rw [← h.1, ← h.2, hexpire]
    exact .someExpired now lock req requests _ harm hlock (Prod.ext hexpire rfl)

theorem stepped_of_step {event : StartEvent} {signals : List Signal}
    (h : (startTask build torrentIo config torrent).step p event = some (signals, p'))
    : p.Stepped build torrentIo config torrent event signals p' := by
  cases event with
  | connect peerId =>
    simp only [startTask, connect] at h
    split at h
    . next p1 hconnect =>
      split at hconnect
      . contradiction
      . simp only [Option.some.injEq, Prod.mk.injEq] at h hconnect
        obtain ⟨rfl, rfl⟩ := h
        rw [← hconnect]
        exact .connected peerId
    . contradiction
  | link c event => exact stepped_of_runConnectionAt h
  | io c => exact stepped_of_write h
  | poll c =>
    simp only [startTask] at h
    split at h
    . next harm => exact .polled c signals p' harm (polled_of_poll h)
    . contradiction
  | accept c =>
    simp only [startTask, accept] at h
    split at h
    . next harm =>
      split at h
      . contradiction
      . next conn hget =>
        split at h
        . next hhandler =>
          simp only [Option.some.injEq, Prod.mk.injEq] at h
          obtain ⟨rfl, rfl⟩ := h
          exact .accepted c conn harm hget hhandler
        . contradiction
    . contradiction
  | recvWakeUp peerIds =>
    simp only [startTask] at h
    split at h
    . next harm => exact stepped_of_recvWakeUp harm h
    . contradiction
  | tick =>
    simp only [startTask] at h
    split at h
    . next harm =>
      simp only [Option.some.injEq, Prod.mk.injEq] at h
      obtain ⟨rfl, rfl⟩ := h
      exact .ticked harm
    . contradiction
  | advance => exact .advanced signals p' (advanced_of_advance h)
  | compute available now =>
    simp only [startTask] at h
    split at h
    . next harm =>
      rcases withLock_eq_some h with ⟨lock, hlock, h⟩ | ⟨lock, hlock, rfl, rfl⟩
      . unfold compute at h
        split at h
        . next hiterates =>
          split at h
          . next requests tracker hassign =>
            simp only [Option.some.injEq, Prod.mk.injEq] at h
            obtain ⟨rfl, rfl⟩ := h
            exact .computed available now lock requests tracker harm hlock hiterates hassign
          . contradiction
        . contradiction
      . exact .lockPending _ lock trivial hlock
    . contradiction
  | unchoke newPotentialPeers peersThatLeft =>
    simp only [startTask] at h
    split at h
    . next harm =>
      rcases withLock_eq_some h with ⟨lock, hlock, h⟩ | ⟨lock, hlock, rfl, rfl⟩
      . unfold computeUnchoke at h
        dsimp only at h
        split at h
        . next hsets =>
          rw [combinedPeers_eq_nil hsets.2.2.1 hsets.2.2.2] at h
          simp only [Option.some.injEq, Prod.mk.injEq] at h
          obtain ⟨rfl, rfl⟩ := h
          exact .unchoked newPotentialPeers peersThatLeft lock harm hlock
        . contradiction
      . exact .lockPending _ lock trivial hlock
    . contradiction
  | expire now =>
    simp only [startTask] at h
    split at h
    . next harm =>
      rcases withLock_eq_some h with ⟨lock, hlock, h⟩ | ⟨lock, hlock, rfl, rfl⟩
      . rw [Option.some.injEq] at h
        exact stepped_of_removeExpired harm hlock h
      . exact .lockPending _ lock trivial hlock
    . contradiction

def HasHandler (p : TorrentProcessor σ) (c : Nat) (handler : Handler) : Prop :=
  ∃ conn, p.connections[c]? = some conn ∧ conn.handler = handler

/--
An arm for a connection finds its handler where the select left it, and nobody is ever choked.
-/
def Coherent (p : TorrentProcessor σ) : Prop :=
  match p.arm with
  | .initConnection c => p.HasHandler c .accepted
  | .greeting c _ => p.HasHandler c .accepted
  | .closing c => p.HasHandler c .finished
  | .choking combinedPeers => combinedPeers = []
  | _ => True

theorem hasHandler_update {f : PeerConnection → PeerConnection} {d : Nat} {handler : Handler}
    (h : p.HasHandler d handler) (hf : ∀ conn, (f conn).handler = conn.handler)
    : (p.update c f).HasHandler d handler := by
  obtain ⟨conn, hget, rfl⟩ := h
  refine ⟨_, getElem?_update.mpr ⟨conn, hget, rfl⟩, ?_⟩
  split
  . exact hf conn
  . rfl

theorem hasHandler_setHandler {conn : PeerConnection} (hget : p.connections[c]? = some conn)
    (handler : Handler)
    : (p.setHandler c handler).HasHandler c handler := by
  refine ⟨_, getElem?_update.mpr ⟨conn, hget, rfl⟩, ?_⟩
  rw [if_pos rfl]

theorem HasHandler.handler_eq {handler : Handler} {conn : PeerConnection}
    (h : p.HasHandler c handler) (hget : p.connections[c]? = some conn)
    : conn.handler = handler := by
  obtain ⟨conn', hget', rfl⟩ := h
  rw [hget, Option.some.injEq] at hget'
  rw [hget']

theorem coherent_of_select (h : p.arm = .select) : p.Coherent := by
  unfold Coherent
  rw [h]
  trivial

theorem Coherent.of_hasHandler (h : p.Coherent) (harm : p'.arm = p.arm)
    (hhandler : ∀ d handler, p.HasHandler d handler → handler = .accepted ∨ handler = .finished →
      p'.HasHandler d handler)
    : p'.Coherent := by
  unfold Coherent at h ⊢
  rw [harm]
  split at h
  . exact hhandler _ _ h (.inl rfl)
  . exact hhandler _ _ h (.inl rfl)
  . exact hhandler _ _ h (.inr rfl)
  . exact h
  . trivial

theorem Coherent.delivered {w : Party} {msg : Messages} {delivery : Delivery} (h : p.Coherent)
    (hdelivered : p.Delivered w c msg delivery p')
    : p'.Coherent := by
  obtain ⟨f, rfl, hf⟩ := hdelivered.update_eq
  refine h.of_hasHandler rfl ?_
  intro d handler hhas _
  apply hasHandler_update hhas
  intro conn
  rw [hf conn]

theorem Coherent.told {peerId : PeerId} {msg : Messages} {delivery : Delivery}
    {signals : List Signal} (h : p.Coherent) (htold : p.Told peerId msg delivery signals p')
    : p'.Coherent := by
  obtain ⟨c, f, rfl, hf⟩ := htold.update_eq
  refine h.of_hasHandler rfl ?_
  intro d handler hhas _
  apply hasHandler_update hhas
  intro conn
  rw [hf conn]

theorem polled_arm {signals : List Signal} (harm : p.arm = .select) (h : p.Polled c signals p')
    : p'.arm = .select ∨ (p'.arm = .closing c ∧ p'.HasHandler c .finished) := by
  have hsignalled : ∀ {q q' : TorrentProcessor σ} {conn msg signals}, q.arm = .select →
      q.connections[c]? = some conn → q.Signalled c msg signals q' →
      q'.arm = .select ∨ (q'.arm = .closing c ∧ q'.HasHandler c .finished) := by
    intro q q' conn msg signals hq hget hs
    cases hs with
    | delivered p1 hdelivered =>
      obtain ⟨f, rfl, _⟩ := hdelivered.update_eq
      exact .inl hq
    | pending p1 hdelivered =>
      obtain ⟨f, rfl, _⟩ := hdelivered.update_eq
      exact .inl hq
    | closed =>
      have hhas : (q.unlock.setHandler c .finished).HasHandler c .finished :=
        hasHandler_setHandler hget .finished
      exact .inr ⟨rfl, hhas⟩
  cases h with
  | received => exact .inl harm
  | finished conn hget => exact .inr ⟨rfl, hasHandler_setHandler hget .finished⟩
  | lockPending => exact .inl harm
  | signalled _ _ _ _ hget _ hs => exact hsignalled harm hget hs
  | woken => exact .inl harm
  | handled conn job lock next torrentState _ _ hget hhandler hlock hjob hproceeded =>
    cases hproceeded with
    | receive => exact .inl harm
    | wake => exact .inl harm
    | signal _ _ _ hs => exact hsignalled (q := { p with lock, torrentState }) harm hget hs

theorem Coherent.advanced {signals : List Signal} (h : p.Coherent)
    (ha : p.Advanced torrentIo torrent signals p')
    : p'.Coherent := by
  cases ha with
  | lockPending => exact h
  | initConnection c lock harm =>
    unfold Coherent at h
    rw [harm] at h
    exact h
  | greeted c msg msgs p1 harm hdelivered =>
    have h1 := h.delivered hdelivered
    obtain ⟨f, rfl, _⟩ := hdelivered.update_eq
    unfold Coherent at h1
    rw [show (p.update c f).arm = .greeting c (msg :: msgs) from harm] at h1
    exact h1
  | greetPending c msg msgs p1 harm hdelivered => exact h.delivered hdelivered
  | passed peerId msg arm delivery _ p1 hpasses htold hdone =>
    generalize p.arm = arm' at hpasses
    cases hpasses with
    | announcing => trivial
    | sending => trivial
  | passPending peerId msg arm _ _ hpasses htold => exact h.told htold
  | dispatchPending req requests _ _ harm htold => exact h.told htold
  | choked peerId choked combinedPeers _ _ harm =>
    unfold Coherent at h
    rw [harm] at h
    contradiction
  | wakePending => exact h
  | _ => trivial

theorem hasHandler_written {f : PeerConnection → PeerConnection} {d : Nat} {handler : Handler}
    {conn : PeerConnection} {index begin : UInt32} {block : Bytes} (h : p.HasHandler d handler)
    (hold : handler = .accepted ∨ handler = .finished) (hget : p.connections[c]? = some conn)
    (hhandler : conn.handler = .writing index begin block)
    : (p.update c f).HasHandler d handler := by
  obtain ⟨conn1, hget1, rfl⟩ := h
  refine ⟨conn1, getElem?_update.mpr ⟨conn1, hget1, ?_⟩, rfl⟩
  rw [if_neg]
  rintro rfl
  rw [hget, Option.some.injEq] at hget1
  rw [← hget1, hhandler] at hold
  simp at hold

theorem Coherent.stepped {event : StartEvent} {signals : List Signal} (h : p.Coherent)
    (hs : p.Stepped build torrentIo config torrent event signals p')
    : p'.Coherent := by
  cases hs with
  | connected peerId =>
    refine h.of_hasHandler rfl ?_
    intro d handler ⟨conn, hget, hhandler⟩ _
    refine ⟨conn, ?_, hhandler⟩
    have hlt := (List.getElem?_eq_some_iff.mp hget).1
    dsimp only
    rw [List.getElem?_append_left hlt]
    exact hget
  | linked c event conn conn' hget hran =>
    refine h.of_hasHandler rfl ?_
    intro d handler ⟨conn1, hget1, hhandler⟩ _
    refine ⟨_, getElem?_update.mpr ⟨conn1, hget1, rfl⟩, ?_⟩
    split
    . next heq =>
      subst heq
      rw [hget, Option.some.injEq] at hget1
      rw [hran.frame.2.1, hget1, hhandler]
    . exact hhandler
  | written c conn index begin block finished io hget hhandler hwrite =>
    refine h.of_hasHandler rfl ?_
    intro d handler hhas hold
    have h' := hasHandler_written (f := fun conn => { conn with
      handler := .locking (.reply { index, begin, finished }) }) hhas hold hget hhandler
    exact h'
  | writeFailed c conn index begin block e io hget hhandler hwrite =>
    refine h.of_hasHandler rfl ?_
    intro d handler hhas hold
    have h' := hasHandler_written (f := fun conn => { conn with handler := .failed }) hhas hold
      hget hhandler
    exact h'
  | polled c _ _ harm hpolled =>
    rcases polled_arm harm hpolled with harm' | ⟨harm', hhas⟩
    . exact coherent_of_select harm'
    . unfold Coherent
      rw [harm']
      exact hhas
  | accepted c conn harm hget hhandler => exact hasHandler_setHandler hget .accepted
  | took peerIds msg wakeUp arm harm hrecv hstarts =>
    cases hstarts with
    | wakeup => trivial
    | pieceComplete => trivial
    | peerRequestedPiece => trivial
  | advanced _ _ hadvanced => exact h.advanced hadvanced
  | lockPending => exact h
  | unchoked => rfl
  | ticked => trivial
  | computed => trivial
  | noneExpired => trivial
  | someExpired => trivial

end TorrentProcessor
