import BenTorrent.Peer.Start.Reach
import BenTorrent.Peer.Start.State

/-!
This module contains that a wake-up stays on its way until the loop takes it.
-/

open Rust

def Handler.Waits : Handler → Prop
  | .locking _ => True
  | .signalling _ => True
  | .waking _ => True
  | _ => False

namespace TorrentProcessor

variable {σ : Type u} {p p' : TorrentProcessor σ} {c : Nat}

/--
The message is in the channel, or a handler waits to send it.
-/
def Pending (p : TorrentProcessor σ) (msg : InternalStateMessage) : Prop :=
  msg ∈ p.wakeUp.msgs ∨ ∃ c, p.HasHandler c (.waking msg)

def PendingStays (p p' : TorrentProcessor σ) : Prop :=
  ∀ msg, p.Pending msg → p'.Pending msg

theorem PendingStays.trans {p1 : TorrentProcessor σ} (h : PendingStays p p1)
    (h' : PendingStays p1 p')
    : PendingStays p p' :=
  fun msg hpending => h' msg (h msg hpending)

theorem pendingStays_of_hasHandler (hmsgs : p'.wakeUp.msgs = p.wakeUp.msgs)
    (hhandler : ∀ d msg, p.HasHandler d (.waking msg) → p'.HasHandler d (.waking msg))
    : PendingStays p p' := by
  rintro msg (hmem | ⟨d, hhas⟩)
  . left
    rwa [hmsgs]
  . exact .inr ⟨d, hhandler d msg hhas⟩

theorem hasHandler_update_of_ne {f : PeerConnection → PeerConnection} {d : Nat} {handler : Handler}
    {conn : PeerConnection} (h : p.HasHandler d handler) (hget : p.connections[c]? = some conn)
    (hne : conn.handler ≠ handler)
    : (p.update c f).HasHandler d handler := by
  obtain ⟨conn1, hget1, rfl⟩ := h
  refine ⟨conn1, getElem?_update.mpr ⟨conn1, hget1, ?_⟩, rfl⟩
  rw [if_neg]
  rintro rfl
  rw [hget, Option.some.injEq] at hget1
  rw [hget1] at hne
  contradiction

theorem pendingStays_setHandler (handler : Handler) {conn : PeerConnection}
    (hget : p.connections[c]? = some conn) (hne : ∀ msg, conn.handler ≠ .waking msg)
    : PendingStays p (p.setHandler c handler) := by
  refine pendingStays_of_hasHandler rfl ?_
  intro d msg hhas
  exact hasHandler_update_of_ne hhas hget (hne msg)

theorem hasHandler_delivered {w : Party} {msg : Messages} {delivery : Delivery} {d : Nat}
    {handler : Handler} (h : p.HasHandler d handler) (hdelivered : p.Delivered w c msg delivery p')
    : p'.HasHandler d handler := by
  obtain ⟨f, rfl, hf⟩ := hdelivered.update_eq
  apply hasHandler_update h
  intro conn
  rw [hf conn]

theorem hasHandler_told {peerId : PeerId} {msg : Messages} {delivery : Delivery}
    {signals : List Signal} {d : Nat} {handler : Handler} (h : p.HasHandler d handler)
    (htold : p.Told peerId msg delivery signals p')
    : p'.HasHandler d handler := by
  cases htold with
  | delivered c _ _ hdelivered => exact hasHandler_delivered h hdelivered
  | pending c _ _ hdelivered => exact hasHandler_delivered h hdelivered
  | closed => exact h

theorem Delivered.pendingStays {w : Party} {msg : Messages} {delivery : Delivery}
    (h : p.Delivered w c msg delivery p')
    : PendingStays p p' := by
  have hmsgs : p'.wakeUp.msgs = p.wakeUp.msgs := by
    obtain ⟨f, rfl, _⟩ := h.update_eq
    rfl
  exact pendingStays_of_hasHandler hmsgs fun _ _ hhas => hasHandler_delivered hhas h

theorem wakeUp_msgs_wake (p : TorrentProcessor σ) (c : Nat) (msg : InternalStateMessage)
    : ∀ msg' ∈ p.wakeUp.msgs, msg' ∈ (p.wake c msg).wakeUp.msgs := by
  intro msg' hmem
  obtain ⟨sent, wakeUp, hsend⟩ : ∃ sent wakeUp, p.wakeUp.send (.handler c) msg = (sent, wakeUp) :=
    ⟨_, _, rfl⟩
  show msg' ∈ (p.wakeUp.send (.handler c) msg).2.msgs
  rw [hsend]
  cases sent with
  | true =>
    rw [(Channel.send_eq_true hsend).2.1]
    exact List.mem_append_left _ hmem
  | false =>
    rw [(Channel.send_eq_false hsend).2.1]
    exact hmem

theorem pending_wake {conn : PeerConnection} (hget : p.connections[c]? = some conn)
    (msg : InternalStateMessage)
    : (p.wake c msg).Pending msg := by
  obtain ⟨sent, wakeUp, hsend⟩ : ∃ sent wakeUp, p.wakeUp.send (.handler c) msg = (sent, wakeUp) :=
    ⟨_, _, rfl⟩
  cases sent with
  | true =>
    left
    show msg ∈ (p.wakeUp.send (.handler c) msg).2.msgs
    rw [hsend, (Channel.send_eq_true hsend).2.1]
    simp
  | false =>
    right
    refine ⟨c, ?_⟩
    have hhas := hasHandler_setHandler hget
      (if (p.wakeUp.send (.handler c) msg).1 then .receiving else .waking msg)
    rw [hsend] at hhas
    unfold wake
    rw [hsend]
    exact hhas

theorem pendingStays_wake {conn : PeerConnection} {msg : InternalStateMessage}
    (hget : p.connections[c]? = some conn)
    (hwaking : ∀ msg', conn.handler = .waking msg' → msg' = msg)
    : PendingStays p (p.wake c msg) := by
  rintro msg' (hmem | ⟨d, hhas⟩)
  . exact .inl (wakeUp_msgs_wake p c msg msg' hmem)
  . by_cases heq : conn.handler = .waking msg'
    . obtain rfl := hwaking msg' heq
      exact pending_wake hget msg'
    . right
      have hhas' : (p.setHandler c (if (p.wakeUp.send (.handler c) msg).1 then .receiving
          else .waking msg)).HasHandler d (.waking msg') :=
        hasHandler_update_of_ne hhas hget heq
      exact ⟨d, hhas'⟩

theorem Signalled.pendingStays {msg : Messages} {signals : List Signal} {conn : PeerConnection}
    (h : p.Signalled c msg signals p') (hget : p.connections[c]? = some conn)
    (hne : ∀ msg', conn.handler ≠ .waking msg')
    : PendingStays p p' := by
  have hafter : ∀ {delivery p1}, p.Delivered (.handler c) c msg delivery p1 →
      ∃ conn1, p1.connections[c]? = some conn1 ∧ ∀ msg', conn1.handler ≠ .waking msg' := by
    intro delivery p1 hdelivered
    obtain ⟨conn1, hget1, hhandler⟩ := hasHandler_delivered ⟨conn, hget, rfl⟩ hdelivered
    rw [← hhandler] at hne
    exact ⟨conn1, hget1, hne⟩
  cases h with
  | delivered p1 hdelivered =>
    obtain ⟨conn1, hget1, hne1⟩ := hafter hdelivered
    have hwake : PendingStays p1.unlock (p1.unlock.wake c .wakeup) :=
      pendingStays_wake hget1 fun msg' heq => absurd heq (hne1 msg')
    exact hdelivered.pendingStays.trans hwake
  | pending p1 hdelivered =>
    obtain ⟨conn1, hget1, hne1⟩ := hafter hdelivered
    exact hdelivered.pendingStays.trans (pendingStays_setHandler _ hget1 hne1)
  | closed =>
    have hset : PendingStays p (p.setHandler c .finished) :=
      pendingStays_setHandler .finished hget hne
    exact hset

theorem Polled.pendingStays {signals : List Signal} (h : p.Polled c signals p')
    : PendingStays p p' := by
  cases h with
  | received conn msg inbound hget hhandler hrecv =>
    refine pendingStays_of_hasHandler rfl ?_
    intro d msg' hhas
    exact hasHandler_update_of_ne hhas hget (by simp [hhandler])
  | finished conn hget hhandler =>
    have hset : PendingStays p (p.setHandler c .finished) := by
      apply pendingStays_setHandler .finished hget
      intro msg'
      rcases hhandler with heq | heq
      . simp [heq]
      . simp [heq]
    exact hset
  | lockPending => exact fun _ hpending => hpending
  | handled conn job lock next torrentState _ _ hget hhandler hlock hjob hproceeded =>
    have hne : ∀ msg', conn.handler ≠ .waking msg' := by simp [hhandler]
    cases hproceeded with
    | receive =>
      have hset : PendingStays p (p.setHandler c .receiving) :=
        pendingStays_setHandler .receiving hget hne
      exact hset
    | wake msg =>
      exact pendingStays_wake (p := { p with lock, torrentState }.unlock) hget
        fun msg' heq => absurd heq (hne msg')
    | signal _ _ _ hsignalled =>
      exact Signalled.pendingStays (p := { p with lock, torrentState }) hsignalled hget hne
  | signalled conn msg _ _ hget hhandler hsignalled =>
    exact hsignalled.pendingStays hget (by simp [hhandler])
  | woken conn msg hget hhandler =>
    apply pendingStays_wake hget
    intro msg' heq
    rw [hhandler, Handler.waking.injEq] at heq
    exact heq.symm

variable {build : Build} {torrentIo : TorrentIo σ} {config : Config} {torrent : V1Torrent}

theorem Advanced.hasHandler {signals : List Signal} {d : Nat} {handler : Handler} (h : p.Coherent)
    (ha : p.Advanced torrentIo torrent signals p') (hhas : p.HasHandler d handler)
    (hwaits : handler.Waits)
    : p'.HasHandler d handler := by
  unfold Coherent at h
  have hset : ∀ {c} {handler1 : Handler} (handler' : Handler), p.HasHandler c handler1 →
      ¬handler1.Waits → (p.setHandler c handler').HasHandler d handler := by
    rintro c handler1 handler' ⟨conn, hget, rfl⟩ hnot
    apply hasHandler_update_of_ne hhas hget
    rintro rfl
    exact hnot hwaits
  cases ha with
  | greeted c msg msgs p1 harm hdelivered =>
    have hafter : p1.HasHandler d handler := hasHandler_delivered hhas hdelivered
    exact hafter
  | greetPending c msg msgs p1 harm hdelivered => exact hasHandler_delivered hhas hdelivered
  | greetClosed c msg msgs harm hclosed =>
    rw [harm] at h
    exact hset .closed h id
  | registered c conn harm hget =>
    rw [harm] at h
    exact hset .receiving h id
  | closing c lock conn harm hlock hget =>
    rw [harm] at h
    exact hset .closed h id
  | passed peerId msg arm _ _ p1 hpasses htold hdone =>
    have hafter : p1.HasHandler d handler := hasHandler_told hhas htold
    exact hafter
  | passPending peerId msg arm _ _ hpasses htold => exact hasHandler_told hhas htold
  | dispatched req requests _ p1 harm htold =>
    have hafter : p1.HasHandler d handler := hasHandler_told hhas htold
    exact hafter
  | dispatchPending req requests _ _ harm htold => exact hasHandler_told hhas htold
  | queued req lock harm hlock =>
    obtain ⟨requests, heq⟩ := queueRequests_eq { p with lock } req
    rw [heq]
    exact hhas
  | choked peerId choked combinedPeers _ _ harm =>
    rw [harm] at h
    contradiction
  | _ => exact hhas

theorem Advanced.mem_wakeUp {signals : List Signal} {msg : InternalStateMessage} (h : p.Coherent)
    (ha : p.Advanced torrentIo torrent signals p') (hmem : msg ∈ p.wakeUp.msgs)
    : msg ∈ p'.wakeUp.msgs := by
  unfold Coherent at h
  cases ha with
  | greeted c _ _ p1 harm hdelivered =>
    obtain ⟨f, rfl, _⟩ := hdelivered.update_eq
    exact hmem
  | greetPending c _ _ p1 harm hdelivered =>
    obtain ⟨f, rfl, _⟩ := hdelivered.update_eq
    exact hmem
  | passed peerId _ arm _ _ p1 hpasses htold hdone =>
    obtain ⟨_, f, rfl, _⟩ := htold.update_eq
    exact hmem
  | passPending peerId _ arm _ _ hpasses htold =>
    obtain ⟨_, f, rfl, _⟩ := htold.update_eq
    exact hmem
  | dispatched req requests _ p1 harm htold =>
    obtain ⟨_, f, rfl, _⟩ := htold.update_eq
    exact hmem
  | dispatchPending req requests _ _ harm htold =>
    obtain ⟨_, f, rfl, _⟩ := htold.update_eq
    exact hmem
  | queued req lock harm hlock =>
    obtain ⟨requests, heq⟩ := queueRequests_eq { p with lock } req
    rw [heq]
    exact hmem
  | choked peerId choked combinedPeers _ _ harm =>
    rw [harm] at h
    contradiction
  | wokeUp wakeUp harm hsend =>
    show msg ∈ wakeUp.msgs
    rw [(Channel.send_eq_true hsend).2.1]
    exact List.mem_append_left _ hmem
  | wakePending wakeUp harm hsend =>
    show msg ∈ wakeUp.msgs
    rwa [(Channel.send_eq_false hsend).2.1]
  | _ => exact hmem

theorem Stepped.hasHandler {event : StartEvent} {signals : List Signal} {d : Nat}
    {handler : Handler} (h : p.Coherent)
    (hs : p.Stepped build torrentIo config torrent event signals p') (hne : event ≠ .poll d)
    (hhas : p.HasHandler d handler) (hwaits : handler.Waits)
    : p'.HasHandler d handler := by
  have hset : ∀ {c} {conn : PeerConnection} (handler' : Handler), p.connections[c]? = some conn →
      ¬conn.handler.Waits → (p.setHandler c handler').HasHandler d handler := by
    intro c conn handler' hget hnot
    apply hasHandler_update_of_ne hhas hget
    rintro rfl
    exact hnot hwaits
  cases hs with
  | connected peerId =>
    obtain ⟨conn, hget, hhandler⟩ := hhas
    refine ⟨conn, ?_, hhandler⟩
    dsimp only
    rw [List.getElem?_append_left (List.getElem?_eq_some_iff.mp hget).1]
    exact hget
  | linked c event conn conn' hget hran =>
    obtain ⟨conn1, hget1, hhandler⟩ := hhas
    refine ⟨_, getElem?_update.mpr ⟨conn1, hget1, rfl⟩, ?_⟩
    split
    . next heq =>
      subst heq
      rw [hget, Option.some.injEq] at hget1
      rw [hran.frame.2.1, hget1, hhandler]
    . exact hhandler
  | written c conn index begin block finished io hget hhandler hwrite =>
    exact hset (.locking (.reply { index, begin, finished })) hget (by simp [hhandler, Handler.Waits])
  | writeFailed c conn index begin block e io hget hhandler hwrite =>
    exact hset .failed hget (by simp [hhandler, Handler.Waits])
  | polled c _ _ harm hpolled =>
    obtain ⟨⟨f, _, heq⟩, _⟩ := hpolled.touches
    obtain ⟨conn, hget, hhandler⟩ := hhas
    refine ⟨conn, ?_, hhandler⟩
    rw [heq, List.getElem?_modify_ne]
    . exact hget
    . rintro rfl
      exact hne rfl
  | accepted c conn harm hget hhandler =>
    exact hset .accepted hget (by simp [hhandler, Handler.Waits])
  | advanced _ _ hadvanced => exact hadvanced.hasHandler h hhas hwaits
  | took => exact hhas
  | ticked => exact hhas
  | lockPending => exact hhas
  | computed => exact hhas
  | unchoked => exact hhas
  | noneExpired => exact hhas
  | someExpired => exact hhas

theorem Stepped.pending {event : StartEvent} {signals : List Signal} {msg : InternalStateMessage}
    (h : p.Coherent) (hs : p.Stepped build torrentIo config torrent event signals p')
    (hpending : p.Pending msg)
    : p'.Pending msg ∨ Starts p' msg p'.arm := by
  rcases hpending with hmem | ⟨d, hhas⟩
  . cases hs with
    | polled c _ _ harm hpolled => exact .inl (hpolled.pendingStays msg (.inl hmem))
    | advanced _ _ hadvanced => exact .inl (.inl (hadvanced.mem_wakeUp h hmem))
    | took peerIds msg' wakeUp arm harm hrecv hstarts =>
      rw [(Channel.recv_eq_some hrecv).2.1, List.mem_cons] at hmem
      rcases hmem with rfl | hmem
      . right
        cases hstarts with
        | wakeup => exact .wakeup
        | pieceComplete pieceId peerIds hnodup hkeys =>
          exact .pieceComplete pieceId peerIds hnodup hkeys
        | peerRequestedPiece req => exact .peerRequestedPiece req
      . exact .inl (.inl hmem)
    | _ => exact .inl (.inl hmem)
  . left
    by_cases hpoll : event = .poll d
    . subst hpoll
      cases hs with
      | polled _ _ _ harm hpolled => exact hpolled.pendingStays msg (.inr ⟨d, hhas⟩)
      | lockPending _ _ hlocks => exact absurd hlocks id
    . exact .inr ⟨d, hs.hasHandler h hpoll hhas trivial⟩

end TorrentProcessor
