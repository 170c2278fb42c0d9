import BenTorrent.Peer.Start.State

/-!
This module contains what one step of the loop, of a handler or of a connection makes of each of the
connections.
-/

open Rust

inductive Follows : Next → Handler → Prop where
  | received : Follows .receive .receiving
  | woke (msg : InternalStateMessage) : Follows (.wake msg) .receiving
  | waking (msg : InternalStateMessage) : Follows (.wake msg) (.waking msg)
  | signalled (msg : Messages) : Follows (.signal msg) .receiving
  | signalledWaking (msg : Messages) : Follows (.signal msg) (.waking .wakeup)
  | signalling (msg : Messages) : Follows (.signal msg) (.signalling msg)
  | finished (msg : Messages) : Follows (.signal msg) .finished

/--
What a handler is after the next thing that it does or that the loop does with it.
-/
inductive Turns (state : TorrentState) (peerId : PeerId) : Handler → Handler → Prop where
  | accepted : Turns state peerId .queued .accepted
  | greeted : Turns state peerId .accepted .receiving
  | refused : Turns state peerId .accepted .closed
  | ended : Turns state peerId .receiving .finished
  | failed : Turns state peerId .failed .finished
  | forgotten : Turns state peerId .finished .closed
  | stored (index begin : UInt32) (block : Bytes) (finished : Bool)
      : Turns state peerId (.writing index begin block) (.locking (.reply { index, begin, finished }))
  | notStored (index begin : UInt32) (block : Bytes)
      : Turns state peerId (.writing index begin block) .failed
  | handled (job : Job) (handler : Handler)
      (hfollows : Follows (state.handleJob peerId job).1 handler)
      : Turns state peerId (.locking job) handler
  | signalled (msg : Messages) (handler : Handler) (hfollows : Follows (.signal msg) handler)
      : Turns state peerId (.signalling msg) handler
  | woken (msg : InternalStateMessage) (handler : Handler) (hfollows : Follows (.wake msg) handler)
      : Turns state peerId (.waking msg) handler

namespace TorrentProcessor

variable {σ : Type u} {p p' : TorrentProcessor σ} {c : Nat}

/--
What a connection is after a step. What waits for the peer only grows until the connection takes it.
-/
inductive Became (p : TorrentProcessor σ) (event : StartEvent) (c : Nat) (conn : PeerConnection)
    : PeerConnection → Prop where
  | kept (outbound : Channel Party Messages) (hgrows : conn.outbound.msgs <+: outbound.msgs)
      : Became p event c conn { conn with outbound }
  | turned (outbound : Channel Party Messages) (handler : Handler)
      (hgrows : conn.outbound.msgs <+: outbound.msgs)
      (hturns : Turns p.torrentState conn.peerId conn.handler handler)
      : Became p event c conn { conn with outbound, handler }
  | received (msg : Messages) (inbound : Channel Party Messages) (hevent : event = .poll c)
      (hhandler : conn.handler = .receiving) (hrecv : conn.inbound.recv = some (msg, inbound))
      : Became p event c conn { conn with inbound, handler := .ofMessage msg }
  | linked (linkEvent : LinkEvent) (conn' : PeerConnection) (hevent : event = .link c linkEvent)
      (hran : Ran conn linkEvent conn')
      : Became p event c conn conn'

def Develops (event : StartEvent) (p p' : TorrentProcessor σ) : Prop :=
  p'.ForallConn fun c conn' => ∃ conn, p.connections[c]? = some conn ∧ p.Became event c conn conn'

theorem Became.refl (event : StartEvent) (conn : PeerConnection)
    : p.Became event c conn conn :=
  .kept conn.outbound List.prefix_rfl

theorem develops_of_eq {event : StartEvent} (h : p'.connections = p.connections)
    : Develops event p p' := by
  intro d conn hget
  rw [h] at hget
  exact ⟨conn, hget, .refl event conn⟩

theorem develops_update {event : StartEvent} {f : PeerConnection → PeerConnection}
    (hself : ∀ conn, p.connections[c]? = some conn → p.Became event c conn (f conn))
    : Develops event p (p.update c f) := by
  apply forallConn_update
  . intro d conn hget _
    exact ⟨conn, hget, .refl event conn⟩
  . intro conn hget
    exact ⟨conn, hget, hself conn hget⟩

theorem develops_setHandler {event : StartEvent} {handler : Handler}
    (hturns : ∀ conn, p.connections[c]? = some conn →
      Turns p.torrentState conn.peerId conn.handler handler)
    : Develops event p (p.setHandler c handler) := by
  apply develops_update
  intro conn hget
  exact .turned conn.outbound handler List.prefix_rfl (hturns conn hget)

theorem Delivered.outbound {w : Party} {msg : Messages} {delivery : Delivery}
    (h : p.Delivered w c msg delivery p')
    : ∃ f : PeerConnection → PeerConnection, p' = p.update c f
        ∧ ∀ conn, p.connections[c]? = some conn →
          ∃ outbound, f conn = { conn with outbound } ∧ conn.outbound.msgs <+: outbound.msgs := by
  cases h with
  | delivered conn outbound hget hopen hsend =>
    refine ⟨_, rfl, ?_⟩
    intro conn' hget'
    rw [hget, Option.some.injEq] at hget'
    subst hget'
    refine ⟨outbound, rfl, ?_⟩
    rw [(Channel.send_eq_true hsend).2.1]
    apply List.prefix_append
  | pending conn outbound hget hopen hsend =>
    refine ⟨_, rfl, ?_⟩
    intro conn' hget'
    rw [hget, Option.some.injEq] at hget'
    subst hget'
    refine ⟨outbound, rfl, ?_⟩
    rw [(Channel.send_eq_false hsend).2.1]
  | closed =>
    refine ⟨id, ?_, fun conn _ => ⟨conn.outbound, rfl, List.prefix_rfl⟩⟩
    unfold update
    rw [List.modify_id]

theorem Delivered.develops {w : Party} {msg : Messages} {delivery : Delivery} {event : StartEvent}
    (h : p.Delivered w c msg delivery p')
    : Develops event p p' := by
  obtain ⟨f, rfl, hf⟩ := h.outbound
  apply develops_update
  intro conn hget
  obtain ⟨outbound, heq, hgrows⟩ := hf conn hget
  rw [heq]
  exact .kept outbound hgrows

theorem Told.develops {peerId : PeerId} {msg : Messages} {delivery : Delivery}
    {signals : List Signal} {event : StartEvent} (h : p.Told peerId msg delivery signals p')
    : Develops event p p' := by
  cases h with
  | delivered c _ _ hdelivered => exact hdelivered.develops
  | pending c _ _ hdelivered => exact hdelivered.develops
  | closed => exact develops_of_eq rfl

def Proceeds (c : Nat) (next : Next) (p p' : TorrentProcessor σ) : Prop :=
  ∃ f : PeerConnection → PeerConnection, p'.connections = p.connections.modify c f
    ∧ ∀ conn, p.connections[c]? = some conn → ∃ outbound handler,
      f conn = { conn with outbound, handler } ∧ conn.outbound.msgs <+: outbound.msgs
        ∧ Follows next handler

theorem proceeds_setHandler {next : Next} {handler : Handler} (h : Follows next handler)
    : Proceeds c next p (p.setHandler c handler) := by
  refine ⟨_, rfl, ?_⟩
  intro conn _
  exact ⟨conn.outbound, handler, rfl, List.prefix_rfl, h⟩

theorem proceeds_wake (msg : InternalStateMessage) : Proceeds c (.wake msg) p (p.wake c msg) := by
  have hfollows : Follows (.wake msg)
      (if (p.wakeUp.send (.handler c) msg).1 then .receiving else .waking msg) := by
    split
    . exact .woke msg
    . exact .waking msg
  exact proceeds_setHandler (p := p) hfollows

theorem Signalled.proceeds {msg : Messages} {signals : List Signal}
    (h : p.Signalled c msg signals p')
    : Proceeds c (.signal msg) p p' := by
  have hset : ∀ {w delivery handler} {p1 : TorrentProcessor σ}, p.Delivered w c msg delivery p1 →
      Follows (.signal msg) handler → Proceeds c (.signal msg) p (p1.setHandler c handler) := by
    intro w delivery handler p1 hdelivered hfollows
    obtain ⟨f, rfl, hf⟩ := hdelivered.outbound
    refine ⟨_, List.modify_modify_eq f _ c p.connections, ?_⟩
    intro conn hget
    obtain ⟨outbound, heq, hgrows⟩ := hf conn hget
    refine ⟨outbound, handler, ?_, hgrows, hfollows⟩
    rw [Function.comp_apply, heq]
  cases h with
  | delivered p1 hdelivered =>
    have hfollows : Follows (.signal msg)
        (if (p1.wakeUp.send (.handler c) .wakeup).1 then .receiving else .waking .wakeup) := by
      split
      . exact .signalled msg
      . exact .signalledWaking msg
    have hproceeds : Proceeds c (.signal msg) p (p1.setHandler c _) := hset hdelivered hfollows
    exact hproceeds
  | pending p1 hdelivered => exact hset hdelivered (.signalling msg)
  | closed => exact proceeds_setHandler (p := p) (.finished msg)

theorem Proceeded.proceeds {next : Next} {signals : List Signal}
    (h : p.Proceeded c next signals p')
    : Proceeds c next p p' := by
  cases h with
  | receive => exact proceeds_setHandler (p := p) .received
  | wake msg => exact proceeds_wake (p := p.unlock) msg
  | signal msg _ _ hsignalled => exact hsignalled.proceeds

theorem Proceeds.develops {next : Next} {event : StartEvent} (h : Proceeds c next p p')
    (hturns : ∀ conn handler, p.connections[c]? = some conn → Follows next handler →
      Turns p.torrentState conn.peerId conn.handler handler)
    : Develops event p p' := by
  obtain ⟨f, heq, hf⟩ := h
  have hdevelops : Develops event p (p.update c f) := by
    apply develops_update
    intro conn hget
    obtain ⟨outbound, handler, hconn, hgrows, hfollows⟩ := hf conn hget
    rw [hconn]
    exact .turned outbound handler hgrows (hturns conn handler hget hfollows)
  intro d conn' hget'
  rw [heq] at hget'
  exact hdevelops d conn' hget'

theorem Polled.develops {signals : List Signal} (h : p.Polled c signals p')
    : Develops (.poll c) p p' := by
  have hconn : ∀ {conn conn' : PeerConnection}, p.connections[c]? = some conn →
      p.connections[c]? = some conn' → conn = conn' := by
    intro conn conn' hget hget'
    rwa [hget, Option.some.injEq] at hget'
  cases h with
  | received conn msg inbound hget hhandler hrecv =>
    apply develops_update
    intro conn' hget'
    obtain rfl := hconn hget hget'
    exact .received msg inbound rfl hhandler hrecv
  | finished conn hget hhandler =>
    have hset : Develops (.poll c) p (p.setHandler c .finished) := by
      apply develops_setHandler
      intro conn' hget'
      obtain rfl := hconn hget hget'
      rcases hhandler with hhandler | hhandler
      . rw [hhandler]
        exact .ended
      . rw [hhandler]
        exact .failed
    exact hset
  | lockPending => exact develops_of_eq rfl
  | handled conn job lock next torrentState _ _ hget hhandler hlock hjob hproceeded =>
    have hproceeds : Proceeds c next p p' := hproceeded.proceeds
    apply hproceeds.develops
    intro conn' handler hget' hfollows
    obtain rfl := hconn hget hget'
    rw [hhandler]
    apply Turns.handled
    rwa [hjob]
  | signalled conn msg _ _ hget hhandler hsignalled =>
    apply hsignalled.proceeds.develops
    intro conn' handler hget' hfollows
    obtain rfl := hconn hget hget'
    rw [hhandler]
    exact .signalled msg handler hfollows
  | woken conn msg hget hhandler =>
    apply (proceeds_wake msg).develops
    intro conn' handler hget' hfollows
    obtain rfl := hconn hget hget'
    rw [hhandler]
    exact .woken msg handler hfollows

variable {build : Build} {torrentIo : TorrentIo σ} {config : Config} {torrent : V1Torrent}

theorem Advanced.develops {signals : List Signal} (h : p.Coherent)
    (ha : p.Advanced torrentIo torrent signals p')
    : Develops .advance p p' := by
  unfold Coherent at h
  have hset : ∀ {c} {handler handler' : Handler}, p.HasHandler c handler →
      (∀ peerId, Turns p.torrentState peerId handler handler') →
      Develops .advance p (p.setHandler c handler') := by
    intro c handler handler' hhas hturns
    apply develops_setHandler
    intro conn hget
    rw [hhas.handler_eq hget]
    exact hturns conn.peerId
  cases ha with
  | greeted c msg msgs p1 harm hdelivered =>
    have hdevelops : Develops .advance p p1 := hdelivered.develops
    exact hdevelops
  | greetPending c msg msgs p1 harm hdelivered => exact hdelivered.develops
  | greetClosed c msg msgs harm hclosed =>
    rw [harm] at h
    exact hset h fun _ => .refused
  | registered c conn harm hget =>
    rw [harm] at h
    exact hset h fun _ => .greeted
  | closing c lock conn harm hlock hget =>
    rw [harm] at h
    exact hset h fun _ => .forgotten
  | passed peerId msg arm _ _ p1 hpasses htold hdone =>
    have hdevelops : Develops .advance p p1 := htold.develops
    exact hdevelops
  | passPending peerId msg arm _ _ hpasses htold => exact htold.develops
  | dispatched req requests _ p1 harm htold =>
    have hdevelops : Develops .advance p p1 := htold.develops
    exact hdevelops
  | dispatchPending req requests _ _ harm htold => exact htold.develops
  | queued req lock harm hlock =>
    apply develops_of_eq
    obtain ⟨requests, heq⟩ := queueRequests_eq { p with lock } req
    rw [heq]
    rfl
  | choked peerId choked combinedPeers _ _ harm =>
    rw [harm] at h
    contradiction
  | _ => exact develops_of_eq rfl

theorem Stepped.develops {event : StartEvent} {signals : List Signal} (h : p.Coherent)
    (hs : p.Stepped build torrentIo config torrent event signals p')
    (hconnect : ∀ peerId, event ≠ .connect peerId)
    : Develops event p p' := by
  have hset : ∀ {d} {conn : PeerConnection} {handler : Handler}, p.connections[d]? = some conn →
      Turns p.torrentState conn.peerId conn.handler handler →
      Develops event p (p.setHandler d handler) := by
    intro d conn handler hget hturns
    apply develops_setHandler
    intro conn' hget'
    rw [hget, Option.some.injEq] at hget'
    rwa [← hget']
  cases hs with
  | connected peerId => exact absurd rfl (hconnect peerId)
  | linked d linkEvent conn conn' hget hran =>
    apply develops_update
    intro conn1 hget1
    rw [hget, Option.some.injEq] at hget1
    subst hget1
    exact .linked linkEvent conn' rfl hran
  | written d conn index begin block finished io hget hhandler hwrite =>
    exact hset hget (hhandler ▸ .stored index begin block finished)
  | writeFailed d conn index begin block e io hget hhandler hwrite =>
    exact hset hget (hhandler ▸ .notStored index begin block)
  | polled d _ _ harm hpolled => exact hpolled.develops
  | accepted d conn harm hget hhandler => exact hset hget (hhandler ▸ .accepted)
  | advanced _ _ hadvanced => exact hadvanced.develops h
  | took => exact develops_of_eq rfl
  | ticked => exact develops_of_eq rfl
  | lockPending => exact develops_of_eq rfl
  | computed => exact develops_of_eq rfl
  | unchoked => exact develops_of_eq rfl
  | noneExpired => exact develops_of_eq rfl
  | someExpired => exact develops_of_eq rfl

theorem Stepped.conn {event : StartEvent} {signals : List Signal} {conn' : PeerConnection}
    (h : p.Coherent) (hs : p.Stepped build torrentIo config torrent event signals p')
    (hget' : p'.connections[c]? = some conn')
    : (∃ conn, p.connections[c]? = some conn ∧ p.Became event c conn conn')
        ∨
      (∃ peerId, event = .connect peerId ∧ c = p.connections.length ∧ conn' = {
        peerId
        inbound := .new config.peerRxSize
        outbound := .new config.peerTxSize
        link := .selecting false
        handler := .queued
      }) := by
  by_cases hconnect : ∃ peerId, event = .connect peerId
  . obtain ⟨peerId, rfl⟩ := hconnect
    cases hs with
    | lockPending _ _ hlocks => exact absurd hlocks id
    | connected =>
      dsimp only at hget'
      rw [List.getElem?_append] at hget'
      split at hget'
      . exact .inl ⟨conn', hget', .refl _ conn'⟩
      . next hle =>
        rw [List.getElem?_singleton] at hget'
        split at hget'
        . next hzero =>
          rw [Option.some.injEq] at hget'
          exact .inr ⟨peerId, rfl, by omega, hget'.symm⟩
        . contradiction
  . left
    apply hs.develops h _ c conn' hget'
    intro peerId heq
    exact hconnect ⟨peerId, heq⟩

end TorrentProcessor
