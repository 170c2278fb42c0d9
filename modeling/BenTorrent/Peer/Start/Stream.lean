import BenTorrent.Peer.Start.Connection
import BenTorrent.Peer.Start.Reach

/-!
This module contains that the channels between a connection and the loop lose nothing and keep the
order: what the peer is sent in the end is what was put in, and what its handler handles is what was
read.
-/

open Rust

def Signal.toPeer (c : Nat) : Signal → Option Messages
  | .sent d msg => if d = c then some msg else none
  | _ => none

def sentTo (c : Nat) (signals : List Signal) : List Messages :=
  signals.filterMap (Signal.toPeer c)

/--
What was put in the channel to the peer of a connection, by the loop or by its handler.
-/
def sentIn (c : Nat) (tr : StartTrace) : List Messages :=
  tr.flatMap fun x => sentTo c x.2

def StartEvent.reads (c : Nat) : StartEvent → Option Messages
  | .link d (.read msg) => if d = c then some msg else none
  | _ => none

/--
What a connection has read from its peer.
-/
def readIn (c : Nat) (tr : StartTrace) : List Messages :=
  tr.filterMap fun x => x.1.reads c

def PeerConnection.arriving (conn : PeerConnection) : List Messages :=
  match conn.link with
  | .sending msg => conn.inbound.msgs ++ [msg]
  | _ => conn.inbound.msgs

namespace TorrentProcessor

variable {σ : Type u}

def outbox (p : TorrentProcessor σ) (c : Nat) : List Messages :=
  match p.connections[c]? with
  | some conn => conn.outbound.msgs
  | none => []

def inbox (p : TorrentProcessor σ) (c : Nat) : List Messages :=
  match p.connections[c]? with
  | some conn => conn.arriving
  | none => []

def writes (c : Nat) (p : TorrentProcessor σ) : StartEvent → Option Messages
  | .link d .write =>
    if d = c then
      match p.connections[c]? with
      | some conn => conn.outbound.recv.map Prod.fst
      | none => none
    else
      none
  | _ => none

def handles (c : Nat) (p : TorrentProcessor σ) : StartEvent → Option Messages
  | .poll d =>
    if d = c then
      match p.connections[c]? with
      | some conn => if conn.handler = .receiving then conn.inbound.recv.map Prod.fst else none
      | none => none
    else
      none
  | _ => none

variable {p p' : TorrentProcessor σ} {c : Nat}

def Posts (signals : List Signal) (p p' : TorrentProcessor σ) : Prop :=
  ∀ c, p'.outbox c = p.outbox c ++ sentTo c signals

theorem outbox_eq (h : p'.connections = p.connections) (c : Nat) : p'.outbox c = p.outbox c := by
  unfold outbox
  rw [h]

theorem outbox_update {f : PeerConnection → PeerConnection}
    (hf : ∀ conn, p.connections[c]? = some conn → (f conn).outbound.msgs = conn.outbound.msgs)
    (d : Nat)
    : (p.update c f).outbox d = p.outbox d := by
  unfold outbox update
  dsimp only
  rw [List.getElem?_modify]
  cases hget : p.connections[d]? with
  | none => rfl
  | some conn =>
    simp only [Option.map_eq_map, Option.map_some]
    split
    . next heq =>
      subst heq
      exact hf conn hget
    . rfl

theorem outbox_setHandler (handler : Handler) (d : Nat)
    : (p.setHandler c handler).outbox d = p.outbox d :=
  outbox_update (f := fun conn => { conn with handler }) (fun _ _ => rfl) d

theorem outbox_update_self {f : PeerConnection → PeerConnection} {conn : PeerConnection}
    (hget : p.connections[c]? = some conn) (d : Nat)
    : (p.update c f).outbox d = if d = c then (f conn).outbound.msgs else p.outbox d := by
  unfold outbox update
  dsimp only
  rw [List.getElem?_modify]
  by_cases hd : d = c
  . subst hd
    rw [hget, if_pos rfl]
    simp
  . simp [hd, Ne.symm hd]

theorem getElem?_concat (connections : List PeerConnection) (conn : PeerConnection) (d : Nat)
    : (connections ++ [conn])[d]? = connections[d]?
        ∨ (connections[d]? = none ∧ (connections ++ [conn])[d]? = some conn) := by
  rcases Nat.lt_trichotomy d connections.length with hlt | heq | hgt
  . exact .inl (List.getElem?_append_left hlt)
  . right
    rw [heq]
    simp
  . left
    rw [List.getElem?_eq_none (by simp; omega), List.getElem?_eq_none (by omega)]

theorem posts_of_eq {signals : List Signal} (h : ∀ c, p'.outbox c = p.outbox c)
    (hsent : ∀ c, sentTo c signals = [])
    : Posts signals p p' := by
  intro c
  rw [h, hsent, List.append_nil]

theorem Delivered.posts {w : Party} {msg : Messages} (h : p.Delivered w c msg .delivered p')
    : Posts [.sent c msg] p p' := by
  cases h with
  | delivered conn outbound hget hopen hsend =>
    intro d
    rw [outbox_update_self hget]
    split
    . next hd =>
      subst hd
      rw [(Channel.send_eq_true hsend).2.1]
      simp [outbox, hget, sentTo, Signal.toPeer]
    . next hd => simp [sentTo, Signal.toPeer, Ne.symm hd]

theorem Delivered.outbox_eq {w : Party} {msg : Messages} {delivery : Delivery}
    (h : p.Delivered w c msg delivery p') (hnot : delivery ≠ .delivered) (d : Nat)
    : p'.outbox d = p.outbox d := by
  cases h with
  | delivered => contradiction
  | pending conn outbound hget hopen hsend =>
    apply outbox_update
    intro conn' hget'
    rw [hget, Option.some.injEq] at hget'
    rw [← hget', (Channel.send_eq_false hsend).2.1]
  | closed => rfl

theorem Told.posts {peerId : PeerId} {msg : Messages} {delivery : Delivery} {signals : List Signal}
    (h : p.Told peerId msg delivery signals p')
    : Posts signals p p' := by
  cases h with
  | delivered c _ _ hdelivered => exact hdelivered.posts
  | pending c _ _ hdelivered => exact posts_of_eq (hdelivered.outbox_eq (by simp)) fun _ => rfl
  | closed => exact posts_of_eq (fun _ => rfl) fun _ => rfl

theorem Signalled.posts {msg : Messages} {signals : List Signal} (h : p.Signalled c msg signals p')
    : Posts signals p p' := by
  cases h with
  | delivered p1 hdelivered =>
    intro d
    have hwake : (p1.unlock.wake c .wakeup).outbox d = p1.outbox d := outbox_setHandler (p := p1) _ d
    rw [hwake, hdelivered.posts d]
    rfl
  | pending p1 hdelivered =>
    apply posts_of_eq _ fun _ => rfl
    intro d
    rw [outbox_setHandler, hdelivered.outbox_eq (by simp)]
  | closed => exact posts_of_eq (outbox_setHandler (p := p) .finished) fun _ => rfl

theorem Proceeded.posts {next : Next} {signals : List Signal} (h : p.Proceeded c next signals p')
    : Posts signals p p' := by
  cases h with
  | receive => exact posts_of_eq (outbox_setHandler (p := p) .receiving) fun _ => rfl
  | wake msg => exact posts_of_eq (outbox_setHandler (p := p) _) fun _ => rfl
  | signal _ _ _ hsignalled => exact hsignalled.posts

theorem Polled.posts {signals : List Signal} (h : p.Polled c signals p') : Posts signals p p' := by
  cases h with
  | received conn msg inbound =>
    have hbox := outbox_update (p := p) (c := c)
      (f := fun conn => { conn with inbound, handler := .ofMessage msg }) fun _ _ => rfl
    exact posts_of_eq hbox fun _ => rfl
  | finished => exact posts_of_eq (outbox_setHandler (p := p) .finished) fun _ => rfl
  | lockPending => exact posts_of_eq (fun _ => rfl) fun _ => rfl
  | handled conn job lock next torrentState _ _ hget hhandler hlock hjob hproceeded =>
    have hposts := hproceeded.posts
    exact hposts
  | signalled conn msg _ _ hget hhandler hsignalled => exact hsignalled.posts
  | woken conn msg => exact posts_of_eq (outbox_setHandler (p := p) _) fun _ => rfl

variable {build : Build} {torrentIo : TorrentIo σ} {config : Config} {torrent : V1Torrent}

theorem Advanced.posts {signals : List Signal} (h : p.Coherent)
    (ha : p.Advanced torrentIo torrent signals p')
    : Posts signals p p' := by
  unfold Coherent at h
  have hwoke : ∀ d, sentTo d (if .mainLoop ∈ p.wakeUp.senders then [] else [.woke .mainLoop .wakeup])
      = [] := by
    intro d
    split
    . rfl
    . rfl
  cases ha with
  | greeted c msg msgs p1 harm hdelivered =>
    have hposts := hdelivered.posts
    exact hposts
  | greetPending c msg msgs p1 harm hdelivered =>
    exact posts_of_eq (hdelivered.outbox_eq (by simp)) fun _ => rfl
  | greetClosed c => exact posts_of_eq (outbox_setHandler (p := p) .closed) fun _ => rfl
  | registered c => exact posts_of_eq (outbox_setHandler (p := p) .receiving) fun _ => rfl
  | closing c => exact posts_of_eq (outbox_setHandler (p := p) .closed) fun _ => rfl
  | passed peerId msg arm _ _ p1 hpasses htold hdone =>
    have hposts := htold.posts
    exact hposts
  | passPending peerId msg arm _ _ hpasses htold => exact htold.posts
  | dispatched req requests _ p1 harm htold =>
    have hposts := htold.posts
    exact hposts
  | dispatchPending req requests _ _ harm htold => exact htold.posts
  | queued req lock harm hlock =>
    obtain ⟨requests, heq⟩ := queueRequests_eq { p with lock } req
    rw [heq]
    exact posts_of_eq (fun _ => rfl) fun _ => rfl
  | choked peerId choked combinedPeers _ _ harm =>
    rw [harm] at h
    contradiction
  | wokeUp => exact posts_of_eq (fun _ => rfl) hwoke
  | wakePending => exact posts_of_eq (fun _ => rfl) hwoke
  | _ => exact posts_of_eq (fun _ => rfl) fun _ => rfl

theorem SentToProcessor.outbound_eq {conn conn' : PeerConnection} {msg : Messages}
    (h : SentToProcessor conn msg conn')
    : conn'.outbound = conn.outbound := by
  cases h with
  | gone => rfl
  | sent => rfl
  | pending => rfl

theorem writes_eq_none {event : StartEvent} (h : ∀ c, event ≠ .link c .write) (c : Nat)
    : p.writes c event = none := by
  unfold writes
  split
  . next d =>
    exact absurd rfl (h d)
  . rfl

theorem Ran.writes {conn conn' : PeerConnection} {event : LinkEvent} (h : Ran conn event conn')
    (hget : p.connections[c]? = some conn)
    : conn.outbound.msgs = (p.writes c (.link c event)).toList ++ conn'.outbound.msgs := by
  cases h with
  | wrote readDone msg outbound hlink hrecv =>
    simp only [TorrentProcessor.writes, if_pos, hget, hrecv]
    exact (Channel.recv_eq_some hrecv).2.1
  | read msg _ hlink hsent =>
    rw [writes_eq_none (by simp), hsent.outbound_eq]
    rfl
  | resumed msg _ hlink hsent =>
    rw [writes_eq_none (by simp), hsent.outbound_eq]
    rfl
  | eof =>
    rw [writes_eq_none (by simp)]
    rfl
  | writeFailed =>
    rw [writes_eq_none (by simp)]
    rfl
  | hungUp =>
    rw [writes_eq_none (by simp)]
    rfl

theorem Stepped.outbox {event : StartEvent} {signals : List Signal} (h : p.Coherent)
    (hs : p.Stepped build torrentIo config torrent event signals p') (c : Nat)
    : p.outbox c ++ sentTo c signals = (p.writes c event).toList ++ p'.outbox c := by
  have hposts : (∀ d, event ≠ .link d .write) → Posts signals p p' →
      p.outbox c ++ sentTo c signals = (p.writes c event).toList ++ p'.outbox c := by
    intro hevent hposts
    rw [writes_eq_none hevent, hposts c]
    rfl
  have hset : ∀ {d : Nat} (handler : Handler), Posts [] p (p.setHandler d handler) :=
    fun handler => posts_of_eq (outbox_setHandler handler) fun _ => rfl
  have hsame : ∀ {signals : List Signal} {p' : TorrentProcessor σ}, p'.connections = p.connections →
      (∀ d, sentTo d signals = []) → Posts signals p p' :=
    fun heq hnone => posts_of_eq (outbox_eq heq) hnone
  cases hs with
  | connected peerId =>
    apply hposts (by simp)
    apply posts_of_eq _ fun _ => rfl
    intro d
    unfold TorrentProcessor.outbox
    dsimp only
    rcases getElem?_concat p.connections _ d with heq | ⟨hnone, heq⟩
    . rw [heq]
    . rw [heq, hnone]
      rfl
  | linked d event conn conn' hget hran =>
    rw [outbox_update_self hget, show sentTo c [] = [] from rfl, List.append_nil]
    split
    . next hc =>
      subst hc
      rw [← hran.writes hget]
      simp [TorrentProcessor.outbox, hget]
    . next hc =>
      have hnone : p.writes c (.link d event) = none := by
        unfold TorrentProcessor.writes
        split
        . next heq =>
          rw [StartEvent.link.injEq] at heq
          rw [if_neg]
          rw [← heq.1]
          exact Ne.symm hc
        . rfl
      rw [hnone]
      rfl
  | written d conn index begin block finished io hget hhandler hwrite =>
    apply hposts (by simp)
    refine posts_of_eq (outbox_setHandler (p := p) (.locking (.reply { index, begin, finished }))) ?_
    intro d
    split
    . rfl
    . rfl
  | writeFailed d => exact hposts (by simp) (hset (d := d) .failed)
  | polled d _ _ harm hpolled => exact hposts (by simp) hpolled.posts
  | accepted d => exact hposts (by simp) (hset (d := d) .accepted)
  | advanced _ _ hadvanced => exact hposts (by simp) (hadvanced.posts h)
  | lockPending event lock hlocks =>
    refine hposts ?_ (hsame rfl fun _ => rfl)
    rintro d rfl
    exact hlocks
  | took => exact hposts (by simp) (hsame rfl fun _ => rfl)
  | ticked => exact hposts (by simp) (hsame rfl fun _ => rfl)
  | computed => exact hposts (by simp) (hsame rfl fun _ => rfl)
  | unchoked => exact hposts (by simp) (hsame rfl fun _ => rfl)
  | noneExpired => exact hposts (by simp) (hsame rfl fun _ => rfl)
  | someExpired => exact hposts (by simp) (hsame rfl fun _ => rfl)

theorem inbox_of_getElem? {conn : PeerConnection} (hget : p.connections[c]? = some conn)
    : p.inbox c = conn.arriving := by
  unfold inbox
  rw [hget]

def IsOver (p : TorrentProcessor σ) (c : Nat) : Prop :=
  ∃ conn, p.connections[c]? = some conn ∧ conn.link = .ended ∧ conn.handler.IsGone

/--
What becomes of the messages on their way to a handler: at the end one may be lost, and nobody is
there for it.
-/
def Brings (c : Nat) (event : StartEvent) (p p' : TorrentProcessor σ) : Prop :=
  p.inbox c ++ (event.reads c).toList = (p.handles c event).toList ++ p'.inbox c
    ∨ ¬p.IsOver c ∧ p'.IsOver c ∧ p.handles c event = none
      ∧ ∃ msg, p.inbox c ++ (event.reads c).toList = p'.inbox c ++ [msg]

theorem brings_of_eq {event : StartEvent} (hinbox : p'.inbox c = p.inbox c)
    (hreads : event.reads c = none) (hhandles : p.handles c event = none)
    : Brings c event p p' := by
  left
  rw [hreads, hhandles, hinbox]
  exact List.append_nil _

theorem SentToProcessor.arriving {conn conn' : PeerConnection} {msg : Messages}
    (h : SentToProcessor conn msg conn')
    : conn'.arriving = conn.inbound.msgs ++ [msg]
        ∨ conn'.link = .ended ∧ conn'.handler.IsGone ∧ conn'.arriving = conn.inbound.msgs := by
  cases h with
  | gone hgone => exact .inr ⟨rfl, hgone, rfl⟩
  | sent inbound hthere hsend =>
    left
    unfold PeerConnection.arriving
    exact (Channel.send_eq_true hsend).2.1
  | pending inbound hthere hsend =>
    left
    unfold PeerConnection.arriving
    dsimp only
    rw [(Channel.send_eq_false hsend).2.1]

theorem Ran.brings {conn conn' : PeerConnection} {event : LinkEvent} (h : Ran conn event conn')
    (hget : p.connections[c]? = some conn) (hget' : p'.connections[c]? = some conn')
    : Brings c (.link c event) p p' := by
  have hinbox := inbox_of_getElem? hget
  have hinbox' := inbox_of_getElem? hget'
  have hopen := h.frame.2.2.2
  have hnot : ¬p.IsOver c := by
    intro ⟨conn1, hget1, hended, _⟩
    rw [hget, Option.some.injEq] at hget1
    subst hget1
    exact hopen hended
  have hsent : ∀ {msg}, SentToProcessor conn msg conn' →
      conn.arriving ++ (StartEvent.reads c (.link c event)).toList = conn.inbound.msgs ++ [msg] →
      Brings c (.link c event) p p' := by
    intro msg hsent heq
    unfold Brings
    rw [hinbox, hinbox', heq]
    rcases hsent.arriving with hconn | ⟨hended, hgone, hconn⟩
    . exact .inl hconn.symm
    . exact .inr ⟨hnot, ⟨conn', hget', hended, hgone⟩, rfl, msg, by rw [hconn]⟩
  have hkeeps : conn'.arriving = conn.arriving → StartEvent.reads c (.link c event) = none →
      Brings c (.link c event) p p' := by
    intro heq hreads
    exact brings_of_eq (by rw [hinbox, hinbox', heq]) hreads rfl
  have hlinks : ∀ {link}, conn.link = link → (∀ msg, link ≠ .sending msg) →
      conn.arriving = conn.inbound.msgs := by
    intro link hlink hne
    unfold PeerConnection.arriving
    split
    . next msg heq => exact absurd heq (hlink ▸ hne msg)
    . rfl
  cases h with
  | read msg _ hlink hs =>
    apply hsent hs
    rw [hlinks hlink (by simp)]
    simp [StartEvent.reads]
  | resumed msg _ hlink hs =>
    apply hsent hs
    unfold PeerConnection.arriving
    rw [hlink]
    simp [StartEvent.reads]
  | eof hlink => exact hkeeps (by rw [hlinks hlink (by simp)]; rfl) rfl
  | wrote readDone msg outbound hlink hrecv => exact hkeeps (by rw [hlinks hlink (by simp)]; rfl) rfl
  | writeFailed readDone hlink => exact hkeeps (by rw [hlinks hlink (by simp)]; rfl) rfl
  | hungUp hlink => exact hkeeps (by rw [hlinks hlink (by simp)]; rfl) rfl

theorem handles_eq_none {event : StartEvent} (h : event ≠ .poll c) : p.handles c event = none := by
  unfold handles
  split
  . rw [if_neg]
    rintro rfl
    exact h rfl
  . rfl

theorem reads_eq_none {event : StartEvent} (h : ∀ linkEvent, event ≠ .link c linkEvent)
    : event.reads c = none := by
  unfold StartEvent.reads
  split
  . rw [if_neg]
    rintro rfl
    exact h _ rfl
  . rfl

theorem Became.arriving_eq {event : StartEvent} {conn conn' : PeerConnection}
    (h : p.Became event c conn conn') (hlink : ∀ linkEvent, event ≠ .link c linkEvent)
    (hpoll : event = .poll c → conn.handler ≠ .receiving)
    : conn'.arriving = conn.arriving := by
  cases h with
  | kept => rfl
  | turned => rfl
  | received msg inbound hevent hhandler => exact absurd hhandler (hpoll hevent)
  | linked linkEvent _ hevent => exact absurd hevent (hlink linkEvent)

theorem poll_of_receiving {conn : PeerConnection} {signals : List Signal}
    (hpoll : p.poll c = some (signals, p')) (hget : p.connections[c]? = some conn)
    (hhandler : conn.handler = .receiving)
    : Brings c (.poll c) p p' := by
  have hinbox := inbox_of_getElem? hget
  have hhandles : p.handles c (.poll c) = conn.inbound.recv.map Prod.fst := by
    simp [handles, hget, hhandler]
  have harriving : ∀ {f : PeerConnection → PeerConnection},
      (p.update c f).inbox c = (f conn).arriving := by
    intro f
    have hget' : (p.update c f).connections[c]? = some (f conn) := by
      apply getElem?_update.mpr
      exact ⟨conn, hget, by rw [if_pos rfl]⟩
    exact inbox_of_getElem? hget'
  left
  rw [hinbox, hhandles, reads_eq_none (by simp), Option.toList_none, List.append_nil]
  unfold poll at hpoll
  simp only [hget, hhandler] at hpoll
  split at hpoll
  . next msg inbound hrecv =>
    simp only [Option.some.injEq, Prod.mk.injEq] at hpoll
    rw [← hpoll.2, harriving, hrecv]
    unfold PeerConnection.arriving
    dsimp only
    split
    . rw [(Channel.recv_eq_some hrecv).2.1]
      rfl
    . rw [(Channel.recv_eq_some hrecv).2.1]
      rfl
  . next hrecv =>
    split at hpoll
    . simp only [Option.some.injEq, Prod.mk.injEq] at hpoll
      rw [← hpoll.2, hrecv]
      have hfinish : (p.finish c).inbox c = conn.arriving :=
        harriving (f := fun conn => { conn with handler := .finished })
      rw [hfinish]
      rfl
    . contradiction

theorem brings_of_link {linkEvent : LinkEvent} {signals : List Signal}
    (hs : p.Stepped build torrentIo config torrent (.link c linkEvent) signals p')
    : Brings c (.link c linkEvent) p p' := by
  cases hs with
  | linked _ _ conn conn' hget hran =>
    apply hran.brings hget
    exact getElem?_update.mpr ⟨conn, hget, by rw [if_pos rfl]⟩
  | lockPending _ _ hlocks => exact absurd hlocks id

theorem brings_of_step {event : StartEvent} {signals : List Signal} (h : p.Coherent)
    (hstep : (startTask build torrentIo config torrent).step p event = some (signals, p')) (c : Nat)
    : Brings c event p p' := by
  have hs := stepped_of_step hstep
  by_cases hlink : ∃ linkEvent, event = .link c linkEvent
  . obtain ⟨linkEvent, rfl⟩ := hlink
    exact brings_of_link hs
  have hreads : event.reads c = none := reads_eq_none fun linkEvent heq => hlink ⟨linkEvent, heq⟩
  have hnone : p.connections[c]? = none → p.inbox c = [] ∧ p.handles c event = none := by
    intro hget
    constructor
    . unfold inbox
      rw [hget]
    . unfold handles
      split
      . split
        . rw [hget]
        . rfl
      . rfl
  cases hget' : p'.connections[c]? with
  | none =>
    have hlength := (hs.openBefore h).1
    rw [List.getElem?_eq_none_iff] at hget'
    obtain ⟨hinbox, hhandles⟩ := hnone (List.getElem?_eq_none (by omega))
    refine brings_of_eq ?_ hreads hhandles
    unfold inbox at hinbox ⊢
    rw [hinbox, List.getElem?_eq_none (by omega)]
  | some conn' =>
    rcases hs.conn h hget' with ⟨conn, hget, hbecame⟩ | ⟨peerId, rfl, rfl, rfl⟩
    . by_cases hpoll : event = .poll c ∧ conn.handler = .receiving
      . obtain ⟨rfl, hhandler⟩ := hpoll
        simp only [startTask] at hstep
        split at hstep
        . exact poll_of_receiving hstep hget hhandler
        . contradiction
      . have hhandles : p.handles c event = none := by
          by_cases hevent : event = .poll c
          . subst hevent
            simp only [handles, if_pos, hget]
            rw [if_neg]
            exact fun hhandler => hpoll ⟨rfl, hhandler⟩
          . exact handles_eq_none hevent
        refine brings_of_eq ?_ hreads hhandles
        rw [inbox_of_getElem? hget, inbox_of_getElem? hget']
        apply hbecame.arriving_eq
        . exact fun linkEvent heq => hlink ⟨linkEvent, heq⟩
        . exact fun hevent hhandler => hpoll ⟨hevent, hhandler⟩
    . obtain ⟨hinbox, hhandles⟩ := hnone (List.getElem?_eq_none (Nat.le_refl _))
      refine brings_of_eq ?_ hreads hhandles
      rw [hinbox, inbox_of_getElem? hget']
      rfl

theorem IsOver.stepped {event : StartEvent} {signals : List Signal} (hover : p.IsOver c)
    (h : p.Coherent) (hs : p.Stepped build torrentIo config torrent event signals p')
    : p'.IsOver c := by
  obtain ⟨conn, hget, hended, hgone⟩ := hover
  have hlt := (List.getElem?_eq_some_iff.mp hget).1
  have hlt' : c < p'.connections.length := Nat.lt_of_lt_of_le hlt (hs.openBefore h).1
  have hget' := List.getElem?_eq_getElem hlt'
  refine ⟨_, hget', ?_⟩
  rcases hs.conn h hget' with ⟨conn1, hget1, hbecame⟩ | ⟨_, _, heq, _⟩
  . rw [hget, Option.some.injEq] at hget1
    subst hget1
    generalize p'.connections[c] = conn' at hbecame
    cases hbecame with
    | kept => exact ⟨hended, hgone⟩
    | turned outbound handler hgrows hturns =>
      refine ⟨hended, ?_⟩
      generalize conn.handler = handler1 at hturns hgone
      rcases hgone with rfl | rfl
      . cases hturns with
        | forgotten => exact .inr rfl
      . cases hturns
    | received _ _ _ hhandler =>
      rw [hhandler] at hgone
      exact absurd hgone (by decide)
    | linked _ _ _ hran => exact absurd hended hran.frame.2.2.2
  . omega

theorem IsOver.reads_eq_none {event : StartEvent} {signals : List Signal} (hover : p.IsOver c)
    (hs : p.Stepped build torrentIo config torrent event signals p')
    : event.reads c = none := by
  apply TorrentProcessor.reads_eq_none
  rintro linkEvent rfl
  obtain ⟨conn, hget, hended, _⟩ := hover
  cases hs with
  | linked _ _ conn1 conn' hget1 hran =>
    rw [hget, Option.some.injEq] at hget1
    subst hget1
    exact hran.frame.2.2.2 hended
  | lockPending _ _ hlocks => exact hlocks

section

variable (build torrentIo config torrent)

def writtenIn (p : TorrentProcessor σ) (c : Nat) (tr : StartTrace) : List Messages :=
  (startTask build torrentIo config torrent).collect (writes c) p tr

def handledIn (p : TorrentProcessor σ) (c : Nat) (tr : StartTrace) : List Messages :=
  (startTask build torrentIo config torrent).collect (handles c) p tr

/--
The message a connection has read when its handler has gone is all that can be lost.
-/
def InboundKept (p0 : TorrentProcessor σ) (c : Nat) (tr : StartTrace) (p : TorrentProcessor σ)
    : Prop :=
  readIn c tr = handledIn build torrentIo config torrent p0 c tr ++ p.inbox c
    ∨ p.IsOver c ∧ ∃ msg,
      readIn c tr = handledIn build torrentIo config torrent p0 c tr ++ p.inbox c ++ [msg]

/--
Both channels of a connection keep what is put in, in its order.
-/
structure Streams (p0 : TorrentProcessor σ) (c : Nat) (tr : StartTrace) (p : TorrentProcessor σ)
    : Prop where
  outbound : sentIn c tr = writtenIn build torrentIo config torrent p0 c tr ++ p.outbox c
  inbound : InboundKept build torrentIo config torrent p0 c tr p

end

theorem sentIn_append_singleton (c : Nat) (tr : StartTrace) (event : StartEvent)
    (signals : List Signal)
    : sentIn c (tr ++ [(event, signals)]) = sentIn c tr ++ sentTo c signals := by
  simp [sentIn]

theorem readIn_append_singleton (c : Nat) (tr : StartTrace) (event : StartEvent)
    (signals : List Signal)
    : readIn c (tr ++ [(event, signals)]) = readIn c tr ++ (event.reads c).toList := by
  unfold readIn
  rw [List.filterMap_append]
  cases hreads : event.reads c with
  | none => simp [hreads]
  | some msg => simp [hreads]

theorem outbound_of_run {io : σ} {tr : StartTrace} (c : Nat)
    (hrun : (startTask build torrentIo config torrent).Run (new config torrent io) tr p)
    : sentIn c tr
        = writtenIn build torrentIo config torrent (new config torrent io) c tr ++ p.outbox c := by
  suffices h : (startTask build torrentIo config torrent).Run (new config torrent io) tr p
      ∧ p.Coherent
      ∧ sentIn c tr
        = writtenIn build torrentIo config torrent (new config torrent io) c tr ++ p.outbox c from
    h.2.2
  apply hrun.invariant_trace (P := fun tr p =>
    (startTask build torrentIo config torrent).Run (new config torrent io) tr p ∧ p.Coherent
      ∧ sentIn c tr
        = writtenIn build torrentIo config torrent (new config torrent io) c tr ++ p.outbox c)
  . intro tr p event signals p' _ hstep ⟨hrun, hcoherent, h⟩
    have hs := stepped_of_step hstep
    have hwrites : writtenIn build torrentIo config torrent (new config torrent io) c
        (tr ++ [(event, signals)]) = _ := hrun.collect_append_singleton (writes c) hstep
    have houtbox := hs.outbox hcoherent c
    refine ⟨hrun.append (.cons trivial hstep (.nil _)), hcoherent.stepped hs, ?_⟩
    rw [hwrites, sentIn_append_singleton, h, List.append_assoc, houtbox, List.append_assoc]
    rfl
  . exact ⟨.nil _, trivial, rfl⟩

theorem inbound_of_run {io : σ} {tr : StartTrace} (c : Nat)
    (hrun : (startTask build torrentIo config torrent).Run (new config torrent io) tr p)
    : InboundKept build torrentIo config torrent (new config torrent io) c tr p := by
  suffices h : (startTask build torrentIo config torrent).Run (new config torrent io) tr p
      ∧ p.Coherent ∧ InboundKept build torrentIo config torrent (new config torrent io) c tr p from
    h.2.2
  apply hrun.invariant_trace (P := fun tr p =>
    (startTask build torrentIo config torrent).Run (new config torrent io) tr p
      ∧ p.Coherent ∧ InboundKept build torrentIo config torrent (new config torrent io) c tr p)
  . intro tr p event signals p' _ hstep ⟨hrun, hcoherent, h⟩
    have hs := stepped_of_step hstep
    have hhandles : handledIn build torrentIo config torrent (new config torrent io) c
        (tr ++ [(event, signals)]) = _ := hrun.collect_append_singleton (handles c) hstep
    refine ⟨hrun.append (.cons trivial hstep (.nil _)), hcoherent.stepped hs, ?_⟩
    unfold InboundKept at h ⊢
    rw [hhandles, readIn_append_singleton]
    rcases brings_of_step hcoherent hstep c with hbrings | ⟨hnot, hover, hnone, msg, hbrings⟩
    . rcases h with hin | ⟨hover, msg, hin⟩
      . left
        rw [hin, List.append_assoc, hbrings, List.append_assoc]
        rfl
      . right
        refine ⟨hover.stepped hcoherent hs, msg, ?_⟩
        rw [hover.reads_eq_none hs, Option.toList_none, List.append_nil] at hbrings ⊢
        rw [hin, List.append_assoc _ (TorrentProcessor.inbox _ _), hbrings]
        simp only [List.append_assoc]
        rfl
    . rcases h with hin | ⟨hover', _⟩
      . right
        refine ⟨hover, msg, ?_⟩
        rw [hin, List.append_assoc, hbrings, hnone, Option.toList_none, List.append_nil,
          List.append_assoc]
        rfl
      . exact absurd hover' hnot
  . exact ⟨.nil _, trivial, .inl rfl⟩

theorem streams_of_run {io : σ} {tr : StartTrace} (c : Nat)
    (hrun : (startTask build torrentIo config torrent).Run (new config torrent io) tr p)
    : Streams build torrentIo config torrent (new config torrent io) c tr p :=
  ⟨outbound_of_run c hrun, inbound_of_run c hrun⟩

def readingEvents : List StartEvent :=
  greetingEvents 0 [5] ++ [.link 0 (.read (.flag .unchoke)), .link 0 (.read (.have 0)), .poll 0,
    .link 0 .write]

theorem streams_onePiece
    : ∃ tr p, (onePieceTask ⟨false, 8, 8, 1⟩).Run (onePieceStart ⟨false, 8, 8, 1⟩) tr p
        ∧ readIn 0 tr = [.flag .unchoke, .have 0] ∧ p.inbox 0 = [.have 0]
        ∧ p.outbox 0 = [.flag .choke, .flag .notInterested]
        ∧ Streams ⟨true⟩ (MemoryTorrentIo.torrentIo ⟨true⟩) ⟨false, 8, 8, 1⟩
          (torrentFixture 2 2 [[1, 2]]) (onePieceStart ⟨false, 8, 8, 1⟩) 0 tr p := by
  obtain ⟨tr, p, hrun, _, hstate⟩ := (onePieceTask ⟨false, 8, 8, 1⟩).exists_run_of_exec
    (onePieceStart ⟨false, 8, 8, 1⟩) readingEvents
    (fun res => (readIn 0 res.1, res.2.inbox 0, res.2.outbox 0))
    (b := ([.flag .unchoke, .have 0], [.have 0], [.flag .choke, .flag .notInterested]))
    (by decide +kernel)
  simp only [Prod.mk.injEq] at hstate
  exact ⟨tr, p, hrun, hstate.1, hstate.2.1, hstate.2.2, streams_of_run 0 hrun⟩

end TorrentProcessor
