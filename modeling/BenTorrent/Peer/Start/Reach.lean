import BenTorrent.Peer.Start.Step

/-!
This module contains which peers the loop reaches through its table of senders.
-/

open Rust

def Arm.greeted : Arm → Option Nat
  | .greeting c [] => some c
  | _ => none

theorem Arm.eq_of_greeted {arm : Arm} {c : Nat} (h : arm.greeted = some c)
    : arm = .greeting c [] := by
  unfold greeted at h
  split at h
  . rw [Option.some.injEq] at h
    rw [h]
  . contradiction

namespace TorrentProcessor

variable {σ : Type u} {p p' : TorrentProcessor σ} {c : Nat}

/--
The loop has the sender of the connection under the peer id, and the channel is open.
-/
def Reaches (p : TorrentProcessor σ) (peerId : PeerId) (c : Nat) : Prop :=
  p.peerToTx.lookup peerId = some c ∧ ∃ conn, p.connections[c]? = some conn ∧ conn.link ≠ .ended

def Touches (c : Nat) (p p' : TorrentProcessor σ) : Prop :=
  ∃ f : PeerConnection → PeerConnection,
    (∀ conn, (f conn).peerId = conn.peerId ∧ (f conn).link = conn.link)
      ∧ p'.connections = p.connections.modify c f

theorem touches_of_eq (h : p'.connections = p.connections) : Touches c p p' := by
  refine ⟨id, fun _ => ⟨rfl, rfl⟩, ?_⟩
  rw [List.modify_id, h]

theorem Touches.trans {p1 : TorrentProcessor σ} (h : Touches c p p1) (h' : Touches c p1 p')
    : Touches c p p' := by
  obtain ⟨f, hf, heq⟩ := h
  obtain ⟨g, hg, heq'⟩ := h'
  refine ⟨g ∘ f, ?_, ?_⟩
  . intro conn
    rw [Function.comp_apply, (hg _).1, (hg _).2]
    exact hf conn
  . rw [heq', heq, List.modify_modify_eq]

theorem touches_update {f : PeerConnection → PeerConnection}
    (hf : ∀ conn, (f conn).peerId = conn.peerId ∧ (f conn).link = conn.link)
    : Touches c p (p.update c f) :=
  ⟨f, hf, rfl⟩

theorem touches_setHandler (handler : Handler) : Touches c p (p.setHandler c handler) :=
  touches_update fun _ => ⟨rfl, rfl⟩

theorem Delivered.touches {w : Party} {msg : Messages} {delivery : Delivery}
    (h : p.Delivered w c msg delivery p')
    : Touches c p p' := by
  obtain ⟨f, rfl, hf⟩ := h.update_eq
  apply touches_update
  intro conn
  rw [hf conn]
  exact ⟨rfl, rfl⟩

theorem Told.touches {peerId : PeerId} {msg : Messages} {delivery : Delivery}
    {signals : List Signal} (h : p.Told peerId msg delivery signals p')
    : ∃ c, Touches c p p' := by
  cases h with
  | delivered c _ _ hdelivered => exact ⟨c, hdelivered.touches⟩
  | pending c _ _ hdelivered => exact ⟨c, hdelivered.touches⟩
  | closed => exact ⟨0, touches_of_eq rfl⟩

theorem Delivered.peerToTx_eq {w : Party} {msg : Messages} {delivery : Delivery}
    (h : p.Delivered w c msg delivery p')
    : p'.peerToTx = p.peerToTx := by
  obtain ⟨f, rfl, _⟩ := h.update_eq
  rfl

theorem Told.peerToTx_eq {peerId : PeerId} {msg : Messages} {delivery : Delivery}
    {signals : List Signal} (h : p.Told peerId msg delivery signals p')
    : p'.peerToTx = p.peerToTx := by
  obtain ⟨_, f, rfl, _⟩ := h.update_eq
  rfl

theorem Signalled.touches {msg : Messages} {signals : List Signal}
    (h : p.Signalled c msg signals p')
    : Touches c p p' ∧ p'.peerToTx = p.peerToTx := by
  cases h with
  | delivered p1 hdelivered =>
    have hwake : Touches c p1 (p1.unlock.wake c .wakeup) :=
      touches_setHandler (p := p1) (if (p1.wakeUp.send (.handler c) .wakeup).1 then .receiving
        else .waking .wakeup)
    exact ⟨hdelivered.touches.trans hwake, hdelivered.peerToTx_eq⟩
  | pending p1 hdelivered =>
    exact ⟨hdelivered.touches.trans (touches_setHandler _), hdelivered.peerToTx_eq⟩
  | closed => exact ⟨touches_setHandler .finished, rfl⟩

theorem Polled.touches {signals : List Signal} (h : p.Polled c signals p')
    : Touches c p p' ∧ p'.peerToTx = p.peerToTx := by
  cases h with
  | received => exact ⟨touches_update fun _ => ⟨rfl, rfl⟩, rfl⟩
  | finished => exact ⟨touches_setHandler .finished, rfl⟩
  | lockPending => exact ⟨touches_of_eq rfl, rfl⟩
  | handled conn job lock next torrentState _ _ hget hhandler hlock hjob hproceeded =>
    cases hproceeded with
    | receive => exact ⟨touches_setHandler .receiving, rfl⟩
    | wake msg => exact ⟨touches_setHandler _, rfl⟩
    | signal _ _ _ hsignalled =>
      exact Signalled.touches (p := { p with lock, torrentState }) hsignalled
  | signalled conn msg _ _ hget hhandler hsignalled => exact hsignalled.touches
  | woken conn msg hget hhandler => exact ⟨touches_setHandler _, rfl⟩

variable {build : Build} {torrentIo : TorrentIo σ} {config : Config} {torrent : V1Torrent}

theorem Advanced.touches {signals : List Signal} (h : p.Coherent)
    (ha : p.Advanced torrentIo torrent signals p')
    : (∃ c, Touches c p p')
        ∧ ∀ peerId c, p'.peerToTx.lookup peerId = some c → p.peerToTx.lookup peerId = some c
          ∨ (p.arm = .greeting c [] ∧ ∃ conn, p.connections[c]? = some conn ∧ conn.peerId = peerId) := by
  unfold Coherent at h
  have hsame : ∀ {p' : TorrentProcessor σ}, p'.peerToTx = p.peerToTx → ∀ peerId c,
      p'.peerToTx.lookup peerId = some c → p.peerToTx.lookup peerId = some c
        ∨ (p.arm = .greeting c [] ∧ ∃ conn, p.connections[c]? = some conn ∧ conn.peerId = peerId) := by
    intro p' heq peerId c hlookup
    rw [heq] at hlookup
    exact .inl hlookup
  cases ha with
  | greeted c msg msgs p1 harm hdelivered =>
    have htouches := hdelivered.touches
    exact ⟨⟨c, htouches⟩, hsame hdelivered.peerToTx_eq⟩
  | greetPending c msg msgs p1 harm hdelivered =>
    exact ⟨⟨c, hdelivered.touches⟩, hsame hdelivered.peerToTx_eq⟩
  | greetClosed c => exact ⟨⟨c, touches_setHandler .closed⟩, hsame rfl⟩
  | registered c conn harm hget =>
    refine ⟨⟨c, touches_setHandler .receiving⟩, ?_⟩
    intro peerId d hlookup
    by_cases heq : peerId = conn.peerId
    . subst heq
      replace hlookup : (p.peerToTx.insert conn.peerId c).lookup conn.peerId = some d := hlookup
      rw [Finmap.lookup_insert, Option.some.injEq] at hlookup
      subst hlookup
      exact .inr ⟨harm, conn, hget, rfl⟩
    . replace hlookup : (p.peerToTx.insert conn.peerId c).lookup peerId = some d := hlookup
      rw [Finmap.lookup_insert_of_ne _ heq] at hlookup
      exact .inl hlookup
  | closing c lock conn harm hlock hget =>
    refine ⟨⟨c, touches_setHandler .closed⟩, ?_⟩
    intro peerId d hlookup
    replace hlookup : (p.peerToTx.erase conn.peerId).lookup peerId = some d := hlookup
    by_cases heq : peerId = conn.peerId
    . subst heq
      rw [Finmap.lookup_erase] at hlookup
      contradiction
    . rw [Finmap.lookup_erase_ne heq] at hlookup
      exact .inl hlookup
  | passed peerId msg arm _ _ p1 hpasses htold hdone =>
    have htouches := htold.touches
    exact ⟨htouches, hsame htold.peerToTx_eq⟩
  | passPending peerId msg arm _ _ hpasses htold => exact ⟨htold.touches, hsame htold.peerToTx_eq⟩
  | dispatched req requests _ p1 harm htold =>
    have htouches := htold.touches
    exact ⟨htouches, hsame htold.peerToTx_eq⟩
  | dispatchPending req requests _ _ harm htold =>
    exact ⟨htold.touches, hsame htold.peerToTx_eq⟩
  | queued req lock harm hlock =>
    obtain ⟨requests, heq⟩ := queueRequests_eq { p with lock } req
    rw [heq]
    exact ⟨⟨0, touches_of_eq rfl⟩, hsame rfl⟩
  | choked peerId choked combinedPeers _ _ harm =>
    rw [harm] at h
    contradiction
  | _ => exact ⟨⟨0, touches_of_eq rfl⟩, hsame rfl⟩

def OpenBefore (p p' : TorrentProcessor σ) : Prop :=
  p.connections.length ≤ p'.connections.length ∧ p'.ForallConn fun c conn' =>
    c < p.connections.length → ∃ conn, p.connections[c]? = some conn ∧ conn'.peerId = conn.peerId
      ∧ (conn'.link ≠ .ended → conn.link ≠ .ended)

theorem Touches.openBefore (h : Touches c p p') : OpenBefore p p' := by
  obtain ⟨f, hf, heq⟩ := h
  refine ⟨by rw [heq, List.length_modify], ?_⟩
  intro d conn' hget' _
  rw [heq, List.getElem?_modify, Option.map_eq_map, Option.map_eq_some_iff] at hget'
  obtain ⟨conn, hget, rfl⟩ := hget'
  refine ⟨conn, hget, ?_⟩
  split
  . rw [(hf conn).1, (hf conn).2]
    exact ⟨rfl, id⟩
  . exact ⟨rfl, id⟩

theorem Stepped.openBefore {event : StartEvent} {signals : List Signal} (h : p.Coherent)
    (hs : p.Stepped build torrentIo config torrent event signals p')
    : OpenBefore p p' := by
  have hsame : ∀ {p' : TorrentProcessor σ}, p'.connections = p.connections → OpenBefore p p' :=
    fun heq => (touches_of_eq (c := 0) heq).openBefore
  cases hs with
  | connected peerId =>
    refine ⟨by simp, ?_⟩
    intro c conn' hget' hlt
    dsimp only at hget'
    rw [List.getElem?_append_left hlt] at hget'
    exact ⟨conn', hget', rfl, id⟩
  | linked c event conn conn' hget hran =>
    obtain ⟨hpeerId, _, _, hopen⟩ := hran.frame
    refine ⟨by simp [update], ?_⟩
    intro d conn1 hget1 _
    obtain ⟨conn2, hget2, rfl⟩ := getElem?_update.mp hget1
    refine ⟨conn2, hget2, ?_⟩
    split
    . next heq =>
      subst heq
      rw [hget, Option.some.injEq] at hget2
      subst hget2
      exact ⟨hpeerId, fun _ => hopen⟩
    . exact ⟨rfl, id⟩
  | written c conn index begin block finished =>
    exact (touches_setHandler (p := p) (c := c)
      (.locking (.reply { index, begin, finished }))).openBefore
  | writeFailed c => exact (touches_setHandler (p := p) (c := c) .failed).openBefore
  | polled c _ _ harm hpolled => exact hpolled.touches.1.openBefore
  | accepted c => exact (touches_setHandler (p := p) (c := c) .accepted).openBefore
  | advanced _ _ hadvanced =>
    obtain ⟨⟨c, htouches⟩, _⟩ := hadvanced.touches h
    exact htouches.openBefore
  | took => exact hsame rfl
  | ticked => exact hsame rfl
  | lockPending => exact hsame rfl
  | computed => exact hsame rfl
  | unchoked => exact hsame rfl
  | noneExpired => exact hsame rfl
  | someExpired => exact hsame rfl

theorem Stepped.lookup {event : StartEvent} {signals : List Signal} {peerId : PeerId}
    (h : p.Coherent) (hs : p.Stepped build torrentIo config torrent event signals p')
    (hlookup : p'.peerToTx.lookup peerId = some c)
    : p.peerToTx.lookup peerId = some c
        ∨ (p.arm = .greeting c [] ∧ ∃ conn, p.connections[c]? = some conn ∧ conn.peerId = peerId) := by
  cases hs with
  | polled _ _ _ _ hpolled =>
    rw [hpolled.touches.2] at hlookup
    exact .inl hlookup
  | took peerIds msg wakeUp arm harm hrecv hstarts =>
    exact .inl (Finmap.lookup_retain_eq_some.mp hlookup).1
  | advanced _ _ hadvanced => exact (hadvanced.touches h).2 peerId c hlookup
  | connected => exact .inl hlookup
  | linked => exact .inl hlookup
  | written => exact .inl hlookup
  | writeFailed => exact .inl hlookup
  | accepted => exact .inl hlookup
  | ticked => exact .inl hlookup
  | lockPending => exact .inl hlookup
  | computed => exact .inl hlookup
  | unchoked => exact .inl hlookup
  | noneExpired => exact .inl hlookup
  | someExpired => exact .inl hlookup

theorem Stepped.lookup_of_ne {event : StartEvent} {signals : List Signal} {peerId : PeerId}
    (hs : p.Stepped build torrentIo config torrent event signals p') (hne : event ≠ .advance)
    (hlookup : p'.peerToTx.lookup peerId = some c)
    : p.peerToTx.lookup peerId = some c := by
  cases hs with
  | polled _ _ _ _ hpolled => rwa [hpolled.touches.2] at hlookup
  | took peerIds msg wakeUp arm harm hrecv hstarts =>
    exact (Finmap.lookup_retain_eq_some.mp hlookup).1
  | advanced => exact absurd rfl hne
  | lockPending => exact hlookup
  | _ => exact hlookup

def TxValid (p : TorrentProcessor σ) : Prop :=
  ∀ peerId c, p.peerToTx.lookup peerId = some c → c < p.connections.length

theorem TxValid.stepped {event : StartEvent} {signals : List Signal} (h : p.TxValid)
    (hcoherent : p.Coherent) (hs : p.Stepped build torrentIo config torrent event signals p')
    : p'.TxValid := by
  intro peerId c hlookup
  have hlt : c < p.connections.length := by
    rcases hs.lookup hcoherent hlookup with hlookup | ⟨_, conn, hget, _⟩
    . exact h peerId c hlookup
    . exact (List.getElem?_eq_some_iff.mp hget).1
  exact Nat.lt_of_lt_of_le hlt (hs.openBefore hcoherent).1

theorem Stepped.reaches {event : StartEvent} {signals : List Signal} {peerId : PeerId}
    (h : p.Coherent) (hvalid : p.TxValid)
    (hs : p.Stepped build torrentIo config torrent event signals p') (hreaches : p'.Reaches peerId c)
    : p.Reaches peerId c ∨ (event = .advance ∧ p.arm = .greeting c []
        ∧ ∃ conn, p.connections[c]? = some conn ∧ conn.peerId = peerId ∧ conn.link ≠ .ended) := by
  obtain ⟨hlookup, conn', hget', hopen'⟩ := hreaches
  have hbefore : c < p.connections.length →
      ∃ conn, p.connections[c]? = some conn ∧ conn.link ≠ .ended := by
    intro hlt
    obtain ⟨conn, hget, _, hopen⟩ := (hs.openBefore h).2 c conn' hget' hlt
    exact ⟨conn, hget, hopen hopen'⟩
  have hold : p.peerToTx.lookup peerId = some c → p.Reaches peerId c :=
    fun hlookup => ⟨hlookup, hbefore (hvalid peerId c hlookup)⟩
  by_cases hadvance : event = .advance
  . rcases hs.lookup h hlookup with hlookup | ⟨harm, conn, hget, hid⟩
    . exact .inl (hold hlookup)
    . obtain ⟨conn1, hget1, hopen⟩ := hbefore (List.getElem?_eq_some_iff.mp hget).1
      rw [hget, Option.some.injEq] at hget1
      subst hget1
      exact .inr ⟨hadvance, harm, conn, hget, hid, hopen⟩
  . exact .inl (hold (hs.lookup_of_ne hadvance hlookup))

def TxOwn (p : TorrentProcessor σ) : Prop :=
  ∀ peerId c, p.peerToTx.lookup peerId = some c →
    ∃ conn, p.connections[c]? = some conn ∧ conn.peerId = peerId

theorem Stepped.getElem? {event : StartEvent} {signals : List Signal} {conn : PeerConnection}
    (h : p.Coherent) (hs : p.Stepped build torrentIo config torrent event signals p')
    (hget : p.connections[c]? = some conn)
    : ∃ conn', p'.connections[c]? = some conn' ∧ conn'.peerId = conn.peerId := by
  obtain ⟨hle, hopen⟩ := hs.openBefore h
  have hlt := (List.getElem?_eq_some_iff.mp hget).1
  have hget' := List.getElem?_eq_getElem (Nat.lt_of_lt_of_le hlt hle)
  obtain ⟨conn1, hget1, hid, _⟩ := hopen c _ hget' hlt
  rw [hget, Option.some.injEq] at hget1
  rw [hget1]
  exact ⟨_, hget', hid⟩

theorem TxOwn.stepped {event : StartEvent} {signals : List Signal} (h : p.TxOwn)
    (hcoherent : p.Coherent) (hs : p.Stepped build torrentIo config torrent event signals p')
    : p'.TxOwn := by
  intro peerId c hlookup
  obtain ⟨conn, hget, hid⟩ : ∃ conn, p.connections[c]? = some conn ∧ conn.peerId = peerId := by
    rcases hs.lookup hcoherent hlookup with hlookup | ⟨_, hconn⟩
    . exact h peerId c hlookup
    . exact hconn
  rw [← hid]
  exact hs.getElem? hcoherent hget

theorem txOwn_of_run {io : σ} {tr : StartTrace}
    (hrun : (startTask build torrentIo config torrent).Run (new config torrent io) tr p)
    : p.TxOwn := by
  suffices h : p.Coherent ∧ p.TxOwn from h.2
  apply hrun.invariant (P := fun p => p.Coherent ∧ p.TxOwn)
  . intro p event signals p' _ hstep ⟨hcoherent, hown⟩
    have hs := stepped_of_step hstep
    exact ⟨hcoherent.stepped hs, hown.stepped hcoherent hs⟩
  . refine ⟨trivial, ?_⟩
    intro peerId c hlookup
    simp [new] at hlookup

end TorrentProcessor
