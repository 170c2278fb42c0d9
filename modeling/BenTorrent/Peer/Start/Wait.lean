import BenTorrent.Peer.Start.Step

/-!
This module contains when the loop and a connection wait for each other.
-/

open Rust

def Link.isSending : Link → Bool
  | .sending _ => true
  | _ => false

namespace TorrentProcessor

variable {σ : Type u} {p p' : TorrentProcessor σ} {c : Nat}

/--
The connection that the arm is sending to.
-/
def target (p : TorrentProcessor σ) : Option Nat :=
  match p.arm with
  | .greeting c (_ :: _) => some c
  | .announcing _ (peerId :: _) => p.peerToTx.lookup peerId
  | .dispatching (req :: _) => p.peerToTx.lookup req.peerId
  | .sending peerId _ _ => p.peerToTx.lookup peerId
  | .choking ((peerId, _) :: _) => p.peerToTx.lookup peerId
  | _ => none

/--
The loop waits for a slot in the channel that the connection empties.
-/
def LoopWaits (p : TorrentProcessor σ) (c : Nat) : Prop :=
  p.target = some c
    ∧ ∃ conn ∈ p.connections[c]?, conn.link ≠ .ended ∧ .mainLoop ∈ conn.outbound.waiting

/--
The connection waits for a slot in the channel that its handler empties.
-/
def LinkWaits (p : TorrentProcessor σ) (c : Nat) : Prop :=
  ∃ conn ∈ p.connections[c]?,
    conn.link.isSending = true ∧ ¬conn.handler.IsGone ∧ .runConnection ∈ conn.inbound.waiting

instance : Decidable (p.LoopWaits c) :=
  inferInstanceAs (Decidable (_ ∧ _))

instance : Decidable (p.LinkWaits c) :=
  inferInstanceAs (Decidable (∃ conn ∈ p.connections[c]?, _))

def NoCircularWait (p : TorrentProcessor σ) : Prop :=
  ∀ c, p.LoopWaits c → ¬p.LinkWaits c

/--
While one side waits the other finds a slot.
-/
def FindsSlot (p : TorrentProcessor σ) : StartEvent → Prop
  | .link c (.read _) => p.LoopWaits c →
      ∀ conn ∈ p.connections[c]?, conn.handler.IsGone ∨ conn.inbound.HasSlot
  | .advance => ∀ c ∈ p.target, p.LinkWaits c →
      ∀ conn ∈ p.connections[c]?, .mainLoop ∈ conn.outbound.granted ∨ conn.outbound.HasSlot
  | _ => True

instance (event : StartEvent) : Decidable (p.FindsSlot event) :=
  match event with
  | .link c (.read _) => inferInstanceAs (Decidable (p.LoopWaits c → _))
  | .advance => inferInstanceAs (Decidable (∀ c ∈ p.target, _))
  | .link _ .resume | .link _ .eof | .link _ .write | .link _ .writeFails | .link _ .hangUp
  | .connect _ | .io _ | .poll _ | .accept _ | .recvWakeUp _ | .tick | .compute _ _
  | .unchoke _ _ | .expire _ => .isTrue trivial

def NoneOwed (p : TorrentProcessor σ) : Prop :=
  p.ForallConn fun _ conn => conn.link ≠ .ended → .mainLoop ∉ conn.outbound.senders

/--
The loop sends to one connection at a time, and a connection reads on once its message is through.
-/
structure WaitKept (p : TorrentProcessor σ) : Prop where
  coherent : p.Coherent
  loop : p.ForallConn fun c conn =>
    conn.link ≠ .ended → .mainLoop ∈ conn.outbound.senders → p.target = some c
  link : p.ForallConn fun _ conn =>
    conn.link ≠ .ended → (.runConnection ∈ conn.inbound.senders ↔ conn.link.isSending = true)

theorem WaitKept.noneOwed (h : p.WaitKept) (htarget : p.target = none) : p.NoneOwed := by
  intro c conn hget hopen hmem
  have hsome := h.loop c conn hget hopen hmem
  rw [htarget] at hsome
  contradiction

theorem NoneOwed.not_loopWaits (h : p.NoneOwed) : ¬p.LoopWaits c := by
  intro ⟨_, conn, hget, hopen, hmem⟩
  exact h c conn hget hopen (List.mem_append_right _ hmem)

/--
A step on the side of the loop that is none of the loop's sends.
-/
def LoopStays (p p' : TorrentProcessor σ) : Prop :=
  p'.ForallConn fun c conn' =>
    conn'.link ≠ .ended → .mainLoop ∈ conn'.outbound.senders →
      ∃ conn, p.connections[c]? = some conn ∧ conn.link ≠ .ended
        ∧ .mainLoop ∈ conn.outbound.senders
        ∧ (.mainLoop ∈ conn'.outbound.waiting → .mainLoop ∈ conn.outbound.waiting)

/--
A step on the side of the connections that is none of theirs.
-/
def LinkStays (p p' : TorrentProcessor σ) : Prop :=
  p'.ForallConn fun c conn' =>
    (conn'.link.isSending = false ∧ .runConnection ∉ conn'.inbound.senders)
      ∨ ∃ conn, p.connections[c]? = some conn ∧ conn'.link = conn.link
        ∧ conn'.inbound.senders = conn.inbound.senders
        ∧ conn'.inbound.waiting ⊆ conn.inbound.waiting
        ∧ (conn.handler.IsGone → conn'.handler.IsGone)

theorem LoopStays.noneOwed (h : LoopStays p p') (hnone : p.NoneOwed) : p'.NoneOwed := by
  intro c conn' hget' hopen' hmem'
  obtain ⟨conn, hget, hopen, hmem, _⟩ := h c conn' hget' hopen' hmem'
  exact hnone c conn hget hopen hmem

theorem LoopStays.loopWaits (h : LoopStays p p') (htarget : p'.target = p.target)
    (hwaits : p'.LoopWaits c)
    : p.LoopWaits c := by
  obtain ⟨hsome, conn', hget', hopen', hmem'⟩ := hwaits
  obtain ⟨conn, hget, hopen, _, hwaiting⟩ :=
    h c conn' hget' hopen' (List.mem_append_right _ hmem')
  exact ⟨htarget ▸ hsome, conn, hget, hopen, hwaiting hmem'⟩

theorem LinkStays.linkWaits (h : LinkStays p p') (hwaits : p'.LinkWaits c) : p.LinkWaits c := by
  obtain ⟨conn', hget', hsending, hthere, hmem⟩ := hwaits
  rcases h c conn' hget' with ⟨hnot, _⟩ | ⟨conn, hget, hlink, _, hwaiting, hgone⟩
  . rw [hnot] at hsending
    contradiction
  . rw [hlink] at hsending
    exact ⟨conn, hget, hsending, fun hc => hthere (hgone hc), hwaiting hmem⟩

theorem loopStays_update {f : PeerConnection → PeerConnection}
    (hf : ∀ conn, p.connections[c]? = some conn → (f conn).link ≠ .ended → conn.link ≠ .ended
      ∧ (.mainLoop ∈ (f conn).outbound.senders → .mainLoop ∈ conn.outbound.senders)
      ∧ (.mainLoop ∈ (f conn).outbound.waiting → .mainLoop ∈ conn.outbound.waiting))
    : LoopStays p (p.update c f) := by
  apply forallConn_update
  . intro d conn hget _ hopen hmem
    exact ⟨conn, hget, hopen, hmem, id⟩
  . intro conn hget hopen hmem
    obtain ⟨hopen', hsenders, hwaiting⟩ := hf conn hget hopen
    exact ⟨conn, hget, hopen', hsenders hmem, hwaiting⟩

theorem linkStays_update {f : PeerConnection → PeerConnection}
    (hf : ∀ conn, p.connections[c]? = some conn → (f conn).link = conn.link
      ∧ (f conn).inbound.senders = conn.inbound.senders
      ∧ (f conn).inbound.waiting ⊆ conn.inbound.waiting
      ∧ (conn.handler.IsGone → (f conn).handler.IsGone))
    : LinkStays p (p.update c f) := by
  apply forallConn_update
  . intro d conn hget _
    exact .inr ⟨conn, hget, rfl, rfl, List.Subset.refl _, id⟩
  . intro conn hget
    exact .inr ⟨conn, hget, hf conn hget⟩

theorem LoopStays.refl : LoopStays p p := by
  intro c conn hget hopen hmem
  exact ⟨conn, hget, hopen, hmem, id⟩

theorem LinkStays.refl : LinkStays p p := by
  intro c conn hget
  exact .inr ⟨conn, hget, rfl, rfl, List.Subset.refl _, id⟩

theorem LoopStays.trans {p1 : TorrentProcessor σ} (h : LoopStays p p1) (h' : LoopStays p1 p')
    : LoopStays p p' := by
  intro c conn' hget' hopen' hmem'
  obtain ⟨conn1, hget1, hopen1, hmem1, hwaiting1⟩ := h' c conn' hget' hopen' hmem'
  obtain ⟨conn, hget, hopen, hmem, hwaiting⟩ := h c conn1 hget1 hopen1 hmem1
  exact ⟨conn, hget, hopen, hmem, fun hw => hwaiting (hwaiting1 hw)⟩

theorem LinkStays.trans {p1 : TorrentProcessor σ} (h : LinkStays p p1) (h' : LinkStays p1 p')
    : LinkStays p p' := by
  intro c conn' hget'
  rcases h' c conn' hget' with hnew | ⟨conn1, hget1, hlink1, hsenders1, hwaiting1, hgone1⟩
  . exact .inl hnew
  . rw [hlink1, hsenders1]
    rcases h c conn1 hget1 with hnew | ⟨conn, hget, hlink, hsenders, hwaiting, hgone⟩
    . exact .inl hnew
    . exact .inr ⟨conn, hget, hlink, hsenders, List.Subset.trans hwaiting1 hwaiting,
        fun hc => hgone1 (hgone hc)⟩

theorem loopStays_setHandler (handler : Handler) : LoopStays p (p.setHandler c handler) := by
  apply loopStays_update
  intro conn _ hopen
  exact ⟨hopen, id, id⟩

theorem linkStays_setHandler {handler : Handler}
    (hgone : ∀ conn, p.connections[c]? = some conn → conn.handler.IsGone → handler.IsGone)
    : LinkStays p (p.setHandler c handler) := by
  apply linkStays_update
  intro conn hget
  exact ⟨rfl, rfl, List.Subset.refl _, hgone conn hget⟩

theorem Delivered.linkStays {w : Party} {msg : Messages} {delivery : Delivery}
    (h : p.Delivered w c msg delivery p')
    : LinkStays p p' := by
  obtain ⟨f, rfl, hf⟩ := h.update_eq
  apply linkStays_update
  intro conn _
  rw [hf conn]
  exact ⟨rfl, rfl, List.Subset.refl _, id⟩

theorem Told.linkStays {peerId : PeerId} {msg : Messages} {delivery : Delivery}
    {signals : List Signal} (h : p.Told peerId msg delivery signals p')
    : LinkStays p p' := by
  cases h with
  | delivered c _ _ hdelivered => exact hdelivered.linkStays
  | pending c _ _ hdelivered => exact hdelivered.linkStays
  | closed => exact .refl

theorem Delivered.loopStays {d : Nat} {msg : Messages} {delivery : Delivery}
    (h : p.Delivered (.handler d) c msg delivery p')
    : LoopStays p p' := by
  cases h with
  | delivered conn outbound hget hopen hsend =>
    obtain ⟨_, _, _, hwaiting, _⟩ := Channel.send_eq_true hsend
    apply loopStays_update
    intro conn1 hget1 _
    rw [hget, Option.some.injEq] at hget1
    subst hget1
    refine ⟨hopen, ?_, ?_⟩
    . intro hmem
      exact ((Channel.mem_senders_of_send_eq_true hsend).mp hmem).2
    . intro hmem
      rwa [hwaiting] at hmem
  | pending conn outbound hget hopen hsend =>
    obtain ⟨_, _, _, hgranted, _⟩ := Channel.send_eq_false hsend
    have hsenders : .mainLoop ∈ outbound.senders → .mainLoop ∈ conn.outbound.senders := by
      intro hmem
      rcases (Channel.mem_senders_of_send_eq_false hsend).mp hmem with heq | hmem
      . contradiction
      . exact hmem
    apply loopStays_update
    intro conn1 hget1 _
    rw [hget, Option.some.injEq] at hget1
    subst hget1
    refine ⟨hopen, hsenders, ?_⟩
    intro hmem
    -- who waits afterwards and was there before was waiting before
    rcases List.mem_append.mp (hsenders (List.mem_append_right _ hmem)) with hgrant | hwait
    . rw [← hgranted] at hgrant
      have hdisjoint := List.disjoint_of_nodup_append outbound.nodup
      exact absurd hmem (hdisjoint hgrant)
    . exact hwait
  | closed => exact .refl

theorem stays_wake (msg : InternalStateMessage)
    (hthere : ∀ conn, p.connections[c]? = some conn → ¬conn.handler.IsGone)
    : LoopStays p (p.wake c msg) ∧ LinkStays p (p.wake c msg) := by
  have hlink : LinkStays p (p.setHandler c
      (if (p.wakeUp.send (.handler c) msg).1 then .receiving else .waking msg)) := by
    apply linkStays_setHandler
    intro conn hget hgone
    exact absurd hgone (hthere conn hget)
  exact ⟨loopStays_setHandler _, hlink⟩

theorem Signalled.stays {msg : Messages} {signals : List Signal}
    (h : p.Signalled c msg signals p')
    (hthere : ∀ conn, p.connections[c]? = some conn → ¬conn.handler.IsGone)
    : LoopStays p p' ∧ LinkStays p p' := by
  have hthere' : ∀ {delivery p1}, p.Delivered (.handler c) c msg delivery p1 →
      ∀ conn, p1.connections[c]? = some conn → ¬conn.handler.IsGone := by
    intro delivery p1 hdelivered conn' hget'
    obtain ⟨f, rfl, hf⟩ := hdelivered.update_eq
    rw [getElem?_update] at hget'
    obtain ⟨conn, hget, rfl⟩ := hget'
    rw [if_pos rfl, hf conn]
    exact hthere conn hget
  cases h with
  | delivered p1 hdelivered =>
    have hthere1 := hthere' hdelivered
    obtain ⟨hloop, hlink⟩ := stays_wake (p := p1.unlock) .wakeup hthere1
    exact ⟨hdelivered.loopStays.trans hloop, hdelivered.linkStays.trans hlink⟩
  | pending p1 hdelivered =>
    refine ⟨hdelivered.loopStays.trans (loopStays_setHandler _), ?_⟩
    refine hdelivered.linkStays.trans (linkStays_setHandler ?_)
    intro conn hget hgone
    exact absurd hgone (hthere' hdelivered conn hget)
  | closed =>
    have hlink : LinkStays p (p.setHandler c .finished) :=
      linkStays_setHandler fun _ _ _ => .inl rfl
    exact ⟨loopStays_setHandler .finished, hlink⟩

theorem Polled.stays {signals : List Signal} (h : p.Polled c signals p')
    : LoopStays p p' ∧ LinkStays p p' := by
  have hthere : ∀ {conn}, p.connections[c]? = some conn → ¬conn.handler.IsGone →
      ∀ conn', p.connections[c]? = some conn' → ¬conn'.handler.IsGone := by
    intro conn hget hhandler conn' hget'
    rw [hget, Option.some.injEq] at hget'
    rwa [← hget']
  cases h with
  | received conn msg inbound hget hhandler hrecv =>
    obtain ⟨_, _, hsenders, hwaiting⟩ := Channel.recv_eq_some hrecv
    constructor
    . apply loopStays_update
      intro conn1 _ hopen
      exact ⟨hopen, id, id⟩
    . apply linkStays_update
      intro conn1 hget1
      rw [hget, Option.some.injEq] at hget1
      subst hget1
      refine ⟨rfl, hsenders, hwaiting, ?_⟩
      rw [hhandler]
      intro hgone
      simp [Handler.IsGone] at hgone
  | finished =>
    have hlink : LinkStays p (p.setHandler c .finished) :=
      linkStays_setHandler fun _ _ _ => .inl rfl
    exact ⟨loopStays_setHandler .finished, hlink⟩
  | lockPending => exact ⟨.refl, .refl⟩
  | handled conn job lock next torrentState _ _ hget hhandler hlock hjob hproceeded =>
    have hthere := hthere hget (by simp [Handler.IsGone, hhandler])
    cases hproceeded with
    | receive =>
      have hlink : LinkStays p (p.setHandler c .receiving) :=
        linkStays_setHandler fun conn hget hgone => absurd hgone (hthere conn hget)
      exact ⟨loopStays_setHandler .receiving, hlink⟩
    | wake msg => exact stays_wake (p := { p with lock, torrentState }.unlock) msg hthere
    | signal _ _ _ hsignalled =>
      exact Signalled.stays (p := { p with lock, torrentState }) hsignalled hthere
  | signalled conn msg _ _ hget hhandler hsignalled =>
    exact hsignalled.stays (hthere hget (by simp [Handler.IsGone, hhandler]))
  | woken conn msg hget hhandler =>
    exact stays_wake _ (hthere hget (by simp [Handler.IsGone, hhandler]))

variable {build : Build} {torrentIo : TorrentIo σ} {config : Config} {torrent : V1Torrent}

theorem Advanced.linkStays {signals : List Signal} (h : p.Coherent)
    (ha : p.Advanced torrentIo torrent signals p')
    : LinkStays p p' := by
  unfold Coherent at h
  cases ha with
  | greeted c msg msgs p1 harm hdelivered =>
    have hlink := hdelivered.linkStays
    exact hlink
  | greetPending c msg msgs p1 harm hdelivered => exact hdelivered.linkStays
  | greetClosed c msg msgs harm hclosed =>
    have hlink : LinkStays p (p.setHandler c .closed) :=
      linkStays_setHandler fun _ _ _ => .inr rfl
    exact hlink
  | registered c conn harm hget =>
    rw [harm] at h
    have hlink : LinkStays p (p.setHandler c .receiving) := by
      apply linkStays_setHandler
      intro conn1 hget1 hgone
      have haccepted := h.handler_eq hget1
      simp [Handler.IsGone, haccepted] at hgone
    exact hlink
  | closing c lock conn harm hlock hget =>
    have hlink : LinkStays p (p.setHandler c .closed) :=
      linkStays_setHandler fun _ _ _ => .inr rfl
    exact hlink
  | passed peerId msg arm _ _ p1 hpasses htold hdone =>
    have hlink := htold.linkStays
    exact hlink
  | passPending peerId msg arm _ _ hpasses htold => exact htold.linkStays
  | dispatched req requests _ p1 harm htold =>
    have hlink := htold.linkStays
    exact hlink
  | dispatchPending req requests _ _ harm htold => exact htold.linkStays
  | choked peerId choked combinedPeers _ _ harm =>
    rw [harm] at h
    contradiction
  | queued req lock harm hlock =>
    obtain ⟨requests, heq⟩ := queueRequests_eq { p with lock } req
    rw [heq]
    exact .refl
  | _ => exact .refl

theorem target_eq_of_passes {peerId : PeerId} {msg : Messages} {arm : Arm}
    (hpasses : Passes p.arm peerId msg arm)
    : p.target = p.peerToTx.lookup peerId := by
  unfold target
  generalize p.arm = arm' at hpasses
  cases hpasses with
  | _ => rfl

/--
What a step of an arm does on the side of the loop: a send, if the arm stands before one.
-/
inductive Sends (p : TorrentProcessor σ) : List Signal → TorrentProcessor σ → Prop where
  | none (signals : List Signal) (p' : TorrentProcessor σ) (htarget : p.target = none)
      (hstays : LoopStays p p')
      : Sends p signals p'
  | pending (c : Nat) (msg : Messages) (p' : TorrentProcessor σ) (htarget : p.target = some c)
      (hdelivered : p.Delivered .mainLoop c msg .pending p')
      : Sends p [] p'
  | done (c : Nat) (msg : Messages) (delivery : Delivery) (signals : List Signal)
      (p1 p' : TorrentProcessor σ) (htarget : p.target = some c)
      (hdelivered : p.Delivered .mainLoop c msg delivery p1) (hdone : delivery ≠ .pending)
      (hstays : LoopStays p1 p')
      : Sends p signals p'

theorem sends_of_told {peerId : PeerId} {msg : Messages} {delivery : Delivery}
    {signals : List Signal} {p1 : TorrentProcessor σ}
    (htarget : p.target = p.peerToTx.lookup peerId)
    (htold : p.Told peerId msg delivery signals p1) (hdone : delivery ≠ .pending)
    (hstays : LoopStays p1 p')
    : p.Sends signals p' := by
  cases htold with
  | delivered c _ hlookup hdelivered =>
    exact .done c msg .delivered _ p1 p' (htarget.trans hlookup) hdelivered hdone hstays
  | pending => contradiction
  | closed hclosed =>
    cases hlookup : p.peerToTx.lookup peerId with
    | none => exact .none _ p' (htarget.trans hlookup) hstays
    | some c =>
      have hended : p.Delivered .mainLoop c msg .closed p := .closed fun conn hget =>
        hclosed c conn hlookup hget
      exact .done c msg .closed _ p p' (htarget.trans hlookup) hended hdone hstays

theorem sends_of_told_pending {peerId : PeerId} {msg : Messages} {signals : List Signal}
    (htarget : p.target = p.peerToTx.lookup peerId)
    (htold : p.Told peerId msg .pending signals p')
    : p.Sends signals p' := by
  cases htold with
  | pending c _ hlookup hdelivered => exact .pending c msg p' (htarget.trans hlookup) hdelivered

theorem Advanced.sends {signals : List Signal} (h : p.Coherent)
    (ha : p.Advanced torrentIo torrent signals p')
    : p.Sends signals p' := by
  unfold Coherent at h
  have hgreeting : ∀ {c msg msgs}, p.arm = .greeting c (msg :: msgs) → p.target = some c := by
    intro c msg msgs harm
    simp [target, harm]
  have hdispatching : ∀ {req requests}, p.arm = .dispatching (req :: requests) →
      p.target = p.peerToTx.lookup req.peerId := by
    intro req requests harm
    simp [target, harm]
  cases ha with
  | lockPending lock _ hneeds =>
    refine .none _ _ ?_ .refl
    unfold target
    generalize p.arm = arm at hneeds
    cases arm <;> first | rfl | contradiction
  | greeted c msg msgs p1 harm hdelivered =>
    have hstays : LoopStays p1 p1 := .refl
    exact .done c msg .delivered _ p1 _ (hgreeting harm) hdelivered (by simp) hstays
  | greetPending c msg msgs p1 harm hdelivered => exact .pending c msg p' (hgreeting harm) hdelivered
  | greetClosed c msg msgs harm hclosed =>
    have hstays : LoopStays p (p.setHandler c .closed) := loopStays_setHandler .closed
    exact .done c msg .closed _ p _ (hgreeting harm) (.closed hclosed) (by simp) hstays
  | passed peerId msg arm _ _ p1 hpasses htold hdone =>
    have hstays : LoopStays p1 p1 := .refl
    exact sends_of_told (target_eq_of_passes hpasses) htold hdone hstays
  | passPending peerId msg arm _ _ hpasses htold =>
    exact sends_of_told_pending (target_eq_of_passes hpasses) htold
  | dispatched req requests _ p1 harm htold =>
    have hstays : LoopStays p1 p1 := .refl
    exact sends_of_told (hdispatching harm) htold (by simp) hstays
  | dispatchPending req requests _ _ harm htold =>
    exact sends_of_told_pending (hdispatching harm) htold
  | undelivered req requests harm hclosed =>
    have hstays : LoopStays p p := .refl
    have htold : p.Told req.peerId .keepAlive .closed [] p := .closed hclosed
    exact sends_of_told (hdispatching harm) htold (by simp) hstays
  | choked peerId choked combinedPeers _ _ harm =>
    rw [harm] at h
    contradiction
  | registered c conn harm hget =>
    have hstays : LoopStays p (p.setHandler c .receiving) := loopStays_setHandler .receiving
    exact .none _ _ (by simp [target, harm]) hstays
  | closing c lock conn harm hlock hget =>
    have hstays : LoopStays p (p.setHandler c .closed) := loopStays_setHandler .closed
    exact .none _ _ (by simp [target, harm]) hstays
  | queued req lock harm hlock =>
    refine .none _ _ (by simp [target, harm]) ?_
    obtain ⟨requests, heq⟩ := queueRequests_eq { p with lock } req
    rw [heq]
    exact .refl
  | initConnection c lock harm => exact .none _ _ (by simp [target, harm]) .refl
  | announced pieceId harm => exact .none _ _ (by simp [target, harm]) .refl
  | dispatchedAll harm => exact .none _ _ (by simp [target, harm]) .refl
  | dequeued lock harm => exact .none _ _ (by simp [target, harm]) .refl
  | answerSkipped req dequed harm => exact .none _ _ (by simp [target, harm]) .refl
  | answerRead req dequed block io harm => exact .none _ _ (by simp [target, harm]) .refl
  | answerFailed req dequed e io harm => exact .none _ _ (by simp [target, harm]) .refl
  | answeredAll harm => exact .none _ _ (by simp [target, harm]) .refl
  | chokedAll harm => exact .none _ _ (by simp [target, harm]) .refl
  | wokeUp wakeUp harm => exact .none _ _ (by simp [target, harm]) .refl
  | wakePending wakeUp harm => exact .none _ _ (by simp [target, harm]) .refl

theorem WaitKept.noneOwed_of_delivered {msg : Messages} {delivery : Delivery} (h : p.WaitKept)
    (htarget : p.target = some c) (hdelivered : p.Delivered .mainLoop c msg delivery p')
    (hdone : delivery ≠ .pending)
    : p'.NoneOwed := by
  have hother : ∀ d conn, p.connections[d]? = some conn → c ≠ d → conn.link ≠ .ended →
      .mainLoop ∉ conn.outbound.senders := by
    intro d conn hget hne hopen hmem
    have hsome := h.loop d conn hget hopen hmem
    rw [htarget, Option.some.injEq] at hsome
    contradiction
  cases hdelivered with
  | delivered conn outbound hget hopen hsend =>
    apply forallConn_update hother
    intro conn1 hget1 _ hmem
    exact ((Channel.mem_senders_of_send_eq_true hsend).mp hmem).1 rfl
  | pending => contradiction
  | closed hclosed =>
    intro d conn hget hopen
    by_cases heq : c = d
    . subst heq
      exact absurd (hclosed conn hget) hopen
    . exact hother d conn hget heq hopen

theorem WaitKept.noneOwed_or_pending {signals : List Signal} (h : p.WaitKept)
    (hsends : p.Sends signals p')
    : p'.NoneOwed ∨ ∃ c msg, p.target = some c ∧ p.Delivered .mainLoop c msg .pending p' := by
  cases hsends with
  | none _ _ htarget hstays => exact .inl (hstays.noneOwed (h.noneOwed htarget))
  | pending c msg _ htarget hdelivered => exact .inr ⟨c, msg, htarget, hdelivered⟩
  | done c msg delivery _ p1 _ htarget hdelivered hdone hstays =>
    exact .inl (hstays.noneOwed (h.noneOwed_of_delivered htarget hdelivered hdone))

theorem Sends.loop {signals : List Signal} (hsends : p.Sends signals p') (h : p.WaitKept)
    : p'.ForallConn fun c conn =>
        conn.link ≠ .ended → .mainLoop ∈ conn.outbound.senders → p'.target = some c := by
  rcases h.noneOwed_or_pending hsends with hnone | ⟨c, msg, htarget, hdelivered⟩
  . intro d conn hget hopen hmem
    exact absurd hmem (hnone d conn hget hopen)
  . cases hdelivered with
    | pending conn outbound hget hopen hsend =>
      apply forallConn_update
      . intro d conn1 hget1 hne hopen1 hmem
        exact h.loop d conn1 hget1 hopen1 hmem
      . intro _ _ _ _
        exact htarget

theorem LoopStays.loop (h : LoopStays p p') (hkept : p.WaitKept)
    (htarget : p'.target = p.target ∨ p.target = none)
    : p'.ForallConn fun c conn =>
        conn.link ≠ .ended → .mainLoop ∈ conn.outbound.senders → p'.target = some c := by
  intro c conn' hget' hopen' hmem'
  rcases htarget with heq | hnone
  . obtain ⟨conn, hget, hopen, hmem, _⟩ := h c conn' hget' hopen' hmem'
    rw [heq]
    exact hkept.loop c conn hget hopen hmem
  . exact absurd hmem' (h.noneOwed (hkept.noneOwed hnone) c conn' hget' hopen')

theorem LinkStays.link (h : LinkStays p p') (hkept : p.WaitKept)
    : p'.ForallConn fun _ conn =>
        conn.link ≠ .ended → (.runConnection ∈ conn.inbound.senders ↔ conn.link.isSending = true) := by
  intro c conn' hget' hopen'
  rcases h c conn' hget' with ⟨hnot, hmem⟩ | ⟨conn, hget, hlink, hsenders, _⟩
  . simp [hnot, hmem]
  . rw [hlink] at hopen' ⊢
    rw [hsenders]
    exact hkept.link c conn hget hopen'

theorem SentToProcessor.link {conn conn' : PeerConnection} {msg : Messages}
    (h : SentToProcessor conn msg conn') (hopen : conn'.link ≠ .ended)
    : .runConnection ∈ conn'.inbound.senders ↔ conn'.link.isSending = true := by
  cases h with
  | gone => contradiction
  | sent inbound hthere hsend =>
    have hnot : .runConnection ∉ inbound.senders := by
      intro hmem
      exact ((Channel.mem_senders_of_send_eq_true hsend).mp hmem).1 rfl
    simp [hnot, Link.isSending]
  | pending inbound hthere hsend =>
    have hmem : .runConnection ∈ inbound.senders :=
      (Channel.mem_senders_of_send_eq_false hsend).mpr (.inl rfl)
    simp [hmem, Link.isSending]

theorem SentToProcessor.waits {conn conn' : PeerConnection} {msg : Messages}
    (h : SentToProcessor conn msg conn') (hsending : conn'.link.isSending = true)
    : ¬conn.handler.IsGone ∧ ¬conn.inbound.HasSlot ∧ .runConnection ∉ conn.inbound.granted := by
  cases h with
  | gone => contradiction
  | sent => contradiction
  | pending inbound hthere hsend =>
    obtain ⟨_, _, _, _, _, hgranted, hslot⟩ := Channel.send_eq_false hsend
    exact ⟨hthere, hslot, hgranted⟩

theorem Ran.loopStays {event : LinkEvent} {conn conn' : PeerConnection}
    (hget : p.connections[c]? = some conn) (hran : Ran conn event conn')
    : LoopStays p (p.update c fun _ => conn') := by
  obtain ⟨_, _, hsenders, hopen⟩ := hran.frame
  have hsent : ∀ {msg}, SentToProcessor conn msg conn' → conn'.outbound = conn.outbound := by
    intro msg hsent
    cases hsent with
    | _ => rfl
  have hwaiting : conn'.outbound.waiting ⊆ conn.outbound.waiting := by
    cases hran with
    | read _ _ _ hs => rw [hsent hs]; exact List.Subset.refl _
    | resumed _ _ _ hs => rw [hsent hs]; exact List.Subset.refl _
    | wrote _ _ _ _ hrecv => exact (Channel.recv_eq_some hrecv).2.2.2
    | eof => exact List.Subset.refl _
    | writeFailed => exact List.Subset.refl _
    | hungUp => exact List.Subset.refl _
  apply loopStays_update
  intro conn1 hget1 _
  rw [hget, Option.some.injEq] at hget1
  subst hget1
  rw [hsenders]
  exact ⟨hopen, id, fun hmem => hwaiting hmem⟩

theorem Ran.link {event : LinkEvent} {conn conn' : PeerConnection} (h : Ran conn event conn')
    (hlink : .runConnection ∈ conn.inbound.senders ↔ conn.link.isSending = true)
    (hopen : conn'.link ≠ .ended)
    : .runConnection ∈ conn'.inbound.senders ↔ conn'.link.isSending = true := by
  cases h with
  | read _ _ _ hsent => exact hsent.link hopen
  | resumed _ _ _ hsent => exact hsent.link hopen
  | eof hselecting =>
    rw [hselecting] at hlink
    exact hlink
  | wrote _ _ _ hselecting =>
    rw [hselecting] at hlink
    exact hlink
  | writeFailed => contradiction
  | hungUp => contradiction

/--
The sides wait in turns of their own only.
-/
theorem Stepped.turn {event : StartEvent} {signals : List Signal}
    (hs : p.Stepped build torrentIo config torrent event signals p')
    : (LoopStays p p' ∧ LinkStays p p' ∧ (p'.target = p.target ∨ p.target = none))
        ∨ (∃ c linkEvent conn conn', event = .link c linkEvent ∧ p.connections[c]? = some conn
          ∧ Ran conn linkEvent conn' ∧ p' = p.update c fun _ => conn')
        ∨ (event = .advance ∧ p.Advanced torrentIo torrent signals p') := by
  have hset : ∀ {c conn} (handler : Handler), p.connections[c]? = some conn →
      ¬conn.handler.IsGone →
      LoopStays p (p.setHandler c handler) ∧ LinkStays p (p.setHandler c handler) := by
    intro c conn handler hget hthere
    refine ⟨loopStays_setHandler handler, linkStays_setHandler ?_⟩
    intro conn1 hget1 hgone
    rw [hget, Option.some.injEq] at hget1
    subst hget1
    contradiction
  have harm : ∀ {arm}, p.arm = arm → arm = .select ∨ arm = .computing ∨ arm = .unchoking
      ∨ arm = .expiring → p'.target = p.target ∨ p.target = none := by
    rintro arm harm (rfl | rfl | rfl | rfl) <;> exact .inr (by simp [target, harm])
  cases hs with
  | connected peerId =>
    refine .inl ⟨?_, ?_, .inl rfl⟩
    . apply ForallConn.append LoopStays.refl
      intro _ hmem
      contradiction
    . apply ForallConn.append LinkStays.refl
      left
      simp [Channel.new, Channel.senders, Link.isSending]
  | linked c event conn conn' hget hran => exact .inr (.inl ⟨c, event, conn, conn', rfl, hget, hran, rfl⟩)
  | written c conn index begin block finished io hget hhandler =>
    obtain ⟨hloop, hlink⟩ := hset (.locking (.reply { index, begin, finished })) hget
      (by simp [Handler.IsGone, hhandler])
    exact .inl ⟨hloop, hlink, .inl rfl⟩
  | writeFailed c conn index begin block e io hget hhandler =>
    obtain ⟨hloop, hlink⟩ := hset .failed hget (by simp [Handler.IsGone, hhandler])
    exact .inl ⟨hloop, hlink, .inl rfl⟩
  | polled c _ _ hselect hpolled =>
    obtain ⟨hloop, hlink⟩ := hpolled.stays
    exact .inl ⟨hloop, hlink, harm hselect (by simp)⟩
  | accepted c conn hselect hget hhandler =>
    obtain ⟨hloop, hlink⟩ := hset .accepted hget (by simp [Handler.IsGone, hhandler])
    exact .inl ⟨hloop, hlink, harm hselect (by simp)⟩
  | took peerIds msg wakeUp arm hselect =>
    exact .inl ⟨LoopStays.refl, LinkStays.refl, harm hselect (by simp)⟩
  | ticked hselect => exact .inl ⟨LoopStays.refl, LinkStays.refl, harm hselect (by simp)⟩
  | advanced _ _ hadvanced => exact .inr (.inr ⟨rfl, hadvanced⟩)
  | lockPending => exact .inl ⟨LoopStays.refl, LinkStays.refl, .inl rfl⟩
  | computed _ _ lock _ _ hcomputing =>
    exact .inl ⟨LoopStays.refl, LinkStays.refl, harm hcomputing (by simp)⟩
  | unchoked _ _ lock hunchoking =>
    exact .inl ⟨LoopStays.refl, LinkStays.refl, harm hunchoking (by simp)⟩
  | noneExpired now lock _ hexpiring =>
    exact .inl ⟨LoopStays.refl, LinkStays.refl, harm hexpiring (by simp)⟩
  | someExpired now lock _ _ _ hexpiring =>
    exact .inl ⟨LoopStays.refl, LinkStays.refl, harm hexpiring (by simp)⟩

theorem WaitKept.stepped {event : StartEvent} {signals : List Signal} (h : p.WaitKept)
    (hs : p.Stepped build torrentIo config torrent event signals p')
    : p'.WaitKept := by
  have hcoherent := h.coherent.stepped hs
  rcases hs.turn with ⟨hloop, hlink, htarget⟩ | ⟨c, linkEvent, conn, conn', _, hget, hran, rfl⟩
    | ⟨_, hadvanced⟩
  . exact ⟨hcoherent, hloop.loop h htarget, hlink.link h⟩
  . refine ⟨hcoherent, (hran.loopStays hget).loop h (.inl rfl), ?_⟩
    apply ForallConn.update h.link
    intro conn1 hget1 hlink hopen
    rw [hget, Option.some.injEq] at hget1
    subst hget1
    exact hran.link (hlink hran.frame.2.2.2) hopen
  . exact ⟨hcoherent, (hadvanced.sends h.coherent).loop h,
      (hadvanced.linkStays h.coherent).link h⟩

/--
A connection begins to wait when it reads a message for a full channel, and the loop when it has one
to send into a full channel.
-/
theorem WaitKept.waits {event : StartEvent} {signals : List Signal} (h : p.WaitKept)
    (hs : p.Stepped build torrentIo config torrent event signals p')
    : (∀ c, p'.LoopWaits c → p.LoopWaits c ∨ (event = .advance ∧ p.target = some c
          ∧ ∃ conn ∈ p.connections[c]?, .mainLoop ∉ conn.outbound.granted ∧ ¬conn.outbound.HasSlot))
        ∧
      ∀ c, p'.LinkWaits c → p.LinkWaits c ∨ ∃ msg, event = .link c (.read msg)
        ∧ ∃ conn ∈ p.connections[c]?, ¬conn.handler.IsGone ∧ ¬conn.inbound.HasSlot := by
  rcases hs.turn with ⟨hloop, hlink, htarget⟩ | ⟨c, linkEvent, conn, conn', rfl, hget, hran, rfl⟩
    | ⟨rfl, hadvanced⟩
  . refine ⟨?_, fun c hwaits => .inl (hlink.linkWaits hwaits)⟩
    intro c hwaits
    rcases htarget with heq | hnone
    . exact .inl (hloop.loopWaits heq hwaits)
    . exact absurd hwaits (hloop.noneOwed (h.noneOwed hnone)).not_loopWaits
  . refine ⟨fun d hwaits => .inl ((hran.loopStays hget).loopWaits rfl hwaits), ?_⟩
    intro d hwaits
    obtain ⟨conn1, hget1, hsending, hthere, hmem⟩ := hwaits
    obtain ⟨conn2, hget2, rfl⟩ := getElem?_update.mp hget1
    split at hsending
    . next heq =>
      subst heq
      rw [if_pos rfl] at hthere hmem
      have hno : ∀ {msg}, SentToProcessor conn msg conn' →
          ¬conn.handler.IsGone ∧ ¬conn.inbound.HasSlot ∧ .runConnection ∉ conn.inbound.granted :=
        fun hsent => hsent.waits hsending
      cases hran with
      | read msg _ hlink hsent =>
        obtain ⟨hthere, hslot, _⟩ := hno hsent
        exact .inr ⟨msg, rfl, conn, hget, hthere, hslot⟩
      | resumed msg _ hlink hsent =>
        -- it was waiting before
        obtain ⟨hthere, _, hgranted⟩ := hno hsent
        have hsenders := (h.link c conn hget (by simp [hlink])).mpr (by simp [hlink, Link.isSending])
        rcases List.mem_append.mp hsenders with hc | hwaiting
        . contradiction
        . exact .inl ⟨conn, hget, by simp [hlink, Link.isSending], hthere, hwaiting⟩
      | eof => contradiction
      | wrote => contradiction
      | writeFailed => contradiction
      | hungUp => contradiction
    . next hne =>
      rw [if_neg hne] at hthere hmem
      exact .inl ⟨conn2, hget2, hsending, hthere, hmem⟩
  . refine ⟨?_, fun c hwaits => .inl ((hadvanced.linkStays h.coherent).linkWaits hwaits)⟩
    intro d hwaits
    rcases h.noneOwed_or_pending (hadvanced.sends h.coherent) with hnone
      | ⟨c, msg, htarget, hdelivered⟩
    . exact absurd hwaits hnone.not_loopWaits
    . cases hdelivered with
      | pending conn outbound hget hopen hsend =>
        obtain ⟨_, _, _, _, _, hgranted, hslot⟩ := Channel.send_eq_false hsend
        have heq : p.target = some d := hwaits.1
        obtain rfl : c = d := by
          rwa [htarget, Option.some.injEq] at heq
        exact .inr ⟨rfl, htarget, conn, hget, hgranted, hslot⟩

theorem WaitKept.noCircularWait {event : StartEvent} {signals : List Signal} (h : p.WaitKept)
    (hs : p.Stepped build torrentIo config torrent event signals p') (hno : p.NoCircularWait)
    (hguard : p.FindsSlot event)
    : p'.NoCircularWait := by
  obtain ⟨hloop, hlink⟩ := h.waits hs
  intro c hloop' hlink'
  rcases hloop c hloop' with hwaits | ⟨rfl, htarget, conn, hget, hgranted, hslot⟩
  . rcases hlink c hlink' with hwaits' | ⟨msg, rfl, conn, hget, hthere, hslot⟩
    . exact hno c hwaits hwaits'
    . rcases hguard hwaits conn hget with hgone | hslot'
      . contradiction
      . contradiction
  . rcases hlink c hlink' with hwaits' | ⟨msg, heq, _⟩
    . rcases hguard c htarget hwaits' conn hget with hgranted' | hslot'
      . contradiction
      . contradiction
    . contradiction

theorem WaitKept.circularWait {event : StartEvent} {signals : List Signal} (h : p.WaitKept)
    (hs : p.Stepped build torrentIo config torrent event signals p')
    (hguard : ¬p.FindsSlot event)
    : ¬p'.NoCircularWait := by
  cases hs with
  | linked c event conn conn' hget hran =>
    cases hran with
    | read msg _ hlink hsent =>
      simp only [FindsSlot] at hguard
      push Not at hguard
      obtain ⟨⟨htarget, conn1, hget1, hopen, hwaiting⟩, conn2, hget2, hthere, hslot⟩ := hguard
      obtain rfl : conn = conn1 := by
        rwa [Option.mem_def, hget, Option.some.injEq] at hget1
      obtain rfl : conn = conn2 := by
        rwa [Option.mem_def, hget, Option.some.injEq] at hget2
      intro hno
      cases hsent with
      | gone => contradiction
      | sent inbound _ hsend =>
        obtain ⟨_, _, _, _, hgranted⟩ := Channel.send_eq_true hsend
        rcases hgranted with hgranted | hslot'
        . have hsending := (h.link c conn hget hopen).mp (List.mem_append_left _ hgranted)
          rw [hlink] at hsending
          contradiction
        . contradiction
      | pending inbound _ hsend =>
        obtain ⟨_, _, _, _, hwaits, _⟩ := Channel.send_eq_false hsend
        apply hno c
        . refine ⟨htarget, _, getElem?_update.mpr ⟨conn, hget, rfl⟩, ?_⟩
          rw [if_pos rfl]
          exact ⟨by simp, hwaiting⟩
        . refine ⟨_, getElem?_update.mpr ⟨conn, hget, rfl⟩, ?_⟩
          rw [if_pos rfl]
          exact ⟨rfl, hthere, hwaits⟩
    | _ => exact absurd trivial hguard
  | advanced _ _ hadvanced =>
    simp only [FindsSlot] at hguard
    push Not at hguard
    obtain ⟨c, htarget, ⟨conn, hget, hsending, hthere, hwaiting⟩, conn1, hget1, hgranted, hslot⟩ :=
      hguard
    obtain rfl : conn = conn1 := by
      rwa [Option.mem_def, hget, Option.some.injEq] at hget1
    have hopen : conn.link ≠ .ended := by
      intro hended
      rw [hended] at hsending
      contradiction
    cases hadvanced.sends h.coherent with
    | none _ _ hnone =>
      rw [hnone] at htarget
      contradiction
    | done d msg delivery _ p1 _ htarget' hdelivered hdone =>
      rw [htarget', Option.mem_def, Option.some.injEq] at htarget
      subst htarget
      cases hdelivered with
      | delivered conn2 outbound hget2 _ hsend =>
        obtain rfl : conn = conn2 := by
          rwa [hget2, Option.mem_def, Option.some.injEq, eq_comm] at hget
        obtain ⟨_, _, _, _, hgranted'⟩ := Channel.send_eq_true hsend
        tauto
      | pending => contradiction
      | closed hclosed => exact absurd (hclosed conn hget) hopen
    | pending d msg _ htarget' hdelivered =>
      rw [htarget', Option.mem_def, Option.some.injEq] at htarget
      subst htarget
      intro hno
      cases hdelivered with
      | pending conn2 outbound hget2 _ hsend =>
        obtain rfl : conn = conn2 := by
          rwa [hget2, Option.mem_def, Option.some.injEq, eq_comm] at hget
        obtain ⟨_, _, _, _, hwaits, _⟩ := Channel.send_eq_false hsend
        apply hno d
        . refine ⟨htarget', _, getElem?_update.mpr ⟨conn, hget2, rfl⟩, ?_⟩
          rw [if_pos rfl]
          exact ⟨hopen, hwaits⟩
        . refine ⟨_, getElem?_update.mpr ⟨conn, hget2, rfl⟩, ?_⟩
          rw [if_pos rfl]
          exact ⟨hsending, hthere, hwaiting⟩
  | lockPending event _ hlocks =>
    cases event with
    | compute => exact absurd trivial hguard
    | unchoke => exact absurd trivial hguard
    | expire => exact absurd trivial hguard
    | _ => contradiction
  | _ => exact absurd trivial hguard

structure CircularWait (p : TorrentProcessor σ) (c : Nat) : Prop where
  loop : p.LoopWaits c
  link : p.LinkWaits c

theorem CircularWait.keeps (h : p.CircularWait c) (htarget : p'.target = p.target)
    (hkeeps : ∀ conn, p.connections[c]? = some conn → ∃ conn', p'.connections[c]? = some conn'
      ∧ conn'.link = conn.link ∧ conn'.inbound = conn.inbound ∧ conn'.outbound = conn.outbound
      ∧ (conn'.handler.IsGone → conn.handler.IsGone))
    : p'.CircularWait c := by
  obtain ⟨⟨hsome, conn, hget, hopen, hloop⟩, conn1, hget1, hsending, hthere, hlink⟩ := h
  obtain ⟨conn', hget', heq, hinbound, houtbound, hgone⟩ := hkeeps conn hget
  obtain rfl : conn = conn1 := by
    rwa [Option.mem_def, hget, Option.some.injEq] at hget1
  constructor
  . refine ⟨htarget.trans hsome, conn', hget', ?_, ?_⟩
    . rwa [heq]
    . rwa [houtbound]
  . refine ⟨conn', hget', ?_, fun hc => hthere (hgone hc), ?_⟩
    . rwa [heq]
    . rwa [hinbound]

theorem CircularWait.arm_ne (h : p.CircularWait c) {arm : Arm}
    (harm : arm = .select ∨ arm = .computing ∨ arm = .unchoking ∨ arm = .expiring)
    : p.arm ≠ arm := by
  intro heq
  have hsome := h.loop.1
  rcases harm with rfl | rfl | rfl | rfl <;> simp [target, heq] at hsome

theorem CircularWait.ran {event : LinkEvent} {conn conn' : PeerConnection} (h : p.CircularWait c)
    (hget : p.connections[c]? = some conn) (hran : Ran conn event conn')
    : conn' = conn := by
  obtain ⟨conn1, hget1, hsending, hthere, hwaiting⟩ := h.link
  obtain rfl : conn = conn1 := by
    rwa [Option.mem_def, hget, Option.some.injEq] at hget1
  cases hran with
  | resumed msg _ hlink hsent =>
    cases hsent with
    | gone => contradiction
    | sent inbound _ hsend =>
      simp [Channel.send_of_mem_waiting hwaiting] at hsend
    | pending inbound _ hsend =>
      rw [Channel.send_of_mem_waiting hwaiting, Prod.mk.injEq] at hsend
      rw [← hsend.2, ← hlink]
  | read _ _ hlink => simp [hlink, Link.isSending] at hsending
  | eof hlink => simp [hlink, Link.isSending] at hsending
  | wrote _ _ _ hlink => simp [hlink, Link.isSending] at hsending
  | writeFailed _ hlink => simp [hlink, Link.isSending] at hsending
  | hungUp hlink => simp [hlink, Link.isSending] at hsending

theorem CircularWait.sends {signals : List Signal} (h : p.CircularWait c)
    (hsends : p.Sends signals p')
    : p'.CircularWait c ∧ p'.arm = p.arm ∧ signals = [] := by
  obtain ⟨htarget, conn, hget, hopen, hwaiting⟩ := h.loop
  cases hsends with
  | none _ _ hnone =>
    rw [hnone] at htarget
    contradiction
  | pending d msg _ htarget' hdelivered =>
    obtain rfl : d = c := by
      rwa [htarget', Option.some.injEq] at htarget
    refine ⟨?_, hdelivered.arm_eq, rfl⟩
    cases hdelivered with
    | pending conn1 outbound hget1 _ hsend =>
      obtain rfl : conn = conn1 := by
        rwa [Option.mem_def, hget1, Option.some.injEq, eq_comm] at hget
      rw [Channel.send_of_mem_waiting hwaiting, Prod.mk.injEq] at hsend
      refine h.keeps rfl ?_
      intro conn2 hget2
      refine ⟨_, getElem?_update.mpr ⟨conn2, hget2, rfl⟩, ?_⟩
      obtain rfl : conn = conn2 := by
        rwa [hget1, Option.some.injEq] at hget2
      rw [if_pos rfl]
      exact ⟨rfl, rfl, hsend.2.symm, id⟩
  | done d msg delivery _ p1 _ htarget' hdelivered hdone =>
    obtain rfl : d = c := by
      rwa [htarget', Option.some.injEq] at htarget
    cases hdelivered with
    | delivered conn1 outbound hget1 _ hsend =>
      obtain rfl : conn = conn1 := by
        rwa [Option.mem_def, hget1, Option.some.injEq, eq_comm] at hget
      simp [Channel.send_of_mem_waiting hwaiting] at hsend
    | pending => contradiction
    | closed hclosed => exact absurd (hclosed conn hget) hopen

theorem CircularWait.stepped {event : StartEvent} {signals : List Signal} (h : p.CircularWait c)
    (hcoherent : p.Coherent) (hs : p.Stepped build torrentIo config torrent event signals p')
    : p'.CircularWait c ∧ p'.arm = p.arm ∧ ∀ d msg, .sent d msg ∉ signals := by
  have hother : ∀ {d handler}, ¬handler.IsGone → (p.setHandler d handler).CircularWait c := by
    intro d handler hthere
    refine h.keeps rfl ?_
    intro conn hget
    refine ⟨_, getElem?_update.mpr ⟨conn, hget, rfl⟩, ?_⟩
    split
    . exact ⟨rfl, rfl, rfl, fun hgone => absurd hgone hthere⟩
    . exact ⟨rfl, rfl, rfl, id⟩
  cases hs with
  | connected peerId =>
    refine ⟨?_, rfl, by simp⟩
    refine h.keeps rfl ?_
    intro conn hget
    refine ⟨conn, ?_, rfl, rfl, rfl, id⟩
    rwa [List.getElem?_append_left (List.getElem?_eq_some_iff.mp hget).1]
  | linked d linkEvent conn conn' hget hran =>
    refine ⟨?_, rfl, by simp⟩
    refine h.keeps rfl ?_
    intro conn1 hget1
    refine ⟨_, getElem?_update.mpr ⟨conn1, hget1, rfl⟩, ?_⟩
    split
    . next heq =>
      subst heq
      obtain rfl : conn = conn1 := by
        rwa [hget, Option.some.injEq] at hget1
      rw [h.ran hget hran]
      exact ⟨rfl, rfl, rfl, id⟩
    . exact ⟨rfl, rfl, rfl, id⟩
  | written d conn index begin block finished io hget hhandler =>
    refine ⟨?_, rfl, ?_⟩
    . have hkept : (p.setHandler d (.locking (.reply { index, begin, finished }))).CircularWait c :=
        hother (by simp [Handler.IsGone])
      exact ⟨hkept.loop, hkept.link⟩
    . split <;> simp
  | writeFailed d conn index begin block e io hget hhandler =>
    refine ⟨?_, rfl, by simp⟩
    have hkept : (p.setHandler d .failed).CircularWait c := hother (by simp [Handler.IsGone])
    exact ⟨hkept.loop, hkept.link⟩
  | advanced _ _ hadvanced =>
    obtain ⟨hkept, harm, rfl⟩ := h.sends (hadvanced.sends hcoherent)
    exact ⟨hkept, harm, by simp⟩
  | lockPending => exact ⟨⟨h.loop, h.link⟩, rfl, by simp⟩
  | polled _ _ _ hselect => exact absurd hselect (h.arm_ne (by simp))
  | accepted _ _ hselect => exact absurd hselect (h.arm_ne (by simp))
  | took _ _ _ _ hselect => exact absurd hselect (h.arm_ne (by simp))
  | ticked hselect => exact absurd hselect (h.arm_ne (by simp))
  | computed _ _ _ _ _ hcomputing => exact absurd hcomputing (h.arm_ne (by simp))
  | unchoked _ _ _ hunchoking => exact absurd hunchoking (h.arm_ne (by simp))
  | noneExpired _ _ _ hexpiring => exact absurd hexpiring (h.arm_ne (by simp))
  | someExpired _ _ _ _ _ hexpiring => exact absurd hexpiring (h.arm_ne (by simp))

/--
A circular wait lasts for ever, and nothing is sent any more.
-/
theorem CircularWait.of_run {tr : StartTrace} (h : p.CircularWait c) (hcoherent : p.Coherent)
    (hrun : (startTask build torrentIo config torrent).Run p tr p')
    : p'.CircularWait c ∧ p'.arm = p.arm ∧ ∀ x ∈ tr, ∀ d msg, .sent d msg ∉ x.2 := by
  suffices hkept : p'.Coherent ∧ p'.CircularWait c ∧ p'.arm = p.arm
      ∧ ∀ x ∈ tr, ∀ d msg, .sent d msg ∉ x.2 from hkept.2
  apply hrun.invariant_trace (P := fun tr p' => p'.Coherent ∧ p'.CircularWait c ∧ p'.arm = p.arm
    ∧ ∀ x ∈ tr, ∀ d msg, .sent d msg ∉ x.2)
  . intro tr p1 event signals p2 _ hstep ⟨hcoherent, h, harm, hsent⟩
    have hs := stepped_of_step hstep
    obtain ⟨h', harm', hsignals⟩ := h.stepped hcoherent hs
    refine ⟨hcoherent.stepped hs, h', harm'.trans harm, ?_⟩
    intro x hx
    rw [List.mem_append, List.mem_singleton] at hx
    rcases hx with hx | rfl
    . exact hsent x hx
    . exact hsignals
  . refine ⟨hcoherent, h, rfl, ?_⟩
    intro x hx
    contradiction

theorem waitKept_new (config : Config) (torrent : V1Torrent) (io : σ)
    : (new config torrent io).WaitKept := by
  refine ⟨trivial, ?_, ?_⟩
  . intro c conn hget
    contradiction
  . intro c conn hget
    contradiction

/--
The loop and a connection never wait for each other if, and only if, whenever one of them waits the
other one finds a slot.
-/
theorem noCircularWait_iff_of_run (build : Build) (torrentIo : TorrentIo σ) (config : Config)
    (torrent : V1Torrent) (io : σ) (p : TorrentProcessor σ) (tr : StartTrace)
    (hrun : (startTask build torrentIo config torrent).Run (new config torrent io) tr p)
    : (startTask build torrentIo config torrent).RunWhile FindsSlot (new config torrent io) tr p
        ↔
      ∀ tr1 tr2 p1, tr = tr1 ++ tr2 →
        (startTask build torrentIo config torrent).Run (new config torrent io) tr1 p1 →
        p1.NoCircularWait := by
  apply Machine.RunWhile.iff_of_invariant (P := fun _ p1 => p1.NoCircularWait)
    (Q := fun _ p1 => p1.WaitKept ∧ p1.NoCircularWait) hrun
  . intro _ p1 event signals p2 ⟨hkept, hno⟩ hstep hguard
    have hs := stepped_of_step hstep
    exact ⟨hkept.stepped hs, hkept.noCircularWait hs hno hguard⟩
  . intro _ p1 event signals p2 ⟨hkept, _⟩ hstep hguard
    exact hkept.circularWait (stepped_of_step hstep) hguard
  . intro _ p1 ⟨_, hno⟩
    exact hno
  . refine ⟨waitKept_new config torrent io, ?_⟩
    intro c ⟨htarget, _⟩
    contradiction

/--
The loop waits for a slot while the connection reads into a free one.
-/
theorem noCircularWait_readOnce
    : ∃ tr p, (onePieceTask ⟨false, 2, 1, 1⟩).Run (onePieceStart ⟨false, 2, 1, 1⟩) tr p
        ∧ p.LoopWaits 0 ∧ p.NoCircularWait := by
  obtain ⟨tr, p, hrun, _, hwaits⟩ :=
    ((onePieceTask ⟨false, 2, 1, 1⟩).restrict FindsSlot).exists_run_of_exec
      (onePieceStart ⟨false, 2, 1, 1⟩)
      ((greetingEvents 0 [5]).dropLast ++ [.link 0 (.read .keepAlive)])
      (fun x => decide (x.2.LoopWaits 0)) (b := true) (by decide +kernel)
  have hwhile := Machine.runWhile_of_restrict _ _ hrun
  have hrun' : (onePieceTask ⟨false, 2, 1, 1⟩).Run (onePieceStart ⟨false, 2, 1, 1⟩) tr p :=
    hwhile.mono fun _ _ _ => trivial
  refine ⟨tr, p, hrun', of_decide_eq_true hwaits, ?_⟩
  exact (noCircularWait_iff_of_run ⟨true⟩ (MemoryTorrentIo.torrentIo ⟨true⟩) ⟨false, 2, 1, 1⟩
    (torrentFixture 2 2 [[1, 2]]) _ p tr hrun').mp hwhile tr [] p (List.append_nil tr).symm hrun'

theorem not_noCircularWait_readTwice
    : ∃ tr p, (onePieceTask ⟨false, 2, 1, 1⟩).Run (onePieceStart ⟨false, 2, 1, 1⟩) tr p
        ∧ ¬p.NoCircularWait := by
  obtain ⟨tr, p, hrun, _, hwaits⟩ :=
    (onePieceTask ⟨false, 2, 1, 1⟩).exists_run_of_exec (onePieceStart ⟨false, 2, 1, 1⟩)
      ((greetingEvents 0 [5]).dropLast
        ++ [.link 0 (.read .keepAlive), .link 0 (.read .keepAlive)])
      (fun x => decide (x.2.LoopWaits 0 ∧ x.2.LinkWaits 0)) (b := true) (by decide +kernel)
  obtain ⟨hloop, hlink⟩ := of_decide_eq_true hwaits
  exact ⟨tr, p, hrun, fun hno => hno 0 hloop hlink⟩

end TorrentProcessor
