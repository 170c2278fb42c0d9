import BenTorrent.Peer.Start.State

/-!
This module contains when the choke flag of a peer agrees with what the peer was told.
-/

open Rust

/--
The last choke or unchoke message to the peer was a choke.
-/
def ToldChoke (tr : StartTrace) (c : Nat) : Prop :=
  Since (fun x => .sent c (.flag .choke) ∈ x.2)
    (fun x => .sent c (.flag .choke) ∈ x.2 ∨ .sent c (.flag .unchoke) ∈ x.2) tr

def NeverUnchokes (x : StartEvent × List Signal) : Prop :=
  ∀ c, Signal.sent c (.flag .unchoke) ∉ x.2

theorem ToldChoke.append {tr : StartTrace} {c : Nat} {x : StartEvent × List Signal}
    (h : ToldChoke tr c) (hx : NeverUnchokes x)
    : ToldChoke (tr ++ [x]) c := by
  unfold ToldChoke at h ⊢
  rw [since_append_singleton]
  by_cases hchoke : .sent c (.flag .choke) ∈ x.2
  . exact .inl hchoke
  . right
    refine ⟨h, ?_⟩
    rintro (hmem | hmem)
    . exact hchoke hmem
    . exact hx c hmem

theorem toldChoke_append {tr : StartTrace} {c : Nat} {x : StartEvent × List Signal}
    (h : .sent c (.flag .choke) ∈ x.2)
    : ToldChoke (tr ++ [x]) c := by
  unfold ToldChoke
  rw [since_append_singleton]
  exact .inl h

namespace TorrentState

variable {state state' : TorrentState} {peerId : PeerId}

/--
The messages on which the state of a peer is made.
-/
def AddsPeer : Messages → Prop
  | .flag _ => True
  | .have _ => True
  | .bitField _ => True
  | _ => False

theorem chokes_of_not_mem (h : peerId ∉ state.peers) : state.chokes peerId = true := by
  unfold chokes getInternalPeerState
  rw [Finmap.lookup_eq_none.mpr h]

theorem not_chokes_addPeerId (h : peerId ∉ state.peers)
    : (state.addPeerId peerId).chokes peerId = false := by
  unfold addPeerId chokes getInternalPeerState
  rw [if_neg h, Finmap.lookup_insert]

theorem chokes_eq_of_peers (h : state'.peers = state.peers)
    : state'.chokes peerId = state.chokes peerId := by
  unfold chokes getInternalPeerState
  rw [h]

theorem chokes_setInterested (hmem : peerId ∈ state.peers) (interest : Bool)
    : (state.setInterested peerId interest).chokes peerId = state.chokes peerId := by
  rw [Finmap.mem_iff] at hmem
  obtain ⟨peer, hlookup⟩ := hmem
  unfold setInterested chokes getInternalPeerState
  dsimp only
  rw [Finmap.lookup_insert, hlookup]
  rfl

theorem not_chokes_handleFlag (h : peerId ∉ state.peers) (flag : FlagMessages)
    : (state.handleFlag peerId flag).chokes peerId = false := by
  rw [← not_chokes_addPeerId h]
  apply chokes_eq_of_peers
  cases flag with
  | choke => apply setPeerChokedUs_peers
  | unchoke => apply setPeerChokedUs_peers
  | interested => apply setPeersInterestedInUs_peers
  | notInterested => apply setPeersInterestedInUs_peers

theorem not_chokes_addPiecesForPeer (h : peerId ∉ state.peers) (pieces : List UInt32)
    : (state.addPiecesForPeer peerId pieces).2.chokes peerId = false := by
  have hmem : peerId ∈ (state.addPeerId peerId).peers := by
    rw [mem_peers_addPeerId]
    exact .inl rfl
  rw [← not_chokes_addPeerId h]
  unfold addPiecesForPeer
  dsimp only
  split
  . rw [chokes_setInterested]
    . rfl
    . exact hmem
  . rfl

theorem signalInterest_ne_request (res : Option Bool × TorrentState) (req : PeerRequestedPiece)
    : (signalInterest res).1 ≠ .wake (.peerRequestedPiece req) := by
  obtain ⟨interest, state⟩ := res
  cases interest with
  | none => simp [signalInterest]
  | some interest => simp [signalInterest]

theorem not_chokes_handleJob {msg : Messages} {next : Next}
    (hjob : state.handleJob peerId (.message msg) = (next, state')) (h : peerId ∉ state.peers)
    (hadds : AddsPeer msg)
    : state'.chokes peerId = false := by
  obtain rfl : (state.handleJob peerId (.message msg)).2 = state' := by rw [hjob]
  cases msg with
  | flag flag => exact not_chokes_handleFlag h flag
  | «have» pieceIndex =>
    simp only [handleJob, signalInterest_snd]
    exact not_chokes_addPiecesForPeer h _
  | bitField bitfield =>
    simp only [handleJob, signalInterest_snd]
    exact not_chokes_addPiecesForPeer h _
  | keepAlive => contradiction
  | request => contradiction
  | cancel => contradiction
  | piece => contradiction

theorem handleJob_peers {job : Job} {next : Next}
    (hjob : state.handleJob peerId job = (next, state'))
    (h : ∀ msg, job = .message msg → ¬AddsPeer msg)
    : state'.peers = state.peers := by
  obtain rfl : (state.handleJob peerId job).2 = state' := by rw [hjob]
  clear hjob
  cases job with
  | reply reply => rfl
  | message msg =>
    cases msg with
    | flag flag => exact absurd trivial (h _ rfl)
    | «have» pieceIndex => exact absurd trivial (h _ rfl)
    | bitField bitfield => exact absurd trivial (h _ rfl)
    | request =>
      simp only [handleJob]
      split
      . rfl
      . rfl
    | keepAlive => rfl
    | cancel => rfl
    | piece => rfl

theorem handleJob_eq_request {job : Job} {req : PeerRequestedPiece}
    (h : (state.handleJob peerId job).1 = .wake (.peerRequestedPiece req))
    : req.peerId = peerId ∧ state.chokes peerId = false := by
  cases job with
  | reply reply =>
    simp only [handleJob, Next.wake.injEq] at h
    split at h
    . contradiction
    . contradiction
  | message msg =>
    cases msg with
    | «have» pieceIndex => exact absurd h (signalInterest_ne_request _ req)
    | bitField bitfield => exact absurd h (signalInterest_ne_request _ req)
    | request index begin length =>
      simp only [handleJob] at h
      split at h
      . contradiction
      . next hchokes =>
        simp only [Next.wake.injEq, InternalStateMessage.peerRequestedPiece.injEq] at h
        rw [← h]
        exact ⟨rfl, by simpa using hchokes⟩
    | flag flag => simp [handleJob] at h
    | keepAlive => simp [handleJob] at h
    | cancel => simp [handleJob] at h
    | piece => simp [handleJob] at h

end TorrentState

namespace TorrentProcessor

variable {σ : Type u} {p p' : TorrentProcessor σ} {c : Nat} {tr : StartTrace}

/--
The flag that a handler reads for a request says whether the peer was told that it is choked, and no
request of a peer that was told so goes on to the loop.
-/
structure ChokeAgrees (p : TorrentProcessor σ) (tr : StartTrace) : Prop where
  agrees : p.ForallConn fun c conn => conn.handler.IsConnected →
    (p.torrentState.chokes conn.peerId = true ↔ ToldChoke tr c)
  refused : ∀ tr1 x tr2 c req, tr = tr1 ++ x :: tr2 →
    .woke (.handler c) (.peerRequestedPiece req) ∈ x.2 → ¬ToldChoke tr1 c

/--
No handler works on a message on which it makes the state of its peer.
-/
def AddsNoPeer (p : TorrentProcessor σ) : StartEvent → Prop
  | .poll c => ∀ conn msg, p.connections[c]? = some conn →
      conn.handler = .locking (.message msg) → (p.lock.lock (.handler c)).1 = true →
      ¬TorrentState.AddsPeer msg
  | _ => True

/--
The arms say no unchoke, and the greeting ends with the peer told that it is choked.
-/
def ArmChokes (tr : StartTrace) : Arm → Prop
  | .greeting c msgs => .flag .unchoke ∉ msgs ∧ (.flag .choke ∈ msgs ∨ ToldChoke tr c)
  | .sending _ msg _ => msg ≠ .flag .unchoke
  | .choking combinedPeers => combinedPeers = []
  | _ => True

def HandlerChokes (tr : StartTrace) (c : Nat) (handler : Handler) : Prop :=
  (∀ msg, handler = .signalling msg → msg ≠ .flag .unchoke) ∧ (handler.IsConnected → ToldChoke tr c)

structure Chokes (p : TorrentProcessor σ) (tr : StartTrace) : Prop where
  arm : ArmChokes tr p.arm
  handlers : p.ForallConn fun c conn => HandlerChokes tr c conn.handler

theorem ArmChokes.append {arm : Arm} {x : StartEvent × List Signal} (h : ArmChokes tr arm)
    (hx : NeverUnchokes x)
    : ArmChokes (tr ++ [x]) arm := by
  unfold ArmChokes at h ⊢
  split at h
  . refine ⟨h.1, ?_⟩
    cases h.2 with
    | inl hmem => exact .inl hmem
    | inr htold => exact .inr (htold.append hx)
  . exact h
  . exact h
  . trivial

theorem Chokes.append {x : StartEvent × List Signal} (h : p.Chokes tr) (hx : NeverUnchokes x)
    : p.Chokes (tr ++ [x]) := by
  constructor
  . exact h.arm.append hx
  . intro c conn hget
    obtain ⟨hsignal, htold⟩ := h.handlers c conn hget
    exact ⟨hsignal, fun hconnected => (htold hconnected).append hx⟩

theorem Chokes.setArm {arm : Arm} (h : p.Chokes tr) (harm : ArmChokes tr arm)
    : (p.setArm arm).Chokes tr :=
  ⟨harm, h.handlers⟩

theorem Chokes.update {f : PeerConnection → PeerConnection} (h : p.Chokes tr)
    (hself : ∀ conn, p.connections[c]? = some conn → HandlerChokes tr c conn.handler →
      HandlerChokes tr c (f conn).handler)
    : (p.update c f).Chokes tr :=
  ⟨h.arm, h.handlers.update hself⟩

theorem Chokes.setHandler {handler : Handler} (h : p.Chokes tr)
    (hself : ∀ conn, p.connections[c]? = some conn → HandlerChokes tr c conn.handler →
      HandlerChokes tr c handler)
    : (p.setHandler c handler).Chokes tr :=
  h.update hself

theorem Chokes.of_told (handler : Handler) (h : p.Chokes tr) (htold : ToldChoke tr c)
    (hsignal : ∀ msg, handler ≠ .signalling msg)
    : (p.setHandler c handler).Chokes tr := by
  apply h.setHandler
  intro conn _ _
  exact ⟨fun msg heq => absurd heq (hsignal msg), fun _ => htold⟩

theorem Chokes.wake {msg : InternalStateMessage} (h : p.Chokes tr) (htold : ToldChoke tr c)
    : (p.wake c msg).Chokes tr := by
  have hhandler := Chokes.of_told
    (if (p.wakeUp.send (.handler c) msg).1 then .receiving else .waking msg) h htold
    (by
      intro msg'
      split
      . simp
      . simp)
  exact ⟨hhandler.arm, hhandler.handlers⟩

theorem Chokes.finish (h : p.Chokes tr) (htold : ToldChoke tr c) : (p.finish c).Chokes tr := by
  apply Chokes.setArm
  . apply h.of_told _ htold
    simp
  . trivial

theorem Chokes.delivered {w : Party} {msg : Messages} {delivery : Delivery} (h : p.Chokes tr)
    (hdelivered : p.Delivered w c msg delivery p')
    : p'.Chokes tr := by
  obtain ⟨f, rfl, hf⟩ := hdelivered.update_eq
  apply h.update
  intro conn _ hconn
  rw [hf conn]
  exact hconn

theorem Chokes.told {peerId : PeerId} {msg : Messages} {delivery : Delivery} {signals : List Signal}
    (h : p.Chokes tr) (htold : p.Told peerId msg delivery signals p')
    : p'.Chokes tr := by
  obtain ⟨c, f, rfl, hf⟩ := htold.update_eq
  apply h.update
  intro conn _ hconn
  rw [hf conn]
  exact hconn

theorem Chokes.signalled {msg : Messages} {signals : List Signal} (h : p.Chokes tr)
    (hmsg : msg ≠ .flag .unchoke) (htold : ToldChoke tr c) (hs : p.Signalled c msg signals p')
    : (∀ d, Signal.sent d (.flag .unchoke) ∉ signals) ∧ p'.Chokes tr := by
  cases hs with
  | delivered p1 hdelivered =>
    refine ⟨by simpa using hmsg.symm, ?_⟩
    have h1 := h.delivered hdelivered
    exact Chokes.wake (p := p1.unlock) ⟨h1.arm, h1.handlers⟩ htold
  | pending p1 hdelivered =>
    refine ⟨by simp, ?_⟩
    apply (h.delivered hdelivered).setHandler
    intro conn _ _
    refine ⟨?_, fun _ => htold⟩
    intro msg' heq
    rw [Handler.signalling.injEq] at heq
    rwa [← heq]
  | closed =>
    refine ⟨by simp, ?_⟩
    exact Chokes.finish (p := p.unlock) ⟨h.arm, h.handlers⟩ htold

theorem Chokes.proceeded {next : Next} {signals : List Signal} (h : p.Chokes tr)
    (hmsg : ∀ msg, next = .signal msg → msg ≠ .flag .unchoke) (htold : ToldChoke tr c)
    (hp : p.Proceeded c next signals p')
    : (∀ d, Signal.sent d (.flag .unchoke) ∉ signals) ∧ p'.Chokes tr := by
  cases hp with
  | receive =>
    refine ⟨by simp, ?_⟩
    apply Chokes.of_told (p := p.unlock) _ ⟨h.arm, h.handlers⟩ htold
    simp
  | wake msg =>
    refine ⟨by simp, ?_⟩
    exact Chokes.wake (p := p.unlock) ⟨h.arm, h.handlers⟩ htold
  | signal msg _ _ hs => exact h.signalled (hmsg msg rfl) htold hs

theorem Chokes.polled {signals : List Signal} (h : p.Chokes tr) (hp : p.Polled c signals p')
    : (∀ d, Signal.sent d (.flag .unchoke) ∉ signals) ∧ p'.Chokes tr := by
  have htold : ∀ conn, p.connections[c]? = some conn → conn.handler.IsConnected →
      ToldChoke tr c := fun conn hget => (h.handlers c conn hget).2
  cases hp with
  | received conn msg inbound hget hhandler =>
    refine ⟨by simp, ?_⟩
    apply h.update
    intro _ _ _
    refine ⟨?_, fun _ => htold conn hget (by simp [Handler.IsConnected, hhandler])⟩
    intro msg' heq
    cases msg with
    | _ => simp [Handler.ofMessage] at heq
  | finished conn hget hhandler =>
    refine ⟨by simp, ?_⟩
    apply h.finish (htold conn hget _)
    rcases hhandler with hhandler | hhandler
    . simp [Handler.IsConnected, hhandler]
    . simp [Handler.IsConnected, hhandler]
  | lockPending => exact ⟨by simp, h.arm, h.handlers⟩
  | handled conn job lock next torrentState _ _ hget hhandler hlock hjob hproceeded =>
    apply Chokes.proceeded (p := { p with lock, torrentState }) ⟨h.arm, h.handlers⟩ _
      (htold conn hget (by simp [Handler.IsConnected, hhandler])) hproceeded
    rintro msg rfl
    obtain ⟨interest, rfl⟩ := TorrentState.handleJob_eq_signal hjob
    cases interest with
    | false => decide
    | true => decide
  | signalled conn msg _ _ hget hhandler hs =>
    exact h.signalled ((h.handlers c conn hget).1 msg hhandler)
      (htold conn hget (by simp [Handler.IsConnected, hhandler])) hs
  | woken conn msg hget hhandler =>
    exact ⟨by simp, h.wake (htold conn hget (by simp [Handler.IsConnected, hhandler]))⟩

variable {build : Build} {torrentIo : TorrentIo σ} {config : Config} {torrent : V1Torrent}

theorem told_never_unchokes {peerId : PeerId} {msg : Messages} {delivery : Delivery}
    {signals : List Signal} (hmsg : msg ≠ .flag .unchoke)
    (htold : p.Told peerId msg delivery signals p')
    : ∀ d, Signal.sent d (.flag .unchoke) ∉ signals := by
  intro d
  cases htold with
  | delivered => simpa using fun _ => hmsg.symm
  | pending => simp
  | closed => simp

theorem passes_never_unchokes {peerId : PeerId} {msg : Messages} {arm : Arm} (h : p.Chokes tr)
    (hpasses : Passes p.arm peerId msg arm)
    : msg ≠ .flag .unchoke ∧ ArmChokes tr arm := by
  have harm := h.arm
  generalize p.arm = arm' at harm hpasses
  cases hpasses with
  | announcing => exact ⟨by simp, trivial⟩
  | sending => exact ⟨harm, trivial⟩

theorem Chokes.greeted {msg : Messages} {msgs : List Messages} (h : p.Chokes tr)
    (harm : p.arm = .greeting c (msg :: msgs)) (hdelivered : p.Delivered .mainLoop c msg .delivered p')
    : NeverUnchokes (.advance, [.sent c msg])
        ∧ (p'.setArm (.greeting c msgs)).Chokes (tr ++ [(.advance, [.sent c msg])]) := by
  have hgreeting := h.arm
  rw [harm] at hgreeting
  obtain ⟨hunchoke, hchoke⟩ := hgreeting
  rw [List.mem_cons, not_or] at hunchoke
  have hquiet : NeverUnchokes (.advance, [.sent c msg]) := by
    intro d
    simpa using fun _ => hunchoke.1
  refine ⟨hquiet, ?_⟩
  apply ((h.delivered hdelivered).append hquiet).setArm
  refine ⟨hunchoke.2, ?_⟩
  rcases hchoke with hmem | htold
  . rw [List.mem_cons] at hmem
    rcases hmem with rfl | hmem
    . exact .inr (toldChoke_append (by simp))
    . exact .inl hmem
  . exact .inr (htold.append hquiet)

theorem Chokes.advanced {signals : List Signal} (h : p.Chokes tr)
    (ha : p.Advanced torrentIo torrent signals p')
    : NeverUnchokes (.advance, signals) ∧ p'.Chokes (tr ++ [(.advance, signals)]) := by
  have hcarry : ∀ {signals} {p' : TorrentProcessor σ},
      NeverUnchokes (.advance, signals) → p'.Chokes tr →
      NeverUnchokes (.advance, signals) ∧ p'.Chokes (tr ++ [(.advance, signals)]) :=
    fun hquiet h' => ⟨hquiet, h'.append hquiet⟩
  have hnone : NeverUnchokes (.advance, []) := fun _ => by simp
  cases ha with
  | lockPending lock hlock => exact hcarry hnone ⟨h.arm, h.handlers⟩
  | initConnection c lock harm hlock =>
    refine hcarry hnone ⟨?_, h.handlers⟩
    simp [TorrentProcessor.setArm, ArmChokes, initialMessages]
  | greeted c msg msgs p1 harm hdelivered => exact h.greeted harm hdelivered
  | greetPending c msg msgs p1 harm hdelivered => exact hcarry hnone (h.delivered hdelivered)
  | greetClosed c msg msgs harm hclosed =>
    refine hcarry hnone (Chokes.setArm ?_ trivial)
    apply Chokes.setHandler (p := p.unlock) ⟨h.arm, h.handlers⟩
    intro _ _ _
    simp [HandlerChokes, Handler.IsConnected]
  | registered c conn harm hget =>
    have hgreeting := h.arm
    rw [harm] at hgreeting
    refine hcarry hnone (Chokes.setArm ?_ trivial)
    apply Chokes.of_told (p := unlock _)
    . exact ⟨h.arm, h.handlers⟩
    . simpa using hgreeting.2
    . simp
  | closing c lock conn harm hlock hget =>
    refine hcarry hnone (Chokes.setArm ?_ trivial)
    apply Chokes.setHandler (p := unlock _)
    . exact ⟨h.arm, h.handlers⟩
    . intro _ _ _
      simp [HandlerChokes, Handler.IsConnected]
  | passed peerId msg arm delivery _ p1 hpasses htold hdone =>
    obtain ⟨hmsg, harm⟩ := passes_never_unchokes h hpasses
    exact hcarry (told_never_unchokes hmsg htold) ((h.told htold).setArm harm)
  | passPending peerId msg arm _ _ hpasses htold =>
    obtain ⟨hmsg, _⟩ := passes_never_unchokes h hpasses
    exact hcarry (told_never_unchokes hmsg htold) (h.told htold)
  | dispatched req requests _ p1 harm htold =>
    exact hcarry (told_never_unchokes (by simp) htold) ((h.told htold).setArm trivial)
  | dispatchPending req requests _ _ harm htold =>
    exact hcarry (told_never_unchokes (by simp) htold) (h.told htold)
  | answerRead req dequed block io harm hread =>
    refine hcarry hnone ⟨?_, h.handlers⟩
    simp [TorrentProcessor.setArm, ArmChokes]
  | queued req lock harm hlock =>
    refine hcarry hnone ⟨trivial, ?_⟩
    obtain ⟨requests, heq⟩ := queueRequests_eq { p with lock } req
    rw [heq]
    exact h.handlers
  | choked peerId choked combinedPeers _ _ harm =>
    have hnil := h.arm
    rw [harm] at hnil
    contradiction
  | wokeUp wakeUp harm hsend =>
    refine hcarry ?_ ⟨trivial, h.handlers⟩
    intro d
    split
    . simp
    . simp
  | wakePending wakeUp harm hsend =>
    refine hcarry ?_ ⟨h.arm, h.handlers⟩
    intro d
    split
    . simp
    . simp
  | announced => exact hcarry hnone ⟨trivial, h.handlers⟩
  | undelivered => exact hcarry hnone ⟨trivial, h.handlers⟩
  | dispatchedAll => exact hcarry hnone ⟨trivial, h.handlers⟩
  | dequeued => exact hcarry hnone ⟨trivial, h.handlers⟩
  | answerSkipped => exact hcarry hnone ⟨trivial, h.handlers⟩
  | answerFailed => exact hcarry hnone ⟨trivial, h.handlers⟩
  | answeredAll => exact hcarry hnone ⟨trivial, h.handlers⟩
  | chokedAll => exact hcarry hnone ⟨trivial, h.handlers⟩

theorem Chokes.stepped {event : StartEvent} {signals : List Signal} (h : p.Chokes tr)
    (hs : p.Stepped build torrentIo config torrent event signals p')
    : NeverUnchokes (event, signals) ∧ p'.Chokes (tr ++ [(event, signals)]) := by
  have hcarry : ∀ {event} {signals} {p' : TorrentProcessor σ},
      NeverUnchokes (event, signals) → p'.Chokes tr →
      NeverUnchokes (event, signals) ∧ p'.Chokes (tr ++ [(event, signals)]) :=
    fun hquiet h' => ⟨hquiet, h'.append hquiet⟩
  have hnone : ∀ event, NeverUnchokes (event, []) := fun _ _ => by simp
  cases hs with
  | connected peerId =>
    refine hcarry (hnone _) ⟨h.arm, h.handlers.append ?_⟩
    simp [HandlerChokes, Handler.IsConnected]
  | linked c event conn conn' hget hran =>
    apply hcarry (hnone _)
    apply h.update
    intro conn1 hget1 h1
    rw [hget, Option.some.injEq] at hget1
    rwa [hran.frame.2.1, hget1]
  | written c conn index begin block finished io hget hhandler hwrite =>
    have hset := Chokes.of_told (.locking (.reply { index, begin, finished })) h
      ((h.handlers c conn hget).2 (by simp [Handler.IsConnected, hhandler])) (by simp)
    refine hcarry ?_ ⟨hset.arm, hset.handlers⟩
    intro d
    split
    . simp
    . simp
  | writeFailed c conn index begin block e io hget hhandler hwrite =>
    have hset := Chokes.of_told .failed h
      ((h.handlers c conn hget).2 (by simp [Handler.IsConnected, hhandler])) (by simp)
    exact hcarry (hnone _) ⟨hset.arm, hset.handlers⟩
  | polled c _ _ harm hpolled =>
    obtain ⟨hquiet, h'⟩ := h.polled hpolled
    exact hcarry hquiet h'
  | accepted c conn harm hget hhandler =>
    refine hcarry (hnone _) (Chokes.setArm ?_ trivial)
    apply h.setHandler
    intro _ _ _
    simp [HandlerChokes, Handler.IsConnected]
  | took peerIds msg wakeUp arm harm hrecv hstarts =>
    refine hcarry (fun _ => by simp) ⟨?_, h.handlers⟩
    cases hstarts with
    | wakeup => trivial
    | pieceComplete => trivial
    | peerRequestedPiece => trivial
  | ticked => exact hcarry (hnone _) ⟨trivial, h.handlers⟩
  | advanced _ _ hadvanced => exact h.advanced hadvanced
  | lockPending => exact hcarry (hnone _) ⟨h.arm, h.handlers⟩
  | computed => exact hcarry (hnone _) ⟨trivial, h.handlers⟩
  | unchoked => exact hcarry (hnone _) ⟨rfl, h.handlers⟩
  | noneExpired => exact hcarry (hnone _) ⟨trivial, h.handlers⟩
  | someExpired => exact hcarry (fun _ => by simp) ⟨trivial, h.handlers⟩

theorem chokes_new (config : Config) (torrent : V1Torrent) (io : σ)
    : (new config torrent io).Chokes [] := by
  constructor
  . trivial
  . intro c conn hget
    contradiction

structure KnowsNobody (p : TorrentProcessor σ) (tr : StartTrace) : Prop where
  chokes : p.Chokes tr
  peers_eq : p.torrentState.peers = ∅
  refused : ∀ x ∈ tr, ∀ c req, Signal.woke (.handler c) (.peerRequestedPiece req) ∉ x.2

theorem KnowsNobody.chokes_eq_true (h : p.KnowsNobody tr) (peerId : PeerId)
    : p.torrentState.chokes peerId = true := by
  apply TorrentState.chokes_of_not_mem
  rw [h.peers_eq]
  exact Finmap.notMem_empty

theorem KnowsNobody.chokeAgrees (h : p.KnowsNobody tr) : p.ChokeAgrees tr := by
  constructor
  . intro c conn hget hconnected
    exact iff_of_true (h.chokes_eq_true _) ((h.chokes.handlers c conn hget).2 hconnected)
  . intro tr1 x tr2 c req htr hwoke
    exact absurd hwoke (h.refused x (by simp [htr]) c req)

theorem signalled_never_requests {msg : Messages} {signals : List Signal}
    (h : p.Signalled c msg signals p') (d : Nat) (req : PeerRequestedPiece)
    : Signal.woke (.handler d) (.peerRequestedPiece req) ∉ signals := by
  cases h with
  | _ => simp

theorem KnowsNobody.polled {signals : List Signal} (h : p.KnowsNobody tr)
    (hguard : p.AddsNoPeer (.poll c)) (hp : p.Polled c signals p')
    : p'.torrentState.peers = ∅
        ∧ ∀ d req, Signal.woke (.handler d) (.peerRequestedPiece req) ∉ signals := by
  cases hp with
  | received => exact ⟨h.peers_eq, by simp⟩
  | finished => exact ⟨h.peers_eq, by simp⟩
  | lockPending => exact ⟨h.peers_eq, by simp⟩
  | woken => exact ⟨h.peers_eq, by simp⟩
  | signalled conn msg _ _ hget hhandler hs =>
    rw [hs.torrentState_eq]
    exact ⟨h.peers_eq, signalled_never_requests hs⟩
  | handled conn job lock next torrentState _ _ hget hhandler hlock hjob hproceeded =>
    have hpeers : torrentState.peers = ∅ := by
      rw [← h.peers_eq]
      apply TorrentState.handleJob_peers hjob
      rintro msg rfl
      exact hguard conn msg hget hhandler (by rw [hlock])
    refine ⟨by rw [hproceeded.torrentState_eq]; exact hpeers, ?_⟩
    intro d req
    cases hproceeded with
    | receive => simp
    | signal _ _ _ hs => exact signalled_never_requests hs d req
    | wake msg =>
      rw [List.mem_singleton, Signal.woke.injEq]
      rintro ⟨_, rfl⟩
      have hchokes := (TorrentState.handleJob_eq_request (congrArg Prod.fst hjob)).2
      rw [h.chokes_eq_true] at hchokes
      contradiction

theorem KnowsNobody.advanced {signals : List Signal} (h : p.KnowsNobody tr)
    (ha : p.Advanced torrentIo torrent signals p')
    : p'.torrentState.peers = ∅
        ∧ ∀ d req, Signal.woke (.handler d) (.peerRequestedPiece req) ∉ signals := by
  have hsends : ∀ {peerId msg delivery signals} {p' : TorrentProcessor σ},
      p.Told peerId msg delivery signals p' → p'.torrentState.peers = ∅
        ∧ ∀ d req, Signal.woke (.handler d) (.peerRequestedPiece req) ∉ signals := by
    intro peerId msg delivery signals p' htold
    obtain ⟨_, _, heq, _⟩ := htold.update_eq
    refine ⟨by rw [heq]; exact h.peers_eq, ?_⟩
    cases htold with
    | _ => simp
  cases ha with
  | greeted c msg msgs p1 harm hdelivered =>
    obtain ⟨f, rfl, _⟩ := hdelivered.update_eq
    exact ⟨h.peers_eq, by simp⟩
  | greetPending c msg msgs p1 harm hdelivered =>
    obtain ⟨f, rfl, _⟩ := hdelivered.update_eq
    exact ⟨h.peers_eq, by simp⟩
  | closing c lock conn harm hlock hget =>
    refine ⟨?_, by simp⟩
    show (p.torrentState.removePeer conn.peerId).peers = ∅
    unfold TorrentState.removePeer TorrentState.addPeerId
    rw [if_neg (by rw [h.peers_eq]; exact Finmap.notMem_empty), h.peers_eq]
    dsimp only
    apply Finmap.ext_lookup
    intro peerId
    by_cases heq : peerId = conn.peerId
    . rw [heq, Finmap.lookup_erase, Finmap.lookup_empty]
    . rw [Finmap.lookup_erase_ne heq, Finmap.lookup_insert_of_ne _ heq]
  | passed _ _ _ _ _ _ _ htold =>
    have h' := hsends htold
    exact h'
  | passPending _ _ _ _ _ _ htold => exact hsends htold
  | dispatched _ _ _ _ _ htold =>
    have h' := hsends htold
    exact h'
  | dispatchPending _ _ _ _ _ htold => exact hsends htold
  | queued req lock harm hlock =>
    refine ⟨?_, by simp⟩
    obtain ⟨requests, heq⟩ := queueRequests_eq { p with lock } req
    rw [heq]
    exact h.peers_eq
  | choked peerId choked combinedPeers _ _ harm =>
    have hnil := h.chokes.arm
    rw [harm] at hnil
    contradiction
  | wokeUp wakeUp harm hsend =>
    refine ⟨h.peers_eq, ?_⟩
    intro d req
    split
    . simp
    . simp
  | wakePending wakeUp harm hsend =>
    refine ⟨h.peers_eq, ?_⟩
    intro d req
    split
    . simp
    . simp
  | _ => exact ⟨h.peers_eq, by simp⟩

theorem KnowsNobody.stepped {event : StartEvent} {signals : List Signal} (h : p.KnowsNobody tr)
    (hguard : p.AddsNoPeer event)
    (hs : p.Stepped build torrentIo config torrent event signals p')
    : p'.KnowsNobody (tr ++ [(event, signals)]) := by
  have hboth : p'.torrentState.peers = ∅
      ∧ ∀ d req, Signal.woke (.handler d) (.peerRequestedPiece req) ∉ signals := by
    cases hs with
    | polled c _ _ harm hpolled => exact h.polled hguard hpolled
    | advanced _ _ hadvanced => exact h.advanced hadvanced
    | written =>
      refine ⟨h.peers_eq, ?_⟩
      intro d req
      split
      . simp
      . simp
    | _ => exact ⟨h.peers_eq, by simp⟩
  constructor
  . exact (h.chokes.stepped hs).2
  . exact hboth.1
  . intro x hx
    rw [List.mem_append, List.mem_singleton] at hx
    rcases hx with hx | rfl
    . exact h.refused x hx
    . exact hboth.2

theorem wake_connected (msg : InternalStateMessage) {conn : PeerConnection}
    (hget : p.connections[c]? = some conn)
    : ∃ conn', (p.wake c msg).connections[c]? = some conn' ∧ conn'.peerId = conn.peerId
        ∧ conn'.handler.IsConnected := by
  refine ⟨_, getElem?_update.mpr ⟨conn, hget, rfl⟩, ?_⟩
  rw [if_pos rfl]
  refine ⟨rfl, ?_⟩
  dsimp only
  split
  . simp [Handler.IsConnected]
  . simp [Handler.IsConnected]

theorem proceeded_connected {next : Next} {signals : List Signal} {conn : PeerConnection}
    (h : p.Proceeded c next signals p') (hget : p.connections[c]? = some conn)
    : ∃ conn', p'.connections[c]? = some conn' ∧ conn'.peerId = conn.peerId
        ∧ conn'.handler.IsConnected := by
  cases h with
  | receive =>
    refine ⟨_, getElem?_update.mpr ⟨conn, hget, rfl⟩, ?_⟩
    rw [if_pos rfl]
    simp [Handler.IsConnected]
  | wake msg => exact wake_connected (p := p.unlock) msg hget
  | signal msg _ _ hs =>
    cases hs with
    | delivered p1 hdelivered =>
      obtain ⟨f, rfl, hf⟩ := hdelivered.update_eq
      have hget' : (p.update c f).unlock.connections[c]? = some (f conn) :=
        getElem?_update.mpr ⟨conn, hget, by rw [if_pos rfl]⟩
      obtain ⟨conn', hconn', hid, hconnected⟩ := wake_connected .wakeup hget'
      refine ⟨conn', hconn', ?_, hconnected⟩
      rw [hid, hf conn]
    | pending p1 hdelivered =>
      obtain ⟨f, rfl, hf⟩ := hdelivered.update_eq
      have hget' : (p.update c f).connections[c]? = some (f conn) :=
        getElem?_update.mpr ⟨conn, hget, by rw [if_pos rfl]⟩
      refine ⟨_, getElem?_update.mpr ⟨_, hget', rfl⟩, ?_⟩
      rw [if_pos rfl, hf conn]
      simp [Handler.IsConnected]
    | closed =>
      refine ⟨_, getElem?_update.mpr ⟨conn, hget, rfl⟩, ?_⟩
      rw [if_pos rfl]
      simp [Handler.IsConnected]

theorem KnowsNobody.not_chokeAgrees {event : StartEvent} {signals : List Signal}
    (h : p.KnowsNobody tr) (hguard : ¬p.AddsNoPeer event)
    (hs : p.Stepped build torrentIo config torrent event signals p')
    : ¬p'.ChokeAgrees (tr ++ [(event, signals)]) := by
  intro hagrees
  unfold AddsNoPeer at hguard
  split at hguard
  . next c =>
    push Not at hguard
    obtain ⟨conn, msg, hget, hhandler, hlocked, hadds⟩ := hguard
    have hchokes := (h.chokes.stepped hs).2
    cases hs with
    | lockPending _ lock hlocks => contradiction
    | polled _ _ _ harm hpolled =>
      cases hpolled with
      | lockPending conn1 job lock _ _ hlock =>
        rw [hlock] at hlocked
        contradiction
      | handled conn1 job lock next torrentState _ _ hget1 hhandler1 hlock hjob hproceeded =>
        rw [hget, Option.some.injEq] at hget1
        subst hget1
        rw [hhandler, Handler.locking.injEq] at hhandler1
        subst hhandler1
        obtain ⟨conn', hget', hid, hconnected⟩ :=
          proceeded_connected (p := { p with lock, torrentState }) hproceeded hget
        have htold := (hchokes.handlers c conn' hget').2 hconnected
        have hnot := (hagrees.agrees c conn' hget' hconnected).mpr htold
        rw [hproceeded.torrentState_eq, hid] at hnot
        have hfalse := TorrentState.not_chokes_handleJob hjob
          (by rw [h.peers_eq]; exact Finmap.notMem_empty) hadds
        rw [hnot] at hfalse
        contradiction
      | received conn1 _ _ hget1 hhandler1 =>
        rw [hget, Option.some.injEq] at hget1
        rw [← hget1, hhandler] at hhandler1
        contradiction
      | finished conn1 hget1 hhandler1 =>
        rw [hget, Option.some.injEq] at hget1
        rw [← hget1, hhandler] at hhandler1
        simp at hhandler1
      | signalled conn1 _ _ _ hget1 hhandler1 =>
        rw [hget, Option.some.injEq] at hget1
        rw [← hget1, hhandler] at hhandler1
        contradiction
      | woken conn1 _ hget1 hhandler1 =>
        rw [hget, Option.some.injEq] at hget1
        rw [← hget1, hhandler] at hhandler1
        contradiction
  . exact hguard trivial

/--
No handler works on a message on which it makes the state of its peer: then, and only then, the
flags agree with what the peers were told.
-/
theorem chokeAgrees_iff (build : Build) (torrentIo : TorrentIo σ) (config : Config)
    (torrent : V1Torrent) (io : σ) (p : TorrentProcessor σ) (tr : StartTrace)
    (hrun : (startTask build torrentIo config torrent).Run (new config torrent io) tr p)
    : (startTask build torrentIo config torrent).RunWhile AddsNoPeer (new config torrent io) tr p
        ↔
      ∀ tr1 tr2 p1, tr = tr1 ++ tr2 →
        (startTask build torrentIo config torrent).Run (new config torrent io) tr1 p1 →
        p1.ChokeAgrees tr1 := by
  apply Machine.RunWhile.iff_of_invariant (Q := fun tr p => p.KnowsNobody tr) hrun
  . intro tr p event signals p' h hstep hguard
    exact h.stepped hguard (stepped_of_step hstep)
  . intro tr p event signals p' h hstep hguard
    exact h.not_chokeAgrees hguard (stepped_of_step hstep)
  . intro tr p h
    exact h.chokeAgrees
  . exact ⟨chokes_new config torrent io, rfl, by simp⟩

theorem chokes_of_run {io : σ}
    (hrun : (startTask build torrentIo config torrent).Run (new config torrent io) tr p)
    : p.Chokes tr := by
  apply hrun.invariant_trace (P := fun tr p => p.Chokes tr)
  . intro tr p event signals p' _ hstep h
    exact (h.stepped (stepped_of_step hstep)).2
  . exact chokes_new config torrent io

theorem chokeAgrees_greeted
    : ∃ tr p, p.ChokeAgrees tr
        ∧ (onePieceTask ⟨false, 3, 1, 1⟩).Run (onePieceStart ⟨false, 3, 1, 1⟩) tr p
        ∧ p.connections.map (·.handler) = [.receiving] := by
  obtain ⟨tr, p, hrun, hevents, hhandlers⟩ :=
    (onePieceTask ⟨false, 3, 1, 1⟩).exists_run_of_exec (onePieceStart ⟨false, 3, 1, 1⟩)
      (greetingEvents 0 [5]) (fun x => x.2.connections.map (·.handler)) (b := [.receiving])
      (by decide +kernel)
  refine ⟨tr, p, ?_, hrun, hhandlers⟩
  have hguarded : (onePieceTask ⟨false, 3, 1, 1⟩).RunWhile AddsNoPeer
      (onePieceStart ⟨false, 3, 1, 1⟩) tr p := by
    apply hrun.while
    rw [hevents]
    intro s
    simp [greetingEvents, AddsNoPeer]
  exact (chokeAgrees_iff ⟨true⟩ (MemoryTorrentIo.torrentIo ⟨true⟩) ⟨false, 3, 1, 1⟩
    (torrentFixture 2 2 [[1, 2]]) _ p tr hrun).mp hguarded tr [] p (List.append_nil tr).symm hrun

/--
A peer that says it is not interested may request what it likes.
-/
theorem not_chokeAgrees_notInterested
    : ∃ tr p, (onePieceTask ⟨false, 3, 1, 1⟩).Run (onePieceStart ⟨false, 3, 1, 1⟩) tr p
        ∧ ¬p.ChokeAgrees tr
        ∧ tr.getLast?.map (·.2)
          = some [.woke (.handler 0) (.peerRequestedPiece ⟨[5], 0, 0, 2⟩)] := by
  obtain ⟨tr, p, hrun, _, hlast⟩ :=
    (onePieceTask ⟨false, 3, 1, 1⟩).exists_run_of_exec (onePieceStart ⟨false, 3, 1, 1⟩)
      (greetingEvents 0 [5]
        ++ handlingEvents 0 (.flag .notInterested) ++ handlingEvents 0 (.request 0 0 2))
      (fun x => (x.1.getLast?.map (·.2), x.2.connections.map (fun conn => (conn.peerId,
        conn.handler)), x.2.torrentState.chokes [5]))
      (b := (some [.woke (.handler 0) (.peerRequestedPiece ⟨[5], 0, 0, 2⟩)],
        [([5], .receiving)], false)) (by decide +kernel)
  simp only [Prod.mk.injEq] at hlast
  obtain ⟨hwoke, hconnections, hchokes⟩ := hlast
  refine ⟨tr, p, hrun, ?_, hwoke⟩
  intro h
  have hget : ∃ conn, p.connections[0]? = some conn ∧ conn.peerId = [5]
      ∧ conn.handler = .receiving := by
    have hmap := congrArg (·[0]?) hconnections
    simp only [List.getElem?_map, List.getElem?_cons_zero, Option.map_eq_some_iff,
      Prod.mk.injEq] at hmap
    exact hmap
  obtain ⟨conn, hget, hid, hhandler⟩ := hget
  have hconnected : conn.handler.IsConnected := by simp [Handler.IsConnected, hhandler]
  have htold := ((chokes_of_run hrun).handlers 0 conn hget).2 hconnected
  have hagrees := (h.agrees 0 conn hget hconnected).mpr htold
  rw [hid, hchokes] at hagrees
  contradiction

end TorrentProcessor
