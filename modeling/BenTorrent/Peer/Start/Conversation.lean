import BenTorrent.Peer.Start.Sent
import BenTorrent.Peer.Start.Stream

/-!
This module contains what a peer gets to hear from the loop: a greeting, and then what it announces,
wants and serves.
-/

open Rust

/--
The messages that may come after the greeting.
-/
def Messages.IsLater : Messages → Prop
  | .have _ => True
  | .flag .interested => True
  | .flag .notInterested => True
  | .request _ _ _ => True
  | .piece _ _ _ => True
  | _ => False

theorem isLater_interestMsg (interest : Bool) : (FlagMessages.interestMsg interest).IsLater := by
  cases interest with
  | false => trivial
  | true => trivial

inductive Phase where
  | fresh
  | greeting (msgs : List Messages)
  | talking
  | finished

/--
One turn of a conversation, with what the peer is told in it. With the conversation the peer is
forgotten.
-/
inductive Converses (greeting : List Messages) (forgotten : Prop)
    : Phase → List Messages → Phase → Prop where
  | silent (phase : Phase) : Converses greeting forgotten phase [] phase
  | began : Converses greeting forgotten .fresh [] (.greeting greeting)
  | greeted (msg : Messages) (msgs : List Messages)
      : Converses greeting forgotten (.greeting (msg :: msgs)) [msg] (.greeting msgs)
  | refused (msgs : List Messages) : Converses greeting forgotten (.greeting msgs) [] .finished
  | joined : Converses greeting forgotten (.greeting []) [] .talking
  | said (msg : Messages) (hlater : msg.IsLater)
      : Converses greeting forgotten .talking [msg] .talking
  | left (hforgotten : forgotten) : Converses greeting forgotten .talking [] .finished

def Arm.greetingOf (c : Nat) : Arm → Option (List Messages)
  | .greeting d msgs => if d = c then some msgs else none
  | _ => none

def Handler.phase (greeting : Option (List Messages)) : Handler → Phase
  | .queued => .fresh
  | .accepted =>
    match greeting with
    | some msgs => .greeting msgs
    | none => .fresh
  | .closed => .finished
  | _ => .talking

theorem Handler.IsConnected.phase_eq {handler : Handler} (h : handler.IsConnected)
    (greeting : Option (List Messages))
    : handler.phase greeting = .talking := by
  unfold Handler.phase
  split
  . exact absurd rfl h.1
  . exact absurd rfl h.2.1
  . exact absurd rfl h.2.2
  . rfl

theorem isConnected_ofMessage (msg : Messages) : (Handler.ofMessage msg).IsConnected := by
  cases msg with
  | _ => exact ⟨nofun, nofun, nofun⟩

theorem Turns.isLater {state : TorrentState} {peerId : PeerId} {handler : Handler} {msg : Messages}
    (h : Turns state peerId handler (.signalling msg))
    : handler = .signalling msg ∨ msg.IsLater := by
  cases h with
  | handled job _ hfollows =>
    obtain ⟨interest, rfl⟩ := TorrentState.handleJob_eq_signal (Prod.ext hfollows.eq_signal rfl)
    exact .inr (isLater_interestMsg interest)
  | signalled msg' _ hfollows =>
    have heq := hfollows.eq_signal
    rw [Next.signal.injEq] at heq
    rw [heq]
    exact .inl rfl
  | woken msg' _ hfollows =>
    have heq := hfollows.eq_signal
    contradiction

theorem Follows.isConnected {next : Next} {handler : Handler} (h : Follows next handler)
    : handler.IsConnected := by
  cases h with
  | _ => exact ⟨nofun, nofun, nofun⟩

namespace TorrentProcessor

variable {σ : Type u}

def handlerAt (p : TorrentProcessor σ) (c : Nat) : Option Handler :=
  (p.connections[c]?).map (·.handler)

def phase (p : TorrentProcessor σ) (c : Nat) : Phase :=
  match p.handlerAt c with
  | some handler => handler.phase (p.arm.greetingOf c)
  | none => .fresh

variable {p p' : TorrentProcessor σ} {c : Nat}

theorem handlerAt_of_getElem? {conn : PeerConnection} (hget : p.connections[c]? = some conn)
    : p.handlerAt c = some conn.handler := by
  unfold handlerAt
  rw [hget]
  rfl

theorem HasHandler.handlerAt_eq {handler : Handler} (h : p.HasHandler c handler)
    : p.handlerAt c = some handler := by
  obtain ⟨conn, hget, rfl⟩ := h
  exact handlerAt_of_getElem? hget

theorem phase_eq (hhandler : p'.handlerAt c = p.handlerAt c)
    (harm : p'.arm.greetingOf c = p.arm.greetingOf c)
    : p'.phase c = p.phase c := by
  unfold phase
  rw [hhandler, harm]

theorem phase_of_talking {handler : Handler} (hhandler : p.handlerAt c = some handler)
    (htalking : handler.IsConnected)
    : p.phase c = .talking := by
  unfold phase
  rw [hhandler]
  exact htalking.phase_eq _

theorem phase_of_accepted (hhandler : p.handlerAt c = some .accepted)
    : p.phase c = match p.arm.greetingOf c with
        | some msgs => .greeting msgs
        | none => .fresh := by
  unfold phase
  rw [hhandler]
  rfl

theorem handlerAt_update {f : PeerConnection → PeerConnection}
    (hf : ∀ conn, (f conn).handler = conn.handler) (d : Nat)
    : (p.update c f).handlerAt d = p.handlerAt d := by
  unfold handlerAt update
  dsimp only
  rw [List.getElem?_modify, Option.map_eq_map, Option.map_map]
  congr 1
  funext conn
  rw [Function.comp_apply]
  split
  . exact hf conn
  . rfl

theorem handlerAt_setHandler (handler : Handler) (d : Nat)
    : (p.setHandler c handler).handlerAt d
        = if c = d then (p.handlerAt d).map fun _ => handler else p.handlerAt d := by
  unfold handlerAt setHandler update
  dsimp only
  rw [List.getElem?_modify, Option.map_eq_map, Option.map_map]
  split
  . rw [Option.map_map]
    rfl
  . rfl

theorem Delivered.handlerAt_eq {w : Party} {msg : Messages} {delivery : Delivery}
    (h : p.Delivered w c msg delivery p') (d : Nat)
    : p'.handlerAt d = p.handlerAt d := by
  obtain ⟨f, rfl, hf⟩ := h.update_eq
  apply handlerAt_update
  intro conn
  rw [hf conn]

theorem Told.handlerAt_eq {peerId : PeerId} {msg : Messages} {delivery : Delivery}
    {signals : List Signal} (h : p.Told peerId msg delivery signals p') (d : Nat)
    : p'.handlerAt d = p.handlerAt d := by
  obtain ⟨c, f, rfl, hf⟩ := h.update_eq
  apply handlerAt_update
  intro conn
  rw [hf conn]

theorem sentTo_self (c : Nat) (msg : Messages) (signals : List Signal)
    : sentTo c (.sent c msg :: signals) = msg :: sentTo c signals := by
  simp [sentTo, Signal.toPeer]

theorem sentTo_ne {d : Nat} (h : d ≠ c) (msg : Messages) (signals : List Signal)
    : sentTo c (.sent d msg :: signals) = sentTo c signals := by
  simp [sentTo, Signal.toPeer, h]

theorem Proceeds.isConnected {next : Next} (h : Proceeds c next p p') {conn : PeerConnection}
    (hget : p.connections[c]? = some conn)
    : ∃ handler, p'.handlerAt c = some handler ∧ handler.IsConnected := by
  obtain ⟨f, heq, hf⟩ := h
  obtain ⟨outbound, handler, hconn, _, hfollows⟩ := hf conn hget
  refine ⟨handler, ?_, hfollows.isConnected⟩
  unfold handlerAt
  rw [heq, List.getElem?_modify, hget]
  simp [hconn]

theorem Polled.talking {signals : List Signal} (h : p.Polled c signals p')
    : p.phase c = .talking ∧ p'.phase c = .talking := by
  have htalks : ∀ {conn}, p.connections[c]? = some conn → conn.handler.IsConnected →
      p.phase c = .talking :=
    fun hget htalking => phase_of_talking (handlerAt_of_getElem? hget) htalking
  have htalks' : (∃ handler, p'.handlerAt c = some handler ∧ handler.IsConnected) →
      p'.phase c = .talking := by
    intro ⟨handler, hhandler, htalking⟩
    exact phase_of_talking hhandler htalking
  have hfinished : ∀ {conn}, p.connections[c]? = some conn →
      (p.setHandler c .finished).handlerAt c = some .finished := by
    intro conn hget
    rw [handlerAt_setHandler, if_pos rfl, handlerAt_of_getElem? hget]
    rfl
  cases h with
  | received conn msg inbound hget hhandler hrecv =>
    refine ⟨htalks hget (hhandler ▸ ⟨nofun, nofun, nofun⟩), htalks' ⟨_, ?_, isConnected_ofMessage msg⟩⟩
    exact handlerAt_of_getElem? (getElem?_update.mpr ⟨conn, hget, (if_pos rfl).symm⟩)
  | finished conn hget hhandler =>
    refine ⟨htalks hget ?_, htalks' ⟨_, hfinished hget, nofun, nofun, nofun⟩⟩
    rcases hhandler with hhandler | hhandler
    . exact hhandler ▸ ⟨nofun, nofun, nofun⟩
    . exact hhandler ▸ ⟨nofun, nofun, nofun⟩
  | lockPending conn job lock hget hhandler hlock =>
    have hphase := htalks hget (hhandler ▸ ⟨nofun, nofun, nofun⟩)
    exact ⟨hphase, hphase⟩
  | handled conn job lock next torrentState _ _ hget hhandler hlock hjob hproceeded =>
    have hproceeds : Proceeds c next p p' := hproceeded.proceeds
    exact ⟨htalks hget (hhandler ▸ ⟨nofun, nofun, nofun⟩), htalks' (hproceeds.isConnected hget)⟩
  | signalled conn msg _ _ hget hhandler hsignalled =>
    exact ⟨htalks hget (hhandler ▸ ⟨nofun, nofun, nofun⟩),
      htalks' (hsignalled.proceeds.isConnected hget)⟩
  | woken conn msg hget hhandler =>
    exact ⟨htalks hget (hhandler ▸ ⟨nofun, nofun, nofun⟩),
      htalks' ((proceeds_wake msg).isConnected hget)⟩

/--
Who may speak, and that it is nothing that belongs to the greeting.
-/
structure Speaks (p : TorrentProcessor σ) : Prop where
  reached : ∀ peerId c, p.peerToTx.lookup peerId = some c → p.phase c = .talking
  sending : ∀ peerId msg dequed, p.arm = .sending peerId msg dequed → msg.IsLater
  signalling : ∀ c msg, p.handlerAt c = some (.signalling msg) → msg.IsLater

/--
The loop has no sender for the peer of the connection, and no entry of it.
-/
def Forgot (c : Nat) (p p' : TorrentProcessor σ) : Prop :=
  ∀ conn, p.connections[c]? = some conn →
    p'.peerToTx.lookup conn.peerId = none ∧ conn.peerId ∉ p'.torrentState.peers

variable {greeting : List Messages} {forgotten : Prop}

theorem converses_of_eq {signals : List Signal} (hphase : p'.phase c = p.phase c)
    (hsent : sentTo c signals = [])
    : Converses greeting forgotten (p.phase c) (sentTo c signals) (p'.phase c) := by
  rw [hphase, hsent]
  exact .silent _

theorem Told.converses {p1 : TorrentProcessor σ} {peerId : PeerId} {msg : Messages}
    {delivery : Delivery} {signals : List Signal} (htold : p.Told peerId msg delivery signals p1)
    (h : p.Speaks) (hlater : msg.IsLater) (hphase : p'.phase c = p.phase c)
    : Converses greeting forgotten (p.phase c) (sentTo c signals) (p'.phase c) := by
  cases htold with
  | delivered d _ hlookup hdelivered =>
    by_cases hd : d = c
    . subst hd
      rw [sentTo_self, hphase, h.reached peerId d hlookup]
      exact .said msg hlater
    . exact converses_of_eq hphase (sentTo_ne hd msg [])
  | pending => exact converses_of_eq hphase rfl
  | closed => exact converses_of_eq hphase rfl

theorem Signalled.sentTo_eq {msg : Messages} {signals : List Signal}
    (h : p.Signalled c msg signals p')
    : sentTo c signals = [] ∨ sentTo c signals = [msg] := by
  cases h with
  | delivered => exact .inr (sentTo_self c msg _)
  | pending => exact .inl rfl
  | closed => exact .inl rfl

theorem Polled.sentTo_eq {signals : List Signal} (h : p.Polled c signals p') (hspeaks : p.Speaks)
    : sentTo c signals = [] ∨ ∃ msg, sentTo c signals = [msg] ∧ msg.IsLater := by
  have hsignalled : ∀ {q q' : TorrentProcessor σ} {msg signals}, q.Signalled c msg signals q' →
      msg.IsLater → sentTo c signals = [] ∨ ∃ msg, sentTo c signals = [msg] ∧ msg.IsLater := by
    intro q q' msg signals hs hlater
    rcases hs.sentTo_eq with heq | heq
    . exact .inl heq
    . exact .inr ⟨msg, heq, hlater⟩
  cases h with
  | handled conn job lock next torrentState _ _ hget hhandler hlock hjob hproceeded =>
    cases hproceeded with
    | receive => exact .inl rfl
    | wake => exact .inl rfl
    | signal msg _ _ hs =>
      obtain ⟨interest, rfl⟩ := TorrentState.handleJob_eq_signal hjob
      exact hsignalled hs (isLater_interestMsg interest)
  | signalled conn msg _ _ hget hhandler hs =>
    apply hsignalled hs
    apply hspeaks.signalling c msg
    rw [handlerAt_of_getElem? hget, hhandler]
  | received => exact .inl rfl
  | finished => exact .inl rfl
  | lockPending => exact .inl rfl
  | woken => exact .inl rfl

theorem Polled.sentTo_of_ne {d : Nat} {signals : List Signal} (h : p.Polled d signals p')
    (hd : d ≠ c)
    : sentTo c signals = [] := by
  have hsignalled : ∀ {q q' : TorrentProcessor σ} {msg signals}, q.Signalled d msg signals q' →
      sentTo c signals = [] := by
    intro q q' msg signals hs
    cases hs with
    | delivered => exact sentTo_ne hd msg _
    | pending => rfl
    | closed => rfl
  cases h with
  | handled conn job lock next torrentState _ _ hget hhandler hlock hjob hproceeded =>
    cases hproceeded with
    | receive => rfl
    | wake => rfl
    | signal msg _ _ hs => exact hsignalled hs
  | signalled conn msg _ _ hget hhandler hs => exact hsignalled hs
  | received => rfl
  | finished => rfl
  | lockPending => rfl
  | woken => rfl

theorem Touches.handlerAt_eq {d : Nat} (h : Touches d p p') (hd : d ≠ c)
    : p'.handlerAt c = p.handlerAt c := by
  obtain ⟨f, _, heq⟩ := h
  unfold handlerAt
  rw [heq, List.getElem?_modify_ne]
  exact hd

theorem Polled.converses {d : Nat} {signals : List Signal} (harm : p.arm = .select)
    (h : p.Polled d signals p') (hspeaks : p.Speaks)
    : Converses greeting forgotten (p.phase c) (sentTo c signals) (p'.phase c) := by
  by_cases hd : d = c
  . subst hd
    rw [h.talking.1, h.talking.2]
    rcases h.sentTo_eq hspeaks with heq | ⟨msg, heq, hlater⟩
    . rw [heq]
      exact .silent _
    . rw [heq]
      exact .said msg hlater
  . apply converses_of_eq _ (h.sentTo_of_ne hd)
    apply phase_eq (h.touches.1.handlerAt_eq hd)
    rw [harm]
    rcases polled_arm harm h with harm' | ⟨harm', _⟩
    . rw [harm']
    . rw [harm']
      rfl

variable {build : Build} {torrentIo : TorrentIo σ} {config : Config} {torrent : V1Torrent}

theorem greetingOf_ne {d : Nat} (hd : d ≠ c) (msgs : List Messages)
    : (Arm.greeting d msgs).greetingOf c = none :=
  if_neg hd

theorem greetingOf_self (msgs : List Messages) : (Arm.greeting c msgs).greetingOf c = some msgs :=
  if_pos rfl

theorem converses_of_greeting {d : Nat} {msgs : List Messages} {signals : List Signal}
    (harm : p.arm = .greeting d msgs) (hhas : p.HasHandler d .accepted)
    (hself : d = c → Converses greeting forgotten (.greeting msgs) (sentTo d signals) (p'.phase d))
    (hothers : d ≠ c → p'.handlerAt c = p.handlerAt c ∧ p'.arm.greetingOf c = none
      ∧ sentTo c signals = [])
    : Converses greeting forgotten (p.phase c) (sentTo c signals) (p'.phase c) := by
  by_cases hd : d = c
  . have hphase : p.phase d = .greeting msgs := by
      rw [phase_of_accepted hhas.handlerAt_eq, harm, greetingOf_self]
    rw [← hd, hphase]
    exact hself hd
  . obtain ⟨hhandler, harm', hsent⟩ := hothers hd
    apply converses_of_eq _ hsent
    apply phase_eq hhandler
    rw [harm', harm, greetingOf_ne hd]

theorem Advanced.converses {signals : List Signal} (h : p.Coherent) (hspeaks : p.Speaks)
    (ha : p.Advanced torrentIo torrent signals p') (c : Nat)
    : Converses (p.initialMessages torrent) (Forgot c p p') (p.phase c) (sentTo c signals) (p'.phase c) := by
  unfold Coherent at h
  have hset : ∀ {d : Nat} {handler handler' : Handler}, p.HasHandler d handler →
      (p.setHandler d handler').handlerAt d = some handler' := by
    intro d handler handler' hhas
    rw [handlerAt_setHandler, if_pos rfl, hhas.handlerAt_eq]
    rfl
  have hne : ∀ {d : Nat} {handler' : Handler}, d ≠ c →
      (p.setHandler d handler').handlerAt c = p.handlerAt c := by
    intro d handler' hd
    rw [handlerAt_setHandler, if_neg hd]
  have hquiet : ∀ {q : TorrentProcessor σ} {forgotten : Prop}, q.connections = p.connections →
      p.arm.greetingOf c = none → q.arm.greetingOf c = none → sentTo c signals = [] →
      Converses (p.initialMessages torrent) forgotten (p.phase c) (sentTo c signals) (q.phase c) := by
    intro q forgotten hconnections harm harm' hsent
    apply converses_of_eq _ hsent
    apply phase_eq
    . unfold handlerAt
      rw [hconnections]
    . rw [harm, harm']
  have hwoke : sentTo c (if .mainLoop ∈ p.wakeUp.senders then [] else [.woke .mainLoop .wakeup])
      = [] := by
    split
    . rfl
    . rfl
  cases ha with
  | lockPending => exact converses_of_eq rfl rfl
  | initConnection d lock harm =>
    rw [harm] at h
    by_cases hd : d = c
    . subst hd
      have hphase : p.phase d = .fresh := by
        rw [phase_of_accepted h.handlerAt_eq, harm]
        rfl
      have hhandler : ({ p with lock }.setArm (.greeting d (p.initialMessages torrent))).handlerAt d
          = some .accepted := h.handlerAt_eq
      rw [hphase, phase_of_accepted hhandler]
      dsimp only [setArm]
      rw [greetingOf_self]
      exact .began
    . exact hquiet rfl (by rw [harm]; rfl) (greetingOf_ne hd _) rfl
  | greeted d msg msgs p1 harm hdelivered =>
    rw [harm] at h
    apply converses_of_greeting harm h
    . intro _
      have hhandler : (p1.setArm (.greeting d msgs)).handlerAt d = some .accepted :=
        (hdelivered.handlerAt_eq d).trans h.handlerAt_eq
      rw [phase_of_accepted hhandler, sentTo_self]
      dsimp only [setArm]
      rw [greetingOf_self]
      exact .greeted msg msgs
    . intro hd
      exact ⟨hdelivered.handlerAt_eq c, greetingOf_ne hd msgs, sentTo_ne hd msg []⟩
  | greetPending d msg msgs p1 harm hdelivered =>
    apply converses_of_eq _ rfl
    exact phase_eq (hdelivered.handlerAt_eq c) (by rw [hdelivered.arm_eq])
  | greetClosed d msg msgs harm hclosed =>
    rw [harm] at h
    apply converses_of_greeting harm h
    . intro _
      have hphase' : ((p.unlock.setHandler d .closed).setArm .select).phase d = .finished := by
        have hhandler : ((p.unlock.setHandler d .closed).setArm .select).handlerAt d
            = some .closed := hset h
        unfold phase
        rw [hhandler]
        rfl
      rw [hphase']
      exact .refused (msg :: msgs)
    . intro hd
      exact ⟨hne hd, rfl, rfl⟩
  | registered d conn harm hget =>
    rw [harm] at h
    apply converses_of_greeting harm h
    . intro _
      have hhandler : (({ p with peerToTx := p.peerToTx.insert conn.peerId d }.unlock.setHandler d
          .receiving).setArm .select).handlerAt d = some .receiving := hset h
      rw [phase_of_talking hhandler ⟨nofun, nofun, nofun⟩]
      exact .joined
    . intro hd
      exact ⟨hne hd, rfl, rfl⟩
  | closing d lock conn harm hlock hget =>
    rw [harm] at h
    by_cases hd : d = c
    . subst hd
      have hphase : p.phase d = .talking :=
        phase_of_talking h.handlerAt_eq ⟨nofun, nofun, nofun⟩
      have hhandler : (({ p with
          lock
          peerToTx := p.peerToTx.erase conn.peerId
          torrentState := p.torrentState.removePeer conn.peerId }.unlock.setHandler d
          .closed).setArm .select).handlerAt d = some .closed := hset h
      rw [hphase]
      unfold phase
      rw [hhandler]
      apply Converses.left
      intro conn' hget'
      rw [hget, Option.some.injEq] at hget'
      rw [← hget']
      exact ⟨Finmap.lookup_erase _ _, fun hmem => (TorrentState.mem_peers_removePeer.mp hmem).1 rfl⟩
    . apply converses_of_eq _ rfl
      exact phase_eq (hne hd) (by rw [harm]; rfl)
  | passed peerId msg arm delivery _ p1 hpasses htold hdone =>
    have hlater : msg.IsLater ∧ p.arm.greetingOf c = none ∧ arm.greetingOf c = none := by
      have hsending := hspeaks.sending
      generalize p.arm = arm1 at hpasses hsending
      cases hpasses with
      | announcing => exact ⟨trivial, rfl, rfl⟩
      | sending => exact ⟨hsending _ _ _ rfl, rfl, rfl⟩
    have hhandler : (p1.setArm arm).handlerAt c = p.handlerAt c := htold.handlerAt_eq c
    apply htold.converses hspeaks hlater.1
    apply phase_eq hhandler
    rw [hlater.2.1]
    exact hlater.2.2
  | passPending peerId msg arm _ _ hpasses htold =>
    have hlater : msg.IsLater := by
      have hsending := hspeaks.sending
      generalize p.arm = arm1 at hpasses hsending
      cases hpasses with
      | announcing => trivial
      | sending => exact hsending _ _ _ rfl
    exact htold.converses hspeaks hlater (phase_eq (htold.handlerAt_eq c) (by rw [htold.arm_eq]))
  | dispatched req requests _ p1 harm htold =>
    refine htold.converses hspeaks trivial (phase_eq (htold.handlerAt_eq c) ?_)
    rw [harm]
    rfl
  | dispatchPending req requests _ _ harm htold =>
    exact htold.converses hspeaks trivial (phase_eq (htold.handlerAt_eq c) (by rw [htold.arm_eq]))
  | queued req lock harm hlock =>
    obtain ⟨requests, heq⟩ := queueRequests_eq { p with lock } req
    rw [heq]
    exact hquiet rfl (by rw [harm]; rfl) rfl rfl
  | choked peerId choked combinedPeers _ _ harm =>
    rw [harm] at h
    contradiction
  | announced pieceId harm => exact hquiet rfl (by rw [harm]; rfl) rfl rfl
  | undelivered req requests harm => exact hquiet rfl (by rw [harm]; rfl) rfl rfl
  | dispatchedAll harm => exact hquiet rfl (by rw [harm]; rfl) rfl rfl
  | dequeued lock harm => exact hquiet rfl (by rw [harm]; rfl) rfl rfl
  | answerSkipped req dequed harm => exact hquiet rfl (by rw [harm]; rfl) rfl rfl
  | answerRead req dequed block io harm => exact hquiet rfl (by rw [harm]; rfl) rfl rfl
  | answerFailed req dequed e io harm => exact hquiet rfl (by rw [harm]; rfl) rfl rfl
  | answeredAll harm => exact hquiet rfl (by rw [harm]; rfl) rfl rfl
  | chokedAll harm => exact hquiet rfl (by rw [harm]; rfl) rfl rfl
  | wokeUp wakeUp harm hsend => exact hquiet rfl (by rw [harm]; rfl) rfl hwoke
  | wakePending wakeUp harm hsend =>
    exact hquiet rfl (by rw [harm]; rfl) (show p.arm.greetingOf c = none by rw [harm]; rfl) hwoke

theorem Stepped.converses {event : StartEvent} {signals : List Signal} (h : p.Coherent)
    (hspeaks : p.Speaks) (hs : p.Stepped build torrentIo config torrent event signals p') (c : Nat)
    : Converses (p.initialMessages torrent) (Forgot c p p') (p.phase c) (sentTo c signals) (p'.phase c) := by
  have hsame : ∀ {q : TorrentProcessor σ} {signals : List Signal} {forgotten : Prop},
      q.connections = p.connections → q.arm.greetingOf c = p.arm.greetingOf c →
      sentTo c signals = [] →
      Converses (p.initialMessages torrent) forgotten (p.phase c) (sentTo c signals) (q.phase c) := by
    intro q signals forgotten hconnections harm hsent
    apply converses_of_eq _ hsent
    apply phase_eq _ harm
    unfold handlerAt
    rw [hconnections]
  have hset : ∀ {d : Nat} {conn : PeerConnection} (handler : Handler),
      p.connections[d]? = some conn → conn.handler.phase (p.arm.greetingOf d)
        = handler.phase (p.arm.greetingOf d) →
      (p.setHandler d handler).phase c = p.phase c := by
    intro d conn handler hget heq
    unfold phase
    rw [handlerAt_setHandler]
    by_cases hd : d = c
    . subst hd
      rw [if_pos rfl, handlerAt_of_getElem? hget]
      exact heq.symm
    . rw [if_neg hd]
      rfl
  cases hs with
  | connected peerId =>
    apply converses_of_eq _ rfl
    unfold phase handlerAt
    dsimp only
    rcases getElem?_concat p.connections _ c with heq | ⟨hnone, heq⟩
    . rw [heq]
    . rw [heq, hnone]
      rfl
  | linked d event conn conn' hget hran =>
    have hhandler : (p.update d fun _ => conn').handlerAt c = p.handlerAt c := by
      unfold handlerAt update
      dsimp only
      rw [List.getElem?_modify]
      by_cases hd : d = c
      . subst hd
        rw [hget]
        simp [hran.frame.2.1]
      . simp [hd]
    exact converses_of_eq (phase_eq hhandler rfl) rfl
  | written d conn index begin block finished io hget hhandler hwrite =>
    apply converses_of_eq
    . have hphase := hset (.locking (.reply { index, begin, finished })) hget
        (by rw [hhandler]; rfl)
      exact hphase
    . split
      . rfl
      . rfl
  | writeFailed d conn index begin block e io hget hhandler hwrite =>
    apply converses_of_eq _ rfl
    have hphase := hset .failed hget (by rw [hhandler]; rfl)
    exact hphase
  | polled d _ _ harm hpolled => exact hpolled.converses harm hspeaks
  | accepted d conn harm hget hhandler =>
    apply converses_of_eq _ rfl
    have hphase := hset .accepted hget (by rw [hhandler, harm]; rfl)
    rw [← hphase]
    exact phase_eq rfl (by rw [show (p.setHandler d .accepted).arm = .select from harm]; rfl)
  | took peerIds msg wakeUp arm harm hrecv hstarts =>
    refine hsame rfl ?_ rfl
    rw [harm]
    cases hstarts with
    | wakeup => rfl
    | pieceComplete => rfl
    | peerRequestedPiece => rfl
  | ticked harm => exact hsame rfl (by rw [harm]; rfl) rfl
  | advanced _ _ hadvanced => exact hadvanced.converses h hspeaks c
  | lockPending => exact hsame rfl rfl rfl
  | computed available now lock requests tracker harm => exact hsame rfl (by rw [harm]; rfl) rfl
  | unchoked newPotentialPeers peersThatLeft lock harm => exact hsame rfl (by rw [harm]; rfl) rfl
  | noneExpired now lock tracker harm => exact hsame rfl (by rw [harm]; rfl) rfl
  | someExpired now lock req requests tracker harm => exact hsame rfl (by rw [harm]; rfl) rfl

theorem Stepped.reached {event : StartEvent} {signals : List Signal} (h : p.Coherent)
    (hs : p.Stepped build torrentIo config torrent event signals p') {peerId : PeerId} {c : Nat}
    (hlookup : p'.peerToTx.lookup peerId = some c)
    : p.peerToTx.lookup peerId = some c ∨ p'.phase c = .talking := by
  cases hs with
  | polled _ _ _ _ hpolled =>
    rw [hpolled.touches.2] at hlookup
    exact .inl hlookup
  | took peerIds msg wakeUp arm harm hrecv hstarts =>
    exact .inl (Finmap.lookup_retain_eq_some.mp hlookup).1
  | advanced _ _ hadvanced =>
    cases hadvanced with
    | registered d conn harm hget =>
      dsimp only [setArm, setHandler, update, unlock] at hlookup
      by_cases heq : peerId = conn.peerId
      . rw [heq, Finmap.lookup_insert, Option.some.injEq] at hlookup
        right
        subst hlookup
        have hhandler : (({ p with peerToTx := p.peerToTx.insert conn.peerId d }.unlock.setHandler d
            .receiving).setArm .select).handlerAt d = some .receiving := by
          show (p.setHandler d .receiving).handlerAt d = _
          rw [handlerAt_setHandler, if_pos rfl, handlerAt_of_getElem? hget]
          rfl
        exact phase_of_talking hhandler ⟨nofun, nofun, nofun⟩
      . rw [Finmap.lookup_insert_of_ne _ heq] at hlookup
        exact .inl hlookup
    | closing d lock conn harm hlock hget =>
      dsimp only [setArm, setHandler, update, unlock] at hlookup
      by_cases heq : peerId = conn.peerId
      . rw [heq, Finmap.lookup_erase] at hlookup
        contradiction
      . rw [Finmap.lookup_erase_ne heq] at hlookup
        exact .inl hlookup
    | greeted d msg msgs p1 harm hdelivered => exact .inl (hdelivered.peerToTx_eq ▸ hlookup)
    | greetPending d msg msgs p1 harm hdelivered => exact .inl (hdelivered.peerToTx_eq ▸ hlookup)
    | passed _ _ _ _ _ p1 hpasses htold => exact .inl (htold.peerToTx_eq ▸ hlookup)
    | passPending _ _ _ _ _ hpasses htold => exact .inl (htold.peerToTx_eq ▸ hlookup)
    | dispatched _ _ _ p1 harm htold => exact .inl (htold.peerToTx_eq ▸ hlookup)
    | dispatchPending _ _ _ _ harm htold => exact .inl (htold.peerToTx_eq ▸ hlookup)
    | queued req lock harm hlock =>
      obtain ⟨requests, heq⟩ := queueRequests_eq { p with lock } req
      rw [heq] at hlookup
      exact .inl hlookup
    | choked _ _ _ _ _ harm =>
      unfold Coherent at h
      rw [harm] at h
      contradiction
    | _ => exact .inl hlookup
  | _ => exact .inl hlookup

theorem Speaks.reached_stepped {event : StartEvent} {signals : List Signal} (h : p.Speaks)
    (hcoherent : p.Coherent) (hown : p.TxOwn)
    (hs : p.Stepped build torrentIo config torrent event signals p') (peerId : PeerId) (c : Nat)
    (hlookup : p'.peerToTx.lookup peerId = some c)
    : p'.phase c = .talking := by
  rcases hs.reached hcoherent hlookup with hbefore | htalking
  . have hconverses := hs.converses hcoherent h c
    rw [h.reached peerId c hbefore] at hconverses
    generalize p'.phase c = phase' at hconverses ⊢
    generalize sentTo c signals = said at hconverses
    cases hconverses with
    | silent => rfl
    | said => rfl
    | left hforgotten =>
      obtain ⟨conn, hget, hid⟩ := hown peerId c hbefore
      have hnone := (hforgotten conn hget).1
      rw [hid, hlookup] at hnone
      contradiction
  . exact htalking

theorem Speaks.stepped {event : StartEvent} {signals : List Signal} (h : p.Speaks)
    (hcoherent : p.Coherent) (hown : p.TxOwn)
    (hs : p.Stepped build torrentIo config torrent event signals p')
    : p'.Speaks := by
  constructor
  . exact h.reached_stepped hcoherent hown hs
  . intro peerId msg dequed harm'
    have hmoves : p.Moves build torrentIo torrent p'.arm := hs.moves hcoherent
    rw [harm'] at hmoves
    generalize hsending : Arm.sending peerId msg dequed = arm at hmoves
    cases hmoves with
    | stays => exact h.sending peerId msg dequed hsending.symm
    | sends req _ block =>
      rw [Arm.sending.injEq] at hsending
      rw [hsending.2.1]
      trivial
    | _ => contradiction
  . intro c msg hhandler'
    unfold handlerAt at hhandler'
    rw [Option.map_eq_some_iff] at hhandler'
    obtain ⟨conn', hget', hhandler'⟩ := hhandler'
    have hold : ∀ {conn}, p.connections[c]? = some conn → conn.handler = .signalling msg →
        msg.IsLater := by
      intro conn hget hhandler
      apply h.signalling c msg
      rw [handlerAt_of_getElem? hget, hhandler]
    rcases hs.conn hcoherent hget' with ⟨conn, hget, hbecame⟩ | ⟨_, _, _, rfl⟩
    . cases hbecame with
      | kept => exact hold hget hhandler'
      | turned outbound handler hgrows hturns =>
        dsimp only at hhandler'
        subst hhandler'
        rcases hturns.isLater with hhandler | hlater
        . exact hold hget hhandler
        . exact hlater
      | received msg' =>
        cases msg' with
        | _ => contradiction
      | linked linkEvent _ _ hran =>
        rw [hran.frame.2.1] at hhandler'
        exact hold hget hhandler'
    . contradiction

theorem speaks_new (io : σ) : (new config torrent io).Speaks := by
  constructor
  . intro peerId c hlookup
    simp [new] at hlookup
  . intro peerId msg dequed harm
    contradiction
  . intro c msg hhandler
    simp [new, handlerAt] at hhandler

section

variable (build torrentIo config torrent)

/--
The greeting is what it was at some time before.
-/
def WasGreeting (io : σ) (tr : StartTrace) (greeting : List Messages) : Prop :=
  ∃ tr1 tr2 p1, tr = tr1 ++ tr2
    ∧ (startTask build torrentIo config torrent).Run (new config torrent io) tr1 p1
    ∧ greeting = p1.initialMessages torrent

def Heard (io : σ) (tr : StartTrace) (msgs : List Messages) : Phase → Prop
  | .fresh => msgs = []
  | .greeting rest => WasGreeting build torrentIo config torrent io tr (msgs ++ rest)
  | .talking => ∃ greeting later, WasGreeting build torrentIo config torrent io tr greeting
      ∧ msgs = greeting ++ later ∧ ∀ msg ∈ later, msg.IsLater
  | .finished => ∃ greeting, WasGreeting build torrentIo config torrent io tr greeting
      ∧ (msgs <+: greeting ∨ ∃ later, msgs = greeting ++ later ∧ ∀ msg ∈ later, msg.IsLater)

end

theorem WasGreeting.append {io : σ} {tr : StartTrace} {greeting : List Messages}
    (h : WasGreeting build torrentIo config torrent io tr greeting) (tr' : StartTrace)
    : WasGreeting build torrentIo config torrent io (tr ++ tr') greeting := by
  obtain ⟨tr1, tr2, p1, rfl, hrun, heq⟩ := h
  exact ⟨tr1, tr2 ++ tr', p1, List.append_assoc _ _ _, hrun, heq⟩

theorem Heard.append {io : σ} {tr : StartTrace} {msgs : List Messages} {phase : Phase}
    (h : Heard build torrentIo config torrent io tr msgs phase) (tr' : StartTrace)
    : Heard build torrentIo config torrent io (tr ++ tr') msgs phase := by
  cases phase with
  | fresh => exact h
  | greeting rest => exact WasGreeting.append h tr'
  | talking =>
    obtain ⟨greeting, later, hwas, h⟩ := h
    exact ⟨greeting, later, hwas.append tr', h⟩
  | finished =>
    obtain ⟨greeting, hwas, h⟩ := h
    exact ⟨greeting, hwas.append tr', h⟩

theorem Heard.converses {io : σ} {tr : StartTrace} {msgs said : List Messages}
    {phase phase' : Phase} (h : Heard build torrentIo config torrent io tr msgs phase)
    (hwas : WasGreeting build torrentIo config torrent io tr greeting)
    (hconverses : Converses greeting forgotten phase said phase')
    : Heard build torrentIo config torrent io tr (msgs ++ said) phase' := by
  cases hconverses with
  | silent =>
    rw [List.append_nil]
    exact h
  | began =>
    obtain rfl : msgs = [] := h
    exact hwas
  | greeted msg rest =>
    show WasGreeting build torrentIo config torrent io tr (msgs ++ [msg] ++ rest)
    rw [List.append_assoc]
    exact h
  | refused rest =>
    rw [List.append_nil]
    exact ⟨_, h, .inl (List.prefix_append msgs rest)⟩
  | joined =>
    rw [List.append_nil]
    exact ⟨_, [], h, by simp, by simp⟩
  | said msg hlater =>
    obtain ⟨greeting', later, hwas', rfl, hlaters⟩ := h
    refine ⟨greeting', later ++ [msg], hwas', List.append_assoc _ _ _, ?_⟩
    intro msg' hmem
    rw [List.mem_append, List.mem_singleton] at hmem
    rcases hmem with hmem | rfl
    . exact hlaters msg' hmem
    . exact hlater
  | left =>
    rw [List.append_nil]
    obtain ⟨greeting', later, hwas', heq, hlaters⟩ := h
    exact ⟨greeting', hwas', .inr ⟨later, heq, hlaters⟩⟩

theorem speaks_of_run {io : σ} {tr : StartTrace}
    (hrun : (startTask build torrentIo config torrent).Run (new config torrent io) tr p)
    : p.Speaks := by
  suffices h : (startTask build torrentIo config torrent).Run (new config torrent io) tr p
      ∧ p.Speaks from h.2
  apply hrun.invariant_trace (P := fun tr p =>
    (startTask build torrentIo config torrent).Run (new config torrent io) tr p ∧ p.Speaks)
  . intro tr p event signals p' _ hstep ⟨hrun, hspeaks⟩
    exact ⟨hrun.append (.cons trivial hstep (.nil _)),
      hspeaks.stepped (coherent_of_run hrun) (txOwn_of_run hrun) (stepped_of_step hstep)⟩
  . exact ⟨.nil _, speaks_new io⟩

theorem heard_of_run {io : σ} {tr : StartTrace} (c : Nat)
    (hrun : (startTask build torrentIo config torrent).Run (new config torrent io) tr p)
    : Heard build torrentIo config torrent io tr (sentIn c tr) (p.phase c) := by
  suffices h : (startTask build torrentIo config torrent).Run (new config torrent io) tr p
      ∧ Heard build torrentIo config torrent io tr (sentIn c tr) (p.phase c) from h.2
  apply hrun.invariant_trace (P := fun tr p =>
    (startTask build torrentIo config torrent).Run (new config torrent io) tr p
      ∧ Heard build torrentIo config torrent io tr (sentIn c tr) (p.phase c))
  . intro tr p event signals p' _ hstep ⟨hrun, h⟩
    refine ⟨hrun.append (.cons trivial hstep (.nil _)), ?_⟩
    rw [sentIn_append_singleton]
    apply (h.append _).converses _
      ((stepped_of_step hstep).converses (coherent_of_run hrun) (speaks_of_run hrun) c)
    exact ⟨tr, [(event, signals)], p, rfl, hrun, rfl⟩
  . exact ⟨.nil _, rfl⟩

/--
A part of the greeting, or all of it and then what may come later.
-/
def Spoken (greeting msgs : List Messages) : Prop :=
  msgs <+: greeting ∨ ∃ later, msgs = greeting ++ later ∧ ∀ msg ∈ later, msg.IsLater

theorem Spoken.of_prefix {msgs msgs' : List Messages} (h : Spoken greeting msgs)
    (hstarts : msgs' <+: msgs)
    : Spoken greeting msgs' := by
  rcases h with h | ⟨later, rfl, hlaters⟩
  . exact .inl (hstarts.trans h)
  . obtain ⟨rest, heq⟩ := hstarts
    rw [List.append_eq_append_iff] at heq
    rcases heq with ⟨part, hgreeting, _⟩ | ⟨later', hmsgs, hlater⟩
    . exact .inl ⟨part, hgreeting.symm⟩
    . refine .inr ⟨later', hmsgs, ?_⟩
      intro msg hmem
      apply hlaters
      rw [hlater]
      exact List.mem_append_left _ hmem

theorem Heard.spoken {io : σ} {tr : StartTrace} {msgs : List Messages} {phase : Phase}
    (h : Heard build torrentIo config torrent io tr msgs phase)
    (hrun : (startTask build torrentIo config torrent).Run (new config torrent io) tr p)
    : ∃ greeting, WasGreeting build torrentIo config torrent io tr greeting
        ∧ Spoken greeting msgs := by
  cases phase with
  | fresh =>
    obtain rfl : msgs = [] := h
    exact ⟨_, ⟨tr, [], p, (List.append_nil tr).symm, hrun, rfl⟩, .inl (List.nil_prefix)⟩
  | greeting rest => exact ⟨_, h, .inl (List.prefix_append msgs rest)⟩
  | talking =>
    obtain ⟨greeting, later, hwas, h⟩ := h
    exact ⟨greeting, hwas, .inr ⟨later, h⟩⟩
  | finished => exact h

/--
What is written to a peer is the greeting, with what was complete at some time before, as far as it
goes, and from then on nothing but announcements, interest, requests and pieces.
-/
theorem converses_of_run {io : σ} {tr : StartTrace} (c : Nat)
    (hrun : (startTask build torrentIo config torrent).Run (new config torrent io) tr p)
    : ∃ tr1 tr2 p1, tr = tr1 ++ tr2
        ∧ (startTask build torrentIo config torrent).Run (new config torrent io) tr1 p1
        ∧ Spoken (p1.initialMessages torrent)
            (writtenIn build torrentIo config torrent (new config torrent io) c tr) := by
  obtain ⟨greeting, ⟨tr1, tr2, p1, htr, hrun1, rfl⟩, hspoken⟩ := (heard_of_run c hrun).spoken hrun
  refine ⟨tr1, tr2, p1, htr, hrun1, hspoken.of_prefix ?_⟩
  rw [outbound_of_run c hrun]
  apply List.prefix_append

theorem converses_onePiece
    : ∃ tr p, (onePieceTask ⟨false, 8, 8, 1⟩).Run (onePieceStart ⟨false, 8, 8, 1⟩) tr p
        ∧ writtenIn ⟨true⟩ (MemoryTorrentIo.torrentIo ⟨true⟩) ⟨false, 8, 8, 1⟩
            (torrentFixture 2 2 [[1, 2]]) (onePieceStart ⟨false, 8, 8, 1⟩) 0 tr
          = [.bitField [0], .flag .choke, .flag .notInterested, .flag .interested, .request 0 0 2]
        ∧ ∃ tr1 tr2 p1, tr = tr1 ++ tr2
          ∧ (onePieceTask ⟨false, 8, 8, 1⟩).Run (onePieceStart ⟨false, 8, 8, 1⟩) tr1 p1
          ∧ Spoken (p1.initialMessages (torrentFixture 2 2 [[1, 2]]))
              (writtenIn ⟨true⟩ (MemoryTorrentIo.torrentIo ⟨true⟩) ⟨false, 8, 8, 1⟩
                (torrentFixture 2 2 [[1, 2]]) (onePieceStart ⟨false, 8, 8, 1⟩) 0 tr) := by
  obtain ⟨tr, p, hrun, _, hwritten⟩ := (onePieceTask ⟨false, 8, 8, 1⟩).exists_run_of_exec
    (onePieceStart ⟨false, 8, 8, 1⟩) (requestingEvents ++ List.replicate 5 (.link 0 .write))
    (fun res => writtenIn ⟨true⟩ (MemoryTorrentIo.torrentIo ⟨true⟩) ⟨false, 8, 8, 1⟩
      (torrentFixture 2 2 [[1, 2]]) (onePieceStart ⟨false, 8, 8, 1⟩) 0 res.1)
    (b := [.bitField [0], .flag .choke, .flag .notInterested, .flag .interested, .request 0 0 2])
    (by decide +kernel)
  exact ⟨tr, p, hrun, hwritten, converses_of_run 0 hrun⟩

end TorrentProcessor
