import BenTorrent.Peer.Start.Step

/-!
This module contains when the loop waits on itself to take a wake-up.
-/

open Rust

def StartEvent.isTake : StartEvent → Bool
  | .recvWakeUp _ => true
  | _ => false

namespace TorrentState

/--
The handling of the job ends with a message to the loop.
-/
def calls (state : TorrentState) (peerId : PeerId) : Job → Bool
  | .message (.flag _) => true
  | .message (.have _) => true
  | .message (.bitField _) => true
  | .message (.request _ _ _) => !state.chokes peerId
  | .message _ => false
  | .reply _ => true

/--
The peer is told first of our interest, which the job changes.
-/
def changesInterest (state : TorrentState) (peerId : PeerId) : Job → Bool
  | .message (.have pieceIndex) => (state.addPiecesForPeer peerId [pieceIndex]).1.isSome
  | .message (.bitField bitfield) =>
    (state.addPiecesForPeer peerId (BitFieldReader.piecesPresent ⟨bitfield⟩)).1.isSome
  | _ => false

theorem calls_of_handleJob (state : TorrentState) (peerId : PeerId) (job : Job)
    : match (state.handleJob peerId job).1 with
      | .receive => state.calls peerId job = false
      | .wake _ => state.calls peerId job = true ∧ state.changesInterest peerId job = false
      | .signal _ => state.calls peerId job = true ∧ state.changesInterest peerId job = true := by
  have hinterest : ∀ (called : Bool) (res : Option Bool × TorrentState), called = true →
      match (signalInterest res).1 with
      | .receive => called = false
      | .wake _ => called = true ∧ res.1.isSome = false
      | .signal _ => called = true ∧ res.1.isSome = true := by
    intro called res hcalled
    obtain ⟨interest, state'⟩ := res
    cases interest with
    | none => exact ⟨hcalled, rfl⟩
    | some interest => exact ⟨hcalled, rfl⟩
  cases job with
  | reply reply => exact ⟨rfl, rfl⟩
  | message msg =>
    cases msg with
    | «have» pieceIndex => exact hinterest true (state.addPiecesForPeer peerId [pieceIndex]) rfl
    | bitField bitfield =>
      exact hinterest true
        (state.addPiecesForPeer peerId (BitFieldReader.piecesPresent ⟨bitfield⟩)) rfl
    | request index begin length =>
      simp only [handleJob]
      cases hchokes : state.chokes peerId with
      | true =>
        show (!state.chokes peerId) = false
        rw [hchokes]
        rfl
      | false =>
        refine ⟨?_, rfl⟩
        show (!state.chokes peerId) = true
        rw [hchokes]
        rfl
    | flag flag => exact ⟨rfl, rfl⟩
    | keepAlive => rfl
    | cancel => rfl
    | piece => rfl

end TorrentState

/--
What the party sends to the peer of the connection gets into its channel at once.
-/
def PeerConnection.takesFrom (conn : PeerConnection) (w : Party) : Bool :=
  decide (conn.link ≠ .ended ∧ (w ∈ conn.outbound.granted ∨ conn.outbound.HasSlot))

namespace TorrentProcessor

variable {σ : Type u} {p p' : TorrentProcessor σ} {c : Nat} {tr : StartTrace}

/--
The timer arm gets the lock, and something has expired.
-/
def Expires (p : TorrentProcessor σ) (now : Nat) : Prop :=
  (p.lock.lock .mainLoop).1 = true ∧ (p.tracker.removeExpired now).1 ≠ []

instance (now : Nat) : Decidable (p.Expires now) :=
  inferInstanceAs (Decidable (_ ∧ _))

/--
Who has a message for the loop after the step: a handler that is through with its job, or the timer
arm.
-/
def callsLoop (p : TorrentProcessor σ) : StartEvent → Option Party
  | .poll c =>
    match p.connections[c]? with
    | none => none
    | some conn =>
      match conn.handler with
      | .locking job =>
        if (p.lock.lock (.handler c)).1 ∧ p.torrentState.calls conn.peerId job
          ∧ (p.torrentState.changesInterest conn.peerId job → conn.takesFrom (.handler c)) then
          some (.handler c)
        else
          none
      | .signalling _ => if conn.takesFrom (.handler c) then some (.handler c) else none
      | _ => none
  | .expire now => if p.Expires now then some .mainLoop else none
  | _ => none

/--
The messages in the channel or on their way into it, with the one that the timer arm is about to send.
-/
def wakeUpLoad (p : TorrentProcessor σ) : Nat :=
  p.wakeUp.load + if p.arm = .wakingUp ∧ .mainLoop ∉ p.wakeUp.senders then 1 else 0

def Waking (p : TorrentProcessor σ) (c : Nat) : Prop :=
  ∃ conn msg, p.connections[c]? = some conn ∧ conn.handler = .waking msg

/--
Those in the middle of a send to the loop are the handlers that stand there, and the loop itself in
the arm of its timer.
-/
structure WakeSenders (p : TorrentProcessor σ) : Prop where
  capacity_eq : p.wakeUp.capacity = wakeUpSize
  handlers : ∀ c, .handler c ∈ p.wakeUp.senders ↔ p.Waking c
  mainLoop : .mainLoop ∈ p.wakeUp.senders → p.arm = .wakingUp

theorem waking_of_connections {d : Nat} (hconnections : p'.connections = p.connections)
    : p'.Waking d ↔ p.Waking d := by
  unfold Waking
  rw [hconnections]

theorem waking_append {conn : PeerConnection} {d : Nat}
    (hconnections : p'.connections = p.connections ++ [conn])
    (hhandler : ∀ msg, conn.handler ≠ .waking msg)
    : p'.Waking d ↔ p.Waking d := by
  unfold Waking
  rw [hconnections]
  constructor
  . intro ⟨conn', msg, hget, hwaking⟩
    rw [List.getElem?_append] at hget
    split at hget
    . exact ⟨conn', msg, hget, hwaking⟩
    . rw [List.getElem?_singleton] at hget
      split at hget
      . rw [Option.some.injEq] at hget
        rw [← hget] at hwaking
        exact absurd hwaking (hhandler msg)
      . contradiction
  . intro ⟨conn', msg, hget, hwaking⟩
    refine ⟨conn', msg, ?_, hwaking⟩
    rw [List.getElem?_append_left (List.getElem?_eq_some_iff.mp hget).1]
    exact hget

theorem waking_update {f : PeerConnection → PeerConnection} {d : Nat}
    (hf : ∀ conn, p.connections[c]? = some conn → ∀ msg,
      (f conn).handler = .waking msg ↔ conn.handler = .waking msg)
    : (p.update c f).Waking d ↔ p.Waking d := by
  unfold Waking
  constructor
  . intro ⟨conn', msg, hget', hhandler⟩
    rw [getElem?_update] at hget'
    obtain ⟨conn, hget, rfl⟩ := hget'
    refine ⟨conn, msg, hget, ?_⟩
    split at hhandler
    . next heq =>
      subst heq
      exact (hf conn hget msg).mp hhandler
    . exact hhandler
  . intro ⟨conn, msg, hget, hhandler⟩
    refine ⟨_, msg, getElem?_update.mpr ⟨conn, hget, rfl⟩, ?_⟩
    split
    . next heq =>
      subst heq
      exact (hf conn hget msg).mpr hhandler
    . exact hhandler

theorem waking_setHandler (handler : Handler) {d : Nat} (hold : ¬p.Waking c)
    (hnew : ∀ msg, handler ≠ .waking msg)
    : (p.setHandler c handler).Waking d ↔ p.Waking d := by
  apply waking_update
  intro conn hget msg
  constructor
  . intro h
    exact absurd h (hnew msg)
  . intro h
    exact absurd ⟨conn, msg, hget, h⟩ hold

theorem not_waking {conn : PeerConnection} (hget : p.connections[c]? = some conn)
    (hhandler : ∀ msg, conn.handler ≠ .waking msg)
    : ¬p.Waking c := by
  intro ⟨conn', msg, hget', hwaking⟩
  rw [hget, Option.some.injEq] at hget'
  subst hget'
  exact hhandler msg hwaking

theorem not_waking_of_hasHandler {handler : Handler} (h : p.HasHandler c handler)
    (hnew : ∀ msg, handler ≠ .waking msg)
    : ¬p.Waking c := by
  obtain ⟨conn, hget, rfl⟩ := h
  exact not_waking hget hnew

theorem wakingUp_iff_of_ne {arm : Arm} (harm : p.arm = arm) (hne : arm ≠ .wakingUp)
    (hne' : p'.arm ≠ .wakingUp)
    : p'.arm = .wakingUp ↔ p.arm = .wakingUp := by
  rw [harm]
  exact iff_of_false hne' hne

theorem WakeSenders.of_eq (h : p.WakeSenders) (hwakeUp : p'.wakeUp = p.wakeUp)
    (hwaking : ∀ d, p'.Waking d ↔ p.Waking d) (harm : p.arm = .wakingUp → p'.arm = .wakingUp)
    : p'.WakeSenders := by
  constructor
  . rw [hwakeUp]
    exact h.capacity_eq
  . intro d
    rw [hwakeUp, hwaking]
    exact h.handlers d
  . rw [hwakeUp]
    intro hmem
    exact harm (h.mainLoop hmem)

theorem waking_wake {msg : InternalStateMessage} {conn : PeerConnection} {d : Nat}
    (hget : p.connections[c]? = some conn)
    : (p.wake c msg).Waking d
        ↔
      if d = c then (p.wakeUp.send (.handler c) msg).1 = false else p.Waking d := by
  by_cases hd : d = c
  . subst hd
    rw [if_pos rfl]
    constructor
    . intro ⟨conn', msg', hget', hhandler⟩
      replace hget' := getElem?_update.mp hget'
      obtain ⟨conn1, _, rfl⟩ := hget'
      rw [if_pos rfl] at hhandler
      dsimp only at hhandler
      split at hhandler
      . contradiction
      . next hsend => simpa using hsend
    . intro hsend
      refine ⟨_, msg, getElem?_update.mpr ⟨conn, hget, rfl⟩, ?_⟩
      rw [if_pos rfl]
      dsimp only
      rw [hsend]
      rfl
  . rw [if_neg hd]
    constructor
    . intro ⟨conn', msg', hget', hhandler⟩
      replace hget' := getElem?_update.mp hget'
      obtain ⟨conn1, hget1, rfl⟩ := hget'
      rw [if_neg (Ne.symm hd)] at hhandler
      exact ⟨conn1, msg', hget1, hhandler⟩
    . intro ⟨conn1, msg', hget1, hhandler⟩
      refine ⟨_, msg', getElem?_update.mpr ⟨conn1, hget1, rfl⟩, ?_⟩
      rw [if_neg (Ne.symm hd)]
      exact hhandler

theorem WakeSenders.wake {msg : InternalStateMessage} {conn : PeerConnection} (h : p.WakeSenders)
    (hget : p.connections[c]? = some conn)
    : (p.wake c msg).WakeSenders := by
  obtain ⟨sent, wakeUp, hsend⟩ : ∃ sent wakeUp, p.wakeUp.send (.handler c) msg = (sent, wakeUp) :=
    ⟨_, _, rfl⟩
  have hwakeUp : (p.wake c msg).wakeUp = wakeUp := by
    show (p.wakeUp.send (.handler c) msg).2 = wakeUp
    rw [hsend]
  cases sent with
  | true =>
    have hmem : ∀ w, w ∈ wakeUp.senders ↔ w ≠ .handler c ∧ w ∈ p.wakeUp.senders :=
      fun w => Channel.mem_senders_of_send_eq_true hsend
    constructor
    . rw [hwakeUp, (Channel.send_eq_true hsend).1]
      exact h.capacity_eq
    . intro d
      rw [hwakeUp, hmem, waking_wake hget, hsend, h.handlers]
      by_cases hd : d = c
      . simp [hd]
      . simp [hd]
    . rw [hwakeUp, hmem]
      intro hmem
      exact h.mainLoop hmem.2
  | false =>
    have hmem : ∀ w, w ∈ wakeUp.senders ↔ w = .handler c ∨ w ∈ p.wakeUp.senders :=
      fun w => Channel.mem_senders_of_send_eq_false hsend
    constructor
    . rw [hwakeUp, (Channel.send_eq_false hsend).1]
      exact h.capacity_eq
    . intro d
      rw [hwakeUp, hmem, waking_wake hget, hsend, h.handlers, Party.handler.injEq]
      by_cases hd : d = c
      . simp [hd]
      . simp [hd]
    . rw [hwakeUp, hmem]
      rintro (heq | hmem)
      . contradiction
      . exact h.mainLoop hmem

def Loads (p : TorrentProcessor σ) (n : Nat) (p' : TorrentProcessor σ) : Prop :=
  p'.WakeSenders ∧ p'.wakeUpLoad = p.wakeUpLoad + n

theorem wakeUpLoad_of_ne (harm : p.arm ≠ .wakingUp) : p.wakeUpLoad = p.wakeUp.load := by
  unfold wakeUpLoad
  rw [if_neg fun hand => harm hand.1, Nat.add_zero]

theorem WakeSenders.loads_wake {msg : InternalStateMessage} {conn : PeerConnection}
    (h : p.WakeSenders) (hget : p.connections[c]? = some conn) (harm : p.arm ≠ .wakingUp)
    (hnot : ¬p.Waking c)
    : p.Loads 1 (p.wake c msg) := by
  refine ⟨h.wake hget, ?_⟩
  rw [wakeUpLoad_of_ne harm, wakeUpLoad_of_ne (p := p.wake c msg) harm]
  show (p.wakeUp.send (.handler c) msg).2.load = _
  rw [Channel.load_send, if_neg]
  rwa [h.handlers]

theorem WakeSenders.loads_wake_again {msg : InternalStateMessage} {conn : PeerConnection}
    (h : p.WakeSenders) (hget : p.connections[c]? = some conn) (harm : p.arm ≠ .wakingUp)
    (hwaking : p.Waking c)
    : p.Loads 0 (p.wake c msg) := by
  refine ⟨h.wake hget, ?_⟩
  rw [wakeUpLoad_of_ne harm, wakeUpLoad_of_ne (p := p.wake c msg) harm]
  show (p.wakeUp.send (.handler c) msg).2.load = _
  rw [Channel.load_send, if_pos, Nat.add_zero]
  rwa [h.handlers]

theorem WakeSenders.quiet (h : p.WakeSenders) (hwakeUp : p'.wakeUp = p.wakeUp)
    (hwaking : ∀ d, p'.Waking d ↔ p.Waking d) (harm : p'.arm = .wakingUp ↔ p.arm = .wakingUp)
    : p.Loads 0 p' := by
  refine ⟨h.of_eq hwakeUp hwaking harm.mpr, ?_⟩
  unfold wakeUpLoad
  simp only [hwakeUp, harm, Nat.add_zero]

theorem Delivered.takesFrom {w : Party} {msg : Messages} {delivery : Delivery}
    {conn : PeerConnection} (h : p.Delivered w c msg delivery p')
    (hget : p.connections[c]? = some conn)
    : conn.takesFrom w = decide (delivery = .delivered) := by
  unfold PeerConnection.takesFrom
  cases h with
  | delivered conn' outbound hget' hopen hsend =>
    rw [hget, Option.some.injEq] at hget'
    subst hget'
    simp [hopen, (Channel.send_eq_true hsend).2.2.2.2]
  | pending conn' outbound hget' hopen hsend =>
    rw [hget, Option.some.injEq] at hget'
    subst hget'
    obtain ⟨_, _, _, _, _, hgranted, hslot⟩ := Channel.send_eq_false hsend
    simp [hgranted, hslot]
  | closed hclosed => simp [hclosed conn hget]

theorem waking_delivered {w : Party} {msg : Messages} {delivery : Delivery} {d : Nat}
    (h : p.Delivered w c msg delivery p')
    : p'.Waking d ↔ p.Waking d := by
  obtain ⟨f, rfl, hf⟩ := h.update_eq
  apply waking_update
  intro conn _ msg'
  rw [hf conn]

theorem waking_told {peerId : PeerId} {msg : Messages} {delivery : Delivery}
    {signals : List Signal} {d : Nat} (h : p.Told peerId msg delivery signals p')
    : p'.Waking d ↔ p.Waking d := by
  obtain ⟨c, f, rfl, hf⟩ := h.update_eq
  apply waking_update
  intro conn _ msg'
  rw [hf conn]

theorem WakeSenders.told {peerId : PeerId} {msg : Messages} {delivery : Delivery}
    {signals : List Signal} (h : p.WakeSenders) (htold : p.Told peerId msg delivery signals p')
    (p1 : TorrentProcessor σ) (hwakeUp : p1.wakeUp = p'.wakeUp)
    (hconnections : p1.connections = p'.connections) (harm : p.arm ≠ .wakingUp)
    (harm1 : p1.arm ≠ .wakingUp)
    : p.Loads 0 p1 := by
  apply h.quiet
  . obtain ⟨c, f, rfl, _⟩ := htold.update_eq
    exact hwakeUp
  . intro d
    rw [← waking_told htold]
    exact waking_of_connections hconnections
  . exact iff_of_false harm1 harm

theorem WakeSenders.signalled {msg : Messages} {signals : List Signal} {conn : PeerConnection}
    (h : p.WakeSenders) (hget : p.connections[c]? = some conn)
    (hhandler : ∀ msg, conn.handler ≠ .waking msg) (harm : p.arm = .select)
    (hs : p.Signalled c msg signals p')
    : p.Loads (if conn.takesFrom (.handler c) then 1 else 0) p' := by
  have hnot := not_waking hget hhandler
  have harm' : p.arm ≠ .wakingUp := by simp [harm]
  cases hs with
  | delivered p1 hdelivered =>
    rw [hdelivered.takesFrom hget]
    have hnot1 : ¬p1.unlock.Waking c := by
      intro hwaking
      exact hnot ((waking_delivered hdelivered).mp hwaking)
    obtain ⟨f, rfl, _⟩ := hdelivered.update_eq
    have hwaking : ∀ d, (p.update c f).Waking d ↔ p.Waking d :=
      fun d => waking_delivered hdelivered
    have h1 : (p.update c f).unlock.WakeSenders := h.of_eq rfl hwaking id
    have hget1 : (p.update c f).unlock.connections[c]? = some (f conn) :=
      getElem?_update.mpr ⟨conn, hget, by rw [if_pos rfl]⟩
    exact h1.loads_wake hget1 harm' hnot1
  | pending p1 hdelivered =>
    rw [hdelivered.takesFrom hget]
    apply h.quiet
    . obtain ⟨f, rfl, _⟩ := hdelivered.update_eq
      rfl
    . intro d
      have hnot1 : ¬p1.Waking c := by
        intro hwaking
        exact hnot ((waking_delivered hdelivered).mp hwaking)
      rw [waking_setHandler _ hnot1 (by simp), waking_delivered hdelivered]
    . obtain ⟨f, rfl, _⟩ := hdelivered.update_eq
      rfl
  | closed hclosed =>
    have hdelivered : p.Delivered (.handler c) c msg .closed p := .closed hclosed
    rw [hdelivered.takesFrom hget]
    apply h.quiet
    . rfl
    . intro d
      exact waking_setHandler (p := p.unlock) _ hnot (by simp)
    . rw [harm]
      show Arm.closing c = .wakingUp ↔ _
      simp

theorem WakeSenders.polled {signals : List Signal} (h : p.WakeSenders) (harm : p.arm = .select)
    (hp : p.Polled c signals p')
    : p.Loads (p.callsLoop (.poll c)).toList.length p' := by
  have harm' : p.arm ≠ .wakingUp := by simp [harm]
  unfold callsLoop
  cases hp with
  | received conn msg inbound hget hhandler =>
    simp only [hget, hhandler]
    apply h.quiet
    . rfl
    . intro d
      apply waking_update
      intro conn1 hget1 msg'
      rw [hget, Option.some.injEq] at hget1
      rw [← hget1, hhandler]
      cases msg with
      | _ => simp [Handler.ofMessage]
    . rfl
  | finished conn hget hhandler =>
    have hnot : ∀ msg, conn.handler ≠ .waking msg := by
      intro msg
      rcases hhandler with hhandler | hhandler
      . simp [hhandler]
      . simp [hhandler]
    have hquiet : p.Loads 0 (p.finish c) := by
      apply h.quiet
      . rfl
      . intro d
        exact waking_setHandler _ (not_waking hget hnot) (by simp)
      . rw [harm]
        show Arm.closing c = .wakingUp ↔ _
        simp
    rcases hhandler with hhandler | hhandler
    . simp only [hget, hhandler]
      exact hquiet
    . simp only [hget, hhandler]
      exact hquiet
  | lockPending conn job lock hget hhandler hlock =>
    simp only [hget, hhandler, hlock, Bool.false_eq_true, false_and, if_false]
    exact h.quiet rfl (fun _ => Iff.rfl) .rfl
  | signalled conn msg _ _ hget hhandler hs =>
    have hloads := h.signalled hget (by simp [hhandler]) harm hs
    simp only [hget, hhandler]
    split at hloads
    . next htakes =>
      rw [if_pos htakes]
      exact hloads
    . next htakes =>
      rw [if_neg htakes]
      exact hloads
  | woken conn msg hget hhandler =>
    simp only [hget, hhandler]
    exact h.loads_wake_again hget harm' ⟨conn, msg, hget, hhandler⟩
  | handled conn job lock next torrentState _ _ hget hhandler hlock hjob hproceeded =>
    have h1 : WakeSenders { p with lock, torrentState } := h.of_eq rfl (fun _ => Iff.rfl) id
    have hnot := not_waking hget (c := c) (by simp [hhandler])
    have hcalls := TorrentState.calls_of_handleJob p.torrentState conn.peerId job
    simp only [hjob] at hcalls
    simp only [hget, hhandler, hlock, true_and]
    cases hproceeded with
    | receive =>
      dsimp only at hcalls
      rw [if_neg (by simp [hcalls])]
      apply h.quiet
      . rfl
      . intro d
        exact waking_setHandler (p := { p with lock, torrentState }.unlock) .receiving hnot (by simp)
      . rfl
    | wake msg =>
      dsimp only at hcalls
      rw [if_pos (by simp [hcalls])]
      have h2 : { p with lock, torrentState }.unlock.WakeSenders :=
        h1.of_eq rfl (fun _ => Iff.rfl) id
      exact h2.loads_wake hget harm' hnot
    | signal msg _ _ hs =>
      dsimp only at hcalls
      have hloads := h1.signalled hget (by simp [hhandler]) harm hs
      simp only [hcalls, true_and, forall_const]
      split at hloads
      . next htakes =>
        rw [if_pos htakes]
        exact hloads
      . next htakes =>
        rw [if_neg htakes]
        exact hloads

variable {build : Build} {torrentIo : TorrentIo σ} {config : Config} {torrent : V1Torrent}

theorem WakeSenders.sendWakeUp {sent : Bool} {wakeUp : Channel Party InternalStateMessage}
    (h : p.WakeSenders) (harm : p.arm = .wakingUp)
    (hsend : p.wakeUp.send .mainLoop .wakeup = (sent, wakeUp))
    (hconnections : p'.connections = p.connections) (hwakeUp : p'.wakeUp = wakeUp)
    (harm' : p'.arm = .wakingUp ↔ sent = false)
    : p.Loads 0 p' := by
  have hhandlers : wakeUp.capacity = p.wakeUp.capacity
      ∧ (∀ c, .handler c ∈ wakeUp.senders ↔ .handler c ∈ p.wakeUp.senders)
      ∧ (.mainLoop ∈ wakeUp.senders ↔ sent = false) := by
    cases sent with
    | true =>
      refine ⟨(Channel.send_eq_true hsend).1, ?_, ?_⟩
      . intro c
        rw [Channel.mem_senders_of_send_eq_true hsend]
        simp
      . rw [Channel.mem_senders_of_send_eq_true hsend]
        simp
    | false =>
      refine ⟨(Channel.send_eq_false hsend).1, ?_, ?_⟩
      . intro c
        rw [Channel.mem_senders_of_send_eq_false hsend]
        simp
      . rw [Channel.mem_senders_of_send_eq_false hsend]
        simp
  constructor
  . constructor
    . rw [hwakeUp, hhandlers.1]
      exact h.capacity_eq
    . intro c
      rw [hwakeUp, hhandlers.2.1, h.handlers]
      exact (waking_of_connections hconnections).symm
    . rw [hwakeUp, hhandlers.2.2]
      exact harm'.mpr
  . have hload := Channel.load_send p.wakeUp .mainLoop .wakeup
    rw [hsend] at hload
    unfold wakeUpLoad
    rw [hwakeUp, if_neg (by rw [hhandlers.2.2, harm']; simp), hload]
    split
    . next hmem => rw [if_neg fun hand => hand.2 hmem]
    . next hmem => rw [if_pos ⟨harm, hmem⟩]

theorem WakeSenders.advanced {signals : List Signal} (h : p.WakeSenders) (hcoherent : p.Coherent)
    (ha : p.Advanced torrentIo torrent signals p')
    : p.Loads 0 p' := by
  have hquiet : ∀ {arm : Arm} {q : TorrentProcessor σ}, q.wakeUp = p.wakeUp →
      q.connections = p.connections → p.arm = arm → arm ≠ .wakingUp → q.arm ≠ .wakingUp →
      p.Loads 0 q := by
    intro arm q hwakeUp hconnections harm hne hne'
    exact h.quiet hwakeUp (fun _ => waking_of_connections hconnections)
      (wakingUp_iff_of_ne harm hne hne')
  have hpasses : ∀ {peerId msg arm}, Passes p.arm peerId msg arm → p.arm ≠ .wakingUp := by
    intro peerId msg arm hpasses heq
    rw [heq] at hpasses
    cases hpasses
  have hpassed : ∀ {peerId msg arm}, Passes p.arm peerId msg arm → arm ≠ .wakingUp := by
    intro peerId msg arm hpasses heq
    rw [heq] at hpasses
    generalize p.arm = arm' at hpasses
    cases hpasses
  unfold Coherent at hcoherent
  cases ha with
  | lockPending => exact h.quiet rfl (fun _ => .rfl) .rfl
  | initConnection c lock harm => exact hquiet rfl rfl harm nofun nofun
  | greeted c msg msgs p1 harm hdelivered =>
    have hwaking : ∀ d, p1.Waking d ↔ p.Waking d := fun d => waking_delivered hdelivered
    apply h.quiet
    . obtain ⟨f, rfl, _⟩ := hdelivered.update_eq
      rfl
    . exact hwaking
    . exact wakingUp_iff_of_ne harm nofun nofun
  | greetPending c msg msgs p1 harm hdelivered =>
    have hwaking : ∀ d, p'.Waking d ↔ p.Waking d := fun d => waking_delivered hdelivered
    obtain ⟨f, rfl, _⟩ := hdelivered.update_eq
    exact h.quiet rfl hwaking .rfl
  | greetClosed c msg msgs harm hclosed =>
    rw [harm] at hcoherent
    refine h.quiet rfl ?_ (wakingUp_iff_of_ne harm nofun nofun)
    intro d
    exact waking_setHandler (p := p.unlock) _ (not_waking_of_hasHandler hcoherent (by simp)) (by simp)
  | registered c conn harm hget =>
    rw [harm] at hcoherent
    refine h.quiet rfl ?_ (wakingUp_iff_of_ne harm nofun nofun)
    intro d
    have hwaking := waking_setHandler .receiving (d := d)
      (not_waking_of_hasHandler hcoherent (by simp)) (by simp)
    exact hwaking
  | closing c lock conn harm hlock hget =>
    rw [harm] at hcoherent
    refine h.quiet rfl ?_ (wakingUp_iff_of_ne harm nofun nofun)
    intro d
    have hwaking := waking_setHandler .closed (d := d)
      (not_waking_of_hasHandler hcoherent (by simp)) (by simp)
    exact hwaking
  | passed peerId msg arm delivery _ p1 hpass htold hdone =>
    exact h.told htold _ rfl rfl (hpasses hpass) (hpassed hpass)
  | passPending peerId msg arm _ _ hpass htold =>
    exact h.told htold _ rfl rfl (hpasses hpass) (by rw [htold.arm_eq]; exact hpasses hpass)
  | dispatched req requests _ p1 harm htold =>
    exact h.told htold _ rfl rfl (by rw [harm]; simp) nofun
  | dispatchPending req requests _ _ harm htold =>
    exact h.told htold _ rfl rfl (by rw [harm]; simp) (by rw [htold.arm_eq, harm]; simp)
  | queued req lock harm hlock =>
    obtain ⟨requests, heq⟩ := queueRequests_eq { p with lock } req
    rw [heq]
    exact hquiet rfl rfl harm nofun nofun
  | choked peerId choked combinedPeers _ _ harm =>
    rw [harm] at hcoherent
    contradiction
  | wokeUp wakeUp harm hsend => exact h.sendWakeUp harm hsend rfl rfl (iff_of_false nofun nofun)
  | wakePending wakeUp harm hsend => exact h.sendWakeUp harm hsend rfl rfl (iff_of_true harm rfl)
  | announced _ harm => exact hquiet rfl rfl harm nofun nofun
  | undelivered _ _ harm => exact hquiet rfl rfl harm nofun nofun
  | dispatchedAll harm => exact hquiet rfl rfl harm nofun nofun
  | dequeued _ harm => exact hquiet rfl rfl harm nofun nofun
  | answerSkipped _ _ harm => exact hquiet rfl rfl harm nofun nofun
  | answerRead _ _ _ _ harm => exact hquiet rfl rfl harm nofun nofun
  | answerFailed _ _ _ _ harm => exact hquiet rfl rfl harm nofun nofun
  | answeredAll harm => exact hquiet rfl rfl harm nofun nofun
  | chokedAll harm => exact hquiet rfl rfl harm nofun nofun

theorem WakeSenders.stepped {event : StartEvent} {signals : List Signal} (h : p.WakeSenders)
    (hcoherent : p.Coherent) (hs : p.Stepped build torrentIo config torrent event signals p')
    : p'.WakeSenders
        ∧ p.wakeUpLoad + (p.callsLoop event).toList.length
          = p'.wakeUpLoad + if event.isTake then 1 else 0 := by
  have hnone : p.Loads 0 p' → p.callsLoop event = none → event.isTake = false →
      p'.WakeSenders ∧ p.wakeUpLoad + (p.callsLoop event).toList.length
        = p'.wakeUpLoad + if event.isTake then 1 else 0 := by
    intro hloads hcalls htake
    rw [hcalls, htake, hloads.2]
    exact ⟨hloads.1, rfl⟩
  cases hs with
  | connected peerId =>
    exact hnone (h.quiet rfl (fun _ => waking_append rfl nofun) .rfl) rfl rfl
  | linked c event conn conn' hget hran =>
    refine hnone (h.quiet rfl ?_ .rfl) rfl rfl
    intro d
    apply waking_update
    intro conn1 hget1 msg
    rw [hget, Option.some.injEq] at hget1
    rw [hran.frame.2.1, hget1]
  | written c conn index begin block finished io hget hhandler hwrite =>
    refine hnone (h.quiet rfl ?_ .rfl) rfl rfl
    intro d
    have hwaking := waking_setHandler (.locking (.reply { index, begin, finished })) (d := d)
      (not_waking hget (by simp [hhandler])) (by simp)
    exact hwaking
  | writeFailed c conn index begin block e io hget hhandler hwrite =>
    refine hnone (h.quiet rfl ?_ .rfl) rfl rfl
    intro d
    have hwaking := waking_setHandler .failed (d := d) (not_waking hget (by simp [hhandler]))
      (by simp)
    exact hwaking
  | polled c _ _ harm hpolled =>
    obtain ⟨h', hload⟩ := h.polled harm hpolled
    exact ⟨h', hload.symm⟩
  | accepted c conn harm hget hhandler =>
    refine hnone (h.quiet rfl ?_ (wakingUp_iff_of_ne harm nofun nofun)) rfl rfl
    intro d
    have hwaking := waking_setHandler .accepted (d := d) (not_waking hget (by simp [hhandler]))
      (by simp)
    exact hwaking
  | took peerIds msg wakeUp arm harm hrecv hstarts =>
    obtain ⟨hcapacity, _, hsenders, _⟩ := Channel.recv_eq_some hrecv
    have hnot : .mainLoop ∉ p.wakeUp.senders := by
      intro hmem
      have heq := h.mainLoop hmem
      rw [harm] at heq
      contradiction
    have hne : arm ≠ .wakingUp := by
      cases hstarts with
      | _ => nofun
    constructor
    . constructor
      . show wakeUp.capacity = wakeUpSize
        rw [hcapacity]
        exact h.capacity_eq
      . intro d
        show .handler d ∈ wakeUp.senders ↔ p.Waking d
        rw [hsenders]
        exact h.handlers d
      . show .mainLoop ∈ wakeUp.senders → arm = .wakingUp
        rw [hsenders]
        exact fun hmem => absurd hmem hnot
    . have hload := Channel.load_recv hrecv
      rw [wakeUpLoad_of_ne (by rw [harm]; nofun), wakeUpLoad_of_ne hne]
      exact hload
  | ticked harm =>
    exact hnone (h.quiet rfl (fun _ => .rfl) (wakingUp_iff_of_ne harm nofun nofun)) rfl rfl
  | advanced _ _ hadvanced => exact hnone (h.advanced hcoherent hadvanced) rfl rfl
  | lockPending _ lock hlocks hlock =>
    refine hnone (h.quiet rfl (fun _ => .rfl) .rfl) ?_ ?_
    . unfold callsLoop
      split
      . contradiction
      . apply if_neg
        intro ⟨hacquires, _⟩
        rw [hlock] at hacquires
        contradiction
      . rfl
    . unfold StartEvent.isTake
      split
      . contradiction
      . rfl
  | computed _ _ _ _ _ harm =>
    exact hnone (h.quiet rfl (fun _ => .rfl) (wakingUp_iff_of_ne harm nofun nofun)) rfl rfl
  | unchoked _ _ _ harm =>
    exact hnone (h.quiet rfl (fun _ => .rfl) (wakingUp_iff_of_ne harm nofun nofun)) rfl rfl
  | noneExpired now lock tracker harm hlock hexpire =>
    refine hnone (h.quiet rfl (fun _ => .rfl) (wakingUp_iff_of_ne harm nofun nofun)) ?_ rfl
    apply if_neg
    intro ⟨_, hne⟩
    rw [hexpire] at hne
    exact hne rfl
  | someExpired now lock req requests tracker harm hlock hexpire =>
    have hnot : .mainLoop ∉ p.wakeUp.senders := by
      intro hmem
      have heq := h.mainLoop hmem
      rw [harm] at heq
      contradiction
    refine ⟨h.of_eq rfl (fun _ => .rfl) fun _ => rfl, ?_⟩
    have hexpires : p.Expires now := by
      refine ⟨?_, ?_⟩
      . rw [hlock]
      . rw [hexpire]
        nofun
    have hcalls : p.callsLoop (.expire now) = some .mainLoop := if_pos hexpires
    rw [hcalls, wakeUpLoad_of_ne (by rw [harm]; nofun)]
    unfold wakeUpLoad
    rw [if_pos ⟨rfl, hnot⟩]
    rfl

theorem wakingUp_of_advanced {signals : List Signal} (hcoherent : p.Coherent)
    (ha : p.Advanced torrentIo torrent signals p') (harm' : p'.arm = .wakingUp)
    : p.arm = .wakingUp ∧ (p'.wakeUp = p.wakeUp ∨ ¬p.wakeUp.HasSlot) := by
  unfold Coherent at hcoherent
  cases ha with
  | lockPending => exact ⟨harm', .inl rfl⟩
  | greetPending c msg msgs p1 harm hdelivered =>
    obtain ⟨f, rfl, _⟩ := hdelivered.update_eq
    exact ⟨harm', .inl rfl⟩
  | passed peerId msg arm delivery _ p1 hpasses =>
    rw [show arm = .wakingUp from harm'] at hpasses
    generalize p.arm = arm' at hpasses
    cases hpasses
  | passPending peerId msg arm _ _ hpasses htold =>
    obtain ⟨_, f, rfl, _⟩ := htold.update_eq
    exact ⟨harm', .inl rfl⟩
  | dispatchPending req requests _ _ harm htold =>
    obtain ⟨_, f, rfl, _⟩ := htold.update_eq
    exact ⟨harm', .inl rfl⟩
  | choked peerId choked combinedPeers _ _ harm =>
    rw [harm] at hcoherent
    contradiction
  | wakePending wakeUp harm hsend =>
    exact ⟨harm, .inr (Channel.send_eq_false hsend).2.2.2.2.2.2⟩
  | _ => contradiction

/--
When something expires, there is a slot for the wake-up of the loop.
-/
def SlotAtExpiry (p : TorrentProcessor σ) (event : StartEvent) : Prop :=
  ∀ now, event = .expire now → p.Expires now → p.wakeUp.HasSlot

structure SlotKept (p : TorrentProcessor σ) : Prop where
  coherent : p.Coherent
  senders : p.WakeSenders
  hasSlot : p.arm = .wakingUp → p.wakeUp.HasSlot

theorem SlotKept.stepped {event : StartEvent} {signals : List Signal} (h : p.SlotKept)
    (hslot : p.SlotAtExpiry event)
    (hs : p.Stepped build torrentIo config torrent event signals p')
    : p'.SlotKept := by
  refine ⟨h.coherent.stepped hs, (h.senders.stepped h.coherent hs).1, ?_⟩
  intro harm'
  cases hs with
  | connected => exact h.hasSlot harm'
  | linked => exact h.hasSlot harm'
  | written => exact h.hasSlot harm'
  | writeFailed => exact h.hasSlot harm'
  | lockPending => exact h.hasSlot harm'
  | advanced _ _ hadvanced =>
    -- in the arm nothing but its own send touches the channel
    obtain ⟨harm, hwakeUp⟩ := wakingUp_of_advanced h.coherent hadvanced harm'
    rcases hwakeUp with hsame | hno
    . rw [hsame]
      exact h.hasSlot harm
    . exact absurd (h.hasSlot harm) hno
  | polled c _ _ harm hpolled =>
    rcases polled_arm harm hpolled with heq | ⟨heq, _⟩
    . rw [harm'] at heq
      contradiction
    . rw [harm'] at heq
      contradiction
  | took peerIds msg wakeUp arm harm hrecv hstarts =>
    rw [show arm = .wakingUp from harm'] at hstarts
    cases hstarts
  | someExpired now lock req requests tracker harm hlock hexpire =>
    refine hslot now rfl ⟨?_, ?_⟩
    . rw [hlock]
    . rw [hexpire]
      nofun
  | accepted => contradiction
  | ticked => contradiction
  | computed => contradiction
  | unchoked => contradiction
  | noneExpired => contradiction

end TorrentProcessor
