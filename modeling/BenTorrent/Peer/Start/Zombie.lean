import BenTorrent.Peer.Start.Choke
import BenTorrent.Peer.Start.Connection
import BenTorrent.Peer.Start.Reach

/-!
This module contains when a connection that has nothing more to read stays behind with its peer
registered.
-/

open Rust

def Job.Adds : Job → Prop
  | .message msg => TorrentState.AddsPeer msg
  | .reply _ => False

instance (msg : Messages) : Decidable (TorrentState.AddsPeer msg) := by
  unfold TorrentState.AddsPeer
  split
  . infer_instance
  . infer_instance
  . infer_instance
  . infer_instance

instance (job : Job) : Decidable job.Adds := by
  unfold Job.Adds
  split
  . infer_instance
  . infer_instance

theorem TorrentState.mem_peers_handleFlag {state : TorrentState} {peerId peerId' : PeerId}
    {flag : FlagMessages}
    : peerId' ∈ (state.handleFlag peerId flag).peers ↔ peerId' = peerId ∨ peerId' ∈ state.peers := by
  rw [← mem_peers_addPeerId]
  cases flag with
  | choke => rw [← setPeerChokedUs_peers state peerId true]; rfl
  | unchoke => rw [← setPeerChokedUs_peers state peerId false]; rfl
  | interested => rw [← setPeersInterestedInUs_peers state peerId true]; rfl
  | notInterested => rw [← setPeersInterestedInUs_peers state peerId false]; rfl

theorem TorrentState.mem_peers_handleJob {state : TorrentState} {peerId peerId' : PeerId} {job : Job}
    : peerId' ∈ (state.handleJob peerId job).2.peers
        ↔
      (peerId' = peerId ∧ job.Adds) ∨ peerId' ∈ state.peers := by
  have hsame : ¬job.Adds →
      (peerId' ∈ (state.handleJob peerId job).2.peers
        ↔ (peerId' = peerId ∧ job.Adds) ∨ peerId' ∈ state.peers) := by
    intro hadds
    have hpeers : (state.handleJob peerId job).2.peers = state.peers := by
      refine @handleJob_peers state _ peerId job (state.handleJob peerId job).1 rfl ?_
      rintro msg rfl
      exact hadds
    rw [hpeers]
    simp [hadds]
  cases job with
  | reply reply => exact hsame id
  | message msg =>
    cases msg with
    | flag flag =>
      simp only [handleJob, Job.Adds, AddsPeer, and_true]
      exact mem_peers_handleFlag
    | «have» pieceIndex =>
      simp only [handleJob, signalInterest_snd, Job.Adds, AddsPeer, and_true]
      exact mem_peers_addPiecesForPeer
    | bitField bitfield =>
      simp only [handleJob, signalInterest_snd, Job.Adds, AddsPeer, and_true]
      exact mem_peers_addPiecesForPeer
    | keepAlive => exact hsame id
    | request => exact hsame id
    | cancel => exact hsame id
    | piece => exact hsame id

def PeerConnection.Drained (conn : PeerConnection) : Prop :=
  conn.inbound.msgs = [] ∧ conn.outbound.msgs = []

instance (conn : PeerConnection) : Decidable conn.Drained :=
  inferInstanceAs (Decidable (_ ∧ _))

namespace TorrentProcessor

variable {σ : Type u} {p p' : TorrentProcessor σ} {c : Nat}
variable {build : Build} {torrentIo : TorrentIo σ} {config : Config} {torrent : V1Torrent}
variable {signals : List Signal}

/--
The loop has the sender of the connection and the state of its peer.
-/
def Registered (p : TorrentProcessor σ) (c : Nat) (peerId : PeerId) : Prop :=
  p.peerToTx.lookup peerId = some c ∧ peerId ∈ p.torrentState.peers

instance (peerId : PeerId) : Decidable (p.Registered c peerId) :=
  inferInstanceAs (Decidable (_ ∧ _))

/--
The connection has read its last message and waits for one to write, its handler waits for one to
handle, and the loop takes both for a peer.
-/
structure Zombie (p : TorrentProcessor σ) (c : Nat) (conn : PeerConnection) : Prop where
  link_eq : conn.link = .selecting true
  drained : conn.Drained
  registered : p.Registered c conn.peerId

def NoZombie (p : TorrentProcessor σ) : Prop :=
  p.ForallConn fun c conn => ¬p.Zombie c conn

/--
The next thing that the handler does is to put a message into the channel of its connection.
-/
def Fills (c : Nat) (conn : PeerConnection) : Next → Prop
  | .signal msg => (conn.outbound.send (.handler c) msg).1 = true
  | _ => False

instance (conn : PeerConnection) (next : Next) : Decidable (Fills c conn next) := by
  unfold Fills
  split
  . infer_instance
  . infer_instance

/--
The handler does not take the last message of a connection that has nothing more to read or to
write, and makes no state for the peer of such a connection, unless there is something to write.
-/
def PollLeavesNoZombie (p : TorrentProcessor σ) (c : Nat) (conn : PeerConnection) : Prop :=
  match conn.handler with
  | .receiving => conn.link = .selecting true → conn.inbound.msgs.length = 1 →
      conn.outbound.msgs = [] → ¬p.Registered c conn.peerId
  | .locking job => (p.lock.lock (.handler c)).1 = true → job.Adds →
      conn.peerId ∉ p.torrentState.peers →
      ∀ d ∈ p.peerToTx.lookup conn.peerId, ∀ conn' ∈ p.connections[d]?,
        conn'.link = .selecting true → conn'.Drained →
          d = c ∧ Fills c conn (p.torrentState.handleJob conn.peerId job).1
  | _ => True

instance (conn : PeerConnection) : Decidable (p.PollLeavesNoZombie c conn) := by
  unfold PollLeavesNoZombie
  split
  . infer_instance
  . infer_instance
  . infer_instance

def LeavesNoZombie (p : TorrentProcessor σ) : StartEvent → Prop
  | .link c .eof => ∀ conn ∈ p.connections[c]?, conn.Drained → ¬p.Registered c conn.peerId
  | .poll c => ∀ conn ∈ p.connections[c]?, p.PollLeavesNoZombie c conn
  | .advance => ∀ c ∈ p.arm.greeted, ∀ conn ∈ p.connections[c]?,
      conn.link = .selecting true → conn.Drained → conn.peerId ∉ p.torrentState.peers
  | _ => True

instance (event : StartEvent) : Decidable (p.LeavesNoZombie event) := by
  unfold LeavesNoZombie
  split
  . infer_instance
  . infer_instance
  . infer_instance
  . infer_instance

theorem Stepped.mem_peers {event : StartEvent} {peerId : PeerId} (h : p.Coherent)
    (hs : p.Stepped build torrentIo config torrent event signals p')
    (hmem : peerId ∈ p'.torrentState.peers)
    : peerId ∈ p.torrentState.peers ∨ ∃ c conn job, event = .poll c ∧ p.connections[c]? = some conn
        ∧ conn.peerId = peerId ∧ conn.handler = .locking job
        ∧ (p.lock.lock (.handler c)).1 = true ∧ job.Adds := by
  have hedited := hs.edited h
  generalize p'.torrentState = state' at hedited hmem
  cases hedited with
  | handled c conn job hevent hget hhandler hacquires =>
    rcases TorrentState.mem_peers_handleJob.mp hmem with ⟨rfl, hadds⟩ | hmem
    . exact .inr ⟨c, conn, job, hevent, hget, rfl, hhandler, hacquires, hadds⟩
    . exact .inl hmem
  | forgot c conn => exact .inl (TorrentState.mem_peers_removePeer.mp hmem).2
  | _ => exact .inl hmem

theorem Delivered.self {w : Party} {msg : Messages} {delivery : Delivery} {conn : PeerConnection}
    (h : p.Delivered w c msg delivery p') (hget : p.connections[c]? = some conn)
    (hopen : conn.link ≠ .ended)
    : ∃ outbound, p'.connections[c]? = some { conn with outbound }
        ∧ ((delivery = .delivered ∧ (conn.outbound.send w msg).1 = true
            ∧ outbound.msgs = conn.outbound.msgs ++ [msg])
          ∨ (delivery = .pending ∧ (conn.outbound.send w msg).1 = false
            ∧ outbound.msgs = conn.outbound.msgs)) := by
  have hupdate : ∀ outbound : Channel Party Messages,
      (p.update c fun conn => { conn with outbound }).connections[c]?
        = some { conn with outbound } := by
    intro outbound
    rw [getElem?_update]
    exact ⟨conn, hget, by rw [if_pos rfl]⟩
  cases h with
  | delivered conn1 outbound hget1 _ hsend =>
    rw [hget, Option.some.injEq] at hget1
    rw [← hget1] at hsend
    exact ⟨outbound, hupdate outbound, .inl ⟨rfl, by rw [hsend], (Channel.send_eq_true hsend).2.1⟩⟩
  | pending conn1 outbound hget1 _ hsend =>
    rw [hget, Option.some.injEq] at hget1
    rw [← hget1] at hsend
    exact ⟨outbound, hupdate outbound, .inr ⟨rfl, by rw [hsend], (Channel.send_eq_false hsend).2.1⟩⟩
  | closed hclosed => exact absurd (hclosed conn hget) hopen

theorem Proceeded.drained_iff {conn : PeerConnection} {next : Next}
    (h : p.Proceeded c next signals p') (hget : p.connections[c]? = some conn)
    (hopen : conn.link ≠ .ended)
    : ∃ conn', p'.connections[c]? = some conn' ∧ conn'.peerId = conn.peerId
        ∧ conn'.link = conn.link ∧ (conn'.Drained ↔ conn.Drained ∧ ¬Fills c conn next) := by
  have hset : ∀ {q : TorrentProcessor σ} {handler : Handler} {outbound : Channel Party Messages},
      q.connections[c]? = some { conn with outbound } →
      (outbound.msgs = [] ↔ conn.outbound.msgs = [] ∧ ¬Fills c conn next) →
      ∃ conn', (q.setHandler c handler).connections[c]? = some conn'
        ∧ conn'.peerId = conn.peerId ∧ conn'.link = conn.link
        ∧ (conn'.Drained ↔ conn.Drained ∧ ¬Fills c conn next) := by
    intro q handler outbound hget' houtbound
    refine ⟨_, getElem?_update.mpr ⟨_, hget', rfl⟩, ?_⟩
    rw [if_pos rfl]
    refine ⟨rfl, rfl, ?_⟩
    unfold PeerConnection.Drained
    dsimp only
    rw [houtbound, and_assoc]
  cases h with
  | receive => exact hset (q := p.unlock) hget (and_iff_left id).symm
  | wake msg => exact hset (q := p.unlock) hget (and_iff_left id).symm
  | signal msg _ _ hsignalled =>
    cases hsignalled with
    | closed hclosed => exact absurd (hclosed conn hget) hopen
    | delivered p1 hdelivered =>
      obtain ⟨outbound, hget1, ⟨_, hsend, hmsgs⟩ | ⟨hpending, _⟩⟩ := hdelivered.self hget hopen
      . refine hset (q := p1.unlock) hget1 ?_
        simp [hmsgs, Fills, hsend]
      . contradiction
    | pending p1 hdelivered =>
      obtain ⟨outbound, hget1, ⟨hdone, _⟩ | ⟨_, hsend, hmsgs⟩⟩ := hdelivered.self hget hopen
      . contradiction
      . refine hset hget1 ?_
        simp [hmsgs, Fills, hsend]

theorem Ran.eq_eof {conn conn' : PeerConnection} {event : LinkEvent} (h : Ran conn event conn')
    (hlink : conn'.link = .selecting true)
    : event = .eof ∧ conn' = { conn with link := .selecting true } := by
  have hsent : ∀ {msg}, ¬SentToProcessor conn msg conn' := by
    intro msg hs
    cases hs with
    | _ => simp at hlink
  cases h with
  | read msg _ _ hs => exact absurd hs hsent
  | resumed msg _ _ hs => exact absurd hs hsent
  | eof => exact ⟨rfl, rfl⟩
  | wrote => simp at hlink
  | writeFailed => contradiction
  | hungUp => contradiction

theorem drained_of_prefix {conn : PeerConnection} {outbound : Channel Party Messages}
    (hgrows : conn.outbound.msgs <+: outbound.msgs) (hinbound : conn.inbound.msgs = [])
    (houtbound : outbound.msgs = [])
    : conn.Drained := by
  rw [houtbound, List.prefix_nil] at hgrows
  exact ⟨hinbound, hgrows⟩

/--
A connection that waits with nothing to write becomes a zombie when its peer is registered, at the
end of the greeting or with the state of the peer.
-/
theorem NoZombie.of_waiting {event : StartEvent} {conn conn' : PeerConnection} (h : p.NoZombie)
    (hcoherent : p.Coherent) (hs : p.Stepped build torrentIo config torrent event signals p')
    (hleaves : p.LeavesNoZombie event) (hget : p.connections[c]? = some conn)
    (hlink : conn.link = .selecting true) (hdrained : conn.Drained)
    (hget' : p'.connections[c]? = some conn') (hid : conn'.peerId = conn.peerId)
    : ¬p'.Zombie c conn' := by
  intro ⟨_, hdrained', hlookup', hmem'⟩
  rw [hid] at hlookup' hmem'
  have hnot : ¬p.Registered c conn.peerId :=
    fun hregistered => h c conn hget ⟨hlink, hdrained, hregistered⟩
  rcases hs.mem_peers hcoherent hmem' with hmem | ⟨d, conn1, job, rfl, hget1, hid1, hhandler, hlock, hadds⟩
  . rcases hs.lookup hcoherent hlookup' with hlookup | ⟨harm, _⟩
    . exact hnot ⟨hlookup, hmem⟩
    . by_cases hadvance : event = .advance
      . subst hadvance
        exact hleaves c (by rw [harm]; rfl) conn hget hlink hdrained hmem
      . exact hnot ⟨hs.lookup_of_ne hadvance hlookup', hmem⟩
  . have hlookup := hs.lookup_of_ne (by simp) hlookup'
    have hpoll : p.PollLeavesNoZombie d conn1 := hleaves conn1 hget1
    unfold PollLeavesNoZombie at hpoll
    simp only [hhandler] at hpoll
    rw [← hid1] at hnot hlookup
    obtain ⟨rfl, hfills⟩ :=
      hpoll hlock hadds (fun hmem => hnot ⟨hlookup, hmem⟩) c hlookup conn hget hlink hdrained
    rw [hget, Option.some.injEq] at hget1
    subst hget1
    cases hs with
    | polled _ _ _ harm hpolled =>
      obtain ⟨lock, _, hproceeded⟩ := hpolled.of_locking hget hhandler hlock
      obtain ⟨conn2, hget2, _, _, hiff⟩ := hproceeded.drained_iff hget (by simp [hlink])
      rw [hget', Option.some.injEq] at hget2
      subst hget2
      exact (hiff.mp hdrained').2 hfills
    | lockPending _ _ hlocks => exact absurd hlocks id

theorem NoZombie.stepped {event : StartEvent} (h : p.NoZombie) (hcoherent : p.Coherent)
    (hs : p.Stepped build torrentIo config torrent event signals p')
    (hleaves : p.LeavesNoZombie event)
    : p'.NoZombie := by
  intro c conn' hget' hzombie
  have ⟨hlink', hdrained', hlookup', hmem'⟩ := hzombie
  rcases hs.conn hcoherent hget' with ⟨conn, hget, hbecame⟩ | ⟨_, _, _, rfl⟩
  . cases hbecame with
    | kept outbound hgrows =>
      have hdrained := drained_of_prefix hgrows hdrained'.1 hdrained'.2
      exact h.of_waiting hcoherent hs hleaves hget hlink' hdrained hget' rfl hzombie
    | turned outbound handler hgrows =>
      have hdrained := drained_of_prefix hgrows hdrained'.1 hdrained'.2
      exact h.of_waiting hcoherent hs hleaves hget hlink' hdrained hget' rfl hzombie
    | received msg inbound hevent hhandler hrecv =>
      subst hevent
      have hlookup := hs.lookup_of_ne (by simp) hlookup'
      have hlength : conn.inbound.msgs.length = 1 := by
        rw [(Channel.recv_eq_some hrecv).2.1, hdrained'.1]
        rfl
      have hpoll : p.PollLeavesNoZombie c conn := hleaves conn hget
      unfold PollLeavesNoZombie at hpoll
      simp only [hhandler] at hpoll
      apply hpoll hlink' hlength hdrained'.2 ⟨hlookup, ?_⟩
      rcases hs.mem_peers hcoherent hmem' with hmem | ⟨d, conn1, job, hevent, hget1, _, hlocking, _⟩
      . exact hmem
      . rw [StartEvent.poll.injEq] at hevent
        rw [← hevent, hget, Option.some.injEq] at hget1
        rw [← hget1, hhandler] at hlocking
        contradiction
    | linked linkEvent _ hevent hran =>
      subst hevent
      obtain ⟨rfl, rfl⟩ := hran.eq_eof hlink'
      have hmem : conn.peerId ∈ p.torrentState.peers := by
        rcases hs.mem_peers hcoherent hmem' with hmem | ⟨_, _, _, hevent, _⟩
        . exact hmem
        . contradiction
      exact hleaves conn hget hdrained' ⟨hs.lookup_of_ne (by simp) hlookup', hmem⟩
  . simp at hlink'

theorem Proceeded.zombie {conn conn' : PeerConnection} {job : Job} {lock : Mutex Party} {d : Nat}
    (hown : p.TxOwn)
    (h : Proceeded { p with lock, torrentState := (p.torrentState.handleJob conn.peerId job).2 } c
      (p.torrentState.handleJob conn.peerId job).1 signals p')
    (htx : p'.peerToTx = p.peerToTx) (hget : p.connections[c]? = some conn) (hadds : job.Adds)
    (hlookup : p.peerToTx.lookup conn.peerId = some d) (hget' : p.connections[d]? = some conn')
    (hlink : conn'.link = .selecting true) (hdrained : conn'.Drained)
    (hfills : d = c → ¬Fills c conn (p.torrentState.handleJob conn.peerId job).1)
    : ¬p'.NoZombie := by
  have hid : conn'.peerId = conn.peerId := by
    obtain ⟨conn1, hget1, hid⟩ := hown conn.peerId d hlookup
    rw [hget', Option.some.injEq] at hget1
    rw [hget1, hid]
  have hregistered : p'.Registered d conn.peerId := by
    refine ⟨by rw [htx]; exact hlookup, ?_⟩
    rw [h.torrentState_eq]
    exact TorrentState.mem_peers_handleJob.mpr (.inl ⟨rfl, hadds⟩)
  intro hno
  by_cases heq : d = c
  . subst heq
    rw [hget, Option.some.injEq] at hget'
    subst hget'
    obtain ⟨conn2, hget2, hid2, hlink2, hiff⟩ := h.drained_iff hget (by simp [hlink])
    apply hno d conn2 hget2
    refine ⟨by rw [hlink2, hlink], hiff.mpr ⟨hdrained, hfills rfl⟩, ?_⟩
    rwa [hid2]
  . obtain ⟨f, hconnections, _⟩ := h.proceeds
    have hget2 : p'.connections[d]? = some conn' := by
      rw [hconnections, List.getElem?_modify_ne _ _ (Ne.symm heq)]
      exact hget'
    apply hno d conn' hget2
    refine ⟨hlink, hdrained, ?_⟩
    rwa [hid]

theorem not_noZombie_poll {conn : PeerConnection} (hown : p.TxOwn)
    (hstep : (startTask build torrentIo config torrent).step p (.poll c) = some (signals, p'))
    (hget : p.connections[c]? = some conn) (hpoll : ¬p.PollLeavesNoZombie c conn)
    : ¬p'.NoZombie := by
  unfold PollLeavesNoZombie at hpoll
  split at hpoll
  . next hhandler =>
    push Not at hpoll
    obtain ⟨hlink, hlength, houtbound, hregistered⟩ := hpoll
    obtain ⟨msg, hmsgs⟩ := List.length_eq_one_iff.mp hlength
    simp only [startTask] at hstep
    split at hstep
    . unfold poll at hstep
      rw [hget] at hstep
      simp only [hhandler] at hstep
      split at hstep
      . next msg' inbound hrecv =>
        simp only [Option.some.injEq, Prod.mk.injEq] at hstep
        obtain ⟨_, rfl⟩ := hstep
        have hempty : inbound.msgs = [] := by
          have heq := (Channel.recv_eq_some hrecv).2.1
          rw [hmsgs, List.cons.injEq] at heq
          exact heq.2.symm
        intro hno
        apply hno c _ (getElem?_update.mpr ⟨conn, hget, rfl⟩)
        rw [if_pos rfl]
        exact ⟨hlink, ⟨hempty, houtbound⟩, hregistered⟩
      . next hnone =>
        rw [Channel.recv_eq_none_iff, hmsgs] at hnone
        contradiction
    . contradiction
  . next job hhandler =>
    push Not at hpoll
    obtain ⟨hlock, hadds, _, d, hlookup, conn', hget', hlink, hdrained, hfills⟩ := hpoll
    cases stepped_of_step hstep with
    | lockPending _ _ hlocks => exact absurd hlocks id
    | polled _ _ _ harm hpolled =>
      obtain ⟨lock, _, hproceeded⟩ := hpolled.of_locking hget hhandler hlock
      exact hproceeded.zombie hown hpolled.touches.2 hget hadds hlookup hget' hlink hdrained hfills
  . exact absurd trivial hpoll

theorem not_noZombie {event : StartEvent} (hown : p.TxOwn)
    (hstep : (startTask build torrentIo config torrent).step p event = some (signals, p'))
    (hleaves : ¬p.LeavesNoZombie event)
    : ¬p'.NoZombie := by
  unfold LeavesNoZombie at hleaves
  split at hleaves
  . next c =>
    push Not at hleaves
    obtain ⟨conn, hget, hdrained, hregistered⟩ := hleaves
    intro hno
    cases stepped_of_step hstep with
    | lockPending _ _ hlocks => exact absurd hlocks id
    | linked _ _ conn1 conn' hget1 hran =>
      replace hget : p.connections[c]? = some conn := hget
      rw [hget, Option.some.injEq] at hget1
      subst hget1
      cases hran with
      | eof =>
        apply hno c _ (getElem?_update.mpr ⟨conn, hget, rfl⟩)
        rw [if_pos rfl]
        exact ⟨rfl, hdrained, hregistered⟩
  . next c =>
    push Not at hleaves
    obtain ⟨conn, hget, hpoll⟩ := hleaves
    exact not_noZombie_poll hown hstep hget hpoll
  . push Not at hleaves
    obtain ⟨c, hgreeted, conn, hget, hlink, hdrained, hmem⟩ := hleaves
    have harm := Arm.eq_of_greeted hgreeted
    replace hget : p.connections[c]? = some conn := hget
    simp only [startTask, advance, harm, greet, hget, Option.some.injEq, Prod.mk.injEq] at hstep
    obtain ⟨_, rfl⟩ := hstep
    intro hno
    apply hno c _ (getElem?_update.mpr ⟨conn, hget, rfl⟩)
    rw [if_pos rfl]
    exact ⟨hlink, hdrained, Finmap.lookup_insert _, hmem⟩
  . exact absurd trivial hleaves

theorem Zombie.stuck {conn : PeerConnection} (h : p.Zombie c conn)
    (hget : p.connections[c]? = some conn) (hhandler : conn.handler = .receiving)
    : (∀ event, p.runConnectionAt c event = none) ∧ p.poll c = none := by
  have hinbound := Channel.recv_eq_none_iff.mpr h.drained.1
  have houtbound := Channel.recv_eq_none_iff.mpr h.drained.2
  constructor
  . intro event
    unfold runConnectionAt
    rw [hget]
    cases event with
    | _ => simp [runConnection, h.link_eq, houtbound, hhandler, Handler.IsGone]
  . unfold poll
    rw [hget]
    simp [hhandler, hinbound, h.link_eq]

/--
What decides whether connections stay behind is known before each step: then, and only then, none
does.
-/
theorem noZombie_iff_of_run (build : Build) (torrentIo : TorrentIo σ) (config : Config)
    (torrent : V1Torrent) (io : σ) (p : TorrentProcessor σ) (tr : StartTrace)
    (hrun : (startTask build torrentIo config torrent).Run (new config torrent io) tr p)
    : (startTask build torrentIo config torrent).RunWhile LeavesNoZombie (new config torrent io) tr p
        ↔
      ∀ tr1 tr2 p1, tr = tr1 ++ tr2 →
        (startTask build torrentIo config torrent).Run (new config torrent io) tr1 p1 →
        p1.NoZombie := by
  apply Machine.RunWhile.iff_of_invariant (P := fun _ p => p.NoZombie)
    (Q := fun _ p => p.Coherent ∧ p.TxOwn ∧ p.NoZombie) hrun
  . intro _ p event signals p' ⟨hcoherent, hown, hno⟩ hstep hleaves
    have hs := stepped_of_step hstep
    exact ⟨hcoherent.stepped hs, hown.stepped hcoherent hs, hno.stepped hcoherent hs hleaves⟩
  . intro _ p event signals p' ⟨_, hown, _⟩ hstep hleaves
    exact not_noZombie hown hstep hleaves
  . intro _ p ⟨_, _, hno⟩
    exact hno
  . refine ⟨trivial, ?_, ?_⟩
    . intro peerId c hlookup
      contradiction
    . intro c conn hget
      contradiction

/--
The peer `[5]` is registered, and its connection reads no more.
-/
def leavingEvents : List StartEvent :=
  greetingEvents 0 [5] ++ handlingEvents 0 (.flag .interested)
    ++ [.recvWakeUp [], .compute [(0, [])] (fun _ => 0), .advance, .advance, .advance]

theorem noZombie_greetingUnread
    : ∃ tr p, (onePieceTask ⟨false, 8, 1, 1⟩).Run (onePieceStart ⟨false, 8, 1, 1⟩) tr p
        ∧ p.Registered 0 [5] ∧ (p.connections.map (·.link)) = [.selecting true]
        ∧ ∀ tr1 tr2 p1, tr = tr1 ++ tr2 →
          (onePieceTask ⟨false, 8, 1, 1⟩).Run (onePieceStart ⟨false, 8, 1, 1⟩) tr1 p1 →
          p1.NoZombie := by
  let guard : TorrentProcessor MemoryTorrentIo → StartEvent → Prop := LeavesNoZombie
  obtain ⟨tr, p, hrun, _, hstate⟩ :=
    ((onePieceTask ⟨false, 8, 1, 1⟩).restrict guard).exists_run_of_exec
      (onePieceStart ⟨false, 8, 1, 1⟩) (leavingEvents ++ [.link 0 .eof])
      (fun x => (decide (x.2.Registered 0 [5]), x.2.connections.map (·.link)))
      (b := (true, [.selecting true])) (by decide +kernel)
  rw [Prod.mk.injEq, decide_eq_true_iff] at hstate
  have hwhile := Machine.runWhile_of_restrict _ _ hrun
  have hrun' : (onePieceTask ⟨false, 8, 1, 1⟩).Run _ _ _ := hwhile.mono fun _ _ _ => trivial
  refine ⟨tr, p, hrun', hstate.1, hstate.2, ?_⟩
  exact (noZombie_iff_of_run ⟨true⟩ (MemoryTorrentIo.torrentIo ⟨true⟩) ⟨false, 8, 1, 1⟩
    (torrentFixture 2 2 [[1, 2]]) _ p tr hrun').mp hwhile

/--
The stream ends when the greeting is written: neither the connection nor its handler can do anything
more.
-/
theorem zombie_greetingWritten
    : ∃ tr p conn, (onePieceTask ⟨false, 8, 1, 1⟩).Run (onePieceStart ⟨false, 8, 1, 1⟩) tr p
        ∧ (tr.map Prod.fst).getLast? = some (.link 0 .eof) ∧ p.arm = .select ∧ p.wakeUp.msgs = []
        ∧ p.connections[0]? = some conn ∧ p.Zombie 0 conn
        ∧ (∀ event, p.runConnectionAt 0 event = none) ∧ p.poll 0 = none := by
  obtain ⟨tr, p, hrun, hevents, hstate⟩ := (onePieceTask ⟨false, 8, 1, 1⟩).exists_run_of_exec
    (onePieceStart ⟨false, 8, 1, 1⟩)
    (leavingEvents ++ [.link 0 .write, .link 0 .write, .link 0 .write, .link 0 .eof])
    (fun x => (decide (x.2.Registered 0 [5]), x.2.arm, x.2.wakeUp.msgs,
      x.2.connections.map fun conn : PeerConnection => decide (conn.peerId = [5]
        ∧ conn.link = .selecting true ∧ conn.handler = .receiving ∧ conn.Drained)))
    (b := (true, .select, [], [true])) (by decide +kernel)
  simp only [Prod.mk.injEq, decide_eq_true_iff] at hstate
  obtain ⟨hregistered, harm, hwakeUp, hconnections⟩ := hstate
  obtain ⟨conn, hget, hconn⟩ : ∃ conn : PeerConnection, p.connections[0]? = some conn
      ∧ decide (conn.peerId = [5] ∧ conn.link = .selecting true ∧ conn.handler = .receiving
        ∧ conn.Drained) = true := by
    rw [← Option.map_eq_some_iff, ← List.getElem?_map, hconnections]
    rfl
  obtain ⟨hid, hlink, hhandler, hdrained⟩ := of_decide_eq_true hconn
  have hzombie : p.Zombie 0 conn := ⟨hlink, hdrained, by rw [hid]; exact hregistered⟩
  refine ⟨tr, p, conn, hrun, by rw [hevents]; rfl, harm, hwakeUp, hget, hzombie, ?_⟩
  exact hzombie.stuck hget hhandler

end TorrentProcessor
