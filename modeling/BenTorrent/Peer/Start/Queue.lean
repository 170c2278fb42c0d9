import BenTorrent.Peer.Start.Connection
import BenTorrent.Peer.Start.Choke

/-!
This module contains that the requests of a peer reach the loop in the order in which its handler
accepted them.
-/

open Rust

theorem filterMap_modify_congr {g : α → Option β} {f f' : α → α} {l : List α} {c : Nat}
    (h : ∀ a, l[c]? = some a → g (f a) = g (f' a))
    : (l.modify c f).filterMap g = (l.modify c f').filterMap g := by
  induction l generalizing c with
  | nil => rw [List.modify_nil, List.modify_nil]
  | cons a l ih =>
    cases c with
    | zero =>
      have ha := h a rfl
      rw [List.modify_zero_cons, List.modify_zero_cons, List.filterMap_cons, List.filterMap_cons, ha]
    | succ c =>
      rw [List.modify_succ_cons, List.modify_succ_cons, List.filterMap_cons, List.filterMap_cons, ih h]

theorem filterMap_of_only {g : α → Option β} {l : List α} {c : Nat} {a : α} (hget : l[c]? = some a)
    (honly : ∀ d b, l[d]? = some b → d ≠ c → g b = none)
    : l.filterMap g = (g a).toList := by
  induction l generalizing c with
  | nil => contradiction
  | cons b l ih =>
    cases c with
    | zero =>
      have hnil : l.filterMap g = [] := by
        rw [List.filterMap_eq_nil_iff]
        intro x hx
        obtain ⟨d, hd⟩ := List.getElem?_of_mem hx
        exact honly (d + 1) x hd (by omega)
      obtain rfl : b = a := Option.some.inj hget
      rw [List.filterMap_cons, hnil]
      cases g b with
      | none => rfl
      | some _ => rfl
    | succ c =>
      have hnone : g b = none := honly 0 b rfl (by omega)
      rw [List.filterMap_cons, hnone]
      apply ih hget
      intro d x hd hne
      exact honly (d + 1) x hd (by omega)

def InternalStateMessage.requestOf (peerId : PeerId)
    : InternalStateMessage → Option PeerRequestedPiece
  | .peerRequestedPiece req => if req.peerId = peerId then some req else none
  | _ => none

def Handler.requestOf (peerId : PeerId) : Handler → Option PeerRequestedPiece
  | .waking msg => msg.requestOf peerId
  | _ => none

namespace Signal

def accepts (peerId : PeerId) : Signal → Option PeerRequestedPiece
  | .woke _ msg => msg.requestOf peerId
  | _ => none

def takes (peerId : PeerId) : Signal → Option PeerRequestedPiece
  | .took msg => msg.requestOf peerId
  | _ => none

end Signal

/--
The requests of the peer that its handler passes on to the loop.
-/
def acceptedFrom (peerId : PeerId) (tr : StartTrace) : List PeerRequestedPiece :=
  tr.flatMap fun x => x.2.filterMap (Signal.accepts peerId)

/--
The requests of the peer that the loop takes from its channel.
-/
def takenFrom (peerId : PeerId) (tr : StartTrace) : List PeerRequestedPiece :=
  tr.flatMap fun x => x.2.filterMap (Signal.takes peerId)

theorem InternalStateMessage.requestOf_eq_some {peerId : PeerId} {msg : InternalStateMessage}
    {req : PeerRequestedPiece} (h : msg.requestOf peerId = some req)
    : msg = .peerRequestedPiece req ∧ req.peerId = peerId := by
  unfold requestOf at h
  split at h
  . split at h
    . next heq =>
      rw [Option.some.injEq] at h
      rw [← h]
      exact ⟨rfl, heq⟩
    . contradiction
  . contradiction

theorem Handler.requestOf_eq_some {peerId : PeerId} {handler : Handler} {req : PeerRequestedPiece}
    (h : handler.requestOf peerId = some req)
    : handler = .waking (.peerRequestedPiece req) ∧ req.peerId = peerId := by
  unfold requestOf at h
  split at h
  . obtain ⟨rfl, hid⟩ := InternalStateMessage.requestOf_eq_some h
    exact ⟨rfl, hid⟩
  . contradiction

namespace TorrentProcessor

variable {σ : Type u} {p p' : TorrentProcessor σ} {c : Nat}

/--
The requests of the peer that are on their way from its handler to the loop.
-/
def waitingFrom (p : TorrentProcessor σ) (peerId : PeerId) : List PeerRequestedPiece :=
  p.wakeUp.msgs.filterMap (·.requestOf peerId)
    ++ p.connections.filterMap (·.handler.requestOf peerId)

def DistinctIds (p : TorrentProcessor σ) : StartEvent → Prop
  | .connect peerId => p.ForallConn fun _ conn => conn.peerId = peerId → conn.handler.IsGone
  | _ => True

instance (event : StartEvent) : Decidable (p.DistinctIds event) := by
  unfold DistinctIds
  split
  . infer_instance
  . infer_instance

structure OneHandler (p : TorrentProcessor σ) : Prop where
  distinct : ∀ (c d : Nat) (conn conn' : PeerConnection), p.connections[c]? = some conn → p.connections[d]? = some conn' →
    ¬conn.handler.IsGone → ¬conn'.handler.IsGone → conn.peerId = conn'.peerId → c = d
  own : p.ForallConn fun _ conn => ∀ req, conn.handler = .waking (.peerRequestedPiece req) →
    req.peerId = conn.peerId

variable {build : Build} {torrentIo : TorrentIo σ} {config : Config} {torrent : V1Torrent}

theorem Turns.not_isGone {state : TorrentState} {peerId : PeerId} {handler handler' : Handler}
    (h : Turns state peerId handler handler') (hthere : ¬handler'.IsGone)
    : ¬handler.IsGone := by
  cases h with
  | forgotten => simp [Handler.IsGone] at hthere
  | _ => simp [Handler.IsGone]

theorem Became.not_isGone {event : StartEvent} {conn conn' : PeerConnection}
    (h : p.Became event c conn conn') (hthere : ¬conn'.handler.IsGone)
    : ¬conn.handler.IsGone ∧ conn'.peerId = conn.peerId := by
  cases h with
  | kept => exact ⟨hthere, rfl⟩
  | turned outbound handler _ hturns => exact ⟨Turns.not_isGone hturns hthere, rfl⟩
  | received msg inbound hevent hhandler =>
    refine ⟨?_, rfl⟩
    simp [hhandler, Handler.IsGone]
  | linked linkEvent _ hevent hran =>
    rw [hran.frame.2.1] at hthere
    exact ⟨hthere, hran.frame.1⟩

theorem Follows.eq_wake {next : Next} {req : PeerRequestedPiece}
    (h : Follows next (.waking (.peerRequestedPiece req)))
    : next = .wake (.peerRequestedPiece req) := by
  cases h with
  | waking => rfl

theorem OneHandler.stepped {event : StartEvent} {signals : List Signal} (h : p.OneHandler)
    (hcoherent : p.Coherent) (hs : p.Stepped build torrentIo config torrent event signals p')
    (hdistinct : p.DistinctIds event)
    : p'.OneHandler := by
  constructor
  . intro c d conn1 conn2 hget1 hget2 hthere1 hthere2 hid
    rcases hs.conn hcoherent hget1 with ⟨conn, hget, hbecame⟩ | ⟨peerId, rfl, rfl, rfl⟩
    . obtain ⟨hthere, hid1⟩ := hbecame.not_isGone hthere1
      rcases hs.conn hcoherent hget2 with ⟨conn', hget', hbecame'⟩ | ⟨peerId, rfl, rfl, rfl⟩
      . obtain ⟨hthere', hid2⟩ := hbecame'.not_isGone hthere2
        apply h.distinct c d conn conn' hget hget' hthere hthere'
        rw [← hid1, ← hid2, hid]
      . exact absurd (hdistinct c conn hget (by rw [← hid1, hid])) hthere
    . rcases hs.conn hcoherent hget2 with ⟨conn', hget', hbecame'⟩ | ⟨_, _, rfl, _⟩
      . obtain ⟨hthere', hid2⟩ := hbecame'.not_isGone hthere2
        exact absurd (hdistinct d conn' hget' (by rw [← hid2, ← hid])) hthere'
      . rfl
  . intro c conn' hget' req hwaking
    rcases hs.conn hcoherent hget' with ⟨conn, hget, hbecame⟩ | ⟨_, _, _, rfl⟩
    . have hown := h.own c conn hget
      cases hbecame with
      | kept => exact hown req hwaking
      | turned outbound handler _ hturns =>
        dsimp only at hwaking
        rw [hwaking] at hturns
        generalize hhandler : conn.handler = handler' at hturns
        cases hturns with
        | handled job _ hfollows =>
          exact (TorrentState.handleJob_eq_request (Follows.eq_wake hfollows)).1
        | signalled msg _ hfollows =>
          have heq := Follows.eq_wake hfollows
          contradiction
        | woken msg _ hfollows =>
          have heq := Follows.eq_wake hfollows
          rw [Next.wake.injEq] at heq
          rw [heq] at hhandler
          exact hown req hhandler
      | received msg =>
        cases msg with
        | _ => contradiction
      | linked linkEvent _ _ hran =>
        obtain ⟨hid, hhandler, _⟩ := hran.frame
        rw [hhandler] at hwaking
        rw [hid]
        exact hown req hwaking
    . contradiction

section

variable {peerId : PeerId}

theorem waitingFrom_update {f : PeerConnection → PeerConnection}
    (hf : ∀ conn, p.connections[c]? = some conn →
      (f conn).handler.requestOf peerId = conn.handler.requestOf peerId)
    : (p.update c f).waitingFrom peerId = p.waitingFrom peerId := by
  have hid : (p.connections.modify c f).filterMap (·.handler.requestOf peerId)
      = (p.connections.modify c id).filterMap (·.handler.requestOf peerId) :=
    filterMap_modify_congr hf
  unfold waitingFrom update
  dsimp only
  rw [hid, List.modify_id]

theorem waitingFrom_setHandler {handler : Handler}
    (h : ∀ conn, p.connections[c]? = some conn →
      handler.requestOf peerId = conn.handler.requestOf peerId)
    : (p.setHandler c handler).waitingFrom peerId = p.waitingFrom peerId :=
  waitingFrom_update h

theorem Delivered.waitingFrom {w : Party} {msg : Messages} {delivery : Delivery}
    (h : p.Delivered w c msg delivery p')
    : p'.waitingFrom peerId = p.waitingFrom peerId := by
  obtain ⟨f, rfl, hf⟩ := h.update_eq
  apply waitingFrom_update
  intro conn _
  rw [hf conn]

theorem Told.waitingFrom {peerId' : PeerId} {msg : Messages} {delivery : Delivery}
    {signals : List Signal} (h : p.Told peerId' msg delivery signals p')
    : p'.waitingFrom peerId = p.waitingFrom peerId := by
  obtain ⟨_, f, rfl, hf⟩ := h.update_eq
  apply waitingFrom_update
  intro conn _
  rw [hf conn]

def OnlyFrom (p : TorrentProcessor σ) (c : Nat) (msg : InternalStateMessage) (peerId : PeerId) : Prop :=
  msg.requestOf peerId ≠ none → p.ForallConn fun d conn => d ≠ c →
    conn.handler.requestOf peerId = none

theorem OnlyFrom.setHandler {conn : PeerConnection} {msg : InternalStateMessage}
    (h : p.OnlyFrom c msg peerId) (hget : p.connections[c]? = some conn)
    (hmsg : msg.requestOf peerId ≠ none) (handler : Handler)
    : (p.setHandler c handler).connections.filterMap (·.handler.requestOf peerId)
        =
      (handler.requestOf peerId).toList := by
  obtain ⟨conn1, hget1, rfl⟩ := hasHandler_setHandler hget handler
  apply filterMap_of_only hget1
  intro d conn' hget' hne
  obtain ⟨conn2, hget2, rfl⟩ := getElem?_update.mp hget'
  rw [if_neg (Ne.symm hne)]
  exact h hmsg d conn2 hget2 hne

theorem OnlyFrom.waking {conn : PeerConnection} {msg : InternalStateMessage}
    (h : p.OnlyFrom c msg peerId) (hget : p.connections[c]? = some conn)
    : (p.setHandler c (.waking msg)).connections.filterMap (·.handler.requestOf peerId)
        =
      (p.setHandler c .receiving).connections.filterMap (·.handler.requestOf peerId)
        ++ (msg.requestOf peerId).toList := by
  cases hmsg : msg.requestOf peerId with
  | none =>
    rw [Option.toList_none, List.append_nil]
    apply filterMap_modify_congr
    intro conn1 _
    exact hmsg
  | some req =>
    have hne : msg.requestOf peerId ≠ none := by simp [hmsg]
    rw [h.setHandler hget hne, h.setHandler hget hne]
    exact congrArg Option.toList hmsg

theorem OnlyFrom.wake {conn : PeerConnection} {msg : InternalStateMessage}
    (h : p.OnlyFrom c msg peerId) (hget : p.connections[c]? = some conn)
    : (p.wake c msg).waitingFrom peerId
        =
      (p.setHandler c .receiving).waitingFrom peerId ++ (msg.requestOf peerId).toList := by
  obtain ⟨sent, wakeUp, hsend⟩ : ∃ sent wakeUp, p.wakeUp.send (.handler c) msg = (sent, wakeUp) :=
    ⟨_, _, rfl⟩
  unfold TorrentProcessor.wake waitingFrom
  rw [hsend]
  dsimp only
  cases sent with
  | true =>
    have hmsgs := (Channel.send_eq_true hsend).2.1
    rw [if_pos rfl, hmsgs, List.filterMap_append]
    show _ = p.wakeUp.msgs.filterMap _ ++ _ ++ _
    cases hmsg : msg.requestOf peerId with
    | none => simp [hmsg]
    | some req =>
      have hne : msg.requestOf peerId ≠ none := by simp [hmsg]
      rw [h.setHandler hget hne]
      simp [hmsg, Handler.requestOf]
  | false =>
    have hmsgs := (Channel.send_eq_false hsend).2.1
    rw [if_neg (by simp), hmsgs, h.waking hget, ← List.append_assoc]
    rfl

theorem OneHandler.onlyFrom {conn : PeerConnection} {msg : InternalStateMessage} (h : p.OneHandler)
    (hget : p.connections[c]? = some conn) (hthere : ¬conn.handler.IsGone)
    (hown : ∀ req, msg = .peerRequestedPiece req → req.peerId = conn.peerId)
    : p.OnlyFrom c msg peerId := by
  intro hmsg d conn' hget' hne
  cases hother : conn'.handler.requestOf peerId with
  | none => rfl
  | some req' =>
    obtain ⟨hwaking, hid'⟩ := Handler.requestOf_eq_some hother
    obtain ⟨req, hreq⟩ := Option.ne_none_iff_exists'.mp hmsg
    obtain ⟨heq, hid⟩ := InternalStateMessage.requestOf_eq_some hreq
    apply absurd _ hne
    apply h.distinct d c conn' conn hget' hget (by simp [hwaking, Handler.IsGone]) hthere
    rw [← h.own d conn' hget' req' hwaking, ← hown req heq, hid, hid']

def Flows (peerId : PeerId) (p : TorrentProcessor σ) (signals : List Signal)
    (p' : TorrentProcessor σ) : Prop :=
  signals.filterMap (Signal.takes peerId) ++ p'.waitingFrom peerId
    = p.waitingFrom peerId ++ signals.filterMap (Signal.accepts peerId)

theorem flows_of_eq {signals : List Signal} (h : p'.waitingFrom peerId = p.waitingFrom peerId)
    (htakes : signals.filterMap (Signal.takes peerId) = [])
    (haccepts : signals.filterMap (Signal.accepts peerId) = [])
    : Flows peerId p signals p' := by
  unfold Flows
  rw [h, htakes, haccepts, List.append_nil, List.nil_append]

theorem waitingFrom_wakeup {conn : PeerConnection} (hget : p.connections[c]? = some conn)
    (hnone : conn.handler.requestOf peerId = none)
    : (p.wake c .wakeup).waitingFrom peerId = p.waitingFrom peerId := by
  have honly : p.OnlyFrom c .wakeup peerId := fun hmsg => absurd rfl hmsg
  rw [honly.wake hget]
  refine (List.append_nil _).trans ?_
  apply waitingFrom_setHandler
  intro conn' hget'
  rw [hget, Option.some.injEq] at hget'
  rw [← hget', hnone]
  rfl

theorem Signalled.flows {conn : PeerConnection} {msg : Messages} {signals : List Signal}
    (h : p.Signalled c msg signals p') (hget : p.connections[c]? = some conn)
    (hnone : conn.handler.requestOf peerId = none)
    : Flows peerId p signals p' := by
  have hsame : ∀ {handler : Handler}, handler.requestOf peerId = none → ∀ conn',
      p.connections[c]? = some conn' →
      handler.requestOf peerId = conn'.handler.requestOf peerId := by
    intro handler hhandler conn' hget'
    rw [hget, Option.some.injEq] at hget'
    rw [← hget', hnone, hhandler]
  cases h with
  | delivered p1 hdelivered =>
    refine flows_of_eq ?_ rfl rfl
    rw [← hdelivered.waitingFrom]
    obtain ⟨f, rfl, hf⟩ := hdelivered.update_eq
    refine waitingFrom_wakeup (p := (p.update c f).unlock) (getElem?_update.mpr ⟨conn, hget, rfl⟩) ?_
    rw [if_pos rfl, hf conn]
    exact hnone
  | pending p1 hdelivered =>
    refine flows_of_eq ?_ rfl rfl
    rw [← hdelivered.waitingFrom]
    obtain ⟨f, rfl, hf⟩ := hdelivered.update_eq
    apply waitingFrom_setHandler
    intro conn' hget'
    obtain ⟨conn1, hget1, rfl⟩ := getElem?_update.mp hget'
    rw [if_pos rfl, hf conn1]
    exact hsame rfl conn1 hget1
  | closed =>
    refine flows_of_eq ?_ rfl rfl
    exact waitingFrom_setHandler (p := p) (hsame rfl)

theorem Polled.flows {signals : List Signal} (h : p.Polled c signals p') (hone : p.OneHandler)
    : Flows peerId p signals p' := by
  have hsame : ∀ {conn conn' : PeerConnection} {handler : Handler},
      p.connections[c]? = some conn → conn.handler.requestOf peerId = none →
      handler.requestOf peerId = none → p.connections[c]? = some conn' →
      handler.requestOf peerId = conn'.handler.requestOf peerId := by
    intro conn conn' handler hget hnone hhandler hget'
    rw [hget, Option.some.injEq] at hget'
    rw [← hget', hnone, hhandler]
  cases h with
  | received conn msg inbound hget hhandler hrecv =>
    refine flows_of_eq ?_ rfl rfl
    apply waitingFrom_update
    intro conn' hget'
    refine hsame hget ?_ ?_ hget'
    . rw [hhandler]
      rfl
    . cases msg with
      | _ => rfl
  | finished conn hget hhandler =>
    refine flows_of_eq ?_ rfl rfl
    refine waitingFrom_setHandler (p := p) ?_
    intro conn' hget'
    refine hsame hget ?_ rfl hget'
    rcases hhandler with hhandler | hhandler
    . rw [hhandler]
      rfl
    . rw [hhandler]
      rfl
  | lockPending => exact flows_of_eq rfl rfl rfl
  | handled conn job lock next torrentState _ _ hget hhandler hlock hjob hproceeded =>
    have hnone : conn.handler.requestOf peerId = none := by
      rw [hhandler]
      rfl
    cases hproceeded with
    | receive =>
      refine flows_of_eq ?_ rfl rfl
      exact waitingFrom_setHandler (p := p) fun _ hget' => hsame hget hnone rfl hget'
    | wake msg =>
      have hone' : OneHandler { p with lock, torrentState }.unlock := ⟨hone.distinct, hone.own⟩
      have honly : OnlyFrom { p with lock, torrentState }.unlock c msg peerId := by
        refine hone'.onlyFrom hget (by simp [hhandler, Handler.IsGone]) ?_
        rintro req rfl
        exact (TorrentState.handleJob_eq_request (congrArg Prod.fst hjob)).1
      have hwaiting := honly.wake hget
      have hset : ({ p with lock, torrentState }.unlock.setHandler c .receiving).waitingFrom peerId
          = p.waitingFrom peerId :=
        waitingFrom_setHandler (p := p) fun _ hget' => hsame hget hnone rfl hget'
      unfold Flows
      rw [hwaiting, hset]
      cases hmsg : msg.requestOf peerId with
      | none => simp [Signal.takes, Signal.accepts, hmsg]
      | some req => simp [Signal.takes, Signal.accepts, hmsg]
    | signal msg _ _ hsignalled =>
      exact Signalled.flows (p := { p with lock, torrentState }) hsignalled hget hnone
  | signalled conn msg _ _ hget hhandler hsignalled =>
    apply hsignalled.flows hget
    rw [hhandler]
    rfl
  | woken conn msg hget hhandler =>
    have honly : p.OnlyFrom c msg peerId := by
      refine hone.onlyFrom hget (by simp [hhandler, Handler.IsGone]) ?_
      rintro req rfl
      exact hone.own c conn hget req hhandler
    refine flows_of_eq ?_ rfl rfl
    rw [honly.wake hget]
    have hwaking : (p.setHandler c (.waking msg)).waitingFrom peerId = p.waitingFrom peerId := by
      apply waitingFrom_setHandler
      intro conn' hget'
      rw [hget, Option.some.injEq] at hget'
      rw [← hget', hhandler]
    rw [← hwaking]
    unfold waitingFrom
    rw [honly.waking hget, ← List.append_assoc]
    rfl

theorem Advanced.flows {signals : List Signal} (h : p.Coherent)
    (ha : p.Advanced torrentIo torrent signals p')
    : Flows peerId p signals p' := by
  unfold Coherent at h
  have hset : ∀ {c} {handler handler' : Handler}, p.HasHandler c handler →
      handler.requestOf peerId = none → handler'.requestOf peerId = none →
      (p.setHandler c handler').waitingFrom peerId = p.waitingFrom peerId := by
    intro c handler handler' hhas hnone hnone'
    apply waitingFrom_setHandler
    intro conn hget
    rw [hhas.handler_eq hget, hnone, hnone']
  have htold : ∀ {peerId' msg delivery signals} {p1 : TorrentProcessor σ},
      p.Told peerId' msg delivery signals p1 → Flows peerId p signals p1 := by
    intro peerId' msg delivery signals p1 ht
    apply flows_of_eq ht.waitingFrom
    . cases ht with
      | _ => rfl
    . cases ht with
      | _ => rfl
  cases ha with
  | greeted c msg msgs p1 harm hdelivered =>
    have hwaiting : p1.waitingFrom peerId = p.waitingFrom peerId := hdelivered.waitingFrom
    exact flows_of_eq hwaiting rfl rfl
  | greetPending c msg msgs p1 harm hdelivered => exact flows_of_eq hdelivered.waitingFrom rfl rfl
  | greetClosed c msg msgs harm hclosed =>
    rw [harm] at h
    exact flows_of_eq (hset h rfl rfl) rfl rfl
  | registered c conn harm hget =>
    rw [harm] at h
    exact flows_of_eq (hset h rfl rfl) rfl rfl
  | closing c lock conn harm hlock hget =>
    rw [harm] at h
    exact flows_of_eq (hset h rfl rfl) rfl rfl
  | passed peerId' msg arm _ _ p1 hpasses ht hdone =>
    have hflows := htold ht
    exact hflows
  | passPending peerId' msg arm _ _ hpasses ht => exact htold ht
  | queued req lock harm hlock =>
    obtain ⟨requests, heq⟩ := queueRequests_eq { p with lock } req
    rw [heq]
    exact flows_of_eq rfl rfl rfl
  | dispatched req requests _ p1 harm ht =>
    have hflows := htold ht
    exact hflows
  | dispatchPending req requests _ _ harm ht => exact htold ht
  | choked peerId' choked combinedPeers _ _ harm =>
    rw [harm] at h
    contradiction
  | wokeUp wakeUp harm hsend =>
    have hwaiting : waitingFrom { p with wakeUp } peerId = p.waitingFrom peerId := by
      unfold waitingFrom
      rw [(Channel.send_eq_true hsend).2.1, List.filterMap_append]
      simp [InternalStateMessage.requestOf]
    apply flows_of_eq hwaiting
    . split
      . rfl
      . rfl
    . split
      . rfl
      . rfl
  | wakePending wakeUp harm hsend =>
    have hwaiting : waitingFrom { p with wakeUp } peerId = p.waitingFrom peerId := by
      unfold waitingFrom
      rw [(Channel.send_eq_false hsend).2.1]
    apply flows_of_eq hwaiting
    . split
      . rfl
      . rfl
    . split
      . rfl
      . rfl
  | _ => exact flows_of_eq rfl rfl rfl

theorem Stepped.flows {event : StartEvent} {signals : List Signal} (h : p.Coherent)
    (hone : p.OneHandler) (hs : p.Stepped build torrentIo config torrent event signals p')
    : Flows peerId p signals p' := by
  cases hs with
  | connected peerId' =>
    refine flows_of_eq ?_ rfl rfl
    unfold waitingFrom
    rw [List.filterMap_append]
    simp [Handler.requestOf]
  | linked c event conn conn' hget hran =>
    refine flows_of_eq ?_ rfl rfl
    apply waitingFrom_update
    intro conn1 hget1
    rw [hget, Option.some.injEq] at hget1
    rw [hran.frame.2.1, hget1]
  | written c conn index begin block finished io hget hhandler hwrite =>
    have hwaiting : (p.setHandler c (.locking (.reply { index, begin, finished }))).waitingFrom peerId
        = p.waitingFrom peerId := by
      apply waitingFrom_setHandler
      intro conn1 hget1
      rw [hget, Option.some.injEq] at hget1
      rw [← hget1, hhandler]
      rfl
    apply flows_of_eq hwaiting
    . split
      . rfl
      . rfl
    . split
      . rfl
      . rfl
  | writeFailed c conn index begin block e io hget hhandler hwrite =>
    have hwaiting : (p.setHandler c .failed).waitingFrom peerId = p.waitingFrom peerId := by
      apply waitingFrom_setHandler
      intro conn1 hget1
      rw [hget, Option.some.injEq] at hget1
      rw [← hget1, hhandler]
      rfl
    exact flows_of_eq hwaiting rfl rfl
  | polled c _ _ harm hpolled => exact hpolled.flows hone
  | accepted c conn harm hget hhandler =>
    have hwaiting : (p.setHandler c .accepted).waitingFrom peerId = p.waitingFrom peerId := by
      apply waitingFrom_setHandler
      intro conn1 hget1
      rw [hget, Option.some.injEq] at hget1
      rw [← hget1, hhandler]
      rfl
    exact flows_of_eq hwaiting rfl rfl
  | took peerIds msg wakeUp arm harm hrecv hstarts =>
    have hmsgs := (Channel.recv_eq_some hrecv).2.1
    unfold Flows waitingFrom
    rw [hmsgs]
    show _ ++ (wakeUp.msgs.filterMap _ ++ p.connections.filterMap _) = _
    cases hmsg : msg.requestOf peerId with
    | none => simp [Signal.takes, Signal.accepts, hmsg]
    | some req => simp [Signal.takes, Signal.accepts, hmsg]
  | advanced _ _ hadvanced => exact hadvanced.flows h
  | ticked => exact flows_of_eq rfl rfl rfl
  | lockPending => exact flows_of_eq rfl rfl rfl
  | computed => exact flows_of_eq rfl rfl rfl
  | unchoked => exact flows_of_eq rfl rfl rfl
  | noneExpired => exact flows_of_eq rfl rfl rfl
  | someExpired => exact flows_of_eq rfl rfl rfl

end

end TorrentProcessor
