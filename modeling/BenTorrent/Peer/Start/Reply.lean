import BenTorrent.Peer.Io.Content
import BenTorrent.Peer.Start.Announce
import BenTorrent.Peer.Start.Sent
import BenTorrent.Peer.State.Rebuild

/-!
This module contains when the store takes the answers to what we asked for.
-/

open Rust

def Messages.IsTrue (content : Nat → Bytes) : Messages → Prop
  | .piece index begin block =>
    block = File.slice (content index.toNat) begin.toNat block.length
  | _ => True

instance (content : Nat → Bytes) (msg : Messages) : Decidable (msg.IsTrue content) := by
  unfold Messages.IsTrue
  split
  . infer_instance
  . infer_instance

def TorrentAllocation.Contains (allocation : TorrentAllocation) (index begin length : UInt32)
    : Prop :=
  index.toNat < allocation.totalPieces
    ∧ begin.toNat + length.toNat ≤ allocation.len index.toNat

structure PeerConnection.Brings (φ : Messages → Prop) (conn : PeerConnection) : Prop where
  inbound : ∀ msg ∈ conn.inbound.msgs, φ msg
  sending : ∀ msg, conn.link = .sending msg → φ msg
  writing : ∀ index begin block, conn.handler = .writing index begin block →
    φ (.piece index begin block)

theorem not_turns_writing {state : TorrentState} {peerId : PeerId} {handler : Handler}
    {index begin : UInt32} {block : Bytes}
    : ¬Turns state peerId handler (.writing index begin block) := by
  intro h
  cases h with
  | handled _ _ hfollows =>
    generalize (state.handleJob peerId _).1 = next at hfollows
    cases hfollows
  | signalled _ _ hfollows => cases hfollows
  | woken _ _ hfollows => cases hfollows

namespace PeerConnection

open TorrentProcessor (SentToProcessor Ran)

variable {φ : Messages → Prop} {conn conn' : PeerConnection}

theorem Brings.sent {msg : Messages} (h : conn.Brings φ) (hmsg : φ msg)
    (hsent : SentToProcessor conn msg conn')
    : conn'.Brings φ := by
  cases hsent with
  | gone =>
    constructor
    . exact h.inbound
    . intro msg' hlink
      contradiction
    . exact h.writing
  | sent inbound _ hsend =>
    constructor
    . intro msg' hmem
      rw [(Channel.send_eq_true hsend).2.1, List.mem_append, List.mem_singleton] at hmem
      rcases hmem with hmem | rfl
      . exact h.inbound msg' hmem
      . exact hmsg
    . intro msg' hlink
      contradiction
    . exact h.writing
  | pending inbound _ hsend =>
    constructor
    . intro msg' hmem
      rw [(Channel.send_eq_false hsend).2.1] at hmem
      exact h.inbound msg' hmem
    . intro msg' hlink
      rw [Link.sending.injEq] at hlink
      rwa [← hlink]
    . exact h.writing

theorem Brings.ran {event : LinkEvent} (h : conn.Brings φ)
    (hread : ∀ msg, event = .read msg → φ msg) (hran : Ran conn event conn')
    : conn'.Brings φ := by
  cases hran with
  | read msg _ _ hsent => exact h.sent (hread msg rfl) hsent
  | resumed msg _ hlink hsent => exact h.sent (h.sending msg hlink) hsent
  | eof => exact ⟨h.inbound, fun _ hlink => by contradiction, h.writing⟩
  | wrote => exact ⟨h.inbound, fun _ hlink => by contradiction, h.writing⟩
  | writeFailed => exact ⟨h.inbound, fun _ hlink => by contradiction, h.writing⟩
  | hungUp => exact ⟨h.inbound, fun _ hlink => by contradiction, h.writing⟩

end PeerConnection

namespace TorrentProcessor

section brings

variable {σ : Type u} {p p' : TorrentProcessor σ} {c : Nat}
variable {build : Build} {torrentIo : TorrentIo σ} {config : Config} {torrent : V1Torrent}

def Reads (φ : Messages → Prop) : TorrentProcessor σ → StartEvent → Prop
  | _, .link _ (.read msg) => φ msg
  | _, _ => True

instance (φ : Messages → Prop) [∀ msg, Decidable (φ msg)] (event : StartEvent)
    : Decidable (p.Reads φ event) := by
  unfold Reads
  split
  . infer_instance
  . infer_instance

theorem Stepped.brings {φ : Messages → Prop} {event : StartEvent} {signals : List Signal}
    (hcoherent : p.Coherent) (hs : p.Stepped build torrentIo config torrent event signals p')
    (hreads : p.Reads φ event) (h : p.ForallConn fun _ conn => conn.Brings φ)
    : p'.ForallConn fun _ conn => conn.Brings φ := by
  intro c conn' hget'
  rcases hs.conn hcoherent hget' with ⟨conn, hget, hbecame⟩ | ⟨_, _, _, rfl⟩
  . have hconn := h c conn hget
    cases hbecame with
    | kept => exact ⟨hconn.inbound, hconn.sending, hconn.writing⟩
    | turned outbound handler _ hturns =>
      refine ⟨hconn.inbound, hconn.sending, ?_⟩
      intro index begin block hhandler
      dsimp only at hhandler
      rw [hhandler] at hturns
      exact absurd hturns not_turns_writing
    | received msg inbound hevent hhandler hrecv =>
      have hmsgs := (Channel.recv_eq_some hrecv).2.1
      refine ⟨?_, hconn.sending, ?_⟩
      . intro msg' hmem
        apply hconn.inbound
        rw [hmsgs]
        exact List.mem_cons_of_mem msg hmem
      . intro index begin block hwriting
        have hmsg : φ msg := by
          apply hconn.inbound
          rw [hmsgs]
          exact List.mem_cons_self
        cases msg with
        | piece index' begin' block' =>
          simp only [Handler.ofMessage, Handler.writing.injEq] at hwriting
          rw [← hwriting.1, ← hwriting.2.1, ← hwriting.2.2]
          exact hmsg
        | _ => contradiction
    | linked linkEvent _ hevent hran =>
      refine PeerConnection.Brings.ran hconn ?_ hran
      rintro msg rfl
      rw [hevent] at hreads
      exact hreads
  . constructor
    . intro msg hmem
      contradiction
    . intro msg hlink
      contradiction
    . intro index begin block hhandler
      contradiction

theorem Stepped.io_eq {event : StartEvent} {signals : List Signal} (h : p.Coherent)
    (hs : p.Stepped build torrentIo config torrent event signals p')
    : p'.io = p.io ∨ (∃ index begin length, p'.io = (torrentIo.readPiece p.io index begin length).2)
        ∨ ∃ c index begin block, p.HasHandler c (.writing index begin block)
          ∧ p'.io = (torrentIo.writePiece p.io index begin block).2 := by
  cases hs with
  | written c conn index begin block finished io hget hhandler hwrite =>
    refine .inr (.inr ⟨c, index, begin, block, ⟨conn, hget, hhandler⟩, ?_⟩)
    rw [hwrite]
  | writeFailed c conn index begin block e io hget hhandler hwrite =>
    refine .inr (.inr ⟨c, index, begin, block, ⟨conn, hget, hhandler⟩, ?_⟩)
    rw [hwrite]
  | polled c _ _ harm hpolled => exact .inl hpolled.io_eq
  | advanced _ _ hadvanced =>
    rcases hadvanced.io_eq h with heq | hread
    . exact .inl heq
    . exact .inr (.inl hread)
  | _ => exact .inl rfl

end brings

section

variable {build : Build} {sha1 : Bytes → Bytes} {config : Config} {torrent : V1Torrent}
  {io : FileTorrentIo} {content : Nat → Bytes} {tr : StartTrace}
  {p p' : TorrentProcessor FileTorrentIo}

theorem contains_of_requestFor {pieceId : UInt32} {peerIds : List PeerId} {req : PeerRequestedPiece}
    (hconsistent : torrent.info.Consistent) (hlength : torrent.info.pieceLength.toInt < 2 ^ 32)
    (hnew : FileTorrentIo.new build torrent = .ok io) (hapart : io.Apart)
    (hfor : PieceBlockTracker.RequestFor build torrent pieceId peerIds req)
    (hlt : req.index.toNat < torrent.info.pieces.length)
    : io.allocation.Contains req.index req.begin req.length := by
  obtain ⟨hlaid, _, _⟩ := FileTorrentIo.new_laidOut hconsistent hnew
  have halloc := (FileTorrentIo.new_eq_ok hnew).1
  have hfull := FileTorrentIo.fullLast_of_apart hconsistent hnew hapart
  have hmax := hlaid.maxPieceSize_eq
  have hlast := hlaid.lastPieceSize_le
  have hfit : torrent.PiecesFit build := by
    intro allocation halloc'
    rw [halloc, Except.ok.injEq] at halloc'
    subst halloc'
    omega
  obtain ⟨size, begin, hsize, hbegin, hblock⟩ := hfor.block
  have hlen : size = io.allocation.len req.index.toNat := by
    cases hfull with
    | inl hone =>
      have hsize' := PieceBlockAllocation.pieceSize_of_laidOut halloc hlaid (by omega) pieceId
      rw [hsize, Except.ok.injEq, ← hfor.index_eq] at hsize'
      exact hsize'
    | inr hfull =>
      have hsame : io.allocation.lastPieceSize = io.allocation.maxPieceSize := by
        have hpos := hlaid.totalPieces_pos
        have htotal := hlaid.length_eq
        rw [hfull, ← hlaid.totalPieces_eq, ← hmax] at htotal
        obtain ⟨n, hn⟩ : ∃ n, io.allocation.totalPieces = n + 1 :=
          ⟨io.allocation.totalPieces - 1, by omega⟩
        rw [hn, Nat.add_sub_cancel] at htotal
        push_cast at htotal
        linarith
      unfold PieceBlockAllocation.pieceSize at hsize
      simp only [halloc, Outcome.bind_eq_ok, pure, Except.pure, Except.ok.injEq] at hsize
      obtain ⟨_, rfl, _, _, rfl⟩ := hsize
      unfold TorrentAllocation.len
      rw [hsame, ite_self, ite_self]
  have hblockEq := PieceBlockTracker.RequestFor.block_eq hfit hsize hfor
  rw [PieceBlockAllocation.mem_blockBegins] at hblockEq
  refine ⟨?_, ?_⟩
  . rwa [hlaid.totalPieces_eq]
  . omega

structure RepliesKept (sha1 : Bytes → Bytes) (torrent : V1Torrent) (content : Nat → Bytes)
    (allocation : TorrentAllocation) (tr : StartTrace) (p : TorrentProcessor FileTorrentIo)
    : Prop where
  coherent : p.Coherent
  worded : p.Worded
  carries : FileTorrentIo.Carries sha1 torrent.info content p.io
  allocation_eq : p.io.allocation = allocation
  brings : p.ForallConn fun _ conn => conn.Brings (Messages.IsTrue content)
  dispatching : ∀ requests, p.arm = .dispatching requests → ∀ req ∈ requests,
    allocation.Contains req.index req.begin req.length
  asked : ∀ x ∈ tr, ∀ c index begin length, .sent c (.request index begin length) ∈ x.2 →
    allocation.Contains index begin length

theorem HasHandler.isTrue {c : Nat} {index begin : UInt32} {block : Bytes}
    (hhas : p.HasHandler c (.writing index begin block))
    (h : p.ForallConn fun _ conn => conn.Brings (Messages.IsTrue content))
    : block = File.slice (content index.toNat) begin.toNat block.length := by
  obtain ⟨conn, hget, hhandler⟩ := hhas
  have hbrings : conn.Brings (Messages.IsTrue content) := h c conn hget
  exact hbrings.writing index begin block hhandler

theorem RepliesKept.stepped {event : StartEvent} {signals : List Signal}
    (hconsistent : torrent.info.Consistent) (hlength : torrent.info.pieceLength.toInt < 2 ^ 32)
    (hnew : FileTorrentIo.new build torrent = .ok io) (hapart : io.Apart)
    (hrun : (startTask build (FileTorrentIo.torrentIo build sha1) config torrent).Run
      (new config torrent io) tr p)
    (h : RepliesKept sha1 torrent content io.allocation tr p)
    (hs : p.Stepped build (FileTorrentIo.torrentIo build sha1) config torrent event signals p')
    (hreads : p.Reads (Messages.IsTrue content) event)
    : RepliesKept sha1 torrent content io.allocation (tr ++ [(event, signals)]) p' := by
  have hio : FileTorrentIo.Carries sha1 torrent.info content p'.io
      ∧ p'.io.allocation = io.allocation := by
    rcases hs.io_eq h.coherent with heq | ⟨_, _, _, heq⟩ | ⟨c, index, begin, block, hhas, heq⟩
    . rw [heq]
      exact ⟨h.carries, h.allocation_eq⟩
    . rw [heq]
      exact ⟨h.carries, h.allocation_eq⟩
    . rw [heq]
      refine ⟨h.carries.writePiece build (hhas.isTrue h.brings), ?_⟩
      rw [← h.allocation_eq]
      exact (FileTorrentIo.writePiece_kept build sha1 p.io index begin block).allocation_eq
  constructor
  . exact h.coherent.stepped hs
  . exact h.worded.stepped h.coherent hs
  . exact hio.1
  . exact hio.2
  . exact hs.brings h.coherent hreads h.brings
  . intro requests harm' req hreq
    have hmoves := hs.moves h.coherent
    rw [harm'] at hmoves
    generalize hdispatching : Arm.dispatching requests = arm at hmoves
    cases hmoves with
    | stays => exact h.dispatching requests hdispatching.symm req hreq
    | dispatches available now requests' tracker hiterates hassign =>
      rw [Arm.dispatching.injEq] at hdispatching
      subst hdispatching
      obtain ⟨calls, hcalls⟩ := exists_run_torrentState hrun
      have hfollows := TorrentState.followsHistory_of_run build torrent _ calls _ hcalls
      have hreflects := TorrentState.reflects_of_run hcalls
      obtain ⟨entry, hentry, hfor⟩ := PieceBlockTracker.generateAssignments_requestFor hassign req hreq
      have hlt := hreflects.incomplete_lt req.index
        (hfollows.requests available now requests tracker hiterates hassign req hreq).1
      exact contains_of_requestFor hconsistent hlength hnew hapart hfor hlt
    | dispatched req' requests' harm =>
      rw [Arm.dispatching.injEq] at hdispatching
      subst hdispatching
      exact h.dispatching _ harm req (List.mem_cons_of_mem req' hreq)
    | _ => contradiction
  . intro x hx c index begin length hsent
    rw [List.mem_append, List.mem_singleton] at hx
    rcases hx with hx | rfl
    . exact h.asked x hx c index begin length hsent
    . have hsays := hs.says h.coherent h.worded hsent
      generalize hmsg : Messages.request index begin length = msg at hsays
      cases hsays with
      | informs _ hinforms =>
        rw [← hmsg] at hinforms
        contradiction
      | request req requests harm hlookup =>
        rw [Messages.request.injEq] at hmsg
        rw [hmsg.1, hmsg.2.1, hmsg.2.2]
        exact h.dispatching _ harm req List.mem_cons_self
      | piece => contradiction

theorem repliesKept_new (hconsistent : torrent.info.Consistent)
    (hlength : torrent.info.pieceLength.toInt < 2 ^ 32)
    (hnew : FileTorrentIo.new build torrent = .ok io) (hapart : io.Apart)
    (hcontent : FileTorrentIo.IsContent sha1 torrent io.allocation content)
    : RepliesKept sha1 torrent content io.allocation [] (new config torrent io) := by
  constructor
  . trivial
  . exact worded_new io
  . exact FileTorrentIo.carries_new hconsistent hlength hnew hapart hcontent
  . rfl
  . intro c conn hget
    contradiction
  . intro requests harm
    contradiction
  . intro x hx
    contradiction

theorem repliesKept_of_run (hconsistent : torrent.info.Consistent)
    (hlength : torrent.info.pieceLength.toInt < 2 ^ 32)
    (hnew : FileTorrentIo.new build torrent = .ok io) (hapart : io.Apart)
    (hcontent : FileTorrentIo.IsContent sha1 torrent io.allocation content)
    (hrun : (startTask build (FileTorrentIo.torrentIo build sha1) config torrent).RunWhile
      (Reads (Messages.IsTrue content)) (new config torrent io) tr p)
    : RepliesKept sha1 torrent content io.allocation tr p := by
  suffices h : (startTask build (FileTorrentIo.torrentIo build sha1) config torrent).Run
      (new config torrent io) tr p ∧ RepliesKept sha1 torrent content io.allocation tr p from h.2
  apply hrun.invariant_trace (P := fun tr p =>
    (startTask build (FileTorrentIo.torrentIo build sha1) config torrent).Run
      (new config torrent io) tr p ∧ RepliesKept sha1 torrent content io.allocation tr p)
  . intro tr p event signals p' hreads hstep ⟨hrun, h⟩
    refine ⟨hrun.append (.cons trivial hstep (.nil p')), ?_⟩
    exact h.stepped hconsistent hlength hnew hapart hrun (stepped_of_step hstep) hreads
  . exact ⟨.nil _, repliesKept_new hconsistent hlength hnew hapart hcontent⟩

/--
A block that the handler has in hand answers a request that went out on its connection, whether or
not others came before it.
-/
def Answers (tr : StartTrace) (p : TorrentProcessor σ) (c : Nat) (index begin : UInt32)
    (block : Bytes) : Prop :=
  p.HasHandler c (.writing index begin block)
    ∧ ∃ x ∈ tr, .sent c (.request index begin (UInt32.ofNat block.length)) ∈ x.2

/--
In a run in which all that is read is true the handler takes an answer to what was asked for on its
connection if, and only if, the piece is not complete by then.
-/
theorem answersTaken_iff_of_run (build : Build) (sha1 : Bytes → Bytes) (config : Config)
    (torrent : V1Torrent) (io : FileTorrentIo) (content : Nat → Bytes)
    (p : TorrentProcessor FileTorrentIo) (tr : StartTrace)
    (hconsistent : torrent.info.Consistent) (hlength : torrent.info.pieceLength.toInt < 2 ^ 32)
    (hnew : FileTorrentIo.new build torrent = .ok io) (hapart : io.Apart)
    (hcontent : FileTorrentIo.IsContent sha1 torrent io.allocation content)
    (hrun : (startTask build (FileTorrentIo.torrentIo build sha1) config torrent).RunWhile
      (Reads (Messages.IsTrue content)) (new config torrent io) tr p)
    : ∀ tr1 c signals tr2 p1 p2 index begin block, tr = tr1 ++ (.io c, signals) :: tr2 →
        (startTask build (FileTorrentIo.torrentIo build sha1) config torrent).Run
          (new config torrent io) tr1 p1 →
        (startTask build (FileTorrentIo.torrentIo build sha1) config torrent).step p1 (.io c)
          = some (signals, p2) →
        Answers tr1 p1 c index begin block →
          (¬p2.HasHandler c .failed ↔ ¬p1.io.Complete index.toNat) := by
  rintro tr1 c signals tr2 p1 p2 index begin block htr hrun1 hstep ⟨hhas, x, hx, hsent⟩
  subst htr
  obtain ⟨p1', hrun1', _⟩ := Machine.RunWhile.append_iff.mp hrun
  obtain rfl := hrun1.final_unique hrun1'
  have h := repliesKept_of_run hconsistent hlength hnew hapart hcontent hrun1'
  have htrue := hhas.isTrue h.brings
  obtain ⟨hindex, hbounds⟩ := h.asked x hx c index begin _ hsent
  rw [← h.allocation_eq] at hindex hbounds
  have hfits : (UInt32.ofNat block.length).toNat = block.length := by
    have hle := h.carries.length_eq _ hindex
    have hlt := h.carries.fits (Nat.le_of_eq hle)
    have hblock : block.length ≤ (content index.toNat).length := by
      rw [htrue, File.slice, List.length_take, List.length_drop]
      omega
    apply UInt32.toNat_ofNat_of_lt'
    have hu32 : UInt32.size = 2 ^ 32 := rfl
    omega
  rw [hfits] at hbounds
  have herror := h.carries.writePiece_eq_error_iff build hindex hbounds htrue
  obtain ⟨conn, hget, hhandler⟩ := hhas
  rw [not_iff_not, ← herror]
  cases stepped_of_step hstep with
  | lockPending _ _ hlocks => exact absurd hlocks id
  | written _ conn' index' begin' block' finished io' hget' hhandler' hwrite =>
    rw [hget, Option.some.injEq] at hget'
    rw [← hget', hhandler, Handler.writing.injEq] at hhandler'
    obtain ⟨rfl, rfl, rfl⟩ := hhandler'
    replace hwrite : p1.io.writePiece build sha1 index begin block = (.ok finished, io') := hwrite
    have hhas : (p1.setHandler c (.locking (.reply { index, begin, finished }))).HasHandler c
        (.locking (.reply { index, begin, finished })) := hasHandler_setHandler hget _
    refine iff_of_false ?_ ?_
    . rintro ⟨conn2, hget2, hfailed⟩
      rw [hhas.handler_eq hget2] at hfailed
      contradiction
    . rintro ⟨e, herror⟩
      rw [hwrite] at herror
      contradiction
  | writeFailed _ conn' index' begin' block' e io' hget' hhandler' hwrite =>
    rw [hget, Option.some.injEq] at hget'
    rw [← hget', hhandler, Handler.writing.injEq] at hhandler'
    obtain ⟨rfl, rfl, rfl⟩ := hhandler'
    replace hwrite : p1.io.writePiece build sha1 index begin block = (.error e, io') := hwrite
    refine iff_of_true ?_ ?_
    . exact hasHandler_setHandler (p := p1) hget .failed
    . rw [hwrite]
      exact ⟨e, rfl⟩

end

def fileTask : Machine (TorrentProcessor FileTorrentIo) StartEvent (List Signal) :=
  startTask ⟨true⟩ (FileTorrentIo.torrentIo ⟨true⟩ Sha1.digest) ⟨true, 8, 1, 1⟩
    (torrentFixture 2 2 [[1, 2]])

def fileStart : TorrentProcessor FileTorrentIo :=
  .new ⟨true, 8, 1, 1⟩ (torrentFixture 2 2 [[1, 2]]) (.onePieceIo [0, 0] 0 (.new 2))

def twoBytes : Nat → Bytes :=
  fun _ => [1, 2]

theorem isContent_twoBytes
    : FileTorrentIo.IsContent Sha1.digest (torrentFixture 2 2 [[1, 2]]) ⟨1, 2, 2⟩ twoBytes := by
  constructor
  . decide
  . intro i hash h
    cases i with
    | zero =>
      replace h : some (Sha1.digest [1, 2]) = some hash := h
      exact Option.some.inj h
    | succ i => contradiction

def BringsBlock (c : Nat) : StartEvent → Prop
  | .link d (.read (.piece _ _ _)) => d = c
  | _ => False

instance (c : Nat) (event : StartEvent) : Decidable (BringsBlock c event) := by
  unfold BringsBlock
  split
  . infer_instance
  . infer_instance

def bringingEvents (c : Nat) : List StartEvent :=
  [.link c (.read (.piece 0 0 [1, 2])), .poll c]

theorem hasHandler_of_handlers {σ : Type u} {p : TorrentProcessor σ} {c : Nat} {handlers : List Handler}
    {handler : Handler} (h : p.connections.map (·.handler) = handlers)
    (hget : handlers[c]? = some handler)
    : p.HasHandler c handler := by
  rw [← h, List.getElem?_map, Option.map_eq_some_iff] at hget
  exact hget

theorem answersTaken_requestedOnce
    : ∃ tr1 p1 signals p2, fileTask.Run fileStart tr1 p1
        ∧ fileTask.step p1 (.io 0) = some (signals, p2)
        ∧ Answers tr1 p1 0 0 0 [1, 2] ∧ (¬p2.HasHandler 0 .failed ↔ ¬p1.io.Complete 0) := by
  let guard : TorrentProcessor FileTorrentIo → StartEvent → Prop := Reads (Messages.IsTrue twoBytes)
  obtain ⟨tr, p1, hrun, _, hstate⟩ := (fileTask.restrict guard).exists_run_of_exec
    fileStart (requestingEvents ++ bringingEvents 0)
    (fun x => (decide (∃ y ∈ x.1, .sent 0 (.request 0 0 2) ∈ y.2), x.2.connections.map (·.handler),
      (fileTask.step x.2 (.io 0)).isSome))
    (b := (true, [.writing 0 0 [1, 2]], true)) (by decide +kernel)
  simp only [Prod.mk.injEq, decide_eq_true_iff, Option.isSome_iff_exists] at hstate
  obtain ⟨hsent, hhandlers, ⟨signals, p2⟩, hstep⟩ := hstate
  have hwhile := Machine.runWhile_of_restrict _ _ hrun
  have hrun' : fileTask.Run fileStart tr p1 := hwhile.mono fun _ _ _ => trivial
  have hanswers : Answers tr p1 0 0 0 [1, 2] := ⟨hasHandler_of_handlers hhandlers rfl, hsent⟩
  have hreads : p1.Reads (Messages.IsTrue twoBytes) (.io 0) := trivial
  refine ⟨tr, p1, signals, p2, hrun', hstep, hanswers, ?_⟩
  exact answersTaken_iff_of_run ⟨true⟩ Sha1.digest ⟨true, 8, 1, 1⟩ (torrentFixture 2 2 [[1, 2]]) _
    twoBytes p2 _ (by decide +kernel) (by decide +kernel) FileTorrentIo.new_onePieceIo
    (by decide +kernel) isContent_twoBytes (hwhile.append (.cons hreads hstep (.nil p2)))
    tr 0 signals [] p1 p2 0 0 [1, 2] rfl hrun' hstep hanswers

/--
The block is asked for from `[5]`, which is late, and then from `[6]`, which brings it first.
-/
def lateEvents : List StartEvent :=
  requestingEvents ++ greetingEvents 1 [6] ++ handlingEvents 1 (.flag .unchoke)
    ++ handlingEvents 1 (.have 0) ++ expiringEvents ++ [.advance]
    ++ [.recvWakeUp [], .compute [(0, [[6], [5]])] (fun _ => 0), .advance, .advance, .advance,
      .advance]
    ++ bringingEvents 1 ++ [.io 1, .poll 1] ++ bringingEvents 0

/--
The first answer to the only request that was sent on the connection ends it.
-/
theorem not_answersTaken_late
    : (torrentFixture 2 2 [[1, 2]]).info.Consistent
        ∧ FileTorrentIo.new ⟨true⟩ (torrentFixture 2 2 [[1, 2]])
          = .ok (.onePieceIo [0, 0] 0 (.new 2))
        ∧ FileTorrentIo.Apart (.onePieceIo [0, 0] 0 (.new 2))
        ∧ FileTorrentIo.IsContent Sha1.digest (torrentFixture 2 2 [[1, 2]]) ⟨1, 2, 2⟩ twoBytes
        ∧ ∃ tr1 p1 signals p2, fileTask.RunWhile (Reads (Messages.IsTrue twoBytes)) fileStart tr1 p1
          ∧ fileTask.step p1 (.io 0) = some (signals, p2) ∧ Answers tr1 p1 0 0 0 [1, 2]
          ∧ (tr1.map Prod.fst).countP (fun event => decide (BringsBlock 0 event)) = 1
          ∧ p2.HasHandler 0 .failed := by
  refine ⟨by decide +kernel, FileTorrentIo.new_onePieceIo, by decide +kernel, isContent_twoBytes, ?_⟩
  let guard : TorrentProcessor FileTorrentIo → StartEvent → Prop := Reads (Messages.IsTrue twoBytes)
  obtain ⟨tr, p1, hrun, hevents, hstate⟩ := (fileTask.restrict guard).exists_run_of_exec
    fileStart lateEvents
    (fun x => (decide (∃ y ∈ x.1, .sent 0 (.request 0 0 2) ∈ y.2), x.2.connections.map (·.handler),
      (fileTask.step x.2 (.io 0)).map fun y => y.2.connections.map (·.handler)))
    (b := (true, [.writing 0 0 [1, 2], .receiving], some [.failed, .receiving])) (by decide +kernel)
  simp only [Prod.mk.injEq, decide_eq_true_iff, Option.map_eq_some_iff] at hstate
  obtain ⟨hsent, hhandlers, ⟨signals, p2⟩, hstep, hhandlers2⟩ := hstate
  refine ⟨tr, p1, signals, p2, Machine.runWhile_of_restrict _ _ hrun, hstep,
    ⟨hasHandler_of_handlers hhandlers rfl, hsent⟩, ?_, hasHandler_of_handlers hhandlers2 rfl⟩
  rw [hevents]
  decide

end TorrentProcessor
