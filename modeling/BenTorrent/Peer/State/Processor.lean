import BenTorrent.Peer.Bitfield
import BenTorrent.Peer.Protocol
import BenTorrent.Peer.State.Download
import BenTorrent.Peer.State.TorrentState

/-!
This module contains the processor, to which the handlers of all peers bring their messages, and the
download its steps drive.
-/

open Rust

inductive InternalStateMessage where
  | wakeup
  | pieceComplete (pieceId : UInt32)
  | peerRequestedPiece (req : PeerRequestedPiece)
  deriving DecidableEq

inductive Effect where
  | send (peerId : PeerId) (msg : Messages)
  | wake (msg : InternalStateMessage)
  | fail (peerId : PeerId) (e : Fault AnyError)
  deriving DecidableEq

structure Processor (σ : Type u) where
  torrentState : TorrentState
  io : σ
  written : List WriteReply
  deriving DecidableEq

namespace TorrentState

def handleFlag (state : TorrentState) (peerId : PeerId) : FlagMessages → TorrentState
  | .choke => state.setPeerChokedUs peerId true
  | .unchoke => state.setPeerChokedUs peerId false
  | .interested => state.setPeersInterestedInUs peerId true
  | .notInterested => state.setPeersInterestedInUs peerId false

def handlePieces (state : TorrentState) (peerId : PeerId) (pieces : List UInt32)
    : List Effect × TorrentState :=
  match state.addPiecesForPeer peerId pieces with
  | (some interest, state) =>
    ([.send peerId (FlagMessages.interestMsg interest), .wake .wakeup], state)
  | (none, state) => ([.wake .wakeup], state)

def handleRequest (state : TorrentState) (req : PeerRequestedPiece) : List Effect :=
  let choked :=
    match state.getInternalPeerState req.peerId with
    | some peer => peer.choked
    | none => true
  if choked then [] else [.wake (.peerRequestedPiece req)]

def dispatchRequests (delivered : Nat → Bool) (tracker : PieceBlockTracker)
    (requests : List PeerRequestedPiece) : PieceBlockTracker :=
  requests.zipIdx.foldl
    (fun tracker (req, pos) =>
      -- the channel of the peer was there and took the message
      if delivered pos then tracker else (tracker.removeRequest req).2)
    tracker

theorem dispatchRequests_invariant {P : PieceBlockTracker → Prop} {tracker : PieceBlockTracker}
    (hremove : ∀ tracker req, P tracker → P (tracker.removeRequest req).2) (h : P tracker)
    (delivered : Nat → Bool) (requests : List PeerRequestedPiece)
    : P (dispatchRequests delivered tracker requests) := by
  unfold dispatchRequests
  generalize requests.zipIdx = requests
  induction requests generalizing tracker with
  | nil => exact h
  | cons entry requests ih =>
    obtain ⟨req, pos⟩ := entry
    rw [List.foldl_cons]
    apply ih
    dsimp only
    split
    . exact h
    . exact hremove tracker req h

def dispatched (delivered : Nat → Bool) (requests : List PeerRequestedPiece) : List Effect :=
  (requests.zipIdx.filter fun (_, pos) => delivered pos).map fun (req, _) =>
    .send req.peerId (.request req.index req.begin req.length)

def Iterates (m : List (UInt32 × Finset PeerId))
    (availiablePieceToPeers : List (UInt32 × List PeerId)) : Prop :=
  (∀ entry ∈ availiablePieceToPeers, entry.2.Nodup)
    ∧ availiablePieceToPeers.map (fun (pieceId, peerIds) => (pieceId, peerIds.toFinset)) = m

instance : Decidable (Iterates m availiablePieceToPeers) :=
  inferInstanceAs (Decidable (_ ∧ _))

def computeRequestsForDownload (build : Build) (torrent : V1Torrent) (state : TorrentState)
    (availiablePieceToPeers : List (UInt32 × List PeerId)) (now : UInt32 → Nat)
    (delivered : Nat → Bool) : Outcome AnyError (List Effect × TorrentState) := do
  let (requests, tracker) ←
    state.pieceBlockTracking.generateAssignments build torrent now availiablePieceToPeers
  return (dispatched delivered requests,
    { state with pieceBlockTracking := dispatchRequests delivered tracker requests })

end TorrentState

inductive ProcessorEvent where
  | message (peerId : PeerId) (msg : Messages)
  | handle (pos : Nat)
  | dispatch (availiablePieceToPeers : List (UInt32 × List PeerId)) (now : UInt32 → Nat)
    (delivered : Nat → Bool)
  | tick (now : Nat)
  | close (peerId : PeerId)

namespace Processor

def new (maxOutstandingRequests : Nat) (torrent : V1Torrent) (io : σ) : Processor σ where
  torrentState := TorrentState.new torrent.info.pieces maxOutstandingRequests
  io := io
  written := []

def tracker (p : Processor σ) : PieceBlockTracker :=
  p.torrentState.pieceBlockTracking

def setTracker (p : Processor σ) (tracker : PieceBlockTracker) : Processor σ :=
  { p with torrentState := { p.torrentState with pieceBlockTracking := tracker } }

@[simp]
theorem tracker_setTracker (p : Processor σ) (tracker : PieceBlockTracker)
    : (p.setTracker tracker).tracker = tracker := by
  rfl

def handleMessage (torrentIo : TorrentIo σ) (p : Processor σ) (peerId : PeerId)
    : Messages → List Effect × Processor σ
  | .keepAlive => ([], p)
  | .flag flag =>
    ([.wake .wakeup], { p with torrentState := p.torrentState.handleFlag peerId flag })
  | .have pieceIndex =>
    let (effects, torrentState) := p.torrentState.handlePieces peerId [pieceIndex]
    (effects, { p with torrentState })
  | .bitField bitfield =>
    let (effects, torrentState) :=
      p.torrentState.handlePieces peerId (BitFieldReader.piecesPresent ⟨bitfield⟩)
    (effects, { p with torrentState })
  | .request index begin length =>
    (p.torrentState.handleRequest { peerId, index, begin, length }, p)
  | .cancel _ _ _ => ([], p)
  | .piece index begin block =>
    -- the state is locked only after the write, and the answer handled in a step of its own
    match torrentIo.writePiece p.io index begin block with
    | (.ok finished, io) =>
      ([], { p with io, written := p.written ++ [{ index, begin, finished }] })
    | (.error e, io) => ([.fail peerId e], { p with io })

def handleReply (p : Processor σ) (reply : WriteReply) : List Effect × Processor σ :=
  ([.wake (if reply.finished then .pieceComplete reply.index else .wakeup)],
    p.setTracker (p.tracker.handleWritten reply))

end Processor

def processorTask (build : Build) (torrentIo : TorrentIo σ) (torrent : V1Torrent)
    : Machine (Processor σ) ProcessorEvent (List Effect) where
  step p
    | .message peerId msg => some (p.handleMessage torrentIo peerId msg)
    | .handle pos =>
      match p.written[pos]? with
      | some reply =>
        let (effects, p) := p.handleReply reply
        some (effects, { p with written := p.written.eraseIdx pos })
      | none => none
    | .dispatch availiablePieceToPeers now delivered =>
      -- the order in which the sets are iterated is part of the event
      if TorrentState.Iterates p.torrentState.pieceIdToPeers availiablePieceToPeers then
        match p.torrentState.computeRequestsForDownload build torrent availiablePieceToPeers now
          delivered with
        | .ok (effects, torrentState) => some (effects, { p with torrentState })
        | .error _ => none
      else
        none
    | .tick now =>
      let (expired, tracker) := p.tracker.removeExpired now
      some (if expired.isEmpty then [] else [.wake .wakeup], p.setTracker tracker)
    | .close peerId =>
      some ([], { p with torrentState := p.torrentState.removePeer peerId })

namespace Processor

theorem handleFlag_pieceBlockTracking (state : TorrentState) (peerId : PeerId) (flag : FlagMessages)
    : (state.handleFlag peerId flag).pieceBlockTracking = state.pieceBlockTracking := by
  unfold TorrentState.handleFlag
  cases flag with
  | choke => apply TorrentState.setPeerChokedUs_pieceBlockTracking
  | unchoke => apply TorrentState.setPeerChokedUs_pieceBlockTracking
  | interested => apply TorrentState.setPeersInterestedInUs_pieceBlockTracking
  | notInterested => apply TorrentState.setPeersInterestedInUs_pieceBlockTracking

theorem handlePieces_pieceBlockTracking (state : TorrentState) (peerId : PeerId)
    (pieces : List UInt32)
    : (state.handlePieces peerId pieces).2.pieceBlockTracking = state.pieceBlockTracking := by
  rw [← TorrentState.addPiecesForPeer_pieceBlockTracking state peerId pieces]
  unfold TorrentState.handlePieces
  split
  . next h => rw [h]
  . next h => rw [h]

theorem handleMessage_tracker (torrentIo : TorrentIo σ) (p : Processor σ) (peerId : PeerId)
    (msg : Messages)
    : (p.handleMessage torrentIo peerId msg).2.tracker = p.tracker := by
  cases msg with
  | keepAlive => rfl
  | flag flag => apply handleFlag_pieceBlockTracking
  | «have» pieceIndex => apply handlePieces_pieceBlockTracking
  | bitField bitfield => apply handlePieces_pieceBlockTracking
  | request => rfl
  | cancel => rfl
  | piece index begin block =>
    dsimp only [handleMessage]
    split
    . rfl
    . rfl

def download (p : Processor σ) : Download σ :=
  ⟨p.tracker, p.io, p.written⟩

def BlockFits : ProcessorEvent → Prop
  | .message _ (.piece _ _ block) => block.length < 2 ^ 63
  | _ => True

variable {build : Build} {torrentIo : TorrentIo σ} {torrent : V1Torrent}

theorem download_run_message {p p' : Processor σ} {peerId : PeerId} {msg : Messages}
    {effects : List Effect} (hfits : BlockFits (.message peerId msg))
    (h : p.handleMessage torrentIo peerId msg = (effects, p'))
    : ∃ tr, (downloadTask build torrentIo torrent).Run p.download tr p'.download := by
  have htracker := handleMessage_tracker torrentIo p peerId msg
  rw [h] at htracker
  -- only a block reaches the writer
  have hquiet : p'.io = p.io → p'.written = p.written →
      ∃ tr, (downloadTask build torrentIo torrent).Run p.download tr p'.download := by
    intro hio hwritten
    have heq : p'.download = p.download := by
      unfold download
      rw [htracker, hio, hwritten]
    rw [heq]
    exact ⟨[], .nil _⟩
  cases msg with
  | piece index begin block =>
    have hstep : ∃ reply, (downloadTask build torrentIo torrent).step p.download
        (.piece index begin ⟨block, hfits⟩) = some (reply, p'.download) := by
      dsimp only [handleMessage] at h
      dsimp only [downloadTask]
      split at h
      . next heq =>
        rw [Prod.mk.injEq] at h
        rw [← h.2]
        dsimp only [download]
        rw [heq]
        exact ⟨_, rfl⟩
      . next heq =>
        rw [Prod.mk.injEq] at h
        rw [← h.2]
        dsimp only [download]
        rw [heq]
        exact ⟨_, rfl⟩
    obtain ⟨reply, hstep⟩ := hstep
    exact ⟨_, .cons trivial hstep (.nil _)⟩
  | _ =>
    dsimp only [handleMessage] at h
    rw [Prod.mk.injEq] at h
    apply hquiet
    . rw [← h.2]
    . rw [← h.2]

theorem download_run_dispatchRequests (build : Build) (torrentIo : TorrentIo σ) (torrent : V1Torrent)
    (p : Processor σ) (delivered : Nat → Bool) (requests : List PeerRequestedPiece)
    : ∃ tr, (downloadTask build torrentIo torrent).Run p.download tr
        { p.download with
          tracker := TorrentState.dispatchRequests delivered p.tracker requests } := by
  unfold TorrentState.dispatchRequests
  generalize requests.zipIdx = requests
  induction requests generalizing p with
  | nil => exact ⟨[], .nil _⟩
  | cons entry requests ih =>
    obtain ⟨req, pos⟩ := entry
    rw [List.foldl_cons]
    dsimp only
    split
    . exact ih p
    . obtain ⟨tr, hrun⟩ := ih (p.setTracker (p.tracker.removeRequest req).2)
      exact ⟨_, .cons (i := .undelivered req) trivial rfl hrun⟩

theorem entry_mem_getIncompletePieces {p : Processor σ} {available : List (UInt32 × List PeerId)}
    (h : TorrentState.Iterates p.torrentState.pieceIdToPeers available)
    : ∀ entry ∈ available, entry.1 ∈ p.tracker.getIncompletePieces := by
  intro entry hentry
  have hmem : (entry.1, entry.2.toFinset) ∈ p.torrentState.pieceIdToPeers := by
    rw [← h.2, List.mem_map]
    exact ⟨entry, hentry, rfl⟩
  exact TorrentState.mem_pieceIdToPeers hmem

theorem dispatched_of_step {p p' : Processor σ} {available : List (UInt32 × List PeerId)}
    {now : UInt32 → Nat} {delivered : Nat → Bool} {effects : List Effect}
    (hstep : (processorTask build torrentIo torrent).step p (.dispatch available now delivered)
      = some (effects, p'))
    : TorrentState.Iterates p.torrentState.pieceIdToPeers available
        ∧ ∃ requests tracker,
          (p.tracker.generateAssignments build torrent now available : Outcome AnyError _)
              = .ok (requests, tracker)
            ∧ effects = TorrentState.dispatched delivered requests
            ∧ p'.tracker = TorrentState.dispatchRequests delivered tracker requests
            ∧ p'.io = p.io
            ∧ p'.written = p.written := by
  simp only [processorTask] at hstep
  split at hstep
  . next hiterates =>
    split at hstep
    . next effects' state hcompute =>
      simp only [Option.some.injEq, Prod.mk.injEq] at hstep
      obtain ⟨rfl, rfl⟩ := hstep
      unfold TorrentState.computeRequestsForDownload at hcompute
      simp only [Outcome.bind_eq_ok, Prod.exists, pure, Except.pure, Except.ok.injEq,
        Prod.mk.injEq] at hcompute
      obtain ⟨requests, tracker, hassign, rfl, rfl⟩ := hcompute
      exact ⟨hiterates, requests, tracker, hassign, rfl, rfl, rfl, rfl⟩
    . contradiction
  . contradiction

theorem download_run_of_step {p p' : Processor σ} {event : ProcessorEvent} {effects : List Effect}
    (hfits : BlockFits event)
    (hstep : (processorTask build torrentIo torrent).step p event = some (effects, p'))
    : ∃ tr, (downloadTask build torrentIo torrent).Run p.download tr p'.download := by
  cases event with
  | message peerId msg =>
    simp only [processorTask, Option.some.injEq] at hstep
    apply download_run_message hfits hstep
  | handle pos =>
    simp only [processorTask] at hstep
    split at hstep
    . next reply hget =>
      simp only [Option.some.injEq, Prod.mk.injEq] at hstep
      rw [← hstep.2]
      refine ⟨_, .cons (i := .handle pos) (o := .handled reply) trivial ?_ (.nil _)⟩
      simp only [downloadTask, download, hget]
      rfl
    . contradiction
  | dispatch available now delivered =>
    obtain ⟨_, requests, tracker, hassign, _, htracker, hio, hwritten⟩ := dispatched_of_step hstep
    obtain ⟨tr, hrun⟩ := download_run_dispatchRequests build torrentIo torrent
      (p.setTracker tracker) delivered requests
    have heq : p'.download = { (p.setTracker tracker).download with
        tracker := TorrentState.dispatchRequests delivered tracker requests } := by
      unfold download
      rw [htracker, hio, hwritten]
      rfl
    rw [heq]
    refine ⟨_, .cons (i := .assign available now) (o := .assigned requests) trivial ?_ hrun⟩
    have hassign' : (p.download.tracker.generateAssignments build torrent now available
      : Outcome AnyError _) = .ok (requests, tracker) := hassign
    simp only [downloadTask, hassign']
    rfl
  | tick now =>
    simp only [processorTask, Option.some.injEq, Prod.mk.injEq] at hstep
    rw [← hstep.2]
    exact ⟨_, .cons (i := .expire now) trivial rfl (.nil _)⟩
  | close peerId =>
    simp only [processorTask, Option.some.injEq, Prod.mk.injEq] at hstep
    rw [← hstep.2]
    refine ⟨[], ?_⟩
    have heq : (Processor.download { p with torrentState := p.torrentState.removePeer peerId })
        = p.download := by
      unfold download tracker
      dsimp only
      rw [TorrentState.removePeer_pieceBlockTracking]
    rw [heq]
    exact .nil _

/--
The tracker and the writer of a processor go through a run of the download, so that what holds in
every run of the download holds in the processor.
-/
theorem download_run {p p' : Processor σ} {tr : List (ProcessorEvent × List Effect)}
    (hrun : (processorTask build torrentIo torrent).RunWhile (fun _ => BlockFits) p tr p')
    : ∃ tr', (downloadTask build torrentIo torrent).Run p.download tr' p'.download := by
  induction hrun with
  | nil => exact ⟨[], .nil _⟩
  | cons hfits hstep _ ih =>
    obtain ⟨tr1, hrun1⟩ := download_run_of_step hfits hstep
    obtain ⟨tr2, hrun2⟩ := ih
    exact ⟨tr1 ++ tr2, hrun1.append hrun2⟩

end Processor
