import BenTorrent.Peer.State.Processor

/-!
This module contains when the processor keeps the stages of the pieces apart.
-/

open Rust

namespace Processor

structure LifecyclePartitioned (n : Nat) (p : Processor σ) : Prop where
  notStarted_inProgress : Disjoint p.tracker.piecesNotStarted p.tracker.blocks.pieces
  notStarted_completed : Disjoint p.tracker.piecesNotStarted p.tracker.piecesCompleted
  inProgress_completed : Disjoint p.tracker.blocks.pieces p.tracker.piecesCompleted
  union_eq : (p.tracker.piecesNotStarted ∪ p.tracker.blocks.pieces
    ∪ p.tracker.piecesCompleted).image UInt32.toNat = Finset.range n

def FinishesStarted (p : Processor σ) : ProcessorEvent → Prop
  | .handle pos =>
    ∀ reply, p.written[pos]? = some reply → reply.finished = true →
      reply.index ∈ p.tracker.blocks.pieces ∪ p.tracker.piecesCompleted
  | _ => True

theorem lifecyclePartitioned_iff {n : Nat} (hn : n ≤ 2 ^ 32) (p : Processor σ)
    : p.LifecyclePartitioned n
        ↔
      p.tracker.Partitioned ((Finset.range n).image UInt32.ofNat) := by
  have hall : ((Finset.range n).image UInt32.ofNat).image UInt32.toNat = Finset.range n := by
    rw [Finset.image_image]
    conv => rhs; rw [← Finset.image_id (s := Finset.range n)]
    apply Finset.image_congr
    intro i hi
    rw [Finset.coe_range, Set.mem_Iio] at hi
    apply UInt32.toNat_ofNat_of_lt (Nat.lt_of_lt_of_le hi hn)
  have hinj : Function.Injective UInt32.toNat := fun a b hab => UInt32.toNat_inj.mp hab
  constructor
  . intro ⟨h1, h2, h3, h4⟩
    refine ⟨h1, h2, h3, ?_⟩
    apply Finset.image_injective hinj
    rw [h4, hall]
  . intro ⟨h1, h2, h3, h4⟩
    refine ⟨h1, h2, h3, ?_⟩
    rw [h4, hall]

variable {all : Finset UInt32}

theorem partitioned_handleReply_iff {p : Processor σ} (reply : WriteReply)
    (h : p.tracker.Partitioned all)
    : (p.handleReply reply).2.tracker.Partitioned all
        ↔
      (reply.finished = true → reply.index ∈ p.tracker.blocks.pieces ∪ p.tracker.piecesCompleted)
    := by
  have htracker : (p.handleReply reply).2.tracker = p.tracker.handleWritten reply := rfl
  rw [htracker]
  unfold PieceBlockTracker.handleWritten
  split
  . next hfinished =>
    rw [PieceBlockTracker.partitioned_setPieceFinished_iff _ h]
    simp [hfinished]
  . next hfinished =>
    have hpartitioned : ((p.tracker.setRequestFinished reply.index reply.begin).getD
        p.tracker).Partitioned all := by
      cases hset : p.tracker.setRequestFinished reply.index reply.begin with
      | none => exact h
      | some tracker => exact (PieceBlockTracker.partitioned_setRequestFinished_iff hset).mpr h
    simp [hpartitioned, hfinished]

theorem partitioned_dispatch {build : Build} {torrentIo : TorrentIo σ} {torrent : V1Torrent}
    {p p' : Processor σ} {available : List (UInt32 × List PeerId)} {now : UInt32 → Nat}
    {delivered : Nat → Bool} {effects : List Effect} (h : p.tracker.Partitioned all)
    (hstep : (processorTask build torrentIo torrent).step p (.dispatch available now delivered)
      = some (effects, p'))
    : p'.tracker.Partitioned all := by
  obtain ⟨hiterates, requests, tracker, hassign, _, htracker, _⟩ := dispatched_of_step hstep
  rw [htracker]
  apply TorrentState.dispatchRequests_invariant (P := PieceBlockTracker.Partitioned all)
  . intro tracker req h
    exact (PieceBlockTracker.partitioned_removeRequest_iff tracker req).mpr h
  . exact PieceBlockTracker.partitioned_generateAssignments h
      (entry_mem_getIncompletePieces hiterates) hassign

theorem partitioned_step_iff {build : Build} {torrentIo : TorrentIo σ} {torrent : V1Torrent}
    {p p' : Processor σ} {event : ProcessorEvent} {effects : List Effect}
    (h : p.tracker.Partitioned all)
    (hstep : (processorTask build torrentIo torrent).step p event = some (effects, p'))
    : p'.tracker.Partitioned all ↔ p.FinishesStarted event := by
  cases event with
  | message peerId msg =>
    simp only [processorTask, Option.some.injEq] at hstep
    have htracker := handleMessage_tracker torrentIo p peerId msg
    rw [hstep] at htracker
    rw [htracker]
    apply iff_of_true h trivial
  | handle pos =>
    simp only [processorTask] at hstep
    split at hstep
    . next reply hget =>
      simp only [Option.some.injEq, Prod.mk.injEq] at hstep
      rw [← hstep.2]
      simp only [FinishesStarted, hget, Option.some.injEq, forall_eq']
      apply partitioned_handleReply_iff reply h
    . contradiction
  | dispatch available now delivered => exact iff_of_true (partitioned_dispatch h hstep) trivial
  | tick now =>
    simp only [processorTask, Option.some.injEq, Prod.mk.injEq] at hstep
    rw [← hstep.2]
    apply iff_of_true ((PieceBlockTracker.partitioned_removeExpired_iff p.tracker now).mpr h) trivial
  | close peerId =>
    simp only [processorTask, Option.some.injEq, Prod.mk.injEq] at hstep
    rw [← hstep.2]
    unfold tracker
    dsimp only
    rw [TorrentState.removePeer_pieceBlockTracking]
    apply iff_of_true h trivial

theorem finishesStarted_iff_lifecyclePartitioned (build : Build) (torrentIo : TorrentIo σ)
    (torrent : V1Torrent) (maxOutstandingRequests : Nat) (io : σ) (p : Processor σ)
    (tr : List (ProcessorEvent × List Effect)) (hn : torrent.info.pieces.length ≤ 2 ^ 32)
    (hrun : (processorTask build torrentIo torrent).Run (new maxOutstandingRequests torrent io) tr p)
    : (processorTask build torrentIo torrent).RunWhile FinishesStarted
          (new maxOutstandingRequests torrent io) tr p
        ↔
      ∀ tr1 tr2 p1, tr = tr1 ++ tr2 →
        (processorTask build torrentIo torrent).Run (new maxOutstandingRequests torrent io) tr1 p1 →
        p1.LifecyclePartitioned torrent.info.pieces.length := by
  apply Machine.RunWhile.iff_always hrun
  . intro p1 event effects p2 h hstep
    rw [lifecyclePartitioned_iff hn] at h ⊢
    apply partitioned_step_iff h hstep
  . rw [lifecyclePartitioned_iff hn]
    apply PieceBlockTracker.partitioned_new

theorem lifecyclePartitioned_wholePiece
    : ∃ p : Processor FileTorrentIo, p.tracker.piecesCompleted = {0} ∧ p.LifecyclePartitioned 1 := by
  let torrent := torrentFixture 2 2 [[1, 2]]
  let torrentIo := FileTorrentIo.torrentIo ⟨true⟩ Sha1.digest
  let p0 := new 1 torrent (FileTorrentIo.onePieceIo [0, 0] 0 (.new 2))
  let p1 := (p0.handleMessage torrentIo [5] (.flag .unchoke)).2
  let p2 := (p1.handleMessage torrentIo [5] (.have 0)).2
  let p3 := p2.setTracker (p2.tracker.recordRequests 0 0 [Download.onePieceRequest])
  let p4 := (p3.handleMessage torrentIo [5] (.piece 0 0 [1, 2])).2
  let p5 := { (p4.handleReply ⟨0, 0, true⟩).2 with written := [] }
  let tr : List (ProcessorEvent × List Effect) := [
    (.message [5] (.flag .unchoke), [.wake .wakeup]),
    (.message [5] (.have 0), [.send [5] (.flag .interested), .wake .wakeup]),
    (.dispatch [(0, [[5]])] (fun _ => 0) fun _ => true, [.send [5] (.request 0 0 2)]),
    (.message [5] (.piece 0 0 [1, 2]), []),
    (.handle 0, [.wake (.pieceComplete 0)])
  ]
  have hguarded : (processorTask ⟨true⟩ torrentIo torrent).RunWhile FinishesStarted p0 tr p5 := by
    refine .cons trivial (?_ : _ = some (_, p1)) (.cons trivial (?_ : _ = some (_, p2))
      (.cons trivial (?_ : _ = some (_, p3)) (.cons trivial (?_ : _ = some (_, p4))
      (.cons ?_ ?_ (.nil p5)))))
    . decide +kernel
    . decide +kernel
    . decide +kernel
    . decide +kernel
    . intro reply hreply _
      have hwritten : p4.written[0]? = some ⟨0, 0, true⟩ := by decide +kernel
      rw [hwritten, Option.some.injEq] at hreply
      subst hreply
      decide +kernel
    . decide +kernel
  have hrun : (processorTask ⟨true⟩ torrentIo torrent).Run p0 tr p5 :=
    hguarded.mono fun _ _ _ => trivial
  refine ⟨p5, by decide +kernel, ?_⟩
  exact (finishesStarted_iff_lifecyclePartitioned ⟨true⟩ torrentIo torrent 1 _ p5 tr (by decide +kernel)
    hrun).mp hguarded tr [] p5 (List.append_nil tr).symm hrun

theorem not_lifecyclePartitioned_unsolicited
    : ∃ io tr p, FileTorrentIo.new ⟨true⟩ (torrentFixture 2 2 [[1, 2]]) = .ok io
        ∧ (processorTask ⟨true⟩ (FileTorrentIo.torrentIo ⟨true⟩ Sha1.digest)
            (torrentFixture 2 2 [[1, 2]])).Run (new 1 (torrentFixture 2 2 [[1, 2]]) io) tr p
        ∧ ¬p.LifecyclePartitioned 1 := by
  let torrentIo := FileTorrentIo.torrentIo ⟨true⟩ Sha1.digest
  let p0 := new 1 (torrentFixture 2 2 [[1, 2]]) (FileTorrentIo.onePieceIo [0, 0] 0 (.new 2))
  let p1 := (p0.handleMessage torrentIo [5] (.piece 0 0 [1, 2])).2
  let p2 := { (p1.handleReply ⟨0, 0, true⟩).2 with written := [] }
  let tr : List (ProcessorEvent × List Effect) := [
    (.message [5] (.piece 0 0 [1, 2]), []),
    (.handle 0, [.wake (.pieceComplete 0)])
  ]
  refine ⟨_, tr, p2, FileTorrentIo.new_onePieceIo,
    .cons trivial (?_ : _ = some (_, p1)) (.cons trivial ?_ (.nil p2)), ?_⟩
  . decide +kernel
  . decide +kernel
  . intro h
    have hnotStarted : (0 : UInt32) ∈ p2.tracker.piecesNotStarted := by decide +kernel
    have hcompleted : (0 : UInt32) ∈ p2.tracker.piecesCompleted := by decide +kernel
    apply Finset.disjoint_left.mp h.notStarted_completed hnotStarted hcompleted

end Processor
