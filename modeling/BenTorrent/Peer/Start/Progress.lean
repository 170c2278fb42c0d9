import BenTorrent.Peer.Start.State
import BenTorrent.Peer.State.Capacity

/-!
This module contains that the loop does not panic: whatever its handlers have made of the state, it
can take the next step of the arm that it is in.
-/

open Rust

open PieceBlockAllocation (pieceSize)

namespace TorrentState

variable {build : Build} {torrent : V1Torrent} {state : TorrentState}

theorem bounded_of_run {maxOutstandingRequests : Nat} {guard : TorrentState → PeerEvent → Prop}
    {calls : List (PeerEvent × PeerReply)} (hmax : maxOutstandingRequests < 2 ^ 64)
    (hrun : (torrentStateTask build torrent).RunWhile guard
      (new torrent.info.pieces maxOutstandingRequests) calls state)
    : state.pieceBlockTracking.Bounded maxOutstandingRequests := by
  apply hrun.invariant (P := fun state => state.pieceBlockTracking.Bounded maxOutstandingRequests)
  . intro state event reply state' _ hstep h
    cases event with
    | tracker event =>
      simp only [torrentStateTask] at hstep
      split at hstep
      . next reply' tracker hcall =>
        simp only [Option.some.injEq, Prod.mk.injEq] at hstep
        rw [← hstep.2]
        exact h.step hmax hcall
      . contradiction
    | chokedUs peerId choked =>
      cases called_of_step hstep with
      | choked => rwa [setPeerChokedUs_pieceBlockTracking]
    | interestedInUs peerId interested =>
      cases called_of_step hstep with
      | interested => rwa [setPeersInterestedInUs_pieceBlockTracking]
    | addPieces peerId pieces =>
      cases called_of_step hstep with
      | addedPieces => rwa [addPiecesForPeer_pieceBlockTracking]
    | removePeer peerId =>
      cases called_of_step hstep with
      | removed => rwa [removePeer_pieceBlockTracking]
  . exact PieceBlockTracker.bounded_new maxOutstandingRequests torrent.info.pieces

theorem exists_iterates (m : List (UInt32 × Finset PeerId))
    : ∃ available : List (UInt32 × List PeerId), Iterates m available := by
  refine ⟨m.map fun (pieceId, peerIds) => (pieceId, peerIds.toList), ?_, ?_⟩
  . intro entry hentry
    obtain ⟨_, _, rfl⟩ := List.mem_map.mp hentry
    exact Finset.nodup_toList _
  . rw [List.map_map]
    conv_rhs => rw [← List.map_id m]
    apply List.map_congr_left
    intro entry _
    simp

end TorrentState

def StartEvent.IsOfArm : StartEvent → Prop
  | .advance => True
  | .compute _ _ => True
  | .unchoke _ _ => True
  | .expire _ => True
  | _ => False

namespace TorrentProcessor

variable {σ : Type u} {p p' : TorrentProcessor σ} {c : Nat}

section

variable (build : Build) (torrentIo : TorrentIo σ) (config : Config) (torrent : V1Torrent)

def CanTake (p : TorrentProcessor σ) (event : StartEvent) : Prop :=
  ((startTask build torrentIo config torrent).step p event).isSome = true

/--
The next step of the arm is defined, in whatever order the maps of the state are iterated and whatever
the time is.
-/
def GoesOn (p : TorrentProcessor σ) : Prop :=
  match p.arm with
  | .select => True
  | .computing => ∀ available now, TorrentState.Iterates p.torrentState.pieceIdToPeers available →
    p.CanTake build torrentIo config torrent (.compute available now)
  | .unchoking => ∀ newPotentialPeers peersThatLeft : List PeerId,
    newPotentialPeers.Nodup → peersThatLeft.Nodup →
    newPotentialPeers.toFinset = p.torrentState.peersThatAreInterested true
      \ p.torrentState.stationaryPeerSet →
    peersThatLeft.toFinset = p.torrentState.unchokedPeers \ p.torrentState.stationaryPeerSet →
    p.CanTake build torrentIo config torrent (.unchoke newPotentialPeers peersThatLeft)
  | .expiring => ∀ now, p.CanTake build torrentIo config torrent (.expire now)
  | _ => p.CanTake build torrentIo config torrent .advance

end

variable {build : Build} {torrentIo : TorrentIo σ} {config : Config} {torrent : V1Torrent}

theorem isSome_withLock {body : TorrentProcessor σ → Option (List Signal × TorrentProcessor σ)}
    (h : ∀ lock, (body { p with lock }).isSome = true)
    : (p.withLock body).isSome = true := by
  unfold withLock
  split
  . apply h
  . rfl

theorem canTake_advance
    : p.CanTake build torrentIo config torrent .advance ↔ (p.advance torrentIo torrent).isSome = true :=
  Iff.rfl

theorem isSome_greet {conn : PeerConnection} (hget : p.connections[c]? = some conn)
    (msgs : List Messages)
    : (p.greet c msgs).isSome = true := by
  cases msgs with
  | nil =>
    unfold greet
    rw [hget]
    rfl
  | cons msg msgs =>
    unfold greet
    dsimp only
    split
    . rfl
    . rfl
    . rfl

theorem isSome_close {conn : PeerConnection} (hget : p.connections[c]? = some conn)
    : (p.close c).isSome = true := by
  unfold close
  rw [hget]
  rfl

theorem Coherent.canTake_advance (h : p.Coherent) (hselect : p.arm ≠ .select)
    (hcomputing : p.arm ≠ .computing) (hunchoking : p.arm ≠ .unchoking) (hexpiring : p.arm ≠ .expiring)
    : p.CanTake build torrentIo config torrent .advance := by
  unfold Coherent at h
  rw [TorrentProcessor.canTake_advance]
  unfold advance
  cases harm : p.arm with
  | select => exact absurd harm hselect
  | computing => exact absurd harm hcomputing
  | unchoking => exact absurd harm hunchoking
  | expiring => exact absurd harm hexpiring
  | initConnection c => exact isSome_withLock fun _ => rfl
  | greeting c msgs =>
    rw [harm] at h
    obtain ⟨conn, hget, _⟩ := h
    exact isSome_greet hget msgs
  | closing c =>
    rw [harm] at h
    obtain ⟨conn, hget, _⟩ := h
    exact isSome_withLock fun lock => isSome_close (p := { p with lock }) hget
  | announcing pieceId peerIds =>
    cases peerIds with
    | nil => rfl
    | cons => rfl
  | queueing req => exact isSome_withLock fun _ => rfl
  | dispatching requests =>
    cases requests with
    | nil => rfl
    | cons => rfl
  | dequeueing => exact isSome_withLock fun _ => rfl
  | answering dequed =>
    cases dequed with
    | nil => rfl
    | cons => rfl
  | sending peerId msg dequed => rfl
  | choking combinedPeers =>
    cases combinedPeers with
    | nil => rfl
    | cons => rfl
  | wakingUp => rfl

theorem canTake_compute {available : List (UInt32 × List PeerId)} {now : UInt32 → Nat}
    (hbounded : p.tracker.Bounded config.maxOutstandingRequests)
    (hmax : config.maxOutstandingRequests < 2 ^ 64) (hconsistent : torrent.info.Consistent)
    (hpieces : torrent.info.pieces.length < 2 ^ 32) (harm : p.arm = .computing)
    (hiterates : TorrentState.Iterates p.torrentState.pieceIdToPeers available)
    : p.CanTake build torrentIo config torrent (.compute available now) := by
  obtain ⟨allocation, halloc, hlaid⟩ :=
    TorrentAllocation.allocateTorrent_of_consistent (ε := AnyError) build torrent hconsistent
  have hsizes : ∀ entry ∈ available, ∃ size < 2 ^ 63,
      (pieceSize build torrent entry.1 : Outcome AnyError Nat) = .ok size := by
    intro entry _
    refine ⟨_, ?_, PieceBlockAllocation.pieceSize_of_laidOut halloc hlaid hpieces entry.1⟩
    have hle := hlaid.len_le entry.1.toNat
    have hmax := hlaid.maxPieceSize_eq
    have hlt := Int64.toInt_lt torrent.info.pieceLength
    omega
  obtain ⟨requests, tracker, hassign⟩ : ∃ requests tracker,
      (p.tracker.generateAssignments build torrent now available : Outcome AnyError _)
        = .ok (requests, tracker) := hbounded.generateAssignments_ok hmax hsizes
  unfold CanTake
  simp only [startTask]
  rw [if_pos harm]
  apply isSome_withLock
  intro lock
  unfold compute
  dsimp only
  have htracker : ({ p with lock } : TorrentProcessor σ).tracker = p.tracker := rfl
  rw [if_pos hiterates, htracker, hassign]
  rfl

theorem canTake_unchoke {newPotentialPeers peersThatLeft : List PeerId} (harm : p.arm = .unchoking)
    (hnodup : newPotentialPeers.Nodup) (hnodup' : peersThatLeft.Nodup)
    (hnew : newPotentialPeers.toFinset = p.torrentState.peersThatAreInterested true
      \ p.torrentState.stationaryPeerSet)
    (hleft : peersThatLeft.toFinset = p.torrentState.unchokedPeers
      \ p.torrentState.stationaryPeerSet)
    : p.CanTake build torrentIo config torrent (.unchoke newPotentialPeers peersThatLeft) := by
  unfold CanTake
  simp only [startTask]
  rw [if_pos harm]
  apply isSome_withLock
  intro lock
  unfold computeUnchoke
  dsimp only
  rw [if_pos ⟨hnodup, hnodup', hnew, hleft⟩]
  rfl

theorem canTake_expire (harm : p.arm = .expiring) (now : Nat)
    : p.CanTake build torrentIo config torrent (.expire now) := by
  unfold CanTake
  simp only [startTask]
  rw [if_pos harm]
  exact isSome_withLock fun _ => rfl

theorem GoesOn.exists_canTake (h : p.GoesOn build torrentIo config torrent) (harm : p.arm ≠ .select)
    : ∃ event, event.IsOfArm ∧ p.CanTake build torrentIo config torrent event := by
  unfold GoesOn at h
  split at h
  . next hselect => exact absurd hselect harm
  . obtain ⟨available, hiterates⟩ := TorrentState.exists_iterates p.torrentState.pieceIdToPeers
    exact ⟨.compute available fun _ => 0, trivial, h available _ hiterates⟩
  . have hstep := h _ _ (Finset.nodup_toList _) (Finset.nodup_toList _) (Finset.toList_toFinset _)
      (Finset.toList_toFinset _)
    exact ⟨.unchoke _ _, trivial, hstep⟩
  . exact ⟨.expire 0, trivial, h 0⟩
  . exact ⟨.advance, trivial, h⟩

/--
In each state that a run reaches the loop is in its select or the next step of its arm does not
panic. It may be to go on waiting.
-/
theorem goesOn_of_run {io : σ} {tr : StartTrace} (hmax : config.maxOutstandingRequests < 2 ^ 64)
    (hconsistent : torrent.info.Consistent) (hpieces : torrent.info.pieces.length < 2 ^ 32)
    (hrun : (startTask build torrentIo config torrent).Run (new config torrent io) tr p)
    : p.GoesOn build torrentIo config torrent
        ∧ (p.arm ≠ .select →
          ∃ event, event.IsOfArm ∧ p.CanTake build torrentIo config torrent event) := by
  suffices h : p.GoesOn build torrentIo config torrent from ⟨h, h.exists_canTake⟩
  have hcoherent := coherent_of_run hrun
  obtain ⟨calls, hcalls⟩ := exists_run_torrentState hrun
  have hbounded : p.tracker.Bounded config.maxOutstandingRequests :=
    TorrentState.bounded_of_run hmax hcalls
  unfold GoesOn
  split
  . trivial
  . next harm =>
    intro available now hiterates
    exact canTake_compute hbounded hmax hconsistent hpieces harm hiterates
  . next harm =>
    intro newPotentialPeers peersThatLeft hnodup hnodup' hnew hleft
    exact canTake_unchoke harm hnodup hnodup' hnew hleft
  . next harm =>
    intro now
    exact canTake_expire harm now
  . next hselect hcomputing hunchoking hexpiring =>
    exact hcoherent.canTake_advance hselect hcomputing hunchoking hexpiring

theorem goesOn_onePiece
    : ∃ tr p, (onePieceTask ⟨false, 8, 8, 1⟩).Run (onePieceStart ⟨false, 8, 8, 1⟩) tr p
        ∧ p.arm = .computing
        ∧ p.GoesOn ⟨true⟩ (MemoryTorrentIo.torrentIo ⟨true⟩) ⟨false, 8, 8, 1⟩
          (torrentFixture 2 2 [[1, 2]]) := by
  obtain ⟨tr, p, hrun, _, harm⟩ := (onePieceTask ⟨false, 8, 8, 1⟩).exists_run_of_exec
    (onePieceStart ⟨false, 8, 8, 1⟩)
    (greetingEvents 0 [5] ++ handlingEvents 0 (.flag .unchoke) ++ handlingEvents 0 (.have 0)
      ++ [.recvWakeUp []])
    (fun res => res.2.arm) (b := .computing) (by decide +kernel)
  exact ⟨tr, p, hrun, harm,
    (goesOn_of_run (by decide) (by decide +kernel) (by decide +kernel) hrun).1⟩

end TorrentProcessor
