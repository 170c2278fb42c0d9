import BenTorrent.Peer.State.Listed

/-!
This module contains which peers are told that we are interested in them.
-/

open Rust

namespace PeerEvent

def Interests (peerId : PeerId) (x : PeerEvent × PeerReply) : Prop :=
  (∃ pieces, x.1 = .addPieces peerId pieces) ∧ x.2 = .interest (some true)

/--
The peer was told that we are interested since it was last removed.
-/
def ToldInterested (tr : List (PeerEvent × PeerReply)) (peerId : PeerId) : Prop :=
  Since (Interests peerId) (Removes peerId) tr

end PeerEvent

open PeerEvent (Announced ToldInterested)

namespace PieceBlockTracker

variable {build : Build} {torrent : V1Torrent} {tracker tracker' : PieceBlockTracker}
  {event : TrackerEvent} {reply : TrackerReply}

theorem piecesCompleted_called (h : Called build torrent tracker event reply tracker')
    : tracker.piecesCompleted ⊆ tracker'.piecesCompleted := by
  cases h with
  | assigned hassign =>
    exact generateAssignments_invariant
      (P := fun tracker' => tracker.piecesCompleted ⊆ tracker'.piecesCompleted) hassign
      (fun _ _ _ _ _ _ h => h) (Finset.Subset.refl _)
  | finished hset =>
    obtain ⟨blocks, _, rfl⟩ := setBlocks_of_setRequestFinished hset
    exact Finset.Subset.refl _
  | notFound => exact Finset.Subset.refl _
  | removed => exact Finset.Subset.refl _
  | expired => exact Finset.Subset.refl _
  | pieceFinished => exact Finset.subset_insert _ _

theorem piecesNotStarted_called (h : Called build torrent tracker event reply tracker')
    : tracker'.piecesNotStarted ⊆ tracker.piecesNotStarted := by
  cases h with
  | assigned hassign =>
    refine generateAssignments_invariant
      (P := fun tracker' => tracker'.piecesNotStarted ⊆ tracker.piecesNotStarted) hassign ?_
      (Finset.Subset.refl _)
    intro tracker1 pieceId now requests _ _ h
    unfold recordRequests
    dsimp only
    split
    . exact h
    . exact (Finset.erase_subset _ _).trans h
  | finished hset =>
    obtain ⟨blocks, _, rfl⟩ := setBlocks_of_setRequestFinished hset
    exact Finset.Subset.refl _
  | notFound => exact Finset.Subset.refl _
  | removed => exact Finset.Subset.refl _
  | expired => exact Finset.Subset.refl _
  | pieceFinished => exact Finset.Subset.refl _

end PieceBlockTracker

namespace TorrentState

variable {build : Build} {torrent : V1Torrent} {state state' : TorrentState}

def IsInterestedIn (state : TorrentState) (peerId : PeerId) : Prop :=
  ∃ peer, state.peers.lookup peerId = some peer ∧ peer.interested = true

def HasUnstarted (state : TorrentState) (peerId : PeerId) : Prop :=
  ∃ piece, state.blockPeerMap.Has peerId piece
    ∧ piece ∈ state.pieceBlockTracking.piecesNotStarted

theorem interestedIn_iff {peerId : PeerId}
    : state.interestedIn peerId = true ↔ state.HasUnstarted peerId := by
  unfold interestedIn PeerPieceMap.peerInterest HasUnstarted PeerPieceMap.Has
  rw [decide_eq_true_iff]
  cases state.blockPeerMap.peersToPieces.lookup peerId with
  | none => simp
  | some pieces =>
    rw [Option.getD_some, ← Finset.nonempty_iff_ne_empty]
    simp only [Finset.Nonempty, Finset.mem_inter, and_comm]

theorem hasUnstarted_congr {peerId : PeerId} (hmap : state'.blockPeerMap = state.blockPeerMap)
    (htracker : state'.pieceBlockTracking = state.pieceBlockTracking)
    : state'.HasUnstarted peerId ↔ state.HasUnstarted peerId := by
  unfold HasUnstarted
  rw [hmap, htracker]

theorem isInterestedIn_addPeerId {peerId peerId' : PeerId}
    : (state.addPeerId peerId).IsInterestedIn peerId' ↔ state.IsInterestedIn peerId' := by
  unfold IsInterestedIn addPeerId
  split
  . rfl
  . next hmem =>
    dsimp only
    by_cases heq : peerId' = peerId
    . subst heq
      rw [Finmap.lookup_insert, Finmap.lookup_eq_none.mpr hmem]
      simp
    . rw [Finmap.lookup_insert_of_ne _ heq]

theorem isInterestedIn_congr {peerId : PeerId} (h : state'.peers = state.peers)
    : state'.IsInterestedIn peerId ↔ state.IsInterestedIn peerId := by
  unfold IsInterestedIn
  rw [h]

theorem isInterestedIn_removePeer {peerId peerId' : PeerId}
    : (state.removePeer peerId).IsInterestedIn peerId'
        ↔
      peerId' ≠ peerId ∧ state.IsInterestedIn peerId' := by
  unfold IsInterestedIn
  by_cases heq : peerId' = peerId
  . subst heq
    have hnone : (state.removePeer peerId').peers.lookup peerId' = none := by
      rw [Finmap.lookup_eq_none, mem_peers_removePeer]
      simp
    simp [hnone]
  . rw [lookup_peers_removePeer heq]
    simp [heq]

theorem isInterestedIn_setInterested {peerId peerId' : PeerId} {interest : Bool}
    : (state.setInterested peerId interest).IsInterestedIn peerId'
        ↔
      if peerId' = peerId then interest = true else state.IsInterestedIn peerId' := by
  unfold IsInterestedIn setInterested
  dsimp only
  split
  . next heq =>
    rw [heq, Finmap.lookup_insert]
    simp
  . next hne => rw [Finmap.lookup_insert_of_ne _ hne]

theorem addPiecesForPeer_eq (state : TorrentState) (peerId : PeerId) (pieces : List UInt32)
    : ((state.addPiecesForPeer peerId pieces).1 = some true ∧ ¬state.HasUnstarted peerId
          ∧ (state.addPiecesForPeer peerId pieces).2.HasUnstarted peerId
          ∧ ∀ peerId', (state.addPiecesForPeer peerId pieces).2.IsInterestedIn peerId'
            ↔ peerId' = peerId ∨ state.IsInterestedIn peerId')
        ∨ ((state.addPiecesForPeer peerId pieces).1 = none
          ∧ (state.HasUnstarted peerId
            ↔ (state.addPiecesForPeer peerId pieces).2.HasUnstarted peerId)
          ∧ ∀ peerId', (state.addPiecesForPeer peerId pieces).2.IsInterestedIn peerId'
            ↔ state.IsInterestedIn peerId') := by
  let state1 := { state.addPeerId peerId with
    blockPeerMap := pieces.foldl (fun m piece => m.addPiece peerId piece)
      (state.addPeerId peerId).blockPeerMap }
  have heq : state.addPiecesForPeer peerId pieces
      = if (state.addPeerId peerId).interestedIn peerId ≠ state1.interestedIn peerId then
          (some (state1.interestedIn peerId), state1.setInterested peerId (state1.interestedIn peerId))
        else (none, state1) := rfl
  have hinterested : ∀ peerId', state1.IsInterestedIn peerId' ↔ state.IsInterestedIn peerId' :=
    fun peerId' => (isInterestedIn_congr rfl).trans isInterestedIn_addPeerId
  have hprev : (state.addPeerId peerId).interestedIn peerId = true ↔ state.HasUnstarted peerId :=
    interestedIn_iff.trans
      (hasUnstarted_congr (addPeerId_blockPeerMap _ _) (addPeerId_pieceBlockTracking _ _))
  have hnow : state1.interestedIn peerId = true ↔ state1.HasUnstarted peerId := interestedIn_iff
  -- what was announced before is not taken back
  have hmono : state.HasUnstarted peerId → state1.HasUnstarted peerId := by
    rintro ⟨piece, hhas, hmem⟩
    refine ⟨piece, PeerPieceMap.has_foldl_addPiece.mpr (.inr ?_), ?_⟩
    . rwa [addPeerId_blockPeerMap]
    . rwa [addPeerId_pieceBlockTracking]
  rw [heq]
  split
  . next hne =>
    have hprev' : ¬state.HasUnstarted peerId := by
      intro h
      exact hne ((hprev.mpr h).trans (hnow.mpr (hmono h)).symm)
    have hnow' : state1.interestedIn peerId = true := by
      rw [← hprev, Bool.not_eq_true] at hprev'
      rw [hprev'] at hne
      exact Bool.eq_true_of_not_eq_false hne.symm
    left
    rw [hnow']
    refine ⟨rfl, hprev', (hasUnstarted_congr rfl rfl).mpr (hnow.mp hnow'), ?_⟩
    intro peerId'
    rw [isInterestedIn_setInterested, hinterested]
    by_cases hpeer : peerId' = peerId
    . simp [hpeer]
    . simp [hpeer]
  . next heq =>
    rw [not_ne_iff] at heq
    right
    refine ⟨rfl, ?_, hinterested⟩
    rw [← hprev, heq, hnow]

/--
What the flags and the pieces of the peers say about the messages so far.
-/
structure Informed (tr : List (PeerEvent × PeerReply)) (state : TorrentState) : Prop where
  listed : state.Listed
  announced : ∀ peerId piece, state.blockPeerMap.Has peerId piece ↔ Announced tr peerId piece
  told : ∀ peerId, state.IsInterestedIn peerId ↔ ToldInterested tr peerId
  interested : ∀ peerId, state.HasUnstarted peerId → state.IsInterestedIn peerId

theorem informed_new (maxOutstandingRequests : Nat) (pieces : List V1Piece)
    : Informed [] (new pieces maxOutstandingRequests) := by
  have hhas : ∀ peerId piece, ¬(new pieces maxOutstandingRequests).blockPeerMap.Has peerId piece := by
    intro peerId piece
    simp [new, PeerPieceMap.Has, PeerPieceMap.empty]
  constructor
  . exact listed_new maxOutstandingRequests pieces
  . intro peerId piece
    exact iff_of_false (hhas peerId piece) not_since_nil
  . intro peerId
    refine iff_of_false ?_ not_since_nil
    simp [IsInterestedIn, new]
  . rintro peerId ⟨piece, h, _⟩
    exact absurd h (hhas peerId piece)

theorem toldInterested_append {tr : List (PeerEvent × PeerReply)} {event : PeerEvent}
    {reply : PeerReply} {peerId : PeerId}
    : ToldInterested (tr ++ [(event, reply)]) peerId
        ↔
      ((∃ pieces, event = .addPieces peerId pieces) ∧ reply = .interest (some true))
        ∨ (ToldInterested tr peerId ∧ ¬event = .removePeer peerId) :=
  since_append_singleton

theorem SetsFlags.isInterestedIn_iff {peerId peerId' : PeerId} (h : SetsFlags peerId state state')
    : state'.IsInterestedIn peerId' ↔ state.IsInterestedIn peerId' :=
  (isInterestedIn_congr h.peers_eq).trans isInterestedIn_addPeerId

theorem Informed.setsFlags {tr : List (PeerEvent × PeerReply)} {event : PeerEvent}
    {reply : PeerReply} {peerId : PeerId} (h : Informed tr state)
    (hflags : SetsFlags peerId state state') (hlisted : state'.Listed)
    (hannounced : ∀ peerId piece, state'.blockPeerMap.Has peerId piece
      ↔ Announced (tr ++ [(event, reply)]) peerId piece)
    (hadds : ∀ peerId pieces, event ≠ .addPieces peerId pieces)
    (hremoves : ∀ peerId, event ≠ .removePeer peerId)
    : Informed (tr ++ [(event, reply)]) state' := by
  refine ⟨hlisted, hannounced, ?_, ?_⟩
  . intro peerId'
    rw [hflags.isInterestedIn_iff, h.told, toldInterested_append]
    simp [hadds, hremoves]
  . intro peerId' hunstarted
    rw [hasUnstarted_congr hflags.blockPeerMap_eq hflags.pieceBlockTracking_eq] at hunstarted
    exact hflags.isInterestedIn_iff.mpr (h.interested peerId' hunstarted)

theorem Informed.step {tr : List (PeerEvent × PeerReply)} {event : PeerEvent} {reply : PeerReply}
    (h : Informed tr state)
    (hstep : (torrentStateTask build torrent).step state event = some (reply, state'))
    : Informed (tr ++ [(event, reply)]) state' := by
  have hlisted := h.listed.step hstep
  have hannounced := has_iff_announced_step h.announced hstep
  cases called_of_step hstep with
  | choked peerId choked =>
    exact h.setsFlags (setsFlags_setPeerChokedUs state peerId choked) hlisted hannounced
      (by simp) (by simp)
  | interested peerId interested =>
    exact h.setsFlags (setsFlags_setPeersInterestedInUs state peerId interested) hlisted hannounced
      (by simp) (by simp)
  | addedPieces peerId pieces =>
    have hother : ∀ peerId', peerId' ≠ peerId →
        (state.addPiecesForPeer peerId pieces).2.HasUnstarted peerId' →
          state.HasUnstarted peerId' := by
      rintro peerId' hne ⟨piece, hhas, hmem⟩
      rw [addPiecesForPeer_blockPeerMap, PeerPieceMap.has_foldl_addPiece] at hhas
      rw [addPiecesForPeer_pieceBlockTracking] at hmem
      exact ⟨piece, hhas.resolve_left fun heq => hne heq.1, hmem⟩
    refine ⟨hlisted, hannounced, ?_, ?_⟩
    . intro peerId'
      rw [toldInterested_append, ← h.told]
      rcases addPiecesForPeer_eq state peerId pieces with ⟨hreply, _, _, hflag⟩ | ⟨hreply, _, hflag⟩
      . rw [hflag, hreply]
        simp [eq_comm]
      . rw [hflag, hreply]
        simp
    . intro peerId' hunstarted
      rcases addPiecesForPeer_eq state peerId pieces with ⟨_, _, _, hflag⟩ | ⟨_, hsame, hflag⟩
      . rw [hflag]
        by_cases hpeer : peerId' = peerId
        . exact .inl hpeer
        . exact .inr (h.interested peerId' (hother peerId' hpeer hunstarted))
      . rw [hflag]
        apply h.interested
        by_cases hpeer : peerId' = peerId
        . rw [hpeer] at hunstarted ⊢
          exact hsame.mpr hunstarted
        . exact hother peerId' hpeer hunstarted
  | removed peerId =>
    refine ⟨hlisted, hannounced, ?_, ?_⟩
    . intro peerId'
      rw [isInterestedIn_removePeer, h.told, toldInterested_append]
      simp [and_comm, eq_comm]
    . rintro peerId' ⟨piece, hhas, hmem⟩
      rw [removePeer_blockPeerMap, PeerPieceMap.has_removePeer] at hhas
      rw [removePeer_pieceBlockTracking] at hmem
      rw [isInterestedIn_removePeer]
      exact ⟨hhas.1, h.interested peerId' ⟨piece, hhas.2, hmem⟩⟩
  | tracked event reply' tracker' hcalled =>
    have hnotStarted :=
      PieceBlockTracker.piecesNotStarted_called hcalled
    refine ⟨hlisted, hannounced, ?_, ?_⟩
    . intro peerId'
      refine (isInterestedIn_congr (rfl : _ = state.peers)).trans ?_
      rw [h.told, toldInterested_append]
      simp
    . rintro peerId' ⟨piece, hhas, hmem⟩
      exact (isInterestedIn_congr rfl).mpr
        (h.interested peerId' ⟨piece, hhas, hnotStarted hmem⟩)

/--
We are interested in each peer with a piece that is not completed, and it was told so.
-/
def InterestedInUseful (n : Nat) (tr : List (PeerEvent × PeerReply)) (state : TorrentState)
    : Prop :=
  ∀ peerId ∈ state.peers, ∀ piece : UInt32, piece.toNat < n → Announced tr peerId piece →
    piece ∉ state.pieceBlockTracking.piecesCompleted →
      state.IsInterestedIn peerId ∧ ToldInterested tr peerId

def HasIncomplete (n : Nat) (state : TorrentState) (peerId : PeerId) : Prop :=
  ∃ piece : UInt32, piece.toNat < n ∧ state.blockPeerMap.Has peerId piece
    ∧ piece ∉ state.pieceBlockTracking.piecesCompleted

theorem Informed.interestedInUseful_iff {n : Nat} {tr : List (PeerEvent × PeerReply)}
    (h : Informed tr state)
    : InterestedInUseful n tr state
        ↔
      ∀ peerId, state.HasIncomplete n peerId → state.IsInterestedIn peerId := by
  constructor
  . rintro huseful peerId ⟨piece, hlt, hhas, hcompleted⟩
    exact (huseful peerId (h.listed.has peerId piece hhas) piece hlt
      ((h.announced peerId piece).mp hhas) hcompleted).1
  . intro huseful peerId _ piece hlt hannounced hcompleted
    have hflag := huseful peerId ⟨piece, hlt, (h.announced peerId piece).mpr hannounced, hcompleted⟩
    exact ⟨hflag, (h.told peerId).mp hflag⟩

/--
A peer that announces pieces is one that we are interested in, or it has one that is not started, or
all of those that it has are completed.
-/
def FindsUnstarted (n : Nat) (state : TorrentState) : PeerEvent → Prop
  | .addPieces peerId pieces =>
    state.IsInterestedIn peerId
      ∨ (∃ piece, (piece ∈ pieces ∨ state.blockPeerMap.Has peerId piece)
        ∧ piece ∈ state.pieceBlockTracking.piecesNotStarted)
      ∨ ∀ piece : UInt32, (piece ∈ pieces ∨ state.blockPeerMap.Has peerId piece) → piece.toNat < n →
        piece ∈ state.pieceBlockTracking.piecesCompleted
  | _ => True

theorem SetsFlags.useful {n : Nat} {peerId : PeerId} (h : SetsFlags peerId state state')
    (huseful : ∀ peerId, state.HasIncomplete n peerId → state.IsInterestedIn peerId)
    : ∀ peerId, state'.HasIncomplete n peerId → state'.IsInterestedIn peerId := by
  rintro peerId' ⟨piece, hlt, hhas, hcompleted⟩
  rw [h.blockPeerMap_eq] at hhas
  rw [h.pieceBlockTracking_eq] at hcompleted
  rw [h.isInterestedIn_iff]
  exact huseful peerId' ⟨piece, hlt, hhas, hcompleted⟩

theorem Informed.useful_step_iff {n : Nat} {tr : List (PeerEvent × PeerReply)} {event : PeerEvent}
    {reply : PeerReply} (h : Informed tr state)
    (huseful : ∀ peerId, state.HasIncomplete n peerId → state.IsInterestedIn peerId)
    (hstep : (torrentStateTask build torrent).step state event = some (reply, state'))
    : (∀ peerId, state'.HasIncomplete n peerId → state'.IsInterestedIn peerId)
        ↔
      state.FindsUnstarted n event := by
  cases called_of_step hstep with
  | choked peerId choked =>
    exact iff_of_true ((setsFlags_setPeerChokedUs state peerId choked).useful huseful) trivial
  | interested peerId interested =>
    exact iff_of_true ((setsFlags_setPeersInterestedInUs state peerId interested).useful huseful)
      trivial
  | addedPieces peerId pieces =>
    have hafter := h.step hstep
    have hhas : ∀ peerId' piece,
        (state.addPiecesForPeer peerId pieces).2.blockPeerMap.Has peerId' piece
          ↔ (peerId' = peerId ∧ piece ∈ pieces) ∨ state.blockPeerMap.Has peerId' piece := by
      intro peerId' piece
      rw [addPiecesForPeer_blockPeerMap, PeerPieceMap.has_foldl_addPiece]
    have htracker := addPiecesForPeer_pieceBlockTracking state peerId pieces
    have hkeeps : ∀ peerId', state.IsInterestedIn peerId' →
        (state.addPiecesForPeer peerId pieces).2.IsInterestedIn peerId' := by
      intro peerId' hflag
      rcases addPiecesForPeer_eq state peerId pieces with ⟨_, _, _, hiff⟩ | ⟨_, _, hiff⟩
      . exact (hiff peerId').mpr (.inr hflag)
      . exact (hiff peerId').mpr hflag
    constructor
    . intro huseful'
      rcases addPiecesForPeer_eq state peerId pieces with ⟨_, _, hunstarted, _⟩ | ⟨_, _, hiff⟩
      . obtain ⟨piece, hpiece, hmem⟩ := hunstarted
        rw [hhas] at hpiece
        rw [htracker] at hmem
        exact .inr (.inl ⟨piece, hpiece.imp_left And.right, hmem⟩)
      . by_cases hflag : state.IsInterestedIn peerId
        . exact .inl hflag
        . right
          right
          intro piece hpiece hlt
          by_contra hcompleted
          apply hflag
          rw [← hiff]
          apply huseful' peerId
          refine ⟨piece, hlt, (hhas peerId piece).mpr ?_, by rwa [htracker]⟩
          exact hpiece.imp_left fun hmem => ⟨rfl, hmem⟩
    . rintro hguard peerId' ⟨piece, hlt, hpiece, hcompleted⟩
      rw [hhas] at hpiece
      rw [htracker] at hcompleted
      by_cases hpeer : peerId' = peerId
      . subst hpeer
        rcases hguard with hflag | ⟨unstarted, hunstarted, hmem⟩ | hall
        . exact hkeeps peerId' hflag
        . have hunstarted' : (state.addPiecesForPeer peerId' pieces).2.HasUnstarted peerId' := by
            refine ⟨unstarted, (hhas peerId' unstarted).mpr ?_, by rwa [htracker]⟩
            exact hunstarted.imp_left fun hmem => ⟨rfl, hmem⟩
          exact hafter.interested peerId' hunstarted'
        . exact absurd (hall piece (hpiece.imp_left And.right) hlt) hcompleted
      . apply hkeeps
        exact huseful peerId' ⟨piece, hlt, hpiece.resolve_left fun heq => hpeer heq.1, hcompleted⟩
  | removed peerId =>
    refine iff_of_true ?_ trivial
    rintro peerId' ⟨piece, hlt, hhas, hcompleted⟩
    rw [removePeer_blockPeerMap, PeerPieceMap.has_removePeer] at hhas
    rw [removePeer_pieceBlockTracking] at hcompleted
    rw [isInterestedIn_removePeer]
    exact ⟨hhas.1, huseful peerId' ⟨piece, hlt, hhas.2, hcompleted⟩⟩
  | tracked event reply' tracker' hcalled =>
    have hcompleted' :=
      PieceBlockTracker.piecesCompleted_called hcalled
    refine iff_of_true ?_ trivial
    rintro peerId' ⟨piece, hlt, hhas, hcompleted⟩
    exact (isInterestedIn_congr rfl).mpr
      (huseful peerId' ⟨piece, hlt, hhas, fun hmem => hcompleted (hcompleted' hmem)⟩)

/--
In a run we are interested in every useful peer if, and only if, each peer that announces pieces
finds one that is not started, unless we are interested already or it has nothing for us.
-/
theorem interestedInUseful_iff_of_run (build : Build) (torrent : V1Torrent)
    (maxOutstandingRequests : Nat) (tr : List (PeerEvent × PeerReply)) (state : TorrentState)
    (hrun : (torrentStateTask build torrent).Run
      (new torrent.info.pieces maxOutstandingRequests) tr state)
    : (torrentStateTask build torrent).RunWhile (FindsUnstarted torrent.info.pieces.length)
          (new torrent.info.pieces maxOutstandingRequests) tr state
        ↔
      ∀ tr1 tr2 state1, tr = tr1 ++ tr2 →
        (torrentStateTask build torrent).Run
          (new torrent.info.pieces maxOutstandingRequests) tr1 state1 →
        InterestedInUseful torrent.info.pieces.length tr1 state1 := by
  apply Machine.RunWhile.iff_of_invariant
    (P := fun tr state => InterestedInUseful torrent.info.pieces.length tr state)
    (Q := fun tr state => Informed tr state
      ∧ ∀ peerId, state.HasIncomplete torrent.info.pieces.length peerId →
        state.IsInterestedIn peerId) hrun
  . rintro tr state1 event reply state2 ⟨h, huseful⟩ hstep hguard
    exact ⟨h.step hstep, (h.useful_step_iff huseful hstep).mpr hguard⟩
  . rintro tr state1 event reply state2 ⟨h, huseful⟩ hstep hguard huseful'
    rw [(h.step hstep).interestedInUseful_iff] at huseful'
    exact hguard ((h.useful_step_iff huseful hstep).mp huseful')
  . rintro tr state1 ⟨h, huseful⟩
    exact h.interestedInUseful_iff.mpr huseful
  . refine ⟨informed_new maxOutstandingRequests torrent.info.pieces, ?_⟩
    rintro peerId ⟨piece, _, hhas, _⟩
    simp [new, PeerPieceMap.Has, PeerPieceMap.empty] at hhas

def askingEvents : List PeerEvent :=
  [.chokedUs [5] false, .addPieces [5] [0], .tracker (.generateAssignments [(0, [[5]])] fun _ => 0)]

theorem interestedInUseful_asking
    : ∃ tr state, (torrentStateTask ⟨true⟩ (torrentFixture 2 2 [[1, 2]])).Run
          (new (torrentFixture 2 2 [[1, 2]]).info.pieces 1) tr state
        ∧ tr.map Prod.fst = askingEvents ∧ InterestedInUseful 1 tr state := by
  let torrent := torrentFixture 2 2 [[1, 2]]
  let s0 := new torrent.info.pieces 1
  let s1 := s0.setPeerChokedUs [5] false
  let s2 := (s1.addPiecesForPeer [5] [0]).2
  let s3 := { s2 with
    pieceBlockTracking := s2.pieceBlockTracking.recordRequests 0 0 [⟨[5], 0, 0, 2⟩] }
  let tr : List (PeerEvent × PeerReply) := [
    (.chokedUs [5] false, .updated),
    (.addPieces [5] [0], .interest (some true)),
    (.tracker (.generateAssignments [(0, [[5]])] fun _ => 0),
      .tracked (.assigned [⟨[5], 0, 0, 2⟩]))
  ]
  have hwhile : (torrentStateTask ⟨true⟩ torrent).RunWhile (FindsUnstarted 1) s0 tr s3 := by
    refine .cons trivial (?_ : _ = some (_, s1)) (.cons ?_ (?_ : _ = some (_, s2))
      (.cons trivial ?_ (.nil s3)))
    . rfl
    . exact .inr (.inl ⟨0, .inl (by simp), by decide +kernel⟩)
    . decide +kernel
    . decide +kernel
  have hrun : (torrentStateTask ⟨true⟩ torrent).Run s0 tr s3 := hwhile.mono fun _ _ _ => trivial
  refine ⟨tr, s3, hrun, rfl, ?_⟩
  exact (interestedInUseful_iff_of_run ⟨true⟩ torrent 1 tr s3 hrun).mp hwhile tr [] s3
    (List.append_nil tr).symm hrun

/--
The peer `[6]` announces the piece that `[5]` was asked for, and is never told that we are interested.
-/
theorem not_interestedInUseful_started
    : ∃ tr state, (torrentStateTask ⟨true⟩ (torrentFixture 2 2 [[1, 2]])).RunWhile AssignsAvailable
          (new (torrentFixture 2 2 [[1, 2]]).info.pieces 1) tr state
        ∧ tr.map Prod.fst = askingEvents ++ [.addPieces [6] [0]]
        ∧ ¬InterestedInUseful 1 tr state := by
  obtain ⟨tr, state, hrun, hmap, hstate⟩ :=
    ((torrentStateTask ⟨true⟩ (torrentFixture 2 2 [[1, 2]])).restrict AssignsAvailable)
      |>.exists_run_of_exec (new (torrentFixture 2 2 [[1, 2]]).info.pieces 1)
        (askingEvents ++ [.addPieces [6] [0]])
        (fun x => (x.2.peers.lookup [6], decide (0 ∈ x.2.pieceBlockTracking.piecesCompleted),
          x.2.blockPeerMap.peersToPieces.lookup [6]))
        (b := (some ⟨false, false⟩, false, some {0})) (by decide +kernel)
  simp only [Prod.mk.injEq, decide_eq_false_iff_not] at hstate
  obtain ⟨hpeer, hcompleted, hpieces⟩ := hstate
  have hwhile := Machine.runWhile_of_restrict _ _ hrun
  have hinformed : Informed tr state := by
    apply hwhile.invariant_trace (P := fun tr state => Informed tr state)
    . intro tr state1 event reply state2 _ hstep h
      exact h.step hstep
    . exact informed_new 1 (torrentFixture 2 2 [[1, 2]]).info.pieces
  refine ⟨tr, state, hwhile, hmap, ?_⟩
  rw [hinformed.interestedInUseful_iff]
  intro huseful
  have hhas : state.blockPeerMap.Has [6] 0 := by
    unfold PeerPieceMap.Has
    simp [hpieces]
  obtain ⟨peer, hlookup, hinterested⟩ := huseful [6] ⟨0, by decide, hhas, hcompleted⟩
  rw [hpeer, Option.some.injEq] at hlookup
  rw [← hlookup] at hinterested
  contradiction

end TorrentState
