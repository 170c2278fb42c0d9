import BenTorrent.Peer.State.Interest

/-!
This module contains when the changes of our interest are reported as they are.
-/

open Rust

namespace PeerEvent

def Reports (peerId : PeerId) (interest : Bool) (x : PeerEvent × PeerReply) : Prop :=
  (∃ pieces, x.1 = .addPieces peerId pieces) ∧ x.2 = .interest (some interest)

/--
Between two reports of the same interest there is one of the other, or the peer was removed.
-/
def Alternates (tr : List (PeerEvent × PeerReply)) : Prop :=
  ∀ tr1 x1 tr2 x2 tr3 peerId interest, tr = tr1 ++ x1 :: (tr2 ++ x2 :: tr3) →
    Reports peerId interest x1 → Reports peerId interest x2 →
      ∃ x ∈ tr2, Reports peerId (!interest) x ∨ Removes peerId x

end PeerEvent

open PeerEvent (Reports Removes Alternates ToldInterested)

namespace TorrentState

variable {build : Build} {torrent : V1Torrent} {state state' : TorrentState}

def recordedInterest (state : TorrentState) (peerId : PeerId) : Bool :=
  match state.getInternalPeerState peerId with
  | some peer => peer.interested
  | none => false

theorem recordedInterest_iff {peerId : PeerId}
    : state.recordedInterest peerId = true ↔ state.IsInterestedIn peerId := by
  unfold recordedInterest getInternalPeerState IsInterestedIn
  cases state.peers.lookup peerId with
  | none => simp
  | some peer => simp

/--
What a call reports is how our interest differs from what was recorded, and the interest is recorded.
-/
structure ReportsChange (peerId : PeerId) (state : TorrentState) (change : Option Bool)
    (state' : TorrentState) : Prop where
  change_iff : ∀ interest, change = some interest
    ↔ state'.interestedIn peerId = interest ∧ interest ≠ state.recordedInterest peerId
  recorded_eq : state'.recordedInterest peerId = state'.interestedIn peerId

/--
A peer in which we are interested still has a piece that is not started when it announces others.
-/
def KeepsUnstarted (state : TorrentState) : PeerEvent → Prop
  | .addPieces peerId _ =>
    state.recordedInterest peerId = true → state.interestedIn peerId = true
  | _ => True

theorem reportsChange_addPiecesForPeer_iff {peerId : PeerId} {pieces : List UInt32}
    (h : state.HasUnstarted peerId → state.IsInterestedIn peerId)
    : ReportsChange peerId state (state.addPiecesForPeer peerId pieces).1
        (state.addPiecesForPeer peerId pieces).2
        ↔
      (state.recordedInterest peerId = true → state.interestedIn peerId = true) := by
  rw [recordedInterest_iff, interestedIn_iff]
  rcases addPiecesForPeer_eq state peerId pieces with
    ⟨hchange, hbefore, hafter, hflag⟩ | ⟨hchange, hsame, hflag⟩
  . have hnow : (state.addPiecesForPeer peerId pieces).2.interestedIn peerId = true :=
      interestedIn_iff.mpr hafter
    have hrecorded : (state.addPiecesForPeer peerId pieces).2.recordedInterest peerId = true :=
      recordedInterest_iff.mpr ((hflag peerId).mpr (.inl rfl))
    constructor
    . intro hreports hinterested
      have := ((hreports.change_iff true).mp hchange).2
      rw [recordedInterest_iff.mpr hinterested] at this
      contradiction
    . intro hkeeps
      have hnot : state.recordedInterest peerId = false := by
        rw [← Bool.not_eq_true, recordedInterest_iff]
        exact fun hinterested => hbefore (hkeeps hinterested)
      constructor
      . intro interest
        rw [hchange, hnow, hnot, Option.some.injEq]
        cases interest with
        | true => simp
        | false => simp
      . rw [hrecorded, hnow]
  . have hnow : (state.addPiecesForPeer peerId pieces).2.interestedIn peerId = true
        ↔ state.HasUnstarted peerId := interestedIn_iff.trans hsame.symm
    have hrecorded : (state.addPiecesForPeer peerId pieces).2.recordedInterest peerId
        = state.recordedInterest peerId := by
      rw [Bool.eq_iff_iff, recordedInterest_iff, recordedInterest_iff, hflag]
    constructor
    . intro hreports hinterested
      rw [← hnow, ← hreports.recorded_eq, hrecorded, recordedInterest_iff]
      exact hinterested
    . intro hkeeps
      have heq : (state.addPiecesForPeer peerId pieces).2.interestedIn peerId
          = state.recordedInterest peerId := by
        rw [Bool.eq_iff_iff, hnow, recordedInterest_iff]
        exact ⟨h, hkeeps⟩
      constructor
      . intro interest
        rw [hchange, heq]
        simp [eq_comm]
      . rw [hrecorded, heq]

theorem informed_of_run {pieces : List V1Piece} {maxOutstandingRequests : Nat}
    {tr : List (PeerEvent × PeerReply)}
    (hrun : (torrentStateTask build torrent).Run (new pieces maxOutstandingRequests) tr state)
    : Informed tr state := by
  apply hrun.invariant_trace (P := fun tr state => Informed tr state)
  . intro tr state1 event reply state2 _ hstep h
    exact h.step hstep
  . exact informed_new maxOutstandingRequests pieces

/--
Every call in the run reports the change of our interest, and no peer gets the same report twice in a
row.
-/
def ReportsExactly (build : Build) (torrent : V1Torrent) (state0 : TorrentState)
    (tr : List (PeerEvent × PeerReply)) : Prop :=
  (∀ tr1 peerId pieces change tr2 state state',
    tr = tr1 ++ (.addPieces peerId pieces, .interest change) :: tr2 →
    (torrentStateTask build torrent).Run state0 tr1 state →
    (torrentStateTask build torrent).step state (.addPieces peerId pieces)
        = some (.interest change, state') →
      ReportsChange peerId state change state')
    ∧ Alternates tr

theorem reports_true_of_step {event : PeerEvent} {reply : PeerReply} {peerId : PeerId}
    {interest : Bool}
    (hstep : (torrentStateTask build torrent).step state event = some (reply, state'))
    (h : Reports peerId interest (event, reply))
    : interest = true ∧ ¬state.HasUnstarted peerId := by
  obtain ⟨⟨pieces, rfl⟩, rfl⟩ := h
  simp only [torrentStateTask, Option.some.injEq, Prod.mk.injEq, PeerReply.interest.injEq] at hstep
  rcases addPiecesForPeer_eq state peerId pieces with ⟨hchange, hbefore, _⟩ | ⟨hchange, _⟩
  . rw [hchange, Option.some.injEq] at hstep
    exact ⟨hstep.1.symm, hbefore⟩
  . rw [hchange] at hstep
    have hfalse := hstep.1
    contradiction

/--
In a run the reports are exact if, and only if, each peer that announces pieces while we are
interested in it has one left that is not started.
-/
theorem reportsExactly_iff_of_run (build : Build) (torrent : V1Torrent) (pieces : List V1Piece)
    (maxOutstandingRequests : Nat) (tr : List (PeerEvent × PeerReply)) (state : TorrentState)
    (hrun : (torrentStateTask build torrent).Run (new pieces maxOutstandingRequests) tr state)
    : (torrentStateTask build torrent).RunWhile KeepsUnstarted
          (new pieces maxOutstandingRequests) tr state
        ↔
      ReportsExactly build torrent (new pieces maxOutstandingRequests) tr := by
  rw [Machine.RunWhile.iff_forall_step hrun]
  constructor
  . intro hkeeps
    constructor
    . intro tr1 peerId pieces change tr2 state1 state2 htr hrun1 hstep
      have hguard := hkeeps tr1 _ _ tr2 state1 state2 htr hrun1 hstep
      simp only [torrentStateTask, Option.some.injEq, Prod.mk.injEq,
        PeerReply.interest.injEq] at hstep
      obtain ⟨rfl, rfl⟩ := hstep
      exact (reportsChange_addPiecesForPeer_iff ((informed_of_run hrun1).interested peerId)).mpr
        hguard
    . intro tr1 x1 tr2 x2 tr3 peerId interest htr h1 h2
      obtain ⟨event2, reply2⟩ := x2
      have htr' : tr = (tr1 ++ x1 :: tr2) ++ (event2, reply2) :: tr3 := by
        rw [htr, List.append_assoc, List.cons_append]
      obtain ⟨state1, hrun1, hrun2⟩ := Machine.RunWhile.append_iff.mp (htr' ▸ hrun)
      obtain ⟨state2, _, hstep, _⟩ := Machine.RunWhile.cons_iff.mp hrun2
      obtain ⟨rfl, hbefore⟩ := reports_true_of_step hstep h2
      by_contra hnone
      -- the first report is recorded, and only a removal takes it back
      have htold : ToldInterested (tr1 ++ x1 :: tr2) peerId := by
        refine ⟨tr1, x1, tr2, rfl, h1, ?_⟩
        intro y hy hremoves
        exact hnone ⟨y, hy, .inr hremoves⟩
      have hguard := hkeeps _ _ _ _ state1 state2 htr' hrun1 hstep
      obtain ⟨⟨pieces2, rfl⟩, _⟩ := h2
      apply hbefore
      rw [← interestedIn_iff]
      apply hguard
      rw [recordedInterest_iff]
      exact ((informed_of_run hrun1).told peerId).mpr htold
  . intro hexact tr1 event reply tr2 state1 state2 htr hrun1 hstep
    cases called_of_step hstep with
    | addedPieces peerId pieces =>
      exact (reportsChange_addPiecesForPeer_iff ((informed_of_run hrun1).interested peerId)).mp
        (hexact.1 tr1 peerId pieces _ tr2 state1 _ htr hrun1 hstep)
    | _ => trivial

theorem reportsExactly_haveTwice
    : ∃ tr, tr.map Prod.snd = [.interest (some true), .interest none]
        ∧ ReportsExactly ⟨true⟩ (torrentFixture 2 4 [[1, 2], [3, 4]])
            (new (torrentFixture 2 4 [[1, 2], [3, 4]]).info.pieces 1) tr := by
  let torrent := torrentFixture 2 4 [[1, 2], [3, 4]]
  let s0 := new torrent.info.pieces 1
  let s1 := (s0.addPiecesForPeer [5] [0]).2
  let s2 := (s1.addPiecesForPeer [5] [1]).2
  let tr : List (PeerEvent × PeerReply) := [
    (.addPieces [5] [0], .interest (some true)),
    (.addPieces [5] [1], .interest none)
  ]
  have hwhile : (torrentStateTask ⟨true⟩ torrent).RunWhile KeepsUnstarted s0 tr s2 := by
    refine .cons ?_ (?_ : _ = some (_, s1)) (.cons ?_ (?_ : _ = some (_, s2)) (.nil s2))
    . show s0.recordedInterest [5] = true → _
      decide +kernel
    . decide +kernel
    . show s1.recordedInterest [5] = true → s1.interestedIn [5] = true
      decide +kernel
    . decide +kernel
  have hrun : (torrentStateTask ⟨true⟩ torrent).Run s0 tr s2 := hwhile.mono fun _ _ _ => trivial
  exact ⟨tr, rfl, (reportsExactly_iff_of_run ⟨true⟩ torrent torrent.info.pieces 1 tr s2 hrun).mp
    hwhile⟩

/--
The peer `[5]` is asked for the piece that it announced first, and is told again that we are
interested when it announces the other one.
-/
theorem not_reportsExactly_interestedTwice
    : ∃ tr state,
        (torrentStateTask ⟨true⟩ (torrentFixture 2 4 [[1, 2], [3, 4]])).RunWhile AssignsAvailable
            (new (torrentFixture 2 4 [[1, 2], [3, 4]]).info.pieces 1) tr state
          ∧ tr.map Prod.fst = [
            .chokedUs [5] false,
            .addPieces [5] [0],
            .tracker (.generateAssignments [(0, [[5]]), (1, [])] fun _ => 0),
            .addPieces [5] [1]
          ]
          ∧ ¬ReportsExactly ⟨true⟩ (torrentFixture 2 4 [[1, 2], [3, 4]])
              (new (torrentFixture 2 4 [[1, 2], [3, 4]]).info.pieces 1) tr := by
  let torrent := torrentFixture 2 4 [[1, 2], [3, 4]]
  let s0 := new torrent.info.pieces 1
  let s1 := s0.setPeerChokedUs [5] false
  let s2 := (s1.addPiecesForPeer [5] [0]).2
  let s3 := { s2 with
    pieceBlockTracking := s2.pieceBlockTracking.recordRequests 0 0 [⟨[5], 0, 0, 2⟩] }
  let s4 := (s3.addPiecesForPeer [5] [1]).2
  let tr : List (PeerEvent × PeerReply) := [
    (.chokedUs [5] false, .updated),
    (.addPieces [5] [0], .interest (some true)),
    (.tracker (.generateAssignments [(0, [[5]]), (1, [])] fun _ => 0),
      .tracked (.assigned [⟨[5], 0, 0, 2⟩])),
    (.addPieces [5] [1], .interest (some true))
  ]
  have hsort : s2.pieceBlockTracking.getIncompletePieces.sort (· ≤ ·) = [0, 1] := by
    have hincomplete : s2.pieceBlockTracking.getIncompletePieces = [0, 1].toFinset := by
      decide +kernel
    rw [hincomplete, List.toFinset_sort _ (by decide)]
    decide
  have hwhile : (torrentStateTask ⟨true⟩ torrent).RunWhile AssignsAvailable s0 tr s4 := by
    refine .cons trivial (?_ : _ = some (_, s1)) (.cons trivial (?_ : _ = some (_, s2))
      (.cons ?_ (?_ : _ = some (_, s3)) (.cons trivial (?_ : _ = some (_, s4)) (.nil s4))))
    . rfl
    . decide +kernel
    . unfold AssignsAvailable Iterates pieceIdToPeers
      rw [hsort]
      decide +kernel
    . decide +kernel
    . decide +kernel
  refine ⟨tr, s4, hwhile, rfl, ?_⟩
  intro h
  obtain ⟨x, hmem, hx⟩ := h.2 [(.chokedUs [5] false, .updated)] _
    [(.tracker (.generateAssignments [(0, [[5]]), (1, [])] fun _ => 0),
      .tracked (.assigned [⟨[5], 0, 0, 2⟩]))] _ [] [5] true rfl ⟨⟨[0], rfl⟩, rfl⟩ ⟨⟨[1], rfl⟩, rfl⟩
  rw [List.mem_singleton] at hmem
  subst hmem
  simp [Reports, Removes] at hx

end TorrentState
