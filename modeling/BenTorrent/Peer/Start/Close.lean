import BenTorrent.Peer.Start.State
import BenTorrent.Peer.State.Listed

/-!
This module contains when the close of one connection leaves the others alone.
-/

open Rust

/--
Both ends of the connection are there.
-/
def PeerConnection.IsLive (conn : PeerConnection) : Prop :=
  conn.handler.IsConnected ∧ conn.link ≠ .ended

instance (conn : PeerConnection) : Decidable conn.IsLive :=
  inferInstanceAs (Decidable ((_ ∧ _) ∧ _))

namespace TorrentProcessor

variable {σ : Type u} {p p' : TorrentProcessor σ} {c : Nat}

/--
The other live connections keep their senders and what is known of their peers.
-/
def Undisturbed (c : Nat) (p p' : TorrentProcessor σ) : Prop :=
  p.ForallConn fun d conn => d ≠ c → conn.IsLive →
    (p.peerToTx.lookup conn.peerId = some d → p'.peerToTx.lookup conn.peerId = some d)
      ∧ TorrentState.SameFor conn.peerId p.torrentState p'.torrentState

/--
A connection is closed when no other live one is in the tables under its peer id.
-/
def ClosesAlone (p : TorrentProcessor σ) : StartEvent → Prop
  | .advance =>
    match p.arm with
    | .closing c => (p.lock.lock .mainLoop).1 = true → ∀ conn ∈ p.connections[c]?,
        p.ForallConn fun d conn' => d ≠ c → conn'.IsLive → conn'.peerId = conn.peerId →
          p.peerToTx.lookup conn.peerId ≠ some d ∧ conn.peerId ∉ p.torrentState.peers
    | _ => True
  | _ => True

instance (event : StartEvent) : Decidable (p.ClosesAlone event) := by
  unfold ClosesAlone
  split
  . split
    . infer_instance
    . infer_instance
  . infer_instance

variable {build : Build} {torrentIo : TorrentIo σ} {config : Config} {torrent : V1Torrent}

theorem Advanced.undisturbed_iff {signals : List Signal} (h : p.torrentState.Listed)
    (harm : p.arm = .closing c) (ha : p.Advanced torrentIo torrent signals p')
    : p.Undisturbed c p' ↔ p.ClosesAlone .advance := by
  have hpasses : ∀ {peerId msg arm}, ¬Passes p.arm peerId msg arm := by
    intro peerId msg arm hpasses
    rw [harm] at hpasses
    contradiction
  simp only [ClosesAlone, harm]
  cases ha with
  | lockPending lock hlock =>
    -- nothing is closed yet
    constructor
    . intro _ hfree
      rw [hlock] at hfree
      contradiction
    . intro _ d conn _ _ _
      exact ⟨id, rfl, Iff.rfl, Iff.rfl, fun _ => Iff.rfl, fun _ => Iff.rfl⟩
  | closing c' lock conn harm' hlock hget =>
    obtain rfl : c = c' := by
      rwa [harm, Arm.closing.injEq] at harm'
    have hsender : ∀ {d} {conn' : PeerConnection},
        (p.peerToTx.lookup conn'.peerId = some d →
          (p.peerToTx.erase conn.peerId).lookup conn'.peerId = some d)
            ↔
          (conn'.peerId = conn.peerId → p.peerToTx.lookup conn.peerId ≠ some d) := by
      intro d conn'
      by_cases heq : conn'.peerId = conn.peerId
      . rw [heq, Finmap.lookup_erase]
        simp
      . rw [Finmap.lookup_erase_ne heq]
        simp [heq]
    have hconn : ∀ conn1 ∈ p.connections[c]?, conn1 = conn := by
      intro conn1 hget1
      rw [Option.mem_def, hget, Option.some.injEq] at hget1
      exact hget1.symm
    constructor
    . intro hundisturbed _ conn1 hget1 d conn' hget' hne hlive heq
      obtain rfl := hconn conn1 hget1
      obtain ⟨hkeeps, hsame⟩ := hundisturbed d conn' hget' hne hlive
      refine ⟨hsender.mp hkeeps heq, ?_⟩
      exact (TorrentState.sameFor_removePeer_iff h _ _).mp hsame heq
    . intro hguard d conn' hget' hne hlive
      have hother := hguard (by rw [hlock]) conn hget d conn' hget' hne hlive
      refine ⟨hsender.mpr fun heq => (hother heq).1, ?_⟩
      exact (TorrentState.sameFor_removePeer_iff h _ _).mpr fun heq => (hother heq).2
  | passed _ _ _ _ _ _ hp => exact absurd hp hpasses
  | passPending _ _ _ _ _ hp => exact absurd hp hpasses
  | _ =>
    rw [harm] at *
    contradiction

theorem listed_of_run {io : σ} {tr : StartTrace}
    (hrun : (startTask build torrentIo config torrent).Run (new config torrent io) tr p)
    : p.torrentState.Listed := by
  obtain ⟨calls, hcalls⟩ := exists_run_torrentState hrun
  apply hcalls.invariant
  . intro state event reply state' _ hstep h
    exact h.step hstep
  . exact TorrentState.listed_new config.maxOutstandingRequests torrent.info.pieces

/--
No close in a run disturbs another live connection if, and only if, none is of a connection whose
peer id another live one has as well: at least none that the tables still know under that id.
-/
theorem undisturbed_iff_of_run (build : Build) (torrentIo : TorrentIo σ) (config : Config)
    (torrent : V1Torrent) (io : σ) (p : TorrentProcessor σ) (tr : StartTrace)
    (hrun : (startTask build torrentIo config torrent).Run (new config torrent io) tr p)
    : (startTask build torrentIo config torrent).RunWhile ClosesAlone (new config torrent io) tr p
        ↔
      ∀ tr1 signals tr2 c p1 p2, tr = tr1 ++ (.advance, signals) :: tr2 →
        (startTask build torrentIo config torrent).Run (new config torrent io) tr1 p1 →
        (startTask build torrentIo config torrent).step p1 .advance = some (signals, p2) →
        p1.arm = .closing c → p1.Undisturbed c p2 := by
  rw [Machine.RunWhile.iff_forall_step hrun]
  constructor
  . intro h tr1 signals tr2 c p1 p2 htr hrun1 hstep harm
    have hguard := h tr1 .advance signals tr2 p1 p2 htr hrun1 hstep
    exact ((advanced_of_advance hstep).undisturbed_iff (listed_of_run hrun1) harm).mpr hguard
  . intro h tr1 event signals tr2 p1 p2 htr hrun1 hstep
    cases event with
    | advance =>
      by_cases hclosing : ∃ c, p1.arm = .closing c
      . obtain ⟨c, harm⟩ := hclosing
        have hundisturbed := h tr1 signals tr2 c p1 p2 htr hrun1 hstep harm
        exact ((advanced_of_advance hstep).undisturbed_iff (listed_of_run hrun1) harm).mp
          hundisturbed
      . simp only [ClosesAlone]
        split
        . next c harm => exact absurd ⟨c, harm⟩ hclosing
        . trivial
    | _ => trivial

def losingEvents (c : Nat) : List StartEvent :=
  [.link c .writeFails, .poll c]

theorem undisturbed_otherPeer
    : ∃ tr p1 signals p2, (onePieceTask ⟨false, 3, 1, 1⟩).Run (onePieceStart ⟨false, 3, 1, 1⟩) tr p1
        ∧ (onePieceTask ⟨false, 3, 1, 1⟩).step p1 .advance = some (signals, p2)
        ∧ p1.arm = .closing 0 ∧ p1.Undisturbed 0 p2 := by
  obtain ⟨tr, p1, hrun, _, hstate⟩ :=
    ((onePieceTask ⟨false, 3, 1, 1⟩).restrict ClosesAlone).exists_run_of_exec
      (onePieceStart ⟨false, 3, 1, 1⟩)
      (greetingEvents 0 [5] ++ greetingEvents 1 [6] ++ losingEvents 0)
      (fun x => (x.2.arm, decide (x.2.ClosesAlone .advance),
        ((onePieceTask ⟨false, 3, 1, 1⟩).step x.2 .advance).isSome))
      (b := (.closing 0, true, true)) (by decide +kernel)
  simp only [Prod.mk.injEq, decide_eq_true_iff, Option.isSome_iff_exists] at hstate
  obtain ⟨harm, hguard, ⟨signals, p2⟩, hstep⟩ := hstate
  have hwhile := Machine.runWhile_of_restrict _ _ hrun
  have hrun' : (onePieceTask ⟨false, 3, 1, 1⟩).Run (onePieceStart ⟨false, 3, 1, 1⟩) tr p1 :=
    hwhile.mono fun _ _ _ => trivial
  refine ⟨tr, p1, signals, p2, hrun', hstep, harm, ?_⟩
  exact (undisturbed_iff_of_run ⟨true⟩ (MemoryTorrentIo.torrentIo ⟨true⟩) ⟨false, 3, 1, 1⟩
    (torrentFixture 2 2 [[1, 2]]) _ p2 _ (hrun'.append (.cons trivial hstep (.nil p2)))).mp
    (hwhile.append (.cons hguard hstep (.nil p2))) tr signals [] 0 p1 p2 rfl hrun' hstep harm

/--
The peer that connects twice is forgotten with its first connection.
-/
theorem not_undisturbed_samePeer
    : ∃ tr p1 signals p2, (onePieceTask ⟨false, 3, 1, 1⟩).Run (onePieceStart ⟨false, 3, 1, 1⟩) tr p1
        ∧ (onePieceTask ⟨false, 3, 1, 1⟩).step p1 .advance = some (signals, p2)
        ∧ p1.arm = .closing 0 ∧ ¬p1.Undisturbed 0 p2 := by
  obtain ⟨tr, p1, hrun, _, hstate⟩ :=
    (onePieceTask ⟨false, 3, 1, 1⟩).exists_run_of_exec (onePieceStart ⟨false, 3, 1, 1⟩)
      (greetingEvents 0 [5] ++ greetingEvents 1 [5] ++ losingEvents 0)
      (fun x => (x.2.arm, decide (x.2.ClosesAlone .advance),
        ((onePieceTask ⟨false, 3, 1, 1⟩).step x.2 .advance).isSome))
      (b := (.closing 0, false, true)) (by decide +kernel)
  simp only [Prod.mk.injEq, decide_eq_false_iff_not, Option.isSome_iff_exists] at hstate
  obtain ⟨harm, hguard, ⟨signals, p2⟩, hstep⟩ := hstate
  refine ⟨tr, p1, signals, p2, hrun, hstep, harm, ?_⟩
  rw [(advanced_of_advance hstep).undisturbed_iff (listed_of_run hrun) harm]
  exact hguard

end TorrentProcessor
