import BenTorrent.Peer.Start.Ask
import BenTorrent.Peer.Start.Progress
import BenTorrent.Peer.Start.Wait

/-!
This module contains that each arm of the loop ends: how many steps an arm has left, and that a step
which leaves them as they are leaves the loop waiting.
-/

open Rust

/--
How many steps take the loop from here back to its select, at most, when no more than
`maxOutstandingRequests` requests are made in one arm.
-/
def Arm.stepsLeft (maxOutstandingRequests : Nat) : Arm → Nat
  | .select => 0
  | .initConnection _ => 5
  | .greeting _ msgs => msgs.length + 1
  | .closing _ => 1
  | .announcing _ peerIds => peerIds.length + maxOutstandingRequests + 13
  | .queueing _ => maxOutstandingRequests + 13
  | .computing => maxOutstandingRequests + 12
  | .dispatching requests => requests.length + 11
  | .dequeueing => 10
  -- a block is read for each before it is sent
  | .answering dequed => 2 * dequed.length + 1
  | .sending _ _ dequed => 2 * dequed.length + 2
  | .unchoking => 4
  | .choking combinedPeers => combinedPeers.length + 3
  | .expiring => 2
  | .wakingUp => 1

namespace PieceBlockTracker

variable {build : Build} {torrent : V1Torrent}

theorem Bounded.length_generateAssignments_le {maxOutstandingRequests : Nat}
    {tracker tracker' : PieceBlockTracker} {now : UInt32 → Nat}
    {available : List (UInt32 × List PeerId)} {requests : List PeerRequestedPiece}
    (h : tracker.Bounded maxOutstandingRequests) (hmax : maxOutstandingRequests < 2 ^ 64)
    (hfit : torrent.PiecesFit build)
    (hassign : (tracker.generateAssignments build torrent now available : Outcome AnyError _)
      = .ok (requests, tracker'))
    : requests.length ≤ maxOutstandingRequests := by
  have hle := (h.generateAssignments hmax hassign).len_le
  have hlen := (generateAssignments_len (PieceBlockAllocation.offsetsFit_of_mem hfit) hassign).2
  omega

end PieceBlockTracker

namespace TorrentProcessor

variable {σ : Type u} {p p' : TorrentProcessor σ} {c : Nat}

/--
The loop is in line for the lock, for a slot in the channel of a connection that reads on, or for one
in its own channel.
-/
def Waits (p : TorrentProcessor σ) : Prop :=
  .mainLoop ∈ p.lock.waiting ∨ (∃ c, p.LoopWaits c) ∨ .mainLoop ∈ p.wakeUp.waiting

theorem waits_of_lock {lock : Mutex Party} (h : p.lock.lock .mainLoop = (false, lock))
    : Waits { p with lock } := by
  left
  dsimp only
  rw [(Mutex.lock_eq_false h).2.1]
  split
  . assumption
  . simp

theorem Delivered.waits {msg : Messages} (h : p.Delivered .mainLoop c msg .pending p')
    (htarget : p.target = some c)
    : p'.Waits := by
  cases h with
  | pending conn outbound hget hopen hsend =>
    refine .inr (.inl ⟨c, htarget, { conn with outbound }, ?_, hopen, ?_⟩)
    . exact getElem?_update.mpr ⟨conn, hget, by rw [if_pos rfl]⟩
    . exact (Channel.send_eq_false hsend).2.2.2.2.1

theorem Told.waits {peerId : PeerId} {msg : Messages} {signals : List Signal}
    (h : p.Told peerId msg .pending signals p') (htarget : p.target = p.peerToTx.lookup peerId)
    : p'.Waits := by
  cases h with
  | pending c _ hlookup hdelivered => exact hdelivered.waits (htarget.trans hlookup)

theorem Passes.target_eq {peerId : PeerId} {msg : Messages} {arm : Arm}
    (h : Passes p.arm peerId msg arm)
    : p.target = p.peerToTx.lookup peerId := by
  unfold target
  generalize p.arm = arm' at h
  cases h with
  | announcing => rfl
  | sending => rfl

theorem Passes.stepsLeft_lt {arm arm' : Arm} {peerId : PeerId} {msg : Messages} (n : Nat)
    (h : Passes arm peerId msg arm')
    : arm'.stepsLeft n < arm.stepsLeft n := by
  cases h with
  | announcing pieceId peerId peerIds =>
    simp only [Arm.stepsLeft, List.length_cons]
    omega
  | sending peerId msg dequed =>
    simp only [Arm.stepsLeft]
    omega

def Ends (n : Nat) (p p' : TorrentProcessor σ) : Prop :=
  p'.arm.stepsLeft n < p.arm.stepsLeft n ∨ (p'.arm = p.arm ∧ p'.Waits)

variable {build : Build} {torrentIo : TorrentIo σ} {config : Config} {torrent : V1Torrent}

theorem Advanced.ends {signals : List Signal} (n : Nat) (h : p.Coherent)
    (ha : p.Advanced torrentIo torrent signals p')
    : Ends n p p' := by
  unfold Ends
  cases ha with
  | lockPending lock hlock => exact .inr ⟨rfl, waits_of_lock hlock⟩
  | greetPending c msg msgs _ harm hdelivered =>
    refine .inr ⟨hdelivered.arm_eq, hdelivered.waits ?_⟩
    unfold target
    rw [harm]
  | passPending peerId msg arm _ _ hpasses htold =>
    exact .inr ⟨htold.arm_eq, htold.waits hpasses.target_eq⟩
  | dispatchPending req requests _ _ harm htold =>
    refine .inr ⟨htold.arm_eq, htold.waits ?_⟩
    unfold target
    rw [harm]
  | wakePending wakeUp harm hsend =>
    exact .inr ⟨rfl, .inr (.inr (Channel.send_eq_false hsend).2.2.2.2.1)⟩
  | choked peerId choked combinedPeers _ _ harm =>
    unfold Coherent at h
    rw [harm] at h
    contradiction
  | passed peerId msg arm delivery _ p1 hpasses => exact .inl (hpasses.stepsLeft_lt n)
  | dequeued lock harm =>
    left
    have htake : (p.outstandingPeerRequests.take 4).length ≤ 4 := List.length_take_le ..
    rw [harm]
    change 2 * (p.outstandingPeerRequests.take 4).length + 1 < 10
    omega
  | initConnection c lock harm =>
    left
    rw [harm]
    exact (by decide : 3 + 1 < 5)
  | announced _ harm
  | answerSkipped _ _ harm
  | answerRead _ _ _ _ harm =>
    left
    rw [harm]
    simp only [setArm, Arm.stepsLeft, List.length_nil, List.length_cons]
    omega
  | greeted _ _ _ _ harm
  | queued _ _ harm
  | dispatched _ _ _ _ harm
  | undelivered _ _ harm
  | dispatchedAll harm
  | chokedAll harm =>
    left
    rw [harm]
    exact Nat.lt_succ_self _
  -- the arms that end here
  | greetClosed _ _ _ harm
  | registered _ _ harm
  | closing _ _ _ harm
  | answerFailed _ _ _ _ harm
  | answeredAll harm
  | wokeUp _ harm =>
    left
    rw [harm]
    exact Nat.succ_pos _

theorem Stepped.ends {event : StartEvent} {signals : List Signal} {n : Nat}
    (hbounded : p.tracker.Bounded n) (hmax : n < 2 ^ 64) (hfit : torrent.PiecesFit build)
    (h : p.Coherent) (harm : p.arm ≠ .select)
    (hs : p.Stepped build torrentIo config torrent event signals p')
    : (event.IsOfArm → Ends n p p') ∧ (¬event.IsOfArm → p'.arm = p.arm) := by
  cases hs with
  | connected => exact ⟨False.elim, fun _ => rfl⟩
  | linked => exact ⟨False.elim, fun _ => rfl⟩
  | written => exact ⟨False.elim, fun _ => rfl⟩
  | writeFailed => exact ⟨False.elim, fun _ => rfl⟩
  | polled _ _ _ hselect => exact absurd hselect harm
  | accepted _ _ hselect => exact absurd hselect harm
  | took _ _ _ _ hselect => exact absurd hselect harm
  | ticked hselect => exact absurd hselect harm
  | advanced _ _ hadvanced => exact ⟨fun _ => hadvanced.ends n h, fun hnot => absurd trivial hnot⟩
  | lockPending _ lock _ hlock => exact ⟨fun _ => .inr ⟨rfl, waits_of_lock hlock⟩, fun _ => rfl⟩
  | computed available now lock requests tracker hcomputing hlock hiterates hassign =>
    refine ⟨fun _ => .inl ?_, fun hnot => absurd trivial hnot⟩
    have hlen := hbounded.length_generateAssignments_le hmax hfit hassign
    rw [hcomputing]
    change requests.length + 11 < n + 12
    omega
  | unchoked _ _ lock hunchoking =>
    refine ⟨fun _ => .inl ?_, fun hnot => absurd trivial hnot⟩
    rw [hunchoking]
    exact Nat.lt_succ_self _
  | noneExpired _ lock tracker hexpiring =>
    refine ⟨fun _ => .inl ?_, fun hnot => absurd trivial hnot⟩
    rw [hexpiring]
    exact Nat.succ_pos _
  | someExpired _ lock req requests tracker hexpiring =>
    refine ⟨fun _ => .inl ?_, fun hnot => absurd trivial hnot⟩
    rw [hexpiring]
    exact Nat.lt_succ_self _

section

variable (build : Build) (torrentIo : TorrentIo σ) (config : Config) (torrent : V1Torrent)

end

end TorrentProcessor
