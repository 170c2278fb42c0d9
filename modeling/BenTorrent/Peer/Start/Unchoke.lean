import BenTorrent.Peer.Start.Step

/-!
This module contains when a call of `compute_unchoke` leaves the upload slots filled.
-/

open Rust

namespace Arm

def Unchokes : Arm → Prop
  | .unchoking => True
  | .choking _ => True
  | _ => False

instance (arm : Arm) : Decidable arm.Unchokes := by
  unfold Unchokes
  split
  . infer_instance
  . infer_instance
  . infer_instance

end Arm

namespace TorrentState

/--
The peers that are interested and not choked fill the slots, and they are all that is not choked.
-/
structure SlotsFilled (state : TorrentState) : Prop where
  slots : min 4 (state.peersThatAreInterested true).card
    ≤ (state.peersThatAreInterested true ∩ state.unchokedPeers).card
  interested : state.unchokedPeers ⊆ state.peersThatAreInterested true

end TorrentState

namespace TorrentProcessor

variable {σ : Type u} {p p' : TorrentProcessor σ}
variable {build : Build} {torrentIo : TorrentIo σ} {config : Config} {torrent : V1Torrent}

def SaysFlag (tr : StartTrace) (c : Nat) (flag : FlagMessages) : Prop :=
  ∃ x ∈ tr, .sent c (.flag flag) ∈ x.2

/--
What a call of `compute_unchoke` is to do: fill the slots, choke who is not interested, and tell a peer
of a change of its flag and of nothing else.
-/
structure FillsSlots (p : TorrentProcessor σ) (tr : StartTrace) (p' : TorrentProcessor σ) : Prop where
  slots : min 4 (p'.torrentState.peersThatAreInterested true).card
    ≤ (p'.torrentState.peersThatAreInterested true ∩ p'.torrentState.unchokedPeers).card
  chokes : ∀ peerId ∈ p.torrentState.unchokedPeers,
    peerId ∉ p.torrentState.peersThatAreInterested true → p'.torrentState.chokes peerId = true
  told : ∀ peerId c choked, p.peerToTx.lookup peerId = some c →
    (SaysFlag tr c (if choked then .choke else .unchoke)
      ↔ p.torrentState.chokes peerId ≠ choked ∧ p'.torrentState.chokes peerId = choked)

/--
`compute_unchoke` goes on, or has come to its end, without a change and without a message.
-/
structure Idles (p : TorrentProcessor σ) (tr : StartTrace) (p' : TorrentProcessor σ) : Prop where
  arm : p'.arm = .unchoking ∨ p'.arm = .choking [] ∨ p'.arm = .expiring
  torrentState_eq : p'.torrentState = p.torrentState
  silent : ∀ x ∈ tr, ∀ c msg, .sent c msg ∉ x.2

theorem idles_nil (harm : p.arm = .unchoking) : p.Idles [] p := by
  refine ⟨.inl harm, rfl, ?_⟩
  simp

theorem Idles.append {p1 p2 : TorrentProcessor σ} {tr : StartTrace} {event : StartEvent}
    {signals : List Signal} (h : p.Idles tr p1)
    (harm : p2.arm = p1.arm ∨ p2.arm = .choking [] ∨ p2.arm = .expiring)
    (hstate : p2.torrentState = p1.torrentState) (hsilent : ∀ c msg, .sent c msg ∉ signals)
    : p.Idles (tr ++ [(event, signals)]) p2 := by
  constructor
  . rcases harm with heq | harm
    . rw [heq]
      exact h.arm
    . exact .inr harm
  . rw [hstate, h.torrentState_eq]
  . rw [List.forall_mem_append, List.forall_mem_singleton]
    exact ⟨h.silent, hsilent⟩

theorem Idles.advanced {p1 p2 : TorrentProcessor σ} {tr : StartTrace} {signals : List Signal}
    (h : p.Idles tr p1) (hunchokes : p1.arm.Unchokes)
    (hadvance : p1.advance torrentIo torrent = some (signals, p2))
    : p.Idles (tr ++ [(.advance, signals)]) p2 := by
  rcases h.arm with harm | harm | harm
  . simp [advance, harm] at hadvance
  . simp only [advance, harm, Option.some.injEq, Prod.mk.injEq] at hadvance
    obtain ⟨rfl, rfl⟩ := hadvance
    exact h.append (.inr (.inr rfl)) rfl (by simp)
  . rw [harm] at hunchokes
    contradiction

theorem Idles.step {p1 p2 : TorrentProcessor σ} {tr : StartTrace} {event : StartEvent}
    {signals : List Signal} (h : p.Idles tr p1) (hunchokes : p1.arm.Unchokes)
    (hstep : (startTask build torrentIo config torrent).step p1 event = some (signals, p2))
    : p.Idles (tr ++ [(event, signals)]) p2 := by
  have hselect : p1.arm ≠ .select := by
    intro harm
    rw [harm] at hunchokes
    contradiction
  have hstepped := stepped_of_step hstep
  cases hstepped with
  | connected => exact h.append (.inl rfl) rfl (by simp)
  | linked => exact h.append (.inl rfl) rfl (by simp)
  | written c conn index begin block finished =>
    refine h.append (.inl rfl) rfl ?_
    split
    . simp
    . simp
  | writeFailed => exact h.append (.inl rfl) rfl (by simp)
  | polled _ _ _ harm => contradiction
  | accepted _ _ harm => contradiction
  | took _ _ _ _ harm => contradiction
  | ticked harm => contradiction
  | advanced => exact h.advanced hunchokes hstep
  | lockPending => exact h.append (.inl rfl) rfl (by simp)
  | computed _ _ _ _ _ harm =>
    rw [harm] at hunchokes
    contradiction
  | unchoked => exact h.append (.inr (.inl rfl)) rfl (by simp)
  | noneExpired _ _ _ harm =>
    rw [harm] at hunchokes
    contradiction
  | someExpired _ _ _ _ _ harm =>
    rw [harm] at hunchokes
    contradiction

theorem idles_of_run {tr : StartTrace} (harm : p.arm = .unchoking)
    (hrun : (startTask build torrentIo config torrent).RunWhile (fun p _ => p.arm.Unchokes) p tr p')
    : p.Idles tr p' := by
  apply hrun.invariant_trace (P := fun tr p' => p.Idles tr p')
  . intro tr p1 event signals p2 hunchokes hstep h
    exact h.step hunchokes hstep
  . exact idles_nil harm

/--
A call of `compute_unchoke`, up to any point of it and to its end, does what it is to do if, and only
if, there is nothing to do.
-/
theorem fillsSlots_iff_of_run (build : Build) (torrentIo : TorrentIo σ) (config : Config)
    (torrent : V1Torrent) (p p' : TorrentProcessor σ) (tr : StartTrace) (harm : p.arm = .unchoking)
    (hrun : (startTask build torrentIo config torrent).RunWhile (fun p _ => p.arm.Unchokes) p tr p')
    : FillsSlots p tr p' ↔ p.torrentState.SlotsFilled := by
  have hidles := idles_of_run harm hrun
  have hstate := hidles.torrentState_eq
  constructor
  . intro h
    constructor
    . rw [← hstate]
      exact h.slots
    . intro peerId hunchoked
      by_contra hnot
      have hchokes := h.chokes peerId hunchoked hnot
      rw [hstate] at hchokes
      simp [TorrentState.unchokedPeers, hchokes] at hunchoked
  . intro h
    constructor
    . rw [hstate]
      exact h.slots
    . intro peerId hunchoked hnot
      exact absurd (h.interested hunchoked) hnot
    . intro peerId c choked _
      rw [hstate]
      refine iff_of_false ?_ fun hchanged => hchanged.1 hchanged.2
      rintro ⟨x, hx, hsent⟩
      exact hidles.silent x hx c _ hsent

/--
The peer `[5]` is interested, the peer `[6]` says that it is not, and the timer fires.
-/
def interestEvents : List StartEvent :=
  greetingEvents 0 [5] ++ handlingEvents 0 (.flag .interested)
    ++ (greetingEvents 1 [6] ++ handlingEvents 1 (.flag .notInterested)) ++ [.tick]

instance (state : TorrentState) : Decidable state.SlotsFilled :=
  decidable_of_iff
    (min 4 (state.peersThatAreInterested true).card
        ≤ (state.peersThatAreInterested true ∩ state.unchokedPeers).card
      ∧ state.unchokedPeers ⊆ state.peersThatAreInterested true)
    ⟨fun h => ⟨h.1, h.2⟩, fun h => ⟨h.slots, h.interested⟩⟩

/--
The peer `[5]` is interested, and nobody else is there.
-/
theorem fillsSlots_onePeer
    : ∃ p tr p', p.torrentState.peersThatAreInterested true = {[5]} ∧ p.arm = .unchoking
        ∧ (onePieceTask ⟨true, 8, 1, 1⟩).RunWhile (fun p _ => p.arm.Unchokes) p tr p'
        ∧ p'.arm = .expiring ∧ FillsSlots p tr p' := by
  let always : TorrentProcessor MemoryTorrentIo → StartEvent → Prop := fun _ _ => True
  let unchokes : TorrentProcessor MemoryTorrentIo → StartEvent → Prop := fun p _ => p.arm.Unchokes
  obtain ⟨_, p, tr, p', _, hrun, hstate⟩ :=
    (onePieceTask ⟨true, 8, 1, 1⟩).exists_runs_of_exec always unchokes
      (onePieceStart ⟨true, 8, 1, 1⟩)
      (greetingEvents 0 [5] ++ handlingEvents 0 (.flag .interested) ++ [.tick])
      [.unchoke [] [], .advance]
      (fun x => (x.2.1.torrentState.peersThatAreInterested true, x.2.1.arm, x.2.2.2.arm,
        decide x.2.1.torrentState.SlotsFilled))
      (b := ({[5]}, .unchoking, .expiring, true)) (by decide +kernel)
  simp only [Prod.mk.injEq, decide_eq_true_eq] at hstate
  obtain ⟨hinterested, harm, harm', hfilled⟩ := hstate
  refine ⟨p, tr, p', hinterested, harm, hrun, harm', ?_⟩
  exact (fillsSlots_iff_of_run ⟨true⟩ _ ⟨true, 8, 1, 1⟩ _ p p' tr harm hrun).mpr hfilled

theorem not_fillsSlots_notInterested
    : ∃ tr0 p tr p', (onePieceTask ⟨true, 8, 1, 1⟩).Run (onePieceStart ⟨true, 8, 1, 1⟩) tr0 p
        ∧ p.torrentState.peersThatAreInterested true = {[5]}
        ∧ p.torrentState.unchokedPeers = {[5], [6]} ∧ p.arm = .unchoking
        ∧ (onePieceTask ⟨true, 8, 1, 1⟩).RunWhile (fun p _ => p.arm.Unchokes) p tr p'
        ∧ p'.arm = .expiring ∧ ¬FillsSlots p tr p' := by
  let always : TorrentProcessor MemoryTorrentIo → StartEvent → Prop := fun _ _ => True
  let unchokes : TorrentProcessor MemoryTorrentIo → StartEvent → Prop := fun p _ => p.arm.Unchokes
  obtain ⟨tr0, p, tr, p', hrun0, hrun, hstate⟩ :=
    (onePieceTask ⟨true, 8, 1, 1⟩).exists_runs_of_exec always unchokes
      (onePieceStart ⟨true, 8, 1, 1⟩) interestEvents [.unchoke [] [], .advance]
      (fun x => (x.2.1.torrentState.peersThatAreInterested true, x.2.1.torrentState.unchokedPeers,
        x.2.1.arm, x.2.2.2.arm, x.2.2.2.torrentState.chokes [6]))
      (b := ({[5]}, {[5], [6]}, .unchoking, .expiring, false)) (by decide +kernel)
  simp only [Prod.mk.injEq] at hstate
  obtain ⟨hinterested, hunchoked, harm, harm', hchokes⟩ := hstate
  refine ⟨tr0, p, tr, p', hrun0, hinterested, hunchoked, harm, hrun, harm', ?_⟩
  intro hfills
  have hchoked := hfills.chokes [6] (by simp [hunchoked]) (by simp [hinterested])
  rw [hchokes] at hchoked
  contradiction

end TorrentProcessor
