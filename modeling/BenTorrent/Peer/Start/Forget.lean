import BenTorrent.Peer.Start.Close
import BenTorrent.Peer.Start.Conversation
import BenTorrent.Peer.Start.Zombie

/-!
This module contains that the loop remembers nobody whose last connection it has closed.
-/

open Rust

namespace TorrentProcessor

variable {σ : Type u} {p p' : TorrentProcessor σ} {c : Nat}
variable {build : Build} {torrentIo : TorrentIo σ} {config : Config} {torrent : V1Torrent}

/--
A connection with the peer has been greeted and is not closed.
-/
def IsConnectedTo (p : TorrentProcessor σ) (peerId : PeerId) : Prop :=
  ∃ (c : Nat) (conn : PeerConnection),
    p.connections[c]? = some conn ∧ conn.peerId = peerId ∧ conn.handler.IsConnected

inductive Remembers (p : TorrentProcessor σ) (peerId : PeerId) : Prop where
  | peers (hmem : peerId ∈ p.torrentState.peers)
  | peersInterested (hmem : peerId ∈ p.torrentState.peersInterested)
  | peersNotChoking (hmem : peerId ∈ p.torrentState.peersNotChoking)
  | peersToPieces (hmem : peerId ∈ p.torrentState.blockPeerMap.peersToPieces)
  | piecesToPeers (piece : UInt32)
      (hmem : peerId ∈ p.torrentState.blockPeerMap.getPeersWithPiece piece)
  | peerToTx (hmem : peerId ∈ p.peerToTx)

theorem phase_eq_talking_iff {conn : PeerConnection} (hget : p.connections[c]? = some conn)
    : p.phase c = .talking ↔ conn.handler.IsConnected := by
  constructor
  . intro h
    unfold phase at h
    rw [handlerAt_of_getElem? hget] at h
    refine ⟨?_, ?_, ?_⟩
    . intro hhandler
      simp [hhandler, Handler.phase] at h
    . intro hhandler
      simp only [hhandler, Handler.phase] at h
      split at h
      . contradiction
      . contradiction
    . intro hhandler
      simp [hhandler, Handler.phase] at h
  . exact phase_of_talking (handlerAt_of_getElem? hget)

theorem Stepped.isConnected {event : StartEvent} {signals : List Signal} {conn : PeerConnection}
    (hcoherent : p.Coherent) (hspeaks : p.Speaks)
    (hs : p.Stepped build torrentIo config torrent event signals p')
    (hget : p.connections[c]? = some conn) (hconnected : conn.handler.IsConnected)
    : (∃ conn', p'.connections[c]? = some conn' ∧ conn'.peerId = conn.peerId
        ∧ conn'.handler.IsConnected)
      ∨ conn.peerId ∉ p'.torrentState.peers := by
  obtain ⟨conn', hget', hid⟩ := hs.getElem? hcoherent hget
  have hconverses := hs.converses hcoherent hspeaks c
  rw [(phase_eq_talking_iff hget).mpr hconnected] at hconverses
  have hphase : p'.phase c = .talking → ∃ conn', p'.connections[c]? = some conn'
      ∧ conn'.peerId = conn.peerId ∧ conn'.handler.IsConnected :=
    fun htalking => ⟨conn', hget', hid, (phase_eq_talking_iff hget').mp htalking⟩
  generalize p'.phase c = phase' at hconverses hphase
  generalize sentTo c signals = said at hconverses
  cases hconverses with
  | silent => exact .inl (hphase rfl)
  | said => exact .inl (hphase rfl)
  | left hforgot => exact .inr (hforgot conn hget).2

def PeersConnected (p : TorrentProcessor σ) : Prop :=
  ∀ peerId ∈ p.torrentState.peers, p.IsConnectedTo peerId

theorem PeersConnected.stepped {event : StartEvent} {signals : List Signal} (h : p.PeersConnected)
    (hcoherent : p.Coherent) (hspeaks : p.Speaks)
    (hs : p.Stepped build torrentIo config torrent event signals p')
    : p'.PeersConnected := by
  intro peerId hmem'
  -- a handler that makes an entry is one of a connection that is served
  have hconnected : p.IsConnectedTo peerId := by
    rcases hs.mem_peers hcoherent hmem' with hmem | ⟨c, conn, job, _, hget, hid, hhandler, _⟩
    . exact h peerId hmem
    . refine ⟨c, conn, hget, hid, ?_⟩
      simp [Handler.IsConnected, hhandler]
  obtain ⟨c, conn, hget, rfl, hconnected⟩ := hconnected
  rcases hs.isConnected hcoherent hspeaks hget hconnected with ⟨conn', hserved⟩ | hforgot
  . exact ⟨c, conn', hserved⟩
  . contradiction

theorem peersConnected_of_run {io : σ} {tr : StartTrace}
    (hrun : (startTask build torrentIo config torrent).Run (new config torrent io) tr p)
    : p.PeersConnected := by
  suffices h : (startTask build torrentIo config torrent).Run (new config torrent io) tr p
      ∧ p.PeersConnected from h.2
  apply hrun.invariant_trace (P := fun tr p =>
    (startTask build torrentIo config torrent).Run (new config torrent io) tr p ∧ p.PeersConnected)
  . intro tr p event signals p' _ hstep ⟨hrun, hconnected⟩
    exact ⟨hrun.append (.cons trivial hstep (.nil _)),
      hconnected.stepped (coherent_of_run hrun) (speaks_of_run hrun) (stepped_of_step hstep)⟩
  . refine ⟨.nil _, ?_⟩
    intro peerId hmem
    exact absurd hmem Finmap.notMem_empty

theorem indexListed_of_run {io : σ} {tr : StartTrace}
    (hrun : (startTask build torrentIo config torrent).Run (new config torrent io) tr p)
    : p.torrentState.IndexListed := by
  obtain ⟨calls, hcalls⟩ := exists_run_torrentState hrun
  apply hcalls.invariant
  . intro state event reply state' _ hstep h
    exact h.step hstep
  . exact TorrentState.indexListed_new config.maxOutstandingRequests torrent.info.pieces

/--
Whoever is in a table of the loop has a connection that it serves, under whatever ids the peers
come and go.
-/
theorem connected_of_run {io : σ} {tr : StartTrace}
    (hrun : (startTask build torrentIo config torrent).Run (new config torrent io) tr p)
    : ∀ peerId, p.Remembers peerId → p.IsConnectedTo peerId := by
  have hpeers := peersConnected_of_run hrun
  have hlisted := listed_of_run hrun
  intro peerId hremembers
  cases hremembers with
  | peers hmem => exact hpeers peerId hmem
  | peersInterested hmem => exact hpeers peerId (hlisted.interested peerId hmem)
  | peersNotChoking hmem => exact hpeers peerId (hlisted.notChoking peerId hmem)
  | peersToPieces hmem => exact hpeers peerId (indexListed_of_run hrun peerId hmem)
  | piecesToPeers piece hmem =>
    exact hpeers peerId (hlisted.has peerId piece ((hlisted.mirrored.mem_iff peerId piece).mp hmem))
  | peerToTx hmem =>
    obtain ⟨c, hlookup⟩ := Finmap.mem_iff.mp hmem
    obtain ⟨conn, hget, hid⟩ := txOwn_of_run hrun peerId c hlookup
    refine ⟨c, conn, hget, hid, ?_⟩
    exact (phase_eq_talking_iff hget).mp ((speaks_of_run hrun).reached peerId c hlookup)

/--
The first peer has told of its piece and is gone when the second one is there.
-/
theorem connected_firstLeft
    : ∃ tr p, (onePieceTask ⟨false, 8, 8, 1⟩).Run (onePieceStart ⟨false, 8, 8, 1⟩) tr p
        ∧ p.Remembers [6] ∧ ¬p.Remembers [5]
        ∧ ∀ peerId, p.Remembers peerId → p.IsConnectedTo peerId := by
  obtain ⟨tr, p, hrun, _, hstate⟩ := (onePieceTask ⟨false, 8, 8, 1⟩).exists_run_of_exec
    (onePieceStart ⟨false, 8, 8, 1⟩)
    (greetingEvents 0 [5] ++ handlingEvents 0 (.have 0) ++ greetingEvents 1 [6]
      ++ [.link 0 .writeFails, .poll 0, .advance])
    (fun x => (decide ([6] ∈ x.2.peerToTx),
      x.2.connections.map fun conn => (conn.peerId, conn.handler)))
    (b := (true, [([5], .closed), ([6], .receiving)])) (by decide +kernel)
  rw [Prod.mk.injEq, decide_eq_true_iff] at hstate
  obtain ⟨hmem, hconns⟩ := hstate
  have hconnected : ∀ peerId, p.Remembers peerId → p.IsConnectedTo peerId :=
    connected_of_run hrun
  refine ⟨tr, p, hrun, .peerToTx hmem, ?_, hconnected⟩
  intro hremembers
  obtain ⟨c, conn, hget, hid, hhandler⟩ := hconnected [5] hremembers
  have hconn : (conn.peerId, conn.handler) ∈ p.connections.map fun conn => (conn.peerId, conn.handler) :=
    List.mem_map_of_mem (List.mem_of_getElem? hget)
  rw [hconns, hid] at hconn
  have hclosed : conn.handler = .closed := by simpa using hconn
  simp [Handler.IsConnected, hclosed] at hhandler

end TorrentProcessor
