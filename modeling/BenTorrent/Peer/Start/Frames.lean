import BenTorrent.Peer.Io.Integrity
import BenTorrent.Peer.Net
import BenTorrent.Peer.Start.Announce
import BenTorrent.Peer.Start.Conversation
import BenTorrent.Peer.Start.Reply

/-!
This module contains that whatever the loop sends fits into frames, and comes out at the other end.
-/

open Rust

namespace BitFieldWriter

end BitFieldWriter

theorem Messages.IsLater.fits {msg : Messages} {n : Nat} (h : msg.IsLater) (hn : n + 9 < 2 ^ 32)
    (hblock : ∀ index begin block, msg = .piece index begin block → block.length ≤ n)
    : msg.Fits := by
  cases msg with
  | piece index begin block =>
    have hle := hblock index begin block rfl
    simp only [Messages.Fits]
    omega
  | bitField => exact absurd h id
  | _ => trivial

namespace FileTorrentIo

variable {build : Build} {info : V1TorrentInfo} {io : FileTorrentIo}

theorem length_le_of_readPiece {index begin length : UInt32} {block : Bytes}
    (h : TorrentAllocation.LaidOut io.allocation info)
    (hread : io.readPiece build index begin length = .ok block)
    : block.length ≤ io.allocation.maxPieceSize := by
  unfold readPiece at hread
  split at hread
  . simp only [Outcome.bind_eq_ok] at hread
    obtain ⟨endPos, hend, pieceLen, hlen, hread⟩ := hread
    have hbegin := begin.toNat_lt
    have hlength := length.toNat_lt
    rw [Build.usizeAdd_of_fits _ _ _ (by omega), Except.ok.injEq] at hend
    rw [TorrentAllocation.pieceLen_eq _ _ _ h.totalPieces_pos h.totalPieces_le,
      Except.ok.injEq] at hlen
    split at hread
    . contradiction
    . split at hread
      . contradiction
      . simp only [Outcome.bind_eq_ok, Prod.exists, pure, Except.pure, Except.ok.injEq] at hread
        obtain ⟨file, _, block', file', hblock, rfl⟩ := hread
        obtain ⟨rfl, _⟩ := FilePieceState.readBlock_eq_ok hblock
        have hle := h.len_le index.toNat
        rw [File.slice, List.length_take, List.length_drop]
        omega
  . contradiction

end FileTorrentIo

namespace TorrentProcessor

variable {build : Build} {sha1 : Bytes → Bytes} {config : Config} {torrent : V1Torrent}
  {io : FileTorrentIo} {allocation : TorrentAllocation} {p p' : TorrentProcessor FileTorrentIo}
  {tr : StartTrace} {c : Nat}

structure BlocksKept (allocation : TorrentAllocation) (tr : StartTrace)
    (p : TorrentProcessor FileTorrentIo) : Prop where
  allocation_eq : p.io.allocation = allocation
  sending : ∀ peerId index begin block dequed,
    p.arm = .sending peerId (.piece index begin block) dequed → block.length ≤ allocation.maxPieceSize
  sent : ∀ c index begin block, .piece index begin block ∈ sentIn c tr →
    block.length ≤ allocation.maxPieceSize

theorem Stepped.allocation_eq {event : StartEvent} {signals : List Signal} (h : p.Coherent)
    (hs : p.Stepped build (FileTorrentIo.torrentIo build sha1) config torrent event signals p')
    : p'.io.allocation = p.io.allocation := by
  rcases hs.io_eq h with heq | ⟨_, _, _, heq⟩ | ⟨_, index, begin, block, _, heq⟩
  . rw [heq]
  . rw [heq]
    rfl
  . rw [heq]
    exact (FileTorrentIo.writePiece_kept build sha1 p.io index begin block).allocation_eq

theorem mem_sentTo {signals : List Signal} {msg : Messages}
    : msg ∈ sentTo c signals ↔ .sent c msg ∈ signals := by
  unfold sentTo
  rw [List.mem_filterMap]
  constructor
  . rintro ⟨signal, hmem, htoPeer⟩
    unfold Signal.toPeer at htoPeer
    split at htoPeer
    . split at htoPeer
      . next hd =>
        rw [Option.some.injEq] at htoPeer
        rwa [← hd, ← htoPeer]
      . contradiction
    . contradiction
  . intro hmem
    exact ⟨_, hmem, by rw [Signal.toPeer, if_pos rfl]⟩

theorem BlocksKept.stepped {event : StartEvent} {signals : List Signal}
    (hlaid : TorrentAllocation.LaidOut allocation torrent.info) (hcoherent : p.Coherent)
    (hworded : p.Worded) (h : BlocksKept allocation tr p)
    (hs : p.Stepped build (FileTorrentIo.torrentIo build sha1) config torrent event signals p')
    : BlocksKept allocation (tr ++ [(event, signals)]) p' := by
  constructor
  . rw [hs.allocation_eq hcoherent, h.allocation_eq]
  . intro peerId index begin block dequed harm'
    have hmoves := hs.moves hcoherent
    rw [harm'] at hmoves
    generalize hsending : Arm.sending peerId (.piece index begin block) dequed = arm at hmoves
    cases hmoves with
    | stays => exact h.sending peerId index begin block dequed hsending.symm
    | sends req _ block' _ _ hread =>
      rw [Arm.sending.injEq, Messages.piece.injEq] at hsending
      obtain ⟨_, ⟨_, _, rfl⟩, _⟩ := hsending
      have hread' : p.io.readPiece build req.index req.begin req.length = .ok block :=
        congrArg Prod.fst hread
      have hle := FileTorrentIo.length_le_of_readPiece (h.allocation_eq ▸ hlaid) hread'
      rwa [h.allocation_eq] at hle
    | _ => contradiction
  . intro c index begin block hmem
    rw [sentIn_append_singleton, List.mem_append] at hmem
    rcases hmem with hmem | hmem
    . exact h.sent c index begin block hmem
    . have hsays := hs.says hcoherent hworded (mem_sentTo.mp hmem)
      generalize hmsg : Messages.piece index begin block = msg at hsays
      cases hsays with
      | informs _ hinforms =>
        rw [← hmsg] at hinforms
        contradiction
      | request => contradiction
      | piece peerId index' begin' block' dequed harm =>
        rw [← hmsg] at harm
        exact h.sending peerId index begin block dequed harm

end TorrentProcessor
