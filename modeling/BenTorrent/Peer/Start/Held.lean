import BenTorrent.Peer.Io.Handler
import BenTorrent.Peer.Start.Reply

/-!
This module contains that the pieces that we say we have are in the file, with the bytes that their
hashes are of, and that nothing else is sent of them.
-/

open Rust

namespace FileTorrentIo

variable {build : Build} {sha1 : Bytes → Bytes} {torrent : V1Torrent} {io io' : FileTorrentIo}
  {allocation : TorrentAllocation}

/--
The piece is complete, with bytes that the torrent's hash is of.
-/
structure Has (sha1 : Bytes → Bytes) (torrent : V1Torrent) (io : FileTorrentIo) (piece : UInt32)
    (content : Bytes) : Prop where
  holds : Holds io piece.toNat content
  length_eq : content.length = io.allocation.len piece.toNat
  hash_eq : (torrent.info.pieces[piece.toNat]?).map (·.hash) = some (sha1 content)

structure MadeFor (torrent : V1Torrent) (allocation : TorrentAllocation) (io : FileTorrentIo)
    : Prop where
  placed : io.Placed torrent.info
  hashed : Hashed torrent io
  allocation_eq : io.allocation = allocation

theorem madeFor_new (hconsistent : torrent.info.Consistent) (hfull : torrent.info.FullLast)
    (hnew : new build torrent = .ok io)
    : MadeFor torrent io.allocation io :=
  ⟨new_placed hconsistent hfull hnew, fun _ _ hget => new_hash hnew hget, rfl⟩

theorem MadeFor.writePiece (build : Build) (sha1 : Bytes → Bytes) (h : MadeFor torrent allocation io)
    (index begin : UInt32) {block : Bytes} (hblock : block.length < 2 ^ 63)
    : MadeFor torrent allocation (io.writePiece build sha1 index begin block).2 := by
  constructor
  . exact h.placed.writePiece build sha1 index begin hblock
  . exact h.hashed.writePiece build sha1 index begin block
  . rw [(writePiece_kept build sha1 io index begin block).allocation_eq, h.allocation_eq]

theorem Has.writePiece (build : Build) {piece : UInt32} {content : Bytes}
    (h : Has sha1 torrent io piece content) (hplaced : io.Placed torrent.info)
    (index begin : UInt32) {block : Bytes} (hblock : block.length < 2 ^ 63)
    : Has sha1 torrent (io.writePiece build sha1 index begin block).2 piece content := by
  constructor
  . exact h.holds.writePiece hplaced index begin hblock
  . rw [(writePiece_kept build sha1 io index begin block).allocation_eq]
    exact h.length_eq
  . exact h.hash_eq

theorem MadeFor.has_of_ok_true {index begin : UInt32} {block : Bytes}
    (h : MadeFor torrent allocation io')
    (hwrite : io.writePiece build sha1 index begin block = (.ok true, io'))
    : ∃ content, Has sha1 torrent io' index content := by
  obtain ⟨content, hholds, hlength, hhash⟩ := h.placed.holds_of_ok_true h.hashed hwrite
  exact ⟨content, hholds, hlength, hhash⟩

theorem Placed.slice_len_eq {info : V1TorrentInfo} (h : Placed io info) {i : Nat}
    (hi : i < io.allocation.totalPieces)
    : File.slice io.file.contents (i * io.allocation.maxPieceSize) (io.allocation.len i)
        =
      File.slice io.file.contents (i * io.allocation.maxPieceSize) io.allocation.maxPieceSize := by
  by_cases hlast : i = io.allocation.totalPieces - 1
  . have hlength : (i * io.allocation.maxPieceSize + io.allocation.lastPieceSize : Nat)
        = io.file.contents.length := by
      have h1 := h.laidOut.length_eq
      have h2 := h.contents_length
      rw [← hlast] at h1
      omega
    have hrest : (io.file.contents.drop (i * io.allocation.maxPieceSize)).length
        = io.allocation.lastPieceSize := by
      rw [List.length_drop]
      omega
    have hle := h.laidOut.lastPieceSize_le
    have hlen : io.allocation.len i = io.allocation.lastPieceSize := by
      rw [hlast, TorrentAllocation.len_last]
    unfold File.slice
    rw [hlen, List.take_of_length_le (by omega), List.take_of_length_le (by omega)]
  . rw [TorrentAllocation.len_of_lt _ _ (by omega)]

theorem MadeFor.readPiece_eq {piece : UInt32} {content : Bytes} (build : Build)
    (h : MadeFor torrent allocation io) (hhas : Has sha1 torrent io piece content)
    (begin length : UInt32)
    : io.readPiece build piece begin length = readOf content piece begin length :=
  hhas.holds.readPiece_eq build h.placed begin length

end FileTorrentIo

namespace TorrentProcessor

section

variable {σ : Type u} {p p' : TorrentProcessor σ}
variable {build : Build} {torrentIo : TorrentIo σ} {config : Config} {torrent : V1Torrent}

theorem Stepped.of_written {event : StartEvent} {signals : List Signal} {piece : UInt32}
    (h : p.Coherent) (hs : p.Stepped build torrentIo config torrent event signals p')
    (hmem : .written piece ∈ signals)
    : ∃ c begin block, p.HasHandler c (.writing piece begin block)
        ∧ torrentIo.writePiece p.io piece begin block = (.ok true, p'.io) := by
  cases hs with
  | written c conn index begin block finished io hget hhandler hwrite =>
    split at hmem
    . next hfinished =>
      subst hfinished
      rw [List.mem_singleton, Signal.written.injEq] at hmem
      subst hmem
      exact ⟨c, begin, block, ⟨conn, hget, hhandler⟩, hwrite⟩
    . contradiction
  | polled c _ _ harm hpolled => exact absurd (hpolled.isMessage hmem) (by simp [Signal.isMessage])
  | advanced _ _ hadvanced =>
    exact absurd (hadvanced.isMessage h hmem) (by simp [Signal.isMessage])
  | _ => simp at hmem

end

variable {build : Build} {sha1 : Bytes → Bytes} {config : Config} {torrent : V1Torrent}
  {io : FileTorrentIo} {allocation : TorrentAllocation} {p p' : TorrentProcessor FileTorrentIo}
  {tr : StartTrace}

theorem HasHandler.length_lt {c : Nat} {index begin : UInt32} {block : Bytes}
    (hhas : p.HasHandler c (.writing index begin block))
    (h : p.ForallConn fun _ conn => conn.Brings Messages.Fits)
    : block.length < 2 ^ 63 := by
  obtain ⟨conn, hget, hhandler⟩ := hhas
  have hbrings : conn.Brings Messages.Fits := h c conn hget
  have hfits : (Messages.piece index begin block).Fits := hbrings.writing index begin block hhandler
  simp only [Messages.Fits] at hfits
  omega

structure HeldKept (sha1 : Bytes → Bytes) (torrent : V1Torrent) (allocation : TorrentAllocation)
    (p : TorrentProcessor FileTorrentIo) : Prop where
  coherent : p.Coherent
  worded : p.Worded
  brings : p.ForallConn fun _ conn => conn.Brings Messages.Fits
  madeFor : FileTorrentIo.MadeFor torrent allocation p.io
  tells : ∀ piece, p.Tells piece → ∃ content, FileTorrentIo.Has sha1 torrent p.io piece content

theorem Stepped.has {event : StartEvent} {signals : List Signal} (h : HeldKept sha1 torrent allocation p)
    (hs : p.Stepped build (FileTorrentIo.torrentIo build sha1) config torrent event signals p')
    : FileTorrentIo.MadeFor torrent allocation p'.io
        ∧ ∀ piece content, FileTorrentIo.Has sha1 torrent p.io piece content →
          FileTorrentIo.Has sha1 torrent p'.io piece content := by
  rcases hs.io_eq h.coherent with heq | ⟨_, _, _, heq⟩ | ⟨c, index, begin, block, hhas, heq⟩
  . rw [heq]
    exact ⟨h.madeFor, fun _ _ hhas => hhas⟩
  . rw [heq]
    exact ⟨h.madeFor, fun _ _ hhas => hhas⟩
  . rw [heq]
    have hblock := hhas.length_lt h.brings
    exact ⟨h.madeFor.writePiece build sha1 index begin hblock,
      fun _ _ hhas => hhas.writePiece build h.madeFor.placed index begin hblock⟩

theorem HeldKept.stepped {event : StartEvent} {signals : List Signal}
    (hlt : torrent.info.pieces.length < 2 ^ 32) (h : HeldKept sha1 torrent allocation p)
    (hs : p.Stepped build (FileTorrentIo.torrentIo build sha1) config torrent event signals p')
    (hreads : p.Reads Messages.Fits event)
    : HeldKept sha1 torrent allocation p' := by
  obtain ⟨hmade, hkeeps⟩ := hs.has h
  constructor
  . exact h.coherent.stepped hs
  . exact h.worded.stepped h.coherent hs
  . exact hs.brings h.coherent hreads h.brings
  . exact hmade
  . intro piece htells'
    rcases (hs.tells hlt h.coherent).1 piece htells' with htells | hwritten
    . obtain ⟨content, hhas⟩ := h.tells piece htells
      exact ⟨content, hkeeps piece content hhas⟩
    . obtain ⟨c, begin, block, _, hwrite⟩ := hs.of_written h.coherent hwritten
      exact hmade.has_of_ok_true hwrite

theorem heldKept_new (hconsistent : torrent.info.Consistent) (hfull : torrent.info.FullLast)
    (hio : FileTorrentIo.new build torrent = .ok io)
    : HeldKept sha1 torrent io.allocation (new config torrent io) := by
  constructor
  . trivial
  . exact worded_new io
  . intro c conn hget
    contradiction
  . exact FileTorrentIo.madeFor_new hconsistent hfull hio
  . rintro piece (hmem | hmem | ⟨c, _, ⟨conn, hget, _⟩, _⟩ | htells)
    . contradiction
    . contradiction
    . contradiction
    . contradiction

theorem HeldKept.run {tr : StartTrace} (hlt : torrent.info.pieces.length < 2 ^ 32)
    (h : HeldKept sha1 torrent allocation p)
    (hrun : (startTask build (FileTorrentIo.torrentIo build sha1) config torrent).RunWhile
      (Reads Messages.Fits) p tr p')
    : HeldKept sha1 torrent allocation p'
        ∧ ∀ piece content, FileTorrentIo.Has sha1 torrent p.io piece content →
          FileTorrentIo.Has sha1 torrent p'.io piece content := by
  apply hrun.invariant (P := fun p' => HeldKept sha1 torrent allocation p'
    ∧ ∀ piece content, FileTorrentIo.Has sha1 torrent p.io piece content →
      FileTorrentIo.Has sha1 torrent p'.io piece content)
  . intro p1 event signals p2 hreads hstep ⟨hkept, hkeeps⟩
    have hs := stepped_of_step hstep
    exact ⟨hkept.stepped hlt hs hreads,
      fun piece content hhas => (hs.has hkept).2 piece content (hkeeps piece content hhas)⟩
  . exact ⟨h, fun _ _ hhas => hhas⟩

theorem heldKept_of_run {tr : StartTrace} (hconsistent : torrent.info.Consistent)
    (hfull : torrent.info.FullLast) (hlt : torrent.info.pieces.length < 2 ^ 32)
    (hio : FileTorrentIo.new build torrent = .ok io)
    (hrun : (startTask build (FileTorrentIo.torrentIo build sha1) config torrent).RunWhile
      (Reads Messages.Fits) (new config torrent io) tr p)
    : HeldKept sha1 torrent io.allocation p :=
  ((heldKept_new hconsistent hfull hio).run hlt hrun).1

def SendsOf (content : Bytes) (piece : UInt32) (p : TorrentProcessor σ) : Prop :=
  ∀ peerId begin block dequed, p.arm = .sending peerId (.piece piece begin block) dequed →
    block = File.slice content begin.toNat block.length

theorem Stepped.arm_ne_of_tells {σ : Type u} {p p' : TorrentProcessor σ} {torrentIo : TorrentIo σ}
    {event : StartEvent} {signals : List Signal} {c : Nat} {msg : Messages} {piece : UInt32}
    (hcoherent : p.Coherent) (hworded : p.Worded)
    (hs : p.Stepped build torrentIo config torrent event signals p')
    (hsent : .sent c msg ∈ signals) (htells : msg.Tells piece)
    : ∀ peerId msg' dequed, p'.arm ≠ .sending peerId msg' dequed := by
  intro peerId msg' dequed harm'
  cases hs with
  | polled d _ _ harm hpolled =>
    rcases polled_arm harm hpolled with h | ⟨h, _⟩
    . rw [h] at harm'
      contradiction
    . rw [h] at harm'
      contradiction
  | advanced _ _ hadvanced =>
    unfold Coherent at hcoherent
    cases hadvanced with
    | passed peerId1 msg1 arm1 delivery _ p1 hpasses htold hdone =>
      obtain ⟨rfl, _⟩ := htold.of_sent hsent
      generalize harm : p.arm = arm at hpasses
      cases hpasses with
      | announcing => contradiction
      | sending =>
        obtain ⟨index, begin, block, rfl⟩ := hworded.sending _ _ _ harm
        contradiction
    | passPending peerId1 msg1 arm1 _ _ hpasses htold =>
      cases htold with
      | pending => contradiction
    | dispatchPending req requests _ _ harm htold =>
      cases htold with
      | pending => contradiction
    | choked peerId1 choked combinedPeers _ _ harm =>
      rw [harm] at hcoherent
      contradiction
    | wakePending wakeUp harm =>
      rw [show p.arm = .sending peerId msg' dequed from harm'] at harm
      contradiction
    | _ => contradiction
  | written =>
    split at hsent
    . simp at hsent
    . contradiction
  | _ => simp at hsent

theorem slice_of_readOf {content block : Bytes} (piece begin length : UInt32)
    (h : FileTorrentIo.readOf content piece begin length = .ok block)
    : block = File.slice content begin.toNat block.length := by
  unfold FileTorrentIo.readOf at h
  split at h
  . next hbounds =>
    rw [Except.ok.injEq] at h
    subst h
    have hlength : (File.slice content begin.toNat length.toNat).length = length.toNat := by
      rw [File.slice, List.length_take, List.length_drop]
      omega
    rw [hlength]
  . contradiction

theorem SendsOf.stepped {event : StartEvent} {signals : List Signal} {piece : UInt32}
    {content : Bytes} (h : HeldKept sha1 torrent allocation p)
    (hhas : FileTorrentIo.Has sha1 torrent p.io piece content) (hsends : p.SendsOf content piece)
    (hs : p.Stepped build (FileTorrentIo.torrentIo build sha1) config torrent event signals p')
    : p'.SendsOf content piece
        ∧ ∀ c begin block, .sent c (.piece piece begin block) ∈ signals →
          block = File.slice content begin.toNat block.length := by
  constructor
  . intro peerId begin block dequed harm'
    have hmoves := hs.moves h.coherent
    rw [harm'] at hmoves
    generalize hsending : Arm.sending peerId (.piece piece begin block) dequed = arm at hmoves
    cases hmoves with
    | stays => exact hsends peerId begin block dequed hsending.symm
    | sends req _ block' _ _ hread =>
      rw [Arm.sending.injEq, Messages.piece.injEq] at hsending
      obtain ⟨_, ⟨hindex, hbegin, rfl⟩, _⟩ := hsending
      rw [← hindex, ← hbegin] at hread
      apply slice_of_readOf piece begin req.length
      rw [← h.madeFor.readPiece_eq build hhas]
      exact congrArg Prod.fst hread
    | _ => contradiction
  . intro c begin block hsent
    have hsays := hs.says h.coherent h.worded hsent
    generalize hmsg : Messages.piece piece begin block = msg at hsays
    cases hsays with
    | informs _ hinforms =>
      rw [← hmsg] at hinforms
      contradiction
    | request => contradiction
    | piece peerId index begin' block' dequed harm =>
      rw [Messages.piece.injEq] at hmsg
      obtain ⟨rfl, rfl, rfl⟩ := hmsg
      exact hsends peerId begin block dequed harm

theorem SendsOf.run {tr : StartTrace} {piece : UInt32} {content : Bytes}
    (hlt : torrent.info.pieces.length < 2 ^ 32) (h : HeldKept sha1 torrent allocation p)
    (hhas : FileTorrentIo.Has sha1 torrent p.io piece content) (hsends : p.SendsOf content piece)
    (hrun : (startTask build (FileTorrentIo.torrentIo build sha1) config torrent).RunWhile
      (Reads Messages.Fits) p tr p')
    : p'.SendsOf content piece
        ∧ ∀ x ∈ tr, ∀ c begin block, .sent c (.piece piece begin block) ∈ x.2 →
          block = File.slice content begin.toNat block.length := by
  induction hrun with
  | nil =>
    refine ⟨hsends, ?_⟩
    intro x hx
    contradiction
  | cons hreads hstep _ ih =>
    have hs := stepped_of_step hstep
    obtain ⟨hsends', hsent⟩ := hsends.stepped h hhas hs
    obtain ⟨hsends'', hrest⟩ := ih (h.stepped hlt hs hreads) ((hs.has h).2 piece content hhas) hsends'
    rw [List.forall_mem_cons]
    exact ⟨hsends'', hsent, hrest⟩

/--
A piece that a peer was told of is there, and no other block of it is on its way.
-/
theorem has_of_wasTold {c : Nat} {piece : UInt32} (hconsistent : torrent.info.Consistent)
    (hfull : torrent.info.FullLast) (hlt : torrent.info.pieces.length < 2 ^ 32)
    (hio : FileTorrentIo.new build torrent = .ok io)
    (hrun : (startTask build (FileTorrentIo.torrentIo build sha1) config torrent).RunWhile
      (Reads Messages.Fits) (new config torrent io) tr p)
    (htold : WasTold tr c piece)
    : ∃ content, FileTorrentIo.Has sha1 torrent p.io piece content ∧ p.SendsOf content piece := by
  obtain ⟨⟨event, signals⟩, hmem, msg, hsent, htells⟩ := htold
  obtain ⟨tr1, tr2, rfl⟩ := List.append_of_mem hmem
  obtain ⟨p1, hrun1, hrun⟩ := Machine.RunWhile.append_iff.mp hrun
  obtain ⟨p2, hreads, hstep, hrun2⟩ := Machine.RunWhile.cons_iff.mp hrun
  have hkept1 := heldKept_of_run hconsistent hfull hlt hio hrun1
  have hs := stepped_of_step hstep
  have hkept2 := hkept1.stepped hlt hs hreads
  obtain ⟨content, hhas⟩ := hkept1.tells piece
    ((hs.tells hlt hkept1.coherent).2 c msg piece hsent htells)
  replace hhas := (hs.has hkept1).2 piece content hhas
  have hsends : p2.SendsOf content piece := by
    intro peerId begin block dequed harm
    exact absurd harm (hs.arm_ne_of_tells hkept1.coherent hkept1.worded hsent htells _ _ _)
  exact ⟨content, (hkept2.run hlt hrun2).2 piece content hhas, (hsends.run hlt hkept2 hhas hrun2).1⟩

end TorrentProcessor
