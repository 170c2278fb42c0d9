import BenTorrent.Peer.Io.Memory
import BenTorrent.Peer.Io.Verification
import BenTorrent.Peer.State.Tracker

/-!
This module contains that the blocks the tracker asks for make up the piece, and that the file and
the memory take them in any order.
-/

open Rust
open Interval (Runs covered)

namespace PieceBlockAllocation

/--
The requests are for the blocks of a piece, each for one of its own, and for all of them.
-/
structure Splits (pieceSize : Nat) (requests : List PeerRequestedPiece) : Prop where
  nodup : (requests.map (·.begin)).Nodup
  block : ∀ req ∈ requests, req.begin.toNat ∈ blockBegins pieceSize
    ∧ req.length.toNat = min pieceBlockSize (pieceSize - req.begin.toNat)
  complete : ∀ begin ∈ blockBegins pieceSize, ∃ req ∈ requests, req.begin.toNat = begin

theorem Splits.perm {pieceSize : Nat} {requests requests' : List PeerRequestedPiece}
    (h : Splits pieceSize requests) (hperm : requests'.Perm requests)
    : Splits pieceSize requests' := by
  constructor
  . rw [(hperm.map _).nodup_iff]
    apply h.nodup
  . intro req hreq
    exact h.block req (hperm.mem_iff.mp hreq)
  . intro begin hbegin
    obtain ⟨req, hreq, heq⟩ := h.complete begin hbegin
    exact ⟨req, hperm.mem_iff.mpr hreq, heq⟩

theorem Splits.awaits {size : Nat} {requests : List PeerRequestedPiece} (h : Splits size requests)
    (hpos : 0 < size) (hlt : size < 2 ^ 32)
    : (Slices.new size).Awaits (requests.map fun req => (req.begin, req.length)) := by
  have hbounds : ∀ req ∈ requests, req.begin.toNat % 16384 = 0
      ∧ 0 < req.length.toNat ∧ req.begin.toNat + req.length.toNat ≤ size
      ∧ req.length.toNat ≤ 16384 := by
    intro req hreq
    obtain ⟨hbegin, hlength⟩ := h.block req hreq
    rw [mem_blockBegins, pieceBlockSize] at hbegin
    rw [pieceBlockSize] at hlength
    omega
  have hrange : ∀ req ∈ requests, ∀ x, x ∈ Slices.blockRange (req.begin, req.length)
      ↔ req.begin.toNat ≤ x.toNat ∧ x.toNat < req.begin.toNat + req.length.toNat := by
    intro req hreq
    have := hbounds req hreq
    apply Slices.mem_blockRange
    dsimp only
    omega
  constructor
  . exact Interval.runs_nil
  . exact hpos
  . exact hlt
  . intro block hblock
    rw [List.mem_map] at hblock
    obtain ⟨req, hreq, rfl⟩ := hblock
    have := hbounds req hreq
    exact ⟨this.2.1, this.2.2.1⟩
  . rw [List.pairwise_map]
    refine (List.pairwise_map.mp h.nodup).imp_of_mem ?_
    intro req1 req2 hreq1 hreq2 hne
    rw [Set.disjoint_left]
    intro x hx1 hx2
    rw [hrange req1 hreq1] at hx1
    rw [hrange req2 hreq2] at hx2
    have h1 := hbounds req1 hreq1
    have h2 := hbounds req2 hreq2
    apply hne
    apply UInt32.toNat_inj.mp
    omega
  . intro block _
    apply Set.disjoint_left.mpr
    intro x hx
    obtain ⟨s, hs, _⟩ := hx
    contradiction
  . intro x
    have hnil : x ∉ covered (Slices.new size).slices := by
      intro hx
      obtain ⟨s, hs, _⟩ := hx
      contradiction
    constructor
    . intro hx
      -- the block whose multiple is the last not behind `x`
      have hx' : x.toNat < size := hx
      obtain ⟨req, hreq, hbegin⟩ := h.complete (x.toNat / 16384 * 16384) (by
        rw [mem_blockBegins, pieceBlockSize]
        omega)
      have hlength := (h.block req hreq).2
      rw [pieceBlockSize] at hlength
      refine .inr ⟨_, List.mem_map_of_mem hreq, ?_⟩
      rw [hrange req hreq]
      omega
    . intro hx
      obtain ⟨block, hblock, hx⟩ := hx.resolve_left hnil
      rw [List.mem_map] at hblock
      obtain ⟨req, hreq, rfl⟩ := hblock
      rw [hrange req hreq] at hx
      have := hbounds req hreq
      have hsize : (Slices.new size).expectedSize = size := rfl
      omega

theorem pieceSize_of_laidOut {ε : Type u} {build : Build} {torrent : V1Torrent}
    {allocation : TorrentAllocation}
    (halloc : (TorrentAllocation.allocateTorrent build torrent : Outcome ε _) = .ok allocation)
    (hlaid : TorrentAllocation.LaidOut allocation torrent.info)
    (hn : torrent.info.pieces.length < 2 ^ 32) (index : UInt32)
    : (pieceSize build torrent index : Outcome ε _) = .ok (allocation.len index.toNat) := by
  have hpos := hlaid.totalPieces_pos
  have hu32 : UInt32.size = 2 ^ 32 := rfl
  have hone : (1 : UInt32).toNat = 1 := rfl
  rw [hlaid.totalPieces_eq] at hpos
  have hto : (UInt32.ofNat torrent.info.pieces.length).toNat = torrent.info.pieces.length :=
    UInt32.toNat_ofNat_of_lt' (by omega)
  have hle : (1 : UInt32).toNat ≤ (UInt32.ofNat torrent.info.pieces.length).toNat := by omega
  have hlast : index = UInt32.ofNat torrent.info.pieces.length - 1
      ↔ index.toNat = allocation.totalPieces - 1 := by
    rw [← UInt32.toNat_inj, UInt32.toNat_sub_of_le _ _ (UInt32.le_iff_toNat_le.mpr hle), hto, hone,
      hlaid.totalPieces_eq]
  unfold pieceSize TorrentAllocation.len
  rw [halloc, Outcome.ok_bind, Build.u32Sub_of_fits _ _ _ hle, Outcome.ok_bind]
  simp only [hlast]
  rfl

end PieceBlockAllocation

open PieceBlockAllocation (blockBegins mem_blockBegins Splits offsetsFit_of_mem
  offsetsFit_of_piecesFit)

variable {build : Build} {torrent : V1Torrent}

namespace PieceBlockTracker

def requestsOf (index : UInt32) (tr : List (TrackerEvent × TrackerReply)) : List PeerRequestedPiece :=
  tr.flatMap fun x =>
    match x.2 with
    | .assigned requests => requests.filter fun req => req.index = index
    | _ => []

def OnlyRequests : PieceBlockTracker → TrackerEvent → Prop
  | _, .generateAssignments _ _ => True
  | _, .setRequestFinished _ _ => True
  | _, _ => False

structure HandsOut (index : UInt32) (size : Nat) (tr : List (TrackerEvent × TrackerReply))
    (tracker : PieceBlockTracker) : Prop where
  nodup : ((requestsOf index tr).map (·.begin)).Nodup
  block : ∀ req ∈ requestsOf index tr, req.begin.toNat ∈ blockBegins size
    ∧ req.length.toNat = min pieceBlockSize (size - req.begin.toNat)
  held_iff : ∀ begin, tracker.Held ⟨index, begin⟩ ↔ ∃ req ∈ requestsOf index tr, req.begin = begin

theorem RequestFor.block_eq {pieceId : UInt32} {peerIds : List PeerId} {req : PeerRequestedPiece}
    {size : Nat} (hfit : torrent.PiecesFit build)
    (hsize : (PieceBlockAllocation.pieceSize build torrent pieceId : Outcome AnyError _) = .ok size)
    (h : RequestFor build torrent pieceId peerIds req)
    : req.begin.toNat ∈ blockBegins size
        ∧ req.length.toNat = min pieceBlockSize (size - req.begin.toNat) := by
  obtain ⟨size', begin, hsize', hbegin, hblock⟩ := h.block
  rw [hsize, Except.ok.injEq] at hsize'
  subst hsize'
  have hlt := PieceBlockAllocation.pieceSize_lt hfit hsize
  have hbegin' := (mem_blockBegins.mp hbegin).2
  have hu32 : UInt32.size = 2 ^ 32 := rfl
  have hto : req.begin.toNat = begin := by
    rw [(PieceBlockAllocation.blockRequest_eq_ok hblock).2.2]
    apply UInt32.toNat_ofNat_of_lt' (by omega)
  rw [hto]
  exact ⟨hbegin, PieceBlockAllocation.length_of_blockRequest hlt hbegin' hblock⟩

theorem HandsOut.assigned {index : UInt32} {size : Nat} {tr : List (TrackerEvent × TrackerReply)}
    {tracker tracker' : PieceBlockTracker} {event : TrackerEvent} {requests : List PeerRequestedPiece}
    (h : HandsOut index size tr tracker) (hassigns : tracker.Assigns requests tracker')
    (hblock : ∀ req ∈ requests, req.index = index → req.begin.toNat ∈ blockBegins size
      ∧ req.length.toNat = min pieceBlockSize (size - req.begin.toNat))
    : HandsOut index size (tr ++ [(event, .assigned requests)]) tracker' := by
  have happend : requestsOf index (tr ++ [(event, .assigned requests)])
      = requestsOf index tr ++ requests.filter fun req => req.index = index := by
    simp [requestsOf]
  have hmem : ∀ req, req ∈ (requests.filter fun req => req.index = index)
      ↔ req ∈ requests ∧ req.index = index := by
    intro req
    simp
  constructor
  . rw [happend, List.map_append, List.nodup_append']
    refine ⟨h.nodup, ?_, ?_⟩
    . have hsub : ((requests.filter fun req => req.index = index).map PeerRequestedPiece.key).Nodup :=
        hassigns.nodup.sublist (List.filter_sublist.map _)
      have hkeys : (requests.filter fun req => req.index = index).map PeerRequestedPiece.key
          = ((requests.filter fun req => req.index = index).map (·.begin)).map fun begin =>
              ⟨index, begin⟩ := by
        rw [List.map_map]
        apply List.map_congr_left
        intro req hreq
        simp [PeerRequestedPiece.key, ((hmem req).mp hreq).2]
      rw [hkeys] at hsub
      apply List.Nodup.of_map _ hsub
    . intro begin hbegin1 hbegin2
      rw [List.mem_map] at hbegin1 hbegin2
      obtain ⟨req2, hreq2, rfl⟩ := hbegin2
      rw [hmem] at hreq2
      apply hassigns.fresh req2 hreq2.1
      rw [PeerRequestedPiece.key, hreq2.2, h.held_iff]
      exact hbegin1
  . intro req hreq
    rw [happend, List.mem_append, hmem] at hreq
    cases hreq with
    | inl hreq => exact h.block req hreq
    | inr hreq => exact hblock req hreq.1 hreq.2
  . intro begin
    rw [hassigns.held_iff, h.held_iff, happend]
    simp only [List.mem_append, hmem, PeerRequestedPiece.key, PieceToBlockKey.mk.injEq]
    grind

theorem HandsOut.finished {index : UInt32} {size : Nat} {tr : List (TrackerEvent × TrackerReply)}
    {tracker tracker' : PieceBlockTracker} {event : TrackerEvent} {found : Bool}
    (h : HandsOut index size tr tracker) (hheld : ∀ key, tracker'.Held key ↔ tracker.Held key)
    : HandsOut index size (tr ++ [(event, .finished found)]) tracker' := by
  have happend : requestsOf index (tr ++ [(event, .finished found)]) = requestsOf index tr := by
    simp [requestsOf]
  constructor
  . rw [happend]
    apply h.nodup
  . rw [happend]
    apply h.block
  . intro begin
    rw [hheld, happend]
    apply h.held_iff

theorem HandsOut.run {maxOutstandingRequests : Nat} {pieces : List V1Piece}
    {tr : List (TrackerEvent × TrackerReply)} {tracker : PieceBlockTracker} {index : UInt32}
    {size : Nat} (hfit : torrent.PiecesFit build)
    (hsize : (PieceBlockAllocation.pieceSize build torrent index : Outcome AnyError _) = .ok size)
    (hrun : (trackerTask build torrent).RunWhile OnlyRequests (.new maxOutstandingRequests pieces)
      tr tracker)
    : HandsOut index size tr tracker ∧ tracker.maxOutstandingRequests = maxOutstandingRequests := by
  apply hrun.invariant_trace (P := fun tr tracker => HandsOut index size tr tracker
    ∧ tracker.maxOutstandingRequests = maxOutstandingRequests)
  . intro tr tracker1 event reply tracker2 hguard hstep ⟨h, hmax⟩
    cases PieceBlockTracker.called_of_step hstep with
    | assigned hassign =>
      constructor
      . apply h.assigned (generateAssignments_assigns (offsetsFit_of_mem hfit) hassign)
        intro req hreq hindex
        obtain ⟨entry, _, hreqFor⟩ := generateAssignments_requestFor hassign req hreq
        rw [hindex.symm.trans hreqFor.index_eq] at hsize
        apply hreqFor.block_eq hfit hsize
      . rw [(generateAssignments_len (offsetsFit_of_mem hfit) hassign).1, hmax]
    | finished hset =>
      constructor
      . apply h.finished (held_setRequestFinished_iff hset)
      . rw [maxOutstandingRequests_setRequestFinished hset, hmax]
    | notFound => exact ⟨h.finished fun _ => Iff.rfl, hmax⟩
    | _ => contradiction
  . refine ⟨⟨?_, ?_, ?_⟩, rfl⟩
    . simp [requestsOf]
    . simp [requestsOf]
    . intro begin
      rw [PieceBlockTracker.held_iff]
      simp [requestsOf, new, blocks, InprogressPieceToBlockMap.empty, PieceToBlockMap.empty]

theorem HandsOut.splits {index : UInt32} {size : Nat} {tr : List (TrackerEvent × TrackerReply)}
    {tracker tracker' : PieceBlockTracker} {available : List (UInt32 × List PeerId)}
    {peerIds : List PeerId} {now : UInt32 → Nat} {requests : List PeerRequestedPiece}
    (h : HandsOut index size tr tracker) (hfit : torrent.PiecesFit build)
    (hsize : (PieceBlockAllocation.pieceSize build torrent index : Outcome AnyError _) = .ok size)
    (hmax : tracker.maxOutstandingRequests < 2 ^ 64)
    (hassign : (tracker.generateAssignments build torrent now available : Outcome AnyError _)
      = .ok (requests, tracker'))
    (hsorted : BTreeMap.Sorted available) (hentry : (index, peerIds) ∈ available)
    (hpeers : peerIds ≠ []) (hnone : ∀ req ∈ requests, req.index ≠ index)
    (hcapacity : tracker.downloadingRequestsLen
      + (requests.filter fun req => req.index < index).length < tracker.maxOutstandingRequests)
    : Splits size (requestsOf index tr) := by
  obtain ⟨available1, available2, rfl⟩ := List.append_of_mem hentry
  obtain ⟨requests1, tracker1, others, h1, h2, rfl⟩ := generateAssignments_append hassign
  obtain ⟨requests2, tracker2, requests3, hpiece, _, rfl⟩ :=
    generateAssignments_cons h2
  have hassigns1 := generateAssignments_assigns (offsetsFit_of_mem hfit) h1
  have hassigns2 := assignPiece_assigns (offsetsFit_of_piecesFit hfit _) hpiece
  obtain ⟨hmax1, hlen1⟩ := generateAssignments_len (offsetsFit_of_mem hfit) h1
  -- the map is in order, so what is requested before is for pieces before
  have hbefore : ∀ req ∈ requests1, req.index < index := by
    intro req hreq
    obtain ⟨entry, hmem, hfor⟩ := generateAssignments_requestFor h1 req hreq
    unfold BTreeMap.Sorted at hsorted
    rw [List.pairwise_append] at hsorted
    rw [hfor.index_eq]
    exact hsorted.2.2 entry hmem (index, peerIds) List.mem_cons_self
  have hlen : requests1.length
      ≤ ((requests1 ++ (requests2 ++ requests3)).filter fun req => req.index < index).length := by
    rw [List.filter_append, List.length_append, List.filter_eq_self.mpr]
    . omega
    . simpa using hbefore
  have hnil : requests2 = [] := by
    rw [List.eq_nil_iff_forall_not_mem]
    intro req hreq
    exact hnone req (by simp [hreq]) (assignPiece_requestFor hpiece req hreq).index_eq
  obtain ⟨size', capacity, hsize', hcapacity', hcomplete⟩ := assignPiece_complete (offsetsFit_of_piecesFit hfit _) hpiece hpeers
  rw [hsize, Except.ok.injEq] at hsize'
  subst hsize' hnil
  rw [Build.usizeSub_of_fits _ _ _ (by omega) (by omega), Except.ok.injEq] at hcapacity'
  have hall : ∀ begin ∈ blockBegins size, tracker2.Held ⟨index, UInt32.ofNat begin⟩ := by
    cases hcomplete with
    | inl hfull =>
      rw [List.length_nil] at hfull
      omega
    | inr hall => exact hall
  refine ⟨h.nodup, h.block, ?_⟩
  intro begin hbegin
  have hheld := hall begin hbegin
  rw [hassigns2.held_iff, hassigns1.held_iff, h.held_iff] at hheld
  have hfresh : ¬∃ req ∈ requests1, req.key = ⟨index, UInt32.ofNat begin⟩ := by
    rintro ⟨req, hreq, hkey⟩
    simp only [PeerRequestedPiece.key, PieceToBlockKey.mk.injEq] at hkey
    apply absurd (hbefore req hreq)
    rw [hkey.1]
    apply lt_irrefl
  simp only [List.not_mem_nil, false_and, exists_false, or_false, hfresh] at hheld
  obtain ⟨req, hreq, heq⟩ := hheld
  refine ⟨req, hreq, ?_⟩
  have hlt := PieceBlockAllocation.pieceSize_lt hfit hsize
  have hbegin' := (mem_blockBegins.mp hbegin).2
  have hu32 : UInt32.size = 2 ^ 32 := rfl
  rw [heq, UInt32.toNat_ofNat_of_lt' (by omega)]

end PieceBlockTracker

namespace TorrentIo

/--
The blocks are taken one after the other, none is out of bounds, and only the range of the last one
makes the piece complete.
-/
def Delivers (build : Build) (torrentIo : TorrentIo σ) (slicesAt : σ → Option Slices)
    (index : UInt32) : σ → List (PeerRequestedPiece × Bytes) → Prop
  | _, [] => True
  | io, (req, block) :: deliveries =>
    let written := torrentIo.writePiece io index req.begin block
    (∀ idx endPos, written.1 ≠ .error (.err (.peer (.badBounds idx endPos))))
      ∧ (∃ slices slices', slicesAt io = some slices
          ∧ (slices.insert build req.begin (UInt32.ofNat block.length)
              : Outcome AnyError (Bool × Slices)) = .ok (deliveries.isEmpty, slices')
          ∧ slicesAt written.2 = some slices')
      ∧ Delivers build torrentIo slicesAt index written.2 deliveries

theorem delivers_of_step {torrentIo : TorrentIo σ} {slicesAt : σ → Option Slices} {index : UInt32}
    {P : σ → Slices → Prop}
    (hslices : ∀ io slices, P io slices → slicesAt io = some slices)
    (hstep : ∀ io slices begin block blocks, block.length < 2 ^ 32 → P io slices →
      slices.Awaits ((begin, UInt32.ofNat block.length) :: blocks) →
      (∀ idx endPos, (torrentIo.writePiece io index begin block).1
          ≠ .error (.err (.peer (.badBounds idx endPos))))
        ∧ ∃ slices', (slices.insert build begin (UInt32.ofNat block.length)
              : Outcome AnyError (Bool × Slices)) = .ok (blocks.isEmpty, slices')
            ∧ slices'.Awaits blocks
            ∧ P (torrentIo.writePiece io index begin block).2 slices')
    {deliveries : List (PeerRequestedPiece × Bytes)} {io : σ} {slices : Slices} (hio : P io slices)
    (hawaits : slices.Awaits (deliveries.map fun x => (x.1.begin, x.1.length)))
    (hlength : ∀ x ∈ deliveries, x.2.length = x.1.length.toNat)
    : torrentIo.Delivers build slicesAt index io deliveries := by
  induction deliveries generalizing io slices with
  | nil => exact trivial
  | cons delivery deliveries ih =>
    obtain ⟨req, block⟩ := delivery
    rw [List.forall_mem_cons] at hlength
    have hlt := req.length.toNat_lt
    have hlen : UInt32.ofNat block.length = req.length := by
      rw [hlength.1, UInt32.ofNat_toNat]
    rw [List.map_cons] at hawaits
    dsimp only at hawaits
    rw [← hlen] at hawaits
    obtain ⟨hbounds, slices', hinsert, hawaits', hio'⟩ := hstep io slices req.begin block _
      (by rw [hlength.1]; exact hlt) hio hawaits
    refine ⟨hbounds, ⟨slices, slices', hslices _ _ hio, ?_, hslices _ _ hio'⟩, ?_⟩
    . rw [hinsert, List.isEmpty_map]
    . apply ih hio' hawaits' hlength.2

end TorrentIo

namespace FileTorrentIo

def slicesAt (index : UInt32) (io : FileTorrentIo) : Option Slices :=
  (io.pieceToFile[index.toNat]?).map FilePieceState.slices

theorem verifyPiece_ne_badBounds {sha1 : Bytes → Bytes} (piece : FilePieceState) (index : UInt32)
    (file : File) (idx endPos : Nat)
    : verifyPiece sha1 piece index file ≠ .error (.err (.peer (.badBounds idx endPos))) := by
  intro h
  unfold verifyPiece FilePieceState.computeFileSha1Hash at h
  simp only [Outcome.bind_eq_error, pure, Except.pure, reduceCtorEq, and_false, exists_false,
    or_false] at h
  cases h with
  | inl h =>
    cases FilePieceState.readBack_eq_error h with
    | inl h => contradiction
    | inr h =>
      obtain ⟨kind, h⟩ := h
      simp at h
  | inr h =>
    obtain ⟨res, _, h⟩ := h
    split at h
    . contradiction
    . simp at h

structure Ready (build : Build) (index : UInt32) (io : FileTorrentIo) (slices : Slices) : Prop where
  piece : ∃ piece, io.pieceToFile[index.toNat]? = some piece ∧ piece.slices = slices
    ∧ piece.startIdx + slices.expectedSize < 2 ^ 63
  pieceLen : (io.allocation.pieceLen build index.toNat : Outcome AnyError _)
    = .ok slices.expectedSize

theorem Ready.startWrite {index begin : UInt32} {io : FileTorrentIo} {slices : Slices}
    {block : Bytes} {blocks : List (UInt32 × UInt32)} (h : Ready build index io slices)
    (hblock : block.length < 2 ^ 32)
    (hawaits : slices.Awaits ((begin, UInt32.ofNat block.length) :: blocks))
    : ∃ piece file, io.startWrite build index begin block = .ok (piece, file)
        ∧ io.pieceToFile[index.toNat]? = some piece ∧ piece.slices = slices
        ∧ piece.startIdx + slices.expectedSize < 2 ^ 63 := by
  obtain ⟨piece, hget, rfl, hstart⟩ := h.piece
  have hbounds := (hawaits.bounds _ List.mem_cons_self).2
  have hu32 : UInt32.size = 2 ^ 32 := rfl
  dsimp only at hbounds
  rw [UInt32.toNat_ofNat_of_lt' (by omega)] at hbounds
  have hcomplete := hawaits.isComplete_eq
  rw [List.isEmpty_cons] at hcomplete
  have hseek : piece.seekOffset build io.file begin
      = .ok { io.file with pos := piece.startIdx + begin.toNat } := by
    unfold FilePieceState.seekOffset FilePieceState.seek File.seek
    rw [Build.usizeAdd_of_fits _ _ _ (by omega), Outcome.ok_bind, if_pos (by omega)]
  refine ⟨piece, { io.file with pos := piece.startIdx + begin.toNat }, ?_, hget, rfl, hstart⟩
  unfold FileTorrentIo.startWrite
  rw [hget]
  dsimp only
  rw [if_neg (by simp [hcomplete]), Build.usizeAdd_of_fits _ _ _ (by omega), Outcome.ok_bind,
    h.pieceLen, Outcome.ok_bind, if_neg (by omega), hseek]
  rfl

theorem Ready.writePiece (sha1 : Bytes → Bytes) {index begin : UInt32} {io : FileTorrentIo}
    {slices : Slices} {block : Bytes} {blocks : List (UInt32 × UInt32)}
    (h : Ready build index io slices) (hblock : block.length < 2 ^ 32)
    (hawaits : slices.Awaits ((begin, UInt32.ofNat block.length) :: blocks))
    : (∀ idx endPos, (io.writePiece build sha1 index begin block).1
          ≠ .error (.err (.peer (.badBounds idx endPos))))
        ∧ ∃ slices', (slices.insert build begin (UInt32.ofNat block.length)
              : Outcome AnyError (Bool × Slices)) = .ok (blocks.isEmpty, slices')
            ∧ slices'.Awaits blocks
            ∧ Ready build index (io.writePiece build sha1 index begin block).2 slices' := by
  obtain ⟨piece, file, hstart, hget, rfl, hlt⟩ := h.startWrite hblock hawaits
  obtain ⟨slices', hinsert, hsize, hawaits'⟩ := hawaits.insert (ε := AnyError) build
  have hlength := (List.getElem?_eq_some_iff.mp hget).1
  have hready : ∀ file', Ready build index
      { io with
        file := file'
        pieceToFile := io.pieceToFile.set index.toNat { piece with slices := slices' } } slices' := by
    intro file'
    constructor
    . refine ⟨_, List.getElem?_set_self hlength, rfl, ?_⟩
      rw [hsize]
      exact hlt
    . rw [hsize]
      exact h.pieceLen
  have hwritten := writePiece_written build sha1 io index begin block
  generalize io.writePiece build sha1 index begin block = res at hwritten ⊢
  cases hwritten with
  | refused hstart' =>
    rw [hstart] at hstart'
    contradiction
  | torn hstart' hinsert' =>
    rw [hstart, Except.ok.injEq, Prod.mk.injEq] at hstart'
    rw [← hstart'.1, hinsert] at hinsert'
    contradiction
  | stored hstart' hinsert' =>
    rw [hstart, Except.ok.injEq, Prod.mk.injEq] at hstart'
    obtain ⟨rfl, rfl⟩ := hstart'
    rw [hinsert, Except.ok.injEq, Prod.mk.injEq] at hinsert'
    obtain ⟨hempty, rfl⟩ := hinsert'
    refine ⟨by simp, slices', ?_, hawaits', hready _⟩
    exact hinsert
  | completed hstart' hinsert' =>
    rw [hstart, Except.ok.injEq, Prod.mk.injEq] at hstart'
    obtain ⟨rfl, rfl⟩ := hstart'
    rw [hinsert, Except.ok.injEq, Prod.mk.injEq] at hinsert'
    obtain ⟨hempty, rfl⟩ := hinsert'
    refine ⟨?_, slices', ?_, hawaits', hready _⟩
    . apply verifyPiece_ne_badBounds
    . exact hinsert

end FileTorrentIo

namespace MemoryTorrentIo

def slicesAt (index : UInt32) (io : MemoryTorrentIo) : Option Slices :=
  (io.memory[index.toNat]?).map Memory.slices

def Ready (index : UInt32) (io : MemoryTorrentIo) (slices : Slices) : Prop :=
  ∃ piece, io.memory[index.toNat]? = some piece ∧ piece.slices = slices
    ∧ piece.memory.length = slices.expectedSize

theorem Ready.writePiece {index begin : UInt32} {io : MemoryTorrentIo} {slices : Slices}
    {block : Bytes} {blocks : List (UInt32 × UInt32)} (h : Ready index io slices)
    (hblock : block.length < 2 ^ 32)
    (hawaits : slices.Awaits ((begin, UInt32.ofNat block.length) :: blocks))
    : (∀ idx endPos, (io.writePiece build index begin block).1
          ≠ .error (.err (.peer (.badBounds idx endPos))))
        ∧ ∃ slices', (slices.insert build begin (UInt32.ofNat block.length)
              : Outcome AnyError (Bool × Slices)) = .ok (blocks.isEmpty, slices')
            ∧ slices'.Awaits blocks
            ∧ Ready index (io.writePiece build index begin block).2 slices' := by
  obtain ⟨piece, hget, rfl, hsize⟩ := h
  obtain ⟨slices', hinsert, hsize', hawaits'⟩ := hawaits.insert (ε := AnyError) build
  dsimp only at hinsert
  have hbounds := (hawaits.bounds _ List.mem_cons_self).2
  have hu32 : UInt32.size = 2 ^ 32 := rfl
  dsimp only at hbounds
  rw [UInt32.toNat_ofNat_of_lt' (by omega), ← hsize] at hbounds
  have hexpected := hawaits.expectedSize_lt
  have hstart : io.startWrite build index begin block = .ok piece := by
    unfold startWrite
    rw [hget]
    dsimp only
    rw [Build.usizeAdd_of_fits _ _ _ (by omega), Outcome.ok_bind, if_neg (by omega)]
    rfl
  have hlength := (List.getElem?_eq_some_iff.mp hget).1
  unfold MemoryTorrentIo.writePiece
  rw [hstart]
  dsimp only
  rw [hinsert]
  dsimp only
  refine ⟨by simp, slices', rfl, hawaits', _, List.getElem?_set_self hlength, rfl, ?_⟩
  dsimp only
  rw [File.length_overwrite _ _ _ hbounds, hsize, hsize']

end MemoryTorrentIo

namespace PieceBlockTracker

/--
Both stores take the blocks for the requests in any order, and only the last one makes the piece
complete.
-/
def Rebuilds (build : Build) (sha1 : Bytes → Bytes) (torrent : V1Torrent) (index : UInt32)
    (requests : List PeerRequestedPiece) : Prop :=
  ∀ deliveries : List (PeerRequestedPiece × Bytes),
    (deliveries.map Prod.fst).Perm requests →
    (∀ x ∈ deliveries, x.2.length = x.1.length.toNat) →
      (∃ io, FileTorrentIo.new build torrent = .ok io
        ∧ (FileTorrentIo.torrentIo build sha1).Delivers build (FileTorrentIo.slicesAt index) index io
            deliveries)
      ∧ ∃ io, MemoryTorrentIo.new build torrent = .ok io
        ∧ (MemoryTorrentIo.torrentIo build).Delivers build (MemoryTorrentIo.slicesAt index) index io
            deliveries

theorem rebuilds_of_splits {allocation : TorrentAllocation} {index : UInt32}
    {requests : List PeerRequestedPiece} (sha1 : Bytes → Bytes)
    (hconsistent : torrent.info.Consistent)
    (halloc : (TorrentAllocation.allocateTorrent build torrent : Outcome AnyError _) = .ok allocation)
    (hlaid : TorrentAllocation.LaidOut allocation torrent.info)
    (hfits : allocation.maxPieceSize < 2 ^ 32) (hindex : index.toNat < allocation.totalPieces)
    (hsplits : Splits (allocation.len index.toNat) requests)
    : Rebuilds build sha1 torrent index requests := by
  intro deliveries hperm hlength
  have hle := hlaid.len_le index.toNat
  have hpos := hlaid.len_pos index.toNat
  have hawaits := (hsplits.perm hperm).awaits hpos (by omega)
  rw [List.map_map] at hawaits
  constructor
  . obtain ⟨io, hnew⟩ := FileTorrentIo.new_of_consistent build torrent hconsistent
    obtain ⟨_, hlen, hpieces⟩ := FileTorrentIo.new_laidOut hconsistent hnew
    have halloc' := (FileTorrentIo.new_eq_ok hnew).1
    rw [halloc, Except.ok.injEq] at halloc'
    rw [← halloc'] at hlen hpieces
    have hget := List.getElem?_eq_getElem (hlen ▸ hindex)
    obtain ⟨_, start, hash, hstart, hpiece⟩ := hpieces _ _ hget
    rw [hpiece] at hget
    -- the piece may begin at the wrong place, but not so far that an offset overflows
    have hlast := hlaid.mul_add_len_le_length hindex
    have hlt := Int64.toInt_lt torrent.info.length
    have hmul : allocation.len index.toNat * index.toNat ≤ index.toNat * allocation.maxPieceSize := by
      rw [Nat.mul_comm]
      apply Nat.mul_le_mul_left _ hle
    rw [Build.usizeMul_of_fits _ _ _ (by omega), Except.ok.injEq] at hstart
    have hready : FileTorrentIo.Ready build index io (.new (allocation.len index.toNat)) := by
      constructor
      . refine ⟨_, hget, rfl, ?_⟩
        have hsize : (Slices.new (allocation.len index.toNat)).expectedSize
            = allocation.len index.toNat := rfl
        rw [hsize]
        dsimp only [FilePieceState.new]
        omega
      . rw [← halloc']
        apply TorrentAllocation.pieceLen_eq _ _ _ hlaid.totalPieces_pos hlaid.totalPieces_le
    refine ⟨io, hnew, ?_⟩
    apply TorrentIo.delivers_of_step (P := FileTorrentIo.Ready build index) _ _ hready hawaits hlength
    . intro io1 slices h
      obtain ⟨piece, hget, rfl, _⟩ := h.piece
      rw [FileTorrentIo.slicesAt, hget, Option.map_some]
    . intro io1 slices begin block blocks hblock h hawaits1
      apply h.writePiece sha1 hblock hawaits1
  . obtain ⟨io, hnew, _, hpieces⟩ := MemoryTorrentIo.new_of_consistent halloc hlaid
    refine ⟨io, hnew, ?_⟩
    have hready : MemoryTorrentIo.Ready index io (.new (allocation.len index.toNat)) := by
      refine ⟨_, hpieces _ hindex, rfl, ?_⟩
      apply List.length_replicate
    apply TorrentIo.delivers_of_step (P := MemoryTorrentIo.Ready index) _ _ hready hawaits hlength
    . intro io1 slices ⟨piece, hget, hslices, _⟩
      rw [MemoryTorrentIo.slicesAt, hget, Option.map_some, hslices]
    . intro io1 slices begin block blocks hblock h hawaits1
      apply h.writePiece hblock hawaits1

/--
The piece is offered whenever requests are made, and no request is taken back.
-/
def Offers (index : UInt32) : PieceBlockTracker → TrackerEvent → Prop
  | _, .generateAssignments available _ =>
    BTreeMap.Sorted available ∧ ∃ peerIds, (index, peerIds) ∈ available ∧ peerIds ≠ []
  | _, .setRequestFinished _ _ => True
  | _, _ => False

theorem rebuilds_of_run (build : Build) (sha1 : Bytes → Bytes) (torrent : V1Torrent)
    (maxOutstandingRequests : Nat) (index : UInt32) (tr : List (TrackerEvent × TrackerReply))
    (tracker tracker' : PieceBlockTracker) (available : List (UInt32 × List PeerId))
    (now : UInt32 → Nat) (requests : List PeerRequestedPiece)
    (hconsistent : torrent.info.Consistent) (hpieces : torrent.info.pieces.length < 2 ^ 32)
    (hpieceLength : torrent.info.pieceLength.toInt < 2 ^ 32)
    (hindex : index.toNat < torrent.info.pieces.length) (hmax : maxOutstandingRequests < 2 ^ 64)
    (hrun : (trackerTask build torrent).RunWhile OnlyRequests
      (.new maxOutstandingRequests torrent.info.pieces) tr tracker)
    (hoffers : Offers index tracker (.generateAssignments available now))
    (hcall : (trackerTask build torrent).step tracker (.generateAssignments available now)
      = some (.assigned requests, tracker'))
    (hnone : ∀ req ∈ requests, req.index ≠ index)
    (hcapacity : tracker.downloadingRequestsLen
      + (requests.filter fun req => req.index < index).length < maxOutstandingRequests)
    : Rebuilds build sha1 torrent index (requestsOf index tr) := by
  obtain ⟨allocation, halloc, hlaid⟩ :=
    TorrentAllocation.allocateTorrent_of_consistent (ε := AnyError) build torrent hconsistent
  have hmaxSize := hlaid.maxPieceSize_eq
  have hlastSize := hlaid.lastPieceSize_le
  have hfit : torrent.PiecesFit build := by
    intro allocation' halloc'
    rw [halloc, Except.ok.injEq] at halloc'
    subst halloc'
    omega
  have hsize := PieceBlockAllocation.pieceSize_of_laidOut halloc hlaid hpieces index
  obtain ⟨hhandsOut, heq⟩ := HandsOut.run hfit hsize hrun
  obtain ⟨hsorted, peerIds, hentry, hpeers⟩ := hoffers
  rw [← heq] at hmax hcapacity
  cases called_of_step hcall with
  | assigned hassign =>
    apply rebuilds_of_splits sha1 hconsistent halloc hlaid (by omega)
    . rw [hlaid.totalPieces_eq]
      exact hindex
    . apply hhandsOut.splits hfit hsize hmax hassign hsorted hentry hpeers hnone hcapacity

instance (tracker : PieceBlockTracker) (event : TrackerEvent)
    : Decidable (OnlyRequests tracker event) :=
  match event with
  | .generateAssignments _ _ | .setRequestFinished _ _ => .isTrue trivial
  | .removeRequest _ | .removeExpired _ | .setPieceFinished _ => .isFalse id

/--
The first piece has three blocks, and two may be outstanding.
-/
def twoCalls : List TrackerEvent :=
  [.generateAssignments [(0, [[5], [6]])] (fun _ => 0), .setRequestFinished 0 16384,
    .generateAssignments [(0, [[5], [6]]), (1, [[6]])] (fun _ => 1), .setRequestFinished 0 0,
    .setRequestFinished 0 32768]

def lastBlockFirst : List (PeerRequestedPiece × Bytes) :=
  [⟨[5], 0, 32768, 7232⟩, ⟨[5], 0, 0, 16384⟩, ⟨[5], 0, 16384, 16384⟩].map fun req =>
    (req, List.replicate req.length.toNat 0)

theorem rebuilds_lastBlockFirst
    : (∃ io, FileTorrentIo.new ⟨true⟩ (torrentFixture 40000 50000 [[1], [2]]) = .ok io
        ∧ (FileTorrentIo.torrentIo ⟨true⟩ Sha1.digest).Delivers ⟨true⟩ (FileTorrentIo.slicesAt 0) 0
            io lastBlockFirst)
      ∧ ∃ io, MemoryTorrentIo.new ⟨true⟩ (torrentFixture 40000 50000 [[1], [2]]) = .ok io
        ∧ (MemoryTorrentIo.torrentIo ⟨true⟩).Delivers ⟨true⟩ (MemoryTorrentIo.slicesAt 0) 0 io
            lastBlockFirst := by
  let torrent := torrentFixture 40000 50000 [[1], [2]]
  let lastCall : TrackerEvent := .generateAssignments [(0, [[5], [6]]), (1, [[6]])] fun _ => 2
  -- the last call asks for the other piece only
  obtain ⟨tr, tracker, hrun, _, hstate⟩ :=
    ((trackerTask ⟨true⟩ torrent).restrict OnlyRequests).exists_run_of_exec
      (PieceBlockTracker.new 2 torrent.info.pieces) twoCalls
      (fun x => (requestsOf 0 x.1, x.2.downloadingRequestsLen,
        ((trackerTask ⟨true⟩ torrent).step x.2 lastCall).map Prod.fst))
      (b := ([⟨[5], 0, 0, 16384⟩, ⟨[5], 0, 16384, 16384⟩, ⟨[5], 0, 32768, 7232⟩], 0,
        some (.assigned [⟨[6], 1, 0, 10000⟩]))) (by decide +kernel)
  simp only [Prod.mk.injEq, Option.map_eq_some_iff] at hstate
  obtain ⟨hrequests, houtstanding, ⟨reply, tracker'⟩, hcall, rfl⟩ := hstate
  have hrebuilds := rebuilds_of_run ⟨true⟩ Sha1.digest torrent 2 0 tr tracker tracker' _ _ _
    (by decide +kernel) (by decide +kernel) (by decide +kernel) (by decide +kernel) (by decide)
    (Machine.runWhile_of_restrict _ _ hrun) ⟨by decide, [[5], [6]], by decide, by decide⟩ hcall
    (by decide) (by rw [houtstanding]; decide)
  rw [hrequests] at hrebuilds
  apply hrebuilds
  . decide +kernel
  . intro x hx
    obtain ⟨req, _, rfl⟩ := List.mem_map.mp hx
    apply List.length_replicate

theorem not_rebuilds_otherPiece
    : ¬∀ (torrent : V1Torrent) (maxOutstandingRequests : Nat) (index : UInt32)
        (tr : List (TrackerEvent × TrackerReply)) (tracker tracker' : PieceBlockTracker)
        (available : List (UInt32 × List PeerId)) (now : UInt32 → Nat)
        (requests : List PeerRequestedPiece),
        torrent.info.Consistent → torrent.info.pieces.length < 2 ^ 32 →
        torrent.info.pieceLength.toInt < 2 ^ 32 → index.toNat < torrent.info.pieces.length →
        1 ≤ maxOutstandingRequests → maxOutstandingRequests < 2 ^ 64 →
        (trackerTask ⟨true⟩ torrent).RunWhile (Offers index)
            (.new maxOutstandingRequests torrent.info.pieces) tr tracker →
        tracker.downloadingRequestsLen = 0 →
        Offers index tracker (.generateAssignments available now) →
        (trackerTask ⟨true⟩ torrent).step tracker (.generateAssignments available now)
            = some (.assigned requests, tracker') →
        (∀ req ∈ requests, req.index ≠ index) →
          Rebuilds ⟨true⟩ Sha1.digest torrent index (requestsOf index tr) := by
  intro h
  -- two pieces, the first of two blocks and the second of one block more than it asks for at once
  let torrent := torrentFixture 16385 32770 [[1], [2]]
  let tracker0 := PieceBlockTracker.new 1 torrent.info.pieces
  let tracker1 := tracker0.recordRequests 1 0 [⟨[5], 1, 0, 16384⟩]
  let tracker2 := (tracker1.setRequestFinished 1 0).getD tracker1
  have hrun : (trackerTask ⟨true⟩ torrent).RunWhile (Offers 1) tracker0
      [(.generateAssignments [(1, [[5]])] fun _ => 0, .assigned [⟨[5], 1, 0, 16384⟩]),
        (.setRequestFinished 1 0, .finished true)] tracker2 :=
    .cons ⟨by decide, [[5]], by decide, by decide⟩ (by decide +kernel : _ = some (_, tracker1))
      (.cons trivial (by decide +kernel) (.nil _))
  have hcall : (trackerTask ⟨true⟩ torrent).step tracker2
      (.generateAssignments [(0, [[5]]), (1, [[5]])] fun _ => 0)
      = some (.assigned [⟨[5], 0, 0, 16384⟩],
          tracker2.recordRequests 0 0 [⟨[5], 0, 0, 16384⟩]) := by
    decide +kernel
  have hrebuilds := h torrent 1 1 _ tracker2 _ [(0, [[5]]), (1, [[5]])] (fun _ => 0) _
    (by decide +kernel) (by decide +kernel) (by decide +kernel) (by decide +kernel) (by decide)
    (by decide) hrun (by decide +kernel) ⟨by decide, [[5]], by decide, by decide⟩ hcall (by decide)
  have hdelivers := hrebuilds [(⟨[5], 1, 0, 16384⟩, List.replicate 16384 0)] (by decide +kernel) (by
    intro x hx
    rw [List.mem_singleton] at hx
    subst hx
    apply List.length_replicate)
  obtain ⟨io, hnew, _, ⟨slices, slices', hslices, hinsert, _⟩, _⟩ := hdelivers.2
  obtain ⟨allocation, halloc, hlaid⟩ :=
    TorrentAllocation.allocateTorrent_of_consistent (ε := AnyError) ⟨true⟩ torrent (by decide +kernel)
  have halloc' : (TorrentAllocation.allocateTorrent ⟨true⟩ torrent : Outcome AnyError _)
      = .ok ⟨2, 16385, 16385⟩ := by
    decide +kernel
  rw [halloc, Except.ok.injEq] at halloc'
  subst halloc'
  obtain ⟨io', hnew', _, hpieces⟩ := MemoryTorrentIo.new_of_consistent halloc hlaid
  rw [hnew, Except.ok.injEq] at hnew'
  subst hnew'
  have hone : (1 : UInt32).toNat = 1 := rfl
  rw [MemoryTorrentIo.slicesAt, hone, hpieces 1 (by decide), Option.map_some, Option.some.injEq]
    at hslices
  subst hslices
  rw [List.length_replicate] at hinsert
  have hfinished : ((Slices.new 16385).insert ⟨true⟩ 0 (UInt32.ofNat 16384)
      : Outcome AnyError (Bool × Slices)).map Prod.fst = .ok false := by
    decide +kernel
  have htrue : ((Slices.new 16385).insert ⟨true⟩ 0 (UInt32.ofNat 16384)
      : Outcome AnyError (Bool × Slices)).map Prod.fst = .ok true :=
    congrArg (Except.map Prod.fst) hinsert
  rw [hfinished, Except.ok.injEq] at htrue
  exact Bool.false_ne_true htrue

end PieceBlockTracker
