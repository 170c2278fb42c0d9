import BenTorrent.Peer.Io.Verification
import BenTorrent.Peer.State.PieceLemmas

/-!
This module contains the two records of what has arrived, the tracker's and the one next to the
file, as the messages, the assignments and the timeouts drive them, and when they stay in step.
-/

open Rust
open Interval (Fits Runs covered runs_nil)

structure WriteReply where
  index : UInt32
  begin : UInt32
  finished : Bool
  deriving DecidableEq

namespace PieceBlockTracker

def handleWritten (tracker : PieceBlockTracker) (reply : WriteReply) : PieceBlockTracker :=
  if reply.finished then
    tracker.setPieceFinished reply.index
  else
    -- a request that is not found is only logged
    (tracker.setRequestFinished reply.index reply.begin).getD tracker

theorem blockDone_handleWritten {tracker : PieceBlockTracker} {reply : WriteReply}
    {pieceId begin : UInt32} (h : (tracker.handleWritten reply).BlockDone pieceId begin)
    : tracker.BlockDone pieceId begin ∨ reply = ⟨pieceId, begin, false⟩ := by
  obtain ⟨index, begin', finished⟩ := reply
  unfold handleWritten at h
  cases finished with
  | true =>
    left
    apply blockDone_setPieceFinished h
  | false =>
    simp only [Bool.false_eq_true, if_false] at h
    cases hset : tracker.setRequestFinished index begin' with
    | none =>
      rw [hset] at h
      exact .inl h
    | some tracker' =>
      rw [hset] at h
      cases blockDone_setRequestFinished hset h with
      | inr h => exact .inl h
      | inl heq =>
        obtain ⟨rfl, rfl⟩ := heq
        exact .inr rfl

end PieceBlockTracker

structure Download (σ : Type u) where
  tracker : PieceBlockTracker
  io : σ
  written : List WriteReply
  deriving DecidableEq

inductive DownloadEvent where
  | assign (availiablePieceToPeers : List (UInt32 × List PeerId)) (now : UInt32 → Nat)
  | undelivered (req : PeerRequestedPiece)
  | piece (index begin : UInt32) (block : VecU8)
  | handle (pos : Nat)
  | expire (now : Nat)

inductive DownloadReply where
  | assigned (requests : List PeerRequestedPiece)
  | removed (found : Bool)
  | written (res : Outcome AnyError Bool)
  | handled (reply : WriteReply)
  | expired (requests : List PeerRequestedPiece)
  deriving DecidableEq

def downloadTask (build : Build) (torrentIo : TorrentIo σ) (torrent : V1Torrent)
    : Machine (Download σ) DownloadEvent DownloadReply where
  step d
    | .assign availiablePieceToPeers now =>
      match (d.tracker.generateAssignments build torrent now availiablePieceToPeers
        : Outcome AnyError _) with
      | .ok (requests, tracker) => some (.assigned requests, { d with tracker })
      -- a panic ends the task
      | .error _ => none
    | .undelivered req =>
      let (found, tracker) := d.tracker.removeRequest req
      some (.removed found, { d with tracker })
    | .piece index begin block =>
      match torrentIo.writePiece d.io index begin block.val with
      | (.ok finished, io) =>
        some (.written (.ok finished),
          { d with io, written := d.written ++ [{ index, begin, finished }] })
      | (.error e, io) => some (.written (.error e), { d with io })
    -- each peer has a handler of its own, so the answers are acted on in any order
    | .handle pos =>
      match d.written[pos]? with
      | some reply =>
        some (.handled reply, { d with
          tracker := d.tracker.handleWritten reply
          written := d.written.eraseIdx pos })
      | none => none
    | .expire now =>
      let (requests, tracker) := d.tracker.removeExpired now
      some (.expired requests, { d with tracker })

namespace Download

def Recorded (d : Download σ) (pieceId begin : UInt32) : Prop :=
  d.tracker.BlockDone pieceId begin ∨ ⟨pieceId, begin, false⟩ ∈ d.written

def NoneStranded (d : Download FileTorrentIo) : Prop :=
  ∀ pieceId : UInt32, pieceId.toNat < d.io.allocation.totalPieces →
    (∀ begin ∈ PieceBlockAllocation.blockBegins (d.io.allocation.len pieceId.toNat),
      d.tracker.BlockDone pieceId (UInt32.ofNat begin)) →
    pieceId ∈ d.tracker.piecesCompleted

/--
What a block that gets written brings: at least one byte, all of the requested block if one begins
there, and a range that lies right to the ranges the piece has.
-/
def WholeBlock (build : Build) (d : Download FileTorrentIo) : DownloadEvent → Prop
  | .piece index begin block =>
    ∀ piece file, d.io.startWrite build index begin block.val = .ok (piece, file) →
      0 < block.val.length
        ∧ (begin.toNat ∈ PieceBlockAllocation.blockBegins piece.size →
            min pieceBlockSize (piece.size - begin.toNat) ≤ block.val.length)
        ∧ ∀ s ∈ piece.slices.slices, Fits begin (begin + UInt32.ofNat block.val.length) s
  | _ => True

end Download

open PieceBlockAllocation (blockBegins mem_blockBegins)

namespace Download

variable {build : Build} {sha1 : Bytes → Bytes} {torrent : V1Torrent}

/--
The ranges of a piece cover the blocks that count as received, and once they are complete one block
does not: the one that completed them.
-/
structure PieceInStep (d : Download FileTorrentIo) (pieceId : UInt32) (size : Nat)
    (slices : Slices) : Prop where
  expectedSize_eq : slices.expectedSize = size
  runs : Runs slices.slices
  covered_lt : ∀ x ∈ covered slices.slices, x.toNat < size
  covered_of_recorded : slices.isComplete = false → ∀ begin ∈ blockBegins size,
    d.Recorded pieceId (UInt32.ofNat begin) → ∀ x : UInt32, begin ≤ x.toNat →
      x.toNat < begin + pieceBlockSize → x.toNat < size → x ∈ covered slices.slices
  not_recorded : slices.isComplete = true → ∃ begin ∈ blockBegins size,
    ¬d.Recorded pieceId (UInt32.ofNat begin)

theorem PieceInStep.exists_not_recorded {d : Download FileTorrentIo} {pieceId : UInt32} {size : Nat}
    {slices : Slices} (h : PieceInStep d pieceId size slices) (hpos : 0 < size)
    (hlt : size < 2 ^ 32)
    : ∃ begin ∈ blockBegins size, ¬d.Recorded pieceId (UInt32.ofNat begin) := by
  by_contra hall
  simp only [not_exists, not_and, not_not] at hall
  have hincomplete : slices.isComplete = false := by
    cases hcomplete : slices.isComplete with
    | false => rfl
    | true =>
      obtain ⟨begin, hmem, hnot⟩ := h.not_recorded hcomplete
      exact absurd (hall begin hmem) hnot
  have hsize : (UInt32.ofNat size).toNat = size := UInt32.toNat_ofNat_of_lt hlt
  have hcov : covered slices.slices = Set.Ico 0 (UInt32.ofNat size) := by
    ext x
    rw [Set.mem_Ico, UInt32.lt_iff_toNat_lt, hsize]
    constructor
    . intro hx
      exact ⟨UInt32.zero_le, h.covered_lt x hx⟩
    . intro ⟨_, hx⟩
      -- the block `x` is in
      have hmem : x.toNat / pieceBlockSize * pieceBlockSize ∈ blockBegins size := by
        rw [mem_blockBegins]
        unfold pieceBlockSize
        omega
      apply h.covered_of_recorded hincomplete _ hmem (hall _ hmem)
      . apply Nat.div_mul_le_self _ _
      . unfold pieceBlockSize
        omega
      . exact hx
  have hzero : 0 < UInt32.ofNat size := by
    rw [UInt32.lt_iff_toNat_lt, hsize]
    exact hpos
  have hcomplete : slices.isComplete = true := by
    rw [Slices.isComplete_iff, h.expectedSize_eq]
    apply h.runs.eq_singleton hzero hcov
  rw [hincomplete] at hcomplete
  contradiction

theorem PieceInStep.mono {d d' : Download FileTorrentIo} {pieceId : UInt32} {size : Nat}
    {slices : Slices} (h : PieceInStep d pieceId size slices)
    (hrecorded : ∀ begin, d'.Recorded pieceId begin → d.Recorded pieceId begin)
    : PieceInStep d' pieceId size slices := by
  obtain ⟨h1, h2, h3, h4, h5⟩ := h
  refine ⟨h1, h2, h3, ?_, ?_⟩
  . intro hincomplete begin hmem hrec
    exact h4 hincomplete begin hmem (hrecorded _ hrec)
  . intro hcomplete
    obtain ⟨begin, hmem, hnot⟩ := h5 hcomplete
    exact ⟨begin, hmem, fun hrec => hnot (hrecorded _ hrec)⟩

structure InStep (info : V1TorrentInfo) (d : Download FileTorrentIo) : Prop where
  laidOut : TorrentAllocation.LaidOut d.io.allocation info
  length_eq : d.io.pieceToFile.length = d.io.allocation.totalPieces
  size_eq : ∀ (i : Nat) (piece : FilePieceState), d.io.pieceToFile[i]? = some piece →
    piece.size = d.io.allocation.len i
  piece : ∀ (pieceId : UInt32) (piece : FilePieceState),
    d.io.pieceToFile[pieceId.toNat]? = some piece →
      PieceInStep d pieceId (d.io.allocation.len pieceId.toNat) piece.slices

theorem InStep.mono {info : V1TorrentInfo} {d d' : Download FileTorrentIo} (h : InStep info d)
    (halloc : d'.io.allocation = d.io.allocation)
    (hpieces : d'.io.pieceToFile = d.io.pieceToFile)
    (hrecorded : ∀ pieceId begin, d'.Recorded pieceId begin → d.Recorded pieceId begin)
    : InStep info d' := by
  constructor
  . rw [halloc]
    apply h.laidOut
  . rw [halloc, hpieces]
    apply h.length_eq
  . rw [halloc, hpieces]
    apply h.size_eq
  . rw [halloc, hpieces]
    intro pieceId piece hget
    exact (h.piece pieceId piece hget).mono (hrecorded pieceId)

theorem InStep.of_done_eq {info : V1TorrentInfo} {d : Download FileTorrentIo}
    {tracker : PieceBlockTracker} (h : InStep info d)
    (hdone : tracker.blocks.done = d.tracker.blocks.done)
    : InStep info { d with tracker } := by
  apply InStep.mono h
  . rfl
  . rfl
  . intro pieceId begin hrec
    cases hrec with
    | inr hmem => exact .inr hmem
    | inl hrec =>
      left
      unfold PieceBlockTracker.BlockDone at hrec ⊢
      rw [← hdone]
      exact hrec

theorem inStep_new {io : FileTorrentIo} (h : torrent.info.Consistent)
    (hnew : FileTorrentIo.new build torrent = .ok io) (maxOutstandingRequests : Nat)
    : InStep torrent.info ⟨.new maxOutstandingRequests torrent.info.pieces, io, []⟩ := by
  obtain ⟨hlaid, hlength, hpieces⟩ := FileTorrentIo.new_laidOut h hnew
  constructor
  . exact hlaid
  . exact hlength
  . intro i piece hget
    obtain ⟨_, start, hash, _, rfl⟩ := hpieces i piece hget
    rfl
  . intro pieceId piece hget
    obtain ⟨_, start, hash, _, rfl⟩ := hpieces _ piece hget
    constructor
    . rfl
    . apply runs_nil
    . simp [FilePieceState.new, Slices.new]
    . intro _ begin _ hrec
      cases hrec with
      | inl hdone => simp [PieceBlockTracker.BlockDone, PieceBlockTracker.blocks,
          PieceBlockTracker.new, InprogressPieceToBlockMap.empty, PieceToBlockMap.empty] at hdone
      | inr hmem => simp at hmem
    . intro hcomplete
      contradiction

theorem InStep.handle {info : V1TorrentInfo} {d : Download FileTorrentIo} {reply : WriteReply}
    {pos : Nat} (h : InStep info d) (hget : d.written[pos]? = some reply)
    : InStep info { d with
        tracker := d.tracker.handleWritten reply
        written := d.written.eraseIdx pos } := by
  apply InStep.mono h
  . rfl
  . rfl
  . intro pieceId begin hrec
    cases hrec with
    | inr hmem => exact .inr (List.mem_of_mem_eraseIdx hmem)
    | inl hdone =>
      cases PieceBlockTracker.blockDone_handleWritten hdone with
      | inl hdone => exact .inl hdone
      | inr heq =>
        -- the block counted as received since its answer was there
        right
        rw [← heq]
        apply List.mem_of_getElem? hget

theorem PieceInStep.insertRange {d : Download FileTorrentIo} {pieceId begin endPos : UInt32}
    {size : Nat} {slices : Slices} (h : PieceInStep d pieceId size slices)
    (hlt : begin < endPos) (hle : endPos.toNat ≤ size)
    (hfits : ∀ s ∈ slices.slices, Fits begin endPos s)
    : Runs (slices.insertRange begin endPos).slices
        ∧ covered (slices.insertRange begin endPos).slices
            = covered slices.slices ∪ Set.Ico begin endPos
        ∧ ∀ x ∈ covered (slices.insertRange begin endPos).slices, x.toNat < size := by
  obtain ⟨hruns, hcov⟩ :=
    (insertSlice_inserted slices.starts begin endPos).runs hlt h.runs hfits
  refine ⟨hruns, hcov, ?_⟩
  intro x hx
  unfold Slices.insertRange at hx
  rw [hcov] at hx
  cases hx with
  | inl hx => apply h.covered_lt x hx
  | inr hx =>
    have := UInt32.lt_iff_toNat_lt.mp hx.2
    omega

theorem InStep.endPos {info : V1TorrentInfo} {d : Download FileTorrentIo} {index begin : UInt32}
    {block : VecU8} {piece : FilePieceState} {file : File} (h : InStep info d)
    (hlt : info.pieceLength.toInt < 2 ^ 32)
    (hstart : FileTorrentIo.Started build d.io index begin block.val piece file)
    : d.io.allocation.len index.toNat < 2 ^ 32
        ∧ begin.toNat + block.val.length ≤ d.io.allocation.len index.toNat
        ∧ (UInt32.ofNat block.val.length).toNat = block.val.length
        ∧ (begin + UInt32.ofNat block.val.length).toNat = begin.toNat + block.val.length := by
  have hmax := h.laidOut.maxPieceSize_eq
  have hlen := h.laidOut.len_le index.toNat
  have hblock := block.property
  have hbegin := begin.toNat_lt
  obtain ⟨endPos, pieceLen, hend, hpieceLen, hle⟩ := hstart.bounds
  rw [Build.usizeAdd_of_fits _ _ _ (by omega), Except.ok.injEq] at hend
  rw [TorrentAllocation.pieceLen_eq _ _ _ h.laidOut.totalPieces_pos h.laidOut.totalPieces_le,
    Except.ok.injEq] at hpieceLen
  have hfits : block.val.length < 2 ^ 32 := by omega
  have hof : (UInt32.ofNat block.val.length).toNat = block.val.length :=
    UInt32.toNat_ofNat_of_lt hfits
  refine ⟨by omega, by omega, hof, ?_⟩
  rw [UInt32.toNat_add, hof, Nat.mod_eq_of_lt (by omega)]

theorem InStep.insert_eq {info : V1TorrentInfo} {d : Download FileTorrentIo} {index begin : UInt32}
    {block : VecU8} {piece : FilePieceState} {file : File} (h : InStep info d)
    (hlt : info.pieceLength.toInt < 2 ^ 32)
    (hstart : FileTorrentIo.Started build d.io index begin block.val piece file)
    : (piece.slices.insert build begin (UInt32.ofNat block.val.length)
          : Outcome AnyError (Bool × Slices))
        = .ok ((piece.slices.insertRange begin (begin + UInt32.ofNat block.val.length)).isComplete,
            piece.slices.insertRange begin (begin + UInt32.ofNat block.val.length)) := by
  obtain ⟨hsize, hle, hof, _⟩ := h.endPos hlt hstart
  apply Slices.insert_of_fits
  omega

theorem InStep.set {info : V1TorrentInfo} {d : Download FileTorrentIo} {index : UInt32}
    {piece : FilePieceState} {slices : Slices} {file : File} {replies : List WriteReply}
    (h : InStep info d) (hget : d.io.pieceToFile[index.toNat]? = some piece)
    (hreplies : ∀ reply ∈ replies, reply.index = index)
    (hpiece : PieceInStep { d with written := d.written ++ replies } index
      (d.io.allocation.len index.toNat) slices)
    : InStep info { d with
        io := { d.io with
          file
          pieceToFile := d.io.pieceToFile.set index.toNat { piece with slices } }
        written := d.written ++ replies } := by
  have hlt := (List.getElem?_eq_some_iff.mp hget).1
  constructor
  . apply h.laidOut
  . dsimp only
    rw [List.length_set]
    apply h.length_eq
  . intro i piece' hget'
    dsimp only at hget' ⊢
    by_cases hi : i = index.toNat
    . subst hi
      rw [List.getElem?_set_self hlt, Option.some.injEq] at hget'
      subst hget'
      apply h.size_eq _ piece hget
    . rw [List.getElem?_set_ne (Ne.symm hi)] at hget'
      apply h.size_eq _ _ hget'
  . intro pieceId piece' hget'
    dsimp only at hget' ⊢
    by_cases hi : pieceId = index
    . subst hi
      rw [List.getElem?_set_self hlt, Option.some.injEq] at hget'
      subst hget'
      exact hpiece.mono fun _ hrec => hrec
    . have hne : index.toNat ≠ pieceId.toNat := fun heq => hi (UInt32.toNat_inj.mp heq).symm
      rw [List.getElem?_set_ne hne] at hget'
      apply (h.piece pieceId piece' hget').mono
      intro begin hrec
      cases hrec with
      | inl hdone => exact .inl hdone
      | inr hmem =>
        rw [List.mem_append] at hmem
        cases hmem with
        | inl hmem => exact .inr hmem
        | inr hmem => exact absurd (hreplies _ hmem) hi

theorem PieceInStep.stored {d : Download FileTorrentIo} {index begin endPos : UInt32} {size : Nat}
    {slices : Slices} (h : PieceInStep d index size slices)
    (hsize : size < 2 ^ 32) (hincomplete : slices.isComplete = false) (hlt : begin < endPos)
    (hle : endPos.toNat ≤ size) (hfits : ∀ s ∈ slices.slices, Fits begin endPos s)
    (hwhole : begin.toNat ∈ blockBegins size →
      min (begin.toNat + pieceBlockSize) size ≤ endPos.toNat)
    (hstored : (slices.insertRange begin endPos).isComplete = false)
    : PieceInStep { d with written := d.written ++ [⟨index, begin, false⟩] } index size
        (slices.insertRange begin endPos) := by
  obtain ⟨hruns, hcov, hcovlt⟩ := h.insertRange hlt hle hfits
  constructor
  . apply h.expectedSize_eq
  . exact hruns
  . exact hcovlt
  . intro _ begin' hmem hrec x h1 h2 h3
    rw [hcov]
    have hold : d.Recorded index (UInt32.ofNat begin') →
        x ∈ covered slices.slices ∪ Set.Ico begin endPos := by
      intro hrec
      exact .inl (h.covered_of_recorded hincomplete begin' hmem hrec x h1 h2 h3)
    cases hrec with
    | inl hdone => exact hold (.inl hdone)
    | inr hreply =>
      rw [List.mem_append, List.mem_singleton] at hreply
      cases hreply with
      | inl hreply => exact hold (.inr hreply)
      | inr heq =>
        right
        simp only [WriteReply.mk.injEq, true_and, and_true] at heq
        have hbegin : begin.toNat = begin' := by
          rw [← heq]
          apply UInt32.toNat_ofNat_of_lt
          apply lt_trans (mem_blockBegins.mp hmem).2 hsize
        rw [Set.mem_Ico, UInt32.le_iff_toNat_le, UInt32.lt_iff_toNat_lt]
        have := hwhole (by rwa [hbegin])
        omega
  . intro hcomplete
    rw [hstored] at hcomplete
    contradiction

theorem PieceInStep.completed {d : Download FileTorrentIo} {index begin endPos : UInt32} {size : Nat}
    {slices : Slices} {replies : List WriteReply} (h : PieceInStep d index size slices)
    (hpos : 0 < size) (hsize : size < 2 ^ 32) (hlt : begin < endPos) (hle : endPos.toNat ≤ size)
    (hfits : ∀ s ∈ slices.slices, Fits begin endPos s)
    (hreplies : ∀ reply ∈ replies, reply.finished = true)
    (hcompleted : (slices.insertRange begin endPos).isComplete = true)
    : PieceInStep { d with written := d.written ++ replies } index size
        (slices.insertRange begin endPos) := by
  obtain ⟨hruns, _, hcovlt⟩ := h.insertRange hlt hle hfits
  constructor
  . apply h.expectedSize_eq
  . exact hruns
  . exact hcovlt
  . intro hincomplete
    rw [hcompleted] at hincomplete
    contradiction
  . intro _
    obtain ⟨begin', hmem, hnot⟩ := h.exists_not_recorded hpos hsize
    refine ⟨begin', hmem, ?_⟩
    intro hrec
    apply hnot
    cases hrec with
    | inl hdone => exact .inl hdone
    | inr hreply =>
      rw [List.mem_append] at hreply
      cases hreply with
      | inl hreply => exact .inr hreply
      | inr hreply =>
        have := hreplies _ hreply
        contradiction

theorem InStep.piece_step {info : V1TorrentInfo} {d d' : Download FileTorrentIo}
    {index begin : UInt32} {block : VecU8} {reply : DownloadReply} (h : InStep info d)
    (hlt : info.pieceLength.toInt < 2 ^ 32)
    (hguard : WholeBlock build d (.piece index begin block))
    (hstep : (downloadTask build (FileTorrentIo.torrentIo build sha1) torrent).step d
      (.piece index begin block) = some (reply, d'))
    : InStep info d' := by
  have hwritten := FileTorrentIo.writePiece_written build sha1 d.io index begin block.val
  simp only [downloadTask, FileTorrentIo.torrentIo] at hstep
  generalize d.io.writePiece build sha1 index begin block.val = res at hwritten hstep
  cases hwritten with
  | refused hstart =>
    simp only [Option.some.injEq, Prod.mk.injEq] at hstep
    rw [← hstep.2]
    exact h
  | torn hstart hinsert =>
    rw [h.insert_eq hlt (FileTorrentIo.startWrite_eq_ok hstart)] at hinsert
    contradiction
  | @stored piece file slices hstart hinsert =>
    have hstarted := FileTorrentIo.startWrite_eq_ok hstart
    obtain ⟨hsize, hle, hof, hend⟩ := h.endPos hlt hstarted
    obtain ⟨hpos, hwhole, hfits⟩ := hguard piece file hstart
    rw [h.insert_eq hlt hstarted, Except.ok.injEq, Prod.mk.injEq] at hinsert
    obtain ⟨hcomplete, rfl⟩ := hinsert
    simp only [Option.some.injEq, Prod.mk.injEq] at hstep
    rw [← hstep.2]
    apply h.set hstarted.get
    . simp
    . apply (h.piece index piece hstarted.get).stored hsize hstarted.incomplete
      . rw [UInt32.lt_iff_toNat_lt]
        omega
      . omega
      . exact hfits
      . rw [h.size_eq _ _ hstarted.get] at hwhole
        intro hmem
        have := hwhole hmem
        omega
      . exact hcomplete
  | @completed piece file slices hstart hinsert =>
    have hstarted := FileTorrentIo.startWrite_eq_ok hstart
    obtain ⟨hsize, hle, hof, hend⟩ := h.endPos hlt hstarted
    obtain ⟨hpos, _, hfits⟩ := hguard piece file hstart
    rw [h.insert_eq hlt hstarted, Except.ok.injEq, Prod.mk.injEq] at hinsert
    obtain ⟨hcomplete, rfl⟩ := hinsert
    have hset : ∀ replies : List WriteReply,
        (∀ reply ∈ replies, reply.index = index ∧ reply.finished = true) →
        InStep info { d with
          io := { d.io with
            file := file.writeAll block.val
            pieceToFile := d.io.pieceToFile.set index.toNat { piece with
              slices := piece.slices.insertRange begin (begin + UInt32.ofNat block.val.length) } }
          written := d.written ++ replies } := by
      intro replies hreplies
      apply h.set hstarted.get
      . exact fun reply hreply => (hreplies reply hreply).1
      . apply (h.piece index piece hstarted.get).completed (h.laidOut.len_pos _) hsize
        . rw [UInt32.lt_iff_toNat_lt]
          omega
        . omega
        . exact hfits
        . exact fun reply hreply => (hreplies reply hreply).2
        . exact hcomplete
    split at hstep
    . next finished io heq =>
      simp only [Prod.mk.injEq] at heq
      obtain ⟨hverify, rfl⟩ := heq
      obtain rfl := FileTorrentIo.verifyPiece_eq_ok hverify
      simp only [Option.some.injEq, Prod.mk.injEq] at hstep
      rw [← hstep.2]
      apply hset
      simp
    . next e io heq =>
      simp only [Prod.mk.injEq] at heq
      obtain ⟨_, rfl⟩ := heq
      simp only [Option.some.injEq, Prod.mk.injEq] at hstep
      rw [← hstep.2]
      have := hset [] (by simp)
      rwa [List.append_nil] at this

theorem InStep.step {info : V1TorrentInfo} {d d' : Download FileTorrentIo} {event : DownloadEvent}
    {reply : DownloadReply} (h : InStep info d) (hlt : info.pieceLength.toInt < 2 ^ 32)
    (hguard : WholeBlock build d event)
    (hstep : (downloadTask build (FileTorrentIo.torrentIo build sha1) torrent).step d event
      = some (reply, d'))
    : InStep info d' := by
  cases event with
  | piece index begin block => apply h.piece_step hlt hguard hstep
  | assign available now =>
    simp only [downloadTask] at hstep
    split at hstep
    . next requests tracker hassign =>
      simp only [Option.some.injEq, Prod.mk.injEq] at hstep
      rw [← hstep.2]
      apply h.of_done_eq (PieceBlockTracker.done_generateAssignments hassign)
    . contradiction
  | undelivered req =>
    simp only [downloadTask, Option.some.injEq, Prod.mk.injEq] at hstep
    rw [← hstep.2]
    apply h.of_done_eq (PieceBlockTracker.done_removeRequest d.tracker req)
  | handle pos =>
    simp only [downloadTask] at hstep
    split at hstep
    . next reply hget =>
      simp only [Option.some.injEq, Prod.mk.injEq] at hstep
      rw [← hstep.2]
      apply h.handle hget
    . contradiction
  | expire now =>
    simp only [downloadTask, Option.some.injEq, Prod.mk.injEq] at hstep
    rw [← hstep.2]
    apply h.of_done_eq (PieceBlockTracker.done_removeExpired d.tracker now)

theorem InStep.noneStranded {info : V1TorrentInfo} {d : Download FileTorrentIo} (h : InStep info d)
    (hlt : info.pieceLength.toInt < 2 ^ 32)
    : d.NoneStranded := by
  intro pieceId hpiece hall
  have hget := List.getElem?_eq_getElem (h.length_eq ▸ hpiece)
  have hmax := h.laidOut.maxPieceSize_eq
  have hlen := h.laidOut.len_le pieceId.toNat
  obtain ⟨begin, hmem, hnot⟩ :=
    (h.piece pieceId _ hget).exists_not_recorded (h.laidOut.len_pos _) (by omega)
  exact absurd (.inl (hall begin hmem)) hnot

theorem noneStranded_of_wholeBlock (build : Build) (sha1 : Bytes → Bytes) (torrent : V1Torrent)
    (maxOutstandingRequests : Nat) (io : FileTorrentIo) (d : Download FileTorrentIo)
    (tr : List (DownloadEvent × DownloadReply)) (hconsistent : torrent.info.Consistent)
    (hlt : torrent.info.pieceLength.toInt < 2 ^ 32)
    (hnew : FileTorrentIo.new build torrent = .ok io)
    (hrun : (downloadTask build (FileTorrentIo.torrentIo build sha1) torrent).RunWhile
      (WholeBlock build) ⟨.new maxOutstandingRequests torrent.info.pieces, io, []⟩ tr d)
    : d.NoneStranded := by
  have hinStep : InStep torrent.info d := by
    apply hrun.invariant (P := InStep torrent.info)
    . intro d1 event reply d2 hguard hstep h1
      apply h1.step hlt hguard hstep
    . apply inStep_new hconsistent hnew maxOutstandingRequests
  apply hinStep.noneStranded hlt

def onePiece (notStarted : Finset UInt32) (outstanding : InprogressPieceToBlockMap)
    (completed : Finset UInt32) (io : FileTorrentIo) (written : List WriteReply)
    : Download FileTorrentIo where
  tracker := {
    PieceBlockTracker.new 1 (torrentFixture 2 2 [[1, 2]]).info.pieces with
    piecesNotStarted := notStarted
    pieceToBlocksOutstanding := outstanding
    piecesCompleted := completed
  }
  io := io
  written := written

def onePieceRequest : PeerRequestedPiece where
  peerId := [5]
  index := 0
  begin := 0
  length := 2

def onePieceAssigned : InprogressPieceToBlockMap :=
  InprogressPieceToBlockMap.empty.insert 0 onePieceRequest

theorem noneStranded_wholePiece
    : (onePiece ∅ ⟨.empty, onePieceAssigned.expirations⟩ {0}
        (FileTorrentIo.onePieceIo [1, 2] 2 ((Slices.new 2).insertRange 0 2)) []).NoneStranded := by
  let io := FileTorrentIo.onePieceIo [1, 2] 2 ((Slices.new 2).insertRange 0 2)
  let d1 := onePiece ∅ onePieceAssigned ∅ (FileTorrentIo.onePieceIo [0, 0] 0 (.new 2)) []
  let d2 := onePiece ∅ onePieceAssigned ∅ io [⟨0, 0, true⟩]
  let block : VecU8 := ⟨[1, 2], by decide⟩
  apply noneStranded_of_wholeBlock ⟨true⟩ Sha1.digest (torrentFixture 2 2 [[1, 2]]) 1 _ _
    [(.assign [(0, [[5]])] fun _ => 0, .assigned [onePieceRequest]),
      (.piece 0 0 block, .written (.ok true)), (.handle 0, .handled ⟨0, 0, true⟩)]
  . decide +kernel
  . decide +kernel
  . apply FileTorrentIo.new_onePieceIo
  . refine .cons trivial (?_ : _ = some (_, d1)) ?_
    . decide +kernel
    refine .cons ?_ (?_ : _ = some (_, d2)) ?_
    . intro piece file hstart
      have hstart' : FileTorrentIo.startWrite ⟨true⟩ d1.io 0 0 block.val
          = .ok (⟨Sha1.digest [1, 2], .new 2, 0, 2⟩, ⟨[0, 0], 0⟩) := by
        decide +kernel
      rw [hstart', Except.ok.injEq, Prod.mk.injEq] at hstart
      obtain ⟨rfl, rfl⟩ := hstart
      exact ⟨by decide, by decide, by simp [Slices.new]⟩
    . decide +kernel
    refine .cons trivial ?_ (.nil _)
    . decide +kernel

theorem not_noneStranded_shortBlock
    : ∃ io tr d, (torrentFixture 2 2 [[1, 2]]).info.Consistent
        ∧ FileTorrentIo.new ⟨true⟩ (torrentFixture 2 2 [[1, 2]]) = .ok io
        ∧ (downloadTask ⟨true⟩ (FileTorrentIo.torrentIo ⟨true⟩ Sha1.digest)
            (torrentFixture 2 2 [[1, 2]])).Run
            ⟨.new 1 (torrentFixture 2 2 [[1, 2]]).info.pieces, io, []⟩ tr d
        ∧ ¬d.NoneStranded := by
  let io := FileTorrentIo.onePieceIo [7, 0] 1 ((Slices.new 2).insertRange 0 1)
  let d1 := onePiece ∅ onePieceAssigned ∅ (FileTorrentIo.onePieceIo [0, 0] 0 (.new 2)) []
  let d2 := onePiece ∅ onePieceAssigned ∅ io [⟨0, 0, false⟩]
  let blocks : PieceToBlockMap := {
    downloading := onePieceAssigned.pieceToBlocksStarted.downloading.eraseAt 0 0
    done := NestedMap.insertAt ∅ 0 0 ⟨onePieceRequest⟩
  }
  let d3 := onePiece ∅ ⟨blocks, onePieceAssigned.expirations⟩ ∅ io []
  let block : VecU8 := ⟨[7], by decide⟩
  refine ⟨_, [(.assign [(0, [[5]])] fun _ => 0, .assigned [onePieceRequest]),
      (.piece 0 0 block, .written (.ok false)), (.handle 0, .handled ⟨0, 0, false⟩)], d3,
    by decide +kernel, FileTorrentIo.new_onePieceIo, ?_, ?_⟩
  . refine .cons trivial (?_ : _ = some (_, d1)) (.cons trivial (?_ : _ = some (_, d2))
      (.cons trivial ?_ (.nil _)))
    . decide +kernel
    . decide +kernel
    . decide +kernel
  . intro h
    have hdone : ∀ begin ∈ blockBegins 2, (d3.tracker.blocks.done.lookupAt 0 (UInt32.ofNat begin)).isSome := by
      decide +kernel
    exact absurd (h 0 (by decide) hdone) (by decide +kernel)

end Download
