import BenTorrent.Interval.Cover
import BenTorrent.Peer.Io.Agreement

/-!
This module contains what becomes of the blocks of a torrent's content in `FileTorrentIO`: each is
taken as long as its piece is not complete.
-/

open Rust Interval

namespace FileTorrentIo

/--
What the lengths and the hashes of the torrent describe, piece by piece.
-/
structure IsContent (sha1 : Bytes → Bytes) (torrent : V1Torrent) (allocation : TorrentAllocation)
    (content : Nat → Bytes) : Prop where
  length_eq : ∀ i < allocation.totalPieces, (content i).length = allocation.len i
  hash_eq : ∀ i hash, (torrent.info.pieces[i]?).map (·.hash) = some hash → sha1 (content i) = hash

/--
Where a piece has ranges, its part of the file has the content.
-/
structure Carries (sha1 : Bytes → Bytes) (info : V1TorrentInfo) (content : Nat → Bytes)
    (io : FileTorrentIo) : Prop where
  placed : io.Placed info
  length_eq : ∀ i < io.allocation.totalPieces, (content i).length = io.allocation.len i
  max_lt : io.allocation.maxPieceSize < 2 ^ 32
  hash_eq : ∀ (i : Nat) (piece : FilePieceState), io.pieceToFile[i]? = some piece →
    sha1 (content i) = piece.hash
  expectedSize_eq : ∀ (i : Nat) (piece : FilePieceState), io.pieceToFile[i]? = some piece →
    piece.slices.expectedSize = io.allocation.len i
  written : ∀ (i : Nat) (piece : FilePieceState), io.pieceToFile[i]? = some piece →
    ∀ x ∈ covered piece.slices.slices, x.toNat < io.allocation.len i
      ∧ io.file.contents[i * io.allocation.maxPieceSize + x.toNat]? = (content i)[x.toNat]?

variable {build : Build} {sha1 : Bytes → Bytes} {torrent : V1Torrent} {info : V1TorrentInfo}
  {content : Nat → Bytes} {io : FileTorrentIo}

theorem carries_new (hconsistent : torrent.info.Consistent)
    (hlength : torrent.info.pieceLength.toInt < 2 ^ 32) (hnew : new build torrent = .ok io)
    (hapart : io.Apart) (hcontent : IsContent sha1 torrent io.allocation content)
    : Carries sha1 torrent.info content io := by
  have hplaced := new_placed hconsistent (fullLast_of_apart hconsistent hnew hapart) hnew
  obtain ⟨_, _, hpieces⟩ := new_laidOut hconsistent hnew
  constructor
  . exact hplaced
  . exact hcontent.length_eq
  . have := hplaced.laidOut.maxPieceSize_eq
    omega
  . intro i piece hget
    exact hcontent.hash_eq i _ (new_hash hnew hget)
  . intro i piece hget
    obtain ⟨_, start, hash, _, rfl⟩ := hpieces i piece hget
    rfl
  . intro i piece hget x hx
    obtain ⟨_, start, hash, _, rfl⟩ := hpieces i piece hget
    obtain ⟨slice, hslice, _⟩ := hx
    contradiction

theorem Carries.slice_eq (h : Carries sha1 info content io) {i : Nat} {piece : FilePieceState}
    (hget : io.pieceToFile[i]? = some piece) (hcomplete : piece.slices.isComplete = true)
    : File.slice io.file.contents (i * io.allocation.maxPieceSize) (io.allocation.len i)
        =
      content i := by
  have hi : i < io.allocation.totalPieces := by
    rw [← h.placed.length_eq]
    exact (List.getElem?_eq_some_iff.mp hget).1
  have hlen := h.length_eq i hi
  have hlt : io.allocation.len i < 2 ^ 32 :=
    lt_of_le_of_lt (h.placed.laidOut.len_le i) h.max_lt
  have hu32 : UInt32.size = 2 ^ 32 := rfl
  rw [Slices.isComplete_iff, h.expectedSize_eq i piece hget] at hcomplete
  apply List.ext_getElem?
  intro idx
  rw [File.slice_getElem?]
  split
  . next hidx =>
    have hto : (UInt32.ofNat idx).toNat = idx := UInt32.toNat_ofNat_of_lt' (by omega)
    have hcov : UInt32.ofNat idx ∈ covered piece.slices.slices := by
      rw [hcomplete]
      refine ⟨(0, UInt32.ofNat (io.allocation.len i)), by simp, by simp, ?_⟩
      rw [UInt32.lt_iff_toNat_lt, hto, UInt32.toNat_ofNat_of_lt' (by omega)]
      exact hidx
    have hwritten := (h.written i piece hget _ hcov).2
    rw [hto] at hwritten
    exact hwritten
  . rw [List.getElem?_eq_none (by omega)]

section

variable {index begin : UInt32} {block : Bytes} {piece : FilePieceState}

theorem Carries.fits (h : Carries sha1 info content io) {i n : Nat} (hle : n ≤ io.allocation.len i)
    : n < 2 ^ 32 :=
  lt_of_le_of_lt (Nat.le_trans hle (h.placed.laidOut.len_le i)) h.max_lt

theorem Carries.stored (h : Carries sha1 info content io) {file : File} {io' : FileTorrentIo}
    (hget : io.pieceToFile[index.toNat]? = some piece)
    (hbounds : begin.toNat + block.length ≤ io.allocation.len index.toNat)
    (htrue : block = File.slice (content index.toNat) begin.toNat block.length)
    (hcontents : file.contents = File.overwrite io.file.contents
      (index.toNat * io.allocation.maxPieceSize + begin.toNat) block)
    (hio' : io' = { io with
      file := file
      pieceToFile := io.pieceToFile.set index.toNat { piece with
        slices := piece.slices.insertRange begin (begin + UInt32.ofNat block.length) } })
    (hplaced : io'.Placed info)
    : Carries sha1 info content io' := by
  obtain ⟨hle, _⟩ := h.placed.offset_le hget
  have hlt := (List.getElem?_eq_some_iff.mp hget).1
  have hoverwrite : ∀ idx, file.contents[idx]?
      = if index.toNat * io.allocation.maxPieceSize + begin.toNat ≤ idx
          ∧ idx < index.toNat * io.allocation.maxPieceSize + begin.toNat + block.length then
        block[idx - (index.toNat * io.allocation.maxPieceSize + begin.toNat)]?
      else
        io.file.contents[idx]? := by
    intro idx
    rw [hcontents, File.overwrite_getElem? _ _ _ (by omega)]
  have hpieces : ∀ (i : Nat) (piece' : FilePieceState), io'.pieceToFile[i]? = some piece' →
      (i = index.toNat ∧ piece' = { piece with
        slices := piece.slices.insertRange begin (begin + UInt32.ofNat block.length) })
      ∨ (i ≠ index.toNat ∧ io.pieceToFile[i]? = some piece') := by
    intro i piece' hi
    rw [hio'] at hi
    dsimp only at hi
    by_cases hne : i = index.toNat
    . subst hne
      rw [List.getElem?_set_self hlt, Option.some.injEq] at hi
      exact .inl ⟨rfl, hi.symm⟩
    . rw [List.getElem?_set_ne (Ne.symm hne)] at hi
      exact .inr ⟨hne, hi⟩
  have halloc : io'.allocation = io.allocation := by rw [hio']
  have hfile : io'.file = file := by rw [hio']
  constructor
  . exact hplaced
  . rw [halloc]
    exact h.length_eq
  . rw [halloc]
    exact h.max_lt
  . intro i piece' hi
    rcases hpieces i piece' hi with ⟨rfl, rfl⟩ | ⟨_, hother⟩
    . exact h.hash_eq _ piece hget
    . exact h.hash_eq i piece' hother
  . intro i piece' hi
    rw [halloc]
    rcases hpieces i piece' hi with ⟨rfl, rfl⟩ | ⟨_, hother⟩
    . exact h.expectedSize_eq _ piece hget
    . exact h.expectedSize_eq i piece' hother
  . intro i piece' hi x hx
    rw [halloc, hfile, hoverwrite]
    rcases hpieces i piece' hi with ⟨rfl, rfl⟩ | ⟨hne, hother⟩
    . have hblockLength : (UInt32.ofNat block.length).toNat = block.length :=
        UInt32.toNat_ofNat_of_lt' (h.fits (i := index.toNat) (by omega))
      have hsum := h.fits hbounds
      have hrange : x ∈ Set.Ico begin (begin + UInt32.ofNat block.length)
          ↔ begin.toNat ≤ x.toNat ∧ x.toNat < begin.toNat + block.length := by
        have hrange : begin.toNat + (UInt32.ofNat block.length).toNat < 2 ^ 32 := by omega
        have hmem := @Slices.mem_blockRange (begin, UInt32.ofNat block.length) hrange x
        dsimp only at hmem
        rwa [hblockLength] at hmem
      by_cases hin : begin.toNat ≤ x.toNat ∧ x.toNat < begin.toNat + block.length
      . refine ⟨by omega, ?_⟩
        rw [if_pos (by omega), htrue, File.slice_getElem?, if_pos (by omega)]
        congr 1
        omega
      . have hinserted := insertSlice_inserted piece.slices.starts begin
          (begin + UInt32.ofNat block.length)
        have hold : x ∈ covered piece.slices.slices := by
          refine (hinserted.covered_subset hx).resolve_right ?_
          rwa [hrange]
        have hwritten := h.written _ piece hget x hold
        refine ⟨hwritten.1, ?_⟩
        rw [if_neg (by omega)]
        exact hwritten.2
    . have hwritten := h.written i piece' hother x hx
      refine ⟨hwritten.1, ?_⟩
      -- the block lies within the part of another piece
      rw [if_neg]
      . exact hwritten.2
      . cases Nat.lt_or_gt_of_ne hne with
        | inl hbefore =>
          have := h.placed.laidOut.mul_add_len_le hbefore
          omega
        | inr hbehind =>
          have := h.placed.laidOut.mul_add_len_le hbehind
          omega

theorem Carries.writePiece_of_bounds (build : Build) (h : Carries sha1 info content io)
    (hget : io.pieceToFile[index.toNat]? = some piece) (hincomplete : piece.slices.isComplete = false)
    (hbounds : begin.toNat + block.length ≤ io.allocation.len index.toNat)
    (htrue : block = File.slice (content index.toNat) begin.toNat block.length)
    : Carries sha1 info content (io.writePiece build sha1 index begin block).2
        ∧ ∃ finished, (io.writePiece build sha1 index begin block).1 = .ok finished := by
  have hfits := h.fits hbounds
  obtain ⟨slices, file, io', rfl, hcontents, hio', hwrite⟩ :=
    h.placed.writePiece_of_bounds build sha1 hget hincomplete hbounds hfits
  have hblock : block.length < 2 ^ 63 := by omega
  have hplaced := h.placed.writePiece build sha1 index begin hblock
  rw [hwrite] at hplaced ⊢
  have hcarries := h.stored hget hbounds htrue hcontents hio' hplaced
  refine ⟨hcarries, ?_⟩
  dsimp only
  split
  . next hcomplete =>
    obtain ⟨hle, hlt⟩ := h.placed.offset_le hget
    have hget' : io'.pieceToFile[index.toNat]? = some { piece with
        slices := piece.slices.insertRange begin (begin + UInt32.ofNat block.length) } := by
      rw [hio']
      exact List.getElem?_set_self (List.getElem?_eq_some_iff.mp hget).1
    have hslice := hcarries.slice_eq hget' hcomplete
    have hhash := hcarries.hash_eq _ _ hget'
    have hstart := h.placed.startIdx_eq _ _ hget
    have hsize := h.placed.size_eq _ _ hget
    have hlength : file.contents.length = io.file.contents.length := by
      rw [hcontents, File.length_overwrite _ _ _ (by omega)]
    rw [hio'] at hslice
    refine ⟨true, verifyPiece_of_hash ?_ ?_ ?_ ?_⟩
    . dsimp only
      omega
    . dsimp only
      omega
    . dsimp only
      omega
    . dsimp only at hslice ⊢
      rw [hstart, hsize, hslice]
      exact hhash
  . exact ⟨false, rfl⟩

theorem Carries.writePiece (build : Build) (h : Carries sha1 info content io)
    (htrue : block = File.slice (content index.toNat) begin.toNat block.length)
    : Carries sha1 info content (io.writePiece build sha1 index begin block).2 := by
  cases hget : io.pieceToFile[index.toNat]? with
  | none =>
    rw [FileTorrentIo.writePiece_of_badPieceIdx hget]
    exact h
  | some piece =>
    cases hcomplete : piece.slices.isComplete with
    | true =>
      rw [writePiece_of_complete hget hcomplete]
      exact h
    | false =>
      by_cases hbounds : begin.toNat + block.length ≤ io.allocation.len index.toNat
      . exact (h.writePiece_of_bounds build hget hcomplete hbounds htrue).1
      . have hindex := (List.getElem?_eq_some_iff.mp hget).1
        rw [h.placed.length_eq] at hindex
        -- there is no more of a block than there is of its piece
        have hblock : block.length ≤ (content index.toNat).length := by
          rw [htrue, File.slice, List.length_take, List.length_drop]
          omega
        rw [h.length_eq _ hindex] at hblock
        have hlt := h.fits hblock
        rw [h.placed.writePiece_of_badBounds hget hcomplete (by omega) (by omega)]
        exact h

theorem Carries.writePiece_eq_error_iff (build : Build) (h : Carries sha1 info content io)
    (hindex : index.toNat < io.allocation.totalPieces)
    (hbounds : begin.toNat + block.length ≤ io.allocation.len index.toNat)
    (htrue : block = File.slice (content index.toNat) begin.toNat block.length)
    : (∃ e, (io.writePiece build sha1 index begin block).1 = .error e) ↔ io.Complete index.toNat := by
  rw [← h.placed.length_eq] at hindex
  have hget := List.getElem?_eq_getElem hindex
  cases hcomplete : (io.pieceToFile[index.toNat]).slices.isComplete with
  | true =>
    rw [writePiece_of_complete hget hcomplete]
    exact ⟨fun _ => ⟨_, hget, hcomplete⟩, fun _ => ⟨_, rfl⟩⟩
  | false =>
    obtain ⟨finished, hok⟩ := (h.writePiece_of_bounds build hget hcomplete hbounds htrue).2
    constructor
    . intro ⟨e, herror⟩
      rw [hok] at herror
      contradiction
    . intro ⟨piece', hget', hcomplete'⟩
      rw [hget, Option.some.injEq] at hget'
      rw [← hget', hcomplete] at hcomplete'
      contradiction

end

end FileTorrentIo
