import BenTorrent.Peer.Io.FileLemmas

/-!
This module contains when the file ends up with the bytes that were checked against the hashes.
-/

open Rust

namespace FileTorrentIo

section

variable (build : Build) (sha1 : Bytes → Bytes)

/--
`bytes` is what the write that completed a piece digested and found to have the piece's hash.
-/
def Verified (io : FileTorrentIo) (tr : List (IoMessage × IoReply)) (index : UInt32)
    (bytes : Bytes) : Prop :=
  ∃ tr1 tr2 begin block io1 io2 piece file,
    tr = tr1 ++ (.write index begin block, .write (.ok true)) :: tr2
      ∧ (ioHandlerTask build sha1).Run io tr1 io1
      ∧ io1.writePiece build sha1 index begin block.val = (.ok true, io2)
      ∧ io2.pieceToFile[index.toNat]? = some piece
      ∧ piece.readBack io2.file = .ok (bytes, file)

/--
In every run the bytes verified for a piece stand at the offset of the piece, and the file consists
of them once there are such bytes for every piece.
-/
def FileIntegrity (torrent : V1Torrent) : Prop :=
  ∀ io tr io', new build torrent = .ok io → (ioHandlerTask build sha1).Run io tr io' →
    (∀ index bytes, Verified build sha1 io tr index bytes →
      File.slice io'.file.contents (index.toNat * asUsize torrent.info.pieceLength)
          (io.allocation.len index.toNat) = bytes)
    ∧ ∀ verified : Nat → Bytes,
        (∀ i < io.allocation.totalPieces,
          ∃ index : UInt32, index.toNat = i ∧ Verified build sha1 io tr index (verified i))
        → io'.file.contents = (List.range io.allocation.totalPieces).flatMap verified

end

variable {build : Build} {sha1 : Bytes → Bytes}

structure Placed (io : FileTorrentIo) (info : V1TorrentInfo) : Prop where
  laidOut : TorrentAllocation.LaidOut io.allocation info
  length_eq : io.pieceToFile.length = io.allocation.totalPieces
  contents_length : (io.file.contents.length : Int) = info.length.toInt
  startIdx_eq : ∀ (i : Nat) (piece : FilePieceState), io.pieceToFile[i]? = some piece →
    piece.startIdx = i * io.allocation.maxPieceSize
  size_eq : ∀ (i : Nat) (piece : FilePieceState), io.pieceToFile[i]? = some piece →
    piece.size = io.allocation.len i

theorem new_eq_ok {torrent : V1Torrent} {io : FileTorrentIo} (h : new build torrent = .ok io)
    : TorrentAllocation.allocateTorrent build torrent = (.ok io.allocation : Outcome AnyError _)
        ∧ io.file.contents = List.replicate (asUsize torrent.info.length) 0
        ∧ (List.range io.allocation.totalPieces).mapM (newPiece build torrent io.allocation)
            = .ok io.pieceToFile := by
  unfold new at h
  rw [Outcome.bind_eq_ok] at h
  obtain ⟨allocation, halloc, h⟩ := h
  cases hset : File.createNew.setLen (asUsize torrent.info.length) with
  | none => simp [hset] at h
  | some file =>
    simp only [hset, Outcome.bind_eq_ok, pure, Except.pure, Except.ok.injEq] at h
    obtain ⟨pieces, hpieces, rfl⟩ := h
    refine ⟨halloc, ?_, hpieces⟩
    unfold File.setLen File.createNew at hset
    split at hset
    . simp only [Option.some.injEq] at hset
      simp [← hset]
    . contradiction

theorem newPiece_eq_ok {torrent : V1Torrent} {allocation : TorrentAllocation} {idx : Nat}
    {piece : FilePieceState} (h : newPiece build torrent allocation idx = .ok piece)
    : ∃ v1 pieceLen start, torrent.info.pieces[idx]? = some v1
        ∧ (allocation.pieceLen build idx : Outcome AnyError Nat) = .ok pieceLen
        ∧ (build.usizeMul pieceLen idx : Outcome AnyError Nat) = .ok start
        ∧ piece = FilePieceState.new pieceLen start v1.hash := by
  unfold newPiece at h
  cases hget : torrent.info.pieces[idx]? with
  | none => simp [hget] at h
  | some v1 =>
    simp only [hget, Outcome.bind_eq_ok, pure, Except.pure, Except.ok.injEq] at h
    obtain ⟨pieceLen, hlen, start, hstart, rfl⟩ := h
    exact ⟨v1, pieceLen, start, rfl, hlen, hstart, rfl⟩

theorem new_laidOut {torrent : V1Torrent} {io : FileTorrentIo} (h : torrent.info.Consistent)
    (hnew : new build torrent = .ok io)
    : TorrentAllocation.LaidOut io.allocation torrent.info
        ∧ io.pieceToFile.length = io.allocation.totalPieces
        ∧ ∀ (i : Nat) (piece : FilePieceState), io.pieceToFile[i]? = some piece →
            i < io.allocation.totalPieces ∧ ∃ start hash,
              (build.usizeMul (io.allocation.len i) i : Outcome AnyError Nat) = .ok start
                ∧ piece = FilePieceState.new (io.allocation.len i) start hash := by
  obtain ⟨halloc, _, hpieces⟩ := new_eq_ok hnew
  obtain ⟨allocation, halloc', hlaid⟩ :=
    TorrentAllocation.allocateTorrent_of_consistent build torrent h
  rw [halloc, Except.ok.injEq] at halloc'
  subst halloc'
  obtain ⟨hlength, hget⟩ := Outcome.mapM_eq_ok hpieces
  rw [List.length_range] at hlength
  refine ⟨hlaid, hlength, ?_⟩
  intro i piece hi
  have hi' : i < io.allocation.totalPieces := by
    rw [← hlength]
    exact (List.getElem?_eq_some_iff.mp hi).1
  obtain ⟨idx, hidx, hpiece⟩ := hget i piece hi
  rw [List.getElem?_range hi', Option.some.injEq] at hidx
  subst hidx
  obtain ⟨v1, pieceLen, start, _, hpieceLen, hstart, rfl⟩ := newPiece_eq_ok hpiece
  rw [TorrentAllocation.pieceLen_eq _ _ _ hlaid.totalPieces_pos hlaid.totalPieces_le,
    Except.ok.injEq] at hpieceLen
  subst hpieceLen
  exact ⟨hi', start, v1.hash, hstart, rfl⟩

theorem new_placed {torrent : V1Torrent} {io : FileTorrentIo} (h : torrent.info.Consistent)
    (hfull : torrent.info.FullLast) (hnew : new build torrent = .ok io)
    : Placed io torrent.info := by
  obtain ⟨hlaid, hlength, hpieces⟩ := new_laidOut h hnew
  have hcontents := (new_eq_ok hnew).2.1
  have hlen := asUsize_eq torrent.info.length
  have hlengthInt := hlaid.length_eq
  have hlt := Int64.toInt_lt torrent.info.length
  rw [if_pos (by omega)] at hlen
  constructor
  . exact hlaid
  . exact hlength
  . rw [hcontents, List.length_replicate]
    omega
  . intro i piece hi
    obtain ⟨hi', start, hash, hstart, rfl⟩ := hpieces i piece hi
    have hle := hlaid.mul_add_len_le_length hi'
    rw [Build.usizeMul_of_fits _ _ _ (by rw [hlaid.len_mul hfull hi']; omega),
      Except.ok.injEq] at hstart
    subst hstart
    apply hlaid.len_mul hfull hi'
  . intro i piece hi
    obtain ⟨_, start, hash, _, rfl⟩ := hpieces i piece hi
    rfl

theorem new_of_consistent (build : Build) (torrent : V1Torrent) (h : torrent.info.Consistent)
    : ∃ io, new build torrent = .ok io := by
  obtain ⟨allocation, halloc, hlaid⟩ :=
    TorrentAllocation.allocateTorrent_of_consistent build torrent h
  have hlt := Int64.toInt_lt torrent.info.length
  have hlen := asUsize_eq torrent.info.length
  have hlengthInt := hlaid.length_eq
  rw [if_pos (by omega)] at hlen
  have hpieces : ∀ i ∈ List.range allocation.totalPieces,
      ∃ piece, newPiece build torrent allocation i = .ok piece := by
    intro i hi
    rw [List.mem_range] at hi
    have hle := hlaid.mul_add_len_le_length hi
    have hmul : allocation.len i * i ≤ i * allocation.maxPieceSize := by
      rw [Nat.mul_comm]
      apply Nat.mul_le_mul_left _ (hlaid.len_le i)
    have hget := List.getElem?_eq_getElem (hlaid.totalPieces_eq ▸ hi)
    unfold newPiece
    rw [hget]
    dsimp only
    rw [TorrentAllocation.pieceLen_eq _ _ _ hlaid.totalPieces_pos hlaid.totalPieces_le]
    rw [Outcome.ok_bind, Build.usizeMul_of_fits _ _ _ (by omega)]
    exact ⟨_, rfl⟩
  obtain ⟨pieceToFile, hpieces⟩ := Outcome.exists_mapM_eq_ok hpieces
  unfold new File.setLen
  rw [halloc, Outcome.ok_bind, if_pos (by omega)]
  dsimp only
  rw [hpieces]
  exact ⟨_, rfl⟩

theorem Placed.bounds {io : FileTorrentIo} {info : V1TorrentInfo} (h : Placed io info)
    {index begin : UInt32} {block : Bytes} {piece : FilePieceState} {file : File}
    (hblock : block.length < 2 ^ 63) (hstart : Started build io index begin block piece file)
    : index.toNat < io.allocation.totalPieces
        ∧ index.toNat * io.allocation.maxPieceSize ≤ file.pos
        ∧ file.pos + block.length
            ≤ index.toNat * io.allocation.maxPieceSize + io.allocation.len index.toNat
        ∧ file.pos + block.length ≤ io.file.contents.length := by
  have hindex : index.toNat < io.allocation.totalPieces := by
    rw [← h.length_eq]
    exact (List.getElem?_eq_some_iff.mp hstart.get).1
  have hbegin := begin.toNat_lt
  have hlt := Int64.toInt_lt info.length
  have hle := h.laidOut.mul_add_len_le_length hindex
  have hlength := h.contents_length
  obtain ⟨endPos, pieceLen, hend, hpieceLen, hbound⟩ := hstart.bounds
  rw [Build.usizeAdd_of_fits _ _ _ (by omega), Except.ok.injEq] at hend
  rw [TorrentAllocation.pieceLen_eq _ _ _ h.laidOut.totalPieces_pos h.laidOut.totalPieces_le,
    Except.ok.injEq] at hpieceLen
  obtain ⟨pos, hpos, hfile⟩ := hstart.offset
  rw [h.startIdx_eq _ _ hstart.get, Build.usizeAdd_of_fits _ _ _ (by omega), Except.ok.injEq] at hpos
  have hfilepos : file.pos = pos := by rw [hfile]
  refine ⟨hindex, ?_, ?_, ?_⟩
  . omega
  . omega
  . omega

theorem Placed.writePiece (build : Build) (sha1 : Bytes → Bytes) {io : FileTorrentIo}
    {info : V1TorrentInfo} (h : Placed io info) (index begin : UInt32) {block : Bytes} (hblock : block.length < 2 ^ 63)
    : Placed (io.writePiece build sha1 index begin block).2 info := by
  have hkept := writePiece_kept build sha1 io index begin block
  have hpiece : ∀ (i : Nat) (piece' : FilePieceState),
      (io.writePiece build sha1 index begin block).2.pieceToFile[i]? = some piece' →
        piece'.startIdx = i * io.allocation.maxPieceSize ∧ piece'.size = io.allocation.len i := by
    intro i piece' hi
    have hlt : i < io.pieceToFile.length := by
      rw [← hkept.length_eq]
      exact (List.getElem?_eq_some_iff.mp hi).1
    obtain ⟨piece'', hget, _, hstart, hsize, _⟩ :=
      hkept.piece i io.pieceToFile[i] (List.getElem?_eq_getElem hlt)
    rw [hi, Option.some.injEq] at hget
    subst hget
    rw [hstart, hsize]
    exact ⟨h.startIdx_eq i _ (List.getElem?_eq_getElem hlt),
      h.size_eq i _ (List.getElem?_eq_getElem hlt)⟩
  constructor
  . rw [hkept.allocation_eq]
    apply h.laidOut
  . rw [hkept.allocation_eq, hkept.length_eq]
    apply h.length_eq
  . cases writePiece_contents build sha1 io index begin block with
    | inl heq =>
      rw [heq]
      apply h.contents_length
    | inr hover =>
      obtain ⟨piece, file, hstart, hcontents⟩ := hover
      rw [hcontents, File.length_overwrite _ _ _ (h.bounds hblock hstart).2.2.2]
      apply h.contents_length
  . rw [hkept.allocation_eq]
    exact fun i piece' hi => (hpiece i piece' hi).1
  . rw [hkept.allocation_eq]
    exact fun i piece' hi => (hpiece i piece' hi).2

theorem Placed.slice_writePiece {io : FileTorrentIo} {info : V1TorrentInfo} (h : Placed io info)
    {index : UInt32} (begin : UInt32) {block : Bytes} (hblock : block.length < 2 ^ 63) {i : Nat}
    (hi : i ≠ index.toNat
      ∨ ∃ piece, io.pieceToFile[i]? = some piece ∧ piece.slices.isComplete = true)
    : File.slice (io.writePiece build sha1 index begin block).2.file.contents
          (i * io.allocation.maxPieceSize) (io.allocation.len i)
        =
      File.slice io.file.contents (i * io.allocation.maxPieceSize) (io.allocation.len i) := by
  cases writePiece_contents build sha1 io index begin block with
  | inl heq => rw [heq]
  | inr hover =>
    obtain ⟨piece, file, hstart, hcontents⟩ := hover
    have hbounds := h.bounds hblock hstart
    have hne : i ≠ index.toNat := by
      cases hi with
      | inl hne => exact hne
      | inr hcomplete =>
        obtain ⟨piece', hget, hcomplete⟩ := hcomplete
        rintro rfl
        rw [hstart.get, Option.some.injEq] at hget
        subst hget
        simp [hstart.incomplete] at hcomplete
    rw [hcontents]
    apply File.slice_overwrite_of_disjoint _ _ _ hbounds.2.2.2
    cases Nat.lt_or_gt_of_ne hne with
    | inl hlt =>
      have := h.laidOut.mul_add_len_le hlt
      right
      omega
    | inr hgt =>
      have := h.laidOut.mul_add_len_le hgt
      left
      omega

structure Holds (io : FileTorrentIo) (i : Nat) (bytes : Bytes) : Prop where
  complete : ∃ piece, io.pieceToFile[i]? = some piece ∧ piece.slices.isComplete = true
  slice_eq : File.slice io.file.contents (i * io.allocation.maxPieceSize) (io.allocation.len i)
    = bytes

theorem Holds.writePiece {io : FileTorrentIo} {info : V1TorrentInfo} {i : Nat} {bytes : Bytes}
    (h : Holds io i bytes) (hplaced : Placed io info) (index begin : UInt32) {block : Bytes}
    (hblock : block.length < 2 ^ 63)
    : Holds (io.writePiece build sha1 index begin block).2 i bytes := by
  have hkept := writePiece_kept build sha1 io index begin block
  obtain ⟨piece, hget, hcomplete⟩ := h.complete
  obtain ⟨piece', hget', _, _, _, heq⟩ := hkept.piece i piece hget
  constructor
  . refine ⟨piece', hget', ?_⟩
    rw [heq (.inl hcomplete)]
    exact hcomplete
  . rw [hkept.allocation_eq, hplaced.slice_writePiece begin hblock (.inr h.complete)]
    apply h.slice_eq

theorem holds_of_ok_true {io io' : FileTorrentIo} {info : V1TorrentInfo} (h : Placed io' info)
    {index begin : UInt32} {block bytes : Bytes} {piece : FilePieceState} {file : File}
    (hwrite : io.writePiece build sha1 index begin block = (.ok true, io'))
    (hget : io'.pieceToFile[index.toNat]? = some piece)
    (hread : piece.readBack io'.file = .ok (bytes, file))
    : Holds io' index.toNat bytes := by
  have hwritten := writePiece_written build sha1 io index begin block
  rw [hwrite] at hwritten
  have hcomplete : piece.slices.isComplete = true := by
    generalize hres : (Except.ok true : Outcome AnyError Bool) = res at hwritten
    cases hwritten with
    | refused => contradiction
    | torn => contradiction
    | stored => simp at hres
    | completed hstart hinsert =>
      have hlt := (List.getElem?_eq_some_iff.mp (startWrite_eq_ok hstart).get).1
      rw [List.getElem?_set_self hlt, Option.some.injEq] at hget
      rw [← hget]
      exact (Slices.insert_eq_ok hinsert).1.symm
  refine ⟨⟨piece, hget, hcomplete⟩, ?_⟩
  rw [(FilePieceState.readBack_eq_ok hread).1, h.startIdx_eq _ _ hget, h.size_eq _ _ hget]

theorem Placed.run {io io' : FileTorrentIo} {info : V1TorrentInfo}
    {tr : List (IoMessage × IoReply)} (h : Placed io info)
    (hrun : (ioHandlerTask build sha1).Run io tr io')
    : Placed io' info ∧ io'.allocation = io.allocation
        ∧ ∀ i bytes, Holds io i bytes → Holds io' i bytes := by
  apply ioHandlerTask_invariant
    (P := fun io'' => Placed io'' info ∧ io''.allocation = io.allocation
      ∧ ∀ i bytes, Holds io i bytes → Holds io'' i bytes) hrun
  . intro io1 index begin block _ ⟨hplaced, halloc, hholds⟩
    refine ⟨hplaced.writePiece build sha1 index begin block.property, ?_, ?_⟩
    . rw [(writePiece_kept build sha1 io1 index begin block.val).allocation_eq, halloc]
    . intro i bytes hi
      exact (hholds i bytes hi).writePiece hplaced index begin block.property
  . exact ⟨h, rfl, fun _ _ hi => hi⟩

theorem holds_of_verified {io io' : FileTorrentIo} {info : V1TorrentInfo}
    {tr : List (IoMessage × IoReply)} {index : UInt32} {bytes : Bytes} (h : Placed io info)
    (hrun : (ioHandlerTask build sha1).Run io tr io')
    (hverified : Verified build sha1 io tr index bytes)
    : Holds io' index.toNat bytes := by
  obtain ⟨tr1, tr2, begin, block, io1, io2, piece, file, rfl, hrun1, hwrite, hget, hread⟩ := hverified
  obtain ⟨io1', hrun1', hrun2⟩ := Machine.RunWhile.append_iff.mp hrun
  obtain rfl := hrun1.final_unique hrun1'
  obtain ⟨io2', _, hstep, hrun2⟩ := Machine.RunWhile.cons_iff.mp hrun2
  simp only [ioHandlerTask, hwrite, Option.some.injEq, Prod.mk.injEq, true_and] at hstep
  subst hstep
  have hplaced1 := (h.run hrun1).1
  have hplaced2 : Placed io2 info := by
    have := hplaced1.writePiece build sha1 index begin block.property
    rwa [hwrite] at this
  exact (hplaced2.run hrun2).2.2 _ _ (holds_of_ok_true hplaced2 hwrite hget hread)

theorem Placed.flatMap_slice {io : FileTorrentIo} {info : V1TorrentInfo} (h : Placed io info)
    : (List.range io.allocation.totalPieces).flatMap (fun i =>
          File.slice io.file.contents (i * io.allocation.maxPieceSize) (io.allocation.len i))
        =
      io.file.contents := by
  have hfull : ∀ k ≤ io.allocation.totalPieces - 1,
      (List.range k).flatMap (fun i =>
          File.slice io.file.contents (i * io.allocation.maxPieceSize) (io.allocation.len i))
        = File.slice io.file.contents 0 (k * io.allocation.maxPieceSize) := by
    intro k hk
    induction k with
    | zero => simp [File.slice]
    | succ k ih =>
      rw [List.range_succ, List.flatMap_append, ih (by omega), List.flatMap_singleton]
      rw [TorrentAllocation.len_of_lt _ _ (by omega)]
      have := File.slice_append_slice io.file.contents 0 (k * io.allocation.maxPieceSize)
        io.allocation.maxPieceSize
      rw [Nat.zero_add] at this
      rw [this, Nat.succ_mul]
  have hpos := h.laidOut.totalPieces_pos
  have hsucc : io.allocation.totalPieces = io.allocation.totalPieces - 1 + 1 := by omega
  have hlength : (io.allocation.totalPieces - 1) * io.allocation.maxPieceSize
      + io.allocation.lastPieceSize = io.file.contents.length := by
    have h1 := h.laidOut.length_eq
    have h2 := h.contents_length
    omega
  rw [hsucc, List.range_succ, List.flatMap_append, hfull _ (Nat.le_refl _), List.flatMap_singleton]
  rw [TorrentAllocation.len_last]
  have := File.slice_append_slice io.file.contents 0
    ((io.allocation.totalPieces - 1) * io.allocation.maxPieceSize) io.allocation.lastPieceSize
  rw [Nat.zero_add] at this
  rw [this, hlength, File.slice_self]

theorem fileIntegrity_of_fullLast (build : Build) (sha1 : Bytes → Bytes) (torrent : V1Torrent)
    (h : torrent.info.Consistent) (hfull : torrent.info.FullLast)
    : FileIntegrity build sha1 torrent := by
  intro io tr io' hnew hrun
  have hplaced := new_placed h hfull hnew
  have hmax : io.allocation.maxPieceSize = asUsize torrent.info.pieceLength := by
    have h1 := hplaced.laidOut.maxPieceSize_eq
    have h2 := asUsize_eq torrent.info.pieceLength
    rw [if_pos (by omega)] at h2
    omega
  obtain ⟨hplaced', halloc, _⟩ := hplaced.run hrun
  have hslice : ∀ index bytes, Verified build sha1 io tr index bytes →
      File.slice io'.file.contents (index.toNat * io.allocation.maxPieceSize)
        (io.allocation.len index.toNat) = bytes := by
    intro index bytes hverified
    rw [← halloc]
    exact (holds_of_verified hplaced hrun hverified).slice_eq
  refine ⟨by rwa [← hmax], ?_⟩
  intro verified hverified
  rw [← hplaced'.flatMap_slice, halloc]
  apply List.flatMap_congr
  intro i hi
  obtain ⟨index, rfl, hi⟩ := hverified i (List.mem_range.mp hi)
  exact hslice index _ hi

theorem fileIntegrity_fullLast
    : FileIntegrity ⟨true⟩ Sha1.digest (torrentFixture 2 4 [[1, 2], [3, 4]]) :=
  fileIntegrity_of_fullLast ⟨true⟩ Sha1.digest _ (by decide +kernel) (by decide +kernel)

theorem not_fileIntegrity_shortLast
    : (torrentFixture 2 3 [[1, 2], [7]]).info.Consistent
        ∧ ¬FileIntegrity ⟨true⟩ Sha1.digest (torrentFixture 2 3 [[1, 2], [7]]) := by
  refine ⟨by decide +kernel, ?_⟩
  intro h
  let piece : FilePieceState := ⟨Sha1.digest [7], Slices.new 1, 1, 1⟩
  let io : FileTorrentIo := {
    file := ⟨[0, 0, 0], 0⟩
    pieceToFile := [⟨Sha1.digest [1, 2], Slices.new 2, 0, 2⟩, piece]
    allocation := ⟨2, 2, 1⟩
  }
  let piece' : FilePieceState := { piece with slices := (Slices.new 1).insertRange 0 1 }
  let io' : FileTorrentIo := {
    file := ⟨[0, 7, 0], 2⟩
    pieceToFile := [⟨Sha1.digest [1, 2], Slices.new 2, 0, 2⟩, piece']
    allocation := ⟨2, 2, 1⟩
  }
  have hnew : new ⟨true⟩ (torrentFixture 2 3 [[1, 2], [7]]) = .ok io := by decide +kernel
  have hwrite : io.writePiece ⟨true⟩ Sha1.digest 1 0 [7] = (.ok true, io') := by decide +kernel
  have hrun : (ioHandlerTask ⟨true⟩ Sha1.digest).Run io
      [(.write 1 0 ⟨[7], by decide⟩, .write (.ok true))] io' := by
    apply Machine.RunWhile.cons trivial _ (.nil io')
    simp only [ioHandlerTask, hwrite]
  have hverified : Verified ⟨true⟩ Sha1.digest io
      [(.write 1 0 ⟨[7], by decide⟩, .write (.ok true))] 1 [7] := by
    refine ⟨[], [], 0, ⟨[7], by decide⟩, io, io', piece', ⟨[0, 7, 0], 2⟩, rfl, .nil io, hwrite, rfl, ?_⟩
    decide +kernel
  have hslice := (h io _ io' hnew hrun).1 1 [7] hverified
  exact absurd hslice (by decide +kernel)

end FileTorrentIo
