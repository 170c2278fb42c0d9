import BenTorrent.Peer.Io.Memory
import BenTorrent.Peer.Io.Verification

/-!
This module contains in which calls `MemoryTorrentIO` and `FileTorrentIO` answer alike.
-/

open Rust

namespace FileTorrentIo

/--
No two pieces share a byte of the file.
-/
def Apart (io : FileTorrentIo) : Prop :=
  io.pieceToFile.Pairwise fun piece1 piece2 =>
    piece1.startIdx + piece1.size ≤ piece2.startIdx ∨ piece2.startIdx + piece2.size ≤ piece1.startIdx

instance (io : FileTorrentIo) : Decidable io.Apart :=
  inferInstanceAs (Decidable (List.Pairwise _ _))

variable {build : Build} {sha1 : Bytes → Bytes}

theorem new_hash {torrent : V1Torrent} {io : FileTorrentIo} (hnew : new build torrent = .ok io)
    {i : Nat} {piece : FilePieceState} (hget : io.pieceToFile[i]? = some piece)
    : (torrent.info.pieces[i]?).map (·.hash) = some piece.hash := by
  obtain ⟨_, _, hpieces⟩ := new_eq_ok hnew
  obtain ⟨hlength, hpieces⟩ := Outcome.mapM_eq_ok hpieces
  obtain ⟨idx, hidx, hpiece⟩ := hpieces i piece hget
  rw [List.getElem?_eq_some_iff] at hidx
  obtain ⟨_, hidx⟩ := hidx
  rw [List.getElem_range] at hidx
  subst hidx
  obtain ⟨v1, pieceLen, start, hv1, _, _, rfl⟩ := newPiece_eq_ok hpiece
  rw [hv1]
  rfl

theorem fullLast_of_apart {torrent : V1Torrent} {io : FileTorrentIo} (h : torrent.info.Consistent)
    (hnew : new build torrent = .ok io) (hapart : io.Apart)
    : torrent.info.FullLast := by
  obtain ⟨hlaid, hlength, hpieces⟩ := new_laidOut h hnew
  by_cases hone : torrent.info.pieces.length = 1
  . exact .inl hone
  obtain ⟨k, hk⟩ : ∃ k, io.allocation.totalPieces = k + 2 := by
    have hpos := hlaid.totalPieces_pos
    have heq := hlaid.totalPieces_eq
    exact ⟨io.allocation.totalPieces - 2, by omega⟩
  have hlast : io.allocation.len (k + 1) = io.allocation.lastPieceSize := by
    have := io.allocation.len_last
    rwa [hk] at this
  have hstart : ∀ (i : Nat) (hi : i < io.pieceToFile.length),
      (io.pieceToFile[i]).startIdx = io.allocation.len i * i
        ∧ (io.pieceToFile[i]).size = io.allocation.len i := by
    intro i hi
    obtain ⟨hi', start, hash, hmul, hpiece⟩ := hpieces i _ (List.getElem?_eq_getElem hi)
    have hle := hlaid.mul_add_len_le_length hi'
    have hlt := Int64.toInt_lt torrent.info.length
    have hcomm : io.allocation.len i * i ≤ i * io.allocation.maxPieceSize := by
      rw [Nat.mul_comm]
      apply Nat.mul_le_mul_left _ (hlaid.len_le i)
    rw [Build.usizeMul_of_fits _ _ _ (by omega), Except.ok.injEq] at hmul
    rw [hpiece, hmul]
    exact ⟨rfl, rfl⟩
  -- a shorter last piece would start inside of an earlier one
  have hmax : io.allocation.lastPieceSize = io.allocation.maxPieceSize := by
    by_contra hne
    have hpos := hlaid.lastPieceSize_pos
    have hle := hlaid.lastPieceSize_le
    have hlt : io.allocation.lastPieceSize < io.allocation.maxPieceSize := by omega
    obtain ⟨j, hj⟩ : ∃ j, io.allocation.lastPieceSize * (k + 1) / io.allocation.maxPieceSize = j :=
      ⟨_, rfl⟩
    have hjlt : j < k + 1 := by
      rw [← hj]
      apply Nat.div_lt_of_lt_mul
      exact Nat.mul_lt_mul_of_pos_right hlt (by omega)
    have hmod := Nat.mod_lt (io.allocation.lastPieceSize * (k + 1)) (Nat.zero_lt_of_lt hlt)
    have hdiv := Nat.div_add_mod' (io.allocation.lastPieceSize * (k + 1)) io.allocation.maxPieceSize
    rw [hj] at hdiv
    have hdisj := List.pairwise_iff_getElem.mp hapart j (k + 1) (by omega) (by omega) hjlt
    obtain ⟨hstart1, hsize1⟩ := hstart j (by omega)
    obtain ⟨hstart2, hsize2⟩ := hstart (k + 1) (by omega)
    rw [hstart1, hsize1, hstart2, hsize2, hlast, io.allocation.len_of_lt j (by omega),
      Nat.mul_comm io.allocation.maxPieceSize j] at hdisj
    omega
  right
  rw [← hlaid.length_eq, ← hlaid.totalPieces_eq, ← hlaid.maxPieceSize_eq, hk, hmax]
  push_cast
  ring

theorem Placed.offset_le {io : FileTorrentIo} {info : V1TorrentInfo} (h : Placed io info) {i : Nat}
    {piece : FilePieceState} (hget : io.pieceToFile[i]? = some piece)
    : i * io.allocation.maxPieceSize + io.allocation.len i ≤ io.file.contents.length
        ∧ i * io.allocation.maxPieceSize + io.allocation.len i < 2 ^ 63 := by
  have hi : i < io.allocation.totalPieces := by
    rw [← h.length_eq]
    exact (List.getElem?_eq_some_iff.mp hget).1
  have hle := h.laidOut.mul_add_len_le_length hi
  have hlength := h.contents_length
  have hlt := Int64.toInt_lt info.length
  omega

theorem Placed.seekOffset_eq {io : FileTorrentIo} {info : V1TorrentInfo} (h : Placed io info)
    {i : Nat} {piece : FilePieceState} (hget : io.pieceToFile[i]? = some piece) {offset : UInt32}
    (hle : offset.toNat ≤ io.allocation.len i)
    : piece.seekOffset build io.file offset
        =
      .ok { io.file with pos := i * io.allocation.maxPieceSize + offset.toNat } := by
  obtain ⟨_, hlt⟩ := h.offset_le hget
  unfold FilePieceState.seekOffset FilePieceState.seek File.seek
  rw [h.startIdx_eq _ _ hget, Build.usizeAdd_of_fits _ _ _ (by omega), Outcome.ok_bind,
    if_pos (by omega)]

theorem Placed.pieceLen_eq {io : FileTorrentIo} {info : V1TorrentInfo} (h : Placed io info) (i : Nat)
    : (io.allocation.pieceLen build i : Outcome AnyError Nat) = .ok (io.allocation.len i) :=
  TorrentAllocation.pieceLen_eq _ _ _ h.laidOut.totalPieces_pos h.laidOut.totalPieces_le

section

variable {io : FileTorrentIo} {info : V1TorrentInfo} {index begin : UInt32} {block : Bytes}
  {piece : FilePieceState}

theorem writePiece_of_badPieceIdx (hget : io.pieceToFile[index.toNat]? = none)
    : io.writePiece build sha1 index begin block
        =
      (.error (.err (.peer (.badPieceIdx index.toNat))), io) := by
  simp [writePiece, startWrite, hget]

theorem Placed.writePiece_of_badBounds (h : Placed io info)
    (hget : io.pieceToFile[index.toNat]? = some piece) (hincomplete : piece.slices.isComplete = false)
    (hblock : block.length < 2 ^ 63)
    (hbounds : io.allocation.len index.toNat < begin.toNat + block.length)
    : io.writePiece build sha1 index begin block
        =
      (.error (.err (.peer (.badBounds index.toNat (begin.toNat + block.length)))), io) := by
  have hbegin := begin.toNat_lt
  unfold FileTorrentIo.writePiece startWrite
  rw [hget]
  dsimp only
  rw [if_neg (by simp [hincomplete]), Build.usizeAdd_of_fits _ _ _ (by omega), Outcome.ok_bind,
    h.pieceLen_eq, Outcome.ok_bind, if_pos hbounds]

theorem Placed.startWrite_of_bounds (h : Placed io info)
    (hget : io.pieceToFile[index.toNat]? = some piece) (hincomplete : piece.slices.isComplete = false)
    (hbounds : begin.toNat + block.length ≤ io.allocation.len index.toNat)
    : io.startWrite build index begin block
        =
      .ok (piece, { io.file with pos := index.toNat * io.allocation.maxPieceSize + begin.toNat }) := by
  obtain ⟨_, hlt⟩ := h.offset_le hget
  unfold startWrite
  rw [hget]
  dsimp only
  rw [if_neg (by simp [hincomplete]), Build.usizeAdd_of_fits _ _ _ (by omega), Outcome.ok_bind,
    h.pieceLen_eq, Outcome.ok_bind, if_neg (by omega), h.seekOffset_eq hget (by omega)]
  rfl

theorem readBack_of_le {file : File} (hsize : piece.size < 2 ^ 63) (hstart : piece.startIdx < 2 ^ 63)
    (hlen : piece.startIdx + piece.size ≤ file.contents.length)
    : ∃ file', piece.readBack file
        = .ok (File.slice file.contents piece.startIdx piece.size, file') := by
  unfold FilePieceState.readBack FilePieceState.seek File.seek FilePieceState.readBlock vecZeros
    File.readExact
  rw [if_pos hstart, Outcome.ok_bind, if_pos hsize, Outcome.ok_bind, if_pos (.inr hlen)]
  exact ⟨_, rfl⟩

theorem verifyPiece_of_hash {file : File} (hsize : piece.size < 2 ^ 63)
    (hstart : piece.startIdx < 2 ^ 63) (hlen : piece.startIdx + piece.size ≤ file.contents.length)
    (hhash : sha1 (File.slice file.contents piece.startIdx piece.size) = piece.hash)
    : verifyPiece sha1 piece index file = .ok true := by
  obtain ⟨file', hread⟩ := readBack_of_le hsize hstart hlen
  have hcompute : piece.computeFileSha1Hash sha1 file = .ok (piece.hash, file') := by
    unfold FilePieceState.computeFileSha1Hash
    rw [hread, Outcome.ok_bind, ← hhash]
    rfl
  unfold verifyPiece
  rw [hcompute, Outcome.ok_bind]
  apply if_pos rfl

theorem Placed.writePiece_of_bounds (build : Build) (sha1 : Bytes → Bytes) (h : Placed io info)
    (hget : io.pieceToFile[index.toNat]? = some piece) (hincomplete : piece.slices.isComplete = false)
    (hbounds : begin.toNat + block.length ≤ io.allocation.len index.toNat)
    (hfits : begin.toNat + block.length < 2 ^ 32)
    : ∃ slices file io', slices = piece.slices.insertRange begin (begin + UInt32.ofNat block.length)
        ∧ file.contents = File.overwrite io.file.contents
          (index.toNat * io.allocation.maxPieceSize + begin.toNat) block
        ∧ io' = { io with
          file := file
          pieceToFile := io.pieceToFile.set index.toNat { piece with slices } }
        ∧ io.writePiece build sha1 index begin block
          = (if slices.isComplete then verifyPiece sha1 { piece with slices } index file
              else .ok false, io') := by
  have hu32 : UInt32.size = 2 ^ 32 := rfl
  have hlen : (UInt32.ofNat block.length).toNat = block.length :=
    UInt32.toNat_ofNat_of_lt' (by omega)
  let file : File :=
    { io.file with pos := index.toNat * io.allocation.maxPieceSize + begin.toNat }
  refine ⟨_, file.writeAll block, _, rfl, ?_, rfl, ?_⟩
  . rfl
  . unfold FileTorrentIo.writePiece
    rw [h.startWrite_of_bounds hget hincomplete hbounds]
    dsimp only
    rw [Slices.insert_of_fits _ _ _ _ (by omega)]
    dsimp only
    split
    . rfl
    . rfl

theorem readPiece_of_badPieceIdx {length : UInt32} (hget : io.pieceToFile[index.toNat]? = none)
    : io.readPiece build index begin length = .error (.err (.peer (.badPieceIdx index.toNat))) := by
  simp [readPiece, hget]

theorem Placed.readPiece_of_badBounds (h : Placed io info) {length : UInt32}
    (hget : io.pieceToFile[index.toNat]? = some piece)
    (hbounds : io.allocation.len index.toNat < begin.toNat + length.toNat)
    : io.readPiece build index begin length
        =
      .error (.err (.peer (.badBounds index.toNat (begin.toNat + length.toNat)))) := by
  have hbegin := begin.toNat_lt
  have hlength := length.toNat_lt
  unfold readPiece
  rw [hget]
  dsimp only
  rw [Build.usizeAdd_of_fits _ _ _ (by omega), Outcome.ok_bind, h.pieceLen_eq, Outcome.ok_bind,
    if_pos hbounds]

theorem Placed.readPiece_of_bounds (build : Build) (h : Placed io info) {length : UInt32}
    (hget : io.pieceToFile[index.toNat]? = some piece)
    (hbounds : begin.toNat + length.toNat ≤ io.allocation.len index.toNat)
    : io.readPiece build index begin length
        =
      if piece.slices.isComplete then
        .ok (File.slice io.file.contents
          (index.toNat * io.allocation.maxPieceSize + begin.toNat) length.toNat)
      else
        .error (.err (.peer (.filePieceNotFinished index))) := by
  have hbegin := begin.toNat_lt
  have hlength := length.toNat_lt
  obtain ⟨hle, _⟩ := h.offset_le hget
  unfold readPiece
  rw [hget]
  dsimp only
  rw [Build.usizeAdd_of_fits _ _ _ (by omega), Outcome.ok_bind, h.pieceLen_eq, Outcome.ok_bind,
    if_neg (by omega)]
  cases hcomplete : piece.slices.isComplete with
  | false => rfl
  | true =>
    rw [Bool.not_true, if_neg Bool.false_ne_true, if_pos rfl, h.seekOffset_eq hget (by omega),
      Outcome.ok_bind]
    unfold FilePieceState.readBlock vecZeros File.readExact
    rw [if_pos (by omega), Outcome.ok_bind, if_pos (.inr (by dsimp only; omega))]
    rfl

end

end FileTorrentIo

def IoMessage.index : IoMessage → UInt32
  | .read index _ _ => index
  | .write index _ _ => index

def IoMessage.endPos : IoMessage → Nat
  | .read _ begin length => begin.toNat + length.toNat
  | .write _ begin block => begin.toNat + block.val.length

namespace TorrentIo

def calls (torrentIo : TorrentIo σ) : Machine σ IoMessage IoReply where
  step io
    | .read index begin length =>
      let (res, io) := torrentIo.readPiece io index begin length
      some (.read res, io)
    | .write index begin block =>
      let (res, io) := torrentIo.writePiece io index begin block.val
      some (.write res, io)

section

variable (build : Build) (sha1 : Bytes → Bytes)

abbrev bothTask : Machine (MemoryTorrentIo × FileTorrentIo) IoMessage (IoReply × IoReply) :=
  (MemoryTorrentIo.torrentIo build).calls.lockstep (FileTorrentIo.torrentIo build sha1).calls

abbrev BothTrace := List (IoMessage × IoReply × IoReply)

/--
If the write completes the piece, then the piece as it stands in memory has the expected hash.
-/
def CompletesRight (torrent : V1Torrent) (io : MemoryTorrentIo) : IoMessage → Prop
  | .read _ _ _ => True
  | .write index begin block =>
    ∀ io' piece, io.writePiece build index begin block.val = (.ok true, io') →
      io'.memory[index.toNat]? = some piece →
      (torrent.info.pieces[index.toNat]?).map (·.hash) = some (sha1 piece.memory)

instance (torrent : V1Torrent) (io : MemoryTorrentIo)
    : (msg : IoMessage) → Decidable (CompletesRight build sha1 torrent io msg)
  | .read _ _ _ => isTrue trivial
  | .write index begin block =>
    let written := io.writePiece build index begin block.val
    decidable_of_iff
      (written.1 = .ok true → ∀ piece ∈ written.2.memory[index.toNat]?,
        (torrent.info.pieces[index.toNat]?).map (·.hash) = some (sha1 piece.memory))
      ⟨fun h io' piece hwrite hget => by
          simp only [written, hwrite, Option.mem_def] at h
          exact h trivial piece hget,
        fun h hwrite piece hget => h _ piece (Prod.ext hwrite rfl) hget⟩

end

/--
What both do with a call: return the same, or fail.
-/
inductive SameOutcome : IoReply → IoReply → Prop where
  | read (bytes : Bytes) : SameOutcome (.read (.ok bytes)) (.read (.ok bytes))
  | write (finished : Bool) : SameOutcome (.write (.ok finished)) (.write (.ok finished))
  | readError (e1 e2 : AnyError)
      : SameOutcome (.read (.error (.err e1))) (.read (.error (.err e2)))
  | writeError (e1 e2 : AnyError)
      : SameOutcome (.write (.error (.err e1))) (.write (.error (.err e2)))

/--
Where the file is stricter: it takes no more writes for a complete piece, returns nothing of any
other, and checks the bounds of a read.
-/
inductive Stricter (io : FileTorrentIo) : IoMessage → IoReply → IoReply → Prop where
  | alreadyComplete {index begin : UInt32} {block : VecU8} {res : Outcome AnyError Bool}
      (hcomplete : FileTorrentIo.Complete io index.toNat) (hres : res ≠ .error .panic)
      : Stricter io (.write index begin block) (.write res)
          (.write (.error (.err (.peer (.fileAlreadyComplete index)))))
  | notFinished {index begin length : UInt32} {bytes : Bytes}
      (hincomplete : ¬FileTorrentIo.Complete io index.toNat)
      : Stricter io (.read index begin length) (.read (.ok bytes))
          (.read (.error (.err (.peer (.filePieceNotFinished index)))))
  | badBounds {index begin length : UInt32} {reply : IoReply}
      (hbounds : io.allocation.len index.toNat < begin.toNat + length.toNat)
      : Stricter io (.read index begin length) reply
          (.read (.error (.err (.peer (.badBounds index.toNat (begin.toNat + length.toNat))))))

/--
A write that the file refused, the piece being complete, and the memory took.
-/
def Rewritten (tr : BothTrace) (i : Nat) : Prop :=
  ∃ index begin block finished, index.toNat = i
    ∧ (.write index begin block, .write (.ok finished),
        .write (.error (.err (.peer (.fileAlreadyComplete index))))) ∈ tr

/--
No range inside of its piece ends at 2^32 or behind.
-/
def Addressable (allocation : TorrentAllocation) (msg : IoMessage) : Prop :=
  msg.endPos ≤ allocation.len msg.index.toNat → msg.endPos < 2 ^ 32

instance (allocation : TorrentAllocation) (msg : IoMessage) : Decidable (Addressable allocation msg) :=
  inferInstanceAs (Decidable (_ → _))

variable {build : Build} {sha1 : Bytes → Bytes} {torrent : V1Torrent}

theorem Rewritten.append {tr1 tr2 : BothTrace} {i : Nat} (h : Rewritten tr1 i)
    : Rewritten (tr1 ++ tr2) i := by
  obtain ⟨index, begin, block, finished, hindex, hmem⟩ := h
  exact ⟨index, begin, block, finished, hindex, List.mem_append_left _ hmem⟩

/--
The pieces that were not rewritten have the same ranges and the same bytes in both.
-/
structure Paired (torrent : V1Torrent) (tr : BothTrace) (io : MemoryTorrentIo × FileTorrentIo)
    : Prop where
  placed : io.2.Placed torrent.info
  length_eq : io.1.memory.length = io.2.allocation.totalPieces
  length_memory : ∀ (i : Nat) (memory : Memory), io.1.memory[i]? = some memory →
    memory.memory.length = io.2.allocation.len i
  hash_eq : ∀ (i : Nat) (piece : FilePieceState), io.2.pieceToFile[i]? = some piece →
    (torrent.info.pieces[i]?).map (·.hash) = some piece.hash
  alike : ∀ (i : Nat) (memory : Memory) (piece : FilePieceState), io.1.memory[i]? = some memory →
    io.2.pieceToFile[i]? = some piece → ¬Rewritten tr i →
      memory.slices = piece.slices
        ∧ memory.memory = File.slice io.2.file.contents (i * io.2.allocation.maxPieceSize)
          (io.2.allocation.len i)

theorem Paired.append {tr : BothTrace} {io : MemoryTorrentIo × FileTorrentIo}
    (h : Paired torrent tr io) (tr' : BothTrace)
    : Paired torrent (tr ++ tr') io where
  placed := h.placed
  length_eq := h.length_eq
  length_memory := h.length_memory
  hash_eq := h.hash_eq
  alike i memory piece hmemory hpiece hnot :=
    h.alike i memory piece hmemory hpiece fun hrewritten => hnot hrewritten.append

theorem paired_new {memoryIo : MemoryTorrentIo} {fileIo : FileTorrentIo}
    (hconsistent : torrent.info.Consistent) (hmemory : MemoryTorrentIo.new build torrent = .ok memoryIo)
    (hfile : FileTorrentIo.new build torrent = .ok fileIo) (hapart : fileIo.Apart)
    : Paired torrent [] (memoryIo, fileIo) := by
  have hplaced := FileTorrentIo.new_placed hconsistent
    (FileTorrentIo.fullLast_of_apart hconsistent hfile hapart) hfile
  obtain ⟨halloc, hcontents, hpieces⟩ := FileTorrentIo.new_eq_ok hfile
  obtain ⟨memoryIo', hmemory', hlength, hget⟩ :=
    MemoryTorrentIo.new_of_consistent halloc hplaced.laidOut
  rw [hmemory, Except.ok.injEq] at hmemory'
  subst hmemory'
  have hmem : ∀ (i : Nat) (memory : Memory), memoryIo.memory[i]? = some memory →
      memory = { memory := List.replicate (fileIo.allocation.len i) 0
                 slices := Slices.new (fileIo.allocation.len i) } := by
    intro i memory hi
    have hlt := (List.getElem?_eq_some_iff.mp hi).1
    rw [hget i (by omega), Option.some.injEq] at hi
    exact hi.symm
  constructor
  . exact hplaced
  . exact hlength
  . intro i memory hi
    rw [hmem i memory hi]
    apply List.length_replicate
  . intro i piece hi
    exact FileTorrentIo.new_hash hfile hi
  . intro i memory piece hi hpiece _
    obtain ⟨_, _, hpieces⟩ := FileTorrentIo.new_laidOut hconsistent hfile
    obtain ⟨_, start, hash, _, rfl⟩ := hpieces i piece hpiece
    obtain ⟨hle, _⟩ := hplaced.offset_le hpiece
    rw [hmem i memory hi]
    refine ⟨rfl, ?_⟩
    dsimp only at hle ⊢
    rw [hcontents, List.length_replicate] at hle
    rw [hcontents, File.slice, List.drop_replicate, List.take_replicate, Nat.min_eq_left (by omega)]

theorem Paired.set (build : Build) (sha1 : Bytes → Bytes) {tr : BothTrace}
    {io : MemoryTorrentIo × FileTorrentIo} (h : Paired torrent tr io) (index begin : UInt32)
    {block : Bytes} (memory : Memory) (call : IoMessage × IoReply × IoReply)
    (hblock : block.length < 2 ^ 63)
    (hlength : memory.memory.length = io.2.allocation.len index.toNat)
    (halike : ∀ piece,
      (io.2.writePiece build sha1 index begin block).2.pieceToFile[index.toNat]? = some piece →
      ¬Rewritten (tr ++ [call]) index.toNat →
      memory.slices = piece.slices
        ∧ memory.memory = File.slice (io.2.writePiece build sha1 index begin block).2.file.contents
          (index.toNat * io.2.allocation.maxPieceSize) (io.2.allocation.len index.toNat))
    : Paired torrent (tr ++ [call]) ({ memory := io.1.memory.set index.toNat memory },
        (io.2.writePiece build sha1 index begin block).2) := by
  have hkept := FileTorrentIo.writePiece_kept build sha1 io.2 index begin block
  have hallocation := hkept.allocation_eq
  -- what the file has of a piece afterwards it had before, except for the one that is written
  have hpieces : ∀ (i : Nat) (piece' : FilePieceState),
      (io.2.writePiece build sha1 index begin block).2.pieceToFile[i]? = some piece' →
      ∃ piece, io.2.pieceToFile[i]? = some piece ∧ piece'.hash = piece.hash
        ∧ (i ≠ index.toNat → piece' = piece) := by
    intro i piece' hi
    have hlt := (List.getElem?_eq_some_iff.mp hi).1
    rw [hkept.length_eq] at hlt
    obtain ⟨piece'', hget, hhash, _, _, heq⟩ := hkept.piece i _ (List.getElem?_eq_getElem hlt)
    rw [hi, Option.some.injEq] at hget
    subst hget
    exact ⟨_, List.getElem?_eq_getElem hlt, hhash, fun hne => heq (.inr hne)⟩
  have hmemories : ∀ (i : Nat) (memory' : Memory),
      (io.1.memory.set index.toNat memory)[i]? = some memory' →
      (i = index.toNat ∧ memory' = memory) ∨ (i ≠ index.toNat ∧ io.1.memory[i]? = some memory') := by
    intro i memory' hi
    by_cases hne : i = index.toNat
    . have hlt := (List.getElem?_eq_some_iff.mp hi).1
      rw [List.length_set] at hlt
      subst hne
      rw [List.getElem?_set_self hlt, Option.some.injEq] at hi
      exact .inl ⟨rfl, hi.symm⟩
    . rw [List.getElem?_set_ne (Ne.symm hne)] at hi
      exact .inr ⟨hne, hi⟩
  constructor
  . exact h.placed.writePiece build sha1 index begin hblock
  . dsimp only
    rw [List.length_set, hallocation]
    exact h.length_eq
  . intro i memory' hi
    rw [hallocation]
    cases hmemories i memory' hi with
    | inl hself =>
      obtain ⟨rfl, rfl⟩ := hself
      exact hlength
    | inr hother => exact h.length_memory i memory' hother.2
  . intro i piece' hi
    obtain ⟨piece, hget, hhash, _⟩ := hpieces i piece' hi
    rw [hhash]
    exact h.hash_eq i piece hget
  . intro i memory' piece' hi hpiece' hnot
    rw [hallocation]
    cases hmemories i memory' hi with
    | inl hself =>
      obtain ⟨rfl, rfl⟩ := hself
      exact halike piece' hpiece' hnot
    | inr hother =>
      obtain ⟨hne, hmemory⟩ := hother
      obtain ⟨piece, hget, _, heq⟩ := hpieces i piece' hpiece'
      rw [heq hne, h.placed.slice_writePiece begin hblock (.inl hne)]
      exact h.alike i memory' piece hmemory hget fun hrewritten => hnot hrewritten.append

theorem Paired.write_complete (build : Build) (sha1 : Bytes → Bytes) {tr : BothTrace}
    {io : MemoryTorrentIo × FileTorrentIo} (h : Paired torrent tr io) {index begin : UInt32}
    {block : VecU8} {memory : Memory} {piece : FilePieceState}
    (hmemory : io.1.memory[index.toNat]? = some memory)
    (hpiece : io.2.pieceToFile[index.toNat]? = some piece)
    (hcomplete : piece.slices.isComplete = true)
    (hbounds : begin.toNat + block.val.length ≤ memory.memory.length)
    (hfits : begin.toNat + block.val.length < 2 ^ 32)
    : ∃ finished io1, io.1.writePiece build index begin block.val = (.ok finished, io1)
        ∧ Paired torrent (tr ++ [(.write index begin block, .write (.ok finished),
            .write (.error (.err (.peer (.fileAlreadyComplete index)))))]) (io1, io.2) := by
  refine ⟨_, _, MemoryTorrentIo.writePiece_of_bounds build hmemory hbounds hfits, ?_⟩
  generalize memory.slices.insertRange begin (begin + UInt32.ofNat block.val.length) = slices
  have hset := h.set build sha1 index begin ⟨File.overwrite memory.memory begin.toNat block.val, slices⟩
    (.write index begin block, .write (.ok slices.isComplete),
      .write (.error (.err (.peer (.fileAlreadyComplete index))))) block.property ?_ ?_
  . rw [FileTorrentIo.writePiece_of_complete hpiece hcomplete] at hset
    exact hset
  . rw [File.length_overwrite _ _ _ hbounds]
    exact h.length_memory _ _ hmemory
  . intro _ _ hnot
    refine absurd ⟨index, begin, block, slices.isComplete, rfl, ?_⟩ hnot
    exact List.mem_append_right _ (List.mem_singleton_self _)

theorem Paired.write_incomplete (build : Build) (sha1 : Bytes → Bytes) {tr : BothTrace}
    {io : MemoryTorrentIo × FileTorrentIo} (h : Paired torrent tr io) {index begin : UInt32}
    {block : VecU8} {memory : Memory} {piece : FilePieceState}
    (hmemory : io.1.memory[index.toNat]? = some memory)
    (hpiece : io.2.pieceToFile[index.toNat]? = some piece)
    (hcomplete : piece.slices.isComplete = false)
    (hbounds : begin.toNat + block.val.length ≤ memory.memory.length)
    (hfits : begin.toNat + block.val.length < 2 ^ 32)
    (hright : CompletesRight build sha1 torrent io.1 (.write index begin block))
    : ∃ finished io1 res io2, io.1.writePiece build index begin block.val = (.ok finished, io1)
        ∧ io.2.writePiece build sha1 index begin block.val = (res, io2)
        ∧ Paired torrent (tr ++ [(.write index begin block, .write (.ok finished), .write res)])
            (io1, io2)
        ∧ (¬Rewritten tr index.toNat → res = .ok finished) := by
  have hlength := h.length_memory _ _ hmemory
  have hmemoryWrite := MemoryTorrentIo.writePiece_of_bounds build hmemory hbounds hfits
  obtain ⟨slices, file, io2, hslices, hcontents, hio2, hfileWrite⟩ :=
    h.placed.writePiece_of_bounds build sha1 hpiece hcomplete (by omega) hfits
  obtain ⟨hle, hlt⟩ := h.placed.offset_le hpiece
  -- the block ends up at the same place of the piece
  have hslice : File.slice file.contents (index.toNat * io.2.allocation.maxPieceSize)
        (io.2.allocation.len index.toNat)
      = File.overwrite (File.slice io.2.file.contents
          (index.toNat * io.2.allocation.maxPieceSize) (io.2.allocation.len index.toNat))
          begin.toNat block.val := by
    rw [hcontents, File.slice_overwrite_of_within _ _ _ _ _ (by omega) hle]
  have hget : io2.pieceToFile[index.toNat]? = some { piece with slices } := by
    rw [hio2]
    exact List.getElem?_set_self (List.getElem?_eq_some_iff.mp hpiece).1
  have halike : ¬Rewritten tr index.toNat →
      memory.slices.insertRange begin (begin + UInt32.ofNat block.val.length) = slices
        ∧ File.overwrite memory.memory begin.toNat block.val
          = File.slice file.contents (index.toNat * io.2.allocation.maxPieceSize)
            (io.2.allocation.len index.toNat) := by
    intro hnot
    obtain ⟨hs, hm⟩ := h.alike _ memory piece hmemory hpiece hnot
    rw [hslices, hs, hslice, hm]
    exact ⟨rfl, rfl⟩
  refine ⟨_, _, _, _, hmemoryWrite, hfileWrite, ?_, ?_⟩
  . have hset := fun call => h.set build sha1 index begin
      ⟨File.overwrite memory.memory begin.toNat block.val,
        memory.slices.insertRange begin (begin + UInt32.ofNat block.val.length)⟩
      call block.property (by rw [File.length_overwrite _ _ _ hbounds, hlength])
    rw [hfileWrite] at hset
    apply hset
    intro piece' hpiece' hnot
    rw [hget, Option.some.injEq] at hpiece'
    subst hpiece' hio2
    exact halike fun hrewritten => hnot hrewritten.append
  . intro hnot
    obtain ⟨hs, hm⟩ := halike hnot
    rw [hs] at hmemoryWrite ⊢
    cases hfinished : slices.isComplete with
    | false => rfl
    | true =>
      rw [hfinished] at hmemoryWrite
      have hhash := hright _ _ hmemoryWrite
        (List.getElem?_set_self (List.getElem?_eq_some_iff.mp hmemory).1)
      rw [h.hash_eq _ _ hpiece, Option.some.injEq] at hhash
      have hstart := h.placed.startIdx_eq _ _ hpiece
      have hsize := h.placed.size_eq _ _ hpiece
      have hcontentsLength : file.contents.length = io.2.file.contents.length := by
        rw [hcontents, File.length_overwrite _ _ _ (by omega)]
      rw [if_pos rfl]
      apply FileTorrentIo.verifyPiece_of_hash
      . dsimp only
        omega
      . dsimp only
        omega
      . dsimp only
        omega
      . dsimp only
        rw [hstart, hsize, hhash, hm]

theorem Paired.write {tr : BothTrace} {io : MemoryTorrentIo × FileTorrentIo}
    (h : Paired torrent tr io) {index begin : UInt32} {block : VecU8}
    (haddr : Addressable io.2.allocation (.write index begin block))
    (hright : CompletesRight build sha1 torrent io.1 (.write index begin block))
    : ∃ res1 io1 res2 io2, io.1.writePiece build index begin block.val = (res1, io1)
        ∧ io.2.writePiece build sha1 index begin block.val = (res2, io2)
        ∧ Paired torrent (tr ++ [(.write index begin block, .write res1, .write res2)]) (io1, io2)
        ∧ (¬Rewritten tr index.toNat → SameOutcome (.write res1) (.write res2)
          ∨ Stricter io.2 (.write index begin block) (.write res1) (.write res2)) := by
  have hblock := block.property
  have hlengths := h.placed.length_eq
  have hlengths' := h.length_eq
  cases hmemory : io.1.memory[index.toNat]? with
  | none =>
    have hpiece : io.2.pieceToFile[index.toNat]? = none := by
      rw [List.getElem?_eq_none_iff] at hmemory ⊢
      omega
    refine ⟨_, _, _, _, MemoryTorrentIo.writePiece_of_badPieceIdx hmemory,
      FileTorrentIo.writePiece_of_badPieceIdx hpiece, h.append _, ?_⟩
    exact fun _ => .inl (.writeError _ _)
  | some memory =>
    have hlt := (List.getElem?_eq_some_iff.mp hmemory).1
    obtain ⟨piece, hpiece⟩ : ∃ piece, io.2.pieceToFile[index.toNat]? = some piece :=
      ⟨_, List.getElem?_eq_getElem (by omega)⟩
    have hlength := h.length_memory _ _ hmemory
    by_cases hbounds : begin.toNat + block.val.length ≤ io.2.allocation.len index.toNat
    . have hfits : begin.toNat + block.val.length < 2 ^ 32 := haddr hbounds
      cases hcomplete : piece.slices.isComplete with
      | true =>
        obtain ⟨finished, io1, hwrite1, hpaired⟩ := h.write_complete build sha1 hmemory hpiece
          hcomplete (by omega) hfits
        refine ⟨_, _, _, _, hwrite1, FileTorrentIo.writePiece_of_complete hpiece hcomplete _ _,
          hpaired, ?_⟩
        exact fun _ => .inr (.alreadyComplete ⟨piece, hpiece, hcomplete⟩ (by simp))
      | false =>
        obtain ⟨finished, io1, res, io2, hwrite1, hwrite2, hpaired, hres⟩ :=
          h.write_incomplete build sha1 hmemory hpiece hcomplete (by omega) hfits hright
        refine ⟨_, _, _, _, hwrite1, hwrite2, hpaired, ?_⟩
        intro hnot
        rw [hres hnot]
        exact .inl (.write finished)
    . have hwrite1 : io.1.writePiece build index begin block.val = _ :=
        MemoryTorrentIo.writePiece_of_badBounds build hmemory hblock (by omega)
      cases hcomplete : piece.slices.isComplete with
      | true =>
        refine ⟨_, _, _, _, hwrite1, FileTorrentIo.writePiece_of_complete hpiece hcomplete _ _,
          h.append _, ?_⟩
        exact fun _ => .inl (.writeError _ _)
      | false =>
        refine ⟨_, _, _, _, hwrite1, h.placed.writePiece_of_badBounds hpiece hcomplete hblock
          (by omega), h.append _, ?_⟩
        exact fun _ => .inl (.writeError _ _)

theorem Paired.read {tr : BothTrace} {io : MemoryTorrentIo × FileTorrentIo}
    (h : Paired torrent tr io) {index begin length : UInt32}
    (haddr : Addressable io.2.allocation (.read index begin length))
    (hnot : ¬Rewritten tr index.toNat)
    : SameOutcome (.read (io.1.readPiece build index begin length))
          (.read (io.2.readPiece build index begin length))
        ∨ Stricter io.2 (.read index begin length) (.read (io.1.readPiece build index begin length))
          (.read (io.2.readPiece build index begin length)) := by
  have hlengths := h.placed.length_eq
  have hlengths' := h.length_eq
  cases hmemory : io.1.memory[index.toNat]? with
  | none =>
    have hpiece : io.2.pieceToFile[index.toNat]? = none := by
      rw [List.getElem?_eq_none_iff] at hmemory ⊢
      omega
    rw [FileTorrentIo.readPiece_of_badPieceIdx hpiece, MemoryTorrentIo.readPiece_of_badPieceIdx hmemory]
    exact .inl (.readError _ _)
  | some memory =>
    have hlt := (List.getElem?_eq_some_iff.mp hmemory).1
    obtain ⟨piece, hpiece⟩ : ∃ piece, io.2.pieceToFile[index.toNat]? = some piece :=
      ⟨_, List.getElem?_eq_getElem (by omega)⟩
    have hlength := h.length_memory _ _ hmemory
    by_cases hbounds : begin.toNat + length.toNat ≤ io.2.allocation.len index.toNat
    . rw [h.placed.readPiece_of_bounds build hpiece hbounds,
        MemoryTorrentIo.readPiece_of_bounds build hmemory (by omega) (haddr hbounds)]
      obtain ⟨hslices, hm⟩ := h.alike _ memory piece hmemory hpiece hnot
      cases hcomplete : piece.slices.isComplete with
      | true =>
        rw [if_pos rfl, hm, File.slice_slice _ _ _ _ _ hbounds]
        exact .inl (.read _)
      | false =>
        rw [if_neg Bool.false_ne_true]
        right
        apply Stricter.notFinished
        intro ⟨piece', hpiece', hcomplete'⟩
        rw [hpiece, Option.some.injEq] at hpiece'
        subst hpiece'
        rw [hcomplete] at hcomplete'
        contradiction
    . rw [h.placed.readPiece_of_badBounds hpiece (by omega)]
      exact .inr (.badBounds (by omega))

theorem step_calls_read {torrentIo : TorrentIo σ} {io io' : σ} {index begin length : UInt32}
    {reply : IoReply} (h : torrentIo.calls.step io (.read index begin length) = some (reply, io'))
    : (reply, io') = (.read (torrentIo.readPiece io index begin length).1,
        (torrentIo.readPiece io index begin length).2) :=
  (Option.some.inj h).symm

theorem step_calls_write {torrentIo : TorrentIo σ} {io io' : σ} {index begin : UInt32}
    {block : VecU8} {reply : IoReply}
    (h : torrentIo.calls.step io (.write index begin block) = some (reply, io'))
    : (reply, io') = (.write (torrentIo.writePiece io index begin block.val).1,
        (torrentIo.writePiece io index begin block.val).2) :=
  (Option.some.inj h).symm

theorem Paired.step {tr : BothTrace} {io io' : MemoryTorrentIo × FileTorrentIo} {msg : IoMessage}
    {replies : IoReply × IoReply} (h : Paired torrent tr io)
    (hright : CompletesRight build sha1 torrent io.1 msg) (haddr : Addressable io.2.allocation msg)
    (hstep : (bothTask build sha1).step io msg = some (replies, io'))
    : Paired torrent (tr ++ [(msg, replies)]) io'
        ∧ (¬Rewritten tr msg.index.toNat →
          SameOutcome replies.1 replies.2 ∨ Stricter io.2 msg replies.1 replies.2) := by
  obtain ⟨reply1, reply2⟩ := replies
  obtain ⟨io1, io2⟩ := io'
  rw [Machine.step_lockstep_iff] at hstep
  obtain ⟨hstep1, hstep2⟩ := hstep
  cases msg with
  | read index begin length =>
    have h1 := step_calls_read hstep1
    have h2 := step_calls_read hstep2
    simp only [MemoryTorrentIo.torrentIo, FileTorrentIo.torrentIo, Prod.mk.injEq] at h1 h2
    obtain ⟨rfl, rfl⟩ := h1
    obtain ⟨rfl, rfl⟩ := h2
    exact ⟨h.append _, fun hnot => h.read haddr hnot⟩
  | write index begin block =>
    obtain ⟨res1, io1', res2, io2', hwrite1, hwrite2, hpaired, hagree⟩ := h.write haddr hright
    have h1 := step_calls_write hstep1
    have h2 := step_calls_write hstep2
    simp only [MemoryTorrentIo.torrentIo, FileTorrentIo.torrentIo, hwrite1, hwrite2,
      Prod.mk.injEq] at h1 h2
    obtain ⟨rfl, rfl⟩ := h1
    obtain ⟨rfl, rfl⟩ := h2
    exact ⟨hpaired, hagree⟩

/--
Up to a write that only the memory took, a call has the same outcome in both, unless it is one of
those with which the file is stricter.
-/
theorem agree_of_run (build : Build) (sha1 : Bytes → Bytes) (torrent : V1Torrent)
    (memoryIo : MemoryTorrentIo) (fileIo : FileTorrentIo) (tr : BothTrace)
    (io : MemoryTorrentIo × FileTorrentIo) (hconsistent : torrent.info.Consistent)
    (hmemory : MemoryTorrentIo.new build torrent = .ok memoryIo)
    (hfile : FileTorrentIo.new build torrent = .ok fileIo) (hapart : fileIo.Apart)
    (hrun : (bothTask build sha1).RunWhile (fun io msg => CompletesRight build sha1 torrent io.1 msg
      ∧ Addressable io.2.allocation msg) (memoryIo, fileIo) tr io)
    : ∀ tr1 msg replies tr2 io1, tr = tr1 ++ (msg, replies) :: tr2 →
        (bothTask build sha1).Run (memoryIo, fileIo) tr1 io1 →
        ¬Rewritten tr1 msg.index.toNat →
        SameOutcome replies.1 replies.2 ∨ Stricter io1.2 msg replies.1 replies.2 := by
  intro tr1 msg replies tr2 io1 htr hrun1 hnot
  subst htr
  obtain ⟨io1', hrun1', hrun2⟩ := Machine.RunWhile.append_iff.mp hrun
  obtain rfl := hrun1.final_unique hrun1'
  obtain ⟨_, ⟨hright, haddr⟩, hstep, _⟩ := Machine.RunWhile.cons_iff.mp hrun2
  have hpaired : Paired torrent tr1 io1 := by
    apply hrun1'.invariant_trace (P := Paired torrent) _
      (paired_new hconsistent hmemory hfile hapart)
    intro tr io msg replies io' hguard hstep h
    exact (h.step hguard.1 hguard.2 hstep).1
  exact (hpaired.step hright haddr hstep).2 hnot

def twoPieces : MemoryTorrentIo × FileTorrentIo where
  fst := { memory := [⟨[0, 0], .new 2⟩, ⟨[0, 0], .new 2⟩] }
  snd := {
    file := ⟨[0, 0, 0, 0], 0⟩
    pieceToFile := [⟨Sha1.digest [5, 6], .new 2, 0, 2⟩, ⟨Sha1.digest [7, 8], .new 2, 2, 2⟩]
    allocation := ⟨2, 2, 2⟩
  }

/--
The second piece comes in two blocks, and the first one in between.
-/
def twoPiecesCalls : List IoMessage :=
  [.write 1 1 ⟨[8], by decide⟩, .write 0 0 ⟨[5, 6], by decide⟩, .write 1 0 ⟨[7], by decide⟩,
    .read 1 1 1, .read 0 0 2]

theorem agree_twoPieces
    : ∃ tr io, tr.map Prod.fst = twoPiecesCalls ∧ (bothTask ⟨true⟩ Sha1.digest).Run twoPieces tr io
        ∧ ∀ tr1 msg replies tr2 io1, tr = tr1 ++ (msg, replies) :: tr2 →
          (bothTask ⟨true⟩ Sha1.digest).Run twoPieces tr1 io1 → ¬Rewritten tr1 msg.index.toNat →
          SameOutcome replies.1 replies.2 ∨ Stricter io1.2 msg replies.1 replies.2 := by
  let guard (io : MemoryTorrentIo × FileTorrentIo) (msg : IoMessage) : Prop :=
    CompletesRight ⟨true⟩ Sha1.digest (torrentFixture 2 4 [[5, 6], [7, 8]]) io.1 msg
      ∧ Addressable io.2.allocation msg
  obtain ⟨tr, io, hrun, hmap, _⟩ := ((bothTask ⟨true⟩ Sha1.digest).restrict guard).exists_run_of_exec
    twoPieces twoPiecesCalls (fun _ => ()) (b := ()) (by decide +kernel)
  have hrun' := Machine.runWhile_of_restrict _ _ hrun
  refine ⟨tr, io, hmap, hrun'.mono fun _ _ _ => trivial, ?_⟩
  exact agree_of_run ⟨true⟩ Sha1.digest (torrentFixture 2 4 [[5, 6], [7, 8]]) _ _ tr io
    (by decide +kernel) (by decide +kernel) (by decide +kernel) (by decide +kernel) hrun'

def onePieceMemory (contents : Bytes) (slices : Slices) : MemoryTorrentIo where
  memory := [{ memory := contents, slices }]

theorem new_onePieceMemory
    : MemoryTorrentIo.new ⟨true⟩ (torrentFixture 2 2 [[1, 2]])
        =
      .ok (onePieceMemory [0, 0] (.new 2)) := by
  decide +kernel

def onePieceReplies : List (IoReply × IoReply) := [
  (.read (.ok [0]), .read (.error (.err (.peer (.filePieceNotFinished 0))))),
  (.write (.ok true), .write (.ok true)),
  (.write (.ok true), .write (.error (.err (.peer (.fileAlreadyComplete 0))))),
  (.read (.error .panic), .read (.error (.err (.peer (.badBounds 0 3)))))
]

/--
The file is stricter with a read of what is unfinished, with a write to what is complete and with a
read out of bounds, and a read up to 2^32 panics in memory even within bounds.
-/
theorem not_sameOutcome_onePiece
    : (¬∀ torrent memoryIo fileIo tr io, torrent.info.Consistent →
          MemoryTorrentIo.new ⟨true⟩ torrent = .ok memoryIo →
          FileTorrentIo.new ⟨true⟩ torrent = .ok fileIo → fileIo.Apart →
          (bothTask ⟨true⟩ Sha1.digest).RunWhile
            (fun io msg => CompletesRight ⟨true⟩ Sha1.digest torrent io.1 msg)
            (memoryIo, fileIo) tr io →
          ∀ call ∈ tr, SameOutcome call.2.1 call.2.2)
      ∧ (∃ tr io, (bothTask ⟨true⟩ Sha1.digest).RunWhile
          (fun io msg => CompletesRight ⟨true⟩ Sha1.digest (torrentFixture 2 2 [[1, 2]]) io.1 msg)
          (onePieceMemory [0, 0] (.new 2), FileTorrentIo.onePieceIo [0, 0] 0 (.new 2)) tr io
        ∧ tr.map Prod.snd = onePieceReplies)
      ∧ ∃ memoryIo, MemoryTorrentIo.new ⟨true⟩ (torrentFixture 4294967296 4294967296 [[]])
          = .ok memoryIo ∧ memoryIo.readPiece ⟨true⟩ 0 4294967295 1 = .error .panic := by
  have hcalls : ∃ tr io, (bothTask ⟨true⟩ Sha1.digest).RunWhile
      (fun io msg => CompletesRight ⟨true⟩ Sha1.digest (torrentFixture 2 2 [[1, 2]]) io.1 msg)
      (onePieceMemory [0, 0] (.new 2), FileTorrentIo.onePieceIo [0, 0] 0 (.new 2)) tr io
        ∧ tr.map Prod.snd = onePieceReplies := by
    let guard (io : MemoryTorrentIo × FileTorrentIo) (msg : IoMessage) : Prop :=
      CompletesRight ⟨true⟩ Sha1.digest (torrentFixture 2 2 [[1, 2]]) io.1 msg
    obtain ⟨tr, io, hrun, _, hreplies⟩ :=
      ((bothTask ⟨true⟩ Sha1.digest).restrict guard).exists_run_of_exec
        (onePieceMemory [0, 0] (.new 2), FileTorrentIo.onePieceIo [0, 0] 0 (.new 2))
        [.read 0 0 1, .write 0 0 ⟨[1, 2], by decide⟩, .write 0 0 ⟨[1], by decide⟩, .read 0 0 3]
        (fun x => x.1.map Prod.snd) (b := onePieceReplies) (by decide +kernel)
    exact ⟨tr, io, Machine.runWhile_of_restrict _ _ hrun, hreplies⟩
  refine ⟨?_, hcalls, ?_⟩
  . intro h
    obtain ⟨tr, io, hrun, hreplies⟩ := hcalls
    have hsame := h _ _ _ tr io (by decide +kernel) new_onePieceMemory FileTorrentIo.new_onePieceIo
      (by decide +kernel) hrun
    match tr with
    | [] => contradiction
    | (msg, replies) :: tr =>
      rw [onePieceReplies, List.map_cons, List.cons.injEq] at hreplies
      have hfirst := hsame _ List.mem_cons_self
      dsimp only at hfirst hreplies
      rw [hreplies.1] at hfirst
      cases hfirst
  . have hconsistent : (torrentFixture 4294967296 4294967296 [[]]).info.Consistent := by
      decide +kernel
    obtain ⟨allocation, halloc, hlaid⟩ :=
      TorrentAllocation.allocateTorrent_of_consistent ⟨true⟩ _ hconsistent
    obtain ⟨memoryIo, hnew, _, hget⟩ := MemoryTorrentIo.new_of_consistent halloc hlaid
    refine ⟨memoryIo, hnew, ?_⟩
    have hget := hget 0 hlaid.totalPieces_pos
    unfold MemoryTorrentIo.readPiece
    rw [show (0 : UInt32).toNat = 0 from rfl, hget]
    rfl

end TorrentIo
