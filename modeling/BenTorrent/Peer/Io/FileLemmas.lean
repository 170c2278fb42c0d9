import BenTorrent.Peer.Io.File

/-!
This module contains what a call of `write_piece` can do, and what the calls leave as it is.
-/

open Rust

variable {build : Build} {sha1 : Bytes → Bytes}

namespace FilePieceState

theorem seek_eq_ok {file file' : File} {offset : Nat} (h : seek file offset = .ok file')
    : file' = { file with pos := offset } := by
  unfold seek File.seek at h
  split at h
  . next hseek =>
    split at hseek
    . simp_all
    . contradiction
  . contradiction

theorem readBlock_eq_ok {file file' : File} {len : Nat} {bytes : Bytes}
    (h : readBlock file len = .ok (bytes, file'))
    : bytes = File.slice file.contents file.pos len
        ∧ (len = 0 ∨ file.pos + len ≤ file.contents.length) := by
  unfold readBlock File.readExact at h
  rw [Outcome.bind_eq_ok] at h
  obtain ⟨_, _, h⟩ := h
  split at h
  . next hread =>
    split at hread
    . next hlen => simp_all
    . contradiction
  . contradiction

theorem readBack_eq_ok {piece : FilePieceState} {file file' : File} {bytes : Bytes}
    (h : piece.readBack file = .ok (bytes, file'))
    : bytes = File.slice file.contents piece.startIdx piece.size
        ∧ (piece.size = 0 ∨ piece.startIdx + piece.size ≤ file.contents.length) := by
  unfold readBack at h
  rw [Outcome.bind_eq_ok] at h
  obtain ⟨file1, hseek, hread⟩ := h
  rw [seek_eq_ok hseek] at hread
  apply readBlock_eq_ok hread

theorem readBack_eq_error {piece : FilePieceState} {file : File} {e : Fault AnyError}
    (h : piece.readBack file = .error e)
    : e = .panic ∨ ∃ kind, e = .err (.io kind) := by
  unfold readBack readBlock seek vecZeros at h
  simp only [Outcome.bind_eq_error] at h
  obtain h | ⟨file1, _, h | ⟨_, _, h⟩⟩ := h
  . split at h
    . contradiction
    . exact .inr ⟨_, (Except.error.inj h).symm⟩
  . split at h
    . contradiction
    . exact .inl (Except.error.inj h).symm
  . split at h
    . contradiction
    . exact .inr ⟨_, (Except.error.inj h).symm⟩

end FilePieceState

namespace FileTorrentIo

/--
The ways a call of `write_piece` can go: it is turned away before it touches the file, the
computation of the range's end panics, the piece stays incomplete, or its hash is checked.
-/
inductive Written (build : Build) (sha1 : Bytes → Bytes) (io : FileTorrentIo)
    (index begin : UInt32) (block : Bytes) : Outcome AnyError Bool × FileTorrentIo → Prop where
  | refused {e : Fault AnyError} (hstart : io.startWrite build index begin block = .error e)
      : Written build sha1 io index begin block (.error e, io)
  | torn {piece : FilePieceState} {file : File} {e : Fault AnyError}
      (hstart : io.startWrite build index begin block = .ok (piece, file))
      (hinsert : piece.slices.insert build begin (UInt32.ofNat block.length) = .error e)
      : Written build sha1 io index begin block (.error e, { io with file := file.writeAll block })
  | stored {piece : FilePieceState} {file : File} {slices : Slices}
      (hstart : io.startWrite build index begin block = .ok (piece, file))
      (hinsert : (piece.slices.insert build begin (UInt32.ofNat block.length)
        : Outcome AnyError (Bool × Slices)) = .ok (false, slices))
      : Written build sha1 io index begin block
          (.ok false, { io with
            file := file.writeAll block
            pieceToFile := io.pieceToFile.set index.toNat { piece with slices } })
  | completed {piece : FilePieceState} {file : File} {slices : Slices}
      (hstart : io.startWrite build index begin block = .ok (piece, file))
      (hinsert : (piece.slices.insert build begin (UInt32.ofNat block.length)
        : Outcome AnyError (Bool × Slices)) = .ok (true, slices))
      : Written build sha1 io index begin block
          (verifyPiece sha1 { piece with slices } index (file.writeAll block), { io with
            file := file.writeAll block
            pieceToFile := io.pieceToFile.set index.toNat { piece with slices } })

theorem writePiece_written (build : Build) (sha1 : Bytes → Bytes) (io : FileTorrentIo) (index begin : UInt32) (block : Bytes)
    : Written build sha1 io index begin block (io.writePiece build sha1 index begin block) := by
  unfold writePiece
  cases hstart : io.startWrite build index begin block with
  | error e => exact .refused hstart
  | ok started =>
    obtain ⟨piece, file⟩ := started
    dsimp only
    cases hinsert : (piece.slices.insert build begin (UInt32.ofNat block.length)
      : Outcome AnyError (Bool × Slices)) with
    | error e => exact .torn hstart hinsert
    | ok inserted =>
      obtain ⟨finished, slices⟩ := inserted
      cases finished with
      | true => exact .completed hstart hinsert
      | false => exact .stored hstart hinsert

structure Started (build : Build) (io : FileTorrentIo) (index begin : UInt32) (block : Bytes)
    (piece : FilePieceState) (file : File) : Prop where
  get : io.pieceToFile[index.toNat]? = some piece
  incomplete : piece.slices.isComplete = false
  bounds : ∃ endPos pieceLen,
    (build.usizeAdd begin.toNat block.length : Outcome AnyError Nat) = .ok endPos
      ∧ (io.allocation.pieceLen build index.toNat : Outcome AnyError Nat) = .ok pieceLen
      ∧ endPos ≤ pieceLen
  offset : ∃ pos, (build.usizeAdd piece.startIdx begin.toNat : Outcome AnyError Nat) = .ok pos
    ∧ file = { io.file with pos := pos }

theorem startWrite_eq_ok {io : FileTorrentIo} {index begin : UInt32} {block : Bytes}
    {piece : FilePieceState} {file : File}
    (h : io.startWrite build index begin block = .ok (piece, file))
    : Started build io index begin block piece file := by
  unfold startWrite at h
  cases hget : io.pieceToFile[index.toNat]? with
  | none => simp [hget] at h
  | some piece' =>
    simp only [hget] at h
    split at h
    . contradiction
    . next hcomplete =>
      simp only [Outcome.bind_eq_ok] at h
      obtain ⟨endPos, hend, pieceLen, hlen, h⟩ := h
      split at h
      . contradiction
      . next hle =>
        unfold FilePieceState.seekOffset at h
        simp only [Outcome.bind_eq_ok, pure, Except.pure, Except.ok.injEq, Prod.mk.injEq] at h
        obtain ⟨file', ⟨pos, hpos, hseek⟩, rfl, rfl⟩ := h
        rw [FilePieceState.seek_eq_ok hseek]
        exact ⟨hget, by simpa using hcomplete, ⟨endPos, pieceLen, hend, hlen, by omega⟩, pos, hpos, rfl⟩

theorem startWrite_eq_error {io : FileTorrentIo} {index begin : UInt32} {block : Bytes}
    {e : Fault AnyError} (h : io.startWrite build index begin block = .error e)
    : e = .panic ∨ e = .err (.peer (.badPieceIdx index.toNat))
        ∨ e = .err (.peer (.fileAlreadyComplete index))
        ∨ (∃ endPos, e = .err (.peer (.badBounds index.toNat endPos)))
        ∨ e = .err (.io .invalidInput) := by
  unfold startWrite at h
  cases hget : io.pieceToFile[index.toNat]? with
  | none =>
    simp only [hget, Except.error.injEq] at h
    simp [← h]
  | some piece =>
    simp only [hget] at h
    split at h
    . simp only [Except.error.injEq] at h
      simp [← h]
    . simp only [Outcome.bind_eq_error] at h
      obtain h | ⟨endPos, _, h | ⟨pieceLen, _, h⟩⟩ := h
      . exact .inl (Build.arith_eq_error h)
      . unfold TorrentAllocation.pieceLen at h
        simp only [Outcome.bind_eq_error, pure, Except.pure, reduceCtorEq, and_false, exists_false,
          or_false] at h
        exact .inl (Build.arith_eq_error h)
      . split at h
        . simp only [Except.error.injEq] at h
          simp [← h]
        . unfold FilePieceState.seekOffset FilePieceState.seek at h
          simp only [Outcome.bind_eq_error, pure, Except.pure, reduceCtorEq, and_false,
            exists_false, or_false] at h
          obtain h | ⟨offset, _, h⟩ := h
          . exact .inl (Build.arith_eq_error h)
          . split at h
            . contradiction
            . simp only [Except.error.injEq] at h
              simp [← h]

theorem verifyPiece_eq_ok {piece : FilePieceState} {index : UInt32} {file : File} {finished : Bool}
    (h : verifyPiece sha1 piece index file = .ok finished)
    : finished = true := by
  unfold verifyPiece at h
  simp only [Outcome.bind_eq_ok] at h
  obtain ⟨_, _, h⟩ := h
  split at h
  . simpa [pure, Except.pure] using h.symm
  . contradiction

structure Kept (index : UInt32) (io io' : FileTorrentIo) : Prop where
  allocation_eq : io'.allocation = io.allocation
  length_eq : io'.pieceToFile.length = io.pieceToFile.length
  piece : ∀ (i : Nat) (piece : FilePieceState), io.pieceToFile[i]? = some piece →
    ∃ piece', io'.pieceToFile[i]? = some piece'
      ∧ piece'.hash = piece.hash
      ∧ piece'.startIdx = piece.startIdx
      ∧ piece'.size = piece.size
      ∧ (piece.slices.isComplete = true ∨ i ≠ index.toNat → piece' = piece)

theorem Kept.of_eq {index : UInt32} {io io' : FileTorrentIo}
    (h1 : io'.allocation = io.allocation) (h2 : io'.pieceToFile = io.pieceToFile)
    : Kept index io io' := by
  refine ⟨h1, by rw [h2], ?_⟩
  intro i piece hget
  exact ⟨piece, by rw [h2, hget], rfl, rfl, rfl, fun _ => rfl⟩

theorem Kept.of_set {index : UInt32} {io io' : FileTorrentIo} {piece : FilePieceState}
    {slices : Slices} (hget : io.pieceToFile[index.toNat]? = some piece)
    (hincomplete : piece.slices.isComplete = false)
    (h1 : io'.allocation = io.allocation)
    (h2 : io'.pieceToFile = io.pieceToFile.set index.toNat { piece with slices })
    : Kept index io io' := by
  have hlt : index.toNat < io.pieceToFile.length := (List.getElem?_eq_some_iff.mp hget).1
  refine ⟨h1, by rw [h2, List.length_set], ?_⟩
  intro i piece' hget'
  by_cases hi : i = index.toNat
  . subst hi
    rw [hget, Option.some.injEq] at hget'
    subst hget'
    refine ⟨{ piece with slices }, by rw [h2, List.getElem?_set_self hlt], rfl, rfl, rfl, ?_⟩
    simp [hincomplete]
  . refine ⟨piece', ?_, rfl, rfl, rfl, fun _ => rfl⟩
    rw [h2, List.getElem?_set_ne (Ne.symm hi), hget']

theorem writePiece_kept (build : Build) (sha1 : Bytes → Bytes) (io : FileTorrentIo)
    (index begin : UInt32) (block : Bytes)
    : Kept index io (io.writePiece build sha1 index begin block).2 := by
  have hwritten := writePiece_written build sha1 io index begin block
  generalize io.writePiece build sha1 index begin block = res at hwritten ⊢
  cases hwritten with
  | refused => exact .of_eq rfl rfl
  | torn => exact .of_eq rfl rfl
  | stored hstart =>
    have hstarted := startWrite_eq_ok hstart
    exact .of_set hstarted.get hstarted.incomplete rfl rfl
  | completed hstart =>
    have hstarted := startWrite_eq_ok hstart
    exact .of_set hstarted.get hstarted.incomplete rfl rfl

theorem writePiece_contents (build : Build) (sha1 : Bytes → Bytes) (io : FileTorrentIo)
    (index begin : UInt32) (block : Bytes)
    : (io.writePiece build sha1 index begin block).2.file.contents = io.file.contents
        ∨ ∃ piece file, Started build io index begin block piece file
            ∧ (io.writePiece build sha1 index begin block).2.file.contents
                = File.overwrite io.file.contents file.pos block := by
  have hwritten := writePiece_written build sha1 io index begin block
  generalize io.writePiece build sha1 index begin block = res at hwritten ⊢
  have hover : ∀ {piece file}, io.startWrite build index begin block = .ok (piece, file) →
      (file.writeAll block).contents = File.overwrite io.file.contents file.pos block := by
    intro piece file hstart
    obtain ⟨pos, _, rfl⟩ := (startWrite_eq_ok hstart).offset
    rfl
  cases hwritten with
  | refused => exact .inl rfl
  | torn hstart => exact .inr ⟨_, _, startWrite_eq_ok hstart, hover hstart⟩
  | stored hstart => exact .inr ⟨_, _, startWrite_eq_ok hstart, hover hstart⟩
  | completed hstart => exact .inr ⟨_, _, startWrite_eq_ok hstart, hover hstart⟩

theorem writePiece_of_complete {io : FileTorrentIo} {index : UInt32} {piece : FilePieceState}
    (hget : io.pieceToFile[index.toNat]? = some piece) (hcomplete : piece.slices.isComplete = true)
    (begin : UInt32) (block : Bytes)
    : io.writePiece build sha1 index begin block
        =
      (.error (.err (.peer (.fileAlreadyComplete index))), io) := by
  simp [writePiece, startWrite, hget, hcomplete]

theorem ioHandlerTask_invariant {P : FileTorrentIo → Prop} {guard : FileTorrentIo → IoMessage → Prop}
    {io io' : FileTorrentIo} {tr : List (IoMessage × IoReply)}
    (h : (ioHandlerTask build sha1).RunWhile guard io tr io')
    (hwrite : ∀ io index begin block, guard io (.write index begin block) → P io →
      P (io.writePiece build sha1 index begin block.val).2)
    (hio : P io)
    : P io' := by
  refine h.invariant ?_ hio
  intro io1 msg reply io2 hguard hstep h1
  cases msg with
  | read =>
    simp only [ioHandlerTask, Option.some.injEq, Prod.mk.injEq] at hstep
    rw [← hstep.2]
    exact h1
  | write index begin block =>
    simp only [ioHandlerTask, Option.some.injEq, Prod.mk.injEq] at hstep
    rw [← hstep.2]
    exact hwrite io1 index begin block hguard h1

end FileTorrentIo
