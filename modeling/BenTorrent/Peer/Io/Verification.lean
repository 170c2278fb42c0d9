import BenTorrent.Peer.Io.Integrity

/-!
This module contains what the hash check of a piece means for the calls after it: which pieces are
served, and what becomes of a piece that failed the check.
-/

open Rust

namespace FileTorrentIo

/--
Whatever a read of at least one byte returned, a write had completed the piece and found its hash to
match.
-/
def OnlyVerifiedServed (tr : List (IoMessage × IoReply)) : Prop :=
  ∀ tr1 tr2 index begin length bytes,
    tr = tr1 ++ (.read index begin length, .read (.ok bytes)) :: tr2 → 0 < length →
      ∃ begin' block, (IoMessage.write index begin' block, IoReply.write (.ok true)) ∈ tr1

/--
If the write completes the ranges of the piece, then the piece as it stands in the file has the
expected hash.
-/
def CompletesRight (build : Build) (sha1 : Bytes → Bytes) (io : FileTorrentIo) : IoMessage → Prop
  | .read _ _ _ => True
  | .write index begin block =>
    ∀ piece file slices, io.startWrite build index begin block.val = .ok (piece, file) →
      (piece.slices.insert build begin (UInt32.ofNat block.val.length)
        : Outcome AnyError (Bool × Slices)) = .ok (true, slices) →
      ∃ file', piece.computeFileSha1Hash sha1 (file.writeAll block.val) = .ok (piece.hash, file')

/--
All of piece `index` in blocks of the right content, in any order.
-/
def Rewrites (sha1 : Bytes → Bytes) (piece : FilePieceState) (blocks : List (UInt32 × VecU8)) : Prop :=
  ∃ content : Bytes, content.length = piece.size ∧ sha1 content = piece.hash
    ∧ (∀ b ∈ blocks, b.1.toNat + b.2.val.length ≤ piece.size
        ∧ b.2.val = File.slice content b.1.toNat b.2.val.length)
    ∧ ∀ pos < piece.size, ∃ b ∈ blocks, b.1.toNat ≤ pos ∧ pos < b.1.toNat + b.2.val.length

section

variable (build : Build) (sha1 : Bytes → Bytes)

def EndsVerified (io : FileTorrentIo) (index : UInt32) (blocks : List (UInt32 × VecU8)) : Prop :=
  ∃ tr io' msg, (ioHandlerTask build sha1).Run io tr io'
    ∧ tr.map Prod.fst = blocks.map (fun b => .write index b.1 b.2)
    ∧ tr.getLast? = some (msg, .write (.ok true))

def Recoverable (io : FileTorrentIo) (index : UInt32) : Prop :=
  ∀ piece blocks, io.pieceToFile[index.toNat]? = some piece → Rewrites sha1 piece blocks →
    EndsVerified build sha1 io index blocks

end

variable {build : Build} {sha1 : Bytes → Bytes}

def Complete (io : FileTorrentIo) (i : Nat) : Prop :=
  ∃ piece, io.pieceToFile[i]? = some piece ∧ piece.slices.isComplete = true

theorem not_complete_new {torrent : V1Torrent} {io : FileTorrentIo} (h : new build torrent = .ok io)
    (i : Nat)
    : ¬Complete io i := by
  intro ⟨piece, hget, hcomplete⟩
  obtain ⟨_, _, hpieces⟩ := new_eq_ok h
  obtain ⟨idx, _, hpiece⟩ := (Outcome.mapM_eq_ok hpieces).2 i piece hget
  obtain ⟨v1, pieceLen, start, _, _, _, rfl⟩ := newPiece_eq_ok hpiece
  contradiction

theorem complete_of_readPiece {io : FileTorrentIo} {index begin length : UInt32} {bytes : Bytes}
    (h : io.readPiece build index begin length = .ok bytes)
    : Complete io index.toNat := by
  unfold readPiece at h
  cases hget : io.pieceToFile[index.toNat]? with
  | none => simp [hget] at h
  | some piece =>
    simp only [hget, Outcome.bind_eq_ok] at h
    obtain ⟨endPos, _, pieceLen, _, h⟩ := h
    split at h
    . contradiction
    . split at h
      . contradiction
      . next hcomplete => exact ⟨piece, hget, by simpa using hcomplete⟩

theorem complete_writePiece {io : FileTorrentIo} {index begin : UInt32} {block : VecU8} {i : Nat}
    (hright : CompletesRight build sha1 io (.write index begin block))
    (h : Complete (io.writePiece build sha1 index begin block.val).2 i)
    : Complete io i
        ∨ i = index.toNat ∧ (io.writePiece build sha1 index begin block.val).1 = .ok true := by
  have hwritten := writePiece_written build sha1 io index begin block.val
  generalize io.writePiece build sha1 index begin block.val = res at hwritten h ⊢
  obtain ⟨piece', hget', hcomplete'⟩ := h
  cases hwritten with
  | refused => exact .inl ⟨piece', hget', hcomplete'⟩
  | torn => exact .inl ⟨piece', hget', hcomplete'⟩
  | @stored piece file slices hstart hinsert =>
    have hlt := (List.getElem?_eq_some_iff.mp (startWrite_eq_ok hstart).get).1
    by_cases hi : i = index.toNat
    . subst hi
      rw [List.getElem?_set_self hlt, Option.some.injEq] at hget'
      subst hget'
      have := (Slices.insert_eq_ok hinsert).1
      simp [← this] at hcomplete'
    . rw [List.getElem?_set_ne (Ne.symm hi)] at hget'
      exact .inl ⟨piece', hget', hcomplete'⟩
  | @completed piece file slices hstart hinsert =>
    by_cases hi : i = index.toNat
    . refine .inr ⟨hi, ?_⟩
      obtain ⟨file', hhash⟩ := hright piece file slices hstart hinsert
      unfold verifyPiece
      have hhash' : FilePieceState.computeFileSha1Hash sha1 { piece with slices }
          (file.writeAll block.val) = .ok (piece.hash, file') := hhash
      rw [hhash', Outcome.ok_bind]
      apply if_pos rfl
    . rw [List.getElem?_set_ne (Ne.symm hi)] at hget'
      exact .inl ⟨piece', hget', hcomplete'⟩

theorem complete_run {io io' : FileTorrentIo} {tr : List (IoMessage × IoReply)} {index : UInt32}
    (hrun : (ioHandlerTask build sha1).RunWhile (CompletesRight build sha1) io tr io')
    (h : Complete io' index.toNat)
    : Complete io index.toNat
        ∨ ∃ begin block, (IoMessage.write index begin block, IoReply.write (.ok true)) ∈ tr := by
  induction hrun with
  | nil => exact .inl h
  | @cons io1 io2 io3 msg reply tr hguard hstep hrun ih =>
    cases ih h with
    | inr hmem =>
      obtain ⟨begin, block, hmem⟩ := hmem
      exact .inr ⟨begin, block, List.mem_cons_of_mem _ hmem⟩
    | inl hcomplete =>
      cases msg with
      | read =>
        simp only [ioHandlerTask, Option.some.injEq, Prod.mk.injEq] at hstep
        rw [hstep.2]
        exact .inl hcomplete
      | write index' begin block =>
        simp only [ioHandlerTask, Option.some.injEq, Prod.mk.injEq] at hstep
        obtain ⟨rfl, rfl⟩ := hstep
        cases complete_writePiece hguard hcomplete with
        | inl hcomplete => exact .inl hcomplete
        | inr hok =>
          obtain ⟨hindex, hok⟩ := hok
          rw [UInt32.toNat_inj] at hindex
          subst hindex
          rw [hok]
          exact .inr ⟨begin, block, List.mem_cons_self⟩

theorem onlyVerifiedServed_of_completesRight (build : Build) (sha1 : Bytes → Bytes)
    (torrent : V1Torrent) (io io' : FileTorrentIo) (tr : List (IoMessage × IoReply))
    (hnew : new build torrent = .ok io)
    (hrun : (ioHandlerTask build sha1).RunWhile (CompletesRight build sha1) io tr io')
    : OnlyVerifiedServed tr := by
  rintro tr1 tr2 index begin length bytes rfl -
  obtain ⟨io1, hrun1, hrun2⟩ := Machine.RunWhile.append_iff.mp hrun
  obtain ⟨io2, _, hstep, _⟩ := Machine.RunWhile.cons_iff.mp hrun2
  simp only [ioHandlerTask, Option.some.injEq, Prod.mk.injEq, IoReply.read.injEq] at hstep
  cases complete_run hrun1 (complete_of_readPiece hstep.1) with
  | inl hcomplete => exact absurd hcomplete (not_complete_new hnew _)
  | inr hmem => exact hmem

def onePieceIo (contents : Bytes) (pos : Nat) (slices : Slices) : FileTorrentIo where
  file := ⟨contents, pos⟩
  pieceToFile := [⟨Sha1.digest [1, 2], slices, 0, 2⟩]
  allocation := ⟨1, 2, 2⟩

theorem new_onePieceIo
    : new ⟨true⟩ (torrentFixture 2 2 [[1, 2]]) = .ok (onePieceIo [0, 0] 0 (.new 2)) := by
  decide +kernel

theorem onlyVerifiedServed_rightBlock
    : OnlyVerifiedServed [(.write 0 0 ⟨[1, 2], by decide⟩, .write (.ok true)),
        (.read 0 0 2, .read (.ok [1, 2]))] := by
  let io' := onePieceIo [1, 2] 2 ((Slices.new 2).insertRange 0 2)
  apply onlyVerifiedServed_of_completesRight ⟨true⟩ Sha1.digest _ _ io' _ new_onePieceIo
  refine .cons ?_ (?_ : _ = some (_, io')) (.cons trivial ?_ (.nil io'))
  . intro piece file slices hstart _
    have hstart' : startWrite ⟨true⟩ (onePieceIo [0, 0] 0 (.new 2)) 0 0 [1, 2]
        = .ok (⟨Sha1.digest [1, 2], .new 2, 0, 2⟩, ⟨[0, 0], 0⟩) := by
      decide +kernel
    rw [hstart', Except.ok.injEq, Prod.mk.injEq] at hstart
    obtain ⟨rfl, rfl⟩ := hstart
    exact ⟨⟨[1, 2], 2⟩, by decide +kernel⟩
  . decide +kernel
  . decide +kernel

theorem not_onlyVerifiedServed_wrongBlock
    : ∃ io tr io', new ⟨true⟩ (torrentFixture 2 2 [[1, 2]]) = .ok io
        ∧ (ioHandlerTask ⟨true⟩ Sha1.digest).Run io tr io'
        ∧ ¬OnlyVerifiedServed tr := by
  let block : VecU8 := ⟨[9, 9], by decide⟩
  let mismatch : PeerError :=
    .pieceHashMismatch 0 (hexEncode (Sha1.digest [9, 9])) (hexEncode (Sha1.digest [1, 2]))
  let io' := onePieceIo [9, 9] 2 ((Slices.new 2).insertRange 0 2)
  have hexec : (ioHandlerTask ⟨true⟩ Sha1.digest).exec (onePieceIo [0, 0] 0 (.new 2))
        [.write 0 0 block, .read 0 0 1]
      = some ([(.write 0 0 block, .write (.error (.err (.peer mismatch)))),
          (.read 0 0 1, .read (.ok [9]))], io') := by
    decide +kernel
  refine ⟨_, _, io', new_onePieceIo, Machine.run_of_exec hexec, ?_⟩
  intro h
  obtain ⟨begin', block', hmem⟩ := h [(.write 0 0 block, .write (.error (.err (.peer mismatch))))] []
    0 0 1 [9] rfl (by decide)
  simp at hmem

theorem complete_of_pieceHashMismatch {io io' : FileTorrentIo} {index begin : UInt32}
    {block : Bytes} {computed expected : String}
    (h : io.writePiece build sha1 index begin block
      = (.error (.err (.peer (.pieceHashMismatch index computed expected))), io'))
    : Complete io' index.toNat := by
  have hwritten := writePiece_written build sha1 io index begin block
  rw [h] at hwritten
  generalize hres : (Except.error (.err (.peer (.pieceHashMismatch index computed expected)))
    : Outcome AnyError Bool) = res at hwritten
  cases hwritten with
  | refused hstart =>
    simp only [Except.error.injEq] at hres
    have := startWrite_eq_error hstart
    simp [← hres] at this
  | torn _ hinsert =>
    simp only [Except.error.injEq] at hres
    have := Slices.insert_eq_error hinsert
    simp [← hres] at this
  | stored => contradiction
  | completed hstart hinsert =>
    have hlt := (List.getElem?_eq_some_iff.mp (startWrite_eq_ok hstart).get).1
    exact ⟨_, List.getElem?_set_self hlt, (Slices.insert_eq_ok hinsert).1.symm⟩

theorem Complete.run_write {io io' : FileTorrentIo} {index : UInt32}
    {blocks : List (UInt32 × VecU8)} {tr : List (IoMessage × IoReply)}
    (h : Complete io index.toNat)
    (hrun : (ioHandlerTask build sha1).Run io tr io')
    (htr : tr.map Prod.fst = blocks.map (fun b => .write index b.1 b.2))
    : ∀ call ∈ tr, call.2 = .write (.error (.err (.peer (.fileAlreadyComplete index)))) := by
  induction hrun generalizing blocks with
  | nil => simp
  | @cons io1 io2 io3 msg reply tr _ hstep _ ih =>
    cases blocks with
    | nil => simp at htr
    | cons b blocks =>
      simp only [List.map_cons, List.cons.injEq] at htr
      obtain ⟨rfl, htr⟩ := htr
      obtain ⟨piece, hget, hcomplete⟩ := h
      simp only [ioHandlerTask, writePiece_of_complete hget hcomplete, Option.some.injEq,
        Prod.mk.injEq] at hstep
      obtain ⟨rfl, rfl⟩ := hstep
      rw [List.forall_mem_cons]
      exact ⟨rfl, ih ⟨piece, hget, hcomplete⟩ htr⟩

theorem Complete.not_endsVerified {io : FileTorrentIo} {index : UInt32}
    (h : Complete io index.toNat) (blocks : List (UInt32 × VecU8))
    : ¬EndsVerified build sha1 io index blocks := by
  intro ⟨tr, io', msg, hrun, htr, hlast⟩
  have := h.run_write hrun htr _ (List.mem_of_getLast? hlast)
  simp at this

theorem not_endsVerified_of_pieceHashMismatch (build : Build) (sha1 : Bytes → Bytes)
    (io io' : FileTorrentIo) (index begin : UInt32) (block : Bytes) (computed expected : String)
    (h : io.writePiece build sha1 index begin block
      = (.error (.err (.peer (.pieceHashMismatch index computed expected))), io'))
    (blocks : List (UInt32 × VecU8))
    : ¬EndsVerified build sha1 io' index blocks :=
  (complete_of_pieceHashMismatch h).not_endsVerified blocks

theorem writePiece_wrongBlock
    : (onePieceIo [0, 0] 0 (.new 2)).writePiece ⟨true⟩ Sha1.digest 0 0 [9, 9]
        =
      (.error (.err (.peer (.pieceHashMismatch 0 (hexEncode (Sha1.digest [9, 9]))
          (hexEncode (Sha1.digest [1, 2]))))),
        onePieceIo [9, 9] 2 ((Slices.new 2).insertRange 0 2)) := by
  decide +kernel

theorem not_endsVerified_wrongBlock
    : ¬EndsVerified ⟨true⟩ Sha1.digest (onePieceIo [9, 9] 2 ((Slices.new 2).insertRange 0 2)) 0
        [(0, ⟨[1, 2], by decide⟩)] :=
  not_endsVerified_of_pieceHashMismatch ⟨true⟩ Sha1.digest _ _ 0 0 [9, 9] _ _ writePiece_wrongBlock _

theorem not_recoverable_wrongBlock
    : ¬∀ (io io' : FileTorrentIo) (index begin : UInt32) (block : Bytes) (computed expected : String),
        io.writePiece ⟨true⟩ Sha1.digest index begin block
            = (.error (.err (.peer (.pieceHashMismatch index computed expected))), io') →
          Recoverable ⟨true⟩ Sha1.digest io' index := by
  intro h
  have hrec := h _ _ 0 0 [9, 9] _ _ writePiece_wrongBlock
  have hcomplete := complete_of_pieceHashMismatch writePiece_wrongBlock
  refine hcomplete.not_endsVerified [(0, ⟨[1, 2], by decide⟩)] (hrec _ _ rfl ?_)
  refine ⟨[1, 2], rfl, rfl, ?_, ?_⟩
  . simp [File.slice]
  . intro pos hpos
    exact ⟨_, List.mem_singleton_self _, by simp, by simpa using hpos⟩

end FileTorrentIo
