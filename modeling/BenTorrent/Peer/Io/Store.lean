import BenTorrent.Peer.Io.Handler
import BenTorrent.Peer.Io.Memory

/-!
This module contains the configuration and the store of the pieces that it selects, and what the rest
of the client relies on of any store.
-/

open Rust

structure Config where
  useFileWriter : Bool
  peerTxSize : Nat
  peerRxSize : Nat
  maxOutstandingRequests : Nat

namespace TorrentIo

variable {σ : Type u}

/--
What is read is as long as what was asked for.
-/
def ReadsInFull (torrentIo : TorrentIo σ) : Prop :=
  ∀ store store' index begin length block,
    torrentIo.readPiece store index begin length = (.ok block, store') →
      block.length = length.toNat

/--
Only the first pieces are ever written in a store of this kind.
-/
structure WritesWithin (torrentIo : TorrentIo σ) (n : Nat) (kind : σ → Prop) : Prop where
  lt : ∀ store index begin block finished, kind store →
    (torrentIo.writePiece store index begin block).1 = .ok finished → index.toNat < n
  writePiece : ∀ store index begin block, kind store →
    kind (torrentIo.writePiece store index begin block).2
  readPiece : ∀ store index begin length, kind store →
    kind (torrentIo.readPiece store index begin length).2

def endsTask : Outcome AnyError α × σ → Outcome AnyError α × Option σ
  | (.error .panic, _) => (IoHandler.exits, none)
  | (res, store) => (res, some store)

/--
The store as the callers of its `IoHandler` find it. A panic ends the task, and so every later call.
-/
def handled (torrentIo : TorrentIo σ) : TorrentIo (Option σ) where
  writePiece
    | none, _, _, _ => (IoHandler.exits, none)
    | some store, index, begin, block => endsTask (torrentIo.writePiece store index begin block)
  readPiece
    | none, _, _, _ => (IoHandler.exits, none)
    | some store, index, begin, length => endsTask (torrentIo.readPiece store index begin length)

/--
What comes back is the result of the call, given whether the task has answered it.
-/
theorem handle_handled (torrentIo : TorrentIo σ) (store : σ) (msg : IoMessage)
    : IoHandler.handle torrentIo.handled (some store) msg
        =
      match IoHandler.handle torrentIo store msg with
      | (reply, store) =>
        if reply.isPanic then
          (IoHandler.result msg none, none)
        else
          (IoHandler.result msg (some reply), some store) := by
  obtain ⟨writePiece, readPiece⟩ := torrentIo
  cases msg with
  | read index begin length =>
    unfold IoHandler.handle handled
    dsimp only
    rcases readPiece store index begin length with ⟨res | block, store'⟩
    . cases res with
      | err e => rfl
      | panic => rfl
    . rfl
  | write index begin block =>
    unfold IoHandler.handle handled
    dsimp only
    rcases writePiece store index begin block.val with ⟨res | finished, store'⟩
    . cases res with
      | err e => rfl
      | panic => rfl
    . rfl

theorem handle_handled_none (torrentIo : TorrentIo σ) (msg : IoMessage)
    : IoHandler.handle torrentIo.handled none msg = (IoHandler.result msg none, none) := by
  cases msg with
  | _ => rfl

theorem endsTask_eq_ok {x : Outcome AnyError α × σ} {a : α}
    (h : (endsTask x).1 = .ok a)
    : x.1 = .ok a := by
  unfold endsTask at h
  split at h
  . contradiction
  . exact h

theorem mem_endsTask {x : Outcome AnyError α × σ} {store : σ} (h : store ∈ (endsTask x).2)
    : x.2 = store := by
  unfold endsTask at h
  split at h
  . contradiction
  . exact Option.some.inj h

theorem ReadsInFull.handled {torrentIo : TorrentIo σ} (h : torrentIo.ReadsInFull)
    : torrentIo.handled.ReadsInFull := by
  intro store store' index begin length block hread
  cases store with
  | none => simp [TorrentIo.handled, IoHandler.exits] at hread
  | some store =>
    exact h store _ index begin length block
      (Prod.ext (endsTask_eq_ok (congrArg Prod.fst hread)) rfl)

theorem WritesWithin.handled {torrentIo : TorrentIo σ} {n : Nat} {kind : σ → Prop}
    (h : torrentIo.WritesWithin n kind)
    : torrentIo.handled.WritesWithin n fun store => ∀ store' ∈ store, kind store' := by
  constructor
  . intro store index begin block finished hkind hwrite
    cases store with
    | none => simp [TorrentIo.handled, IoHandler.exits] at hwrite
    | some store => exact h.lt store index begin block finished (hkind store rfl) (endsTask_eq_ok hwrite)
  . intro store index begin block hkind store' hmem
    cases store with
    | none => contradiction
    | some store =>
      rw [← mem_endsTask hmem]
      exact h.writePiece store index begin block (hkind store rfl)
  . intro store index begin length hkind store' hmem
    cases store with
    | none => contradiction
    | some store =>
      rw [← mem_endsTask hmem]
      exact h.readPiece store index begin length (hkind store rfl)

end TorrentIo

inductive Store where
  | file (io : FileTorrentIo)
  | memory (io : MemoryTorrentIo)
  deriving DecidableEq

namespace Store

variable (build : Build) (sha1 : Bytes → Bytes)

def new (config : Config) (torrent : V1Torrent) : Outcome AnyError Store := do
  if config.useFileWriter then
    return .file (← FileTorrentIo.new build torrent)
  else
    return .memory (← MemoryTorrentIo.new build torrent)

def torrentIo : TorrentIo Store where
  writePiece store index begin block :=
    match store with
    | .file io =>
      let (res, io) := io.writePiece build sha1 index begin block
      (res, .file io)
    | .memory io =>
      let (res, io) := io.writePiece build index begin block
      (res, .memory io)
  readPiece store index begin length :=
    match store with
    | .file io => (io.readPiece build index begin length, store)
    | .memory io => (io.readPiece build index begin length, store)

variable {build sha1}

def Sized (n : Nat) : Store → Prop
  | .file io => io.pieceToFile.length = n
  | .memory io => io.memory.length = n

/--
Where `writesWithin` begins: both stores are made with one entry for each piece.
-/
theorem sized_new {config : Config} {torrent : V1Torrent} {store : Store}
    (h : new build config torrent = .ok store) (hpieces : torrent.info.pieces ≠ [])
    : store.Sized torrent.info.pieces.length := by
  have htotal : ∀ {allocation : TorrentAllocation},
      TorrentAllocation.allocateTorrent build torrent = (.ok allocation : Outcome AnyError _) →
      allocation.totalPieces = torrent.info.pieces.length := by
    intro allocation halloc
    unfold TorrentAllocation.allocateTorrent at halloc
    simp only [Outcome.bind_eq_ok, pure, Except.pure, Except.ok.injEq] at halloc
    obtain ⟨_, _, _, _, _, _, rfl⟩ := halloc
    rfl
  unfold new at h
  split at h
  . simp only [Outcome.bind_eq_ok, pure, Except.pure, Except.ok.injEq] at h
    obtain ⟨io, hnew, rfl⟩ := h
    obtain ⟨halloc, _, hmap⟩ := FileTorrentIo.new_eq_ok hnew
    show io.pieceToFile.length = _
    rw [(Outcome.mapM_eq_ok hmap).1, List.length_range, htotal halloc]
  . simp only [Outcome.bind_eq_ok, pure, Except.pure, Except.ok.injEq] at h
    obtain ⟨io, hnew, rfl⟩ := h
    unfold MemoryTorrentIo.new at hnew
    simp only [Outcome.bind_eq_ok, pure, Except.pure, Except.ok.injEq] at hnew
    obtain ⟨allocation, halloc, memory, hmap, last, _, rfl⟩ := hnew
    have hpos := List.length_pos_of_ne_nil hpieces
    have htotal := htotal halloc
    show (memory ++ [last]).length = _
    rw [List.length_append, (Outcome.mapM_eq_ok hmap).1, List.length_range, List.length_singleton]
    omega

theorem length_pieceToFile_writePiece (io : FileTorrentIo) (index begin : UInt32) (block : Bytes)
    : (io.writePiece build sha1 index begin block).2.pieceToFile.length = io.pieceToFile.length := by
  unfold FileTorrentIo.writePiece
  split
  . rfl
  . split
    . rfl
    . dsimp only
      split
      . exact List.length_set
      . exact List.length_set

theorem length_memory_writePiece (io : MemoryTorrentIo) (index begin : UInt32) (block : Bytes)
    : (io.writePiece build index begin block).2.memory.length = io.memory.length := by
  unfold MemoryTorrentIo.writePiece
  split
  . rfl
  . split
    . rfl
    . exact List.length_set

theorem Sized.writePiece {n : Nat} {store : Store} (h : store.Sized n) (build : Build)
    (sha1 : Bytes → Bytes) (index begin : UInt32) (block : Bytes)
    : ((torrentIo build sha1).writePiece store index begin block).2.Sized n := by
  cases store with
  | file io =>
    show (io.writePiece build sha1 index begin block).2.pieceToFile.length = n
    rw [length_pieceToFile_writePiece]
    exact h
  | memory io =>
    show (io.writePiece build index begin block).2.memory.length = n
    rw [length_memory_writePiece]
    exact h

theorem readPiece_snd (store : Store) (index begin length : UInt32)
    : ((torrentIo build sha1).readPiece store index begin length).2 = store := by
  cases store with
  | file io => rfl
  | memory io => rfl

theorem Sized.toNat_lt {n : Nat} {store : Store} {index begin : UInt32} {block : Bytes}
    {finished : Bool} (h : store.Sized n)
    (hwrite : ((torrentIo build sha1).writePiece store index begin block).1 = .ok finished)
    : index.toNat < n := by
  cases store with
  | file io =>
    replace hwrite : (io.writePiece build sha1 index begin block).1 = .ok finished := hwrite
    unfold FileTorrentIo.writePiece at hwrite
    split at hwrite
    . contradiction
    . next piece file hstart =>
      unfold FileTorrentIo.startWrite at hstart
      split at hstart
      . next piece' hget =>
        rw [← (h : io.pieceToFile.length = n)]
        exact (List.getElem?_eq_some_iff.mp hget).1
      . contradiction
  | memory io =>
    replace hwrite : (io.writePiece build index begin block).1 = .ok finished := hwrite
    unfold MemoryTorrentIo.writePiece at hwrite
    split at hwrite
    . contradiction
    . next piece hstart =>
      unfold MemoryTorrentIo.startWrite at hstart
      split at hstart
      . next piece' hget =>
        rw [← (h : io.memory.length = n)]
        exact (List.getElem?_eq_some_iff.mp hget).1
      . contradiction

theorem length_of_readPiece {store store' : Store} {index begin length : UInt32} {block : Bytes}
    (h : (torrentIo build sha1).readPiece store index begin length = (.ok block, store'))
    : block.length = length.toNat := by
  cases store with
  | file io =>
    replace h : io.readPiece build index begin length = .ok block := congrArg Prod.fst h
    unfold FileTorrentIo.readPiece at h
    split at h
    . simp only [Outcome.bind_eq_ok] at h
      obtain ⟨endPos, _, pieceLen, _, h⟩ := h
      split at h
      . contradiction
      . split at h
        . contradiction
        . simp only [Outcome.bind_eq_ok, Prod.exists, pure, Except.pure, Except.ok.injEq] at h
          obtain ⟨file, _, block', file', hread, rfl⟩ := h
          obtain ⟨rfl, hlen⟩ := FilePieceState.readBlock_eq_ok hread
          rw [File.slice, List.length_take, List.length_drop]
          omega
    . contradiction
  | memory io =>
    replace h : io.readPiece build index begin length = .ok block := congrArg Prod.fst h
    unfold MemoryTorrentIo.readPiece at h
    split at h
    . simp only [Outcome.bind_eq_ok] at h
      obtain ⟨endOffset, hadd, h⟩ := h
      split at h
      . next hbounds =>
        rw [UInt32.le_iff_toNat_le] at hbounds
        simp only [pure, Except.pure, Except.ok.injEq] at h
        have hend := Build.toNat_of_u32Add hadd hbounds.1
        rw [← h, File.slice, List.length_take, List.length_drop]
        omega
      . contradiction
    . contradiction

variable (build sha1)

theorem readsInFull : (torrentIo build sha1).ReadsInFull :=
  fun _ _ _ _ _ _ hread => length_of_readPiece hread

theorem writesWithin (n : Nat) : (torrentIo build sha1).WritesWithin n (Sized n) := by
  constructor
  . intro store index begin block finished hsized hwrite
    exact hsized.toNat_lt hwrite
  . intro store index begin block hsized
    exact hsized.writePiece build sha1 index begin block
  . intro store index begin length hsized
    rw [readPiece_snd]
    exact hsized

end Store
