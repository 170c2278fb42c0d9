import BenTorrent.Peer.Io.Agreement
import BenTorrent.Sync.Service

/-!
This module contains `IoHandler`, through which all of the client shares one store. Its calls are
answered by a task that owns the store.
-/

open Rust

variable {σ : Type u}

def IoReply.isPanic : IoReply → Bool
  | .read (.error .panic) => true
  | .write (.error .panic) => true
  | _ => false

abbrev IoHandler (σ : Type u) := Service σ IoMessage IoReply

abbrev IoHandlerEvent := ServiceEvent IoMessage

namespace IoHandler

def handle (torrentIo : TorrentIo σ) (io : σ) : IoMessage → IoReply × σ
  | .read index begin length =>
    let (res, io) := torrentIo.readPiece io index begin length
    (.read res, io)
  | .write index begin block =>
    let (res, io) := torrentIo.writePiece io index begin block.val
    (.write res, io)

/--
A panic of the store ends the task before it has answered.
-/
abbrev task (torrentIo : TorrentIo σ)
    : Machine (IoHandler σ) IoHandlerEvent (Option (Served IoMessage IoReply)) :=
  Service.task (handle torrentIo) IoReply.isPanic

def new (fileHandlerChannelSize : Nat) (io : σ) : Outcome AnyError (IoHandler σ) :=
  -- a channel without slots is a panic of the constructor
  if fileHandlerChannelSize = 0 then
    .error .panic
  else
    .ok (Service.new fileHandlerChannelSize io)

def exits : Outcome AnyError α :=
  .error (.err (.peer (.other "file handler exits...")))

def result : IoMessage → Option IoReply → IoReply
  | _, some reply => reply
  | .read _ _ _, none => .read exits
  | .write _ _ _, none => .write exits

def Returned (p : IoHandler σ) (k : Nat) (msg : IoMessage) (reply : IoReply) : Prop :=
  ∃ res, p.At k msg (.returned res) ∧ reply = result msg res

/--
The answers of the task are those of a store that one caller has for itself and calls in that order.
-/
structure Atomic (torrentIo : TorrentIo σ) (p0 : IoHandler σ)
    (tr : List (IoHandlerEvent × Option (Served IoMessage IoReply))) (p : IoHandler σ) : Prop where
  run : torrentIo.calls.Run p0.state ((Service.served tr).map fun x => (x.req, x.res)) p.state
  once : ((Service.served tr).map Served.id).Nodup
  called : ∀ x ∈ Service.served tr, ∃ stage, p.At x.id x.req stage
  -- an answer is the one of the store, or the store has panicked and did nothing for the call
  -- that did not panic
  returned : ∀ k msg reply, Returned p k msg reply →
    ⟨k, msg, reply⟩ ∈ Service.served tr ∧ reply.isPanic = false
      ∨ reply = result msg none ∧ (∃ x ∈ Service.served tr, x.res.isPanic = true)
        ∧ ∀ x ∈ Service.served tr, x.id = k → x.res.isPanic = true
  panic_last : ∀ x ∈ (Service.served tr).dropLast, x.res.isPanic = false
  -- who calls after another has returned comes after it
  order : ∀ tr1 tr2 p1, tr = tr1 ++ tr2 → (task torrentIo).Run p0 tr1 p1 →
    ∀ k msg res, p1.At k msg (.returned res) → ∀ x ∈ Service.served tr, p1.calls.length ≤ x.id →
      ∃ reply log1 log2, res = some reply
        ∧ Service.served tr = log1 ++ ⟨k, msg, reply⟩ :: log2 ∧ x ∈ log2

variable {torrentIo : TorrentIo σ}

theorem sequential_handle (torrentIo : TorrentIo σ)
    : Service.sequential (handle torrentIo) = torrentIo.calls := by
  unfold Service.sequential TorrentIo.calls
  congr 1
  funext io msg
  cases msg with
  | read index begin length => rfl
  | write index begin block => rfl

theorem new_eq_ok {size : Nat} {io : σ} {p : IoHandler σ} (h : new size io = .ok p)
    : 0 < size ∧ p = Service.new size io := by
  unfold new at h
  split at h
  . contradiction
  . next hsize =>
    rw [Except.ok.injEq] at h
    exact ⟨Nat.pos_of_ne_zero hsize, h.symm⟩

variable {size : Nat} {p0 p : IoHandler σ}
  {tr : List (IoHandlerEvent × Option (Served IoMessage IoReply))}

theorem atomic_new {io : σ} (hrun : (task torrentIo).Run (Service.new size io) tr p)
    : Atomic torrentIo (Service.new size io) tr p := by
  have h := Service.linearizes hrun
  constructor
  . rw [← sequential_handle]
    exact h.run
  . exact h.nodup
  . exact h.called
  . intro k msg reply ⟨res, hat, hreply⟩
    subst hreply
    cases res with
    | some reply =>
      left
      cases msg with
      | read index begin length => exact h.returned k _ reply hat
      | write index begin block => exact h.returned k _ reply hat
    | none => exact .inr ⟨rfl, h.failed k msg hat⟩
  . exact h.not_ended
  . intro tr1 tr2 p1 htr hrun1 k msg res hat x hx hle
    cases res with
    | some reply =>
      obtain ⟨log1, log2, hlog, hmem⟩ := h.order tr1 tr2 p1 htr hrun1 k msg reply hat x hx hle
      exact ⟨reply, log1, log2, rfl, hlog, hmem⟩
    | none =>
      -- the task was gone by then, and what it had served had been called before
      have h1 := Service.linearizes hrun1
      have hlast := h.not_ended
      rw [htr, Service.served_append] at hx hlast
      rw [Service.served_eq_nil hlast (h1.failed k msg hat).1, List.append_nil] at hx
      obtain ⟨stage, hat'⟩ := h1.called x hx
      have := hat'.lt
      omega

theorem atomic_of_run {io : σ} (hnew : new size io = .ok p0) (hrun : (task torrentIo).Run p0 tr p)
    : Atomic torrentIo p0 tr p := by
  obtain ⟨_, rfl⟩ := new_eq_ok hnew
  exact atomic_new hrun

def oneSlot : IoHandler MemoryTorrentIo :=
  Service.new 1 (TorrentIo.onePieceMemory [0, 0] (.new 2))

/--
The second read is out of bounds, where the store panics.
-/
def threeCallers : List IoHandlerEvent := [
  .call (.write 0 0 ⟨[1, 2], by decide⟩), .call (.read 0 1 2), .call (.read 0 0 1), .send 1, .send 0,
  .send 2, .take, .serve, .receive 1, .send 2
]

theorem atomic_threeCallers
    : ∃ tr p, tr.map Prod.fst = threeCallers
        ∧ (task (MemoryTorrentIo.torrentIo ⟨true⟩)).Run oneSlot tr p
        ∧ Returned p 1 (.read 0 1 2) (.read exits) ∧ Returned p 2 (.read 0 0 1) (.read exits)
        ∧ Atomic (MemoryTorrentIo.torrentIo ⟨true⟩) oneSlot tr p := by
  obtain ⟨tr, p, hrun, hmap, hcalls⟩ :=
    (task (MemoryTorrentIo.torrentIo ⟨true⟩)).exists_run_of_exec oneSlot threeCallers
      (fun res => (res.2.calls[1]?, res.2.calls[2]?))
      (b := (some ⟨.read 0 1 2, .returned none⟩, some ⟨.read 0 0 1, .returned none⟩))
      (by decide +kernel)
  rw [Prod.mk.injEq] at hcalls
  refine ⟨tr, p, hmap, hrun, ⟨none, hcalls.1, rfl⟩, ⟨none, hcalls.2, rfl⟩, ?_⟩
  exact atomic_of_run (show new 1 _ = .ok oneSlot from rfl) hrun

end IoHandler

namespace FileTorrentIo

variable {build : Build} {sha1 : Bytes → Bytes} {torrent : V1Torrent} {info : V1TorrentInfo}
  {io io' : FileTorrentIo} {index begin : UInt32} {block : Bytes}

def Hashed (torrent : V1Torrent) (io : FileTorrentIo) : Prop :=
  ∀ (i : Nat) (piece : FilePieceState), io.pieceToFile[i]? = some piece →
    (torrent.info.pieces[i]?).map (·.hash) = some piece.hash

theorem Hashed.writePiece (build : Build) (sha1 : Bytes → Bytes) (h : Hashed torrent io)
    (index begin : UInt32) (block : Bytes)
    : Hashed torrent (io.writePiece build sha1 index begin block).2 := by
  intro i piece' hget'
  have hkept := writePiece_kept build sha1 io index begin block
  have hlt : i < io.pieceToFile.length := by
    rw [← hkept.length_eq]
    exact (List.getElem?_eq_some_iff.mp hget').1
  obtain ⟨piece'', hget, hhash, _⟩ := hkept.piece i _ (List.getElem?_eq_getElem hlt)
  rw [hget', Option.some.injEq] at hget
  subst hget
  rw [hhash]
  exact h i _ (List.getElem?_eq_getElem hlt)

theorem Hashed.run {tr : List (IoMessage × IoReply)} (h : Hashed torrent io)
    (hrun : (ioHandlerTask build sha1).Run io tr io')
    : Hashed torrent io' := by
  apply ioHandlerTask_invariant (P := Hashed torrent) hrun
  . intro io1 index begin block _ h
    exact h.writePiece build sha1 index begin block.val
  . exact h

theorem computeFileSha1Hash_of_ok_true
    (h : io.writePiece build sha1 index begin block = (.ok true, io'))
    : ∃ piece file, io'.pieceToFile[index.toNat]? = some piece
        ∧ piece.computeFileSha1Hash sha1 io'.file = .ok (piece.hash, file) := by
  have hwritten := writePiece_written build sha1 io index begin block
  rw [h] at hwritten
  generalize hres : (Except.ok true : Outcome AnyError Bool) = res at hwritten
  cases hwritten with
  | refused => contradiction
  | torn => contradiction
  | stored => simp at hres
  | @completed piece _ slices hstart hinsert =>
    have hlt := (List.getElem?_eq_some_iff.mp (startWrite_eq_ok hstart).get).1
    refine ⟨{ piece with slices }, ?_⟩
    unfold verifyPiece at hres
    obtain ⟨⟨computed, file⟩, hhash, hres⟩ := Outcome.bind_eq_ok.mp hres.symm
    dsimp only at hres
    split at hres
    . next heq => exact ⟨file, List.getElem?_set_self hlt, by rw [hhash, heq]⟩
    . contradiction

theorem calls_torrentIo (build : Build) (sha1 : Bytes → Bytes)
    : (torrentIo build sha1).calls = ioHandlerTask build sha1 := by
  unfold TorrentIo.calls ioHandlerTask
  congr 1

def readOf (content : Bytes) (index begin length : UInt32) : Outcome AnyError Bytes :=
  if begin.toNat + length.toNat ≤ content.length then
    .ok (File.slice content begin.toNat length.toNat)
  else
    .error (.err (.peer (.badBounds index.toNat (begin.toNat + length.toNat))))

theorem Placed.length_slice (h : Placed io info) {i : Nat} (hi : i < io.allocation.totalPieces)
    : (File.slice io.file.contents (i * io.allocation.maxPieceSize) (io.allocation.len i)).length
        =
      io.allocation.len i := by
  have hle := h.laidOut.mul_add_len_le_length hi
  have hlength := h.contents_length
  unfold File.slice
  rw [List.length_take, List.length_drop]
  omega

theorem Holds.index_lt {i : Nat} {content : Bytes} (h : Holds io i content) (hplaced : Placed io info)
    : i < io.allocation.totalPieces := by
  obtain ⟨piece, hget, _⟩ := h.complete
  rw [← hplaced.length_eq]
  exact (List.getElem?_eq_some_iff.mp hget).1

theorem Holds.readPiece_eq (build : Build) {content : Bytes} (h : Holds io index.toNat content)
    (hplaced : Placed io info) (begin length : UInt32)
    : io.readPiece build index begin length = readOf content index begin length := by
  obtain ⟨piece, hget, hcomplete⟩ := h.complete
  have hlength : content.length = io.allocation.len index.toNat := by
    rw [← h.slice_eq, hplaced.length_slice (h.index_lt hplaced)]
  unfold readOf
  rw [hlength]
  split
  . next hbounds =>
    rw [hplaced.readPiece_of_bounds build hget hbounds, if_pos hcomplete, ← h.slice_eq,
      File.slice_slice _ _ _ _ _ hbounds]
  . next hbounds => rw [hplaced.readPiece_of_badBounds hget (by omega)]

/--
A write that returned `Ok(true)` has left bytes with the hash that the torrent has for the piece.
-/
theorem Placed.holds_of_ok_true (h : Placed io' info) (hhashed : Hashed torrent io')
    (hwrite : io.writePiece build sha1 index begin block = (.ok true, io'))
    : ∃ content, Holds io' index.toNat content
        ∧ content.length = io'.allocation.len index.toNat
        ∧ (torrent.info.pieces[index.toNat]?).map (·.hash) = some (sha1 content) := by
  obtain ⟨piece, file, hget, hhash⟩ := computeFileSha1Hash_of_ok_true hwrite
  unfold FilePieceState.computeFileSha1Hash at hhash
  obtain ⟨⟨content, file'⟩, hread, hhash⟩ := Outcome.bind_eq_ok.mp hhash
  simp only [pure, Except.pure, Except.ok.injEq, Prod.mk.injEq] at hhash
  have hholds := FileTorrentIo.holds_of_ok_true h hwrite hget hread
  refine ⟨content, hholds, ?_, ?_⟩
  . rw [← hholds.slice_eq, h.length_slice (hholds.index_lt h)]
  . rw [hhashed _ _ hget, hhash.1]

/--
Behind a write that returned `Ok(true)` all reads of the piece get the bytes that were checked.
-/
theorem reads_of_ok_true {tr1 tr2 : List (IoMessage × IoReply)} {index begin : UInt32}
    {block : VecU8} (hconsistent : torrent.info.Consistent) (hfull : torrent.info.FullLast)
    (hnew : new build torrent = .ok io)
    (hrun : (ioHandlerTask build sha1).Run io
      (tr1 ++ (.write index begin block, .write (.ok true)) :: tr2) io')
    : ∃ content : Bytes, content.length = io.allocation.len index.toNat
        ∧ (torrent.info.pieces[index.toNat]?).map (·.hash) = some (sha1 content)
        ∧ ∀ begin' length reply, (IoMessage.read index begin' length, reply) ∈ tr2 →
            reply = .read (readOf content index begin' length) := by
  obtain ⟨io1, hrun1, hrun⟩ := Machine.RunWhile.append_iff.mp hrun
  obtain ⟨io2, _, hstep, hrun2⟩ := Machine.RunWhile.cons_iff.mp hrun
  have hwrite : io1.writePiece build sha1 index begin block.val = (.ok true, io2) := by
    simpa [ioHandlerTask, Prod.ext_iff] using hstep
  obtain ⟨hplaced1, halloc1, _⟩ := (new_placed hconsistent hfull hnew).run hrun1
  have hhashed1 := Hashed.run (fun i piece hget => new_hash hnew hget) hrun1
  have hplaced2 := hplaced1.writePiece build sha1 index begin block.property
  have hhashed2 := hhashed1.writePiece build sha1 index begin block.val
  have halloc2 := (writePiece_kept build sha1 io1 index begin block.val).allocation_eq
  rw [hwrite] at hplaced2 hhashed2 halloc2
  obtain ⟨content, hholds, hlength, hhash⟩ := hplaced2.holds_of_ok_true hhashed2 hwrite
  refine ⟨content, by rw [hlength, halloc2, halloc1], hhash, ?_⟩
  intro begin' length reply hmem
  obtain ⟨tr3, tr4, rfl⟩ := List.append_of_mem hmem
  obtain ⟨io3, hrun3, hrun⟩ := Machine.RunWhile.append_iff.mp hrun2
  obtain ⟨io4, _, hread, _⟩ := Machine.RunWhile.cons_iff.mp hrun
  obtain ⟨hplaced3, _, hkeeps⟩ := hplaced2.run hrun3
  simp only [ioHandlerTask, Option.some.injEq, Prod.mk.injEq] at hread
  rw [← hread.1, (hkeeps _ _ hholds).readPiece_eq build hplaced3]

end FileTorrentIo

namespace IoHandler

variable {build : Build} {sha1 : Bytes → Bytes} {torrent : V1Torrent} {io : FileTorrentIo}
  {size : Nat} {p0 p1 p2 : IoHandler FileTorrentIo}
  {tr1 tr2 : List (IoHandlerEvent × Option (Served IoMessage IoReply))}

theorem Atomic.mem_of_ok_true {p : IoHandler FileTorrentIo} {k : Nat} {index begin : UInt32}
    {block : VecU8} (h : Atomic (FileTorrentIo.torrentIo build sha1) p0 tr1 p)
    (hwrite : Returned p k (.write index begin block) (.write (.ok true)))
    : ⟨k, .write index begin block, .write (.ok true)⟩ ∈ Service.served tr1 := by
  rcases h.returned k _ _ hwrite with ⟨hmem, _⟩ | ⟨heq, _⟩
  . exact hmem
  . simp [result, exits] at heq

/--
Once a write has returned `Ok(true)`, every read of the piece that is called later gets the bytes
that were checked against the torrent's hash, whatever the other callers do.
-/
theorem readsVerified_of_run (hconsistent : torrent.info.Consistent)
    (hfull : torrent.info.FullLast) (hio : FileTorrentIo.new build torrent = .ok io)
    (hnew : new size io = .ok p0)
    (hrun1 : (task (FileTorrentIo.torrentIo build sha1)).Run p0 tr1 p1)
    (hrun2 : (task (FileTorrentIo.torrentIo build sha1)).Run p1 tr2 p2)
    {k : Nat} {index begin : UInt32} {block : VecU8}
    (hwrite : Returned p1 k (.write index begin block) (.write (.ok true)))
    : ∃ content : Bytes, content.length = io.allocation.len index.toNat
        ∧ (torrent.info.pieces[index.toNat]?).map (·.hash) = some (sha1 content)
        ∧ ∀ k' begin' length reply, p1.calls.length ≤ k' →
            Returned p2 k' (.read index begin' length) reply →
              reply = .read (FileTorrentIo.readOf content index begin' length)
                ∨ reply = .read exits := by
  obtain ⟨_, rfl⟩ := new_eq_ok hnew
  have hatomic1 := atomic_new hrun1
  have hatomic2 := atomic_new (hrun1.append hrun2)
  -- the task has served the write before any of the later calls was made
  obtain ⟨log1, log2, hlog⟩ := List.append_of_mem (hatomic1.mem_of_ok_true hwrite)
  have hrun := hatomic2.run
  rw [FileTorrentIo.calls_torrentIo, Service.served_append, hlog, List.append_assoc, List.map_append,
    List.cons_append, List.map_cons] at hrun
  obtain ⟨content, hlength, hhash, hreads⟩ :=
    FileTorrentIo.reads_of_ok_true hconsistent hfull hio hrun
  refine ⟨content, hlength, hhash, ?_⟩
  intro k' begin' length reply hk' hread
  rcases hatomic2.returned k' _ _ hread with ⟨hmem, _⟩ | ⟨heq, _⟩
  . left
    rw [Service.served_append, List.mem_append] at hmem
    rcases hmem with hmem | hmem
    . obtain ⟨stage, hat⟩ := hatomic1.called _ hmem
      exact absurd hat.lt (Nat.not_lt.mpr hk')
    . apply hreads begin' length reply
      exact List.mem_map.mpr ⟨_, List.mem_append_right _ hmem, rfl⟩
  . exact .inr heq

theorem readsVerified_oneSlot
    : ∃ p0 p1 p2 tr1 tr2,
        (task (FileTorrentIo.torrentIo ⟨true⟩ Sha1.digest)).Run p0 tr1 p1
        ∧ (task (FileTorrentIo.torrentIo ⟨true⟩ Sha1.digest)).Run p1 tr2 p2
        ∧ p2.calls[1]? = some ⟨.read 0 1 1, .returned (some (.read (.ok [2])))⟩
        ∧ ∃ content : Bytes, content.length = 2
          ∧ ∀ k' begin' length reply, p1.calls.length ≤ k' →
            Returned p2 k' (.read 0 begin' length) reply →
              reply = .read (FileTorrentIo.readOf content 0 begin' length)
                ∨ reply = .read exits := by
  let p0 : IoHandler FileTorrentIo := Service.new 1 (FileTorrentIo.onePieceIo [0, 0] 0 (.new 2))
  let m := task (FileTorrentIo.torrentIo ⟨true⟩ Sha1.digest)
  let write : IoMessage := .write 0 0 ⟨[1, 2], by decide⟩
  let p1 : IoHandler FileTorrentIo := { p0 with
    state := FileTorrentIo.onePieceIo [1, 2] 2 ((Slices.new 2).insertRange 0 2)
    calls := [⟨write, .returned (some (.write (.ok true)))⟩] }
  obtain ⟨tr1, p1', hrun1, _, hres1⟩ := m.exists_run_of_exec p0
    [.call write, .send 0, .take, .serve, .receive 0] (fun res => (res.2, res.2.calls[0]?))
    (b := (p1, some ⟨write, .returned (some (.write (.ok true)))⟩))
    (by decide +kernel)
  simp only [Prod.mk.injEq] at hres1
  obtain ⟨rfl, hwrite⟩ := hres1
  obtain ⟨tr2, p2, hrun2, _, hres2⟩ := m.exists_run_of_exec p1
    [.call (.read 0 1 1), .send 1, .take, .serve, .receive 1] (fun res => res.2.calls[1]?)
    (b := some ⟨.read 0 1 1, .returned (some (.read (.ok [2])))⟩)
    (by decide +kernel)
  refine ⟨p0, p1, p2, tr1, tr2, hrun1, hrun2, hres2, ?_⟩
  obtain ⟨content, hlength, _, hreads⟩ := readsVerified_of_run (k := 0) (by decide +kernel)
    (by decide +kernel) FileTorrentIo.new_onePieceIo (show new 1 _ = .ok p0 from rfl) hrun1 hrun2 ⟨_, hwrite, rfl⟩
  exact ⟨content, hlength, hreads⟩

end IoHandler
