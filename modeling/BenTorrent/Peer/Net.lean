import BenTorrent.Machine.Basic
import BenTorrent.Peer.ProtocolLemmas

/-!
This module contains `read_msg`, as a machine that can be suspended and dropped wherever the source
awaits, and that it delivers the messages of a stream whatever the reads and the drops are.
-/

open Rust

/--
The receiving side of a connection: the bytes received and not consumed, the bytes the peer will still
send before it closes the stream, and the threshold of the call that waits for a read, if one does.
-/
structure Connection where
  buffer : Bytes
  unread : Bytes
  needs : Option Nat
  deriving DecidableEq

inductive ReadEvent where
  | call
  -- the read that the call waits for is done, with that many bytes
  | ready (n : Nat)
  -- the future is dropped while it waits
  | drop
  deriving DecidableEq

namespace Connection

def new (unread : Bytes) : Connection :=
  ⟨[], unread, none⟩

section

variable (decode : Bytes → Outcome ProtocolError (μ × Bytes))

def readLoop (conn : Connection) (needs : Nat)
    : Option (Outcome AnyError (Option μ)) × Connection :=
  if needs ≤ conn.buffer.length then
    match decode conn.buffer with
    | .ok (msg, readBuf) =>
      let advance := conn.buffer.length - readBuf.length
      (some (.ok (some msg)), { conn with buffer := conn.buffer.drop advance, needs := none })
    | .error (.err (.tryGetError e)) => (none, { conn with needs := some e.requested })
    | .error (.err e) => (some (.error (.err (.protocol e))), { conn with needs := none })
    | .error .panic => (some (.error .panic), { conn with needs := none })
  else
    (none, { conn with needs := some needs })

def readMsg : Machine Connection ReadEvent (Option (Outcome AnyError (Option μ))) where
  step conn
    | .call =>
      match conn.needs with
      | none => some (readLoop decode conn 0)
      | some _ => none
    | .ready n =>
      match conn.needs with
      | none => none
      | some needs =>
        -- a read takes some of the bytes to come, or none once there are none
        if n ≤ conn.unread.length ∧ (n = 0 → conn.unread = []) then
          if n = 0 then
            if conn.buffer.isEmpty then
              some (some (.ok none), { conn with needs := none })
            else
              some (some (.error (.err (.peer (.other "connection reset by peer")))),
                { conn with needs := none })
          else
            let buffer := conn.buffer ++ conn.unread.take n
            some (readLoop decode { conn with buffer, unread := conn.unread.drop n } needs)
        else
          none
    | .drop =>
      match conn.needs with
      | none => none
      | some _ => some (none, { conn with needs := none })

end

def results (tr : List (ReadEvent × Option (Outcome AnyError (Option μ))))
    : List (Outcome AnyError (Option μ)) :=
  tr.filterMap Prod.snd

/--
The decoder undoes the encoding, and a message that is cut short makes it ask for no more than the
message has.
-/
structure Codec (decode : Bytes → Outcome ProtocolError (μ × Bytes)) (encode : μ → Bytes)
    (Fits : μ → Prop) : Prop where
  decode_append : ∀ m r, Fits m → decode (encode m ++ r) = .ok (m, r)
  decode_prefix : ∀ m p r, Fits m → encode m = p ++ r → r ≠ [] →
    ∃ e, decode p = .error (.err (.tryGetError e)) ∧ e.requested ≤ (encode m).length
  decode_nil : ∃ e, decode [] = .error (.err (.tryGetError e))

/--
The connection has still to return `left`. A call that waits has part of the first of them, and
waits for no more than the rest of it.
-/
structure Awaits (encode : μ → Bytes) (conn : Connection) (left : List μ) : Prop where
  bytes : conn.buffer ++ conn.unread = left.flatMap encode
  suspended : ∀ needs, conn.needs = some needs → ∀ m, left.head? = some m →
    needs ≤ (encode m).length ∧ ∃ r, encode m = conn.buffer ++ r ∧ r ≠ []

variable {decode : Bytes → Outcome ProtocolError (μ × Bytes)} {encode : μ → Bytes} {Fits : μ → Prop}

@[simp]
theorem results_nil : results ([] : List (ReadEvent × Option (Outcome AnyError (Option μ)))) = [] := by
  rfl

@[simp]
theorem results_cons_none (event : ReadEvent)
    (tr : List (ReadEvent × Option (Outcome AnyError (Option μ))))
    : results ((event, none) :: tr) = results tr := by
  rfl

@[simp]
theorem results_cons_some (event : ReadEvent) (res : Outcome AnyError (Option μ))
    (tr : List (ReadEvent × Option (Outcome AnyError (Option μ))))
    : results ((event, some res) :: tr) = res :: results tr := by
  rfl

@[simp]
theorem results_append (tr1 tr2 : List (ReadEvent × Option (Outcome AnyError (Option μ))))
    : results (tr1 ++ tr2) = results tr1 ++ results tr2 := by
  simp [results]

theorem Awaits.nil {conn : Connection} (h : Awaits encode conn [])
    : conn.buffer = [] ∧ conn.unread = [] := by
  have := h.bytes
  simpa using this

theorem readLoop_spec (hcodec : Codec decode encode Fits) {conn : Connection} {left : List μ}
    (hfits : ∀ m ∈ left, Fits m) (hbytes : conn.buffer ++ conn.unread = left.flatMap encode)
    (needs : Nat) (hneeds : ∀ m, left.head? = some m → needs ≤ (encode m).length)
    : (∃ k, readLoop decode conn needs = (none, { conn with needs := some k })
          ∧ Awaits encode { conn with needs := some k } left)
        ∨ ∃ m left' buffer, left = m :: left'
            ∧ readLoop decode conn needs
                = (some (.ok (some m)), { conn with buffer := buffer, needs := none })
            ∧ Awaits encode { conn with buffer := buffer, needs := none } left' := by
  cases left with
  | nil =>
    left
    simp only [List.flatMap_nil, List.append_eq_nil_iff] at hbytes
    obtain ⟨e, hdecode⟩ := hcodec.decode_nil
    unfold readLoop
    rw [hbytes.1, hdecode]
    split
    . exact ⟨_, rfl, by simp [hbytes], by simp⟩
    . exact ⟨_, rfl, by simp [hbytes], by simp⟩
  | cons m left =>
    rw [List.flatMap_cons] at hbytes
    have hm := hfits m (by simp)
    have hle := hneeds m rfl
    by_cases hcomplete : (encode m).length ≤ conn.buffer.length
    . -- the buffer begins with the whole message
      right
      obtain ⟨r, hr⟩ : encode m <+: conn.buffer := by
        apply List.prefix_of_prefix_length_le _ (List.prefix_append _ conn.unread) hcomplete
        rw [hbytes]
        apply List.prefix_append _ _
      refine ⟨m, left, r, rfl, ?_, ?_, by simp⟩
      . unfold readLoop
        rw [if_pos (by omega), ← hr, hcodec.decode_append m r hm]
        simp
      . rw [← hr, List.append_assoc] at hbytes
        apply List.append_cancel_left hbytes
    . -- only part of it has arrived
      left
      obtain ⟨r, hr⟩ : conn.buffer <+: encode m := by
        have h1 : conn.buffer <+: encode m ++ left.flatMap encode := hbytes ▸ List.prefix_append _ _
        have h2 : encode m <+: encode m ++ left.flatMap encode := List.prefix_append _ _
        apply List.prefix_of_prefix_length_le h1 h2 (by omega)
      have hne : r ≠ [] := by
        rintro rfl
        rw [List.append_nil] at hr
        simp [hr] at hcomplete
      have hsuspended : ∀ k ≤ (encode m).length,
          Awaits encode { conn with needs := some k } (m :: left) := by
        intro k hk
        refine ⟨hbytes, ?_⟩
        intro needs' hneeds' m' hm'
        simp only [Option.some.injEq, List.head?_cons] at hneeds' hm'
        subst hneeds' hm'
        exact ⟨hk, r, hr.symm, hne⟩
      unfold readLoop
      split
      . obtain ⟨e, hdecode, hreq⟩ := hcodec.decode_prefix m _ r hm hr.symm hne
        rw [hdecode]
        exact ⟨_, rfl, hsuspended _ hreq⟩
      . exact ⟨_, rfl, hsuspended _ hle⟩

theorem step_spec (hcodec : Codec decode encode Fits) {conn conn' : Connection} {left : List μ}
    (hfits : ∀ m ∈ left, Fits m) (h : Awaits encode conn left) {event : ReadEvent}
    {res : Option (Outcome AnyError (Option μ))}
    (hstep : (readMsg decode).step conn event = some (res, conn'))
    : (res = none ∧ Awaits encode conn' left)
        ∨ (∃ m left', left = m :: left' ∧ res = some (.ok (some m)) ∧ Awaits encode conn' left')
        ∨ (left = [] ∧ res = some (.ok none) ∧ Awaits encode conn' []) := by
  have hloop : ∀ {conn1 : Connection} {needs : Nat},
      conn1.buffer ++ conn1.unread = left.flatMap encode →
      (∀ m, left.head? = some m → needs ≤ (encode m).length) →
      readLoop decode conn1 needs = (res, conn') →
      (res = none ∧ Awaits encode conn' left)
        ∨ ∃ m left', left = m :: left' ∧ res = some (.ok (some m)) ∧ Awaits encode conn' left' := by
    intro conn1 needs hbytes hneeds hres
    rcases readLoop_spec hcodec hfits hbytes needs hneeds with
      ⟨k, hread, hawaits⟩ | ⟨m, left', buffer, hleft, hread, hawaits⟩
    . rw [hread, Prod.mk.injEq] at hres
      obtain ⟨rfl, rfl⟩ := hres
      exact .inl ⟨rfl, hawaits⟩
    . rw [hread, Prod.mk.injEq] at hres
      obtain ⟨rfl, rfl⟩ := hres
      exact .inr ⟨m, left', hleft, rfl, hawaits⟩
  cases event with
  | call =>
    cases hneeds : conn.needs with
    | some needs => simp [readMsg, hneeds] at hstep
    | none =>
      simp only [readMsg, hneeds, Option.some.injEq] at hstep
      rcases hloop h.bytes (by simp) hstep with hnone | hsome
      . exact .inl hnone
      . exact .inr (.inl hsome)
  | ready n =>
    cases hneeds : conn.needs with
    | none => simp [readMsg, hneeds] at hstep
    | some needs =>
      simp only [readMsg, hneeds] at hstep
      split at hstep
      . next hn =>
        split at hstep
        . next hzero =>
          -- the stream has ended: nothing of a message can be left
          have hunread := hn.2 hzero
          have hbytes := h.bytes
          rw [hunread, List.append_nil] at hbytes
          cases left with
          | nil =>
            rw [List.flatMap_nil] at hbytes
            simp only [hbytes, List.isEmpty_nil, if_true, Option.some.injEq, Prod.mk.injEq] at hstep
            obtain ⟨rfl, rfl⟩ := hstep
            exact .inr (.inr ⟨rfl, rfl, by simp [hunread], by simp⟩)
          | cons m left =>
            obtain ⟨_, r, hr, hne⟩ := h.suspended needs hneeds m rfl
            rw [List.flatMap_cons, hr, List.append_assoc] at hbytes
            simp [hne] at hbytes
        . rw [Option.some.injEq] at hstep
          have hbytes : (conn.buffer ++ conn.unread.take n) ++ conn.unread.drop n
              = left.flatMap encode := by
            rw [List.append_assoc, List.take_append_drop, h.bytes]
          rcases hloop hbytes (fun m hm => (h.suspended needs hneeds m hm).1) hstep with hnone | hsome
          . exact .inl hnone
          . exact .inr (.inl hsome)
      . contradiction
  | drop =>
    cases hneeds : conn.needs with
    | none => simp [readMsg, hneeds] at hstep
    | some needs =>
      simp only [readMsg, hneeds, Option.some.injEq, Prod.mk.injEq] at hstep
      obtain ⟨rfl, rfl⟩ := hstep
      exact .inl ⟨rfl, h.bytes, by simp⟩

theorem run_spec (hcodec : Codec decode encode Fits) {conn conn' : Connection} {left : List μ}
    {tr : List (ReadEvent × Option (Outcome AnyError (Option μ)))}
    (hrun : (readMsg decode).Run conn tr conn') (hfits : ∀ m ∈ left, Fits m)
    (h : Awaits encode conn left)
    : ∃ read left' k, left = read ++ left'
        ∧ results tr = read.map (.ok ∘ some) ++ List.replicate k (.ok none)
        ∧ (left' = [] ∨ k = 0)
        ∧ Awaits encode conn' left' := by
  induction hrun generalizing left with
  | nil conn => exact ⟨[], left, 0, rfl, rfl, .inr rfl, h⟩
  | cons _ hstep _ ih =>
    rcases step_spec hcodec hfits h hstep with
      ⟨rfl, h'⟩ | ⟨m, left', rfl, rfl, h'⟩ | ⟨rfl, rfl, h'⟩
    . exact ih hfits h'
    . rw [List.forall_mem_cons] at hfits
      obtain ⟨read, left'', k, rfl, hres, hk, h''⟩ := ih hfits.2 h'
      exact ⟨m :: read, left'', k, rfl, by simp [hres], hk, h''⟩
    . obtain ⟨read, left'', k, hnil, hres, -, h''⟩ := ih hfits h'
      obtain ⟨rfl, rfl⟩ := List.append_eq_nil_iff.mp hnil.symm
      exact ⟨[], [], k + 1, rfl, by simp [hres, List.replicate_succ], .inl rfl, h''⟩

theorem readLoop_unread (decode : Bytes → Outcome ProtocolError (μ × Bytes)) (conn : Connection) (needs : Nat)
    : (readLoop decode conn needs).2.unread = conn.unread
        ∧ ((readLoop decode conn needs).1 = none → (readLoop decode conn needs).2.needs ≠ none) := by
  unfold readLoop
  split
  . split <;> simp
  . simp

theorem step_call (decode : Bytes → Outcome ProtocolError (μ × Bytes)) {conn : Connection} (h : conn.needs = none)
    : ∃ res conn', (readMsg decode).step conn .call = some (res, conn')
        ∧ conn'.unread = conn.unread
        ∧ (res = none → conn'.needs ≠ none) := by
  have hloop := readLoop_unread decode conn 0
  exact ⟨_, _, by simp only [readMsg, h], hloop.1, hloop.2⟩

theorem step_ready (decode : Bytes → Outcome ProtocolError (μ × Bytes)) {conn : Connection} {needs : Nat} (h : conn.needs = some needs)
    : ∃ res conn', (readMsg decode).step conn (.ready conn.unread.length) = some (res, conn')
        ∧ conn'.unread = []
        ∧ (res = none → conn.unread ≠ [] ∧ conn'.needs ≠ none) := by
  by_cases hunread : conn.unread = []
  . by_cases hbuffer : conn.buffer = []
    . exact ⟨some (.ok none), { conn with needs := none }, by simp [readMsg, h, hunread, hbuffer],
        hunread, by simp⟩
    . exact ⟨some (.error (.err (.peer (.other "connection reset by peer")))),
        { conn with needs := none }, by simp [readMsg, h, hunread, hbuffer], hunread, by simp⟩
  . have hlength : conn.unread.length ≠ 0 := by simpa using hunread
    have hloop := readLoop_unread decode
      { conn with buffer := conn.buffer ++ conn.unread, unread := [] } needs
    exact ⟨_, _, by simp only [readMsg, h, hlength, List.take_length, List.drop_length, Nat.le_refl,
      false_implies, and_self, if_true, if_false], hloop.1, fun hnone => ⟨hunread, hloop.2 hnone⟩⟩

theorem exists_run_of_awaits (hcodec : Codec decode encode Fits) {conn : Connection} {left : List μ}
    (hfits : ∀ m ∈ left, Fits m) (h : Awaits encode conn left)
    : ∃ tr conn', (readMsg decode).Run conn tr conn' ∧ (∀ e ∈ tr, e.1 ≠ .drop)
        ∧ results tr = left.map (.ok ∘ some) ++ [.ok none] := by
  -- a step returns a message, or leaves less unread, or starts the call
  let measure (conn : Connection) (left : List μ) : Nat :=
    4 * left.length + (if conn.unread = [] then 0 else 2) + (if conn.needs = none then 1 else 0)
  generalize hn : measure conn left = n
  induction n using Nat.strongRecOn generalizing conn left with
  | ind n ih =>
    have hrest : ∀ {event res conn1}, event ≠ .drop →
        (readMsg decode).step conn event = some (res, conn1) →
        (res = none → measure conn1 left < n) →
        ∃ tr conn', (readMsg decode).Run conn tr conn' ∧ (∀ e ∈ tr, e.1 ≠ .drop)
          ∧ results tr = left.map (.ok ∘ some) ++ [.ok none] := by
      intro event res conn1 hevent hstep hlt
      rcases step_spec hcodec hfits h hstep with
        ⟨rfl, h'⟩ | ⟨m, left', rfl, rfl, h'⟩ | ⟨rfl, rfl, h'⟩
      . obtain ⟨tr, conn', hrun, hdrop, hres⟩ := ih _ (hlt rfl) hfits h' rfl
        refine ⟨_, conn', .cons trivial hstep hrun, ?_, by simpa using hres⟩
        rw [List.forall_mem_cons]
        exact ⟨hevent, hdrop⟩
      . rw [List.forall_mem_cons] at hfits
        have hless : measure conn1 left' < n := by
          rw [← hn]
          simp only [measure, List.length_cons]
          split <;> split <;> omega
        obtain ⟨tr, conn', hrun, hdrop, hres⟩ := ih _ hless hfits.2 h' rfl
        refine ⟨_, conn', .cons trivial hstep hrun, ?_, by simp [hres]⟩
        rw [List.forall_mem_cons]
        exact ⟨hevent, hdrop⟩
      . exact ⟨_, conn1, .cons trivial hstep (.nil conn1), by simpa using hevent, by simp⟩
    cases hneeds : conn.needs with
    | none =>
      obtain ⟨res, conn1, hstep, hunread, hnone⟩ := step_call decode hneeds
      apply hrest (by simp) hstep
      intro hres
      rw [← hn]
      simp [measure, hunread, hneeds, hnone hres]
    | some needs =>
      obtain ⟨res, conn1, hstep, hunread, hnone⟩ := step_ready decode hneeds
      apply hrest (by simp) hstep
      intro hres
      rw [← hn]
      simp [measure, hunread, hneeds, hnone hres]

theorem length_le_of_ready {conn conn' : Connection}
    {tr : List (ReadEvent × Option (Outcome AnyError (Option μ)))}
    (hrun : (readMsg decode).Run conn tr conn') (hready : ∀ e ∈ tr, ∃ n, e.1 = .ready n)
    (hres : results tr = [])
    : tr.length ≤ conn.unread.length := by
  induction hrun with
  | nil => simp
  | @cons conn1 conn2 conn3 event res tr _ hstep _ ih =>
    rw [List.forall_mem_cons] at hready
    obtain ⟨⟨n, hn⟩, hready⟩ := hready
    dsimp only at hn
    subst hn
    cases res with
    | some res => simp at hres
    | none =>
      have hle := ih hready hres
      cases hneeds : conn1.needs with
      | none => simp [readMsg, hneeds] at hstep
      | some needs =>
        simp only [readMsg, hneeds] at hstep
        split at hstep
        . next hn =>
          split at hstep
          . split at hstep <;> simp at hstep
          . next hpos =>
            have hunread := (readLoop_unread decode
              ⟨conn1.buffer ++ conn1.unread.take n, conn1.unread.drop n, some needs⟩ needs).1
            rw [Option.some.injEq] at hstep
            rw [hstep] at hunread
            dsimp only at hunread
            rw [hunread, List.length_drop] at hle
            rw [List.length_cons]
            omega
        . contradiction

end Connection

theorem MessagesDecoder.codec (build : Build)
    : Connection.Codec (decode build) Messages.frame Messages.Fits := by
  constructor
  . intro m r h
    apply decode_frame_append build h r
  . intro m p r h hp hr
    apply decode_of_prefix build h hp hr
  . exact ⟨⟨4, 0⟩, rfl⟩

/--
Whatever the reads and the drops are, the messages of the stream come out of `read_msg` in their
order, and then the end of the stream. The calls can always go on to that end, and a call that is not
dropped waits no longer than the stream goes on.
-/
def MessagesDecoder.Delivers (build : Build) (msgs : List Messages) : Prop :=
  ∃ frames, (msgs.mapM (Messages.encode build) : Outcome Empty (List Bytes)) = .ok frames
    ∧ ∀ tr conn, (Connection.readMsg (decode build)).Run (.new frames.flatten) tr conn →
      (∃ k, Connection.results tr <+: msgs.map (.ok ∘ some) ++ List.replicate k (.ok none))
        ∧ (∃ tr' conn' k, (Connection.readMsg (decode build)).Run conn tr' conn'
            ∧ (∀ e ∈ tr', e.1 ≠ .drop)
            ∧ Connection.results (tr ++ tr')
                = msgs.map (.ok ∘ some) ++ List.replicate (k + 1) (.ok none))
        ∧ ∀ tr' conn', (Connection.readMsg (decode build)).Run conn tr' conn' →
            (∀ e ∈ tr', ∃ n, e.1 = .ready n) → Connection.results tr' = [] →
            tr'.length ≤ conn.unread.length

theorem MessagesDecoder.delivers_of_fits (build : Build) (msgs : List Messages)
    (h : ∀ m ∈ msgs, m.Fits)
    : Delivers build msgs := by
  refine ⟨_, Outcome.mapM_of_ok fun m hm => Messages.encode_of_fits build (h m hm), ?_⟩
  intro tr conn hrun
  have hcodec := codec build
  have hstart : Connection.Awaits Messages.frame (.new (msgs.map Messages.frame).flatten) msgs :=
    ⟨by simp [Connection.new, List.flatMap_def], by simp [Connection.new]⟩
  obtain ⟨read, left, k, rfl, hres, hk, hawaits⟩ := Connection.run_spec hcodec hrun h hstart
  refine ⟨?_, ?_, fun tr' conn' => Connection.length_le_of_ready⟩
  . refine ⟨k, ?_⟩
    rw [hres]
    rcases hk with rfl | rfl
    . simp
    . simp
  . obtain ⟨tr', conn', hrun', hdrop, hres'⟩ := Connection.exists_run_of_awaits hcodec
      (fun m hm => h m (List.mem_append_right _ hm)) hawaits
    refine ⟨tr', conn', k, hrun', hdrop, ?_⟩
    rw [Connection.results_append, hres, hres']
    rcases hk with rfl | rfl
    . simp [List.replicate_succ']
    . simp

theorem MessagesDecoder.delivers_havePiece
    : Delivers ⟨true⟩ [.have 7, .keepAlive, .piece 0 0 [1, 2]] :=
  delivers_of_fits ⟨true⟩ _ (by simp [Messages.Fits])
