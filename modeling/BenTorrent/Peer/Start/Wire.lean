import BenTorrent.Peer.Net
import BenTorrent.Peer.Start.Held
import BenTorrent.Peer.Start.Stream

/-!
This module contains the loop with the bytes that its connections read: `run_connection` takes the
messages off a stream, with a read that its select drops whenever it does something else.
-/

open Rust Buf

namespace MessagesDecoder

theorem length_of_vecZeros {build : Build} {len k n : Nat} {zeros : Bytes} (hlen : len < 2 ^ 32)
    (hk : k ≤ 9) (hsub : (build.usizeSub len k : Outcome ProtocolError Nat) = .ok n)
    (hzeros : (vecZeros n : Outcome ProtocolError Bytes) = .ok zeros)
    : n + k = len := by
  unfold vecZeros at hzeros
  split at hzeros
  . next hlt =>
    unfold Build.usizeSub Build.arith at hsub
    split at hsub
    . rw [Except.ok.injEq] at hsub
      omega
    . split at hsub
      . contradiction
      . rw [Except.ok.injEq] at hsub
        omega
  . contradiction

theorem length_of_tryCopyToSlice {len : Nat} {b block r : Bytes}
    (h : tryGet (tryCopyToSlice len b) = .ok (block, r))
    : block.length = len := by
  unfold tryCopyToSlice at h
  split at h
  . contradiction
  . simp only [tryGet, Except.ok.injEq, Prod.mk.injEq] at h
    rw [← h.1, List.length_take]
    omega

theorem fits_of_decode {build : Build} {b r : Bytes} {msg : Messages}
    (h : decode build b = .ok (msg, r))
    : msg.Fits := by
  unfold decode at h
  simp only [Outcome.bind_eq_ok, Prod.exists] at h
  obtain ⟨len, b1, _, h⟩ := h
  have hlen := len.toNat_lt
  split at h
  . simp only [pure, Except.pure, Except.ok.injEq, Prod.mk.injEq] at h
    rw [← h.1]
    trivial
  . split at h
    . contradiction
    . simp only [Outcome.bind_eq_ok, Prod.exists] at h
      obtain ⟨id, b2, _, h⟩ := h
      unfold decodeBody at h
      split at h
      . simp only [Outcome.bind_eq_ok, Prod.exists, pure, Except.pure, Except.ok.injEq,
          Prod.mk.injEq] at h
        obtain ⟨_, _, _, rfl, _⟩ := h
        trivial
      . simp only [Outcome.bind_eq_ok, Prod.exists, pure, Except.pure, Except.ok.injEq,
          Prod.mk.injEq] at h
        obtain ⟨n, hsub, zeros, hzeros, bitfield, _, hcopy, rfl, _⟩ := h
        have hn := length_of_vecZeros hlen (by omega) hsub hzeros
        have hbitfield := length_of_tryCopyToSlice hcopy
        simp only [Messages.Fits]
        omega
      . simp only [Outcome.bind_eq_ok, Prod.exists, pure, Except.pure, Except.ok.injEq,
          Prod.mk.injEq] at h
        obtain ⟨_, _, _, _, _, rfl, _⟩ := h
        trivial
      . unfold decodePiece at h
        simp only [Outcome.bind_eq_ok, Prod.exists, pure, Except.pure, Except.ok.injEq,
          Prod.mk.injEq] at h
        obtain ⟨_, _, _, _, _, _, n, hsub, zeros, hzeros, block, _, hcopy, rfl, _⟩ := h
        have hn := length_of_vecZeros hlen (by omega) hsub hzeros
        have hblock := length_of_tryCopyToSlice hcopy
        simp only [Messages.Fits]
        omega
      . simp only [Outcome.bind_eq_ok, Prod.exists, pure, Except.pure, Except.ok.injEq,
          Prod.mk.injEq] at h
        obtain ⟨_, _, _, _, _, rfl, _⟩ := h
        trivial
      . split at h
        . split at h
          . rw [Except.ok.injEq, Prod.mk.injEq] at h
            rw [← h.1]
            trivial
          . contradiction
        . contradiction

end MessagesDecoder

namespace Connection

theorem readLoop_eq_some {decode : Bytes → Outcome ProtocolError (μ × Bytes)} {conn conn' : Connection}
    {needs : Nat} {msg : μ} (h : readLoop decode conn needs = (some (.ok (some msg)), conn'))
    : ∃ b r, decode b = .ok (msg, r) := by
  unfold readLoop at h
  split at h
  . split at h
    . next hdecode =>
      simp only [Prod.mk.injEq, Option.some.injEq, Except.ok.injEq] at h
      rw [h.1] at hdecode
      exact ⟨_, _, hdecode⟩
    . simp at h
    . simp at h
    . simp at h
  . simp at h

theorem decode_of_step {decode : Bytes → Outcome ProtocolError (μ × Bytes)} {conn conn' : Connection}
    {event : ReadEvent} {msg : μ}
    (h : (readMsg decode).step conn event = some (some (.ok (some msg)), conn'))
    : ∃ b r, decode b = .ok (msg, r) := by
  unfold readMsg at h
  dsimp only at h
  split at h
  . split at h
    . rw [Option.some.injEq] at h
      exact readLoop_eq_some h
    . contradiction
  . split at h
    . contradiction
    . split at h
      . split at h
        . split at h
          . simp at h
          . simp at h
        . rw [Option.some.injEq] at h
          exact readLoop_eq_some h
      . contradiction
  . split at h
    . contradiction
    . simp at h

def dropRead (conn : Connection) : Connection :=
  { conn with needs := none }

theorem Awaits.dropRead {encode : μ → Bytes} {conn : Connection} {left : List μ}
    (h : Awaits encode conn left)
    : Awaits encode conn.dropRead left := by
  refine ⟨h.bytes, ?_⟩
  intro needs hneeds
  contradiction

end Connection

/--
The loop, with what each of its connections has received and is still to receive.
-/
structure Wired (σ : Type u) where
  processor : TorrentProcessor σ
  readers : List Connection

inductive WireEvent where
  -- the buffer is what the handshake has left in it
  | connect (peerId : PeerId) (buffer unread : Bytes)
  | read (c : Nat) (event : ReadEvent)
  | other (event : StartEvent)

abbrev WireTrace := List (WireEvent × Option (StartEvent × List Signal))

/--
What the select of `run_connection` does with what `read_msg` returns.
-/
def LinkEvent.ofResult : Outcome AnyError (Option Messages) → Option LinkEvent
  | .ok (some msg) => some (.read msg)
  -- the branch is disabled
  | .ok none => some .eof
  | .error (.err _) => some .eof
  -- the panic ends the program
  | .error .panic => none

def StartEvent.isOther : StartEvent → Bool
  | .connect _ => false
  | .link _ (.read _) => false
  | .link _ .eof => false
  | _ => true

namespace Wired

variable {σ : Type u}

/--
A select that goes on with another branch drops the read.
-/
def dropReads (readers : List Connection) : StartEvent → List Connection
  | .link c .write => readers.modify c Connection.dropRead
  | .link c .writeFails => readers.modify c Connection.dropRead
  | .link c .hangUp => readers.modify c Connection.dropRead
  | _ => readers

section

variable (build : Build) (torrentIo : TorrentIo σ) (config : Config) (torrent : V1Torrent)

def proceed (w : Wired σ) (event : StartEvent) (readers : List Connection)
    : Option (Option (StartEvent × List Signal) × Wired σ) :=
  match (startTask build torrentIo config torrent).step w.processor event with
  | some (signals, processor) => some (some (event, signals), { processor, readers })
  | none => none

def read (w : Wired σ) (c : Nat) (event : ReadEvent)
    : Option (Option (StartEvent × List Signal) × Wired σ) :=
  match w.processor.connections[c]?, w.readers[c]? with
  | some conn, some reader =>
    if conn.link = .selecting false ∧ event ≠ .drop then
      match (Connection.readMsg (MessagesDecoder.decode build)).step reader event with
      | some (none, reader) => some (none, { w with readers := w.readers.set c reader })
      | some (some res, reader) =>
        match LinkEvent.ofResult res with
        | some linkEvent =>
          w.proceed build torrentIo config torrent (.link c linkEvent) (w.readers.set c reader)
        | none => none
      | none => none
    else
      none
  | _, _ => none

def wireTask : Machine (Wired σ) WireEvent (Option (StartEvent × List Signal)) where
  step w
    | .connect peerId buffer unread =>
      w.proceed build torrentIo config torrent (.connect peerId)
        (w.readers ++ [⟨buffer, unread, none⟩])
    | .read c event => w.read build torrentIo config torrent c event
    | .other event =>
      if event.isOther then
        w.proceed build torrentIo config torrent event (dropReads w.readers event)
      else
        none

def new (io : σ) : Wired σ where
  processor := .new config torrent io
  readers := []

end

variable {build : Build} {torrentIo : TorrentIo σ} {config : Config} {torrent : V1Torrent}
  {w w' : Wired σ} {tr : WireTrace} {c : Nat}

inductive Stepped (build : Build) (torrentIo : TorrentIo σ) (config : Config)
    (torrent : V1Torrent) (w : Wired σ)
    : WireEvent → Option (StartEvent × List Signal) → Wired σ → Prop where
  | connected (peerId : PeerId) (buffer unread : Bytes) (signals : List Signal)
      (processor : TorrentProcessor σ)
      (hstep : (startTask build torrentIo config torrent).step w.processor (.connect peerId)
        = some (signals, processor))
      : Stepped build torrentIo config torrent w (.connect peerId buffer unread)
          (some (.connect peerId, signals))
          { processor, readers := w.readers ++ [⟨buffer, unread, none⟩] }
  | waiting (c : Nat) (event : ReadEvent) (reader reader' : Connection)
      (hget : w.readers[c]? = some reader)
      (hread : (Connection.readMsg (MessagesDecoder.decode build)).step reader event
        = some (none, reader'))
      : Stepped build torrentIo config torrent w (.read c event) none
          { w with readers := w.readers.set c reader' }
  | returned (c : Nat) (event : ReadEvent) (reader reader' : Connection)
      (res : Outcome AnyError (Option Messages)) (linkEvent : LinkEvent) (signals : List Signal)
      (processor : TorrentProcessor σ) (hget : w.readers[c]? = some reader)
      (hread : (Connection.readMsg (MessagesDecoder.decode build)).step reader event
        = some (some res, reader'))
      (hresult : LinkEvent.ofResult res = some linkEvent)
      (hstep : (startTask build torrentIo config torrent).step w.processor (.link c linkEvent)
        = some (signals, processor))
      : Stepped build torrentIo config torrent w (.read c event)
          (some (.link c linkEvent, signals))
          { processor, readers := w.readers.set c reader' }
  | other (event : StartEvent) (signals : List Signal) (processor : TorrentProcessor σ)
      (hother : event.isOther)
      (hstep : (startTask build torrentIo config torrent).step w.processor event
        = some (signals, processor))
      : Stepped build torrentIo config torrent w (.other event) (some (event, signals))
          { processor, readers := dropReads w.readers event }

theorem proceed_eq_some {event : StartEvent} {readers : List Connection}
    {out : Option (StartEvent × List Signal)}
    (h : w.proceed build torrentIo config torrent event readers = some (out, w'))
    : ∃ signals processor, (startTask build torrentIo config torrent).step w.processor event
          = some (signals, processor)
        ∧ out = some (event, signals) ∧ w' = { processor, readers } := by
  unfold proceed at h
  split at h
  . next signals processor hstep =>
    simp only [Option.some.injEq, Prod.mk.injEq] at h
    exact ⟨signals, processor, hstep, h.1.symm, h.2.symm⟩
  . contradiction

theorem stepped_of_read {event : ReadEvent} {out : Option (StartEvent × List Signal)}
    (h : w.read build torrentIo config torrent c event = some (out, w'))
    : w.Stepped build torrentIo config torrent (.read c event) out w' := by
  unfold read at h
  split at h
  . next conn reader _ hget =>
    split at h
    . split at h
      . next reader' hread =>
        simp only [Option.some.injEq, Prod.mk.injEq] at h
        rw [← h.1, ← h.2]
        exact .waiting c event reader reader' hget hread
      . next res reader' hread =>
        split at h
        . next linkEvent hresult =>
          obtain ⟨signals, processor, hstep, rfl, rfl⟩ := proceed_eq_some h
          exact .returned c event reader reader' res linkEvent signals processor hget hread hresult
            hstep
        . contradiction
      . contradiction
    . contradiction
  . contradiction

theorem stepped_of_step {event : WireEvent} {out : Option (StartEvent × List Signal)}
    (h : (wireTask build torrentIo config torrent).step w event = some (out, w'))
    : w.Stepped build torrentIo config torrent event out w' := by
  cases event with
  | connect peerId buffer unread =>
    obtain ⟨signals, processor, hstep, rfl, rfl⟩ := proceed_eq_some h
    exact .connected peerId buffer unread signals processor hstep
  | read c event => exact stepped_of_read h
  | other event =>
    simp only [wireTask] at h
    split at h
    . next hother =>
      obtain ⟨signals, processor, hstep, rfl, rfl⟩ := proceed_eq_some h
      exact .other event signals processor hother hstep
    . contradiction

def startTrace (tr : WireTrace) : StartTrace :=
  tr.filterMap Prod.snd

def streamsIn (tr : WireTrace) : List Bytes :=
  tr.filterMap fun
    | (.connect _ buffer unread, _) => some (buffer ++ unread)
    | _ => none

open TorrentProcessor (Reads)

theorem reads_of_isOther {event : StartEvent} {p : TorrentProcessor σ} (h : event.isOther)
    : p.Reads Messages.Fits event := by
  cases event with
  | link c linkEvent =>
    cases linkEvent with
    | read msg => contradiction
    | _ => trivial
  | _ => trivial

theorem reads_of_ofResult {reader reader' : Connection} {event : ReadEvent}
    {res : Outcome AnyError (Option Messages)} {linkEvent : LinkEvent} {p : TorrentProcessor σ}
    (hread : (Connection.readMsg (MessagesDecoder.decode build)).step reader event
      = some (some res, reader'))
    (hresult : LinkEvent.ofResult res = some linkEvent)
    : p.Reads Messages.Fits (.link c linkEvent) := by
  unfold LinkEvent.ofResult at hresult
  split at hresult
  . next msg =>
    rw [Option.some.injEq] at hresult
    subst hresult
    obtain ⟨b, r, hdecode⟩ := Connection.decode_of_step hread
    exact MessagesDecoder.fits_of_decode hdecode
  . rw [Option.some.injEq] at hresult
    subst hresult
    trivial
  . rw [Option.some.injEq] at hresult
    subst hresult
    trivial
  . contradiction

/--
The loop runs as it does without the bytes, and whatever they are, only messages that fit into
frames are read.
-/
theorem startTrace_run {w0 : Wired σ}
    (hrun : (wireTask build torrentIo config torrent).Run w0 tr w)
    : (startTask build torrentIo config torrent).RunWhile (Reads Messages.Fits) w0.processor
        (startTrace tr) w.processor := by
  induction hrun with
  | nil w0 => exact .nil _
  | @cons w1 _ _ _ _ _ _ hwire _ ih =>
    cases stepped_of_step hwire with
    | waiting => exact ih
    | connected peerId _ _ signals processor hstep =>
      have hreads : w1.processor.Reads Messages.Fits (.connect peerId) := trivial
      exact .cons hreads hstep ih
    | returned c event reader reader' res linkEvent signals processor hget hread hresult hstep =>
      exact .cons (reads_of_ofResult hread hresult) hstep ih
    | other event signals processor hother hstep => exact .cons (reads_of_isOther hother) hstep ih

/--
The connection has read some of the messages of its stream. The bytes of the others are there or to
come, and the end of the stream is behind all of them.
-/
def Hears (c : Nat) (msgs : List Messages) (tr : StartTrace) (reader : Connection) : Prop :=
  ∃ left, msgs = readIn c tr ++ left ∧ Connection.Awaits Messages.frame reader left
    ∧ ∀ signals, (.link c .eof, signals) ∈ tr → left = []

variable {msgs : List Messages} {trace : StartTrace} {reader reader' : Connection}

theorem Hears.of_other {event : StartEvent} (h : Hears c msgs trace reader)
    (hreads : event.reads c = none) (heof : event ≠ .link c .eof)
    (hreader : ∀ left, Connection.Awaits Messages.frame reader left →
      Connection.Awaits Messages.frame reader' left) (signals : List Signal)
    : Hears c msgs (trace ++ [(event, signals)]) reader' := by
  obtain ⟨left, hmsgs, hawaits, hended⟩ := h
  refine ⟨left, ?_, hreader left hawaits, ?_⟩
  . rw [TorrentProcessor.readIn_append_singleton, hreads, Option.toList_none, List.append_nil]
    exact hmsgs
  . intro signals' hmem
    rw [List.mem_append, List.mem_singleton, Prod.mk.injEq] at hmem
    rcases hmem with hmem | ⟨heq, _⟩
    . exact hended signals' hmem
    . exact absurd heq.symm heof

theorem Hears.step {event : ReadEvent} {res : Option (Outcome AnyError (Option Messages))}
    (hfits : ∀ msg ∈ msgs, msg.Fits) (h : Hears c msgs trace reader)
    (hread : (Connection.readMsg (MessagesDecoder.decode build)).step reader event
      = some (res, reader'))
    : (res = none ∧ Hears c msgs trace reader')
        ∨ ∃ res' linkEvent, res = some res' ∧ LinkEvent.ofResult res' = some linkEvent
          ∧ ∀ signals, Hears c msgs (trace ++ [(.link c linkEvent, signals)]) reader' := by
  obtain ⟨left, rfl, hawaits, hended⟩ := h
  have hleft : ∀ msg ∈ left, msg.Fits := fun msg hmem => hfits msg (List.mem_append_right _ hmem)
  rcases Connection.step_spec (MessagesDecoder.codec build) hleft hawaits hread with
    ⟨rfl, hawaits'⟩ | ⟨msg, left', rfl, rfl, hawaits'⟩ | ⟨rfl, rfl, hawaits'⟩
  . exact .inl ⟨rfl, left, rfl, hawaits', hended⟩
  . refine .inr ⟨_, .read msg, rfl, rfl, ?_⟩
    intro signals
    refine ⟨left', ?_, hawaits', ?_⟩
    . rw [TorrentProcessor.readIn_append_singleton, StartEvent.reads, if_pos rfl, List.append_assoc]
      rfl
    . intro signals' hmem
      rw [List.mem_append, List.mem_singleton, Prod.mk.injEq] at hmem
      rcases hmem with hmem | ⟨heq, _⟩
      . exact absurd (hended signals' hmem) (by simp)
      . simp at heq
  . refine .inr ⟨_, .eof, rfl, rfl, ?_⟩
    intro signals
    refine ⟨[], ?_, hawaits', fun _ _ => rfl⟩
    have hnone : (StartEvent.link c .eof).reads c = none := rfl
    simp [TorrentProcessor.readIn_append_singleton, hnone]

structure Kept (tr : WireTrace) (w : Wired σ) : Prop where
  streams : (streamsIn tr).length = w.readers.length
  silent : ∀ c, w.readers.length ≤ c → readIn c (startTrace tr) = []
    ∧ ∀ signals, (.link c .eof, signals) ∉ startTrace tr
  hears : ∀ (c : Nat) (reader : Connection) (msgs : List Messages), w.readers[c]? = some reader →
    (streamsIn tr)[c]? = some (msgs.flatMap Messages.frame) → (∀ msg ∈ msgs, msg.Fits) →
    Hears c msgs (startTrace tr) reader

theorem startTrace_append_some (tr : WireTrace) (event : WireEvent) (out : StartEvent × List Signal)
    : startTrace (tr ++ [(event, some out)]) = startTrace tr ++ [out] := by
  simp [startTrace]

theorem startTrace_append_none (tr : WireTrace) (event : WireEvent)
    : startTrace (tr ++ [(event, none)]) = startTrace tr := by
  simp [startTrace]

theorem streamsIn_append (tr : WireTrace) {event : WireEvent}
    (h : ∀ peerId buffer unread, event ≠ .connect peerId buffer unread)
    (out : Option (StartEvent × List Signal))
    : streamsIn (tr ++ [(event, out)]) = streamsIn tr := by
  unfold streamsIn
  rw [List.filterMap_append]
  cases event with
  | connect peerId buffer unread => exact absurd rfl (h peerId buffer unread)
  | read => simp
  | other => simp

theorem reads_eq_none_of_isOther {event : StartEvent} (h : event.isOther) (c : Nat)
    : event.reads c = none := by
  unfold StartEvent.reads
  split
  . contradiction
  . rfl

theorem awaits_dropReads {readers : List Connection} {event : StartEvent}
    (hget' : (dropReads readers event)[c]? = some reader')
    : ∃ reader, readers[c]? = some reader ∧ ∀ left, Connection.Awaits Messages.frame reader left →
        Connection.Awaits Messages.frame reader' left := by
  have hmodify : ∀ d, (readers.modify d Connection.dropRead)[c]? = some reader' →
      ∃ reader, readers[c]? = some reader ∧ ∀ left, Connection.Awaits Messages.frame reader left →
        Connection.Awaits Messages.frame reader' left := by
    intro d hget'
    rw [List.getElem?_modify, Option.map_eq_map, Option.map_eq_some_iff] at hget'
    obtain ⟨reader, hget, rfl⟩ := hget'
    refine ⟨reader, hget, ?_⟩
    intro left hawaits
    split
    . exact hawaits.dropRead
    . exact hawaits
  unfold dropReads at hget'
  split at hget'
  . exact hmodify _ hget'
  . exact hmodify _ hget'
  . exact hmodify _ hget'
  . exact ⟨reader', hget', fun _ hawaits => hawaits⟩

theorem length_dropReads (readers : List Connection) (event : StartEvent)
    : (dropReads readers event).length = readers.length := by
  unfold dropReads
  split
  . exact List.length_modify ..
  . exact List.length_modify ..
  . exact List.length_modify ..
  . rfl

theorem Kept.silent_append {event : StartEvent} {n : Nat} (h : Kept tr w)
    (hn : w.readers.length ≤ n)
    (hevent : ∀ d, n ≤ d → ∀ linkEvent, event = .link d linkEvent → event.isOther)
    (signals : List Signal)
    : ∀ d, n ≤ d → readIn d (startTrace tr ++ [(event, signals)]) = []
        ∧ ∀ signals', (.link d .eof, signals') ∉ startTrace tr ++ [(event, signals)] := by
  intro d hd
  obtain ⟨hsilent, hnot⟩ := h.silent d (Nat.le_trans hn hd)
  constructor
  . rw [TorrentProcessor.readIn_append_singleton, hsilent, List.nil_append]
    by_cases hlink : ∃ linkEvent, event = .link d linkEvent
    . obtain ⟨linkEvent, heq⟩ := hlink
      rw [reads_eq_none_of_isOther (hevent d hd linkEvent heq), Option.toList_none]
    . rw [TorrentProcessor.reads_eq_none fun linkEvent heq => hlink ⟨linkEvent, heq⟩,
        Option.toList_none]
  . intro signals' hmem
    rw [List.mem_append, List.mem_singleton, Prod.mk.injEq] at hmem
    rcases hmem with hmem | ⟨rfl, _⟩
    . exact hnot signals' hmem
    . have hother := hevent d hd .eof rfl
      contradiction

theorem Kept.connected {peerId : PeerId} {buffer unread : Bytes} {signals : List Signal}
    {processor : TorrentProcessor σ} (h : Kept tr w)
    : Kept (tr ++ [(.connect peerId buffer unread, some (.connect peerId, signals))])
        { processor, readers := w.readers ++ [⟨buffer, unread, none⟩] } := by
  have hstreams : streamsIn (tr ++ [(.connect peerId buffer unread, some (.connect peerId, signals))])
      = streamsIn tr ++ [buffer ++ unread] := by
    simp [streamsIn]
  constructor
  . rw [hstreams, List.length_append, List.length_append, h.streams]
    rfl
  . rw [startTrace_append_some, List.length_append]
    apply h.silent_append (Nat.le_add_right _ _)
    intro d _ linkEvent heq
    contradiction
  . intro c reader msgs hget hstream hfits
    rw [startTrace_append_some]
    rw [hstreams] at hstream
    rcases Nat.lt_trichotomy c w.readers.length with hlt | rfl | hgt
    . rw [List.getElem?_append_left hlt] at hget
      rw [List.getElem?_append_left (by rwa [h.streams])] at hstream
      apply (h.hears c reader msgs hget hstream hfits).of_other rfl (by simp)
      exact fun _ hawaits => hawaits
    . -- the connection itself, which has read nothing so far
      rw [List.getElem?_concat_length, Option.some.injEq] at hget
      rw [← h.streams, List.getElem?_concat_length, Option.some.injEq] at hstream
      subst hget
      obtain ⟨hsilent, hnot⟩ := h.silent _ (Nat.le_refl _)
      have hstart : Hears w.readers.length msgs (startTrace tr) ⟨buffer, unread, none⟩ := by
        refine ⟨msgs, by rw [hsilent, List.nil_append], ⟨hstream, fun _ hneeds => by contradiction⟩, ?_⟩
        intro signals' hmem
        exact absurd hmem (hnot signals')
      apply hstart.of_other rfl (by simp)
      exact fun _ hawaits => hawaits
    . have hlt := (List.getElem?_eq_some_iff.mp hget).1
      rw [List.length_append, List.length_singleton] at hlt
      omega

theorem Kept.hears_of_ne {d : Nat} {linkEvent : LinkEvent} (h : Kept tr w) (hne : d ≠ c)
    (hget : (w.readers.set d reader')[c]? = some reader)
    (hstream : (streamsIn tr)[c]? = some (msgs.flatMap Messages.frame))
    (hfits : ∀ msg ∈ msgs, msg.Fits) (signals : List Signal)
    : Hears c msgs (startTrace tr ++ [(.link d linkEvent, signals)]) reader := by
  rw [List.getElem?_set_ne hne] at hget
  apply (h.hears c reader msgs hget hstream hfits).of_other _ _ fun _ hawaits => hawaits
  . apply TorrentProcessor.reads_eq_none
    rintro linkEvent' heq
    rw [StartEvent.link.injEq] at heq
    exact hne heq.1
  . intro heq
    rw [StartEvent.link.injEq] at heq
    exact hne heq.1

theorem Kept.stepped {event : WireEvent} {out : Option (StartEvent × List Signal)} (h : Kept tr w)
    (hs : w.Stepped build torrentIo config torrent event out w')
    : Kept (tr ++ [(event, out)]) w' := by
  cases hs with
  | connected => exact h.connected
  | waiting d event reader1 reader1' hget1 hread =>
    have hlt := (List.getElem?_eq_some_iff.mp hget1).1
    constructor
    . rw [streamsIn_append tr (by simp), h.streams, List.length_set]
    . rw [startTrace_append_none, List.length_set]
      exact h.silent
    . intro c reader msgs hget hstream hfits
      rw [streamsIn_append tr (by simp)] at hstream
      rw [startTrace_append_none]
      by_cases hd : d = c
      . subst hd
        rw [List.getElem?_set_self hlt, Option.some.injEq] at hget
        subst hget
        rcases (h.hears d reader1 msgs hget1 hstream hfits).step hfits hread with
          ⟨_, hhears⟩ | ⟨_, _, hsome, _⟩
        . exact hhears
        . contradiction
      . rw [List.getElem?_set_ne hd] at hget
        exact h.hears c reader msgs hget hstream hfits
  | returned d event reader1 reader1' res linkEvent signals processor hget1 hread hresult hstep =>
    have hlt := (List.getElem?_eq_some_iff.mp hget1).1
    constructor
    . rw [streamsIn_append tr (by simp), h.streams, List.length_set]
    . rw [startTrace_append_some, List.length_set]
      apply h.silent_append (Nat.le_refl _)
      intro d' hd' linkEvent' heq
      rw [StartEvent.link.injEq] at heq
      omega
    . intro c reader msgs hget hstream hfits
      rw [streamsIn_append tr (by simp)] at hstream
      rw [startTrace_append_some]
      by_cases hd : d = c
      . subst hd
        rw [List.getElem?_set_self hlt, Option.some.injEq] at hget
        subst hget
        rcases (h.hears d reader1 msgs hget1 hstream hfits).step hfits hread with
          ⟨hnone, _⟩ | ⟨res', linkEvent', hres, hresult', hhears⟩
        . contradiction
        . rw [Option.some.injEq] at hres
          rw [← hres, hresult, Option.some.injEq] at hresult'
          rw [hresult']
          exact hhears signals
      . exact h.hears_of_ne hd hget hstream hfits signals
  | other event signals processor hother hstep =>
    constructor
    . rw [streamsIn_append tr (by simp), h.streams, length_dropReads]
    . rw [startTrace_append_some, length_dropReads]
      apply h.silent_append (Nat.le_refl _)
      intro _ _ _ _
      exact hother
    . intro c reader msgs hget hstream hfits
      rw [streamsIn_append tr (by simp)] at hstream
      rw [startTrace_append_some]
      obtain ⟨reader1, hget1, hawaits⟩ := awaits_dropReads hget
      apply (h.hears c reader1 msgs hget1 hstream hfits).of_other
        (reads_eq_none_of_isOther hother c) _ hawaits
      rintro rfl
      contradiction

theorem kept_of_run {io : σ} (hrun : (wireTask build torrentIo config torrent).Run (new config torrent io) tr w)
    : Kept tr w := by
  apply hrun.invariant_trace (P := Kept)
  . intro tr w event out w' _ hstep h
    exact h.stepped (stepped_of_step hstep)
  . constructor
    . rfl
    . intro c _
      exact ⟨rfl, fun _ => List.not_mem_nil⟩
    . intro c reader msgs hget
      contradiction

/--
Of the messages of a stream, in their order, the first ones are handled, those after them wait for
the handler, and the bytes of the last ones are there or to come. Only a connection that is over can
have lost one. The end is seen behind the last message.
-/
structure Receives (build : Build) (torrentIo : TorrentIo σ) (config : Config)
    (torrent : V1Torrent) (io : σ) (c : Nat) (msgs left : List Messages) (tr : WireTrace)
    (w : Wired σ) : Prop where
  messages :
    let p0 := TorrentProcessor.new config torrent io
    let handled := TorrentProcessor.handledIn build torrentIo config torrent p0 c (startTrace tr)
    msgs = handled ++ w.processor.inbox c ++ left
      ∨ w.processor.IsOver c ∧ ∃ msg, msgs = handled ++ w.processor.inbox c ++ msg :: left
  bytes : ∃ reader, w.readers[c]? = some reader
    ∧ reader.buffer ++ reader.unread = left.flatMap Messages.frame
  ended : ∀ signals, (.link c .eof, signals) ∈ startTrace tr → left = []

/--
Whatever the reads are, and wherever the select drops them, each handler gets the messages that its
peer has framed, and gets them in their order.
-/
theorem receives_of_run {io : σ}
    (hrun : (wireTask build torrentIo config torrent).Run (new config torrent io) tr w)
    (hfits : ∀ msg ∈ msgs, msg.Fits)
    (hstream : (streamsIn tr)[c]? = some (msgs.flatMap Messages.frame))
    : ∃ left, Receives build torrentIo config torrent io c msgs left tr w := by
  have hkept := kept_of_run hrun
  have hlt : c < w.readers.length := by
    rw [← hkept.streams]
    exact (List.getElem?_eq_some_iff.mp hstream).1
  have hget := List.getElem?_eq_getElem hlt
  obtain ⟨left, hmsgs, hawaits, hended⟩ := hkept.hears c _ msgs hget hstream hfits
  have hinbound := TorrentProcessor.inbound_of_run c
    ((startTrace_run hrun).mono fun _ _ _ => trivial)
  refine ⟨left, ?_, ⟨_, hget, hawaits.bytes⟩, hended⟩
  dsimp only
  rcases hinbound with hread | ⟨hover, msg, hread⟩
  . left
    rw [hmsgs, hread]
  . refine .inr ⟨hover, msg, ?_⟩
    rw [hmsgs, hread, List.append_assoc _ [msg]]
    rfl

def wiredTask : Machine (Wired FileTorrentIo) WireEvent (Option (StartEvent × List Signal)) :=
  wireTask ⟨true⟩ (FileTorrentIo.torrentIo ⟨true⟩ Sha1.digest) ⟨true, 8, 1, 1⟩
    (torrentFixture 2 2 [[1, 2]])

def wiredStart : Wired FileTorrentIo :=
  new ⟨true, 8, 1, 1⟩ (torrentFixture 2 2 [[1, 2]]) (.onePieceIo [0, 0] 0 (.new 2))

def wiredMessages : List Messages :=
  [.flag .unchoke, .have 0, .keepAlive]

def wireEvents : List WireEvent :=
  [.connect [5] [0, 0] [0, 1, 1, 0, 0, 0, 5, 4, 0, 0, 0, 0, 0, 0, 0, 0], .other (.accept 0)]
    ++ List.replicate 5 (.other .advance)
    ++ [.read 0 .call, .read 0 (.ready 1), .other (.link 0 .write), .read 0 .call,
      .read 0 (.ready 4), .other (.poll 0), .other (.poll 0), .read 0 .call]

/--
The connection comes with two bytes, and the first read is dropped within the first message.
-/
theorem receives_dropped
    : ∃ tr w left, wiredTask.Run wiredStart tr w ∧ tr.map Prod.fst = wireEvents
        ∧ Receives ⟨true⟩ (FileTorrentIo.torrentIo ⟨true⟩ Sha1.digest) ⟨true, 8, 1, 1⟩
          (torrentFixture 2 2 [[1, 2]]) (.onePieceIo [0, 0] 0 (.new 2)) 0 wiredMessages left tr w := by
  obtain ⟨tr, w, hrun, hevents, hstreams⟩ := wiredTask.exists_run_of_exec wiredStart wireEvents
    (fun x => streamsIn x.1)
    (b := [wiredMessages.flatMap Messages.frame]) (by decide +kernel)
  have hfits : ∀ msg ∈ wiredMessages, msg.Fits := by
    simp [wiredMessages, Messages.Fits]
  obtain ⟨left, hreceives⟩ := receives_of_run (c := 0) hrun hfits (by rw [hstreams]; rfl)
  exact ⟨tr, w, left, hrun, hevents, hreceives⟩

section

variable {sha1 : Bytes → Bytes} {io : FileTorrentIo} {w w' : Wired FileTorrentIo}

open TorrentProcessor (WasTold)

/--
Whatever bytes the peers send: once one of them was told that we have a piece, the piece is there for
good with bytes that the torrent's hash is of. Every later read of the piece gets them, and nothing
else of it is sent to anyone.
-/
theorem servesTold_of_run {piece : UInt32} (hconsistent : torrent.info.Consistent)
    (hfull : torrent.info.FullLast) (hlt : torrent.info.pieces.length < 2 ^ 32)
    (hio : FileTorrentIo.new build torrent = .ok io)
    (hrun : (wireTask build (FileTorrentIo.torrentIo build sha1) config torrent).Run
      (new config torrent io) tr w)
    (htold : WasTold (startTrace tr) c piece)
    : ∃ content : Bytes, content.length = io.allocation.len piece.toNat
        ∧ (torrent.info.pieces[piece.toNat]?).map (·.hash) = some (sha1 content)
        ∧ ∀ tr' w', (wireTask build (FileTorrentIo.torrentIo build sha1) config torrent).Run
            w tr' w' →
          (∀ begin length, w'.processor.io.readPiece build piece begin length
            = FileTorrentIo.readOf content piece begin length)
          ∧ ∀ x ∈ startTrace tr', ∀ c' begin block, .sent c' (.piece piece begin block) ∈ x.2 →
            block = File.slice content begin.toNat block.length := by
  have hstart := startTrace_run hrun
  have hkept := TorrentProcessor.heldKept_of_run hconsistent hfull hlt hio hstart
  obtain ⟨content, hhas, hsends⟩ :=
    TorrentProcessor.has_of_wasTold hconsistent hfull hlt hio hstart htold
  refine ⟨content, ?_, hhas.hash_eq, ?_⟩
  . rw [hhas.length_eq, hkept.madeFor.allocation_eq]
  . intro tr' w' hrun'
    have hstart' := startTrace_run hrun'
    obtain ⟨hkept', hkeeps⟩ := hkept.run hlt hstart'
    exact ⟨hkept'.madeFor.readPiece_eq build (hkeeps piece content hhas),
      (hsends.run hlt hkept hhas hstart').2⟩

/--
Whatever bytes the peers send, those at the place of each piece that counts as finished are the ones
that the torrent's hash is of.
-/
theorem downloaded_of_run (hconsistent : torrent.info.Consistent) (hfull : torrent.info.FullLast)
    (hlt : torrent.info.pieces.length < 2 ^ 32) (hio : FileTorrentIo.new build torrent = .ok io)
    (hrun : (wireTask build (FileTorrentIo.torrentIo build sha1) config torrent).Run
      (new config torrent io) tr w)
    : (w.processor.io.file.contents.length : Int) = torrent.info.length.toInt
        ∧ ∀ piece ∈ w.processor.tracker.piecesCompleted,
          (torrent.info.pieces[piece.toNat]?).map (·.hash)
            =
          some (sha1 (File.slice w.processor.io.file.contents
            (piece.toNat * asUsize torrent.info.pieceLength) (asUsize torrent.info.pieceLength))) := by
  have hkept := TorrentProcessor.heldKept_of_run hconsistent hfull hlt hio (startTrace_run hrun)
  have hplaced := hkept.madeFor.placed
  refine ⟨hplaced.contents_length, ?_⟩
  intro piece hmem
  obtain ⟨content, hhas⟩ := hkept.tells piece (.inl hmem)
  have hmax : asUsize torrent.info.pieceLength = w.processor.io.allocation.maxPieceSize := by
    have h1 := hplaced.laidOut.maxPieceSize_eq
    have h2 := asUsize_eq torrent.info.pieceLength
    rw [if_pos (by omega)] at h2
    omega
  rw [hhas.hash_eq, hmax, ← hplaced.slice_len_eq (hhas.holds.index_lt hplaced), hhas.holds.slice_eq]

end

def announcingWireEvents : List WireEvent :=
  [.connect [5] [] [0, 0, 0, 11, 7, 0, 0, 0, 0, 0, 0, 0, 0, 1, 2], .other (.accept 0)]
    ++ List.replicate 5 (.other .advance)
    ++ [.read 0 .call, .read 0 (.ready 15), .other (.poll 0), .other (.io 0), .other (.poll 0),
      .other (.recvWakeUp [[5]]), .other .advance]

theorem servesTold_announced
    : ∃ tr w content, wiredTask.Run wiredStart tr w
        ∧ TorrentProcessor.WasTold (startTrace tr) 0 0
        ∧ ∀ tr' w', wiredTask.Run w tr' w' →
          (∀ begin length, w'.processor.io.readPiece ⟨true⟩ 0 begin length
            = FileTorrentIo.readOf content 0 begin length)
          ∧ ∀ x ∈ startTrace tr', ∀ c' begin block, .sent c' (.piece 0 begin block) ∈ x.2 →
            block = File.slice content begin.toNat block.length := by
  obtain ⟨tr, w, hrun, _, hsent⟩ := wiredTask.exists_run_of_exec wiredStart announcingWireEvents
    (fun x => decide (∃ y ∈ startTrace x.1, .sent 0 (.have 0) ∈ y.2)) (b := true)
    (by decide +kernel)
  obtain ⟨y, hmem, hsent⟩ := of_decide_eq_true hsent
  have htold : TorrentProcessor.WasTold (startTrace tr) 0 0 := ⟨y, hmem, .have 0, hsent, rfl⟩
  obtain ⟨content, _, _, hserves⟩ := servesTold_of_run (by decide +kernel) (by decide +kernel)
    (by decide +kernel) FileTorrentIo.new_onePieceIo hrun htold
  exact ⟨tr, w, content, hrun, htold, hserves⟩

theorem downloaded_announced
    : ∃ tr w, wiredTask.Run wiredStart tr w ∧ 0 ∈ w.processor.tracker.piecesCompleted
        ∧ Sha1.digest [1, 2]
          = Sha1.digest (File.slice w.processor.io.file.contents (0 * asUsize 2) (asUsize 2)) := by
  obtain ⟨tr, w, hrun, _, hcompleted⟩ := wiredTask.exists_run_of_exec wiredStart
    announcingWireEvents (fun x => decide (0 ∈ x.2.processor.tracker.piecesCompleted)) (b := true)
    (by decide +kernel)
  have hmem := of_decide_eq_true hcompleted
  refine ⟨tr, w, hrun, hmem, ?_⟩
  exact Option.some.inj ((downloaded_of_run (by decide +kernel) (by decide +kernel)
    (by decide +kernel) FileTorrentIo.new_onePieceIo hrun).2 0 hmem)

end Wired
