import BenTorrent.Peer.Net

/-!
This module contains the handshake, and which splits of its bytes into reads it survives.
-/

open Rust Buf

structure PeerContext where
  infoHash : Bytes
  peerId : Bytes
  deriving Repr, DecidableEq

structure Handshake where
  peerCtx : PeerContext
  deriving Repr, DecidableEq

def handshakeProtocolId : Bytes :=
  "BitTorrent protocol".toUTF8.toList

namespace Handshake

def encode (handshake : Handshake) : Bytes :=
  [UInt8.ofNat handshakeProtocolId.length] ++ handshakeProtocolId ++ putU64 0
    ++ handshake.peerCtx.infoHash ++ handshake.peerCtx.peerId

def Fits (handshake : Handshake) : Prop :=
  handshake.peerCtx.infoHash.length = 20 ∧ handshake.peerCtx.peerId.length = 20

end Handshake

namespace Connection

variable {decode : Bytes → Outcome ProtocolError (μ × Bytes)}

theorem needs_of_readLoop {conn : Connection} {needs : Nat}
    {res : Option (Outcome AnyError (Option μ))} {conn' : Connection}
    (h : readLoop decode conn needs = (res, conn')) (hres : res ≠ none)
    : conn'.needs = none := by
  unfold readLoop at h
  split at h
  . split at h
    . rw [Prod.mk.injEq] at h
      rw [← h.2]
    . rw [Prod.mk.injEq] at h
      exact absurd h.1.symm hres
    . rw [Prod.mk.injEq] at h
      rw [← h.2]
    . rw [Prod.mk.injEq] at h
      rw [← h.2]
  . rw [Prod.mk.injEq] at h
    exact absurd h.1.symm hres

theorem needs_of_returned {conn conn' : Connection} {event : ReadEvent}
    {res : Outcome AnyError (Option μ)}
    (h : (readMsg decode).step conn event = some (some res, conn'))
    : conn'.needs = none := by
  unfold readMsg at h
  dsimp only at h
  split at h
  . split at h
    . rw [Option.some.injEq] at h
      exact needs_of_readLoop h (by simp)
    . contradiction
  . split at h
    . contradiction
    . split at h
      . split at h
        . split at h
          . simp only [Option.some.injEq, Prod.mk.injEq] at h
            rw [← h.2]
          . simp only [Option.some.injEq, Prod.mk.injEq] at h
            rw [← h.2]
        . rw [Option.some.injEq] at h
          exact needs_of_readLoop h (by simp)
      . contradiction
  . split at h
    . contradiction
    . simp at h

def translate (conn : Connection) : Connection where
  buffer := conn.buffer
  unread := conn.unread
  needs := none

end Connection

namespace HandshakeDecoder

open MessagesDecoder (tryGet)

def decode (b : Bytes) : Outcome ProtocolError (Handshake × Bytes) := do
  let (pStrLen, b) ← tryGet (tryGetU8 b)
  let _ ← vecZeros pStrLen.toNat
  let (_, b) ← tryGet (tryCopyToSlice pStrLen.toNat b)
  let b ← advance 8 b
  let (infoHash, b) ← tryGet (tryCopyToSlice 20 b)
  let (peerId, b) ← tryGet (tryCopyToSlice 20 b)
  return ({ peerCtx := { infoHash, peerId } }, b)

theorem tryGet_tryCopyToSlice_bind (len : Nat) (b : Bytes)
    (f : Bytes × Bytes → Outcome ProtocolError α)
    : (tryGet (tryCopyToSlice len b) >>= f)
        =
      if b.length < len then
        .error (.err (.tryGetError ⟨len, b.length⟩))
      else
        f (b.take len, b.drop len) := by
  unfold tryCopyToSlice
  split
  . rfl
  . rfl

theorem advance_bind (cnt : Nat) (b : Bytes) (f : Bytes → Outcome ε α)
    : (advance cnt b >>= f) = if b.length < cnt then .error .panic else f (b.drop cnt) := by
  unfold advance
  split
  . rfl
  . rfl

theorem decode_cons (pStrLen : UInt8) (b : Bytes)
    : decode (pStrLen :: b)
        =
      if b.length < pStrLen.toNat then
        .error (.err (.tryGetError ⟨pStrLen.toNat, b.length⟩))
      else if b.length < pStrLen.toNat + 8 then
        .error .panic
      else if b.length < pStrLen.toNat + 28 then
        .error (.err (.tryGetError ⟨20, b.length - (pStrLen.toNat + 8)⟩))
      else if b.length < pStrLen.toNat + 48 then
        .error (.err (.tryGetError ⟨20, b.length - (pStrLen.toNat + 28)⟩))
      else
        .ok (⟨(b.drop (pStrLen.toNat + 8)).take 20, (b.drop (pStrLen.toNat + 28)).take 20⟩,
          b.drop (pStrLen.toNat + 48)) := by
  have hlt := pStrLen.toNat_lt
  have hzeros : (vecZeros pStrLen.toNat : Outcome ProtocolError Bytes)
      = .ok (List.replicate pStrLen.toNat 0) := by
    rw [vecZeros, if_pos (by omega)]
  have hlen : tryGet (tryGetU8 (pStrLen :: b)) = .ok (pStrLen, b) := rfl
  unfold decode
  simp only [hlen, hzeros, Outcome.ok_bind, tryGet_tryCopyToSlice_bind, advance_bind,
    List.length_drop, List.drop_drop, Nat.sub_sub, pure, Except.pure]
  by_cases h1 : b.length < pStrLen.toNat
  . rw [if_pos h1, if_pos h1]
  . rw [if_neg h1, if_neg h1]
    by_cases h2 : b.length < pStrLen.toNat + 8
    . rw [if_pos (by omega), if_pos h2]
    . rw [if_neg (by omega), if_neg h2]
      by_cases h3 : b.length < pStrLen.toNat + 28
      . rw [if_pos (by omega), if_pos h3]
      . rw [if_neg (by omega), if_neg h3]
        by_cases h4 : b.length < pStrLen.toNat + 48
        . rw [if_pos (by omega), if_pos h4]
        . rw [if_neg (by omega), if_neg h4]

/--
The reserved bytes behind a complete protocol id are all there.
-/
def CoversReserved : Bytes → Prop
  | pStrLen :: b => b.length < pStrLen.toNat ∨ pStrLen.toNat + 8 ≤ b.length
  | [] => True

theorem coversReserved_iff (b : Bytes) : decode b ≠ .error .panic ↔ CoversReserved b := by
  cases b with
  | nil => exact iff_of_true (by decide) trivial
  | cons pStrLen b =>
    rw [decode_cons]
    unfold CoversReserved
    split
    . next h => simp [h]
    . split
      . simp
        omega
      . split
        . simp
          omega
        . split
          . simp
            omega
          . simp
            omega

theorem encode_append_eq (handshake : Handshake) (r : Bytes)
    : handshake.encode ++ r
        =
      19 :: (handshakeProtocolId ++ putU64 0
        ++ (handshake.peerCtx.infoHash ++ (handshake.peerCtx.peerId ++ r))) := by
  have hid : UInt8.ofNat handshakeProtocolId.length = 19 := by decide +kernel
  simp [Handshake.encode, hid]

section

variable {handshake : Handshake} (hfits : handshake.Fits)

include hfits

theorem length_encode : handshake.encode.length = 68 := by
  have hid : handshakeProtocolId.length = 19 := by decide +kernel
  simp only [Handshake.encode, putU64, List.length_append, List.length_singleton, length_putU32,
    hid, hfits.1, hfits.2]

theorem decode_encode_append (r : Bytes)
    : decode (handshake.encode ++ r) = .ok (handshake, r) := by
  have hheader : (handshakeProtocolId ++ putU64 0).length = 27 := by decide +kernel
  have hlen : UInt8.toNat 19 = 19 := rfl
  obtain ⟨header, hheader_eq⟩ : ∃ header, header = handshakeProtocolId ++ putU64 0 := ⟨_, rfl⟩
  rw [← hheader_eq] at hheader
  rw [encode_append_eq, decode_cons, ← hheader_eq, hlen]
  obtain ⟨b, hb⟩ : ∃ b, b = header ++ (handshake.peerCtx.infoHash ++ (handshake.peerCtx.peerId ++ r)) :=
    ⟨_, rfl⟩
  have hlength : 67 ≤ b.length := by
    simp only [hb, List.length_append, hheader, hfits.1, hfits.2]
    omega
  have h27 : b.drop 27 = handshake.peerCtx.infoHash ++ (handshake.peerCtx.peerId ++ r) := by
    rw [hb, List.drop_left' hheader]
  have h47 : b.drop 47 = handshake.peerCtx.peerId ++ r := by
    rw [show 47 = 27 + 20 from rfl, ← List.drop_drop, h27, List.drop_left' hfits.1]
  have h67 : b.drop 67 = r := by
    rw [show 67 = 47 + 20 from rfl, ← List.drop_drop, h47, List.drop_left' hfits.2]
  rw [← hb, if_neg (by omega), if_neg (by omega), if_neg (by omega), if_neg (by omega)]
  simp only [Nat.reduceAdd, h27, h47, h67, List.take_left' hfits.1, List.take_left' hfits.2]

theorem decode_take {t : Nat} (ht : t < 68) (r : Bytes)
    : if 20 ≤ t ∧ t < 28 then
        decode ((handshake.encode ++ r).take t) = .error .panic
      else
        ∃ e, decode ((handshake.encode ++ r).take t) = .error (.err (.tryGetError e))
          ∧ e.requested ≤ 20 := by
  have hlength := length_encode hfits
  rw [List.take_append_of_le_length (by omega)]
  cases t with
  | zero => exact ⟨⟨1, 0⟩, rfl, by simp⟩
  | succ t =>
    have heq := encode_append_eq handshake []
    rw [List.append_nil] at heq
    rw [heq, List.length_cons] at hlength
    have hlen : UInt8.toNat 19 = 19 := rfl
    have hlt := List.length_take_of_le (by omega : t ≤ (handshakeProtocolId ++ putU64 0
      ++ (handshake.peerCtx.infoHash ++ (handshake.peerCtx.peerId ++ []))).length)
    rw [heq, List.take_succ_cons, decode_cons, hlen, hlt]
    split
    . rw [if_neg (by omega), if_pos (by omega)]
    . by_cases hshort : t < 19
      . exact ⟨_, if_pos hshort, by simp⟩
      . rw [if_neg hshort, if_neg (by omega)]
        by_cases hhash : t < 19 + 28
        . exact ⟨_, if_pos hhash, by simp⟩
        . rw [if_neg hhash]
          exact ⟨_, if_pos (by omega), by simp⟩

end

/--
A read ends behind the protocol id, or within the reserved bytes that come next.
-/
def CutsReserved (t : Nat) : Prop :=
  20 ≤ t ∧ t < 28

instance (t : Nat) : Decidable (CutsReserved t) :=
  inferInstanceAs (Decidable (_ ∧ _))

/--
The call has read the first `t` bytes of the stream, and waits for more.
-/
structure WaitsAt (handshake : Handshake) (r : Bytes) (t : Nat) (conn : Connection) : Prop where
  lt : t < 68
  spares : ¬CutsReserved t
  buffer_eq : conn.buffer = (handshake.encode ++ r).take t
  unread_eq : conn.unread = (handshake.encode ++ r).drop t
  needs : ∃ k ≤ 20, conn.needs = some k

/--
One of the reads makes the call return the handshake, with what has come behind it in the buffer.
-/
def Returns (handshake : Handshake) (r : Bytes) (t : Nat) (conn : Connection) (reads : List Nat)
    : Prop :=
  ∃ reads1 reads2 tr conn', reads = reads1 ++ reads2
    ∧ (Connection.readMsg decode).Run conn tr conn'
    ∧ tr.map Prod.fst = reads1.map .ready
    ∧ Connection.results tr = [.ok (some handshake)]
    ∧ conn'.translate = ⟨r.take (t + reads1.sum - 68), r.drop (t + reads1.sum - 68), none⟩

section

variable {handshake : Handshake} {r : Bytes} {t n : Nat} {conn : Connection}

theorem readLoop_take (hfits : handshake.Fits) (ht : t ≤ 68 + r.length)
    (hbuffer : conn.buffer = (handshake.encode ++ r).take t) {needs : Nat} (hneeds : needs ≤ 20)
    : (CutsReserved t
          ∧ Connection.readLoop decode conn needs
              = (some (.error .panic), { conn with needs := none }))
        ∨ (t < 68 ∧ ¬CutsReserved t
          ∧ ∃ k ≤ 20, Connection.readLoop decode conn needs = (none, { conn with needs := some k }))
        ∨ (68 ≤ t
          ∧ Connection.readLoop decode conn needs
              = (some (.ok (some handshake)), { conn with buffer := r.take (t - 68), needs := none })) := by
  have hlength : (handshake.encode ++ r).length = 68 + r.length := by
    rw [List.length_append, length_encode hfits]
  have hbuf : conn.buffer.length = t := by
    rw [hbuffer, List.length_take_of_le (by omega)]
  unfold Connection.readLoop
  rw [hbuf]
  by_cases hlt : t < 68
  . have hdecode := decode_take hfits hlt r
    rw [← hbuffer] at hdecode
    split at hdecode
    . next hcut =>
      left
      rw [if_pos (by omega), hdecode]
      exact ⟨hcut, rfl⟩
    . next hcut =>
      right
      left
      refine ⟨hlt, hcut, ?_⟩
      obtain ⟨e, hdecode, hrequested⟩ := hdecode
      split
      . rw [hdecode]
        exact ⟨e.requested, hrequested, rfl⟩
      . exact ⟨needs, hneeds, rfl⟩
  . right
    right
    have htake : conn.buffer = handshake.encode ++ r.take (t - 68) := by
      rw [hbuffer, List.take_append, length_encode hfits, List.take_of_length_le]
      rw [length_encode hfits]
      omega
    have hrest : (r.take (t - 68)).length = t - 68 := by
      rw [List.length_take_of_le]
      omega
    have hdrop : conn.buffer.drop 68 = r.take (t - 68) := by
      rw [htake, List.drop_left' (length_encode hfits)]
    refine ⟨by omega, ?_⟩
    rw [if_pos (by omega), htake, decode_encode_append hfits]
    dsimp only
    rw [← htake, hrest, show t - (t - 68) = 68 by omega, hdrop]

theorem WaitsAt.step_ready (hfits : handshake.Fits) (h : WaitsAt handshake r t conn) (hn : 0 < n)
    (hle : t + n ≤ 68 + r.length)
    : (CutsReserved (t + n) ∧ ∃ conn',
          (Connection.readMsg decode).step conn (.ready n) = some (some (.error .panic), conn'))
        ∨ (∃ conn', (Connection.readMsg decode).step conn (.ready n) = some (none, conn')
          ∧ WaitsAt handshake r (t + n) conn')
        ∨ (68 ≤ t + n
          ∧ (Connection.readMsg decode).step conn (.ready n)
              = some (some (.ok (some handshake)),
                ⟨r.take (t + n - 68), r.drop (t + n - 68), none⟩)) := by
  obtain ⟨k, hk, hneeds⟩ := h.needs
  have hlength : conn.unread.length = 68 + r.length - t := by
    rw [h.unread_eq, List.length_drop, List.length_append, length_encode hfits]
  let arrived : Connection := { conn with
    buffer := conn.buffer ++ conn.unread.take n, unread := conn.unread.drop n }
  have hstep : (Connection.readMsg decode).step conn (.ready n)
      = some (Connection.readLoop decode arrived k) := by
    simp only [Connection.readMsg, hneeds, arrived]
    rw [if_pos ⟨by omega, by omega⟩, if_neg (by omega)]
  have hbuffer : arrived.buffer = (handshake.encode ++ r).take (t + n) := by
    show conn.buffer ++ conn.unread.take n = (handshake.encode ++ r).take (t + n)
    rw [h.buffer_eq, h.unread_eq, List.take_add]
  have hunread : arrived.unread = (handshake.encode ++ r).drop (t + n) := by
    show conn.unread.drop n = (handshake.encode ++ r).drop (t + n)
    rw [h.unread_eq, List.drop_drop]
  rw [hstep]
  rcases readLoop_take hfits hle hbuffer hk with
    ⟨hcut, hread⟩ | ⟨hlt, hspares, k', hk', hread⟩ | ⟨hge, hread⟩
  . left
    rw [hread]
    exact ⟨hcut, _, rfl⟩
  . right
    left
    rw [hread]
    exact ⟨_, rfl, hlt, hspares, hbuffer, hunread, k', hk', rfl⟩
  . right
    right
    rw [hread, hunread, List.drop_append, length_encode hfits, List.drop_eq_nil_of_le]
    . exact ⟨hge, rfl⟩
    . rw [length_encode hfits]
      omega

theorem returns_cons_iff {reads : List Nat}
    : Returns handshake r t conn (n :: reads)
        ↔
      (∃ conn', (Connection.readMsg decode).step conn (.ready n) = some (none, conn')
          ∧ Returns handshake r (t + n) conn' reads)
        ∨ ∃ conn', (Connection.readMsg decode).step conn (.ready n)
              = some (some (.ok (some handshake)), conn')
            ∧ conn'.translate = ⟨r.take (t + n - 68), r.drop (t + n - 68), none⟩ := by
  constructor
  . rintro ⟨reads1, reads2, tr, conn', hreads, hrun, hmap, hres, hconn⟩
    cases hrun with
    | nil => contradiction
    | @cons _ conn1 _ event res tr _ hstep hrun =>
      cases reads1 with
      | nil => contradiction
      | cons n' reads1 =>
        rw [List.cons_append, List.cons.injEq] at hreads
        obtain ⟨rfl, hreads⟩ := hreads
        rw [List.map_cons, List.map_cons, List.cons.injEq] at hmap
        obtain ⟨rfl, hmap⟩ := hmap
        rw [List.sum_cons, ← Nat.add_assoc] at hconn
        cases res with
        | none =>
          left
          exact ⟨conn1, hstep, reads1, reads2, tr, conn', hreads, hrun, hmap, hres, hconn⟩
        | some res =>
          right
          rw [Connection.results_cons_some, List.cons.injEq] at hres
          obtain ⟨rfl, hres⟩ := hres
          -- the call is over, and no read is waited for
          have hneeds := Connection.needs_of_returned hstep
          cases reads1 with
          | nil =>
            rw [List.map_nil, List.map_eq_nil_iff] at hmap
            subst hmap
            cases hrun
            exact ⟨_, hstep, hconn⟩
          | cons n' reads1 =>
            cases hrun with
            | nil => contradiction
            | cons _ hstep' _ =>
              rw [List.map_cons, List.map_cons, List.cons.injEq] at hmap
              obtain ⟨rfl, _⟩ := hmap
              simp [Connection.readMsg, hneeds] at hstep'
  . rintro (⟨conn1, hstep, reads1, reads2, tr, conn', rfl, hrun, hmap, hres, hconn⟩
      | ⟨conn', hstep, hconn⟩)
    . refine ⟨n :: reads1, reads2, (.ready n, none) :: tr, conn', rfl, .cons trivial hstep hrun, ?_,
        hres, ?_⟩
      . rw [List.map_cons, List.map_cons, hmap]
      . rw [List.sum_cons, ← Nat.add_assoc]
        exact hconn
    . refine ⟨[n], reads, [(.ready n, some (.ok (some handshake)))], conn', rfl,
        .cons trivial hstep (.nil _), rfl, rfl, ?_⟩
      rw [List.sum_singleton]
      exact hconn

theorem WaitsAt.returns_iff (hfits : handshake.Fits) (h : WaitsAt handshake r t conn)
    {reads : List Nat} (hpos : ∀ n ∈ reads, 0 < n) (hsum : t + reads.sum = 68 + r.length)
    : Returns handshake r t conn reads ↔ ∀ k, ¬CutsReserved (t + (reads.take k).sum) := by
  induction reads generalizing t conn with
  | nil =>
    have := h.lt
    rw [List.sum_nil] at hsum
    omega
  | cons n reads ih =>
    rw [List.forall_mem_cons] at hpos
    rw [List.sum_cons] at hsum
    have hspares : (∀ k, ¬CutsReserved (t + ((n :: reads).take k).sum))
        ↔ ∀ k, ¬CutsReserved (t + n + (reads.take k).sum) := by
      constructor
      . intro hall k
        have := hall (k + 1)
        rwa [List.take_succ_cons, List.sum_cons, ← Nat.add_assoc] at this
      . intro hall k
        cases k with
        | zero => exact h.spares
        | succ k =>
          rw [List.take_succ_cons, List.sum_cons, ← Nat.add_assoc]
          exact hall k
    rw [returns_cons_iff, hspares]
    rcases h.step_ready hfits hpos.1 (by omega) with
      ⟨hcut, conn', hstep⟩ | ⟨conn', hstep, hwaits⟩ | ⟨hge, hstep⟩
    . refine iff_of_false ?_ fun hall => hall 0 hcut
      simp [hstep]
    . rw [← ih hwaits hpos.2 (by omega), hstep]
      simp
    . refine iff_of_true (.inr ⟨_, hstep, rfl⟩) fun k hcut => ?_
      unfold CutsReserved at hcut
      omega

end

/--
Some read makes `read_msg` return the handshake, the calls before it having waited, and the next
decoder finds what has come behind the handshake, and nothing else.
-/
def Survives (handshake : Handshake) (r : Bytes) (reads : List Nat) : Prop :=
  ∃ reads1 reads2 tr conn, reads = reads1 ++ reads2
    ∧ (Connection.readMsg decode).Run (.new (handshake.encode ++ r)) tr conn
    ∧ tr.map Prod.fst = .call :: reads1.map .ready
    ∧ Connection.results tr = [.ok (some handshake)]
    ∧ conn.translate
        = ⟨r.take (reads1.sum - handshake.encode.length),
          r.drop (reads1.sum - handshake.encode.length), none⟩

theorem waitsAt_zero (handshake : Handshake) (r : Bytes)
    : ∃ conn, (Connection.readMsg decode).step (.new (handshake.encode ++ r)) .call = some (none, conn)
        ∧ WaitsAt handshake r 0 conn := by
  refine ⟨⟨[], handshake.encode ++ r, some 1⟩, rfl, ?_⟩
  exact ⟨by omega, by decide, rfl, rfl, 1, by omega, rfl⟩

theorem survives_iff {handshake : Handshake} {r : Bytes} {reads : List Nat}
    (hfits : handshake.Fits) (hpos : ∀ n ∈ reads, 0 < n)
    (hsum : reads.sum = (handshake.encode ++ r).length)
    : Survives handshake r reads ↔ ∀ k, ¬CutsReserved (reads.take k).sum := by
  rw [List.length_append, length_encode hfits] at hsum
  obtain ⟨conn0, hcall, hwaits⟩ := waitsAt_zero handshake r
  have hiff := hwaits.returns_iff hfits hpos (by omega)
  simp only [Nat.zero_add] at hiff
  rw [← hiff]
  constructor
  . rintro ⟨reads1, reads2, tr, conn, hreads, hrun, hmap, hres, hconn⟩
    cases hrun with
    | nil => contradiction
    | @cons _ conn1 _ event res tr _ hstep hrun =>
      rw [List.map_cons, List.cons.injEq] at hmap
      obtain ⟨rfl, hmap⟩ := hmap
      rw [hcall, Option.some.injEq, Prod.mk.injEq] at hstep
      obtain ⟨rfl, rfl⟩ := hstep
      refine ⟨reads1, reads2, tr, conn, hreads, hrun, hmap, hres, ?_⟩
      rw [hconn, length_encode hfits, Nat.zero_add]
  . rintro ⟨reads1, reads2, tr, conn, hreads, hrun, hmap, hres, hconn⟩
    refine ⟨reads1, reads2, (.call, none) :: tr, conn, hreads, .cons trivial hcall hrun, ?_, hres, ?_⟩
    . rw [List.map_cons, hmap]
    . rw [hconn, length_encode hfits, Nat.zero_add]

/--
A handshake survives a split of the stream into reads if, and only if, no read ends before the reserved
bytes are complete once the protocol id is, and a buffer is read without a panic in the same case.
-/
theorem survives_iff_and_decode_ne_panic_iff (handshake : Handshake) (r : Bytes) (reads : List Nat)
    (b : Bytes)
    : (handshake.Fits → (∀ n ∈ reads, 0 < n) → reads.sum = (handshake.encode ++ r).length →
          (Survives handshake r reads ↔ ∀ k, ¬CutsReserved (reads.take k).sum))
        ∧ (decode b ≠ .error .panic ↔ CoversReserved b) :=
  ⟨survives_iff, coversReserved_iff b⟩

def zeroHandshake : Handshake :=
  ⟨⟨List.replicate 20 0, List.replicate 20 0⟩⟩

/--
The handshake comes in three reads, the last with two bytes of what follows.
-/
theorem survives_threeReads
    : Survives zeroHandshake [7, 8] [1, 30, 39] ∧ decode [19, 66] ≠ .error .panic := by
  have hiff := survives_iff_and_decode_ne_panic_iff zeroHandshake [7, 8] [1, 30, 39] [19, 66]
  constructor
  . apply (hiff.1 ⟨rfl, rfl⟩ (by decide) (by decide +kernel)).mpr
    intro k
    match k with
    | 0 => decide
    | 1 => decide
    | 2 => decide
    | k + 3 => simp [CutsReserved]
  . exact hiff.2.mpr (.inl (by decide))

theorem not_survives_cutReserved
    : ¬∀ (handshake : Handshake) (r : Bytes) (reads : List Nat), handshake.Fits →
        (∀ n ∈ reads, 0 < n) → reads.sum = (handshake.encode ++ r).length →
        Survives handshake r reads := by
  intro h
  have hsum : ([20, 48] : List Nat).sum = (zeroHandshake.encode ++ []).length := by decide +kernel
  have hsurvives := h zeroHandshake [] [20, 48] ⟨rfl, rfl⟩ (by decide) hsum
  rw [survives_iff ⟨rfl, rfl⟩ (by decide) hsum] at hsurvives
  exact hsurvives 1 (by decide)

end HandshakeDecoder
