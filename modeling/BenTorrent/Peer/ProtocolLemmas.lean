import BenTorrent.Peer.Protocol

/-!
This module contains how the decoder of the wire protocol reads complete and incomplete frames, and
which buffers make it panic.
-/

open Rust Buf

namespace FlagMessages

theorem eq_toU8_of_tryFrom {id : UInt8} {f : FlagMessages} (h : tryFrom id = .ok f)
    : id = f.toU8 := by
  unfold tryFrom at h
  split at h <;> cases h <;> rfl

theorem eq_badId_of_tryFrom {id : UInt8} {e : ProtocolError} (h : tryFrom id = .error e)
    : e = .badId := by
  unfold tryFrom at h
  split at h <;> cases h
  rfl

end FlagMessages

namespace Messages

def body : Messages → Bytes
  | .keepAlive => []
  | .flag f => [f.toU8]
  | .have pieceIndex => 4 :: putU32 pieceIndex
  | .bitField bitfield => 5 :: bitfield
  | .request index begin length => 6 :: (putU32 index ++ putU32 begin ++ putU32 length)
  | .piece index begin block => 7 :: (putU32 index ++ putU32 begin ++ block)
  | .cancel index begin length => 8 :: (putU32 index ++ putU32 begin ++ putU32 length)

def frame (m : Messages) : Bytes :=
  putU32 (UInt32.ofNat m.body.length) ++ m.body

theorem length_body_lt {m : Messages} (h : m.Fits) : m.body.length < 2 ^ 32 := by
  cases m with
  | bitField =>
    simp only [Fits] at h
    simpa [body] using h
  | piece =>
    simp only [Fits] at h
    simp only [body, List.length_cons, List.length_append, length_putU32]
    omega
  | _ => simp [body]

theorem encode_of_fits {m : Messages} (build : Build) (h : m.Fits)
    : (m.encode build : Outcome ε Bytes) = .ok m.frame := by
  cases m with
  | bitField bitfield =>
    simp only [Fits] at h
    simp only [encode]
    rw [Build.u32Add_of_fits, Outcome.ok_bind]
    . have hlen : (1 : UInt32) + UInt32.ofNat bitfield.length
          = UInt32.ofNat (bitfield.length + 1) := by
        rw [UInt32.ofNat_add, UInt32.add_comm]
        rfl
      simp [frame, body, hlen, pure, Except.pure]
    . simp only [UInt32.toNat_ofNat', UInt32.toNat_one]
      omega
  | piece index begin block =>
    simp only [Fits] at h
    simp only [encode]
    rw [Build.u32Add_of_fits, Outcome.ok_bind]
    . have hlen : (9 : UInt32) + UInt32.ofNat block.length
          = UInt32.ofNat (4 + (4 + block.length) + 1) := by
        rw [← UInt32.toNat_inj]
        simp only [UInt32.toNat_add, UInt32.toNat_ofNat']
        simp
        omega
      simp [frame, body, hlen, pure, Except.pure]
    . simp only [UInt32.toNat_ofNat']
      simp
      omega
  | _ => rfl

end Messages

namespace MessagesDecoder

open Messages

theorem decode_putU32_append (build : Build) {len : UInt32} (hlen : len ≠ 0) (id : UInt8) (b : Bytes)
    (h : len.toNat ≤ b.length + 1)
    : decode build (putU32 len ++ id :: b) = decodeBody build len.toNat id b := by
  have hlen' : ¬len.toNat = 0 := by
    rwa [← UInt32.toNat_zero, UInt32.toNat_inj]
  unfold decode
  rw [tryGetU32_putU32_append]
  simp only [tryGet, Outcome.ok_bind]
  rw [if_neg hlen', if_neg (by simp only [List.length_cons]; omega)]
  rfl

theorem decodeRange_append (index begin length : UInt32) (r : Bytes)
    : decodeRange (putU32 index ++ (putU32 begin ++ (putU32 length ++ r)))
        =
      .ok ((index, begin, length), r) := by
  simp [decodeRange, tryGet, pure, Except.pure]

theorem decodeBody_body_append (build : Build) {m : Messages} (h : m.Fits) {id : UInt8}
    {payload : Bytes} (hbody : m.body = id :: payload) (r : Bytes)
    : decodeBody build m.body.length id (payload ++ r) = .ok (m, r) := by
  cases m with
  | keepAlive => simp [body] at hbody
  | flag f =>
    simp only [body, List.cons.injEq] at hbody
    obtain ⟨rfl, rfl⟩ := hbody
    cases f <;> rfl
  | «have» pieceIndex =>
    simp only [body, List.cons.injEq] at hbody
    obtain ⟨rfl, rfl⟩ := hbody
    simp [decodeBody, tryGet, pure, Except.pure]
  | bitField bitfield =>
    simp only [Fits] at h
    simp only [body, List.cons.injEq] at hbody ⊢
    obtain ⟨rfl, rfl⟩ := hbody
    simp only [decodeBody, List.length_cons]
    rw [Build.usizeSub_of_fits _ _ _ (by omega) (by omega), Outcome.ok_bind]
    rw [vecZeros, if_pos (by omega), Outcome.ok_bind, Nat.add_sub_cancel, tryCopyToSlice_append]
    rfl
  | request index begin length =>
    simp only [body, List.cons.injEq] at hbody
    obtain ⟨rfl, rfl⟩ := hbody
    simp [decodeBody, decodeRange_append, pure, Except.pure]
  | piece index begin block =>
    simp only [Fits] at h
    simp only [body, List.cons.injEq] at hbody ⊢
    obtain ⟨rfl, rfl⟩ := hbody
    simp only [decodeBody, decodePiece, List.append_assoc, tryGetU32_putU32_append, tryGet,
      Outcome.ok_bind, List.length_cons, List.length_append, length_putU32]
    rw [Build.usizeSub_of_fits _ _ _ (by omega) (by omega), Outcome.ok_bind]
    have hlen : 4 + (4 + block.length) + 1 - 9 = block.length := by omega
    rw [hlen, vecZeros, if_pos (by omega), Outcome.ok_bind, tryCopyToSlice_append]
    rfl
  | cancel index begin length =>
    simp only [body, List.cons.injEq] at hbody
    obtain ⟨rfl, rfl⟩ := hbody
    simp [decodeBody, decodeRange_append, pure, Except.pure]

theorem decode_frame_append (build : Build) {m : Messages} (h : m.Fits) (r : Bytes)
    : decode build (m.frame ++ r) = .ok (m, r) := by
  have hlt := length_body_lt h
  have hlen : (UInt32.ofNat m.body.length).toNat = m.body.length := by
    rw [UInt32.toNat_ofNat']
    apply Nat.mod_eq_of_lt hlt
  unfold frame
  cases hbody : m.body with
  | nil =>
    cases m with
    | keepAlive => simp [decode, tryGet, pure, Except.pure]
    | _ => simp [body] at hbody
  | cons id payload =>
    have hne : UInt32.ofNat m.body.length ≠ 0 := by
      rw [← UInt32.toNat_inj.ne, hlen, hbody]
      simp
    rw [← hbody, List.append_assoc]
    conv =>
      lhs
      rw [hbody]
    rw [List.cons_append, ← hbody, decode_putU32_append build hne]
    . rw [hlen]
      apply decodeBody_body_append build h hbody r
    . rw [hlen, hbody]
      simp only [List.length_cons, List.length_append]
      omega

theorem decode_of_prefix (build : Build) {m : Messages} (h : m.Fits) {p r : Bytes}
    (hp : m.frame = p ++ r) (hr : r ≠ [])
    : ∃ e, decode build p = .error (.err (.tryGetError e)) ∧ e.requested ≤ m.frame.length := by
  have hlt := length_body_lt h
  have hlen : (UInt32.ofNat m.body.length).toNat = m.body.length := by
    rw [UInt32.toNat_ofNat']
    apply Nat.mod_eq_of_lt hlt
  have hlength : m.frame.length = 4 + m.body.length := by
    simp [frame]
  by_cases hshort : p.length < 4
  . refine ⟨⟨4, p.length⟩, ?_, by dsimp only; omega⟩
    unfold decode
    rw [tryGetU32_of_length_lt hshort]
    rfl
  . have hpos := List.length_pos_iff.mpr hr
    rw [hp, List.length_append] at hlength
    obtain ⟨q, rfl⟩ : ∃ q, p = putU32 (UInt32.ofNat m.body.length) ++ q := by
      obtain ⟨q, hq⟩ : putU32 (UInt32.ofNat m.body.length) <+: p := by
        have h1 : putU32 (UInt32.ofNat m.body.length) <+: m.frame := List.prefix_append _ _
        have h2 : p <+: m.frame := hp ▸ List.prefix_append _ _
        apply List.prefix_of_prefix_length_le h1 h2
        rw [length_putU32]
        omega
      exact ⟨q, hq.symm⟩
    rw [List.length_append, length_putU32] at hlength
    refine ⟨⟨m.body.length, q.length⟩, ?_, by rw [hp]; simp only [List.length_append, length_putU32]; omega⟩
    unfold decode
    rw [tryGetU32_putU32_append]
    simp only [tryGet, Outcome.ok_bind, hlen]
    rw [if_neg (by omega), if_pos (by omega)]

/--
The buffer holds a complete frame of `n` bytes, and the decoder reads that frame and nothing else: the
message it returns is the one encoded there, and no error asks for more bytes.
-/
def Framed (build : Build) (b : Bytes) (n : Nat) : Prop :=
  match decode build b with
  | .ok (m, rest) => rest = b.drop n ∧ (m.encode build : Outcome Empty Bytes) = .ok (b.take n)
  | .error (.err (.tryGetError _)) => False
  | .error (.err .badId) => True
  | .error .panic => False

def LengthMatches (len : Nat) (b : Bytes) : Prop :=
  len ≠ 0 → ∀ id ∈ b.head?,
    (id = 4 → len = 5) ∧ (id = 6 ∨ id = 8 → len = 13) ∧ (id = 7 → 9 ≤ len)

theorem framed_of_frame (build : Build) {m : Messages} (h : m.Fits) {b r : Bytes} {n : Nat}
    (hb : b = m.frame ++ r) (hn : m.frame.length = n)
    : Framed build b n := by
  unfold Framed
  rw [hb, decode_frame_append build h]
  dsimp only
  rw [encode_of_fits build h, List.drop_left' hn, List.take_left' hn]
  exact ⟨rfl, rfl⟩

theorem tryGetU32_cases (b : Bytes)
    : (b.length < 4 ∧ tryGetU32 b = .error ⟨4, b.length⟩)
        ∨ ∃ x r, b = putU32 x ++ r ∧ tryGetU32 b = .ok (x, r) := by
  by_cases h : b.length < 4
  . exact .inl ⟨h, tryGetU32_of_length_lt h⟩
  . obtain ⟨x, r, hget⟩ := exists_tryGetU32_eq_ok (Nat.not_lt.mp h)
    exact .inr ⟨x, r, tryGetU32_eq_ok hget, hget⟩

theorem decodeRange_cases (b : Bytes)
    : (b.length < 12 ∧ ∃ e, decodeRange b = .error (.err (.tryGetError e)))
        ∨ ∃ index begin length r, b = putU32 index ++ (putU32 begin ++ (putU32 length ++ r)) := by
  unfold decodeRange
  rcases tryGetU32_cases b with ⟨hlt, hget⟩ | ⟨x1, b, rfl, hget⟩
  . exact .inl ⟨by omega, ⟨4, b.length⟩, by rw [hget]; rfl⟩
  . rw [hget]
    simp only [tryGet, Outcome.ok_bind, List.length_append, length_putU32]
    rcases tryGetU32_cases b with ⟨hlt, hget⟩ | ⟨x2, b, rfl, hget⟩
    . exact .inl ⟨by omega, ⟨4, b.length⟩, by rw [hget]; rfl⟩
    . rw [hget]
      simp only [Outcome.ok_bind, List.length_append, length_putU32]
      rcases tryGetU32_cases b with ⟨hlt, hget⟩ | ⟨x3, b, rfl, hget⟩
      . exact .inl ⟨by omega, ⟨4, b.length⟩, by rw [hget]; rfl⟩
      . exact .inr ⟨x1, x2, x3, b, rfl⟩

theorem decodePiece_cases (build : Build) (n : Nat) (b : Bytes)
    : (b.length < 8 ∧ ∃ e, decodePiece build n b = .error (.err (.tryGetError e)))
        ∨ ∃ index begin r, b = putU32 index ++ (putU32 begin ++ r)
            ∧ (n < 9 → decodePiece build n b = .error .panic) := by
  unfold decodePiece
  rcases tryGetU32_cases b with ⟨hlt, hget⟩ | ⟨index, b, rfl, hget⟩
  . exact .inl ⟨by omega, ⟨4, b.length⟩, by rw [hget]; rfl⟩
  . rw [hget]
    simp only [tryGet, Outcome.ok_bind, List.length_append, length_putU32]
    rcases tryGetU32_cases b with ⟨hlt, hget⟩ | ⟨begin, r, rfl, hget⟩
    . exact .inl ⟨by omega, ⟨4, b.length⟩, by rw [hget]; rfl⟩
    . refine .inr ⟨index, begin, r, rfl, ?_⟩
      intro hn
      rw [hget]
      simp only [Outcome.ok_bind, Build.usizeSub, Build.arith]
      rw [if_neg (by omega)]
      split
      . rfl
      . rw [Outcome.ok_bind, vecZeros, if_neg (by omega)]
        rfl

theorem Framed.length_eq {build : Build} {b rest : Bytes} {n : Nat} {m : Messages}
    (h : Framed build b n) (hdecode : decode build b = .ok (m, rest)) (hn : n ≤ b.length)
    : n + rest.length = b.length := by
  unfold Framed at h
  rw [hdecode] at h
  have := congrArg List.length h.1
  rw [List.length_drop] at this
  omega

theorem not_framed_of_tryGetError {build : Build} {b : Bytes} {n : Nat} {e : TryGetError}
    (h : decode build b = .error (.err (.tryGetError e)))
    : ¬Framed build b n := by
  unfold Framed
  rw [h]
  exact id

theorem not_framed_of_panic {build : Build} {b : Bytes} {n : Nat}
    (h : decode build b = .error .panic)
    : ¬Framed build b n := by
  unfold Framed
  rw [h]
  exact id

theorem framed_of_badId {build : Build} {b : Bytes} {n : Nat}
    (h : decode build b = .error (.err .badId))
    : Framed build b n := by
  unfold Framed
  rw [h]
  trivial

section

variable (build : Build) {len : UInt32} (hlen : len ≠ 0) {b : Bytes} (h : len.toNat ≤ b.length + 1)

include hlen h

theorem framed_fixed {id : UInt8} {k : Nat}
    (hread : (b.length < k
        ∧ ∃ e, decodeBody build len.toNat id b = .error (.err (.tryGetError e)))
      ∨ ∃ m r, m.Fits ∧ m.body.length = k + 1 ∧ id :: b = m.body ++ r
          ∧ decodeBody build len.toNat id b = .ok (m, r))
    : Framed build (putU32 len ++ id :: b) (4 + len.toNat) ↔ len.toNat = k + 1 := by
  have hdecode := decode_putU32_append build hlen id b h
  rcases hread with ⟨hlt, e, hread⟩ | ⟨m, r, hfits, hk, hb, hread⟩
  . rw [hread] at hdecode
    constructor
    . intro hframed
      exact absurd hframed (not_framed_of_tryGetError hdecode)
    . omega
  . rw [hread] at hdecode
    have hlength : b.length + 1 = k + 1 + r.length := by
      have := congrArg List.length hb
      rwa [List.length_cons, List.length_append, hk] at this
    have hbuf : (putU32 len ++ id :: b).length = 4 + (b.length + 1) := by
      simp
    constructor
    . intro hframed
      have := hframed.length_eq hdecode (by omega)
      omega
    . intro hlen5
      apply framed_of_frame build hfits (r := r)
      . rw [hb, frame, hk, ← hlen5, UInt32.ofNat_toNat, List.append_assoc]
      . rw [frame, List.length_append, length_putU32, hk, hlen5]

theorem framed_have
    : Framed build (putU32 len ++ 4 :: b) (4 + len.toNat) ↔ len.toNat = 5 := by
  apply framed_fixed build hlen h
  rcases tryGetU32_cases b with ⟨hlt, hget⟩ | ⟨x, r, rfl, hget⟩
  . exact .inl ⟨hlt, ⟨4, b.length⟩, by simp [decodeBody, hget, tryGet]⟩
  . refine .inr ⟨.have x, r, trivial, by simp [body], by simp [body], ?_⟩
    simp [decodeBody, tryGet, pure, Except.pure]

theorem framed_bitField
    : Framed build (putU32 len ++ 5 :: b) (4 + len.toNat) := by
  have hpos : 0 < len.toNat := by
    rw [Nat.pos_iff_ne_zero, ← UInt32.toNat_zero]
    apply UInt32.toNat_inj.ne.mpr hlen
  have hlt := len.toNat_lt
  have htake : (b.take (len.toNat - 1)).length + 1 = len.toNat := by
    rw [List.length_take]
    omega
  have hfits : Fits (.bitField (b.take (len.toNat - 1))) := by
    simp only [Fits]
    omega
  apply framed_of_frame build hfits (r := b.drop (len.toNat - 1))
  . simp only [frame, body, List.length_cons, htake, UInt32.ofNat_toNat, List.append_assoc,
      List.cons_append, List.take_append_drop]
  . simp only [frame, body, List.length_append, List.length_cons, htake, length_putU32]

theorem framed_request
    : Framed build (putU32 len ++ 6 :: b) (4 + len.toNat) ↔ len.toNat = 13 := by
  apply framed_fixed build hlen h
  rcases decodeRange_cases b with ⟨hlt, e, hget⟩ | ⟨index, begin, length, r, rfl⟩
  . exact .inl ⟨hlt, e, by simp [decodeBody, hget]⟩
  . refine .inr ⟨.request index begin length, r, trivial, by simp [body], by simp [body], ?_⟩
    simp [decodeBody, decodeRange_append, pure, Except.pure]

theorem framed_cancel
    : Framed build (putU32 len ++ 8 :: b) (4 + len.toNat) ↔ len.toNat = 13 := by
  apply framed_fixed build hlen h
  rcases decodeRange_cases b with ⟨hlt, e, hget⟩ | ⟨index, begin, length, r, rfl⟩
  . exact .inl ⟨hlt, e, by simp [decodeBody, hget]⟩
  . refine .inr ⟨.cancel index begin length, r, trivial, by simp [body], by simp [body], ?_⟩
    simp [decodeBody, decodeRange_append, pure, Except.pure]

theorem framed_piece
    : Framed build (putU32 len ++ 7 :: b) (4 + len.toNat) ↔ 9 ≤ len.toNat := by
  have hdecode := decode_putU32_append build hlen 7 b h
  simp only [decodeBody] at hdecode
  rcases decodePiece_cases build len.toNat b with ⟨hlt, e, hread⟩ | ⟨index, begin, r, rfl, hread⟩
  . rw [hread] at hdecode
    constructor
    . intro hframed
      exact absurd hframed (not_framed_of_tryGetError hdecode)
    . omega
  . constructor
    . intro hframed
      by_contra hshort
      rw [hread (by omega)] at hdecode
      apply not_framed_of_panic hdecode hframed
    . intro h9
      have hlt := len.toNat_lt
      simp only [List.length_append, length_putU32] at h
      have htake : (r.take (len.toNat - 9)).length + 9 = len.toNat := by
        rw [List.length_take]
        omega
      have hfits : Fits (.piece index begin (r.take (len.toNat - 9))) := by
        simp only [Fits]
        omega
      have hbody : (body (.piece index begin (r.take (len.toNat - 9)))).length = len.toNat := by
        simp only [body, List.length_cons, List.length_append, length_putU32]
        omega
      apply framed_of_frame build hfits (r := r.drop (len.toNat - 9))
      . rw [frame, hbody, UInt32.ofNat_toNat]
        simp only [body, List.append_assoc, List.cons_append, List.take_append_drop]
      . rw [frame, List.length_append, hbody, length_putU32]

theorem framed_other {id : UInt8} (h4 : id ≠ 4) (h5 : id ≠ 5) (h6 : id ≠ 6) (h7 : id ≠ 7)
    (h8 : id ≠ 8)
    : Framed build (putU32 len ++ id :: b) (4 + len.toNat) := by
  have hdecode := decode_putU32_append build hlen id b h
  unfold decodeBody at hdecode
  split at hdecode
  . contradiction
  . contradiction
  . contradiction
  . contradiction
  . contradiction
  . split at hdecode
    . next hone =>
      split at hdecode
      . next f hf =>
        have hlen1 : len = 1 := UInt32.toNat_inj.mp hone
        have hid := FlagMessages.eq_toU8_of_tryFrom hf
        subst hlen1 hid
        apply framed_of_frame build (m := .flag f) (r := b) trivial rfl rfl
      . next e he =>
        rw [FlagMessages.eq_badId_of_tryFrom he] at hdecode
        apply framed_of_badId hdecode
    . apply framed_of_badId hdecode

end

theorem framed_iff_lengthMatches (build : Build) (b r : Bytes) (len : UInt32)
    (hlen : tryGetU32 b = .ok (len, r)) (hframe : len.toNat ≤ r.length)
    : Framed build b (4 + len.toNat) ↔ LengthMatches len.toNat r := by
  rw [tryGetU32_eq_ok hlen]
  by_cases hzero : len = 0
  . subst hzero
    have hframed : Framed build (putU32 0 ++ r) 4 :=
      framed_of_frame build (m := .keepAlive) trivial rfl rfl
    simpa [LengthMatches] using hframed
  . have hne : len.toNat ≠ 0 := by
      rw [← UInt32.toNat_zero]
      apply UInt32.toNat_inj.ne.mpr hzero
    cases r with
    | nil => exact absurd (Nat.le_zero.mp hframe) hne
    | cons id b =>
      simp only [LengthMatches, List.head?_cons, Option.mem_def, Option.some.injEq, forall_eq', hne,
        ne_eq, not_false_eq_true, true_implies]
      rw [List.length_cons] at hframe
      by_cases h4 : id = 4
      . subst h4
        simpa using framed_have build hzero hframe
      . by_cases h5 : id = 5
        . subst h5
          simpa using framed_bitField build hzero hframe
        . by_cases h6 : id = 6
          . subst h6
            simpa using framed_request build hzero hframe
          . by_cases h7 : id = 7
            . subst h7
              simpa using framed_piece build hzero hframe
            . by_cases h8 : id = 8
              . subst h8
                simpa using framed_cancel build hzero hframe
              . simpa [h4, h6, h7, h8] using framed_other build hzero hframe h4 h5 h6 h7 h8

theorem framed_iff_lengthMatches_have
    : Framed ⟨true⟩ [0, 0, 0, 5, 4, 0, 0, 1, 2, 9] (4 + 5) ↔ LengthMatches 5 [4, 0, 0, 1, 2, 9] :=
  framed_iff_lengthMatches ⟨true⟩ _ _ 5 (by decide +kernel) (by decide +kernel)

theorem not_framed_shortHave
    : ¬∀ (b r : Bytes) (len : UInt32), tryGetU32 b = .ok (len, r) → len.toNat ≤ r.length →
        Framed ⟨true⟩ b (4 + len.toNat) := by
  intro h
  have hdecode : decode ⟨true⟩ [0, 0, 0, 1, 4, 0, 0, 1, 2] = .ok (.have 258, []) := by
    decide +kernel
  have hframed := h [0, 0, 0, 1, 4, 0, 0, 1, 2] _ 1 rfl (by decide)
  exact absurd (hframed.length_eq hdecode (by decide)) (by decide)

theorem tryGet_bind_eq_panic {x : Except TryGetError α} {f : α → Outcome ProtocolError β}
    : (tryGet x >>= f) = .error .panic ↔ ∃ a, x = .ok a ∧ f a = .error .panic := by
  cases x with
  | ok a => simp [tryGet]
  | error e => simp [tryGet]

theorem decodeRange_ne_panic (b : Bytes) : decodeRange b ≠ .error .panic := by
  unfold decodeRange
  simp [tryGet_bind_eq_panic, pure, Except.pure]

theorem decodePiece_eq_panic_iff (build : Build) {n : Nat} (hn : n < 2 ^ 32) (b : Bytes)
    : decodePiece build n b = .error .panic ↔ n < 9 ∧ 8 ≤ b.length := by
  rcases decodePiece_cases build n b with ⟨hlt, e, hread⟩ | ⟨index, begin, r, rfl, hread⟩
  . rw [hread]
    simp
    omega
  . have hlength : 8 ≤ (putU32 index ++ (putU32 begin ++ r)).length := by
      simp only [List.length_append, length_putU32]
      omega
    by_cases hshort : n < 9
    . simp only [hread hshort, hshort, hlength, and_self]
    . have hsub : (build.usizeSub n 9 : Outcome ProtocolError Nat) = .ok (n - 9) :=
        Build.usizeSub_of_fits _ _ _ (by omega) (by omega)
      have hzeros : (vecZeros (n - 9) : Outcome ProtocolError Bytes)
          = .ok (List.replicate (n - 9) 0) := by
        rw [vecZeros, if_pos (by omega)]
      unfold decodePiece
      simp [tryGet_bind_eq_panic, hsub, hzeros, pure, Except.pure, hshort]

/--
Only a piece is read by subtracting a header that nothing has checked.
-/
theorem decodeBody_ne_panic (build : Build) {n : Nat} (hpos : 0 < n) (hn : n < 2 ^ 32)
    {id : UInt8} (hid : id ≠ 7) (b : Bytes)
    : decodeBody build n id b ≠ .error .panic := by
  unfold decodeBody
  split
  . simp [tryGet_bind_eq_panic, pure, Except.pure]
  . have hsub : (build.usizeSub n 1 : Outcome ProtocolError Nat) = .ok (n - 1) :=
      Build.usizeSub_of_fits _ _ _ (by omega) (by omega)
    have hzeros : (vecZeros (n - 1) : Outcome ProtocolError Bytes)
        = .ok (List.replicate (n - 1) 0) := by
      rw [vecZeros, if_pos (by omega)]
    rw [hsub, Outcome.ok_bind, hzeros, Outcome.ok_bind]
    simp [tryGet_bind_eq_panic, pure, Except.pure]
  . simp [Outcome.bind_eq_error, decodeRange_ne_panic, pure, Except.pure]
  . contradiction
  . simp [Outcome.bind_eq_error, decodeRange_ne_panic, pure, Except.pure]
  . split
    . split
      . simp
      . simp
    . simp

/--
A piece whose header is in the buffer is as long as its header.
-/
def CoversPieceHeader (b : Bytes) : Prop :=
  match tryGetU32 b with
  | .ok (len, 7 :: r) => len = 0 ∨ 9 ≤ len.toNat ∨ r.length < 8
  | _ => True

theorem coversPieceHeader_cons {len : UInt32} {id : UInt8} {r : Bytes}
    : CoversPieceHeader (putU32 len ++ id :: r)
        ↔
      (id = 7 → len = 0 ∨ 9 ≤ len.toNat ∨ r.length < 8) := by
  unfold CoversPieceHeader
  rw [tryGetU32_putU32_append]
  split
  . next heq =>
    simp only [Except.ok.injEq, Prod.mk.injEq, List.cons.injEq] at heq
    obtain ⟨rfl, rfl, rfl⟩ := heq
    simp
  . next hother =>
    simp only [true_iff]
    rintro rfl
    exact absurd rfl (hother len r)

theorem coversPieceHeader_nil (len : UInt32) : CoversPieceHeader (putU32 len ++ []) := by
  unfold CoversPieceHeader
  rw [tryGetU32_putU32_append]
  trivial

theorem decode_ne_panic_iff (build : Build) (b : Bytes)
    : decode build b ≠ .error .panic ↔ CoversPieceHeader b := by
  rcases tryGetU32_cases b with ⟨_, hget⟩ | ⟨len, r, rfl, hget⟩
  . unfold decode CoversPieceHeader
    simp [hget, tryGet]
  . by_cases hzero : len = 0
    . subst hzero
      have hdecode : decode build (putU32 0 ++ r) = .ok (.keepAlive, r) := by
        simp [decode, tryGet, pure, Except.pure]
      cases r with
      | nil => exact iff_of_true (by rw [hdecode]; simp) (coversPieceHeader_nil 0)
      | cons id r => simp [hdecode, coversPieceHeader_cons]
    . have hpos : len.toNat ≠ 0 := by
        rw [← UInt32.toNat_zero]
        apply UInt32.toNat_inj.ne.mpr hzero
      by_cases hshort : r.length < len.toNat
      . have hdecode : decode build (putU32 len ++ r)
            = .error (.err (.tryGetError ⟨len.toNat, r.length⟩)) := by
          unfold decode
          rw [hget]
          simp only [tryGet, Outcome.ok_bind]
          rw [if_neg hpos, if_pos hshort]
        cases r with
        | nil => exact iff_of_true (by rw [hdecode]; simp) (coversPieceHeader_nil len)
        | cons id r =>
          rw [List.length_cons] at hshort
          rw [hdecode, coversPieceHeader_cons]
          simp
          omega
      . cases r with
        | nil =>
          rw [List.length_nil] at hshort
          omega
        | cons id r =>
          rw [List.length_cons] at hshort
          rw [decode_putU32_append build hzero id r (by omega), coversPieceHeader_cons]
          by_cases hid : id = 7
          . subst hid
            rw [ne_eq, decodeBody, decodePiece_eq_panic_iff build len.toNat_lt]
            simp only [hzero, true_implies, false_or]
            omega
          . have hsafe := decodeBody_ne_panic build (by omega) len.toNat_lt hid r
            simp [hsafe, hid]

theorem not_decode_ne_panic_shortPiece
    : ¬∀ b, decode ⟨true⟩ b ≠ .error .panic := by
  intro h
  exact h [0, 0, 0, 1, 7, 0, 0, 0, 0, 0, 0, 0, 0] (by decide +kernel)

end MessagesDecoder
