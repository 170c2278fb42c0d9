import BenTorrent.Rust.Basic

/-!
This module contains `String::from_utf8_lossy`: every maximal piece of a broken UTF-8 sequence
becomes one replacement character.
-/

namespace Rust

namespace Utf8

def replacement : Char := '\uFFFD'

def isContinuation (b : UInt8) : Bool :=
  128 ≤ b.toNat && b.toNat < 192

def lead (b : UInt8) : Option (Nat × Nat × Nat) :=
  -- the width of the sequence, and the range its second byte must lie in
  if 194 ≤ b.toNat ∧ b.toNat < 224 then some (2, 128, 192)
  else if b.toNat = 224 then some (3, 160, 192)
  else if b.toNat = 237 then some (3, 128, 160)
  else if 225 ≤ b.toNat ∧ b.toNat < 240 then some (3, 128, 192)
  else if b.toNat = 240 then some (4, 144, 192)
  else if b.toNat = 244 then some (4, 128, 144)
  else if 241 ≤ b.toNat ∧ b.toNat < 244 then some (4, 128, 192)
  else none

def push (acc : Nat) (b : UInt8) : Nat :=
  acc * 64 + (b.toNat - 128)

def fromLossy : Bytes → List Char
  | [] => []
  | b0 :: bs0 =>
    if b0.toNat < 128 then
      Char.ofNat b0.toNat :: fromLossy bs0
    else
      match lead b0 with
      | none => replacement :: fromLossy bs0
      | some (width, lo, hi) =>
        match bs0 with
        | [] => [replacement]
        | b1 :: bs1 =>
          if b1.toNat < lo ∨ hi ≤ b1.toNat then
            replacement :: fromLossy (b1 :: bs1)
          else if width = 2 then
            Char.ofNat (push (b0.toNat - 192) b1) :: fromLossy bs1
          else
            match bs1 with
            | [] => [replacement]
            | b2 :: bs2 =>
              if !isContinuation b2 then
                replacement :: fromLossy (b2 :: bs2)
              else if width = 3 then
                Char.ofNat (push (push (b0.toNat - 224) b1) b2) :: fromLossy bs2
              else
                match bs2 with
                | [] => [replacement]
                | b3 :: bs3 =>
                  if !isContinuation b3 then
                    replacement :: fromLossy (b3 :: bs3)
                  else
                    Char.ofNat (push (push (push (b0.toNat - 240) b1) b2) b3) :: fromLossy bs3

theorem lead_eq_some {b : UInt8} {width lo hi : Nat} (h : lead b = some (width, lo, hi))
    : (width = 2 ∧ 194 ≤ b.toNat ∧ b.toNat < 224 ∧ lo = 128 ∧ hi = 192)
        ∨
      (width = 3 ∧ 224 ≤ b.toNat ∧ b.toNat < 240 ∧ 128 ≤ lo ∧ hi ≤ 192
        ∧ (b.toNat = 224 → lo = 160) ∧ (b.toNat = 237 → hi = 160))
        ∨
      (width = 4 ∧ 240 ≤ b.toNat ∧ b.toNat < 245 ∧ 128 ≤ lo ∧ hi ≤ 192
        ∧ (b.toNat = 240 → lo = 144) ∧ (b.toNat = 244 → hi = 144)) := by
  unfold lead at h
  repeat' split at h
  all_goals
    simp only [Option.some.injEq, Prod.mk.injEq, reduceCtorEq] at h
    try omega

theorem toNat_ofNat {n : Nat} (h : n < 55296 ∨ 57343 < n ∧ n < 1114112)
    : (Char.ofNat n).toNat = n := by
  unfold Char.ofNat
  rw [dif_pos h]
  rfl

theorem fromLossy_cons_of_not_ascii (b0 : UInt8) (bs0 : Bytes) (h : 128 ≤ b0.toNat)
    : ∃ c cs, fromLossy (b0 :: bs0) = c :: cs ∧ 128 ≤ c.toNat := by
  have hreplacement : 128 ≤ replacement.toNat := by decide
  unfold fromLossy
  rw [if_neg (by omega)]
  split
  . exact ⟨_, _, rfl, hreplacement⟩
  . next width lo hi hlead =>
    have hspec := lead_eq_some hlead
    split
    . exact ⟨_, _, rfl, hreplacement⟩
    . next b1 bs1 =>
      split
      . exact ⟨_, _, rfl, hreplacement⟩
      . split
        . refine ⟨_, _, rfl, ?_⟩
          unfold push
          rw [toNat_ofNat]
          all_goals omega
        . split
          . exact ⟨_, _, rfl, hreplacement⟩
          . next b2 bs2 =>
            split
            . exact ⟨_, _, rfl, hreplacement⟩
            . next hb2 =>
              simp only [isContinuation, Bool.not_eq_true, Bool.not_eq_false', Bool.and_eq_true,
                decide_eq_true_eq] at hb2
              split
              . refine ⟨_, _, rfl, ?_⟩
                unfold push
                rw [toNat_ofNat]
                all_goals omega
              . split
                . exact ⟨_, _, rfl, hreplacement⟩
                . next b3 bs3 =>
                  split
                  . exact ⟨_, _, rfl, hreplacement⟩
                  . next hb3 =>
                    simp only [isContinuation, Bool.not_eq_true, Bool.not_eq_false',
                      Bool.and_eq_true, decide_eq_true_eq] at hb3
                    refine ⟨_, _, rfl, ?_⟩
                    unfold push
                    rw [toNat_ofNat]
                    all_goals omega

theorem fromLossy_of_ascii {bs : Bytes} {cs : List Char} (h : fromLossy bs = cs)
    (hcs : ∀ c ∈ cs, c.toNat < 128)
    : bs = cs.map fun c => UInt8.ofNat c.toNat := by
  induction bs generalizing cs with
  | nil =>
    rw [← h]
    rfl
  | cons b0 bs0 ih =>
    cases Nat.lt_or_ge b0.toNat 128 with
    | inl hb0 =>
      unfold fromLossy at h
      rw [if_pos hb0] at h
      subst h
      simp only [List.mem_cons, forall_eq_or_imp] at hcs
      have htoNat : (Char.ofNat b0.toNat).toNat = b0.toNat := by
        rw [toNat_ofNat]
        omega
      rw [List.map_cons, htoNat, UInt8.ofNat_toNat, ← ih rfl hcs.2]
    | inr hb0 =>
      obtain ⟨c, cs', heq, hc⟩ := fromLossy_cons_of_not_ascii b0 bs0 hb0
      rw [← h, heq] at hcs
      have := hcs c (by simp)
      omega

theorem toNat_ofNat_lt {n : Nat} (h : n < 256) : (UInt8.ofNat n).toNat = n := by
  rw [UInt8.toNat_ofNat']
  omega

theorem fromLossy_one {b0 : UInt8} (bs : Bytes) (h : b0.toNat < 128)
    : fromLossy (b0 :: bs) = Char.ofNat b0.toNat :: fromLossy bs := by
  conv_lhs => unfold fromLossy
  rw [if_pos h]

theorem fromLossy_two {b0 b1 : UInt8} {lo hi : Nat} (bs : Bytes) (hascii : 128 ≤ b0.toNat)
    (hlead : lead b0 = some (2, lo, hi)) (h1 : lo ≤ b1.toNat ∧ b1.toNat < hi)
    : fromLossy (b0 :: b1 :: bs) = Char.ofNat (push (b0.toNat - 192) b1) :: fromLossy bs := by
  conv_lhs => unfold fromLossy
  rw [if_neg (by omega), hlead]
  dsimp only
  rw [if_neg (by omega), if_pos rfl]

theorem fromLossy_three {b0 b1 b2 : UInt8} {lo hi : Nat} (bs : Bytes) (hascii : 128 ≤ b0.toNat)
    (hlead : lead b0 = some (3, lo, hi)) (h1 : lo ≤ b1.toNat ∧ b1.toNat < hi)
    (h2 : isContinuation b2 = true)
    : fromLossy (b0 :: b1 :: b2 :: bs)
        =
      Char.ofNat (push (push (b0.toNat - 224) b1) b2) :: fromLossy bs := by
  conv_lhs => unfold fromLossy
  rw [if_neg (by omega), hlead]
  dsimp only
  rw [if_neg (by omega), if_neg (by decide), h2, if_neg (by decide), if_pos rfl]

theorem fromLossy_four {b0 b1 b2 b3 : UInt8} {lo hi : Nat} (bs : Bytes) (hascii : 128 ≤ b0.toNat)
    (hlead : lead b0 = some (4, lo, hi)) (h1 : lo ≤ b1.toNat ∧ b1.toNat < hi)
    (h2 : isContinuation b2 = true) (h3 : isContinuation b3 = true)
    : fromLossy (b0 :: b1 :: b2 :: b3 :: bs)
        =
      Char.ofNat (push (push (push (b0.toNat - 240) b1) b2) b3) :: fromLossy bs := by
  conv_lhs => unfold fromLossy
  rw [if_neg (by omega), hlead]
  dsimp only
  rw [if_neg (by omega), if_neg (by decide), h2, if_neg (by decide), if_neg (by decide), h3,
    if_neg (by decide)]

def tail (n : Nat) : UInt8 :=
  UInt8.ofNat (n % 64 + 128)

theorem toNat_tail (n : Nat) : (tail n).toNat = n % 64 + 128 :=
  toNat_ofNat_lt (by omega)

theorem isContinuation_tail (n : Nat) : isContinuation (tail n) = true := by
  unfold isContinuation
  rw [toNat_tail]
  simp only [Bool.and_eq_true, decide_eq_true_eq]
  omega

theorem push_tail (acc n : Nat) : push acc (tail n) = acc * 64 + n % 64 := by
  unfold push
  rw [toNat_tail]
  omega

theorem lead_two {n : Nat} (hlo : 128 ≤ n) (hhi : n < 2048)
    : lead (UInt8.ofNat (n / 64 % 32 + 192)) = some (2, 128, 192) := by
  have h0 : (UInt8.ofNat (n / 64 % 32 + 192)).toNat = n / 64 + 192 := by
    rw [toNat_ofNat_lt (by omega)]
    omega
  unfold lead
  rw [h0, if_pos (by omega)]

theorem lead_three {n : Nat} (hlo : 2048 ≤ n) (hhi : n < 65536) (hvalid : n < 55296 ∨ 57343 < n)
    : ∃ lo hi, lead (UInt8.ofNat (n / 4096 % 16 + 224)) = some (3, lo, hi)
        ∧ lo ≤ (tail (n / 64)).toNat ∧ (tail (n / 64)).toNat < hi := by
  have h0 : (UInt8.ofNat (n / 4096 % 16 + 224)).toNat = n / 4096 + 224 := by
    rw [toNat_ofNat_lt (by omega)]
    omega
  unfold lead
  rw [h0, toNat_tail, if_neg (by omega)]
  split
  . exact ⟨_, _, rfl, by omega, by omega⟩
  . split
    . exact ⟨_, _, rfl, by omega, by omega⟩
    . rw [if_pos (by omega)]
      exact ⟨_, _, rfl, by omega, by omega⟩

theorem lead_four {n : Nat} (hlo : 65536 ≤ n) (hhi : n < 1114112)
    : ∃ lo hi, lead (UInt8.ofNat (n / 262144 % 8 + 240)) = some (4, lo, hi)
        ∧ lo ≤ (tail (n / 4096)).toNat ∧ (tail (n / 4096)).toNat < hi := by
  have h0 : (UInt8.ofNat (n / 262144 % 8 + 240)).toNat = n / 262144 + 240 := by
    rw [toNat_ofNat_lt (by omega)]
    omega
  unfold lead
  rw [h0, toNat_tail, if_neg (by omega), if_neg (by omega), if_neg (by omega), if_neg (by omega)]
  split
  . exact ⟨_, _, rfl, by omega, by omega⟩
  . split
    . exact ⟨_, _, rfl, by omega, by omega⟩
    . rw [if_pos (by omega)]
      exact ⟨_, _, rfl, by omega, by omega⟩

theorem fromLossy_utf8EncodeChar (c : Char) (bs : Bytes)
    : fromLossy (String.utf8EncodeChar c ++ bs) = c :: fromLossy bs := by
  have hvalid : c.toNat < 55296 ∨ 57343 < c.toNat ∧ c.toNat < 1114112 := c.valid
  have hc : ∀ {n}, n = c.toNat → Char.ofNat n = c := by
    intro n hn
    rw [hn, Char.ofNat_toNat]
  unfold String.utf8EncodeChar
  change fromLossy (ite (c.toNat ≤ 127) _ (ite (c.toNat ≤ 2047) _ (ite (c.toNat ≤ 65535) _ _)) ++ bs)
    = _
  split
  . next h1 =>
    change fromLossy (UInt8.ofNat c.toNat :: bs) = _
    have h0 : (UInt8.ofNat c.toNat).toNat = c.toNat := toNat_ofNat_lt (by omega)
    rw [fromLossy_one bs (by omega), hc h0]
  . next h1 =>
    split
    . next h2 =>
      change fromLossy (UInt8.ofNat (c.toNat / 64 % 32 + 192) :: tail c.toNat :: bs) = _
      have h0 : (UInt8.ofNat (c.toNat / 64 % 32 + 192)).toNat = c.toNat / 64 + 192 := by
        rw [toNat_ofNat_lt (by omega)]
        omega
      rw [fromLossy_two bs (by omega) (lead_two (by omega) (by omega))
        (by rw [toNat_tail]; omega), push_tail, h0, hc]
      omega
    . next h2 =>
      split
      . next h3 =>
        change fromLossy (UInt8.ofNat (c.toNat / 4096 % 16 + 224) :: tail (c.toNat / 64)
          :: tail c.toNat :: bs) = _
        have h0 : (UInt8.ofNat (c.toNat / 4096 % 16 + 224)).toNat = c.toNat / 4096 + 224 := by
          rw [toNat_ofNat_lt (by omega)]
          omega
        obtain ⟨lo, hi, hlead, hsecond⟩ := lead_three (n := c.toNat) (by omega) (by omega) (by omega)
        rw [fromLossy_three bs (by omega) hlead hsecond (isContinuation_tail _), push_tail,
          push_tail, h0, hc]
        omega
      . next h3 =>
        change fromLossy (UInt8.ofNat (c.toNat / 262144 % 8 + 240) :: tail (c.toNat / 4096)
          :: tail (c.toNat / 64) :: tail c.toNat :: bs) = _
        have h0 : (UInt8.ofNat (c.toNat / 262144 % 8 + 240)).toNat = c.toNat / 262144 + 240 := by
          rw [toNat_ofNat_lt (by omega)]
          omega
        obtain ⟨lo, hi, hlead, hsecond⟩ := lead_four (n := c.toNat) (by omega) (by omega)
        rw [fromLossy_four bs (by omega) hlead hsecond (isContinuation_tail _)
          (isContinuation_tail _), push_tail, push_tail, push_tail, h0, hc]
        omega

end Utf8

def fromUtf8Lossy (bs : Bytes) : String :=
  String.ofList (Utf8.fromLossy bs)

theorem fromUtf8Lossy_eq_ascii_iff (bs : Bytes) (cs : List Char) (hcs : ∀ c ∈ cs, c.toNat < 128)
    : fromUtf8Lossy bs = String.ofList cs ↔ bs = cs.map fun c => UInt8.ofNat c.toNat := by
  unfold fromUtf8Lossy
  rw [String.ofList_inj]
  constructor
  . intro h
    apply Utf8.fromLossy_of_ascii h hcs
  . intro h
    subst h
    induction cs with
    | nil => rfl
    | cons c cs ih =>
      simp only [List.mem_cons, forall_eq_or_imp] at hcs
      have hc : (UInt8.ofNat c.toNat).toNat = c.toNat := by
        rw [UInt8.toNat_ofNat']
        omega
      rw [List.map_cons]
      unfold Utf8.fromLossy
      rw [if_pos (by omega), ih hcs.2, hc, Char.ofNat_toNat]

def asBytes (s : String) : Bytes :=
  s.toList.flatMap String.utf8EncodeChar

theorem fromUtf8Lossy_asBytes (s : String) : fromUtf8Lossy (asBytes s) = s := by
  unfold fromUtf8Lossy asBytes
  have hlist : ∀ cs : List Char, Utf8.fromLossy (cs.flatMap String.utf8EncodeChar) = cs := by
    intro cs
    induction cs with
    | nil => rfl
    | cons c cs ih => rw [List.flatMap_cons, Utf8.fromLossy_utf8EncodeChar, ih]
  rw [hlist, String.ofList_toList]

theorem fromUtf8Lossy_eq_iff_of_ascii {s : String} (hs : ∀ c ∈ s.toList, c.toNat < 128) (bs : Bytes)
    : fromUtf8Lossy bs = s ↔ bs = asBytes s := by
  have hiff := fun bs => fromUtf8Lossy_eq_ascii_iff bs s.toList hs
  rw [String.ofList_toList] at hiff
  rw [hiff, (hiff (asBytes s)).mp (fromUtf8Lossy_asBytes s)]

theorem asBytes_fromUtf8Lossy {bs : Bytes} (hbs : ∀ b ∈ bs, b.toNat < 128)
    : asBytes (fromUtf8Lossy bs) = bs := by
  let cs := bs.map fun b => Char.ofNat b.toNat
  have hchar : ∀ b ∈ bs, (Char.ofNat b.toNat).toNat = b.toNat := by
    intro b hb
    have := hbs b hb
    exact Utf8.toNat_ofNat (by omega)
  have hcs : ∀ c ∈ cs, c.toNat < 128 := by
    intro c hc
    obtain ⟨b, hb, rfl⟩ := List.mem_map.mp hc
    rw [hchar b hb]
    exact hbs b hb
  have heq : fromUtf8Lossy bs = String.ofList cs := by
    rw [fromUtf8Lossy_eq_ascii_iff bs cs hcs, List.map_map, List.map_congr_left (g := id), List.map_id]
    intro b hb
    simp only [Function.comp_apply, hchar b hb, UInt8.ofNat_toNat, id]
  rw [heq]
  rw [fromUtf8Lossy_eq_iff_of_ascii (by rwa [String.toList_ofList])] at heq
  exact heq.symm

example : fromUtf8Lossy [112, 105, 195, 169, 240, 159, 65] = "pié\uFFFDA" := by decide

end Rust
