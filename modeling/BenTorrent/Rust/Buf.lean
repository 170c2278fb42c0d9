import BenTorrent.Rust.Basic

/-!
This module contains the reads and writes of the crate `bytes` that the wire formats are made of. A
read returns the value and what is left of the buffer. It is assumed, as documented, that integers
are big-endian, that a `try_` read of too few bytes fails and takes nothing, and that `advance` panics
beyond the end.
-/

namespace Rust

structure TryGetError where
  requested : Nat
  available : Nat
  deriving Repr, DecidableEq

namespace Buf

def putU32 (x : UInt32) : Bytes :=
  [UInt8.ofNat (x.toNat / 2 ^ 24), UInt8.ofNat (x.toNat / 2 ^ 16), UInt8.ofNat (x.toNat / 2 ^ 8),
    UInt8.ofNat x.toNat]

def putU64 (x : UInt64) : Bytes :=
  putU32 (UInt32.ofNat (x.toNat / 2 ^ 32)) ++ putU32 (UInt32.ofNat x.toNat)

def tryGetU8 : Bytes → Except TryGetError (UInt8 × Bytes)
  | x :: b => .ok (x, b)
  | [] => .error ⟨1, 0⟩

def tryGetU32 : Bytes → Except TryGetError (UInt32 × Bytes)
  | x1 :: x2 :: x3 :: x4 :: b =>
    .ok (UInt32.ofNat (x1.toNat * 2 ^ 24 + x2.toNat * 2 ^ 16 + x3.toNat * 2 ^ 8 + x4.toNat), b)
  | b => .error ⟨4, b.length⟩

def tryCopyToSlice (len : Nat) (b : Bytes) : Except TryGetError (Bytes × Bytes) :=
  if b.length < len then
    .error ⟨len, b.length⟩
  else
    .ok (b.take len, b.drop len)

def advance (cnt : Nat) (b : Bytes) : Outcome ε Bytes :=
  if b.length < cnt then .error .panic else .ok (b.drop cnt)

@[simp]
theorem length_putU32 (x : UInt32) : (putU32 x).length = 4 := by
  rfl

@[simp]
theorem tryGetU32_putU32_append (x : UInt32) (b : Bytes)
    : tryGetU32 (putU32 x ++ b) = .ok (x, b) := by
  have hx := x.toNat_lt
  simp only [putU32, tryGetU32, List.cons_append, List.nil_append, Except.ok.injEq, Prod.mk.injEq,
    and_true]
  apply UInt32.toNat_inj.mp
  simp only [UInt8.toNat_ofNat', UInt32.toNat_ofNat']
  omega

theorem tryGetU32_eq_ok {b r : Bytes} {x : UInt32} (h : tryGetU32 b = .ok (x, r))
    : b = putU32 x ++ r := by
  unfold tryGetU32 at h
  split at h
  . next x1 x2 x3 x4 b =>
    have h1 := x1.toNat_lt
    have h2 := x2.toNat_lt
    have h3 := x3.toNat_lt
    have h4 := x4.toNat_lt
    simp only [Except.ok.injEq, Prod.mk.injEq] at h
    obtain ⟨rfl, rfl⟩ := h
    simp only [putU32, List.cons_append, List.nil_append, List.cons.injEq, and_true,
      ← UInt8.toNat_inj, UInt8.toNat_ofNat', UInt32.toNat_ofNat']
    omega
  . contradiction

theorem tryGetU32_of_length_lt {b : Bytes} (h : b.length < 4)
    : tryGetU32 b = .error ⟨4, b.length⟩ := by
  match b, h with
  | [], _ => rfl
  | [_], _ => rfl
  | [_, _], _ => rfl
  | [_, _, _], _ => rfl

theorem exists_tryGetU32_eq_ok {b : Bytes} (h : 4 ≤ b.length) : ∃ x r, tryGetU32 b = .ok (x, r) := by
  match b, h with
  | _ :: _ :: _ :: _ :: _, _ => exact ⟨_, _, rfl⟩

@[simp]
theorem tryCopyToSlice_append (b1 b2 : Bytes)
    : tryCopyToSlice b1.length (b1 ++ b2) = .ok (b1, b2) := by
  simp [tryCopyToSlice]

end Buf

end Rust
