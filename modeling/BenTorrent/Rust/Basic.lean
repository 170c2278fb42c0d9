import Mathlib.Algebra.Order.Ring.Int
import Mathlib.Data.List.Basic
import Mathlib.Tactic.Common

/-!
This module contains the part of Rust's semantics the rest of the development relies on: calls that
return, fail or panic, and machine arithmetic in builds with and without overflow checks.
-/

abbrev Bytes := List UInt8

theorem Except.bind_eq_ok {x : Except ε α} {f : α → Except ε β} {b : β}
    : (x >>= f) = .ok b ↔ ∃ a, x = .ok a ∧ f a = .ok b := by
  cases x with
  | ok a => simp [bind, Except.bind]
  | error e => simp [bind, Except.bind]

namespace Rust

abbrev VecU8 :=
  -- no allocation exceeds `isize::MAX` bytes
  { bytes : Bytes // bytes.length < 2 ^ 63 }

inductive Fault (ε : Type u) where
  | err (e : ε)
  | panic
  deriving Repr, DecidableEq

abbrev Outcome (ε : Type u) (α : Type v) := Except (Fault ε) α

instance [DecidableEq ε] [DecidableEq α] : DecidableEq (Outcome ε α)
  | .ok a, .ok b => decidable_of_iff (a = b) (by simp)
  | .error e, .error f => decidable_of_iff (e = f) (by simp)
  | .ok _, .error _ => isFalse (by simp)
  | .error _, .ok _ => isFalse (by simp)

@[simp]
theorem Outcome.ok_bind (a : α) (f : α → Outcome ε β) : ((.ok a : Outcome ε α) >>= f) = f a := by
  rfl

@[simp]
theorem Outcome.error_bind (e : Fault ε) (f : α → Outcome ε β)
    : ((.error e : Outcome ε α) >>= f) = .error e := by
  rfl

theorem Outcome.bind_eq_ok {x : Outcome ε α} {f : α → Outcome ε β} {b : β}
    : (x >>= f) = .ok b ↔ ∃ a, x = .ok a ∧ f a = .ok b :=
  Except.bind_eq_ok

theorem Outcome.bind_eq_error {x : Outcome ε α} {f : α → Outcome ε β} {e : Fault ε}
    : (x >>= f) = .error e ↔ x = .error e ∨ ∃ a, x = .ok a ∧ f a = .error e := by
  cases x with
  | ok a => simp [bind, Except.bind]
  | error e => simp [bind, Except.bind]

theorem Outcome.mapM_eq_ok {f : α → Outcome ε β} {xs : List α} {ys : List β}
    (h : xs.mapM f = .ok ys)
    : ys.length = xs.length ∧ ∀ (i : Nat) y, ys[i]? = some y → ∃ x, xs[i]? = some x ∧ f x = .ok y := by
  induction xs generalizing ys with
  | nil =>
    simp only [List.mapM_nil, pure, Except.pure, Except.ok.injEq] at h
    subst h
    simp
  | cons x xs ih =>
    simp only [List.mapM_cons, bind_eq_ok, pure, Except.pure, Except.ok.injEq] at h
    obtain ⟨y, hy, ys, hys, rfl⟩ := h
    obtain ⟨hlen, hget⟩ := ih hys
    refine ⟨by simp [hlen], ?_⟩
    intro i
    cases i with
    | zero => simp [hy]
    | succ i => simpa using hget i

theorem Outcome.mapM_of_ok {f : α → Outcome ε β} {g : α → β} {xs : List α}
    (h : ∀ x ∈ xs, f x = .ok (g x))
    : xs.mapM f = .ok (xs.map g) := by
  induction xs with
  | nil => rfl
  | cons x xs ih =>
    rw [List.forall_mem_cons] at h
    rw [List.mapM_cons, h.1, ih h.2]
    rfl

theorem Outcome.exists_mapM_eq_ok {f : α → Outcome ε β} {xs : List α}
    (h : ∀ x ∈ xs, ∃ y, f x = .ok y)
    : ∃ ys, xs.mapM f = .ok ys := by
  induction xs with
  | nil => exact ⟨[], rfl⟩
  | cons x xs ih =>
    rw [List.forall_mem_cons] at h
    obtain ⟨y, hy⟩ := h.1
    obtain ⟨ys, hys⟩ := ih h.2
    refine ⟨y :: ys, ?_⟩
    rw [List.mapM_cons, hy, hys]
    rfl

/--
The dev profile panics on an overflow, the release profile wraps.
-/
structure Build where
  overflowChecks : Bool
  deriving Repr, DecidableEq

namespace Build

def arith (build : Build) (w : Nat) (n : Int) : Outcome ε Nat :=
  if 0 ≤ n ∧ n.toNat < 2 ^ w then
    .ok n.toNat
  else if build.overflowChecks then
    .error .panic
  else
    .ok (n % 2 ^ w).toNat

@[simp]
theorem arith_of_fits (build : Build) (w : Nat) (n : Int) (h1 : 0 ≤ n) (h2 : n < 2 ^ w)
    : (build.arith w n : Outcome ε Nat) = .ok n.toNat := by
  simp [arith, h1, h2]

theorem arith_checked_eq_ok_iff (build : Build) (w : Nat) (n : Int) (m : Nat)
    (hbuild : build.overflowChecks = true)
    : (build.arith w n : Outcome ε Nat) = .ok m ↔ n = m ∧ m < 2 ^ w := by
  have hpow : ((2 ^ w : Nat) : Int) = 2 ^ w := by simp
  unfold arith
  split
  . next h =>
    simp only [Except.ok.injEq]
    omega
  . next h =>
    simp only [reduceCtorEq, false_iff, not_and]
    omega

theorem arith_eq_error {build : Build} {w : Nat} {n : Int} {e : Fault ε}
    (h : (build.arith w n : Outcome ε Nat) = .error e)
    : e = .panic := by
  unfold arith at h
  split at h
  . contradiction
  . split at h
    . simpa using h.symm
    . contradiction

def usizeAdd (build : Build) (a b : Nat) : Outcome ε Nat :=
  build.arith 64 (a + b)

def usizeSub (build : Build) (a b : Nat) : Outcome ε Nat :=
  build.arith 64 (a - b)

def usizeMul (build : Build) (a b : Nat) : Outcome ε Nat :=
  build.arith 64 (a * b)

def u32Add (build : Build) (a b : UInt32) : Outcome ε UInt32 :=
  (build.arith 32 (a.toNat + b.toNat)).map UInt32.ofNat

def u32Sub (build : Build) (a b : UInt32) : Outcome ε UInt32 :=
  (build.arith 32 (a.toNat - b.toNat)).map UInt32.ofNat

theorem u32Add_eq_error {build : Build} {a b : UInt32} {e : Fault ε}
    (h : (build.u32Add a b : Outcome ε UInt32) = .error e)
    : e = .panic := by
  unfold u32Add at h
  cases harith : (build.arith 32 (a.toNat + b.toNat) : Outcome ε Nat) with
  | ok n => simp [harith, Except.map] at h
  | error e' =>
    simp only [harith, Except.map, Except.error.injEq] at h
    rw [← h]
    apply arith_eq_error harith

theorem usizeAdd_of_fits (build : Build) (a b : Nat) (h : a + b < 2 ^ 64)
    : (build.usizeAdd a b : Outcome ε Nat) = .ok (a + b) := by
  unfold usizeAdd
  rw [arith_of_fits]
  . congr 1
  . omega
  . omega

theorem usizeSub_of_fits (build : Build) (a b : Nat) (h1 : b ≤ a) (h2 : a - b < 2 ^ 64)
    : (build.usizeSub a b : Outcome ε Nat) = .ok (a - b) := by
  unfold usizeSub
  rw [arith_of_fits]
  . congr 1
    omega
  . omega
  . omega

theorem usizeMul_of_fits (build : Build) (a b : Nat) (h : a * b < 2 ^ 64)
    : (build.usizeMul a b : Outcome ε Nat) = .ok (a * b) := by
  have hmul : (a : Int) * b = (a * b : Nat) := by simp
  unfold usizeMul
  rw [hmul, arith_of_fits]
  . congr 1
  . omega
  . omega

theorem u32Add_of_fits (build : Build) (a b : UInt32) (h : a.toNat + b.toNat < 2 ^ 32)
    : (build.u32Add a b : Outcome ε UInt32) = .ok (a + b) := by
  have hab : ((a.toNat : Int) + b.toNat).toNat = a.toNat + b.toNat := by omega
  unfold u32Add
  rw [arith_of_fits]
  . simp only [Except.map, hab, Except.ok.injEq]
    apply UInt32.toNat_inj.mp
    simp
  . omega
  . omega

theorem toNat_of_u32Add {build : Build} {a b c : UInt32}
    (h : (build.u32Add a b : Outcome ε UInt32) = .ok c) (hle : a.toNat ≤ c.toNat)
    : c.toNat = a.toNat + b.toNat := by
  have ha := a.toNat_lt
  have hb := b.toNat_lt
  by_cases hfits : a.toNat + b.toNat < 2 ^ 32
  . rw [u32Add_of_fits build a b hfits, Except.ok.injEq] at h
    rw [← h, UInt32.toNat_add]
    exact Nat.mod_eq_of_lt hfits
  . unfold u32Add arith at h
    rw [if_neg (by omega)] at h
    split at h
    . contradiction
    . simp only [Except.map, Except.ok.injEq] at h
      rw [← h] at hle ⊢
      simp at hle
      omega

theorem u32Sub_of_fits (build : Build) (a b : UInt32) (h : b.toNat ≤ a.toNat)
    : (build.u32Sub a b : Outcome ε UInt32) = .ok (a - b) := by
  have hlt := a.toNat_lt
  have hab : ((a.toNat : Int) - b.toNat).toNat = a.toNat - b.toNat := by omega
  unfold u32Sub
  rw [arith_of_fits]
  . simp only [Except.map, hab, Except.ok.injEq]
    apply UInt32.toNat_inj.mp
    rw [UInt32.toNat_ofNat', UInt32.toNat_sub_of_le _ _ (UInt32.le_iff_toNat_le.mpr h)]
    apply Nat.mod_eq_of_lt
    omega
  . omega
  . omega

end Build

def asUsize (x : Int64) : Nat :=
  x.toUInt64.toNat

theorem asUsize_eq (x : Int64)
    : (asUsize x : Int) = if 0 ≤ x.toInt then x.toInt else x.toInt + 2 ^ 64 := by
  have hnat : asUsize x = x.toBitVec.toNat := rfl
  have hint : x.toInt = x.toBitVec.toInt := rfl
  have hlt := x.toBitVec.isLt
  rw [hnat, hint, BitVec.toInt_eq_toNat_cond]
  split
  . rw [if_pos (by omega)]
  . rw [if_neg (by omega)]
    omega

theorem asUsize_lt (x : Int64) : asUsize x < 2 ^ 64 :=
  x.toUInt64.toNat_lt

def vecZeros (len : Nat) : Outcome ε Bytes :=
  if len < 2 ^ 63 then .ok (List.replicate len 0) else .error .panic

end Rust
