import BenTorrent.Nom.Basic
import BenTorrent.Decimal.Basic

/-!
This module contains the integer parsers of `nom::character::complete`, of the crate `nom`, and
their action on decimal spellings. It is assumed, as documented, that `u32` takes digits only, that
`i64` takes one sign before them, that both take all digits there are and that they fail where there
is none or where the number leaves the type.
-/

namespace Nom

open Decimal

def pushDigit (lo hi sgn value : Int) (d : Nat) : Option Int :=
  -- `checked_mul(10)`, then `checked_add` or `checked_sub` of the digit
  let next := value * 10 + sgn * d
  if lo ≤ next ∧ next < hi then some next else none

def integer (push : Int → Nat → Option Int) (input : Bytes) : Parser Int := fun i =>
  match i with
  | [] => .error ⟨input, .digit⟩
  | c :: cs => if (toDigit c).isSome then go 0 (c :: cs) else .error ⟨input, .digit⟩
where
  go (value : Int) : Parser Int
    | [] => .ok ([], value)
    | c :: cs =>
      match toDigit c with
      | none => .ok (c :: cs, value)
      | some d =>
        match push value d with
        | none => .error ⟨input, .digit⟩
        | some value => go value cs

def sign : Parser Bool := fun i =>
  match i with
  | 45 :: i => .ok (i, false)
  | 43 :: i => .ok (i, true)
  | i => .ok (i, true)

def u32 : Parser UInt32 := fun i => do
  let (i, value) ← integer (pushDigit 0 (2 ^ 32) 1) i i
  return (i, UInt32.ofNat value.toNat)

def i64 : Parser Int64 := fun input => do
  let (i, positive) ← sign input
  let sgn := if positive then 1 else -1
  let (i, value) ← integer (pushDigit (-2 ^ 63) (2 ^ 63) sgn) input i
  return (i, Int64.ofInt value)

def NoDigit (rest : Bytes) : Prop :=
  ∀ c, rest.head? = some c → toDigit c = none

theorem integer.go_shrinks (push : Int → Nat → Option Int) (input : Bytes) (value : Int)
    : Shrinks (integer.go push input value) := by
  intro i r res h
  induction i generalizing value with
  | nil =>
    simp only [go, Except.ok.injEq, Prod.mk.injEq] at h
    rw [← h.1]
  | cons c cs ih =>
    unfold go at h
    split at h
    . simp only [Except.ok.injEq, Prod.mk.injEq] at h
      rw [← h.1]
    . split at h
      . contradiction
      . next value' _ =>
        have := ih value' h
        rw [List.length_cons]
        omega

theorem integer_shrinks (push : Int → Nat → Option Int) (input : Bytes)
    : Shrinks (integer push input) := by
  intro i r res h
  unfold integer at h
  split at h
  . contradiction
  . split at h
    . apply integer.go_shrinks push input 0 _ r res h
    . contradiction

theorem sign_shrinks : Shrinks sign := by
  intro i r res h
  unfold sign at h
  split at h
  all_goals
    simp only [Except.ok.injEq, Prod.mk.injEq] at h
    simp [← h.1]

theorem u32_shrinks : Shrinks u32 := by
  intro i r res h
  unfold u32 at h
  rw [bind_eq_ok] at h
  obtain ⟨i1, value, h1, h2⟩ := h
  simp only [pure, Except.pure, Except.ok.injEq, Prod.mk.injEq] at h2
  rw [← h2.1]
  apply integer_shrinks _ _ i i1 value h1

theorem i64_shrinks : Shrinks i64 := by
  intro i r res h
  unfold i64 at h
  simp only [bind_eq_ok] at h
  obtain ⟨i1, positive, h1, i2, value, h2, h3⟩ := h
  simp only [pure, Except.pure, Except.ok.injEq, Prod.mk.injEq] at h3
  rw [← h3.1]
  apply Nat.le_trans (integer_shrinks _ _ i1 i2 value h2) (sign_shrinks i i1 positive h1)

theorem integer.go_append (lo hi sgn : Int) (input ds1 ds2 rest : Bytes)
    (hds : ∀ c ∈ ds2, (toDigit c).isSome) (hrest : NoDigit rest)
    (hrange : ∀ m : Nat, m ≤ toNat (ds1 ++ ds2) → lo ≤ sgn * m ∧ sgn * m < hi)
    : go (pushDigit lo hi sgn) input (sgn * toNat ds1) (ds2 ++ rest)
        =
      .ok (rest, sgn * toNat (ds1 ++ ds2)) := by
  induction ds2 generalizing ds1 with
  | nil =>
    rw [List.nil_append, List.append_nil]
    cases rest with
    | nil => rfl
    | cons c rest => simp [go, hrest c rfl]
  | cons c ds2 ih =>
    have happend : ds1 ++ c :: ds2 = (ds1 ++ [c]) ++ ds2 := by simp
    have hc : toDigit c = some (c.toNat - 48) := by
      have := hds c (by simp)
      rw [toDigit_isSome_iff] at this
      apply if_pos this
    have hnext : sgn * toNat ds1 * 10 + sgn * (c.toNat - 48 : Nat) = sgn * toNat (ds1 ++ [c]) := by
      rw [toNat_append_singleton]
      push_cast
      ring
    have hpush : pushDigit lo hi sgn (sgn * toNat ds1) (c.toNat - 48)
        = some (sgn * toNat (ds1 ++ [c])) := by
      unfold pushDigit
      dsimp only
      rw [hnext, if_pos]
      apply hrange
      rw [happend]
      apply toNat_le_toNat_append
    rw [happend] at hrange ⊢
    rw [List.cons_append]
    unfold go
    simp only [hc, hpush]
    apply ih
    . intro c' hc'
      exact hds c' (List.mem_cons_of_mem c hc')
    . exact hrange

theorem integer_append (lo hi sgn : Int) (input ds rest : Bytes) (hne : ds ≠ [])
    (hds : ∀ c ∈ ds, (toDigit c).isSome) (hrest : NoDigit rest)
    (hrange : ∀ m : Nat, m ≤ toNat ds → lo ≤ sgn * m ∧ sgn * m < hi)
    : integer (pushDigit lo hi sgn) input (ds ++ rest) = .ok (rest, sgn * toNat ds) := by
  have hgo := integer.go_append lo hi sgn input [] ds rest hds hrest hrange
  rw [List.nil_append] at hgo
  cases ds with
  | nil => contradiction
  | cons c ds =>
    have hc := hds c (by simp)
    unfold integer
    rw [List.cons_append] at hgo ⊢
    dsimp only
    rw [if_pos hc]
    simpa [Decimal.toNat] using hgo

theorem u32_ofNat (n : Nat) (hn : n < 2 ^ 32) (rest : Bytes) (hrest : NoDigit rest)
    : u32 (ofNat n ++ rest) = .ok (rest, UInt32.ofNat n) := by
  obtain ⟨hne, hdigits, -⟩ := canonicalNat_ofNat n
  unfold u32
  rw [integer_append 0 (2 ^ 32) 1 _ (ofNat n) rest hne hdigits hrest]
  . simp [toNat_ofNat, pure, Except.pure]
  . intro m hm
    rw [toNat_ofNat] at hm
    omega

theorem sign_of_digit (c : UInt8) (i : Bytes) (h : (toDigit c).isSome)
    : sign (c :: i) = .ok (c :: i, true) := by
  rw [toDigit_isSome_iff] at h
  unfold sign
  split
  . simp_all
  . simp_all
  . rfl

theorem i64_ofInt (n : Int64) (rest : Bytes) (hrest : NoDigit rest)
    : i64 (ofInt n.toInt ++ rest) = .ok (rest, n) := by
  obtain ⟨hne, hdigits, -⟩ := canonicalNat_ofNat n.toInt.natAbs
  have hlo := Int64.le_toInt n
  have hhi := Int64.toInt_lt n
  unfold i64 ofInt
  split
  . next hneg =>
    rw [List.cons_append]
    simp only [sign, ok_bind]
    rw [integer_append (-2 ^ 63) (2 ^ 63) _ _ (ofNat n.toInt.natAbs) rest hne hdigits hrest]
    . rw [toNat_ofNat]
      have : (-1 : Int) * n.toInt.natAbs = n.toInt := by omega
      simp only [Bool.false_eq_true, ↓reduceIte, this, ok_bind, Int64.ofInt_toInt]
      rfl
    . intro m hm
      rw [toNat_ofNat] at hm
      simp only [Bool.false_eq_true, ↓reduceIte]
      omega
  . next hpos =>
    have hsign : sign (ofNat n.toInt.natAbs ++ rest) = .ok (ofNat n.toInt.natAbs ++ rest, true) := by
      cases hds : ofNat n.toInt.natAbs with
      | nil => contradiction
      | cons c ds =>
        apply sign_of_digit
        apply hdigits
        simp [hds]
    simp only [hsign, ok_bind]
    rw [integer_append (-2 ^ 63) (2 ^ 63) _ _ (ofNat n.toInt.natAbs) rest hne hdigits hrest]
    . rw [toNat_ofNat]
      have : (1 : Int) * n.toInt.natAbs = n.toInt := by omega
      simp only [↓reduceIte, this, ok_bind, Int64.ofInt_toInt]
      rfl
    . intro m hm
      rw [toNat_ofNat] at hm
      simp only [↓reduceIte]
      omega

end Nom
