import Mathlib.Data.Nat.Digits.Lemmas
import BenTorrent.Rust.Basic

/-!
This module contains the decimal spelling of numbers in ASCII bytes, as `Display` prints them, and
when a string of digits is that spelling.
-/

namespace Decimal

def toDigit (c : UInt8) : Option Nat :=
  if 48 ≤ c.toNat ∧ c.toNat < 58 then some (c.toNat - 48) else none

def ofDigit (d : Nat) : UInt8 :=
  UInt8.ofNat (48 + d)

def ofNat (n : Nat) : Bytes :=
  if n = 0 then [48] else (Nat.digits 10 n).reverse.map ofDigit

def ofInt (n : Int) : Bytes :=
  if n < 0 then 45 :: ofNat n.natAbs else ofNat n.natAbs

def toNat (ds : Bytes) : Nat :=
  Nat.ofDigits 10 (ds.reverse.map fun c => c.toNat - 48)

def CanonicalNat (ds : Bytes) : Prop :=
  ds ≠ [] ∧ (∀ c ∈ ds, (toDigit c).isSome) ∧ (ds.head? = some 48 → ds = [48])

theorem toDigit_ofDigit (d : Nat) (h : d < 10) : toDigit (ofDigit d) = some d := by
  have : (ofDigit d).toNat = 48 + d := by
    simp only [ofDigit, UInt8.toNat_ofNat']
    omega
  simp only [toDigit, this]
  rw [if_pos (by omega)]
  simp

theorem toDigit_isSome_iff (c : UInt8) : (toDigit c).isSome ↔ 48 ≤ c.toNat ∧ c.toNat < 58 := by
  unfold toDigit
  split
  . next h => simp [h]
  . next h => simpa using h

theorem ofDigit_toNat_sub (c : UInt8) (h : (toDigit c).isSome) : ofDigit (c.toNat - 48) = c := by
  rw [toDigit_isSome_iff] at h
  unfold ofDigit
  rw [Nat.add_sub_cancel' h.1]
  simp

theorem ofDigit_eq_zero_iff (d : Nat) (h : d < 10) : ofDigit d = 48 ↔ d = 0 := by
  constructor
  . intro heq
    have := congrArg UInt8.toNat heq
    simp only [ofDigit, UInt8.toNat_ofNat', UInt8.reduceToNat] at this
    omega
  . intro heq
    rw [heq]
    rfl

theorem canonicalNat_ofNat (n : Nat) : CanonicalNat (ofNat n) := by
  unfold ofNat
  split
  . refine ⟨by simp, ?_, by simp⟩
    intro c hc
    rw [List.mem_singleton] at hc
    rw [hc]
    rfl
  . next hn =>
    have hne : Nat.digits 10 n ≠ [] := Nat.digits_ne_nil_iff_ne_zero.mpr hn
    refine ⟨by simpa using hne, ?_, ?_⟩
    . intro c hc
      obtain ⟨d, hd, rfl⟩ := List.mem_map.mp hc
      rw [List.mem_reverse] at hd
      rw [toDigit_ofDigit d (Nat.digits_lt_base (by omega) hd)]
      rfl
    . intro hhead
      rw [List.head?_map, List.head?_reverse, List.getLast?_eq_some_getLast hne, Option.map_some,
        Option.some.injEq] at hhead
      have hlast : (Nat.digits 10 n).getLast hne < 10 :=
        Nat.digits_lt_base (by omega) (List.getLast_mem hne)
      rw [ofDigit_eq_zero_iff _ hlast] at hhead
      exact absurd hhead (Nat.getLast_digit_ne_zero 10 hn)

theorem toNat_ofNat (n : Nat) : toNat (ofNat n) = n := by
  unfold toNat ofNat
  split
  . next h =>
    rw [h]
    rfl
  . rw [← List.map_reverse, List.reverse_reverse, List.map_map]
    have hid : (Nat.digits 10 n).map ((fun c => c.toNat - 48) ∘ ofDigit) = Nat.digits 10 n := by
      rw [List.map_congr_left (g := id), List.map_id]
      intro d hd
      have : d < 10 := Nat.digits_lt_base (by omega) hd
      simp only [Function.comp, ofDigit, UInt8.toNat_ofNat', id]
      omega
    rw [hid, Nat.ofDigits_digits]

theorem ofNat_toNat (ds : Bytes) (h : CanonicalNat ds) : ofNat (toNat ds) = ds := by
  obtain ⟨hne, hdigits, hzero⟩ := h
  unfold ofNat toNat
  cases ds with
  | nil => contradiction
  | cons c cs =>
    have hc := hdigits c (by simp)
    cases Classical.em (c = 48) with
    | inl hc0 =>
      have : c :: cs = [48] := by
        apply hzero
        simp [hc0]
      rw [this]
      rfl
    | inr hc0 =>
      have hd : c.toNat - 48 ≠ 0 := by
        intro h0
        apply hc0
        rw [← ofDigit_toNat_sub c hc, h0]
        rfl
      have hdig : Nat.digits 10 (Nat.ofDigits 10 ((c :: cs).reverse.map fun c => c.toNat - 48))
          = (c :: cs).reverse.map fun c => c.toNat - 48 := by
        apply Nat.digits_ofDigits 10 (by omega)
        . intro d hd
          obtain ⟨c', hc', rfl⟩ := List.mem_map.mp hd
          have := hdigits c' (List.mem_reverse.mp hc')
          rw [toDigit_isSome_iff] at this
          omega
        . intro hne
          simpa using hd
      split
      . next h0 =>
        rw [h0] at hdig
        simp at hdig
      . rw [hdig, ← List.map_reverse, List.reverse_reverse, List.map_map]
        rw [List.map_congr_left (g := id), List.map_id]
        intro c' hc'
        apply ofDigit_toNat_sub c' (hdigits c' hc')

theorem toNat_append_singleton (ds : Bytes) (c : UInt8)
    : toNat (ds ++ [c]) = toNat ds * 10 + (c.toNat - 48) := by
  unfold toNat
  rw [List.reverse_append, List.reverse_singleton, List.singleton_append, List.map_cons,
    Nat.ofDigits_cons]
  omega

theorem toNat_le_toNat_append (ds1 ds2 : Bytes) : toNat ds1 ≤ toNat (ds1 ++ ds2) := by
  induction ds2 generalizing ds1 with
  | nil => simp
  | cons c ds2 ih =>
    have := ih (ds1 ++ [c])
    rw [List.append_assoc, List.singleton_append] at this
    rw [toNat_append_singleton] at this
    omega

end Decimal
