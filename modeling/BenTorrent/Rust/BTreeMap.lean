import Mathlib.Order.Basic
import Mathlib.Data.List.Induction
import Mathlib.Data.List.Lex
import BenTorrent.Rust.Basic

/-!
This module contains `BTreeMap` as the list of its entries in the order of the keys.
-/

instance instLinearOrderUInt8 : LinearOrder UInt8 where
  le := (· ≤ ·)
  lt := (· < ·)
  le_refl := fun _ => UInt8.le_refl _
  le_trans := fun _ _ _ => UInt8.le_trans
  le_antisymm := fun _ _ => UInt8.le_antisymm
  le_total := fun _ _ => UInt8.le_total _ _
  lt_iff_le_not_ge := fun _ _ => by
    simp only [UInt8.lt_iff_toNat_lt, UInt8.le_iff_toNat_le]
    omega
  toDecidableLE := inferInstance

namespace Rust

namespace BTreeMap

variable [LinearOrder κ]

def Sorted (d : List (κ × ν)) : Prop :=
  d.Pairwise fun e1 e2 => e1.1 < e2.1

instance (d : List (κ × ν)) : Decidable (Sorted d) :=
  inferInstanceAs (Decidable (d.Pairwise _))

theorem Sorted.eq_of_fst_eq {d : List (κ × ν)} (h : Sorted d) {e1 e2 : κ × ν} (h1 : e1 ∈ d)
    (h2 : e2 ∈ d) (heq : e1.1 = e2.1)
    : e1 = e2 := by
  have hall := List.Pairwise.forall_of_forall_of_flip
    (R := fun e1 e2 : κ × ν => e1.1 = e2.1 → e1 = e2) (fun _ _ _ => rfl)
    (h.imp fun hlt heq => absurd heq (ne_of_lt hlt))
    (h.imp fun hlt heq => absurd heq (ne_of_gt hlt))
  exact hall h1 h2 heq

def insert (k : κ) (v : ν) : List (κ × ν) → List (κ × ν)
  | [] => [(k, v)]
  | e :: d =>
    if k < e.1 then
      (k, v) :: e :: d
    else if k = e.1 then
      (k, v) :: d
    else
      e :: insert k v d

def collect (es : List (κ × ν)) : List (κ × ν) :=
  -- of two entries with one key the later one stays
  es.foldl (fun d e => insert e.1 e.2 d) []

theorem mem_insert {k : κ} {v : ν} {d : List (κ × ν)} {e : κ × ν} (h : e ∈ insert k v d)
    : e = (k, v) ∨ e ∈ d := by
  induction d with
  | nil => simpa [insert] using h
  | cons e' d ih =>
    unfold insert at h
    split at h
    . simpa using h
    . split at h
      . cases List.mem_cons.mp h with
        | inl h => exact .inl h
        | inr h => exact .inr (List.mem_cons_of_mem e' h)
      . cases List.mem_cons.mp h with
        | inl h => simp [h]
        | inr h =>
          cases ih h with
          | inl h => exact .inl h
          | inr h => exact .inr (List.mem_cons_of_mem e' h)

theorem sorted_insert (k : κ) (v : ν) (d : List (κ × ν)) (h : Sorted d)
    : Sorted (insert k v d) := by
  unfold Sorted at *
  induction d with
  | nil => simp [insert]
  | cons e d ih =>
    rw [List.pairwise_cons] at h
    unfold insert
    split
    . next hlt =>
      simp only [List.pairwise_cons, List.mem_cons, forall_eq_or_imp]
      exact ⟨⟨hlt, fun e' he' => hlt.trans (h.1 e' he')⟩, h.1, h.2⟩
    . next hge =>
      split
      . next heq =>
        rw [List.pairwise_cons]
        exact ⟨fun e' he' => heq ▸ h.1 e' he', h.2⟩
      . next hne =>
        rw [List.pairwise_cons]
        refine ⟨?_, ih h.2⟩
        intro e' he'
        cases mem_insert he' with
        | inl he' =>
          rw [he']
          apply lt_of_le_of_ne (not_lt.mp hge) (Ne.symm hne)
        | inr he' => exact h.1 e' he'

theorem collect_induction {P : List (κ × ν) → Prop} (es : List (κ × ν)) (hnil : P [])
    (hinsert : ∀ e ∈ es, ∀ d, P d → P (insert e.1 e.2 d))
    : P (collect es) :=
  List.foldlRecOn es _ hnil fun d hd e he => hinsert e he d hd

theorem sorted_collect (es : List (κ × ν)) : Sorted (collect es) := by
  apply collect_induction
  . apply List.Pairwise.nil
  . intro e _ d hd
    apply sorted_insert e.1 e.2 d hd

theorem mem_collect {es : List (κ × ν)} {e : κ × ν} (h : e ∈ collect es) : e ∈ es := by
  suffices ∀ e ∈ collect es, e ∈ es from this e h
  apply collect_induction (P := fun d => ∀ e ∈ d, e ∈ es)
  . simp
  . intro e1 he1 d hd e2 he2
    cases mem_insert he2 with
    | inl he2 => rwa [he2]
    | inr he2 => exact hd e2 he2

theorem insert_of_forall_lt (k : κ) (v : ν) (d : List (κ × ν)) (h : ∀ e ∈ d, e.1 < k)
    : insert k v d = d ++ [(k, v)] := by
  induction d with
  | nil => rfl
  | cons e d ih =>
    have he : e.1 < k := h e (by simp)
    unfold insert
    rw [if_neg (not_lt_of_gt he), if_neg (ne_of_gt he), ih]
    . rfl
    . intro e' he'
      exact h e' (List.mem_cons_of_mem e he')

theorem collect_of_sorted (d : List (κ × ν)) (h : Sorted d) : collect d = d := by
  induction d using List.reverseRecOn with
  | nil => rfl
  | append_singleton d e ih =>
    unfold Sorted at h
    rw [List.pairwise_append] at h
    unfold collect at *
    rw [List.foldl_append, ih h.1, List.foldl_cons, List.foldl_nil]
    apply insert_of_forall_lt
    intro e' he'
    exact h.2.2 e' he' e (by simp)

end BTreeMap

end Rust
