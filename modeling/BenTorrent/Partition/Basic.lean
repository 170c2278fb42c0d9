import Mathlib.Data.Finset.Basic

/-!
This module contains partitions of a finite set into three parts, through which the elements move
from the first to the last.
-/

structure TriPartition [DecidableEq α] (all waiting active finished : Finset α) : Prop where
  disjoint_waiting_active : Disjoint waiting active
  disjoint_waiting_finished : Disjoint waiting finished
  disjoint_active_finished : Disjoint active finished
  union_eq : waiting ∪ active ∪ finished = all

namespace TriPartition

variable [DecidableEq α] {all waiting active finished : Finset α}

theorem start_all (all : Finset α) : TriPartition all all ∅ ∅ := by
  constructor
  . apply Finset.disjoint_empty_right
  . apply Finset.disjoint_empty_right
  . apply Finset.disjoint_empty_right
  . simp

theorem mem_all (h : TriPartition all waiting active finished) {a : α}
    : a ∈ all ↔ a ∈ waiting ∨ a ∈ active ∨ a ∈ finished := by
  rw [← h.union_eq]
  simp

theorem start (h : TriPartition all waiting active finished) {a : α} (ha : a ∈ waiting ∪ active)
    : TriPartition all (waiting.erase a) (insert a active) finished := by
  obtain ⟨h1, h2, h3, h4⟩ := h
  rw [Finset.disjoint_left] at h1 h2 h3
  rw [Finset.mem_union] at ha
  constructor
  . rw [Finset.disjoint_left]
    grind
  . rw [Finset.disjoint_left]
    grind
  . rw [Finset.disjoint_left]
    grind
  . rw [← h4]
    grind

theorem rotate (h : TriPartition all waiting active finished)
    : TriPartition all active finished waiting := by
  constructor
  . exact h.disjoint_active_finished
  . exact h.disjoint_waiting_active.symm
  . exact h.disjoint_waiting_finished.symm
  . rw [← h.union_eq, Finset.union_assoc waiting, Finset.union_comm waiting]

theorem finish (h : TriPartition all waiting active finished) {a : α} (ha : a ∈ active ∪ finished)
    : TriPartition all waiting (active.erase a) (insert a finished) :=
  (h.rotate.start ha).rotate.rotate

theorem not_finish (h : TriPartition all waiting active finished) {a : α} (ha : a ∉ active ∪ finished)
    : ¬TriPartition all waiting (active.erase a) (insert a finished) := by
  intro h'
  rw [Finset.mem_union, not_or] at ha
  have hmem : a ∈ all := h'.mem_all.mpr (.inr (.inr (Finset.mem_insert_self a finished)))
  have hwaiting : a ∈ waiting := by
    have := h.mem_all.mp hmem
    grind
  apply Finset.disjoint_left.mp h'.disjoint_waiting_finished hwaiting (Finset.mem_insert_self a finished)

end TriPartition
