import Mathlib.Data.Finmap

/-!
This module contains the entries of a finite map that satisfy a predicate.
-/

namespace Finmap

variable {α : Type u} {β : Type v} [DecidableEq α]

def retain (p : α → β → Bool) (m : Finmap fun _ : α => β) : Finmap fun _ : α => β where
  entries := m.entries.filter fun e => p e.1 e.2
  nodupKeys := by
    have h := m.nodupKeys
    rw [← Multiset.nodup_keys] at h ⊢
    apply Multiset.nodup_of_le _ h
    apply Multiset.map_le_map
    apply Multiset.filter_le

theorem lookup_retain_eq_some {p : α → β → Bool} {m : Finmap fun _ : α => β} {a : α} {b : β}
    : (m.retain p).lookup a = some b ↔ m.lookup a = some b ∧ p a b = true := by
  rw [lookup_eq_some_iff, lookup_eq_some_iff]
  unfold retain
  rw [Multiset.mem_filter]

end Finmap
