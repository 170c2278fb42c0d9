import Mathlib.Tactic.Common

/-!
This module contains the lock of `tokio::sync::Mutex`, of the crate `tokio`. It is assumed, as
documented, that the lock is fair: as soon as its owner drops it, it is handed to the one that has
waited longest for it, before that one runs again.
-/

structure Mutex (ω : Type u) where
  owner : Option ω
  waiting : List ω
  waiting_eq_nil : owner = none → waiting = []
  deriving DecidableEq

namespace Mutex

variable {ω : Type u}

def new : Mutex ω where
  owner := none
  waiting := []
  waiting_eq_nil := fun _ => rfl

def unlock (m : Mutex ω) : Mutex ω :=
  match m.waiting with
  | [] => new
  | w :: waiting => { owner := some w, waiting, waiting_eq_nil := by simp }

theorem unlock_of_waiting_eq_nil {m : Mutex ω} (h : m.waiting = []) : m.unlock = new := by
  unfold unlock
  rw [h]

variable [DecidableEq ω]

def lock (m : Mutex ω) (w : ω) : Bool × Mutex ω :=
  match howner : m.owner with
  | none => (true, { owner := some w, waiting := [], waiting_eq_nil := by simp })
  | some w' =>
    -- a lock that was handed over is taken like a free one
    if w' = w then
      (true, m)
    else if w ∈ m.waiting then
      (false, m)
    else
      (false, { m with waiting := m.waiting ++ [w], waiting_eq_nil := by simp [howner] })

theorem lock_eq_true {m m' : Mutex ω} {w : ω} (h : m.lock w = (true, m'))
    : m'.owner = some w ∧ m'.waiting = m.waiting ∧ (m.owner = none ∨ m.owner = some w) := by
  unfold lock at h
  split at h
  . next howner =>
    simp only [Prod.mk.injEq, true_and] at h
    subst h
    exact ⟨rfl, (m.waiting_eq_nil howner).symm, .inl howner⟩
  . next w' howner =>
    split at h
    . next heq =>
      simp only [Prod.mk.injEq, true_and] at h
      rw [← h, howner, heq]
      exact ⟨rfl, rfl, .inr rfl⟩
    . split at h
      . simp at h
      . simp at h

theorem lock_eq_false {m m' : Mutex ω} {w : ω} (h : m.lock w = (false, m'))
    : m'.owner = m.owner ∧ m'.waiting = (if w ∈ m.waiting then m.waiting else m.waiting ++ [w])
        ∧ ∃ w', m.owner = some w' ∧ w' ≠ w := by
  unfold lock at h
  split at h
  . simp at h
  . next w' howner =>
    split at h
    . simp at h
    . next hne =>
      split at h
      . next hmem =>
        simp only [Prod.mk.injEq, true_and] at h
        rw [← h, if_pos hmem]
        exact ⟨rfl, rfl, w', howner, hne⟩
      . next hmem =>
        simp only [Prod.mk.injEq, true_and] at h
        rw [← h, if_neg hmem]
        exact ⟨rfl, rfl, w', howner, hne⟩

end Mutex
