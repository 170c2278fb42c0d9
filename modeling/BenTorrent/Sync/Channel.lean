import Mathlib.Data.List.Nodup
import Mathlib.Tactic.Common

/-!
This module contains the bounded channels of `tokio::sync::mpsc`, of the crate `tokio`. It is assumed,
as documented, that messages come out in the order in which they went in, that a send waits while the
channel is full, and that the senders take turns: a slot that the receiver frees goes to the sender
that has waited longest, before that one runs again.
-/

structure Channel (ω : Type u) (μ : Type v) where
  capacity : Nat
  msgs : List μ
  -- the senders that were handed a slot and have not filled it yet
  granted : List ω
  waiting : List ω
  taken_le : msgs.length + granted.length ≤ capacity
  full_of_waiting : waiting ≠ [] → msgs.length + granted.length = capacity
  nodup : (granted ++ waiting).Nodup
  deriving DecidableEq

namespace Channel

variable {ω : Type u} {μ : Type v}

def new (capacity : Nat) : Channel ω μ where
  capacity := capacity
  msgs := []
  granted := []
  waiting := []
  taken_le := Nat.zero_le _
  full_of_waiting := fun h => absurd rfl h
  nodup := List.nodup_nil

def senders (ch : Channel ω μ) : List ω :=
  ch.granted ++ ch.waiting

/--
Whether a sender that comes now finds a slot that is neither full nor handed out.
-/
def HasSlot (ch : Channel ω μ) : Prop :=
  ch.msgs.length + ch.granted.length < ch.capacity

instance (ch : Channel ω μ) : Decidable ch.HasSlot :=
  inferInstanceAs (Decidable (_ < _))

theorem waiting_eq_nil {ch : Channel ω μ} (h : ch.HasSlot) : ch.waiting = [] := by
  by_contra hne
  have := ch.full_of_waiting hne
  unfold HasSlot at h
  omega

def recv (ch : Channel ω μ) : Option (μ × Channel ω μ) :=
  match hmsgs : ch.msgs with
  | [] => none
  | msg :: msgs =>
    have htaken : msgs.length + 1 + ch.granted.length ≤ ch.capacity := by
      have := ch.taken_le
      rwa [hmsgs, List.length_cons] at this
    match hwaiting : ch.waiting with
    | [] =>
      some (msg, { ch with
        msgs
        taken_le := by omega
        full_of_waiting := fun hne => absurd hwaiting hne })
    | w :: waiting =>
      have hfull : msgs.length + 1 + ch.granted.length = ch.capacity := by
        have := ch.full_of_waiting (by simp [hwaiting])
        rwa [hmsgs, List.length_cons] at this
      some (msg, { ch with
        msgs
        granted := ch.granted ++ [w]
        waiting
        taken_le := by
          rw [List.length_append, List.length_singleton]
          omega
        full_of_waiting := by
          rw [List.length_append, List.length_singleton]
          omega
        nodup := by
          rw [List.append_assoc, List.singleton_append, ← hwaiting]
          exact ch.nodup })

theorem recv_eq_some {ch ch' : Channel ω μ} {msg : μ} (h : ch.recv = some (msg, ch'))
    : ch'.capacity = ch.capacity ∧ ch.msgs = msg :: ch'.msgs ∧ ch'.senders = ch.senders
        ∧ ch'.waiting ⊆ ch.waiting := by
  unfold recv at h
  split at h
  . contradiction
  . next hmsgs =>
    split at h
    . simp only [Option.some.injEq, Prod.mk.injEq] at h
      obtain ⟨rfl, rfl⟩ := h
      exact ⟨rfl, hmsgs, rfl, List.Subset.refl _⟩
    . next w waiting hwaiting =>
      simp only [Option.some.injEq, Prod.mk.injEq] at h
      obtain ⟨rfl, rfl⟩ := h
      refine ⟨rfl, hmsgs, ?_, ?_⟩
      . unfold senders
        dsimp only
        rw [hwaiting, List.append_assoc, List.singleton_append]
      . dsimp only
        rw [hwaiting]
        exact List.subset_cons_self w waiting

theorem recv_eq_none_iff {ch : Channel ω μ} : ch.recv = none ↔ ch.msgs = [] := by
  unfold recv
  split
  . next hmsgs => simp [hmsgs]
  . next hmsgs =>
    have hne : ch.msgs ≠ [] := by simp [hmsgs]
    dsimp only
    split
    . simp [hne]
    . simp [hne]

/--
The messages that are in the channel or on their way into it.
-/
def load (ch : Channel ω μ) : Nat :=
  ch.msgs.length + ch.senders.length

theorem load_recv {ch ch' : Channel ω μ} {msg : μ} (h : ch.recv = some (msg, ch'))
    : ch.load = ch'.load + 1 := by
  obtain ⟨_, hmsgs, hsenders, _⟩ := recv_eq_some h
  unfold load
  rw [hmsgs, hsenders, List.length_cons]
  omega

variable [DecidableEq ω]

theorem length_append_erase {ch : Channel ω μ} {w : ω} (h : w ∈ ch.granted) (msg : μ)
    : (ch.msgs ++ [msg]).length + (ch.granted.erase w).length
        =
      ch.msgs.length + ch.granted.length := by
  have := List.length_pos_of_mem h
  rw [List.length_append, List.length_singleton, List.length_erase_of_mem h]
  omega

def send (ch : Channel ω μ) (w : ω) (msg : μ) : Bool × Channel ω μ :=
  if hgranted : w ∈ ch.granted then
    (true, { ch with
      msgs := ch.msgs ++ [msg]
      granted := ch.granted.erase w
      taken_le := by
        rw [length_append_erase hgranted]
        exact ch.taken_le
      full_of_waiting := by
        rw [length_append_erase hgranted]
        exact ch.full_of_waiting
      nodup := by
        rw [← List.erase_append_left _ hgranted]
        exact ch.nodup.erase w })
  else if hslot : ch.HasSlot then
    (true, { ch with
      msgs := ch.msgs ++ [msg]
      taken_le := by
        unfold HasSlot at hslot
        rw [List.length_append, List.length_singleton]
        omega
      full_of_waiting := fun hne => absurd (waiting_eq_nil hslot) hne })
  else if hwaiting : w ∈ ch.waiting then
    (false, ch)
  else
    (false, { ch with
      waiting := ch.waiting ++ [w]
      full_of_waiting := by
        intro _
        have := ch.taken_le
        unfold HasSlot at hslot
        omega
      nodup := by
        rw [← List.append_assoc, ← List.concat_eq_append, List.nodup_concat, List.mem_append]
        exact ⟨by tauto, ch.nodup⟩ })

theorem send_of_mem_waiting {ch : Channel ω μ} {w : ω} (h : w ∈ ch.waiting) (msg : μ)
    : ch.send w msg = (false, ch) := by
  have hgranted : w ∉ ch.granted := by
    intro hmem
    exact List.disjoint_of_nodup_append ch.nodup hmem h
  have hslot : ¬ch.HasSlot := by
    intro hslot
    rw [waiting_eq_nil hslot] at h
    contradiction
  unfold send
  rw [dif_neg hgranted, dif_neg hslot, dif_pos h]

theorem send_eq_true {ch ch' : Channel ω μ} {w : ω} {msg : μ} (h : ch.send w msg = (true, ch'))
    : ch'.capacity = ch.capacity ∧ ch'.msgs = ch.msgs ++ [msg]
        ∧ ch'.senders = ch.senders.erase w ∧ ch'.waiting = ch.waiting
        ∧ (w ∈ ch.granted ∨ ch.HasSlot) := by
  unfold send at h
  split at h
  . next hgranted =>
    simp only [Prod.mk.injEq, true_and] at h
    subst h
    refine ⟨rfl, rfl, ?_, rfl, .inl hgranted⟩
    unfold senders
    rw [List.erase_append_left _ hgranted]
  . next hgranted =>
    split at h
    . next hslot =>
      simp only [Prod.mk.injEq, true_and] at h
      subst h
      refine ⟨rfl, rfl, ?_, rfl, .inr hslot⟩
      unfold senders
      dsimp only
      rw [waiting_eq_nil hslot, List.append_nil, List.erase_of_not_mem hgranted]
    . split at h
      . simp at h
      . simp at h

theorem send_eq_false {ch ch' : Channel ω μ} {w : ω} {msg : μ} (h : ch.send w msg = (false, ch'))
    : ch'.capacity = ch.capacity ∧ ch'.msgs = ch.msgs
        ∧ ch'.senders = (if w ∈ ch.senders then ch.senders else ch.senders ++ [w])
        ∧ ch'.granted = ch.granted
        ∧ w ∈ ch'.waiting ∧ w ∉ ch.granted ∧ ¬ch.HasSlot := by
  unfold send at h
  split at h
  . simp at h
  . next hgranted =>
    split at h
    . simp at h
    . next hslot =>
      split at h
      . next hwaiting =>
        simp only [Prod.mk.injEq, true_and] at h
        subst h
        refine ⟨rfl, rfl, ?_, rfl, hwaiting, hgranted, hslot⟩
        have hmem : w ∈ ch.senders := List.mem_append_right _ hwaiting
        rw [if_pos hmem]
      . next hwaiting =>
        simp only [Prod.mk.injEq, true_and] at h
        subst h
        refine ⟨rfl, rfl, ?_, rfl, by simp, hgranted, hslot⟩
        unfold senders
        rw [if_neg, List.append_assoc]
        rw [List.mem_append]
        tauto

theorem mem_senders_of_send_eq_true {ch ch' : Channel ω μ} {w w' : ω} {msg : μ}
    (h : ch.send w msg = (true, ch'))
    : w' ∈ ch'.senders ↔ w' ≠ w ∧ w' ∈ ch.senders := by
  obtain ⟨_, _, hsenders, _⟩ := send_eq_true h
  have hnodup : ch.senders.Nodup := ch.nodup
  rw [hsenders, hnodup.mem_erase_iff]

theorem mem_senders_of_send_eq_false {ch ch' : Channel ω μ} {w w' : ω} {msg : μ}
    (h : ch.send w msg = (false, ch'))
    : w' ∈ ch'.senders ↔ w' = w ∨ w' ∈ ch.senders := by
  obtain ⟨_, _, hsenders, _⟩ := send_eq_false h
  rw [hsenders]
  split
  . next hmem =>
    constructor
    . exact .inr
    . rintro (rfl | h)
      . exact hmem
      . exact h
  . rw [List.mem_append, List.mem_singleton, or_comm]

theorem load_send (ch : Channel ω μ) (w : ω) (msg : μ)
    : (ch.send w msg).2.load = if w ∈ ch.senders then ch.load else ch.load + 1 := by
  obtain ⟨sent, ch', h⟩ : ∃ sent ch', ch.send w msg = (sent, ch') := ⟨_, _, rfl⟩
  rw [h]
  unfold load
  cases sent with
  | true =>
    obtain ⟨_, hmsgs, hsenders, _⟩ := send_eq_true h
    rw [hmsgs, hsenders, List.length_append, List.length_singleton]
    split
    . next hmem =>
      have := List.length_pos_of_mem hmem
      rw [List.length_erase_of_mem hmem]
      omega
    . next hmem =>
      rw [List.erase_of_not_mem hmem]
      omega
  | false =>
    obtain ⟨_, hmsgs, hsenders, _⟩ := send_eq_false h
    rw [hmsgs, hsenders]
    split
    . rfl
    . rw [List.length_append, List.length_singleton]
      omega

end Channel
