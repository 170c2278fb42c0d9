import Mathlib.Algebra.BigOperators.Group.Finset.Sigma
import Mathlib.Data.Finmap

/-!
This module contains finite maps whose values are finite maps, read and changed at a pair of keys.
-/

abbrev NestedMap (α : Type u) (β : Type v) (γ : Type w) :=
  Finmap fun _ : α => Finmap fun _ : β => γ

namespace NestedMap

variable [DecidableEq α] [DecidableEq β]

def lookupAt (m : NestedMap α β γ) (a : α) (b : β) : Option γ :=
  (m.lookup a).bind fun inner => inner.lookup b

def insertAt (m : NestedMap α β γ) (a : α) (b : β) (c : γ) : NestedMap α β γ :=
  m.insert a (((m.lookup a).getD ∅).insert b c)

def eraseAt (m : NestedMap α β γ) (a : α) (b : β) : NestedMap α β γ :=
  match m.lookup a with
  | none => m
  | some inner => m.insert a (inner.erase b)

def size (m : NestedMap α β γ) : Nat :=
  ∑ a ∈ m.keys, ((m.lookup a).getD ∅).keys.card

@[simp]
theorem lookupAt_empty (a : α) (b : β) : lookupAt (∅ : NestedMap α β γ) a b = none := by
  simp [lookupAt]

theorem mem_of_lookupAt {m : NestedMap α β γ} {a : α} {b : β} {c : γ}
    (h : m.lookupAt a b = some c)
    : a ∈ m := by
  unfold lookupAt at h
  rw [Option.bind_eq_some_iff] at h
  obtain ⟨inner, hinner, _⟩ := h
  apply Finmap.mem_of_lookup_eq_some hinner

theorem lookupAt_insertAt (m : NestedMap α β γ) (a a' : α) (b b' : β) (c : γ)
    : (m.insertAt a b c).lookupAt a' b'
        =
      if a' = a ∧ b' = b then some c else m.lookupAt a' b' := by
  unfold lookupAt insertAt
  by_cases ha : a' = a
  . subst ha
    rw [Finmap.lookup_insert]
    by_cases hb : b' = b
    . subst hb
      simp
    . cases hlookup : m.lookup a' with
      | none => simp [hb]
      | some inner => simp [hb]
  . rw [Finmap.lookup_insert_of_ne _ ha]
    simp [ha]

theorem lookupAt_eraseAt (m : NestedMap α β γ) (a a' : α) (b b' : β)
    : (m.eraseAt a b).lookupAt a' b'
        =
      if a' = a ∧ b' = b then none else m.lookupAt a' b' := by
  unfold eraseAt
  split
  . next hlookup =>
    unfold lookupAt
    by_cases ha : a' = a
    . subst ha
      simp [hlookup]
    . simp [ha]
  . next inner hlookup =>
    unfold lookupAt
    by_cases ha : a' = a
    . subst ha
      rw [Finmap.lookup_insert, hlookup]
      by_cases hb : b' = b
      . subst hb
        simp
      . simp [hb]
    . rw [Finmap.lookup_insert_of_ne _ ha]
      simp [ha]

theorem lookupAt_erase (m : NestedMap α β γ) (a a' : α) (b' : β)
    : lookupAt (m.erase a) a' b' = if a' = a then none else m.lookupAt a' b' := by
  unfold lookupAt
  by_cases ha : a' = a
  . subst ha
    simp
  . rw [Finmap.lookup_erase_ne ha, if_neg ha]

@[simp]
theorem keys_insertAt (m : NestedMap α β γ) (a : α) (b : β) (c : γ)
    : (m.insertAt a b c).keys = insert a m.keys := by
  ext a'
  simp [insertAt, Finmap.mem_keys]

@[simp]
theorem keys_eraseAt (m : NestedMap α β γ) (a : α) (b : β) : (m.eraseAt a b).keys = m.keys := by
  unfold eraseAt
  split
  . rfl
  . next hlookup =>
    have ha := Finmap.mem_of_lookup_eq_some hlookup
    ext a'
    simp only [Finmap.mem_keys, Finmap.mem_insert, or_iff_right_iff_imp]
    rintro rfl
    exact ha

theorem mem_keys_lookup_getD {m : NestedMap α β γ} {a : α} {b : β}
    : b ∈ ((m.lookup a).getD ∅).keys ↔ (m.lookupAt a b).isSome := by
  rw [Finmap.mem_keys]
  unfold lookupAt
  cases m.lookup a with
  | none => simpa using Finmap.notMem_empty
  | some inner => simp [Finmap.lookup_isSome]

def pairs (m : NestedMap α β γ) : Finset (Σ _ : α, β) :=
  m.keys.sigma fun a => ((m.lookup a).getD ∅).keys

theorem mem_pairs {m : NestedMap α β γ} {a : α} {b : β}
    : ⟨a, b⟩ ∈ m.pairs ↔ (m.lookupAt a b).isSome := by
  unfold pairs
  rw [Finset.mem_sigma, mem_keys_lookup_getD, and_iff_right_iff_imp]
  intro hsome
  obtain ⟨c, hc⟩ := Option.isSome_iff_exists.mp hsome
  exact Finmap.mem_keys.mpr (mem_of_lookupAt hc)

omit [DecidableEq β] in
theorem size_eq_card_pairs (m : NestedMap α β γ) : m.size = m.pairs.card :=
  (Finset.card_sigma _ _).symm

theorem pairs_insertAt (m : NestedMap α β γ) (a : α) (b : β) (c : γ)
    : (m.insertAt a b c).pairs = insert ⟨a, b⟩ m.pairs := by
  ext ⟨a', b'⟩
  rw [Finset.mem_insert, mem_pairs, mem_pairs, lookupAt_insertAt]
  split
  . next heq => simp [heq]
  . next hne => simpa using fun h1 h2 => absurd ⟨h1, h2⟩ hne

theorem size_insertAt {m : NestedMap α β γ} {a : α} {b : β} (h : m.lookupAt a b = none) (c : γ)
    : (m.insertAt a b c).size = m.size + 1 := by
  rw [size_eq_card_pairs, size_eq_card_pairs, pairs_insertAt, Finset.card_insert_of_notMem]
  rw [mem_pairs, h]
  simp

theorem size_insertAt_le (m : NestedMap α β γ) (a : α) (b : β) (c : γ)
    : (m.insertAt a b c).size ≤ m.size + 1 := by
  rw [size_eq_card_pairs, size_eq_card_pairs, pairs_insertAt]
  apply Finset.card_insert_le

theorem size_mono {m m' : NestedMap α β γ}
    (h : ∀ a b, (m'.lookupAt a b).isSome → (m.lookupAt a b).isSome)
    : m'.size ≤ m.size := by
  rw [size_eq_card_pairs, size_eq_card_pairs]
  apply Finset.card_le_card
  intro ⟨a, b⟩ hmem
  rw [mem_pairs] at hmem ⊢
  exact h a b hmem

theorem size_eq_zero_iff {m : NestedMap α β γ} : m.size = 0 ↔ ∀ a b, m.lookupAt a b = none := by
  rw [size_eq_card_pairs, Finset.card_eq_zero, Finset.eq_empty_iff_forall_notMem]
  constructor
  . intro h a b
    rw [← Option.not_isSome_iff_eq_none, ← mem_pairs]
    exact h ⟨a, b⟩
  . rintro h ⟨a, b⟩
    rw [mem_pairs, h]
    simp

theorem size_pos_iff {m : NestedMap α β γ} : 0 < m.size ↔ ∃ a b, (m.lookupAt a b).isSome := by
  rw [Nat.pos_iff_ne_zero, ne_eq, size_eq_zero_iff]
  simp only [Option.isSome_iff_ne_none, ne_eq, not_forall]

theorem size_insertAt_pos (m : NestedMap α β γ) (a : α) (b : β) (c : γ)
    : 0 < (m.insertAt a b c).size := by
  rw [size_pos_iff]
  refine ⟨a, b, ?_⟩
  rw [lookupAt_insertAt, if_pos ⟨rfl, rfl⟩]
  rfl

theorem insertAt_eraseAt {m : NestedMap α β γ} {a : α} {b : β} {c : γ} (h : m.lookupAt a b = some c)
    : (m.eraseAt a b).insertAt a b c = m := by
  unfold lookupAt at h
  rw [Option.bind_eq_some_iff] at h
  obtain ⟨inner, hinner, hlookup⟩ := h
  have hsame : (inner.erase b).insert b c = inner := by
    apply Finmap.ext_lookup
    intro b'
    by_cases hb : b' = b
    . subst hb
      rw [Finmap.lookup_insert, hlookup]
    . rw [Finmap.lookup_insert_of_ne _ hb, Finmap.lookup_erase_ne hb]
  unfold eraseAt
  rw [hinner]
  unfold insertAt
  dsimp only
  rw [Finmap.lookup_insert, Option.getD_some, hsame]
  apply Finmap.ext_lookup
  intro a'
  by_cases ha : a' = a
  . subst ha
    rw [Finmap.lookup_insert, hinner]
  . rw [Finmap.lookup_insert_of_ne _ ha, Finmap.lookup_insert_of_ne _ ha]

theorem size_eraseAt_pos {m : NestedMap α β γ} (hsize : 1 < m.size) (a : α) (b : β)
    : 0 < (m.eraseAt a b).size := by
  cases h : m.lookupAt a b with
  | none =>
    obtain ⟨a', b', hsome⟩ := size_pos_iff.mp (Nat.lt_trans Nat.zero_lt_one hsize)
    rw [size_pos_iff]
    refine ⟨a', b', ?_⟩
    rw [lookupAt_eraseAt, if_neg]
    . exact hsome
    . rintro ⟨rfl, rfl⟩
      rw [h] at hsome
      contradiction
  | some c =>
    have hnone : (m.eraseAt a b).lookupAt a b = none := by
      rw [lookupAt_eraseAt, if_pos ⟨rfl, rfl⟩]
    have hlen := size_insertAt hnone c
    rw [insertAt_eraseAt h] at hlen
    omega

end NestedMap
