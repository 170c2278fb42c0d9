import Mathlib.Data.Set.Lattice
import Mathlib.Order.CompletePartialOrder
import Mathlib.Order.Interval.Set.LinearOrder
import Mathlib.Data.List.Basic
import Mathlib.Tactic.Common

/-!
This module contains lists of half open ranges over a linear order: the positions they cover, the
lists that consist of the maximal runs of what they cover, and the insertion of a range that merges
it with the neighbours it touches.
-/

namespace Interval

variable [LinearOrder α]

def covered (l : List (α × α)) : Set α :=
  { x | ∃ s ∈ l, s.1 ≤ x ∧ x < s.2 }

def Starts (l : List (α × α)) : Prop :=
  l.Pairwise fun s1 s2 => s1.1 < s2.1

structure Runs (l : List (α × α)) : Prop where
  nonempty : ∀ s ∈ l, s.1 < s.2
  separated : l.Pairwise fun s1 s2 => s1.2 < s2.1

/--
The ways the insertion of `[lo, hi)` into ranges with ascending starts can go, read off the ranges
around it. Only the two neighbours are looked at, and the left one takes on the new end even where
it reached further.
-/
inductive Inserted (lo hi : α) : List (α × α) → List (α × α) → Prop where
  | grown {ls rs : List (α × α)} {e : α}
      : Inserted lo hi (ls ++ (lo, e) :: rs) (ls ++ (lo, max e hi) :: rs)
  | alone {ls rs : List (α × α)} (hls : ∀ s ∈ ls, s.1 < lo) (hrs : ∀ s ∈ rs, lo < s.1)
      (hleft : ∀ s, ls.getLast? = some s → s.2 < lo)
      (hright : ∀ s, rs.head? = some s → s.1 ≠ hi)
      : Inserted lo hi (ls ++ rs) (ls ++ (lo, hi) :: rs)
  | right {ls rs : List (α × α)} {e : α} (hls : ∀ s ∈ ls, s.1 < lo) (hlt : lo < hi)
      (hleft : ∀ s, ls.getLast? = some s → s.2 < lo)
      : Inserted lo hi (ls ++ (hi, e) :: rs) (ls ++ (lo, e) :: rs)
  | left {ls rs : List (α × α)} {s e : α} (hlt : s < lo) (hrs : ∀ s ∈ rs, lo < s.1)
      (hleft : lo ≤ e) (hright : ∀ s, rs.head? = some s → s.1 ≠ hi)
      : Inserted lo hi (ls ++ (s, e) :: rs) (ls ++ (s, hi) :: rs)
  | both {ls rs : List (α × α)} {s e1 e2 : α} (hlt1 : s < lo) (hlt2 : lo < hi) (hleft : lo ≤ e1)
      : Inserted lo hi (ls ++ (s, e1) :: (hi, e2) :: rs) (ls ++ (s, e2) :: rs)

@[simp]
theorem covered_nil : covered ([] : List (α × α)) = ∅ := by
  simp [covered]

@[simp]
theorem covered_cons (s : α × α) (l : List (α × α))
    : covered (s :: l) = Set.Ico s.1 s.2 ∪ covered l := by
  ext x
  simp [covered]

@[simp]
theorem covered_append (l1 l2 : List (α × α)) : covered (l1 ++ l2) = covered l1 ∪ covered l2 := by
  induction l1 with
  | nil => simp
  | cons s l1 ih => simp [ih, Set.union_assoc]

theorem runs_nil : Runs ([] : List (α × α)) :=
  ⟨by simp, .nil⟩

theorem runs_cons {s : α × α} {l : List (α × α)}
    : Runs (s :: l) ↔ s.1 < s.2 ∧ (∀ s' ∈ l, s.2 < s'.1) ∧ Runs l := by
  constructor
  . intro ⟨hne, hsep⟩
    rw [List.pairwise_cons] at hsep
    exact ⟨hne s (by simp), hsep.1, fun s' hs' => hne s' (by simp [hs']), hsep.2⟩
  . intro ⟨hs, hlt, hne, hsep⟩
    refine ⟨?_, List.pairwise_cons.mpr ⟨hlt, hsep⟩⟩
    simp only [List.mem_cons, forall_eq_or_imp]
    exact ⟨hs, hne⟩

theorem runs_append {l1 l2 : List (α × α)}
    : Runs (l1 ++ l2) ↔ Runs l1 ∧ Runs l2 ∧ ∀ s1 ∈ l1, ∀ s2 ∈ l2, s1.2 < s2.1 := by
  induction l1 with
  | nil => simp [runs_nil]
  | cons s l1 ih =>
    rw [List.cons_append, runs_cons, runs_cons, ih]
    simp only [List.mem_append, List.mem_cons, forall_eq_or_imp]
    constructor
    . intro ⟨h1, h2, h3, h4, h5⟩
      exact ⟨⟨h1, fun s' hs' => h2 s' (.inl hs'), h3⟩, h4, fun s' hs' => h2 s' (.inr hs'), h5⟩
    . intro ⟨⟨h1, h2, h3⟩, h4, h5, h6⟩
      exact ⟨h1, fun s' hs' => hs'.elim (h2 s') (h5 s'), h3, h4, h6⟩

-- `s` is nonempty, so what lies before it is apart from what lies behind it
theorem runs_append_cons {l1 l2 : List (α × α)} {s : α × α}
    : Runs (l1 ++ s :: l2)
        ↔
      Runs l1 ∧ s.1 < s.2 ∧ Runs l2 ∧ (∀ s1 ∈ l1, s1.2 < s.1) ∧ ∀ s2 ∈ l2, s.2 < s2.1 := by
  rw [runs_append, runs_cons]
  constructor
  . intro ⟨h1, ⟨h2, h3, h4⟩, h5⟩
    exact ⟨h1, h2, h4, fun s1 hs1 => h5 s1 hs1 s (by simp), h3⟩
  . intro ⟨h1, h2, h3, h4, h5⟩
    refine ⟨h1, ⟨h2, h5, h3⟩, ?_⟩
    intro s1 hs1
    rw [List.forall_mem_cons]
    exact ⟨h4 s1 hs1, fun s2 hs2 => lt_trans (lt_trans (h4 s1 hs1) h2) (h5 s2 hs2)⟩

theorem Runs.starts {l : List (α × α)} (h : Runs l) : Starts l := by
  refine h.separated.imp_of_mem ?_
  intro s1 s2 hs1 _ hlt
  apply lt_trans (h.nonempty s1 hs1) hlt

theorem Runs.lt_of_getLast? {l : List (α × α)} {x : α} (h : Runs l)
    (hlast : ∀ s, l.getLast? = some s → s.2 < x)
    : ∀ s ∈ l, s.2 < x := by
  rcases List.eq_nil_or_concat l with rfl | ⟨l, s', rfl⟩
  . simp
  . rw [List.concat_eq_append] at h hlast ⊢
    have hlt : s'.2 < x := hlast s' (by simp)
    have hs' : s'.1 < s'.2 := h.nonempty s' (by simp)
    rw [runs_append] at h
    simp only [List.mem_append, List.mem_singleton, or_imp, forall_and, forall_eq]
    refine ⟨?_, hlt⟩
    intro s hs
    apply lt_trans (lt_trans (h.2.2 s hs s' (by simp)) hs') hlt

theorem Runs.lt_of_head? {l : List (α × α)} {x : α} (h : Runs l)
    (hhead : ∀ s, l.head? = some s → x < s.1)
    : ∀ s ∈ l, x < s.1 := by
  cases l with
  | nil => simp
  | cons s l =>
    have hlt : x < s.1 := hhead s (by simp)
    rw [runs_cons] at h
    simp only [List.mem_cons, forall_eq_or_imp]
    refine ⟨hlt, ?_⟩
    intro s' hs'
    apply lt_trans hlt (lt_trans h.1 (h.2.1 s' hs'))

theorem starts_append_cons {l1 l2 : List (α × α)} {s : α × α}
    : Starts (l1 ++ s :: l2)
        ↔
      Starts l1 ∧ Starts l2 ∧ (∀ s1 ∈ l1, s1.1 < s.1) ∧ ∀ s2 ∈ l2, s.1 < s2.1 := by
  unfold Starts
  rw [List.pairwise_append, List.pairwise_cons]
  constructor
  . intro ⟨h1, ⟨h2, h3⟩, h4⟩
    exact ⟨h1, h3, fun s1 hs1 => h4 s1 hs1 s (by simp), h2⟩
  . intro ⟨h1, h2, h3, h4⟩
    refine ⟨h1, ⟨h4, h2⟩, ?_⟩
    intro s1 hs1
    rw [List.forall_mem_cons]
    exact ⟨h3 s1 hs1, fun s2 hs2 => lt_trans (h3 s1 hs1) (h4 s2 hs2)⟩

theorem Inserted.starts {lo hi : α} {l l' : List (α × α)} (h : Inserted lo hi l l') (hl : Starts l)
    : Starts l' := by
  cases h with
  | grown =>
    rw [starts_append_cons] at hl ⊢
    exact hl
  | alone hls hrs =>
    unfold Starts at hl
    rw [List.pairwise_append] at hl
    rw [starts_append_cons]
    exact ⟨hl.1, hl.2.1, hls, hrs⟩
  | right hls hlt =>
    rw [starts_append_cons] at hl ⊢
    obtain ⟨h1, h2, _, h4⟩ := hl
    exact ⟨h1, h2, hls, fun s hs => lt_trans hlt (h4 s hs)⟩
  | left =>
    rw [starts_append_cons] at hl ⊢
    exact hl
  | both =>
    rw [starts_append_cons] at hl ⊢
    obtain ⟨h1, h2, h3, h4⟩ := hl
    exact ⟨h1, h2.of_cons, h3, fun s hs => h4 s (List.mem_cons_of_mem _ hs)⟩

def Fits (lo hi : α) (s : α × α) : Prop :=
  s.2 ≤ lo ∨ hi ≤ s.1 ∨ (s.1 = lo ∧ hi ≤ s.2) ∨ (s.1 < lo ∧ s.2 ≤ hi)

theorem Runs.fits_of_disjoint {lo hi : α} {l : List (α × α)} (hl : Runs l) (hlt : lo < hi)
    (hdisj : Disjoint (covered l) (Set.Ico lo hi))
    : ∀ s ∈ l, Fits lo hi s := by
  intro s hs
  have hne := hl.nonempty s hs
  by_cases h1 : s.2 ≤ lo
  . exact .inl h1
  by_cases h2 : hi ≤ s.1
  . exact .inr (.inl h2)
  rw [not_le] at h1 h2
  -- the later of the two beginnings lies in both
  have hmem : max lo s.1 ∈ covered l := ⟨s, hs, le_max_right _ _, max_lt h1 hne⟩
  have hmem' : max lo s.1 ∈ Set.Ico lo hi := ⟨le_max_left _ _, max_lt hlt h2⟩
  exact absurd hmem' (Set.disjoint_left.mp hdisj hmem)

-- where a range begins after `lo` and does not touch `hi`, fitting leaves only that it is apart
theorem Runs.lt_of_fits {lo hi : α} {l : List (α × α)} (hl : Runs l) (hfits : ∀ s ∈ l, Fits lo hi s)
    (hlo : ∀ s ∈ l, lo < s.1) (hhead : ∀ s, l.head? = some s → s.1 ≠ hi)
    : ∀ s ∈ l, hi < s.1 := by
  apply hl.lt_of_head?
  intro s hs
  have hmem : s ∈ l := List.mem_of_head? hs
  have hne := hl.nonempty s hmem
  have hfit := hfits s hmem
  have h1 := hlo s hmem
  have h2 := hhead s hs
  unfold Fits at hfit
  grind

theorem Inserted.runs {lo hi : α} {l l' : List (α × α)} (h : Inserted lo hi l l') (hlt : lo < hi)
    (hl : Runs l) (hfits : ∀ s ∈ l, Fits lo hi s)
    : Runs l' ∧ covered l' = covered l ∪ Set.Ico lo hi := by
  cases h with
  | @grown ls rs e =>
    have hfit := hfits (lo, e) (by simp)
    have hne := hl.nonempty (lo, e) (by simp)
    have hle : hi ≤ e := by
      unfold Fits at hfit
      grind
    rw [max_eq_left hle]
    refine ⟨hl, ?_⟩
    have hsub : Set.Ico lo hi ⊆ Set.Ico lo e := Set.Ico_subset_Ico_right hle
    simp only [covered_append, covered_cons]
    grind
  | @alone ls rs hls hrs hleft hright =>
    rw [runs_append] at hl
    obtain ⟨h1, h2, _⟩ := hl
    have hlt1 := h1.lt_of_getLast? hleft
    have hlt2 := h2.lt_of_fits (fun s hs => hfits s (by simp [hs])) hrs hright
    constructor
    . rw [runs_append_cons]
      exact ⟨h1, hlt, h2, hlt1, hlt2⟩
    . simp only [covered_append, covered_cons]
      grind
  | @right ls rs e hls _ hleft =>
    rw [runs_append_cons] at hl
    obtain ⟨h1, hne, h2, _, h3⟩ := hl
    constructor
    . rw [runs_append_cons]
      exact ⟨h1, lt_trans hlt hne, h2, h1.lt_of_getLast? hleft, h3⟩
    . simp only [covered_append, covered_cons]
      rw [← Set.Ico_union_Ico_eq_Ico (le_of_lt hlt) (le_of_lt hne)]
      grind
  | @left ls rs s e hlt' hrs hleft hright =>
    have hfit := hfits (s, e) (by simp)
    rw [runs_append_cons] at hl
    obtain ⟨h1, hne, h2, hlt1, _⟩ := hl
    have hlt2 := h2.lt_of_fits (fun s hs => hfits s (by simp [hs])) hrs hright
    constructor
    . rw [runs_append_cons]
      exact ⟨h1, lt_trans hlt' hlt, h2, hlt1, hlt2⟩
    . have hco : Set.Ico s hi = Set.Ico s e ∪ Set.Ico lo hi := by
        ext x
        unfold Fits at hfit
        simp only [Set.mem_union, Set.mem_Ico]
        grind
      simp only [covered_append, covered_cons, hco]
      grind
  | @both ls rs s e1 e2 hlt1 _ hleft =>
    rw [runs_append_cons, runs_cons] at hl
    obtain ⟨h1, hne1, ⟨hne2, h3, h2⟩, h4, h5⟩ := hl
    have hlt2 : e1 < hi := h5 (hi, e2) (by simp)
    constructor
    . rw [runs_append_cons]
      exact ⟨h1, lt_trans (lt_trans hne1 hlt2) hne2, h2, h4, h3⟩
    . have hco : Set.Ico s e2 = Set.Ico s e1 ∪ Set.Ico lo hi ∪ Set.Ico hi e2 := by
        ext x
        simp only [Set.mem_union, Set.mem_Ico]
        grind
      simp only [covered_append, covered_cons, hco]
      grind

theorem Runs.eq_singleton {lo hi : α} {l : List (α × α)} (hl : Runs l) (hlt : lo < hi)
    (hcov : covered l = Set.Ico lo hi)
    : l = [(lo, hi)] := by
  cases l with
  | nil =>
    rw [covered_nil] at hcov
    have := Set.nonempty_Ico.mpr hlt
    simp [← hcov] at this
  | cons s l =>
    rw [runs_cons] at hl
    have hmem : ∀ x, (∃ s' ∈ s :: l, s'.1 ≤ x ∧ x < s'.2) ↔ lo ≤ x ∧ x < hi := by
      intro x
      rw [← Set.mem_Ico, ← hcov]
      rfl
    have hs := (hmem s.1).mp ⟨s, by simp, le_refl _, hl.1⟩
    have hstart : s.1 = lo := by
      obtain ⟨s', hs', hle, _⟩ := (hmem lo).mpr ⟨le_refl _, hlt⟩
      rw [List.mem_cons] at hs'
      cases hs' with
      | inl hs' =>
        subst hs'
        apply le_antisymm hle hs.1
      | inr hs' =>
        have := hl.2.1 s' hs'
        exact absurd (lt_of_lt_of_le (lt_trans hl.1 this) hle) (not_lt.mpr hs.1)
    have hend : hi ≤ s.2 := by
      by_contra hlt2
      rw [not_le] at hlt2
      obtain ⟨s', hs', hle, hlt3⟩ := (hmem s.2).mpr ⟨le_trans hs.1 (le_of_lt hl.1), hlt2⟩
      rw [List.mem_cons] at hs'
      cases hs' with
      | inl hs' =>
        subst hs'
        apply lt_irrefl _ hlt3
      | inr hs' => exact absurd (hl.2.1 s' hs') (not_lt.mpr hle)
    have hnil : l = [] := by
      rw [List.eq_nil_iff_forall_not_mem]
      intro s' hs'
      have hlt2 := hl.2.1 s' hs'
      have hin := (hmem s'.1).mp ⟨s', by simp [hs'], le_refl _, hl.2.2.nonempty s' hs'⟩
      exact absurd (lt_of_le_of_lt hend hlt2) (not_lt.mpr (le_of_lt hin.2))
    subst hnil
    have hend' : s.2 ≤ hi := by
      by_contra hlt2
      rw [not_le] at hlt2
      have := (hmem hi).mp ⟨s, by simp, by rw [hstart]; exact le_of_lt hlt, hlt2⟩
      apply lt_irrefl _ this.2
    rw [← hstart, ← le_antisymm hend' hend]

end Interval
