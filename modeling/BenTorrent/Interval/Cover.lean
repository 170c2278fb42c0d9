import BenTorrent.Interval.Runs
import Mathlib.Data.List.Pairwise
import Mathlib.Order.MinMax

/-!
This module contains what the insertion of a range does to the positions that are covered, and that
a list of runs is known by what it covers.
-/

namespace Interval

variable [LinearOrder α]

theorem mem_covered {l : List (α × α)} {x : α} : x ∈ covered l ↔ ∃ s ∈ l, s.1 ≤ x ∧ x < s.2 := by
  rfl

section Runs

/--
A range inside of `C` that lies in no longer one.
-/
def IsRun (C : Set α) (s : α × α) : Prop :=
  s.1 < s.2 ∧ Set.Ico s.1 s.2 ⊆ C
    ∧ ∀ lo hi, lo ≤ s.1 → s.2 ≤ hi → Set.Ico lo hi ⊆ C → lo = s.1 ∧ hi = s.2

theorem Runs.eq_or_lt {l : List (α × α)} (hl : Runs l) {s1 s2 : α × α} (hs1 : s1 ∈ l)
    (hs2 : s2 ∈ l)
    : s1 = s2 ∨ s1.2 < s2.1 ∨ s2.2 < s1.1 := by
  by_cases heq : s1 = s2
  . exact .inl heq
  . right
    have hsep : l.Pairwise fun s1 s2 => s1.2 < s2.1 ∨ s2.2 < s1.1 := hl.separated.imp .inl
    have hsymm : Std.Symm fun s1 s2 : α × α => s1.2 < s2.1 ∨ s2.2 < s1.1 :=
      ⟨fun _ _ h => h.symm⟩
    exact hsep.forall hs1 hs2 heq

theorem Runs.end_not_mem {l : List (α × α)} (hl : Runs l) {s : α × α} (hs : s ∈ l)
    : s.2 ∉ covered l := by
  intro ⟨t, ht, hle, hlt⟩
  have h1 := hl.nonempty s hs
  have h2 := hl.nonempty t ht
  rcases hl.eq_or_lt hs ht with rfl | h | h
  . exact lt_irrefl _ hlt
  . exact absurd (lt_of_lt_of_le h hle) (lt_irrefl _)
  . exact absurd (lt_trans hlt (lt_trans h h1)) (lt_irrefl _)

theorem Runs.isRun {l : List (α × α)} (hl : Runs l) {s : α × α} (hs : s ∈ l)
    : IsRun (covered l) s := by
  have hne := hl.nonempty s hs
  refine ⟨hne, fun x hx => ⟨s, hs, hx.1, hx.2⟩, ?_⟩
  intro lo hi hlo hhi hsub
  constructor
  . by_contra hlt
    have hlt : lo < s.1 := lt_of_le_of_ne hlo hlt
    -- the range that `lo` lies in ends before `s` begins, at a position that is not covered
    obtain ⟨t, ht, hle, hlt'⟩ := hsub ⟨le_refl lo, lt_of_lt_of_le (lt_trans hlt hne) hhi⟩
    have hend := hl.end_not_mem ht
    rcases hl.eq_or_lt hs ht with rfl | h | h
    . exact absurd (lt_of_lt_of_le hlt hle) (lt_irrefl _)
    . exact absurd (lt_trans (lt_of_lt_of_le (lt_trans hne h) hle) hlt) (lt_irrefl _)
    . exact hend (hsub ⟨le_of_lt hlt', lt_of_lt_of_le (lt_trans h hne) hhi⟩)
  . by_contra hlt
    have hlt : s.2 < hi := lt_of_le_of_ne hhi fun h => hlt h.symm
    exact hl.end_not_mem hs (hsub ⟨le_trans hlo (le_of_lt hne), hlt⟩)

theorem Runs.mem_iff_isRun {l : List (α × α)} (hl : Runs l) {s : α × α}
    : s ∈ l ↔ IsRun (covered l) s := by
  constructor
  . exact hl.isRun
  . intro ⟨hne, hsub, hmax⟩
    obtain ⟨t, ht, hle, hlt⟩ := hsub ⟨le_refl s.1, hne⟩
    have hend : s.2 ≤ t.2 := by
      by_contra hlt'
      rw [not_le] at hlt'
      exact hl.end_not_mem ht (hsub ⟨le_of_lt hlt, hlt'⟩)
    obtain ⟨h1, h2⟩ := hmax t.1 t.2 hle hend fun x hx => ⟨t, ht, hx.1, hx.2⟩
    rwa [show s = t from Prod.ext h1.symm h2.symm]

theorem Starts.eq_of_mem_iff {l l' : List (α × α)} (hl : Starts l) (hl' : Starts l')
    (hmem : ∀ s, s ∈ l ↔ s ∈ l')
    : l = l' := by
  have hnodup : ∀ {l : List (α × α)}, Starts l → l.Nodup := fun h => h.imp fun hlt heq => by
    rw [heq] at hlt
    exact lt_irrefl _ hlt
  have hperm := (List.perm_ext_iff_of_nodup (hnodup hl) (hnodup hl')).mpr hmem
  refine hperm.eq_of_pairwise ?_ hl hl'
  intro s1 s2 _ _ h12 h21
  exact absurd (lt_trans h12 h21) (lt_irrefl _)

theorem Runs.eq_of_covered_eq {l l' : List (α × α)} (hl : Runs l) (hl' : Runs l')
    (hcov : covered l = covered l')
    : l = l' := by
  apply hl.starts.eq_of_mem_iff hl'.starts
  intro s
  rw [hl.mem_iff_isRun, hl'.mem_iff_isRun, hcov]

end Runs

section Inserted

variable {lo hi : α} {l l' : List (α × α)}

theorem Inserted.start_le_end (h : Inserted lo hi l l') (hle : lo ≤ hi)
    (hl : ∀ s ∈ l, s.1 ≤ s.2)
    : ∀ s ∈ l', s.1 ≤ s.2 := by
  cases h with
  | grown =>
    simp only [List.forall_mem_append, List.forall_mem_cons] at hl ⊢
    exact ⟨hl.1, le_trans hle (le_max_right _ _), hl.2.2⟩
  | alone =>
    simp only [List.forall_mem_append, List.forall_mem_cons] at hl ⊢
    exact ⟨hl.1, hle, hl.2⟩
  | right _ hlt =>
    simp only [List.forall_mem_append, List.forall_mem_cons] at hl ⊢
    exact ⟨hl.1, le_trans (le_of_lt hlt) hl.2.1, hl.2.2⟩
  | left hlt =>
    simp only [List.forall_mem_append, List.forall_mem_cons] at hl ⊢
    exact ⟨hl.1, le_trans (le_of_lt hlt) hle, hl.2.2⟩
  | both hlt1 hlt2 =>
    simp only [List.forall_mem_append, List.forall_mem_cons] at hl ⊢
    exact ⟨hl.1, le_trans (le_of_lt (lt_trans hlt1 hlt2)) hl.2.2.1, hl.2.2.2⟩

theorem Inserted.end_le {bound : α} (h : Inserted lo hi l l') (hle : hi ≤ bound)
    (hl : ∀ s ∈ l, s.2 ≤ bound)
    : ∀ s ∈ l', s.2 ≤ bound := by
  cases h with
  | grown =>
    simp only [List.forall_mem_append, List.forall_mem_cons] at hl ⊢
    exact ⟨hl.1, max_le hl.2.1 hle, hl.2.2⟩
  | alone =>
    simp only [List.forall_mem_append, List.forall_mem_cons] at hl ⊢
    exact ⟨hl.1, hle, hl.2⟩
  | right => simpa only [List.forall_mem_append, List.forall_mem_cons] using hl
  | left =>
    simp only [List.forall_mem_append, List.forall_mem_cons] at hl ⊢
    exact ⟨hl.1, hle, hl.2.2⟩
  | both =>
    simp only [List.forall_mem_append, List.forall_mem_cons] at hl ⊢
    exact ⟨hl.1, hl.2.2.1, hl.2.2.2⟩

theorem Inserted.covered_subset (h : Inserted lo hi l l')
    : covered l' ⊆ covered l ∪ Set.Ico lo hi := by
  cases h with
  | grown =>
    simp only [covered_append, covered_cons]
    intro x hx
    simp only [Set.mem_union, Set.mem_Ico, lt_max_iff] at hx ⊢
    grind
  | alone =>
    simp only [covered_append, covered_cons]
    grind
  | right _ hlt =>
    simp only [covered_append, covered_cons]
    intro x hx
    simp only [Set.mem_union, Set.mem_Ico] at hx ⊢
    grind
  | left hlt _ hleft =>
    simp only [covered_append, covered_cons]
    intro x hx
    simp only [Set.mem_union, Set.mem_Ico] at hx ⊢
    grind
  | both hlt1 hlt2 hleft =>
    simp only [covered_append, covered_cons]
    intro x hx
    simp only [Set.mem_union, Set.mem_Ico] at hx ⊢
    grind

/--
Where the range before `lo` reaches it, that range has no position behind `hi` for itself.
-/
def Keeps (lo hi : α) (l : List (α × α)) : Prop :=
  ∀ s ∈ l, s.1 < lo → lo ≤ s.2 → (∀ t ∈ l, t.1 ≤ s.1 ∨ lo < t.1) →
    ∀ x, hi ≤ x → x < s.2 → ∃ t ∈ l, t ≠ s ∧ t.1 ≤ x ∧ x < t.2

theorem Starts.ne_of_mem {ls rs : List (α × α)} {s t : α × α} (h : Starts (ls ++ s :: rs))
    (ht : t ∈ ls ++ rs)
    : t ≠ s := by
  rw [starts_append_cons] at h
  obtain ⟨_, _, hls, hrs⟩ := h
  intro heq
  rw [heq] at ht
  rcases List.mem_append.mp ht with ht | ht
  . exact lt_irrefl _ (hls s ht)
  . exact lt_irrefl _ (hrs s ht)

theorem keeps_append_cons {ls rs : List (α × α)} {s e : α} (h : Starts (ls ++ (s, e) :: rs))
    (hlt : s < lo) (hle : lo ≤ e) (hrs : ∀ t ∈ rs, lo < t.1)
    : Keeps lo hi (ls ++ (s, e) :: rs) ↔ ∀ x, hi ≤ x → x < e → x ∈ covered (ls ++ rs) := by
  have hne : ∀ {t}, t ∈ ls ++ rs → t ≠ (s, e) := h.ne_of_mem
  rw [starts_append_cons] at h
  obtain ⟨_, _, hls, _⟩ := h
  have hmem : ∀ t, t ∈ ls ++ (s, e) :: rs ↔ t = (s, e) ∨ t ∈ ls ++ rs := by
    intro t
    simp only [List.mem_append, List.mem_cons]
    tauto
  constructor
  . intro hkeeps x hhi hx
    have hbefore : ∀ t ∈ ls ++ (s, e) :: rs, t.1 ≤ s ∨ lo < t.1 := by
      simp only [List.forall_mem_append, List.forall_mem_cons]
      exact ⟨fun t ht => .inl (le_of_lt (hls t ht)), .inl (le_refl _), fun t ht => .inr (hrs t ht)⟩
    obtain ⟨t, ht, hts, htx⟩ :=
      hkeeps (s, e) ((hmem _).mpr (.inl rfl)) hlt hle hbefore x hhi hx
    exact ⟨t, ((hmem t).mp ht).resolve_left hts, htx⟩
  . intro hcov u hu hult hule hbefore x hhi hx
    have heq : u = (s, e) := by
      have hs := hbefore (s, e) ((hmem _).mpr (.inl rfl))
      rcases (hmem u).mp hu with heq | hu
      . exact heq
      . rcases List.mem_append.mp hu with hu | hu
        . rcases hs with hs | hs
          . exact absurd (lt_of_lt_of_le (hls u hu) hs) (lt_irrefl _)
          . exact absurd (lt_trans hs hlt) (lt_irrefl _)
        . exact absurd (lt_trans (hrs u hu) hult) (lt_irrefl _)
    subst heq
    obtain ⟨t, ht, htx⟩ := hcov x hhi hx
    exact ⟨t, (hmem t).mpr (.inr ht), hne ht, htx⟩

theorem keeps_of_getLast? {ls rs : List (α × α)} (h : Starts ls) (hls : ∀ t ∈ ls, t.1 < lo)
    (hrs : ∀ t ∈ rs, lo ≤ t.1) (hleft : ∀ s, ls.getLast? = some s → s.2 < lo)
    : Keeps lo hi (ls ++ rs) := by
  intro s hs hlt hle hbefore
  exfalso
  rcases List.mem_append.mp hs with hs | hs
  . rcases List.eq_nil_or_concat ls with rfl | ⟨ls, t, rfl⟩
    . contradiction
    . rw [List.concat_eq_append] at h hls hleft hs hbefore
      have ht : t.2 < lo := hleft t (by simp)
      have htlo : t.1 < lo := hls t (by simp)
      unfold Starts at h
      rw [List.pairwise_append] at h
      rcases List.mem_append.mp hs with hs | hs
      . have hst : s.1 < t.1 := h.2.2 s hs t (by simp)
        rcases hbefore t (by simp) with hts | hts
        . exact absurd (lt_of_lt_of_le hst hts) (lt_irrefl _)
        . exact absurd (lt_trans hts htlo) (lt_irrefl _)
      . rw [List.mem_singleton] at hs
        rw [hs] at hle
        exact absurd (lt_of_lt_of_le ht hle) (lt_irrefl _)
  . exact absurd (lt_of_lt_of_le hlt (hrs s hs)) (lt_irrefl _)

theorem Inserted.covered_eq_iff (h : Inserted lo hi l l') (hle : lo ≤ hi) (hl : Starts l)
    (hvalid : ∀ s ∈ l, s.1 ≤ s.2)
    : covered l' = covered l ∪ Set.Ico lo hi ↔ Keeps lo hi l := by
  cases h with
  | @grown ls rs e =>
    constructor
    . intro _ s hs hlt hle hbefore
      rcases hbefore (lo, e) (by simp) with hlo | hlo
      . exact absurd (lt_of_lt_of_le hlt hlo) (lt_irrefl _)
      . exact absurd hlo (lt_irrefl _)
    . intro _
      simp only [covered_append, covered_cons]
      ext x
      simp only [Set.mem_union, Set.mem_Ico, lt_max_iff]
      tauto
  | @alone ls rs hls hrs hleft hright =>
    unfold Starts at hl
    rw [List.pairwise_append] at hl
    have hkeeps : Keeps lo hi (ls ++ rs) :=
      keeps_of_getLast? hl.1 hls (fun t ht => le_of_lt (hrs t ht)) hleft
    refine ⟨fun _ => hkeeps, fun _ => ?_⟩
    simp only [covered_append, covered_cons]
    ext x
    simp only [Set.mem_union]
    tauto
  | @right ls rs e hls hlt hleft =>
    have hne : hi ≤ e := hvalid (hi, e) (by simp)
    have hstarts := hl
    rw [starts_append_cons] at hl
    have hrs : ∀ t ∈ (hi, e) :: rs, lo ≤ t.1 := by
      simp only [List.forall_mem_cons]
      exact ⟨le_of_lt hlt, fun t ht => le_of_lt (lt_trans hlt (hl.2.2.2 t ht))⟩
    refine ⟨fun _ => keeps_of_getLast? hl.1 hls hrs hleft, fun _ => ?_⟩
    simp only [covered_append, covered_cons]
    rw [← Set.Ico_union_Ico_eq_Ico (le_of_lt hlt) hne]
    ext x
    simp only [Set.mem_union]
    tauto
  | @left ls rs s e hlt hrs hleft hright =>
    rw [keeps_append_cons hl hlt hleft hrs]
    simp only [covered_append, covered_cons, Set.ext_iff, Set.mem_union, Set.mem_Ico]
    constructor
    . intro hcov x hhi hx
      have hold := (hcov x).mpr (.inl (.inr (.inl ⟨le_trans (le_of_lt hlt) (le_trans hle hhi), hx⟩)))
      rcases hold with hold | ⟨_, hold⟩ | hold
      . exact .inl hold
      . exact absurd (lt_of_lt_of_le hold hhi) (lt_irrefl _)
      . exact .inr hold
    . intro hkeeps x
      have hx := hkeeps x
      have hcases := lt_or_ge x hi
      grind
  | @both ls rs s e1 e2 hlt1 hlt2 hleft =>
    have hne : hi ≤ e2 := hvalid (hi, e2) (by simp)
    have hstarts := hl
    rw [starts_append_cons] at hl
    have hrs : ∀ t ∈ (hi, e2) :: rs, lo < t.1 := by
      have hrest : Starts ((hi, e2) :: rs) := hl.2.1
      unfold Starts at hrest
      rw [List.pairwise_cons] at hrest
      simp only [List.forall_mem_cons]
      exact ⟨hlt2, fun t ht => lt_trans hlt2 (hrest.1 t ht)⟩
    rw [keeps_append_cons hstarts hlt1 hleft hrs]
    simp only [covered_append, covered_cons, Set.ext_iff, Set.mem_union, Set.mem_Ico]
    constructor
    . intro hcov x hhi hx
      have hold := (hcov x).mpr (.inl (.inr (.inl ⟨le_trans (le_of_lt hlt1) (le_trans hle hhi), hx⟩)))
      rcases hold with hold | ⟨_, hold⟩ | hold
      . exact .inl hold
      . exact .inr (.inl ⟨hhi, hold⟩)
      . exact .inr (.inr hold)
    . intro hkeeps x
      have hx := hkeeps x
      have hcases := lt_or_ge x hi
      grind

/--
The range leaves a single one: it meets the only one there is, or closes the gap between two.
-/
def Merges (lo hi : α) : List (α × α) → Prop
  | [] => True
  | [s] => (s.1 ≤ lo ∧ lo ≤ s.2) ∨ s.1 = hi
  | [s1, s2] => s1.1 < lo ∧ lo ≤ s1.2 ∧ lo < hi ∧ s2.1 = hi
  | _ => False

@[simp]
theorem merges_nil : Merges lo hi [] := by
  trivial

@[simp]
theorem merges_singleton {s : α × α}
    : Merges lo hi [s] ↔ (s.1 ≤ lo ∧ lo ≤ s.2) ∨ s.1 = hi := by
  rfl

@[simp]
theorem merges_cons_cons {s1 s2 : α × α} {l : List (α × α)}
    : Merges lo hi (s1 :: s2 :: l) ↔ l = [] ∧ s1.1 < lo ∧ lo ≤ s1.2 ∧ lo < hi ∧ s2.1 = hi := by
  cases l with
  | nil => simp [Merges]
  | cons => simp [Merges]

theorem Inserted.length_eq_one_iff (h : Inserted lo hi l l') (hle : lo ≤ hi)
    (hvalid : ∀ s ∈ l, s.1 ≤ s.2)
    : l'.length = 1 ↔ Merges lo hi l := by
  cases h with
  | @grown ls rs e =>
    have hne : lo ≤ e := hvalid (lo, e) (by simp)
    rcases ls with _ | ⟨t1, _ | ⟨t2, ls⟩⟩
    . rcases rs with _ | ⟨u1, rs⟩
      . simp [hne]
      . simp
    . simp
      grind
    . simp
  | @alone ls rs hls hrs hleft hright =>
    rcases ls with _ | ⟨t1, _ | ⟨t2, ls⟩⟩
    . rcases rs with _ | ⟨u1, _ | ⟨u2, rs⟩⟩
      . simp
      . have hlt := hrs u1 (by simp)
        have hne := hright u1 (by simp)
        simp [hne, not_le_of_gt hlt]
      . have hlt := hrs u1 (by simp)
        simp [not_lt_of_gt hlt]
    . have hlt := hleft t1 (by simp)
      have hle1 := hvalid t1 (by simp)
      have hne : t1.1 ≠ hi := ne_of_lt (lt_of_le_of_lt hle1 (lt_of_lt_of_le hlt hle))
      rcases rs with _ | ⟨u1, rs⟩
      . simp [not_le_of_gt hlt, hne]
      . simp [not_le_of_gt hlt]
    . have hlt := hls t2 (by simp)
      have hne : t2.1 ≠ hi := ne_of_lt (lt_of_lt_of_le hlt hle)
      simp [hne]
  | @right ls rs e hls hlt hleft =>
    rcases ls with _ | ⟨t1, _ | ⟨t2, ls⟩⟩
    . rcases rs with _ | ⟨u1, rs⟩
      . simp
      . simp [not_lt_of_gt hlt]
    . have hlt1 := hleft t1 (by simp)
      simp [not_le_of_gt hlt1]
    . simp
  | @left ls rs s e hlt hrs hleft hright =>
    rcases ls with _ | ⟨t1, _ | ⟨t2, ls⟩⟩
    . rcases rs with _ | ⟨u1, rs⟩
      . simp [le_of_lt hlt, hleft]
      . have hne := hright u1 (by simp)
        simp [hne]
    . have hne : s ≠ hi := ne_of_lt (lt_of_lt_of_le hlt hle)
      simp [hne]
    . simp
  | @both ls rs s e1 e2 hlt1 hlt2 hleft =>
    rcases ls with _ | ⟨t1, _ | ⟨t2, ls⟩⟩
    . simp [hlt1, hlt2, hleft]
    . simp
    . simp

end Inserted

end Interval
