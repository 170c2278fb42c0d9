import BenTorrent.Interval.Cover
import BenTorrent.Machine.Basic
import BenTorrent.Peer.Io.Slices

/-!
This module contains what `Slices` covers after any sequence of insertions, and when it says that
the piece is complete.
-/

open Rust Interval

namespace Slices

def insertTask (build : Build) : Machine Slices (UInt32 × UInt32) Bool where
  step s range :=
    match (s.insert build range.1 range.2 : Outcome Empty (Bool × Slices)) with
    | .ok (finished, s) => some (finished, s)
    | .error _ => none

abbrev InsertTrace := List ((UInt32 × UInt32) × Bool)

def inserted (ranges : List (UInt32 × UInt32)) : Set UInt32 :=
  { x | ∃ range ∈ ranges, x ∈ blockRange range }

variable {build : Build}

theorem inserted_append_singleton (ranges : List (UInt32 × UInt32)) (range : UInt32 × UInt32)
    : inserted (ranges ++ [range]) = inserted ranges ∪ blockRange range := by
  ext x
  simp [inserted, or_and_right, exists_or]

theorem inserted_cons (range : UInt32 × UInt32) (ranges : List (UInt32 × UInt32))
    : inserted (range :: ranges) = blockRange range ∪ inserted ranges := by
  ext x
  simp [inserted]

theorem inserted_perm {ranges ranges' : List (UInt32 × UInt32)} (h : ranges.Perm ranges')
    : inserted ranges = inserted ranges' := by
  ext x
  simp only [inserted, Set.mem_ofPred_eq, h.mem_iff]

theorem step_insertTask (build : Build) (s : Slices) {range : UInt32 × UInt32}
    (hfits : range.1.toNat + range.2.toNat < 2 ^ 32)
    : (insertTask build).step s range
        =
      some ((s.insertRange range.1 (range.1 + range.2)).isComplete,
        s.insertRange range.1 (range.1 + range.2)) := by
  unfold insertTask
  dsimp only
  rw [insert_of_fits _ _ _ _ hfits]

theorem step_insertTask_iff {s s' : Slices} {range : UInt32 × UInt32} {finished : Bool}
    (hfits : range.1.toNat + range.2.toNat < 2 ^ 32)
    : (insertTask build).step s range = some (finished, s')
        ↔
      finished = s'.isComplete ∧ s' = s.insertRange range.1 (range.1 + range.2) := by
  rw [step_insertTask build s hfits, Option.some.injEq, Prod.mk.injEq]
  grind

theorem inserted_of_step {s s' : Slices} {range : UInt32 × UInt32} {finished : Bool}
    (hfits : range.1.toNat + range.2.toNat < 2 ^ 32)
    (hstep : (insertTask build).step s range = some (finished, s'))
    : Inserted range.1 (range.1 + range.2) s.slices s'.slices ∧ finished = s'.isComplete
        ∧ s'.expectedSize = s.expectedSize := by
  obtain ⟨hfinished, rfl⟩ := (step_insertTask_iff hfits).mp hstep
  exact ⟨insertSlice_inserted s.starts _ _, hfinished, rfl⟩

theorem le_add_of_fits {range : UInt32 × UInt32} (hfits : range.1.toNat + range.2.toNat < 2 ^ 32)
    : range.1 ≤ range.1 + range.2 := by
  rw [UInt32.le_iff_toNat_le, UInt32.toNat_add, Nat.mod_eq_of_lt hfits]
  omega

theorem exists_run_insertTask (build : Build) (s : Slices) {ranges : List (UInt32 × UInt32)}
    (hfits : ∀ range ∈ ranges, range.1.toNat + range.2.toNat < 2 ^ 32)
    : ∃ tr s', (insertTask build).Run s tr s' ∧ tr.map Prod.fst = ranges := by
  induction ranges generalizing s with
  | nil => exact ⟨[], s, .nil s, rfl⟩
  | cons range ranges ih =>
    rw [List.forall_mem_cons] at hfits
    have hstep := step_insertTask build s hfits.1
    obtain ⟨tr, s', hrun, hmap⟩ := ih (s.insertRange range.1 (range.1 + range.2)) hfits.2
    exact ⟨_, s', .cons trivial hstep hrun, by rw [List.map_cons, hmap]⟩

structure Kept (n : Nat) (ranges : List (UInt32 × UInt32)) (s : Slices) : Prop where
  expectedSize_eq : s.expectedSize = n
  start_le_end : ∀ slice ∈ s.slices, slice.1 ≤ slice.2
  covered_subset : covered s.slices ⊆ inserted ranges

theorem kept_new (n : Nat) : Kept n [] (.new n) := by
  constructor
  . rfl
  . simp [new]
  . simp [new]

theorem Kept.insert {n : Nat} {ranges : List (UInt32 × UInt32)} {s s' : Slices}
    {range : UInt32 × UInt32} {finished : Bool} (h : Kept n ranges s)
    (hfits : range.1.toNat + range.2.toNat < 2 ^ 32)
    (hstep : (insertTask build).step s range = some (finished, s'))
    : Kept n (ranges ++ [range]) s' := by
  obtain ⟨hinserted, _, hsize⟩ := inserted_of_step hfits hstep
  constructor
  . rw [hsize, h.expectedSize_eq]
  . exact hinserted.start_le_end (le_add_of_fits hfits) h.start_le_end
  . rw [inserted_append_singleton]
    apply subset_trans hinserted.covered_subset
    exact Set.union_subset_union_left _ h.covered_subset

theorem kept_of_run {n : Nat} {tr : InsertTrace} {s : Slices}
    (hrun : (insertTask build).Run (.new n) tr s)
    (hfits : ∀ range ∈ tr.map Prod.fst, range.1.toNat + range.2.toNat < 2 ^ 32)
    : Kept n (tr.map Prod.fst) s := by
  refine hrun.invariant_trace
    (P := fun tr s => (∀ range ∈ tr.map Prod.fst, range.1.toNat + range.2.toNat < 2 ^ 32) →
      Kept n (tr.map Prod.fst) s) ?_ (fun _ => kept_new n) hfits
  intro tr s range finished s' _ hstep ih hfits
  rw [List.map_append, List.map_singleton] at hfits ⊢
  simp only [List.forall_mem_append, List.forall_mem_singleton] at hfits
  exact (ih hfits.1).insert hfits.2 hstep

theorem toNat_ofNat_of_lt {n : Nat} (hn : n < 2 ^ 32) : (UInt32.ofNat n).toNat = n :=
  UInt32.toNat_ofNat_of_lt' hn

theorem Kept.mem_of_isComplete {n : Nat} {ranges : List (UInt32 × UInt32)} {s : Slices}
    {x : UInt32} (h : Kept n ranges s) (hn : n < 2 ^ 32) (hcomplete : s.isComplete = true)
    (hx : x.toNat < n)
    : x ∈ inserted ranges := by
  rw [isComplete_iff, h.expectedSize_eq] at hcomplete
  apply h.covered_subset
  rw [hcomplete]
  refine ⟨(0, UInt32.ofNat n), by simp, by simp, ?_⟩
  rw [UInt32.lt_iff_toNat_lt, toNat_ofNat_of_lt hn]
  exact hx

/--
After any insertion the slices stay in order and cover nothing that was not inserted, and the piece
is only complete when all of it was.
-/
theorem sound_of_inserts (build : Build) (n : Nat) (ranges : List (UInt32 × UInt32))
    (hn : n < 2 ^ 32) (hfits : ∀ range ∈ ranges, range.1.toNat + range.2.toNat < 2 ^ 32)
    : ∃ tr s, (insertTask build).Run (.new n) tr s ∧ tr.map Prod.fst = ranges
        ∧ ∀ tr1 range finished tr2 s1 s2, tr = tr1 ++ (range, finished) :: tr2 →
          (insertTask build).Run (.new n) tr1 s1 →
          (insertTask build).step s1 range = some (finished, s2) →
          Starts s2.slices ∧ (∀ slice ∈ s2.slices, slice.1 ≤ slice.2)
            ∧ covered s2.slices ⊆ inserted (tr1.map Prod.fst ++ [range])
            ∧ (finished = true → ∀ x : UInt32, x.toNat < n →
              x ∈ inserted (tr1.map Prod.fst ++ [range])) := by
  obtain ⟨tr, s, hrun, hmap⟩ := exists_run_insertTask build (.new n) hfits
  refine ⟨tr, s, hrun, hmap, ?_⟩
  intro tr1 range finished tr2 s1 s2 htr hrun1 hstep
  rw [← hmap, htr, List.map_append, List.map_cons, List.forall_mem_append,
    List.forall_mem_cons] at hfits
  have hkept := (kept_of_run hrun1 hfits.1).insert hfits.2.1 hstep
  obtain ⟨hfinished, _⟩ := (step_insertTask_iff hfits.2.1).mp hstep
  refine ⟨s2.starts, hkept.start_le_end, hkept.covered_subset, ?_⟩
  intro hcomplete x hx
  rw [hfinished] at hcomplete
  exact hkept.mem_of_isComplete hn hcomplete hx

theorem sound_of_nested
    : ∃ tr s, (insertTask ⟨true⟩).Run (.new 10) tr s ∧ tr.map Prod.fst = [(0, 10), (2, 3), (5, 5)]
        ∧ ∀ tr1 range finished tr2 s1 s2, tr = tr1 ++ (range, finished) :: tr2 →
          (insertTask ⟨true⟩).Run (.new 10) tr1 s1 →
          (insertTask ⟨true⟩).step s1 range = some (finished, s2) →
          Starts s2.slices ∧ (∀ slice ∈ s2.slices, slice.1 ≤ slice.2)
            ∧ covered s2.slices ⊆ inserted (tr1.map Prod.fst ++ [range])
            ∧ (finished = true → ∀ x : UInt32, x.toNat < 10 →
              x ∈ inserted (tr1.map Prod.fst ++ [range])) :=
  sound_of_inserts ⟨true⟩ 10 [(0, 10), (2, 3), (5, 5)] (by decide) (by simp)

section canonical

/--
The ranges that are inserted have a position each and share none.
-/
structure Apart (ranges : List (UInt32 × UInt32)) : Prop where
  fits : ∀ range ∈ ranges, range.1.toNat + range.2.toNat < 2 ^ 32
  nonempty : ∀ range ∈ ranges, 0 < range.2
  disjoint : ranges.Pairwise fun range1 range2 => Disjoint (blockRange range1) (blockRange range2)

theorem Apart.perm {ranges ranges' : List (UInt32 × UInt32)} (h : Apart ranges)
    (hperm : ranges.Perm ranges')
    : Apart ranges' := by
  constructor
  . intro range hmem
    exact h.fits range (hperm.mem_iff.mpr hmem)
  . intro range hmem
    exact h.nonempty range (hperm.mem_iff.mpr hmem)
  . exact hperm.pairwise h.disjoint fun hdisj => hdisj.symm

theorem lt_add_of_nonempty {range : UInt32 × UInt32}
    (hfits : range.1.toNat + range.2.toNat < 2 ^ 32) (hpos : 0 < range.2)
    : range.1 < range.1 + range.2 := by
  rw [UInt32.lt_iff_toNat_lt, UInt32.toNat_zero] at hpos
  rw [UInt32.lt_iff_toNat_lt, UInt32.toNat_add, Nat.mod_eq_of_lt hfits]
  omega

/--
What is stored are the maximal runs of what was inserted.
-/
def Canonical (ranges : List (UInt32 × UInt32)) (s : Slices) : Prop :=
  Runs s.slices ∧ covered s.slices = inserted ranges

theorem Canonical.insert {ranges : List (UInt32 × UInt32)} {s s' : Slices}
    {range : UInt32 × UInt32} {finished : Bool} (h : Canonical ranges s)
    (hapart : Apart (ranges ++ [range]))
    (hstep : (insertTask build).step s range = some (finished, s'))
    : Canonical (ranges ++ [range]) s' := by
  have hfits := hapart.fits range (by simp)
  have hlt := lt_add_of_nonempty hfits (hapart.nonempty range (by simp))
  have hdisj : Disjoint (covered s.slices) (blockRange range) := by
    rw [h.2, Set.disjoint_left]
    intro x ⟨range', hmem, hx⟩
    have hpairwise := hapart.disjoint
    rw [List.pairwise_append] at hpairwise
    exact Set.disjoint_left.mp (hpairwise.2.2 range' hmem range (by simp)) hx
  obtain ⟨hinserted, _⟩ := inserted_of_step hfits hstep
  obtain ⟨hruns, hcov⟩ := hinserted.runs hlt h.1 (h.1.fits_of_disjoint hlt hdisj)
  refine ⟨hruns, ?_⟩
  rw [hcov, h.2, inserted_append_singleton]
  rfl

theorem canonical_of_run {n : Nat} {tr : InsertTrace} {s : Slices}
    (hrun : (insertTask build).Run (.new n) tr s) (hapart : Apart (tr.map Prod.fst))
    : Canonical (tr.map Prod.fst) s := by
  refine hrun.invariant_trace
    (P := fun tr s => Apart (tr.map Prod.fst) → Canonical (tr.map Prod.fst) s) ?_ ?_ hapart
  . intro tr s range finished s' _ hstep ih hapart
    rw [List.map_append, List.map_singleton] at hapart ⊢
    have hbefore : Apart (tr.map Prod.fst) := by
      have hpairwise := hapart.disjoint
      rw [List.pairwise_append] at hpairwise
      exact ⟨fun r hr => hapart.fits r (by simp [hr]), fun r hr => hapart.nonempty r (by simp [hr]),
        hpairwise.1⟩
    exact (ih hbefore).insert hapart hstep
  . intro _
    exact ⟨runs_nil, by simp [new, inserted]⟩

/--
Ranges that are apart leave their maximal runs, in whatever order they are inserted.
-/
theorem canonical_of_disjoint (build : Build) (n : Nat) (ranges : List (UInt32 × UInt32))
    (hapart : Apart ranges)
    : ∃ tr s, (insertTask build).Run (.new n) tr s ∧ tr.map Prod.fst = ranges
        ∧ Runs s.slices ∧ (∀ slice, slice ∈ s.slices ↔ IsRun (inserted ranges) slice)
        ∧ ∀ ranges' tr' s', ranges'.Perm ranges → (insertTask build).Run (.new n) tr' s' →
          tr'.map Prod.fst = ranges' → s' = s := by
  obtain ⟨tr, s, hrun, hmap⟩ := exists_run_insertTask build (.new n) hapart.fits
  have hcanonical : Canonical ranges s := by
    have h := canonical_of_run hrun
    rw [hmap] at h
    exact h hapart
  refine ⟨tr, s, hrun, hmap, hcanonical.1, ?_, ?_⟩
  . intro slice
    rw [hcanonical.1.mem_iff_isRun, hcanonical.2]
  . intro ranges' tr' s' hperm hrun' hmap'
    have hcanonical' : Canonical ranges' s' := by
      have h := canonical_of_run hrun'
      rw [hmap'] at h
      exact h (hapart.perm hperm.symm)
    have hslices : s'.slices = s.slices := by
      apply hcanonical'.1.eq_of_covered_eq hcanonical.1
      rw [hcanonical'.2, hcanonical.2, inserted_perm hperm]
    have hsize : s'.expectedSize = s.expectedSize := by
      rw [(kept_of_run hrun (by rw [hmap]; exact hapart.fits)).expectedSize_eq,
        (kept_of_run hrun' (by rw [hmap']; exact (hapart.perm hperm.symm).fits)).expectedSize_eq]
    cases s
    cases s'
    congr

theorem apart_middleLast : Apart [(0, 2), (4, 2), (2, 2)] := by
  constructor
  . simp
  . simp
  . simp only [List.pairwise_cons, List.forall_mem_cons, Set.disjoint_left, blockRange, Set.mem_Ico]
    grind

theorem canonical_middleLast
    : ∃ tr s, (insertTask ⟨true⟩).Run (.new 6) tr s ∧ tr.map Prod.fst = [(0, 2), (4, 2), (2, 2)]
        ∧ Runs s.slices
        ∧ (∀ slice, slice ∈ s.slices ↔ IsRun (inserted [(0, 2), (4, 2), (2, 2)]) slice)
        ∧ ∀ ranges' tr' s', ranges'.Perm [(0, 2), (4, 2), (2, 2)] →
          (insertTask ⟨true⟩).Run (.new 6) tr' s' → tr'.map Prod.fst = ranges' → s' = s :=
  canonical_of_disjoint ⟨true⟩ 6 [(0, 2), (4, 2), (2, 2)] apart_middleLast

end canonical

section complete

/--
An insertion that loses no position, and that leaves a single slice if then nothing is missing.
-/
def Covers (s : Slices) (range : UInt32 × UInt32) : Prop :=
  Keeps range.1 (range.1 + range.2) s.slices
    ∧ ((∀ x : UInt32, x.toNat < s.expectedSize → x ∈ covered s.slices ∪ blockRange range) →
      Merges range.1 (range.1 + range.2) s.slices)

/--
What an insertion should do: the positions of the range are added to those that were covered, and
the piece is complete once everything was inserted.
-/
def Collects (n : Nat) (ranges : List (UInt32 × UInt32)) (s s' : Slices)
    (range : UInt32 × UInt32) (finished : Bool) : Prop :=
  covered s'.slices = covered s.slices ∪ blockRange range
    ∧ ((∀ x : UInt32, x.toNat < n → x ∈ inserted (ranges ++ [range])) → finished = true)

theorem end_le_of_run {n : Nat} {tr : InsertTrace} {s : Slices} (hn : n < 2 ^ 32)
    (hrun : (insertTask build).Run (.new n) tr s)
    (hfits : ∀ range ∈ tr.map Prod.fst, range.1.toNat + range.2.toNat ≤ n)
    : ∀ slice ∈ s.slices, slice.2 ≤ UInt32.ofNat n := by
  refine hrun.invariant_trace
    (P := fun tr s => (∀ range ∈ tr.map Prod.fst, range.1.toNat + range.2.toNat ≤ n) →
      ∀ slice ∈ s.slices, slice.2 ≤ UInt32.ofNat n) ?_ (by simp [new]) hfits
  intro tr s range finished s' _ hstep ih hfits
  rw [List.map_append, List.map_singleton] at hfits
  simp only [List.forall_mem_append, List.forall_mem_singleton] at hfits
  have hsmall : range.1.toNat + range.2.toNat < 2 ^ 32 := lt_of_le_of_lt hfits.2 hn
  refine (inserted_of_step hsmall hstep).1.end_le ?_ (ih hfits.1)
  rw [UInt32.le_iff_toNat_le, UInt32.toNat_add, Nat.mod_eq_of_lt hsmall, toNat_ofNat_of_lt hn]
  exact hfits.2

theorem Kept.isComplete_iff_length {n : Nat} {ranges : List (UInt32 × UInt32)} {s : Slices}
    (h : Kept n ranges s) (hn : n < 2 ^ 32) (hend : ∀ slice ∈ s.slices, slice.2 ≤ UInt32.ofNat n)
    (hcov : ∀ x : UInt32, x.toNat < n → x ∈ covered s.slices)
    : s.isComplete = true ↔ s.slices.length = 1 := by
  rw [isComplete_iff, h.expectedSize_eq]
  constructor
  . intro hslices
    rw [hslices, List.length_singleton]
  . intro hlen
    obtain ⟨⟨start, endPos⟩, hslices⟩ := List.length_eq_one_iff.mp hlen
    have hle := h.start_le_end
    rw [hslices, List.forall_mem_singleton] at hle hend
    have hsize := toNat_ofNat_of_lt hn
    have hmem : ∀ x : UInt32, x.toNat < n → start.toNat ≤ x.toNat ∧ x.toNat < endPos.toNat := by
      intro x hx
      have hcov := hcov x hx
      rw [hslices, mem_covered] at hcov
      simpa [UInt32.le_iff_toNat_le, UInt32.lt_iff_toNat_lt] using hcov
    simp only [UInt32.le_iff_toNat_le, hsize] at hle hend
    have hends : start.toNat = 0 ∧ endPos.toNat = n := by
      by_cases hzero : n = 0
      . omega
      . have hfirst := hmem 0 (by simp; omega)
        have hlast := hmem (UInt32.ofNat (n - 1)) (by rw [toNat_ofNat_of_lt (by omega)]; omega)
        rw [toNat_ofNat_of_lt (by omega)] at hlast
        simp only [UInt32.toNat_zero] at hfirst
        omega
    rw [hslices, List.cons.injEq, Prod.mk.injEq]
    refine ⟨⟨?_, ?_⟩, rfl⟩
    . exact UInt32.toNat_inj.mp hends.1
    . apply UInt32.toNat_inj.mp
      rw [hsize, hends.2]

/--
As long as no insertion loses a position, all that was inserted is covered.
-/
theorem covered_of_run {s1 s2 : Slices} {tr : InsertTrace} (hrun : (insertTask build).Run s1 tr s2)
    (hsteps : ∀ tr1 range finished tr2 s s', tr = tr1 ++ (range, finished) :: tr2 →
      (insertTask build).Run s1 tr1 s → (insertTask build).step s range = some (finished, s') →
      covered s'.slices = covered s.slices ∪ blockRange range)
    : covered s2.slices = covered s1.slices ∪ inserted (tr.map Prod.fst) := by
  induction hrun with
  | nil s => simp [inserted]
  | @cons s1 s s2 range finished tr _ hstep _ ih =>
    have hfirst := hsteps [] range finished tr s1 s rfl (.nil s1) hstep
    rw [ih, hfirst, List.map_cons, inserted_cons, Set.union_assoc]
    intro tr1 range' finished' tr2 s' s'' htr hrun' hstep'
    exact hsteps ((range, finished) :: tr1) range' finished' tr2 s' s''
      (by rw [htr, List.cons_append]) (.cons trivial hstep hrun') hstep'

theorem Kept.covered_eq_iff {n : Nat} {ranges : List (UInt32 × UInt32)} {s s' : Slices}
    {range : UInt32 × UInt32} {finished : Bool} (h : Kept n ranges s)
    (hfits : range.1.toNat + range.2.toNat < 2 ^ 32)
    (hstep : (insertTask build).step s range = some (finished, s'))
    : covered s'.slices = covered s.slices ∪ blockRange range
        ↔
      Keeps range.1 (range.1 + range.2) s.slices :=
  (inserted_of_step hfits hstep).1.covered_eq_iff (le_add_of_fits hfits) s.starts h.start_le_end

theorem Kept.collects_iff {n : Nat} {ranges : List (UInt32 × UInt32)} {s s' : Slices}
    {range : UInt32 × UInt32} {finished : Bool} (h : Kept n ranges s) (hn : n < 2 ^ 32)
    (hfits : range.1.toNat + range.2.toNat < 2 ^ 32)
    (hstep : (insertTask build).step s range = some (finished, s'))
    (hend : ∀ slice ∈ s'.slices, slice.2 ≤ UInt32.ofNat n)
    (hcov : covered s.slices = inserted ranges)
    : Collects n ranges s s' range finished ↔ s.Covers range := by
  obtain ⟨hinserted, hfinished, _⟩ := inserted_of_step hfits hstep
  unfold Collects Covers
  rw [h.covered_eq_iff hfits hstep, h.expectedSize_eq, hcov, ← inserted_append_singleton]
  refine and_congr_right fun hkeeps => imp_congr_right fun hall => ?_
  have hcov' : covered s'.slices = inserted (ranges ++ [range]) := by
    rw [(h.covered_eq_iff hfits hstep).mpr hkeeps, hcov, inserted_append_singleton]
  rw [hfinished, (h.insert hfits hstep).isComplete_iff_length hn hend (by rwa [hcov']),
    hinserted.length_eq_one_iff (le_add_of_fits hfits) h.start_le_end]

/--
In a sequence of insertions none loses a position or misses that the piece is complete if, and only
if, each of them finds the slices as it needs them.
-/
theorem covers_iff_of_inserts (build : Build) (n : Nat) (ranges : List (UInt32 × UInt32))
    (hn : n < 2 ^ 32) (hfits : ∀ range ∈ ranges, range.1.toNat + range.2.toNat ≤ n)
    : ∃ tr s, (insertTask build).Run (.new n) tr s ∧ tr.map Prod.fst = ranges
        ∧ ((insertTask build).RunWhile Covers (.new n) tr s
          ↔
        ∀ tr1 range finished tr2 s1 s2, tr = tr1 ++ (range, finished) :: tr2 →
          (insertTask build).Run (.new n) tr1 s1 →
          (insertTask build).step s1 range = some (finished, s2) →
          Collects n (tr1.map Prod.fst) s1 s2 range finished) := by
  have hsmall : ∀ range ∈ ranges, range.1.toNat + range.2.toNat < 2 ^ 32 := fun range hmem =>
    lt_of_le_of_lt (hfits range hmem) hn
  obtain ⟨tr, s, hrun, hmap⟩ := exists_run_insertTask build (.new n) hsmall
  refine ⟨tr, s, hrun, hmap, ?_⟩
  rw [Machine.RunWhile.iff_forall_step hrun]
  rw [← hmap] at hfits hsmall
  have hbounds : ∀ {tr1 range finished tr2}, tr = tr1 ++ (range, finished) :: tr2 →
      (∀ range ∈ tr1.map Prod.fst, range.1.toNat + range.2.toNat ≤ n)
        ∧ range.1.toNat + range.2.toNat ≤ n := by
    intro tr1 range finished tr2 htr
    rw [htr, List.map_append, List.map_cons, List.forall_mem_append, List.forall_mem_cons] at hfits
    exact ⟨hfits.1, hfits.2.1⟩
  have hkept : ∀ {tr1 range finished tr2 s1}, tr = tr1 ++ (range, finished) :: tr2 →
      (insertTask build).Run (.new n) tr1 s1 → Kept n (tr1.map Prod.fst) s1 := by
    intro tr1 range finished tr2 s1 htr hrun1
    exact kept_of_run hrun1 fun range hmem => lt_of_le_of_lt ((hbounds htr).1 range hmem) hn
  have hcollects : (∀ tr1 range finished tr2 s1 s2, tr = tr1 ++ (range, finished) :: tr2 →
        (insertTask build).Run (.new n) tr1 s1 →
        (insertTask build).step s1 range = some (finished, s2) →
        covered s2.slices = covered s1.slices ∪ blockRange range) →
      ∀ tr1 range finished tr2 s1 s2, tr = tr1 ++ (range, finished) :: tr2 →
        (insertTask build).Run (.new n) tr1 s1 →
        (insertTask build).step s1 range = some (finished, s2) →
        (Collects n (tr1.map Prod.fst) s1 s2 range finished ↔ s1.Covers range) := by
    intro hcov tr1 range finished tr2 s1 s2 htr hrun1 hstep
    obtain ⟨hbefore, hrange⟩ := hbounds htr
    refine (hkept htr hrun1).collects_iff hn (lt_of_le_of_lt hrange hn) hstep ?_ ?_
    . apply end_le_of_run hn (hrun1.append (.cons trivial hstep (.nil s2)))
      rw [List.map_append, List.map_singleton, List.forall_mem_append, List.forall_mem_singleton]
      exact ⟨hbefore, hrange⟩
    . rw [covered_of_run hrun1]
      . simp [new]
      . intro tr3 range' finished' tr4 s3 s4 htr1
        apply hcov tr3 range' finished' (tr4 ++ (range, finished) :: tr2)
        rw [htr, htr1, List.append_assoc, List.cons_append]
  constructor
  . intro h
    have hcov := hcollects fun tr1 range finished tr2 s1 s2 htr hrun1 hstep =>
      ((hkept htr hrun1).covered_eq_iff (lt_of_le_of_lt (hbounds htr).2 hn) hstep).mpr
        (h tr1 range finished tr2 s1 s2 htr hrun1 hstep).1
    intro tr1 range finished tr2 s1 s2 htr hrun1 hstep
    exact (hcov tr1 range finished tr2 s1 s2 htr hrun1 hstep).mpr
      (h tr1 range finished tr2 s1 s2 htr hrun1 hstep)
  . intro h
    have hcov := hcollects fun tr1 range finished tr2 s1 s2 htr hrun1 hstep =>
      (h tr1 range finished tr2 s1 s2 htr hrun1 hstep).1
    intro tr1 range finished tr2 s1 s2 htr hrun1 hstep
    exact (hcov tr1 range finished tr2 s1 s2 htr hrun1 hstep).mp
      (h tr1 range finished tr2 s1 s2 htr hrun1 hstep)

theorem covers_iff_middleLast
    : ∃ tr s, (insertTask ⟨true⟩).Run (.new 6) tr s ∧ tr.map Prod.fst = [(0, 2), (4, 2), (2, 2)]
        ∧ ((insertTask ⟨true⟩).RunWhile Covers (.new 6) tr s
          ↔
        ∀ tr1 range finished tr2 s1 s2, tr = tr1 ++ (range, finished) :: tr2 →
          (insertTask ⟨true⟩).Run (.new 6) tr1 s1 →
          (insertTask ⟨true⟩).step s1 range = some (finished, s2) →
          Collects 6 (tr1.map Prod.fst) s1 s2 range finished) :=
  covers_iff_of_inserts ⟨true⟩ 6 [(0, 2), (4, 2), (2, 2)] (by decide) (by simp)

/--
A range inside of a slice cuts off the end of the slice, and one that reaches into a slice behind it
leaves two slices, so that the piece is not complete.
-/
theorem not_collects_overlapping
    : (∃ tr s1 s2 finished, (insertTask ⟨true⟩).Run (.new 10) tr s1
        ∧ tr.map Prod.fst = [(0, 10)]
        ∧ (insertTask ⟨true⟩).step s1 (2, 3) = some (finished, s2)
        ∧ covered s2.slices ≠ covered s1.slices ∪ blockRange (2, 3))
      ∧ ∃ tr s1 s2 finished, (insertTask ⟨true⟩).Run (.new 10) tr s1
        ∧ tr.map Prod.fst = [(5, 5)]
        ∧ (insertTask ⟨true⟩).step s1 (0, 7) = some (finished, s2)
        ∧ (∀ x : UInt32, x.toNat < 10 → x ∈ inserted [(5, 5), (0, 7)]) ∧ finished = false := by
  constructor
  . obtain ⟨tr, s1, hrun, hmap, hstate⟩ :=
      (insertTask ⟨true⟩).exists_run_of_exec (.new 10) [(0, 10)]
        (fun x => (x.2.slices, ((insertTask ⟨true⟩).step x.2 (2, 3)).map (·.2.slices)))
        (b := ([(0, 10)], some [(0, 5)])) (by decide)
    simp only [Prod.mk.injEq, Option.map_eq_some_iff, Prod.exists] at hstate
    obtain ⟨h1, finished, s2, hstep, h2⟩ := hstate
    refine ⟨tr, s1, s2, finished, hrun, hmap, hstep, ?_⟩
    intro heq
    have hmem : (7 : UInt32) ∈ covered s2.slices := by
      rw [heq, h1]
      exact .inl ⟨(0, 10), by decide, by decide, by decide⟩
    rw [h2] at hmem
    obtain ⟨slice, hslice, _, hlt⟩ := hmem
    rw [List.mem_singleton.mp hslice] at hlt
    exact absurd hlt (by decide)
  . obtain ⟨tr, s1, hrun, hmap, hstate⟩ :=
      (insertTask ⟨true⟩).exists_run_of_exec (.new 10) [(5, 5)]
        (fun x => ((insertTask ⟨true⟩).step x.2 (0, 7)).map (·.1)) (b := some false) (by decide)
    simp only [Option.map_eq_some_iff, Prod.exists] at hstate
    obtain ⟨finished, s2, hstep, hfinished⟩ := hstate
    refine ⟨tr, s1, s2, finished, hrun, hmap, hstep, ?_, hfinished⟩
    intro x hx
    by_cases hlt : x.toNat < 7
    . refine ⟨(0, 7), by simp, ?_⟩
      rw [mem_blockRange (by decide)]
      simpa using hlt
    . refine ⟨(5, 5), by simp, ?_⟩
      rw [mem_blockRange (by decide)]
      simp only [UInt32.reduceToNat]
      omega

end complete

end Slices
