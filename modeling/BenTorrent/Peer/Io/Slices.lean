import BenTorrent.Interval.Runs
import BenTorrent.Rust.Basic

/-!
This module contains `Slices`, which tracks the ranges of a piece that have been written, and what an
insertion does to the list of ranges.
-/

open Rust Interval

instance instLinearOrderUInt32 : LinearOrder UInt32 where
  le := (· ≤ ·)
  lt := (· < ·)
  le_refl := fun _ => UInt32.le_refl _
  le_trans := fun _ _ _ => UInt32.le_trans
  le_antisymm := fun _ _ => UInt32.le_antisymm
  le_total := fun _ _ => UInt32.le_total _ _
  lt_iff_le_not_ge := fun _ _ => by
    simp only [UInt32.lt_iff_toNat_lt, UInt32.le_iff_toNat_le]
    omega
  toDecidableLE := inferInstance

abbrev Slice := UInt32 × UInt32

def binarySearchByKey (key : UInt32) (f : α → UInt32) : List α → Except Nat Nat
  | [] => .error 0
  | x :: xs =>
    if f x = key then
      .ok 0
    else if key < f x then
      .error 0
    else
      match binarySearchByKey key f xs with
      | .ok pos => .ok (pos + 1)
      | .error pos => .error (pos + 1)

def insertSlice (slices : List Slice) (begin endPos : UInt32) : List Slice :=
  match binarySearchByKey begin Prod.fst slices with
  | .ok existingPos =>
    -- attempt to grow the length
    slices.modify existingPos fun curr => (curr.1, max curr.2 endPos)
  | .error missing =>
    let (slices, start, endPos, wasCombinedRight) :=
      match slices[missing]? with
      | some lookRight =>
        if lookRight.1 = endPos then
          (slices.set missing (begin, lookRight.2), begin, lookRight.2, true)
        else
          (slices, begin, endPos, false)
      | none => (slices, begin, endPos, false)
    let (slices, wasCombinedLeft) :=
      if 0 < missing then
        match slices[missing - 1]? with
        | some lookLeft =>
          -- the new end is taken over even if the neighbour reached further
          if start ≤ lookLeft.2 then
            (slices.set (missing - 1) (lookLeft.1, endPos), true)
          else
            (slices, false)
        | none => (slices, false)
      else
        (slices, false)
    if !wasCombinedLeft && !wasCombinedRight then
      slices.insertIdx missing (start, endPos)
    else if wasCombinedLeft && wasCombinedRight then
      slices.eraseIdx missing
    else
      slices

theorem binarySearchByKey_eq_ok {key : UInt32} {f : α → UInt32} {xs : List α} {pos : Nat}
    (h : binarySearchByKey key f xs = .ok pos)
    : ∃ ls x rs, xs = ls ++ x :: rs ∧ ls.length = pos ∧ f x = key := by
  induction xs generalizing pos with
  | nil => contradiction
  | cons x xs ih =>
    unfold binarySearchByKey at h
    split at h
    . next hx =>
      simp only [Except.ok.injEq] at h
      exact ⟨[], x, xs, rfl, h, hx⟩
    . split at h
      . contradiction
      . split at h
        . next pos' hpos' =>
          simp only [Except.ok.injEq] at h
          obtain ⟨ls, y, rs, rfl, hlen, hy⟩ := ih hpos'
          exact ⟨x :: ls, y, rs, rfl, by simp [hlen, h], hy⟩
        . contradiction

theorem binarySearchByKey_eq_error {key : UInt32} {f : α → UInt32} {xs : List α} {pos : Nat}
    (h : binarySearchByKey key f xs = .error pos)
    : ∃ ls rs, xs = ls ++ rs ∧ ls.length = pos ∧ (∀ x ∈ ls, f x < key)
        ∧ ∀ x, rs.head? = some x → key < f x := by
  induction xs generalizing pos with
  | nil =>
    simp only [binarySearchByKey, Except.error.injEq] at h
    exact ⟨[], [], rfl, h, by simp, by simp⟩
  | cons x xs ih =>
    unfold binarySearchByKey at h
    split at h
    . contradiction
    . next hne =>
      split at h
      . next hlt =>
        simp only [Except.error.injEq] at h
        exact ⟨[], x :: xs, rfl, h, by simp, by simpa using hlt⟩
      . next hge =>
        split at h
        . contradiction
        . next pos' hpos' =>
          simp only [Except.error.injEq] at h
          obtain ⟨ls, rs, rfl, hlen, hls, hrs⟩ := ih hpos'
          refine ⟨x :: ls, rs, rfl, by simp [hlen, h], ?_, hrs⟩
          simp only [List.mem_cons, forall_eq_or_imp]
          refine ⟨?_, hls⟩
          rw [UInt32.not_lt] at hge
          apply UInt32.lt_of_le_of_ne hge hne

theorem modify_length_append (ls rs : List α) (x : α) (f : α → α)
    : (ls ++ x :: rs).modify ls.length f = ls ++ f x :: rs := by
  induction ls with
  | nil => rfl
  | cons l ls ih => simp [ih]

theorem insertIdx_length_append_succ (ls rs : List α) (l x : α)
    : (ls ++ l :: rs).insertIdx (ls.length + 1) x = ls ++ l :: x :: rs := by
  induction ls with
  | nil => rfl
  | cons l ls ih => simp [ih]

theorem eraseIdx_length_append_succ (ls rs : List α) (l x : α)
    : (ls ++ l :: x :: rs).eraseIdx (ls.length + 1) = ls ++ l :: rs := by
  induction ls with
  | nil => rfl
  | cons l ls ih => simp [ih]

theorem insertSlice_inserted {slices : List Slice} (h : Starts slices) (begin endPos : UInt32)
    : Inserted begin endPos slices (insertSlice slices begin endPos) := by
  unfold insertSlice
  split
  . next pos hpos =>
    obtain ⟨ls, x, rs, rfl, rfl, hx⟩ := binarySearchByKey_eq_ok hpos
    obtain ⟨s, e⟩ := x
    dsimp only at hx
    subst hx
    rw [modify_length_append]
    exact .grown
  . next pos hpos =>
    obtain ⟨ls, rs, rfl, rfl, hls, hhead⟩ := binarySearchByKey_eq_error hpos
    have hrs : ∀ s ∈ rs, begin < s.1 := by
      cases rs with
      | nil => simp
      | cons r rs =>
        have hr := hhead r rfl
        unfold Starts at h
        rw [List.pairwise_append, List.pairwise_cons] at h
        simp only [List.mem_cons, forall_eq_or_imp]
        exact ⟨hr, fun s hs => UInt32.lt_trans hr (h.2.1.1 s hs)⟩
    rcases List.eq_nil_or_concat ls with rfl | ⟨ls, ⟨l1, l2⟩, rfl⟩
    . match rs with
      | [] =>
        have hins : Inserted begin endPos ([] ++ []) ([] ++ [(begin, endPos)]) :=
          .alone (by simp) (by simp) (by simp) (by simp)
        simpa using hins
      | (r1, r2) :: rs =>
        by_cases hr : r1 = endPos
        . subst hr
          have hlt : begin < r1 := hhead (r1, r2) rfl
          have hins : Inserted begin r1 ([] ++ (r1, r2) :: rs) ([] ++ (begin, r2) :: rs) :=
            .right (by simp) hlt (by simp)
          simpa using hins
        . have hins : Inserted begin endPos ([] ++ (r1, r2) :: rs)
              ([] ++ (begin, endPos) :: (r1, r2) :: rs) :=
            .alone (by simp) hrs (by simp) (by simpa)
          simpa [hr] using hins
    . rw [List.concat_eq_append] at hls ⊢
      have hlt1 : l1 < begin := hls (l1, l2) (by simp)
      match rs with
      | [] =>
        by_cases hl : begin ≤ l2
        . have hins : Inserted begin endPos (ls ++ [(l1, l2)]) (ls ++ [(l1, endPos)]) :=
            .left hlt1 (by simp) hl (by simp)
          simpa [hl] using hins
        . have hins : Inserted begin endPos (ls ++ [(l1, l2)] ++ [])
              (ls ++ [(l1, l2)] ++ [(begin, endPos)]) :=
            .alone hls (by simp) (by simpa using hl) (by simp)
          simpa [hl, insertIdx_length_append_succ] using hins
      | (r1, r2) :: rs =>
        by_cases hr : r1 = endPos
        . subst hr
          have hlt2 : begin < r1 := hhead (r1, r2) rfl
          by_cases hl : begin ≤ l2
          . have hins : Inserted begin r1 (ls ++ (l1, l2) :: (r1, r2) :: rs)
                (ls ++ (l1, r2) :: rs) :=
              .both hlt1 hlt2 hl
            simpa [hl, eraseIdx_length_append_succ] using hins
          . have hins : Inserted begin r1 (ls ++ [(l1, l2)] ++ (r1, r2) :: rs)
                (ls ++ [(l1, l2)] ++ (begin, r2) :: rs) :=
              .right hls hlt2 (by simpa using hl)
            simpa [hl] using hins
        . by_cases hl : begin ≤ l2
          . have hins : Inserted begin endPos (ls ++ (l1, l2) :: (r1, r2) :: rs)
                (ls ++ (l1, endPos) :: (r1, r2) :: rs) :=
              .left hlt1 hrs hl (by simpa)
            simpa [hr, hl] using hins
          . have hins : Inserted begin endPos (ls ++ [(l1, l2)] ++ (r1, r2) :: rs)
                (ls ++ [(l1, l2)] ++ (begin, endPos) :: (r1, r2) :: rs) :=
              .alone hls hrs (by simpa using hl) (by simpa using hr)
            simpa [hr, hl, insertIdx_length_append_succ] using hins

structure Slices where
  slices : List Slice
  expectedSize : Nat
  starts : Starts slices
  deriving DecidableEq

namespace Slices

def new (expectedSize : Nat) : Slices :=
  ⟨[], expectedSize, .nil⟩

def isComplete (s : Slices) : Bool :=
  match s.slices with
  | [(start, endPos)] => start = 0 && endPos = UInt32.ofNat s.expectedSize
  | _ => false

def insertRange (s : Slices) (begin endPos : UInt32) : Slices where
  slices := insertSlice s.slices begin endPos
  expectedSize := s.expectedSize
  starts := (insertSlice_inserted s.starts begin endPos).starts s.starts

def insert (build : Build) (s : Slices) (begin len : UInt32) : Outcome ε (Bool × Slices) := do
  let endPos ← build.u32Add begin len
  let s := s.insertRange begin endPos
  return (s.isComplete, s)

theorem isComplete_iff (s : Slices)
    : s.isComplete = true ↔ s.slices = [(0, UInt32.ofNat s.expectedSize)] := by
  unfold isComplete
  split
  . next hslices => simp [hslices]
  . next hslices =>
    simp only [Bool.false_eq_true, false_iff]
    exact hslices _ _

theorem insert_eq_ok {build : Build} {s s' : Slices} {begin len : UInt32} {finished : Bool}
    (h : (s.insert build begin len : Outcome ε (Bool × Slices)) = .ok (finished, s'))
    : finished = s'.isComplete ∧ ∃ endPos, s' = s.insertRange begin endPos := by
  unfold insert at h
  rw [Outcome.bind_eq_ok] at h
  obtain ⟨endPos, _, h⟩ := h
  simp only [Pure.pure, Except.pure, Except.ok.injEq, Prod.mk.injEq] at h
  obtain ⟨rfl, rfl⟩ := h
  exact ⟨rfl, endPos, rfl⟩

theorem insert_of_fits (build : Build) (s : Slices) (begin len : UInt32)
    (h : begin.toNat + len.toNat < 2 ^ 32)
    : (s.insert build begin len : Outcome ε (Bool × Slices))
        =
      .ok ((s.insertRange begin (begin + len)).isComplete, s.insertRange begin (begin + len)) := by
  unfold insert
  rw [Build.u32Add_of_fits _ _ _ h]
  rfl

theorem insert_eq_error {build : Build} {s : Slices} {begin len : UInt32} {e : Fault ε}
    (h : (s.insert build begin len : Outcome ε (Bool × Slices)) = .error e)
    : e = .panic := by
  unfold insert at h
  rw [Outcome.bind_eq_error] at h
  cases h with
  | inl h => apply Build.u32Add_eq_error h
  | inr h =>
    obtain ⟨_, _, h⟩ := h
    contradiction

def blockRange (block : UInt32 × UInt32) : Set UInt32 :=
  Set.Ico block.1 (block.1 + block.2)

/--
The ranges of the blocks, each of which begins at the first number and is as long as the second
says, are apart and make up what is missing.
-/
structure Awaits (s : Slices) (blocks : List (UInt32 × UInt32)) : Prop where
  runs : Runs s.slices
  expectedSize_pos : 0 < s.expectedSize
  expectedSize_lt : s.expectedSize < 2 ^ 32
  bounds : ∀ block ∈ blocks,
    0 < block.2.toNat ∧ block.1.toNat + block.2.toNat ≤ s.expectedSize
  apart : blocks.Pairwise fun block1 block2 => Disjoint (blockRange block1) (blockRange block2)
  missing : ∀ block ∈ blocks, Disjoint (covered s.slices) (blockRange block)
  union_eq : ∀ x : UInt32, x.toNat < s.expectedSize
    ↔ x ∈ covered s.slices ∨ ∃ block ∈ blocks, x ∈ blockRange block

theorem mem_blockRange {block : UInt32 × UInt32} (h : block.1.toNat + block.2.toNat < 2 ^ 32)
    (x : UInt32)
    : x ∈ blockRange block ↔ block.1.toNat ≤ x.toNat ∧ x.toNat < block.1.toNat + block.2.toNat := by
  unfold blockRange
  rw [Set.mem_Ico, UInt32.le_iff_toNat_le, UInt32.lt_iff_toNat_lt, UInt32.toNat_add,
    Nat.mod_eq_of_lt h]

theorem Awaits.lt_add {s : Slices} {block : UInt32 × UInt32} {blocks : List (UInt32 × UInt32)}
    (h : s.Awaits (block :: blocks))
    : block.1 < block.1 + block.2 := by
  have hbounds := h.bounds block List.mem_cons_self
  have hlt := h.expectedSize_lt
  rw [UInt32.lt_iff_toNat_lt, UInt32.toNat_add, Nat.mod_eq_of_lt (by omega)]
  omega

theorem Awaits.isComplete_eq {s : Slices} {blocks : List (UInt32 × UInt32)} (h : s.Awaits blocks)
    : s.isComplete = blocks.isEmpty := by
  have hpos := h.expectedSize_pos
  have hlt := h.expectedSize_lt
  have hu32 : UInt32.size = 2 ^ 32 := rfl
  have hsize : (UInt32.ofNat s.expectedSize).toNat = s.expectedSize :=
    UInt32.toNat_ofNat_of_lt' (by omega)
  cases blocks with
  | nil =>
    rw [List.isEmpty_nil, isComplete_iff]
    apply h.runs.eq_singleton
    . rw [UInt32.lt_iff_toNat_lt, hsize]
      exact hpos
    . ext x
      have hx := h.union_eq x
      simp only [List.not_mem_nil, false_and, exists_false, or_false] at hx
      rw [← hx, Set.mem_Ico, UInt32.lt_iff_toNat_lt, hsize]
      simp
  | cons block blocks =>
    rw [List.isEmpty_cons, Bool.eq_false_iff, ne_eq, isComplete_iff]
    intro hslices
    -- the first of the missing numbers would be there
    have hmem : block.1 ∈ blockRange block := ⟨le_refl _, h.lt_add⟩
    have hcov : block.1 ∈ covered s.slices := by
      have hbounds := h.bounds block List.mem_cons_self
      refine ⟨(0, UInt32.ofNat s.expectedSize), by simp [hslices], by simp, ?_⟩
      rw [UInt32.lt_iff_toNat_lt, hsize]
      omega
    exact Set.disjoint_left.mp (h.missing block List.mem_cons_self) hcov hmem

theorem Awaits.insert {s : Slices} {block : UInt32 × UInt32} {blocks : List (UInt32 × UInt32)}
    (h : s.Awaits (block :: blocks)) (build : Build)
    : ∃ s', (s.insert build block.1 block.2 : Outcome ε (Bool × Slices)) = .ok (blocks.isEmpty, s')
        ∧ s'.expectedSize = s.expectedSize ∧ s'.Awaits blocks := by
  have hbounds := h.bounds block List.mem_cons_self
  have hlt := h.expectedSize_lt
  have hinserted := insertSlice_inserted s.starts block.1 (block.1 + block.2)
  have hmissing := h.missing block List.mem_cons_self
  have hfits := h.runs.fits_of_disjoint h.lt_add hmissing
  obtain ⟨hruns, hcovered⟩ := hinserted.runs h.lt_add h.runs hfits
  have hapart := List.pairwise_cons.mp h.apart
  have hawaits : (s.insertRange block.1 (block.1 + block.2)).Awaits blocks := by
    constructor
    . exact hruns
    . exact h.expectedSize_pos
    . exact h.expectedSize_lt
    . intro block' hblock'
      exact h.bounds block' (List.mem_cons_of_mem _ hblock')
    . exact hapart.2
    . intro block' hblock'
      have hcov : covered (s.insertRange block.1 (block.1 + block.2)).slices
          = covered s.slices ∪ blockRange block := hcovered
      rw [hcov, Set.disjoint_union_left]
      exact ⟨h.missing block' (List.mem_cons_of_mem _ hblock'), hapart.1 block' hblock'⟩
    . intro x
      have hx := h.union_eq x
      have hcov : covered (s.insertRange block.1 (block.1 + block.2)).slices
          = covered s.slices ∪ blockRange block := hcovered
      rw [hcov, Set.mem_union]
      rw [List.exists_mem_cons_iff, ← or_assoc] at hx
      exact hx
  refine ⟨s.insertRange block.1 (block.1 + block.2), ?_, rfl, hawaits⟩
  rw [insert_of_fits _ _ _ _ (by omega), hawaits.isComplete_eq]

end Slices
