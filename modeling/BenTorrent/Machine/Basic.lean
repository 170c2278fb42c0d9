import Mathlib.Data.List.Induction
import Mathlib.Tactic.Common

/-!
This module contains machines that answer an input with an output, and what holds along their runs.
Whatever a modelled system leaves open (a schedule, an iteration order, the time) is part of the
input.
-/

/--
Some entry has `P`, and none behind it has `Q`.
-/
def Since (P Q : α → Prop) (tr : List α) : Prop :=
  ∃ tr1 x tr2, tr = tr1 ++ x :: tr2 ∧ P x ∧ ∀ y ∈ tr2, ¬Q y

theorem not_since_nil {P Q : α → Prop} : ¬Since P Q [] := by
  intro ⟨tr1, x, tr2, htr, _⟩
  simp at htr

theorem since_append_singleton {P Q : α → Prop} {tr : List α} {y : α}
    : Since P Q (tr ++ [y]) ↔ P y ∨ (Since P Q tr ∧ ¬Q y) := by
  constructor
  . intro ⟨tr1, x, tr2, htr, hx, htr2⟩
    rcases List.eq_nil_or_concat tr2 with rfl | ⟨tr2, z, rfl⟩
    . obtain ⟨_, hxy⟩ := List.append_inj' htr rfl
      simp only [List.cons.injEq, and_true] at hxy
      subst hxy
      exact .inl hx
    . rw [List.concat_eq_append, ← List.cons_append, ← List.append_assoc] at htr
      obtain ⟨rfl, hyz⟩ := List.append_inj' htr rfl
      simp only [List.cons.injEq, and_true] at hyz
      subst hyz
      right
      refine ⟨⟨tr1, x, tr2, rfl, hx, ?_⟩, htr2 y (by simp)⟩
      intro z hz
      exact htr2 z (by simp [hz])
  . intro h
    cases h with
    | inl hy => exact ⟨tr, y, [], rfl, hy, by simp⟩
    | inr h =>
      obtain ⟨⟨tr1, x, tr2, rfl, hx, htr2⟩, hy⟩ := h
      refine ⟨tr1, x, tr2 ++ [y], by simp, hx, ?_⟩
      intro z hz
      rw [List.mem_append, List.mem_singleton] at hz
      cases hz with
      | inl hz => exact htr2 z hz
      | inr hz =>
        rw [hz]
        exact hy

theorem since_filterMap {P Q : β → Prop} (f : α → Option β) (tr : List α)
    : Since P Q (tr.filterMap f)
        ↔
      Since (fun x => ∃ y ∈ f x, P y) (fun x => ∃ y ∈ f x, Q y) tr := by
  induction tr using List.reverseRecOn with
  | nil => simp [not_since_nil]
  | append_singleton tr x ih =>
    rw [List.filterMap_append, since_append_singleton, ← ih]
    cases hx : f x with
    | none => simp [hx]
    | some y =>
      have hy : [x].filterMap f = [y] := by simp [hx]
      rw [hy, since_append_singleton]
      simp

theorem since_congr {P P' Q Q' : α → Prop} {tr : List α} (hP : ∀ x, P x ↔ P' x)
    (hQ : ∀ x, Q x ↔ Q' x)
    : Since P Q tr ↔ Since P' Q' tr := by
  rw [funext fun x => propext (hP x), funext fun x => propext (hQ x)]

structure Machine (σ : Type u) (ι : Type v) (ο : Type w) where
  step : σ → ι → Option (ο × σ)

namespace Machine

variable {σ : Type u} {ι : Type v} {ο : Type w} (m : Machine σ ι ο)

inductive RunWhile (guard : σ → ι → Prop) : σ → List (ι × ο) → σ → Prop where
  | nil (s : σ) : RunWhile guard s [] s
  | cons {s1 s2 s3 : σ} {i : ι} {o : ο} {tr : List (ι × ο)} (hguard : guard s1 i)
      (hstep : m.step s1 i = some (o, s2)) (hrun : RunWhile guard s2 tr s3)
      : RunWhile guard s1 ((i, o) :: tr) s3

abbrev Run : σ → List (ι × ο) → σ → Prop :=
  m.RunWhile fun _ _ => True

variable {m} {guard : σ → ι → Prop}

theorem RunWhile.append {s1 s2 s3 : σ} {tr1 tr2 : List (ι × ο)} (h1 : m.RunWhile guard s1 tr1 s2)
    (h2 : m.RunWhile guard s2 tr2 s3)
    : m.RunWhile guard s1 (tr1 ++ tr2) s3 := by
  induction h1 with
  | nil => exact h2
  | cons hguard hstep _ ih => exact .cons hguard hstep (ih h2)

theorem RunWhile.append_iff {s1 s3 : σ} {tr1 tr2 : List (ι × ο)}
    : m.RunWhile guard s1 (tr1 ++ tr2) s3
        ↔
      ∃ s2, m.RunWhile guard s1 tr1 s2 ∧ m.RunWhile guard s2 tr2 s3 := by
  constructor
  . intro h
    induction tr1 generalizing s1 with
    | nil => exact ⟨s1, .nil s1, h⟩
    | cons _ _ ih =>
      cases h with
      | cons hguard hstep hrun =>
        obtain ⟨s2, h1, h2⟩ := ih hrun
        exact ⟨s2, .cons hguard hstep h1, h2⟩
  . intro ⟨s2, h1, h2⟩
    apply h1.append h2

theorem RunWhile.cons_iff {s1 s3 : σ} {i : ι} {o : ο} {tr : List (ι × ο)}
    : m.RunWhile guard s1 ((i, o) :: tr) s3
        ↔
      ∃ s2, guard s1 i ∧ m.step s1 i = some (o, s2) ∧ m.RunWhile guard s2 tr s3 := by
  constructor
  . intro h
    cases h with
    | cons hguard hstep hrun => exact ⟨_, hguard, hstep, hrun⟩
  . intro ⟨s2, hguard, hstep, hrun⟩
    exact .cons hguard hstep hrun

theorem RunWhile.final_unique {guard' : σ → ι → Prop} {s1 s2 s2' : σ} {tr : List (ι × ο)}
    (h : m.RunWhile guard s1 tr s2) (h' : m.RunWhile guard' s1 tr s2')
    : s2 = s2' := by
  induction h with
  | nil =>
    cases h'
    rfl
  | cons _ hstep _ ih =>
    cases h' with
    | cons _ hstep' hrun' =>
      rw [hstep, Option.some.injEq, Prod.mk.injEq] at hstep'
      obtain ⟨_, rfl⟩ := hstep'
      exact ih hrun'

theorem RunWhile.mono {guard' : σ → ι → Prop} {s1 s2 : σ} {tr : List (ι × ο)}
    (hguard : ∀ s i, guard s i → guard' s i) (h : m.RunWhile guard s1 tr s2)
    : m.RunWhile guard' s1 tr s2 := by
  induction h with
  | nil s => exact .nil s
  | cons hg hstep _ ih => exact .cons (hguard _ _ hg) hstep ih

theorem Run.while {s1 s2 : σ} {tr : List (ι × ο)} (h : m.Run s1 tr s2)
    (hguard : ∀ s, ∀ i ∈ tr.map Prod.fst, guard s i)
    : m.RunWhile guard s1 tr s2 := by
  induction h with
  | nil s => exact .nil s
  | cons _ hstep _ ih =>
    simp only [List.map_cons, List.forall_mem_cons] at hguard
    apply RunWhile.cons (hguard _).1 hstep
    apply ih
    intro s
    exact (hguard s).2

theorem RunWhile.invariant {P : σ → Prop} {s1 s2 : σ} {tr : List (ι × ο)}
    (h : m.RunWhile guard s1 tr s2)
    (hstep : ∀ s i o s', guard s i → m.step s i = some (o, s') → P s → P s') (h1 : P s1)
    : P s2 := by
  induction h with
  | nil => exact h1
  | cons hg hs _ ih => exact ih (hstep _ _ _ _ hg hs h1)

theorem RunWhile.invariant_trace {P : List (ι × ο) → σ → Prop} {s1 s2 : σ} {tr : List (ι × ο)}
    (h : m.RunWhile guard s1 tr s2)
    (hstep : ∀ tr s i o s', guard s i → m.step s i = some (o, s') → P tr s →
      P (tr ++ [(i, o)]) s')
    (h1 : P [] s1)
    : P tr s2 := by
  have hprefix : ∀ tr0, P tr0 s1 → P (tr0 ++ tr) s2 := by
    clear h1
    induction h with
    | nil =>
      intro tr0 h0
      rwa [List.append_nil]
    | @cons s1 s2 s3 i o tr hg hs _ ih =>
      intro tr0 h0
      have htr := ih (tr0 ++ [(i, o)]) (hstep tr0 s1 i o s2 hg hs h0)
      rwa [List.append_assoc] at htr
  exact hprefix [] h1

theorem RunWhile.iff_always {P : σ → Prop} {s1 s2 : σ} {tr : List (ι × ο)}
    (hrun : m.Run s1 tr s2)
    (hstep : ∀ s i o s', P s → m.step s i = some (o, s') → (P s' ↔ guard s i)) (h1 : P s1)
    : m.RunWhile guard s1 tr s2 ↔ ∀ tr1 tr2 s, tr = tr1 ++ tr2 → m.Run s1 tr1 s → P s := by
  constructor
  . intro h tr1 tr2 s htr hrun1
    subst htr
    obtain ⟨s', h', _⟩ := append_iff.mp h
    obtain rfl := hrun1.final_unique h'
    apply h'.invariant (fun s i o s' hg hs hP => (hstep s i o s' hP hs).mpr hg) h1
  . intro h
    induction hrun with
    | nil s => exact .nil s
    | @cons s1 s s2 i o tr _ hs _ ih =>
      have hP : P s := h [(i, o)] tr s rfl (.cons trivial hs (.nil s))
      have hguard := (hstep s1 i o s h1 hs).mp hP
      apply RunWhile.cons hguard hs
      apply ih hP
      intro tr1 tr2 s' htr hrun1
      exact h ((i, o) :: tr1) tr2 s' (by rw [htr, List.cons_append]) (.cons trivial hs hrun1)

/--
A guard is exact for a property when it keeps an invariant that has the property, and when a step
that it forbids leads out of the property.
-/
theorem RunWhile.iff_of_invariant {P Q : List (ι × ο) → σ → Prop} {s1 s2 : σ} {tr : List (ι × ο)}
    (hrun : m.Run s1 tr s2)
    (hstep : ∀ tr s i o s', Q tr s → m.step s i = some (o, s') → guard s i →
      Q (tr ++ [(i, o)]) s')
    (hbad : ∀ tr s i o s', Q tr s → m.step s i = some (o, s') → ¬guard s i →
      ¬P (tr ++ [(i, o)]) s')
    (hP : ∀ tr s, Q tr s → P tr s) (h1 : Q [] s1)
    : m.RunWhile guard s1 tr s2 ↔ ∀ tr1 tr2 s, tr = tr1 ++ tr2 → m.Run s1 tr1 s → P tr1 s := by
  constructor
  . intro h tr1 tr2 s htr hrun1
    subst htr
    obtain ⟨s', h', _⟩ := append_iff.mp h
    obtain rfl := hrun1.final_unique h'
    apply hP
    exact h'.invariant_trace (fun tr s i o s' hg hs hQ => hstep tr s i o s' hQ hs hg) h1
  . intro h
    have hprefix : ∀ tr0, Q tr0 s1 →
        (∀ tr1 tr2 s, tr = tr1 ++ tr2 → m.Run s1 tr1 s → P (tr0 ++ tr1) s) →
        m.RunWhile guard s1 tr s2 := by
      clear h h1
      induction hrun with
      | nil s =>
        intro _ _ _
        exact .nil s
      | @cons s1 s s2 i o tr _ hs _ ih =>
        intro tr0 h0 h
        have hguard : guard s1 i := by
          by_contra hguard
          apply hbad tr0 s1 i o s h0 hs hguard
          exact h [(i, o)] tr s rfl (.cons trivial hs (.nil s))
        apply RunWhile.cons hguard hs
        apply ih (tr0 ++ [(i, o)]) (hstep tr0 s1 i o s h0 hs hguard)
        intro tr1 tr2 s' htr hrun1
        rw [List.append_assoc]
        exact h ((i, o) :: tr1) tr2 s' (by rw [htr, List.cons_append]) (.cons trivial hs hrun1)
    exact hprefix [] h1 h

theorem RunWhile.iff_forall_step {s1 s2 : σ} {tr : List (ι × ο)} (hrun : m.Run s1 tr s2)
    : m.RunWhile guard s1 tr s2
        ↔
      ∀ tr1 i o tr2 s s', tr = tr1 ++ (i, o) :: tr2 → m.Run s1 tr1 s →
        m.step s i = some (o, s') → guard s i := by
  constructor
  . intro h tr1 i o tr2 s s' htr hrun1 _
    subst htr
    obtain ⟨s1', h1, h2⟩ := append_iff.mp h
    obtain rfl := hrun1.final_unique h1
    obtain ⟨_, hguard, _⟩ := cons_iff.mp h2
    exact hguard
  . intro h
    induction hrun with
    | nil s => exact .nil s
    | @cons s1 s s2 i o tr _ hs _ ih =>
      apply RunWhile.cons (h [] i o tr s1 s rfl (.nil s1) hs) hs
      apply ih
      intro tr1 i' o' tr2 s' s'' htr hrun1
      exact h ((i, o) :: tr1) i' o' tr2 s' s'' (by rw [htr, List.cons_append])
        (.cons trivial hs hrun1)

def exec (m : Machine σ ι ο) (s : σ) : List ι → Option (List (ι × ο) × σ)
  | [] => some ([], s)
  | i :: is =>
    match m.step s i with
    | none => none
    | some (o, s) =>
      match exec m s is with
      | none => none
      | some (tr, s) => some ((i, o) :: tr, s)

theorem run_of_exec {s1 s2 : σ} {is : List ι} {tr : List (ι × ο)}
    (h : m.exec s1 is = some (tr, s2))
    : m.Run s1 tr s2 := by
  induction is generalizing s1 tr with
  | nil =>
    simp only [exec, Option.some.injEq, Prod.mk.injEq] at h
    rw [← h.1, ← h.2]
    exact .nil s1
  | cons i is ih =>
    unfold exec at h
    split at h
    . contradiction
    . next o s hstep =>
      split at h
      . contradiction
      . next tr' s' hexec =>
        simp only [Option.some.injEq, Prod.mk.injEq] at h
        obtain ⟨rfl, rfl⟩ := h
        exact .cons trivial hstep (ih hexec)

/--
A run on fixed inputs, with what is to be known of it.
-/
theorem exists_run_of_exec (m : Machine σ ι ο) (s1 : σ) (is : List ι)
    (f : List (ι × ο) × σ → β) {b : β} (h : (m.exec s1 is).map f = some b)
    : ∃ tr s2, m.Run s1 tr s2 ∧ tr.map Prod.fst = is ∧ f (tr, s2) = b := by
  rw [Option.map_eq_some_iff] at h
  obtain ⟨⟨tr, s2⟩, hexec, hf⟩ := h
  refine ⟨tr, s2, run_of_exec hexec, ?_, hf⟩
  clear hf
  induction is generalizing s1 tr with
  | nil =>
    simp only [exec, Option.some.injEq, Prod.mk.injEq] at hexec
    rw [← hexec.1, List.map_nil]
  | cons i is ih =>
    unfold exec at hexec
    split at hexec
    . contradiction
    . split at hexec
      . contradiction
      . next hrest =>
        simp only [Option.some.injEq, Prod.mk.injEq] at hexec
        obtain ⟨rfl, rfl⟩ := hexec
        rw [List.map_cons, ih _ _ hrest]

section collect

variable (m) (f : σ → ι → Option β)

/--
What is to be noted of the steps of a run, each with the state that it starts in.
-/
def collect : σ → List (ι × ο) → List β
  | _, [] => []
  | s, (i, _) :: tr =>
    match m.step s i with
    | none => []
    | some (_, s') => (f s i).toList ++ collect s' tr

theorem collect_cons {s s' : σ} {i : ι} {o : ο} (hstep : m.step s i = some (o, s'))
    (tr : List (ι × ο))
    : m.collect f s ((i, o) :: tr) = (f s i).toList ++ m.collect f s' tr := by
  simp only [collect, hstep]

variable {m} in
theorem RunWhile.collect_append {s s1 : σ} {tr : List (ι × ο)} (hrun : m.RunWhile guard s tr s1)
    (tr' : List (ι × ο))
    : m.collect f s (tr ++ tr') = m.collect f s tr ++ m.collect f s1 tr' := by
  induction hrun with
  | nil => rfl
  | cons _ hs _ ih =>
    rw [List.cons_append, collect_cons _ _ hs, collect_cons _ _ hs, ih, List.append_assoc]

variable {m} in
theorem RunWhile.collect_append_singleton {s s1 s2 : σ} {tr : List (ι × ο)} {i : ι} {o : ο}
    (hrun : m.RunWhile guard s tr s1) (hstep : m.step s1 i = some (o, s2))
    : m.collect f s (tr ++ [(i, o)]) = m.collect f s tr ++ (f s1 i).toList := by
  rw [hrun.collect_append, collect_cons _ _ hstep]
  simp [collect]

end collect

section lockstep

variable {σ' : Type*} {ο' : Type*}

def lockstep (m : Machine σ ι ο) (m' : Machine σ' ι ο') : Machine (σ × σ') ι (ο × ο') where
  step s i :=
    match m.step s.1 i, m'.step s.2 i with
    | some (o, s1), some (o', s2) => some ((o, o'), (s1, s2))
    | _, _ => none

theorem step_lockstep_iff {m : Machine σ ι ο} {m' : Machine σ' ι ο'} {s s1 : σ × σ'} {i : ι}
    {o : ο × ο'}
    : (m.lockstep m').step s i = some (o, s1)
        ↔
      m.step s.1 i = some (o.1, s1.1) ∧ m'.step s.2 i = some (o.2, s1.2) := by
  obtain ⟨s1, s1'⟩ := s1
  obtain ⟨o, o'⟩ := o
  unfold lockstep
  dsimp only
  split
  . next h h' => simp [h, h', and_left_comm, and_assoc]
  . next hnone =>
    simp only [reduceCtorEq, false_iff]
    intro ⟨h, h'⟩
    exact hnone _ _ _ _ h h'

end lockstep

section restrict

variable (m : Machine σ ι ο) (guard : σ → ι → Prop) [∀ s i, Decidable (guard s i)]

def restrict : Machine σ ι ο where
  step s i := if guard s i then m.step s i else none

theorem runWhile_of_restrict {s1 s2 : σ} {tr : List (ι × ο)} (h : (m.restrict guard).Run s1 tr s2)
    : m.RunWhile guard s1 tr s2 := by
  induction h with
  | nil s => exact .nil s
  | cons _ hstep _ ih =>
    unfold restrict at hstep
    dsimp only at hstep
    split at hstep
    . next hguard => exact .cons hguard hstep ih
    . contradiction

variable (guard' : σ → ι → Prop) [∀ s i, Decidable (guard' s i)]

theorem exists_runs_of_exec (s1 : σ) (is1 is2 : List ι)
    (f : List (ι × ο) × σ × List (ι × ο) × σ → β) {b : β}
    (h : ((m.restrict guard).exec s1 is1).bind (fun x =>
      ((m.restrict guard').exec x.2 is2).map fun y => f (x.1, x.2, y.1, y.2)) = some b)
    : ∃ tr1 s2 tr2 s3, m.RunWhile guard s1 tr1 s2 ∧ m.RunWhile guard' s2 tr2 s3
        ∧ f (tr1, s2, tr2, s3) = b := by
  rw [Option.bind_eq_some_iff] at h
  obtain ⟨⟨tr1, s2⟩, hexec1, h⟩ := h
  rw [Option.map_eq_some_iff] at h
  obtain ⟨⟨tr2, s3⟩, hexec2, hf⟩ := h
  exact ⟨tr1, s2, tr2, s3, m.runWhile_of_restrict guard (run_of_exec hexec1),
    m.runWhile_of_restrict guard' (run_of_exec hexec2), hf⟩

end restrict

end Machine
