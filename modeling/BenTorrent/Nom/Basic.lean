import BenTorrent.Rust.Basic

/-!
This module contains the combinators of the crate `nom` on complete byte slices. It is assumed, as
documented, that a parser returns its value with what is left, that `alt` tries the next parser after
a failure, that `many_till` tries its end before each round and fails when a round takes nothing, and
that a failure leaves nothing behind.
-/

namespace Nom

inductive ErrorKind where
  | tag
  | eof
  | digit
  | alt
  | manyTill
  deriving Repr, DecidableEq

structure Error where
  input : Bytes
  code : ErrorKind
  deriving Repr, DecidableEq

abbrev Parser (α : Type u) := Bytes → Except Error (Bytes × α)

def tag (t : Bytes) : Parser Bytes := fun i =>
  if t.isPrefixOf i then .ok (i.drop t.length, t) else .error ⟨i, .tag⟩

def take (count : Nat) : Parser Bytes := fun i =>
  if count ≤ i.length then .ok (i.drop count, i.take count) else .error ⟨i, .eof⟩

def delimited (first : Parser α) (second : Parser β) (third : Parser γ) : Parser β := fun i => do
  let (i, _) ← first i
  let (i, o) ← second i
  let (i, _) ← third i
  return (i, o)

def alt : List (Parser α) → Parser α
  | [], i => .error ⟨i, .alt⟩
  | [p], i => p i
  | p :: ps, i =>
    match p i with
    | .ok res => .ok res
    | .error _ => alt ps i

def manyTill (f : Parser α) (g : Parser β) : Parser (List α × β) := fun i =>
  go (i.length + 1) i
where
  -- every round but the last consumes a byte, so the fuel does not run out
  go : Nat → Parser (List α × β)
    | 0, i => .error ⟨i, .manyTill⟩
    | fuel + 1, i =>
      match g i with
      | .ok (i1, o) => .ok (i1, [], o)
      | .error _ =>
        match f i with
        | .error e => .error e
        | .ok (i1, a) =>
          if i1.length = i.length then
            .error ⟨i1, .manyTill⟩
          else
            match go fuel i1 with
            | .ok (i2, as, o) => .ok (i2, a :: as, o)
            | .error e => .error e

def recognize (p : Parser α) : Parser Bytes := fun i =>
  match p i with
  | .ok (i1, _) => .ok (i1, i.take (i.length - i1.length))
  | .error e => .error e

def Shrinks (p : Parser α) : Prop :=
  ∀ i r a, p i = .ok (r, a) → r.length ≤ i.length

theorem bind_eq_ok {x : Except Error (Bytes × α)} {f : Bytes × α → Except Error (Bytes × β)}
    {res : Bytes × β}
    : (x >>= f) = .ok res ↔ ∃ i a, x = .ok (i, a) ∧ f (i, a) = .ok res := by
  cases x with
  | ok v =>
    obtain ⟨i, a⟩ := v
    simp [bind, Except.bind]
  | error e => simp [bind, Except.bind]

@[simp]
theorem ok_bind (v : Bytes × α) (f : Bytes × α → Except Error (Bytes × β))
    : (Except.ok v >>= f) = f v := by
  rfl

@[simp]
theorem error_bind (e : Error) (f : Bytes × α → Except Error (Bytes × β))
    : (Except.error e >>= f) = .error e := by
  rfl

@[simp]
theorem tag_singleton_cons_self (c : UInt8) (i : Bytes) : tag [c] (c :: i) = .ok (i, [c]) := by
  simp [tag]

theorem tag_singleton_cons_of_ne (c d : UInt8) (i : Bytes) (h : c ≠ d)
    : tag [c] (d :: i) = .error ⟨d :: i, .tag⟩ := by
  simp [tag, h]

theorem tag_singleton_eq_ok {c : UInt8} {i r t : Bytes} (h : tag [c] i = .ok (r, t))
    : i = c :: r ∧ t = [c] := by
  unfold tag at h
  split at h
  . next hprefix =>
    cases i with
    | nil => simp at hprefix
    | cons d i =>
      simp only [List.isPrefixOf, Bool.and_true, beq_iff_eq] at hprefix
      simp only [List.length_singleton, List.drop_succ_cons, List.drop_zero, Except.ok.injEq,
        Prod.mk.injEq] at h
      rw [← h.1, ← h.2, hprefix]
      simp
  . contradiction

theorem tag_shrinks (t : Bytes) : Shrinks (tag t) := by
  intro i r res h
  unfold tag at h
  split at h
  . simp only [Except.ok.injEq, Prod.mk.injEq] at h
    rw [← h.1, List.length_drop]
    omega
  . contradiction

theorem take_shrinks (count : Nat) : Shrinks (take count) := by
  intro i r res h
  unfold take at h
  split at h
  . simp only [Except.ok.injEq, Prod.mk.injEq] at h
    rw [← h.1, List.length_drop]
    omega
  . contradiction

theorem Shrinks.bind {p : Parser α} {f : α → Parser β} (hp : Shrinks p) (hf : ∀ a, Shrinks (f a))
    : Shrinks fun i => p i >>= fun res => f res.2 res.1 := by
  intro i r res h
  rw [bind_eq_ok] at h
  obtain ⟨i1, a, h1, h2⟩ := h
  apply Nat.le_trans (hf a i1 r res h2) (hp i i1 a h1)

theorem Shrinks.pure (a : α) : Shrinks fun i => .ok (i, a) := by
  intro i r res h
  simp only [Except.ok.injEq, Prod.mk.injEq] at h
  simp [h.1]

theorem delimited_shrinks {first : Parser α} {second : Parser β} {third : Parser γ}
    (h1 : Shrinks first) (h2 : Shrinks second) (h3 : Shrinks third)
    : Shrinks (delimited first second third) :=
  h1.bind fun _ => h2.bind fun o => h3.bind fun _ => .pure o

theorem take_append (x r : Bytes) : take x.length (x ++ r) = .ok (r, x) := by
  simp [take]

theorem take_eq_ok {count : Nat} {i r x : Bytes} (h : take count i = .ok (r, x))
    : i = x ++ r ∧ x.length = count := by
  unfold take at h
  split at h
  . next hcount =>
    simp only [Except.ok.injEq, Prod.mk.injEq] at h
    rw [← h.1, ← h.2, List.take_append_drop, List.length_take]
    exact ⟨rfl, Nat.min_eq_left hcount⟩
  . contradiction

theorem alt_cons_of_ok {p : Parser α} {ps : List (Parser α)} {i : Bytes} {res : Bytes × α}
    (h : p i = .ok res)
    : alt (p :: ps) i = .ok res := by
  cases ps with
  | nil => exact h
  | cons => simp [alt, h]

theorem alt_cons_of_error {p q : Parser α} {ps : List (Parser α)} {i : Bytes} {e : Error}
    (h : p i = .error e)
    : alt (p :: q :: ps) i = alt (q :: ps) i := by
  simp [alt, h]

theorem alt_eq_ok {ps : List (Parser α)} {i : Bytes} {res : Bytes × α} (h : alt ps i = .ok res)
    : ∃ p ∈ ps, p i = .ok res := by
  induction ps with
  | nil => contradiction
  | cons p ps ih =>
    cases hp : p i with
    | ok res' =>
      rw [alt_cons_of_ok hp] at h
      exact ⟨p, by simp, by rw [hp, h]⟩
    | error e =>
      cases ps with
      | nil =>
        rw [alt, hp] at h
        contradiction
      | cons q ps =>
        rw [alt_cons_of_error hp] at h
        obtain ⟨p', hmem, hp'⟩ := ih h
        exact ⟨p', List.mem_cons_of_mem p hmem, hp'⟩

theorem alt_shrinks {ps : List (Parser α)} (hps : ∀ p ∈ ps, Shrinks p) : Shrinks (alt ps) := by
  intro i r res h
  obtain ⟨p, hmem, hp⟩ := alt_eq_ok h
  exact hps p hmem i r res hp

theorem alt_congr {ps qs : List (Parser α)} {i : Bytes}
    (h : ps.map (fun p => p i) = qs.map (fun p => p i))
    : alt ps i = alt qs i := by
  induction ps generalizing qs with
  | nil =>
    rw [List.map_nil, List.nil_eq, List.map_eq_nil_iff] at h
    rw [h]
  | cons p ps ih =>
    cases qs with
    | nil => simp at h
    | cons q qs =>
      simp only [List.map_cons, List.cons.injEq] at h
      cases hp : p i with
      | ok res => rw [alt_cons_of_ok hp, alt_cons_of_ok (h.1 ▸ hp)]
      | error e =>
        cases ps with
        | nil =>
          have : qs = [] := by simpa using h.2.symm
          rw [this, alt, alt, h.1]
        | cons p' ps =>
          cases qs with
          | nil => simp at h
          | cons q' qs =>
            rw [alt_cons_of_error hp, alt_cons_of_error (h.1 ▸ hp)]
            exact ih h.2

namespace manyTill

variable {f : Parser α} {g : Parser β}

theorem go_succ_eq_ok {fuel : Nat} {i r : Bytes} {as : List α} {o : β}
    (h : go f g (fuel + 1) i = .ok (r, as, o))
    : (g i = .ok (r, o) ∧ as = [])
        ∨
      ∃ i1 a as', f i = .ok (i1, a) ∧ go f g fuel i1 = .ok (r, as', o) ∧ as = a :: as' := by
  unfold go at h
  split at h
  . next i1 o' hg =>
    simp only [Except.ok.injEq, Prod.mk.injEq] at h
    obtain ⟨rfl, rfl, rfl⟩ := h
    exact .inl ⟨hg, rfl⟩
  . split at h
    . contradiction
    . next i1 a hf =>
      split at h
      . contradiction
      . split at h
        . next i2 as' o' hgo =>
          simp only [Except.ok.injEq, Prod.mk.injEq] at h
          obtain ⟨rfl, rfl, rfl⟩ := h
          exact .inr ⟨i1, a, as', hf, hgo, rfl⟩
        . contradiction

theorem go_shrinks (hf : Shrinks f) (hg : Shrinks g) (fuel : Nat) : Shrinks (go f g fuel) := by
  intro i r res h
  induction fuel generalizing i res with
  | zero => contradiction
  | succ fuel ih =>
    obtain ⟨as, o⟩ := res
    cases go_succ_eq_ok h with
    | inl h => exact hg i r o h.1
    | inr h =>
      obtain ⟨i1, a, as', hfi, hgo, -⟩ := h
      apply Nat.le_trans (ih i1 _ hgo) (hf i i1 a hfi)

theorem go_forall {P : α → Prop} (hf : ∀ i r a, f i = .ok (r, a) → P a) (fuel : Nat)
    {i r : Bytes} {as : List α} {o : β} (h : go f g fuel i = .ok (r, as, o))
    : ∀ a ∈ as, P a := by
  induction fuel generalizing i as with
  | zero => contradiction
  | succ fuel ih =>
    cases go_succ_eq_ok h with
    | inl h => simp [h.2]
    | inr h =>
      obtain ⟨i1, a, as', hfi, hgo, rfl⟩ := h
      simp only [List.mem_cons, forall_eq_or_imp]
      exact ⟨hf i i1 a hfi, ih hgo⟩

theorem go_congr {f' : Parser α} (hshrinks : Shrinks f) (fuel m : Nat)
    (hf : ∀ j, j.length ≤ m → f j = f' j) (i : Bytes) (hi : i.length ≤ m)
    : go f g fuel i = go f' g fuel i := by
  induction fuel generalizing i with
  | zero => rfl
  | succ fuel ih =>
    unfold go
    rw [← hf i hi]
    cases hg : g i with
    | ok res => rfl
    | error e =>
      cases hfi : f i with
      | error e => rfl
      | ok res =>
        obtain ⟨i1, a⟩ := res
        have := hshrinks i i1 a hfi
        dsimp only
        rw [ih i1 (by omega)]

theorem go_flatMap {spell : γ → Bytes} {val : γ → α} {o : β} {stop r : Bytes} (items : List γ)
    (hf : ∀ x ∈ items, ∀ rest, f (spell x ++ rest) = .ok (rest, val x))
    (hg : ∀ x ∈ items, ∀ rest, ∃ e, g (spell x ++ rest) = .error e)
    (hstop : g stop = .ok (r, o)) (fuel : Nat)
    (hfuel : (items.flatMap spell ++ stop).length < fuel)
    : go f g fuel (items.flatMap spell ++ stop) = .ok (r, items.map val, o) := by
  induction items generalizing fuel with
  | nil =>
    cases fuel with
    | zero => contradiction
    | succ fuel => simp [go, hstop]
  | cons x items ih =>
    cases fuel with
    | zero => contradiction
    | succ fuel =>
      obtain ⟨e, he⟩ := hg x (by simp) (items.flatMap spell ++ stop)
      have hx := hf x (by simp) (items.flatMap spell ++ stop)
      -- an empty spelling could be read at `stop` as well, where `g` succeeds
      have hne : spell x ≠ [] := by
        intro hnil
        obtain ⟨e, he⟩ := hg x (by simp) stop
        rw [hnil, List.nil_append, hstop] at he
        contradiction
      have hlen : 0 < (spell x).length := List.length_pos_iff.mpr hne
      rw [List.flatMap_cons, List.append_assoc] at hfuel ⊢
      rw [List.length_append] at hfuel
      unfold go
      simp only [he, hx]
      rw [if_neg, ih]
      . rfl
      . intro y hy
        exact hf y (List.mem_cons_of_mem x hy)
      . intro y hy
        exact hg y (List.mem_cons_of_mem x hy)
      . omega
      . simp only [List.length_append]
        omega

end manyTill

theorem manyTill_shrinks {f : Parser α} {g : Parser β} (hf : Shrinks f) (hg : Shrinks g)
    : Shrinks (manyTill f g) := by
  intro i r res h
  apply manyTill.go_shrinks hf hg _ i r res h

theorem manyTill_congr {f f' : Parser α} {g : Parser β} (hshrinks : Shrinks f) (i : Bytes)
    (hf : ∀ j, j.length ≤ i.length → f j = f' j)
    : manyTill f g i = manyTill f' g i := by
  apply manyTill.go_congr hshrinks _ i.length hf
  omega

theorem manyTill_forall {f : Parser α} {g : Parser β} {P : α → Prop}
    (hf : ∀ i r a, f i = .ok (r, a) → P a) {i r : Bytes} {as : List α} {o : β}
    (h : manyTill f g i = .ok (r, as, o))
    : ∀ a ∈ as, P a :=
  manyTill.go_forall hf _ h

theorem manyTill_flatMap {f : Parser α} {g : Parser β} {spell : γ → Bytes} {val : γ → α} {o : β}
    {stop r : Bytes} (items : List γ)
    (hf : ∀ x ∈ items, ∀ rest, f (spell x ++ rest) = .ok (rest, val x))
    (hg : ∀ x ∈ items, ∀ rest, ∃ e, g (spell x ++ rest) = .error e)
    (hstop : g stop = .ok (r, o))
    : manyTill f g (items.flatMap spell ++ stop) = .ok (r, items.map val, o) := by
  apply manyTill.go_flatMap items hf hg hstop
  omega

end Nom
