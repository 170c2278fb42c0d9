import BenTorrent.File.BencodeLemmas

/-!
This module contains canonical bencode: the spellings that use no redundant digit and no redundant
sign, and list the keys of a dictionary in order and once.
-/

open Rust Nom

namespace Bencode

def CanonicalInt (ds : Bytes) : Prop :=
  (Decimal.CanonicalNat ds ∧ Decimal.toNat ds < 2 ^ 63)
    ∨
  ∃ ds', ds = 45 :: ds' ∧ Decimal.CanonicalNat ds' ∧ 0 < Decimal.toNat ds' ∧ Decimal.toNat ds' ≤ 2 ^ 63

def CanonicalString (w x : Bytes) : Prop :=
  ∃ ds, w = ds ++ colon :: x ∧ Decimal.CanonicalNat ds ∧ Decimal.toNat ds = x.length
    ∧ x.length < 2 ^ 32

structure RawEntry where
  key : Bytes
  plainKey : Bytes
  value : Bytes

inductive Canonical : Bytes → Prop where
  | int (ds : Bytes) (h : CanonicalInt ds) : Canonical (intStart :: (ds ++ [stop]))
  | byteString (w x : Bytes) (h : CanonicalString w x) : Canonical w
  | list (ws : List Bytes) (h : ∀ w ∈ ws, Canonical w)
      : Canonical (listStart :: (ws.flatten ++ [stop]))
  | dictionary (es : List RawEntry) (hkeys : ∀ e ∈ es, CanonicalString e.key e.plainKey)
      (hsorted : es.Pairwise fun e1 e2 => e1.plainKey < e2.plainKey)
      (hvals : ∀ e ∈ es, Canonical e.value)
      : Canonical (dictStart :: (es.flatMap (fun e => e.key ++ e.value) ++ [stop]))

def StartsCanonical (i : Bytes) : Prop :=
  ∃ w r, i = w ++ r ∧ Canonical w

def rawEntry (e : ByteString × Bencode) : RawEntry where
  key := encodeBs e.1
  plainKey := e.1.elements
  value := encode e.2

theorem encodeDictionary_eq_flatMap_rawEntry (d : DictT)
    : encodeDictionary d = (d.map rawEntry).flatMap fun e => e.key ++ e.value := by
  rw [encodeDictionary_eq_flatMap, List.flatMap_map]
  rfl

theorem canonicalString_encodeBs (bs : ByteString) (h : bs.elements.length < 2 ^ 32)
    : CanonicalString (encodeBs bs) bs.elements :=
  ⟨Decimal.ofNat bs.elements.length, rfl, Decimal.canonicalNat_ofNat _, Decimal.toNat_ofNat _, h⟩

theorem encodeBs_of_canonicalString {w x : Bytes} (h : CanonicalString w x)
    : encodeBs ⟨x⟩ = w := by
  obtain ⟨ds, rfl, hds, hlen, -⟩ := h
  unfold encodeBs
  dsimp only
  rw [← hlen, Decimal.ofNat_toNat ds hds]

theorem canonicalInt_ofInt (i : Int64) : CanonicalInt (Decimal.ofInt i.toInt) := by
  have hlo := Int64.le_toInt i
  have hhi := Int64.toInt_lt i
  have hcanonical := Decimal.canonicalNat_ofNat i.toInt.natAbs
  have hnat := Decimal.toNat_ofNat i.toInt.natAbs
  unfold Decimal.ofInt
  split
  . exact .inr ⟨_, rfl, hcanonical, by omega, by omega⟩
  . exact .inl ⟨hcanonical, by omega⟩

theorem exists_of_canonicalInt {ds : Bytes} (h : CanonicalInt ds)
    : ∃ i : Int64, Decimal.ofInt i.toInt = ds := by
  cases h with
  | inl h =>
    refine ⟨Int64.ofInt (Decimal.toNat ds), ?_⟩
    rw [Int64.toInt_ofInt_of_le (by omega) (by omega)]
    unfold Decimal.ofInt
    rw [if_neg (by omega), Int.natAbs_natCast, Decimal.ofNat_toNat ds h.1]
  | inr h =>
    obtain ⟨ds', rfl, hds, hpos, hlt⟩ := h
    refine ⟨Int64.ofInt (-(Decimal.toNat ds' : Int)), ?_⟩
    rw [Int64.toInt_ofInt_of_le (by omega) (by omega)]
    unfold Decimal.ofInt
    rw [if_pos (by omega), Int.natAbs_neg, Int.natAbs_natCast, Decimal.ofNat_toNat ds' hds]

theorem canonical_encode {b : Bencode} (hb : WellFormed b) : Canonical (encode b) := by
  induction hb with
  | int i => exact .int _ (canonicalInt_ofInt i)
  | byteString bs hlen => exact .byteString _ _ (canonicalString_encodeBs bs hlen)
  | list l hl ih =>
    rw [encode, encodeList_eq_flatMap, List.flatMap_def]
    apply Canonical.list
    intro w hw
    obtain ⟨b, hb, rfl⟩ := List.mem_map.mp hw
    exact ih b hb
  | dictionary d hsorted hkeys hvals ih =>
    rw [encode, encodeDictionary_eq_flatMap_rawEntry]
    apply Canonical.dictionary
    . intro e he
      obtain ⟨e', he', rfl⟩ := List.mem_map.mp he
      apply canonicalString_encodeBs e'.1 (hkeys e' he')
    . rw [List.pairwise_map]
      exact hsorted
    . intro e he
      obtain ⟨e', he', rfl⟩ := List.mem_map.mp he
      exact ih e' he'

theorem exists_map_eq {P : α → Prop} {f : α → β} (ys : List β)
    (h : ∀ y ∈ ys, ∃ x, P x ∧ f x = y)
    : ∃ xs : List α, (∀ x ∈ xs, P x) ∧ xs.map f = ys := by
  induction ys with
  | nil => exact ⟨[], by simp, rfl⟩
  | cons y ys ih =>
    obtain ⟨x, hx, hxy⟩ := h y (by simp)
    obtain ⟨xs, hxs, hmap⟩ := ih fun y' hy' => h y' (List.mem_cons_of_mem y hy')
    refine ⟨x :: xs, ?_, ?_⟩
    . simpa using ⟨hx, hxs⟩
    . rw [List.map_cons, hxy, hmap]

theorem exists_of_canonical {w : Bytes} (hw : Canonical w)
    : ∃ b, WellFormed b ∧ encode b = w := by
  induction hw with
  | int ds h =>
    obtain ⟨i, rfl⟩ := exists_of_canonicalInt h
    exact ⟨.int i, .int i, rfl⟩
  | byteString w x h =>
    obtain ⟨-, -, -, -, hx⟩ := id h
    exact ⟨.byteString ⟨x⟩, .byteString _ hx, encodeBs_of_canonicalString h⟩
  | list ws h ih =>
    obtain ⟨l, hl, rfl⟩ := exists_map_eq ws ih
    refine ⟨.list l, .list l hl, ?_⟩
    rw [encode, encodeList_eq_flatMap, List.flatMap_def]
  | dictionary es hkeys hsorted hvals ih =>
    have hraw : ∀ e ∈ es, ∃ e' : ByteString × Bencode,
        (e'.1.elements.length < 2 ^ 32 ∧ WellFormed e'.2) ∧ rawEntry e' = e := by
      intro e he
      obtain ⟨v, hv, hencode⟩ := ih e he
      have hkey := hkeys e he
      obtain ⟨-, -, -, -, hx⟩ := id hkey
      refine ⟨(⟨e.plainKey⟩, v), ⟨hx, hv⟩, ?_⟩
      unfold rawEntry
      dsimp only
      rw [encodeBs_of_canonicalString hkey, hencode]
    obtain ⟨d, hd, rfl⟩ := exists_map_eq es hraw
    rw [List.pairwise_map] at hsorted
    refine ⟨.dictionary d, .dictionary d hsorted (fun e he => (hd e he).1)
      (fun e he => (hd e he).2), ?_⟩
    rw [encode, encodeDictionary_eq_flatMap_rawEntry]

theorem innerParseBytestring_length {i r : Bytes} {bs : ByteString}
    (h : innerParseBytestring i = .ok (r, bs))
    : bs.elements.length < 2 ^ 32 := by
  unfold innerParseBytestring at h
  simp only [bind_eq_ok] at h
  obtain ⟨_, len, _, _, _, _, _, x, htake, hbs⟩ := h
  simp only [pure, Except.pure, Except.ok.injEq, Prod.mk.injEq] at hbs
  rw [← hbs.2, (take_eq_ok htake).2]
  apply len.toNat_lt

theorem parseTypeFuel_wellFormed (fuel : Nat) {i r : Bytes} {b : Bencode}
    (h : parseTypeFuel fuel i = .ok (r, b))
    : WellFormed b := by
  induction fuel generalizing i r b with
  | zero => contradiction
  | succ fuel ih =>
    obtain ⟨p, hmem, hp⟩ := alt_eq_ok h
    simp only [List.mem_cons, List.not_mem_nil, or_false] at hmem
    obtain rfl | rfl | rfl | rfl := hmem
    . unfold parseInt at hp
      obtain ⟨_, n, _, hb⟩ := bind_eq_ok.mp hp
      simp only [pure, Except.pure, Except.ok.injEq, Prod.mk.injEq] at hb
      rw [← hb.2]
      exact .int n
    . unfold parseList at hp
      simp only [bind_eq_ok] at hp
      obtain ⟨_, _, _, _, eles, hmany, hb⟩ := hp
      simp only [pure, Except.pure, Except.ok.injEq, Prod.mk.injEq] at hb
      rw [← hb.2]
      exact .list _ (manyTill_forall (fun _ _ _ => ih) hmany)
    . unfold parseDictionary at hp
      simp only [bind_eq_ok] at hp
      obtain ⟨_, _, _, _, eles, hmany, hb⟩ := hp
      simp only [pure, Except.pure, Except.ok.injEq, Prod.mk.injEq] at hb
      have heles : ∀ e ∈ eles.1, e.1.elements.length < 2 ^ 32 ∧ WellFormed e.2 := by
        refine manyTill_forall ?_ hmany
        intro i1 r1 e he
        unfold parsePair at he
        simp only [bind_eq_ok] at he
        obtain ⟨_, k, hk, _, v, hv, he⟩ := he
        simp only [pure, Except.pure, Except.ok.injEq, Prod.mk.injEq] at he
        rw [← he.2]
        exact ⟨innerParseBytestring_length hk, ih hv⟩
      rw [← hb.2]
      apply WellFormed.dictionary
      . apply BTreeMap.sorted_collect
      . intro e he
        exact (heles e (BTreeMap.mem_collect he)).1
      . intro e he
        exact (heles e (BTreeMap.mem_collect he)).2
    . unfold parseBytestring at hp
      obtain ⟨_, bs, hbs, hb⟩ := bind_eq_ok.mp hp
      simp only [pure, Except.pure, Except.ok.injEq, Prod.mk.injEq] at hb
      rw [← hb.2]
      exact .byteString bs (innerParseBytestring_length hbs)

theorem parseType_wellFormed {i r : Bytes} {b : Bencode} (h : parseType i = .ok (r, b))
    : WellFormed b :=
  parseTypeFuel_wellFormed _ h

theorem parseType_of_startsCanonical {i : Bytes} (h : StartsCanonical i)
    : ∃ b r, parseType i = .ok (r, b) ∧ encode b ++ r = i := by
  obtain ⟨w, r, rfl, hw⟩ := h
  obtain ⟨b, hb, rfl⟩ := exists_of_canonical hw
  exact ⟨b, r, parseType_encode_append hb r, rfl⟩

theorem encode_append_eq_iff {i r : Bytes} {b : Bencode} (h : parseType i = .ok (r, b))
    : encode b ++ r = i ↔ StartsCanonical i := by
  constructor
  . intro heq
    exact ⟨encode b, r, heq.symm, canonical_encode (parseType_wellFormed h)⟩
  . intro hstarts
    obtain ⟨b', r', hparse, heq⟩ := parseType_of_startsCanonical hstarts
    rw [h] at hparse
    simp only [Except.ok.injEq, Prod.mk.injEq] at hparse
    rw [hparse.1, hparse.2, heq]

end Bencode
