import BenTorrent.File.Bencode

/-!
This module contains the recursion equation of `parseType` and the round trips between the encoder
and the parser.
-/

open Rust Nom

namespace Bencode

theorem innerParseBytestring_shrinks : Shrinks innerParseBytestring :=
  u32_shrinks.bind fun len => (tag_shrinks [colon]).bind fun _ =>
    (take_shrinks len.toNat).bind fun bs => .pure (ByteString.mk bs)

theorem parseBytestring_shrinks : Shrinks parseBytestring :=
  innerParseBytestring_shrinks.bind fun _ => .pure _

theorem parseInt_shrinks : Shrinks parseInt :=
  (delimited_shrinks (tag_shrinks _) i64_shrinks (tag_shrinks _)).bind fun _ => .pure _

theorem parsePair_shrinks {p : Parser Bencode} (h : Shrinks p) : Shrinks (parsePair p) :=
  innerParseBytestring_shrinks.bind fun _ => h.bind fun _ => .pure _

theorem parseList_shrinks {p : Parser Bencode} (h : Shrinks p) : Shrinks (parseList p) :=
  (tag_shrinks [listStart]).bind fun _ =>
    (manyTill_shrinks h (tag_shrinks [stop])).bind fun o => .pure (Bencode.list o.1)

theorem parseDictionary_shrinks {p : Parser Bencode} (h : Shrinks p)
    : Shrinks (parseDictionary p) :=
  (tag_shrinks [dictStart]).bind fun _ =>
    (manyTill_shrinks (parsePair_shrinks h) (tag_shrinks [stop])).bind fun o =>
      .pure (Bencode.dictionary (BTreeMap.collect o.1))

theorem parseTypeFuel_shrinks (fuel : Nat) : Shrinks (parseTypeFuel fuel) := by
  induction fuel with
  | zero =>
    intro i r res h
    contradiction
  | succ fuel ih =>
    apply alt_shrinks
    simp only [List.mem_cons, List.not_mem_nil, or_false, forall_eq_or_imp, forall_eq]
    exact ⟨parseInt_shrinks, parseList_shrinks ih, parseDictionary_shrinks ih,
      parseBytestring_shrinks⟩

theorem parseList_congr {p q : Parser Bencode} (hp : Shrinks p) (i : Bytes)
    (h : ∀ j, j.length < i.length → p j = q j)
    : parseList p i = parseList q i := by
  unfold parseList
  cases htag : tag [listStart] i with
  | error e => rfl
  | ok res =>
    obtain ⟨j, t⟩ := res
    have hi := (tag_singleton_eq_ok htag).1
    simp only [ok_bind]
    rw [manyTill_congr hp j]
    intro k hk
    apply h
    rw [hi, List.length_cons]
    omega

theorem parsePair_congr {p q : Parser Bencode} (i : Bytes)
    (h : ∀ j, j.length ≤ i.length → p j = q j)
    : parsePair p i = parsePair q i := by
  unfold parsePair
  cases hkey : innerParseBytestring i with
  | error e => rfl
  | ok res =>
    obtain ⟨j, k⟩ := res
    simp only [ok_bind]
    rw [h j (innerParseBytestring_shrinks i j k hkey)]

theorem parseDictionary_congr {p q : Parser Bencode} (hp : Shrinks p) (i : Bytes)
    (h : ∀ j, j.length < i.length → p j = q j)
    : parseDictionary p i = parseDictionary q i := by
  unfold parseDictionary
  cases htag : tag [dictStart] i with
  | error e => rfl
  | ok res =>
    obtain ⟨j, t⟩ := res
    have hi := (tag_singleton_eq_ok htag).1
    simp only [ok_bind]
    rw [manyTill_congr (parsePair_shrinks hp) j]
    intro k hk
    apply parsePair_congr
    intro l hl
    apply h
    rw [hi, List.length_cons]
    omega

theorem parseTypeFuel_eq (fuel1 fuel2 : Nat) (i : Bytes) (h1 : i.length < fuel1)
    (h2 : i.length < fuel2)
    : parseTypeFuel fuel1 i = parseTypeFuel fuel2 i := by
  induction fuel1 generalizing fuel2 i with
  | zero => contradiction
  | succ fuel1 ih =>
    cases fuel2 with
    | zero => contradiction
    | succ fuel2 =>
      unfold parseTypeFuel
      have hrec : ∀ j, j.length < i.length → parseTypeFuel fuel1 j = parseTypeFuel fuel2 j := by
        intro j hj
        exact ih fuel2 j (by omega) (by omega)
      apply alt_congr
      simp only [List.map_cons, List.map_nil]
      rw [parseList_congr (parseTypeFuel_shrinks fuel1) i hrec,
        parseDictionary_congr (parseTypeFuel_shrinks fuel1) i hrec]

theorem parseType_eq (i : Bytes)
    : parseType i
        =
      alt [parseInt, parseList parseType, parseDictionary parseType, parseBytestring] i := by
  have hrec : ∀ j, j.length < i.length → parseTypeFuel i.length j = parseType j := by
    intro j hj
    apply parseTypeFuel_eq _ _ j hj (by omega)
  conv =>
    lhs
    unfold parseType parseTypeFuel
  apply alt_congr
  simp only [List.map_cons, List.map_nil]
  rw [parseList_congr (parseTypeFuel_shrinks i.length) i hrec,
    parseDictionary_congr (parseTypeFuel_shrinks i.length) i hrec]

/-
Each alternative of `parseType` but the last fails on a first byte other than its own.
-/

theorem parseInt_error {c : UInt8} {i : Bytes} (h : c ≠ intStart)
    : ∃ e, parseInt (c :: i) = .error e := by
  unfold parseInt delimited
  rw [tag_singleton_cons_of_ne _ _ _ h.symm]
  exact ⟨_, rfl⟩

theorem parseList_error {p : Parser Bencode} {c : UInt8} {i : Bytes} (h : c ≠ listStart)
    : ∃ e, parseList p (c :: i) = .error e := by
  unfold parseList
  rw [tag_singleton_cons_of_ne _ _ _ h.symm]
  exact ⟨_, rfl⟩

theorem parseDictionary_error {p : Parser Bencode} {c : UInt8} {i : Bytes} (h : c ≠ dictStart)
    : ∃ e, parseDictionary p (c :: i) = .error e := by
  unfold parseDictionary
  rw [tag_singleton_cons_of_ne _ _ _ h.symm]
  exact ⟨_, rfl⟩

theorem parseType_intStart (i : Bytes) (res : Bytes × Bencode)
    (h : parseInt (intStart :: i) = .ok res)
    : parseType (intStart :: i) = .ok res := by
  rw [parseType_eq, alt_cons_of_ok h]

theorem parseType_listStart (i : Bytes) (res : Bytes × Bencode)
    (h : parseList parseType (listStart :: i) = .ok res)
    : parseType (listStart :: i) = .ok res := by
  obtain ⟨e, he⟩ := parseInt_error (i := i) (c := listStart) (by decide)
  rw [parseType_eq, alt_cons_of_error he, alt_cons_of_ok h]

theorem parseType_dictStart (i : Bytes) (res : Bytes × Bencode)
    (h : parseDictionary parseType (dictStart :: i) = .ok res)
    : parseType (dictStart :: i) = .ok res := by
  obtain ⟨e1, he1⟩ := parseInt_error (i := i) (c := dictStart) (by decide)
  obtain ⟨e2, he2⟩ := parseList_error (p := parseType) (i := i) (c := dictStart) (by decide)
  rw [parseType_eq, alt_cons_of_error he1, alt_cons_of_error he2, alt_cons_of_ok h]

theorem parseType_digit (c : UInt8) (i : Bytes) (res : Bytes × Bencode)
    (hc : (Decimal.toDigit c).isSome) (h : parseBytestring (c :: i) = .ok res)
    : parseType (c :: i) = .ok res := by
  have hne : ∀ d : UInt8, Decimal.toDigit d = none → c ≠ d := by
    intro d hd heq
    rw [heq, hd] at hc
    contradiction
  obtain ⟨e1, he1⟩ := parseInt_error (i := i) (hne intStart (by decide))
  obtain ⟨e2, he2⟩ := parseList_error (p := parseType) (i := i) (hne listStart (by decide))
  obtain ⟨e3, he3⟩ := parseDictionary_error (p := parseType) (i := i) (hne dictStart (by decide))
  rw [parseType_eq, alt_cons_of_error he1, alt_cons_of_error he2, alt_cons_of_error he3]
  exact h

theorem encodeBs_eq_cons (bs : ByteString)
    : ∃ c w, encodeBs bs = c :: w ∧ (Decimal.toDigit c).isSome := by
  obtain ⟨hne, hdigits, -⟩ := Decimal.canonicalNat_ofNat bs.elements.length
  unfold encodeBs
  cases hds : Decimal.ofNat bs.elements.length with
  | nil => contradiction
  | cons c ds => exact ⟨c, _, rfl, hdigits c (by simp [hds])⟩

theorem innerParseBytestring_encodeBs (bs : ByteString) (hlen : bs.elements.length < 2 ^ 32)
    (r : Bytes)
    : innerParseBytestring (encodeBs bs ++ r) = .ok (r, bs) := by
  have hcolon : NoDigit (colon :: (bs.elements ++ r)) := by
    intro c hc
    simp only [List.head?_cons, Option.some.injEq] at hc
    rw [← hc]
    decide
  have hnat : (UInt32.ofNat bs.elements.length).toNat = bs.elements.length := by
    rw [UInt32.toNat_ofNat']
    omega
  unfold innerParseBytestring encodeBs
  rw [List.append_assoc, List.cons_append, u32_ofNat _ hlen _ hcolon]
  simp only [ok_bind, tag_singleton_cons_self, hnat, take_append]
  rfl

theorem parseBytestring_encodeBs (bs : ByteString) (hlen : bs.elements.length < 2 ^ 32)
    (r : Bytes)
    : parseBytestring (encodeBs bs ++ r) = .ok (r, .byteString bs) := by
  unfold parseBytestring
  rw [innerParseBytestring_encodeBs bs hlen]
  rfl

theorem parseInt_encodeInt (i : Int64) (r : Bytes)
    : parseInt (encodeInt i ++ r) = .ok (r, .int i) := by
  have hstop : NoDigit (stop :: r) := by
    intro c hc
    simp only [List.head?_cons, Option.some.injEq] at hc
    rw [← hc]
    decide
  unfold parseInt delimited encodeInt
  rw [List.cons_append, List.append_assoc, List.singleton_append]
  simp only [tag_singleton_cons_self, ok_bind, i64_ofInt i _ hstop]
  rfl

theorem encode_eq_cons (b : Bencode) : ∃ c w, encode b = c :: w ∧ c ≠ stop := by
  cases b with
  | int i => exact ⟨_, _, rfl, by decide⟩
  | byteString bs =>
    obtain ⟨c, w, hw, hc⟩ := encodeBs_eq_cons bs
    refine ⟨c, w, hw, ?_⟩
    intro hstop
    rw [hstop] at hc
    contradiction
  | list l => exact ⟨_, _, rfl, by decide⟩
  | dictionary d => exact ⟨_, _, rfl, by decide⟩

theorem parsePair_encode {k : ByteString} {v : Bencode} (hk : k.elements.length < 2 ^ 32)
    (hv : ∀ r, parseType (encode v ++ r) = .ok (r, v)) (r : Bytes)
    : parsePair parseType (encodeBs k ++ encode v ++ r) = .ok (r, k, v) := by
  unfold parsePair
  rw [List.append_assoc, innerParseBytestring_encodeBs k hk]
  simp only [ok_bind, hv]
  rfl

theorem parseType_encode_append {b : Bencode} (hb : WellFormed b) (r : Bytes)
    : parseType (encode b ++ r) = .ok (r, b) := by
  induction hb generalizing r with
  | int i =>
    have := parseInt_encodeInt i r
    apply parseType_intStart _ _ this
  | byteString bs hlen =>
    have hparse := parseBytestring_encodeBs bs hlen r
    obtain ⟨c, w, hw, hc⟩ := encodeBs_eq_cons bs
    rw [hw] at hparse
    rw [encode, hw]
    apply parseType_digit c _ _ hc hparse
  | list l hl ih =>
    rw [encode, encodeList_eq_flatMap, List.cons_append, List.append_assoc]
    apply parseType_listStart
    unfold parseList
    simp only [tag_singleton_cons_self, ok_bind]
    have hmany : manyTill parseType (tag [stop]) (l.flatMap encode ++ stop :: r)
        = .ok (r, l.map id, [stop]) := by
      apply manyTill_flatMap
      . intro b hb rest
        exact ih b hb rest
      . intro b _ rest
        obtain ⟨c, w, hw, hc⟩ := encode_eq_cons b
        rw [hw]
        exact ⟨_, tag_singleton_cons_of_ne _ _ _ hc.symm⟩
      . simp
    rw [List.singleton_append, hmany]
    simp [pure, Except.pure]
  | dictionary d hsorted hkeys hvals ih =>
    rw [encode, encodeDictionary_eq_flatMap, List.cons_append, List.append_assoc]
    apply parseType_dictStart
    unfold parseDictionary
    simp only [tag_singleton_cons_self, ok_bind]
    have hmany : manyTill (parsePair parseType) (tag [stop])
          (d.flatMap (fun e => encodeBs e.1 ++ encode e.2) ++ stop :: r)
        = .ok (r, d.map id, [stop]) := by
      apply manyTill_flatMap
      . intro e he rest
        apply parsePair_encode (hkeys e he) (ih e he) rest
      . intro e _ rest
        obtain ⟨c, w, hw, hc⟩ := encodeBs_eq_cons e.1
        rw [hw]
        refine ⟨_, tag_singleton_cons_of_ne _ _ _ ?_⟩
        rintro rfl
        contradiction
      . simp
    rw [List.singleton_append, hmany]
    simp [pure, Except.pure, BTreeMap.collect_of_sorted d hsorted]

theorem parseBencode_encode_append {b : Bencode} (hb : WellFormed b) (r : Bytes)
    : parseBencode (encode b ++ r) = .ok b := by
  unfold parseBencode
  rw [parseType_encode_append hb]

theorem decode_encode (b : Bencode) (hb : WellFormed b) (r : Bytes)
    : parseType (encode b ++ r) = .ok (r, b) ∧ parseBencode (encode b ++ r) = .ok b := by
  have hparse := parseType_encode_append hb r
  refine ⟨hparse, ?_⟩
  unfold parseBencode
  rw [hparse]

theorem decode_encode_minInt
    : parseType (encode (.list [.int Int64.minValue, .dictionary []]) ++ [101])
          = .ok ([101], .list [.int Int64.minValue, .dictionary []])
        ∧ parseBencode (encode (.list [.int Int64.minValue, .dictionary []]) ++ [101])
            = .ok (.list [.int Int64.minValue, .dictionary []]) := by
  apply decode_encode
  apply WellFormed.list
  simp only [List.mem_cons, List.not_mem_nil, or_false, forall_eq_or_imp, forall_eq]
  exact ⟨.int _, .dictionary [] .nil (by simp) (by simp)⟩

end Bencode
