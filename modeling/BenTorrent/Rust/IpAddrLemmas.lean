import Mathlib.Data.Nat.Digits.Lemmas
import BenTorrent.Rust.IpAddr

/-!
This module contains how addresses are spelled, and that `IpAddr::from_str` reads what is spelled.
-/

namespace Rust

namespace AddrParser

def digitChar (d : Nat) : UInt8 :=
  if d < 10 then UInt8.ofNat (48 + d) else UInt8.ofNat (87 + d)

def spell (radix n : Nat) : Bytes :=
  if n = 0 then [48] else (Nat.digits radix n).reverse.map digitChar

theorem toNat_digitChar {d : Nat} (h : d < 16)
    : (digitChar d).toNat = if d < 10 then 48 + d else 87 + d := by
  unfold digitChar
  split
  . rw [UInt8.toNat_ofNat']
    omega
  . rw [UInt8.toNat_ofNat']
    omega

theorem toDigit_digitChar (radix : Nat) {d : Nat} (h : d < 16)
    : toDigit radix (digitChar d) = if d < radix then some d else none := by
  have hdigit : ∀ x, x = d → ((some x).filter fun d => decide (d < radix))
      = if d < radix then some d else none := by
    intro x hx
    rw [hx, Option.filter_some]
    simp only [decide_eq_true_eq]
  unfold toDigit
  rw [toNat_digitChar h]
  split
  . rw [if_pos (by omega)]
    exact hdigit _ (by omega)
  . rw [if_neg (by omega), if_pos (by omega)]
    exact hdigit _ (by omega)

def NoDigit (radix : Nat) (rest : Bytes) : Prop :=
  ∀ c ∈ rest.head?, toDigit radix c = none

theorem readDigits_of_noDigit {radix : Nat} {rest : Bytes} (h : NoDigit radix rest)
    : readDigits radix rest = ([], rest) := by
  cases rest with
  | nil => rfl
  | cons c rest =>
    unfold readDigits
    rw [h c rfl]

theorem readDigits_map {radix : Nat} (hradix : radix ≤ 16) {ds : List Nat}
    (hds : ∀ d ∈ ds, d < radix) {rest : Bytes} (hrest : NoDigit radix rest)
    : readDigits radix (ds.map digitChar ++ rest) = (ds, rest) := by
  induction ds with
  | nil => exact readDigits_of_noDigit hrest
  | cons d ds ih =>
    rw [List.forall_mem_cons] at hds
    rw [List.map_cons, List.cons_append]
    unfold readDigits
    rw [toDigit_digitChar radix (by omega), if_pos hds.1]
    dsimp only
    rw [ih hds.2]

theorem readNumber_spell {bound radix maxDigits n : Nat} {allowZeroPrefix : Bool}
    (hradix : 1 < radix) (hradix' : radix ≤ 16) (hmax : 0 < maxDigits) (hn : n < bound)
    (hfits : n < radix ^ maxDigits) {rest : Bytes} (hrest : NoDigit radix rest)
    : readNumber bound radix maxDigits allowZeroPrefix (spell radix n ++ rest) = some (n, rest) := by
  by_cases hzero : n = 0
  . have hlt : ∀ d ∈ [0], d < radix := by simpa using Nat.lt_of_succ_lt hradix
    have hdigits : readDigits radix (48 :: rest) = ([0], rest) :=
      readDigits_map hradix' hlt hrest
    unfold readNumber spell
    rw [if_pos hzero, List.singleton_append, hdigits]
    dsimp only
    rw [List.length_singleton, if_neg (by omega), if_neg (by decide),
      if_neg (fun h => absurd h.2.2 (by decide)), hzero]
    simp only [List.foldl_cons, List.foldl_nil, Nat.zero_mul, Nat.add_zero]
    rw [if_pos (by omega)]
  . have hdigits : readDigits radix ((Nat.digits radix n).reverse.map digitChar ++ rest)
        = ((Nat.digits radix n).reverse, rest) := by
      apply readDigits_map hradix' _ hrest
      intro d hd
      exact Nat.digits_lt_base hradix (List.mem_reverse.mp hd)
    have hne : Nat.digits radix n ≠ [] := Nat.digits_ne_nil_iff_ne_zero.mpr hzero
    have hvalue : (Nat.digits radix n).reverse.foldl (fun result digit => result * radix + digit) 0
        = n := by
      rw [List.foldl_reverse]
      conv_rhs => rw [← Nat.ofDigits_digits radix n, Nat.ofDigits_eq_foldr]
      congr 1
      funext x y
      simp only [Nat.cast_id]
      rw [Nat.mul_comm, Nat.add_comm]
    have hhead : ((Nat.digits radix n).reverse.map digitChar ++ rest).head? ≠ some 48 := by
      rw [List.head?_append_of_ne_nil _ (by simpa using hne), List.head?_map, List.head?_reverse,
        List.getLast?_eq_some_getLast hne, Option.map_some]
      intro heq
      rw [Option.some.injEq] at heq
      have hlt : (Nat.digits radix n).getLast hne < radix :=
        Nat.digits_lt_base hradix (List.getLast_mem hne)
      have hnat := congrArg UInt8.toNat heq
      rw [toNat_digitChar (by omega)] at hnat
      have hlast := Nat.getLast_digit_ne_zero radix hzero
      change _ = 48 at hnat
      split at hnat
      . omega
      . omega
    unfold readNumber spell
    rw [if_neg hzero, hdigits]
    dsimp only
    have hlength := (Nat.digits_length_le_iff hradix n (k := maxDigits)).mpr hfits
    have hpos := List.length_pos_of_ne_nil hne
    rw [List.length_reverse, if_neg (by omega), if_neg (by omega), if_neg (fun h => hhead h.2.1),
      hvalue]
    exact if_pos hn

theorem noDigit_cons {radix : Nat} {c : UInt8} (hc : toDigit radix c = none) (rest : Bytes)
    : NoDigit radix (c :: rest) := by
  intro c' hc'
  rw [List.head?_cons, Option.mem_some_iff] at hc'
  rw [← hc']
  exact hc

theorem noDigit_nil (radix : Nat) : NoDigit radix [] := by
  intro c hc
  contradiction

def separator (sep : UInt8) (index : Nat) : Bytes :=
  if 0 < index then [sep] else []

theorem readSeparator_separator (sep : UInt8) (index : Nat) (inner : AddrParser α) (s : Bytes)
    : readSeparator sep index inner (separator sep index ++ s) = inner s := by
  unfold readSeparator separator
  split
  . simp [readGivenChar]
  . rfl

theorem readOctet_spell (index : Nat) (octet : UInt8) {rest : Bytes} (hrest : NoDigit 10 rest)
    : readOctet index (separator dot index ++ (spell 10 octet.toNat ++ rest))
        =
      some (octet, rest) := by
  have hlt : octet.toNat < 256 := octet.toNat_lt
  unfold readOctet
  rw [readSeparator_separator, readNumber_spell (by decide) (by decide) (by decide) hlt
    (by omega) hrest]
  simp

theorem readIpv4Addr_eq_none {s : Bytes} (h : (readDigits 10 s).2.head? ≠ some dot)
    : readIpv4Addr s = none := by
  have hsecond : ∀ s', s'.head? ≠ some dot → readOctet 1 s' = none := by
    intro s' hs'
    cases s' with
    | nil => rfl
    | cons c s' =>
      have hne : ¬c = dot := fun heq => hs' (by rw [heq]; rfl)
      simp [readOctet, readSeparator, readGivenChar, hne]
  have hfirst : ∀ a s', readOctet 0 s = some (a, s') → s' = (readDigits 10 s).2 := by
    intro a s' hread
    simp only [readOctet, readSeparator, Nat.lt_irrefl, if_false, readNumber] at hread
    simp only [bind, Option.bind, pure] at hread
    split at hread
    . contradiction
    . next hsome =>
      rw [Option.some.injEq, Prod.mk.injEq] at hread
      repeat' split at hsome
      all_goals simp only [Option.some.injEq, reduceCtorEq] at hsome
      rw [← hread.2, ← hsome]
  unfold readIpv4Addr
  cases hread : readOctet 0 s with
  | none => rfl
  | some res =>
    obtain ⟨a, s'⟩ := res
    rw [← hfirst a s' hread] at h
    simp [hsecond s' h]

theorem exists_spell_eq (radix : Nat) (hradix : 1 < radix) (n : Nat)
    : ∃ ds : List Nat, (∀ d ∈ ds, d < radix) ∧ spell radix n = ds.map digitChar := by
  unfold spell
  split
  . exact ⟨[0], by simpa using Nat.lt_of_succ_lt hradix, rfl⟩
  . refine ⟨(Nat.digits radix n).reverse, ?_, rfl⟩
    intro d hd
    exact Nat.digits_lt_base hradix (List.mem_reverse.mp hd)

theorem head?_readDigits_ne_dot {ds : List Nat} (hds : ∀ d ∈ ds, d < 16) {rest : Bytes}
    (hrest : NoDigit 10 rest) (hdot : rest.head? ≠ some dot)
    : (readDigits 10 (ds.map digitChar ++ rest)).2.head? ≠ some dot := by
  induction ds with
  | nil =>
    rw [List.map_nil, List.nil_append, readDigits_of_noDigit hrest]
    exact hdot
  | cons d ds ih =>
    rw [List.forall_mem_cons] at hds
    rw [List.map_cons, List.cons_append]
    unfold readDigits
    rw [toDigit_digitChar 10 hds.1]
    split
    . next heq =>
      exact ih hds.2
    . next heq =>
      intro hhead
      rw [List.head?_cons, Option.some.injEq] at hhead
      have hnat := congrArg UInt8.toNat hhead
      rw [toNat_digitChar hds.1] at hnat
      change _ = 46 at hnat
      split at hnat
      . omega
      . omega

def groupsText : Nat → List UInt16 → Bytes
  | _, [] => []
  | index, group :: groups =>
    separator colon index ++ (spell 16 group.toNat ++ groupsText (index + 1) groups)

theorem groupsText_succ (index : Nat) (groups : List UInt16)
    : NoDigit 10 (groupsText (index + 1) groups) ∧ NoDigit 16 (groupsText (index + 1) groups)
        ∧ (groupsText (index + 1) groups).head? ≠ some dot := by
  cases groups with
  | nil => exact ⟨noDigit_nil 10, noDigit_nil 16, by simp [groupsText]⟩
  | cons group groups =>
    have hcolon : groupsText (index + 1) (group :: groups)
        = colon :: (spell 16 group.toNat ++ groupsText (index + 1 + 1) groups) := rfl
    rw [hcolon]
    exact ⟨noDigit_cons (by decide) _, noDigit_cons (by decide) _, by simp [colon, dot]⟩

theorem readIpv4Addr_group (index : Nat) (group : UInt16) (groups : List UInt16)
    : readIpv4Addr (spell 16 group.toNat ++ groupsText (index + 1) groups) = none := by
  obtain ⟨ds, hds, hspell⟩ := exists_spell_eq 16 (by decide) group.toNat
  obtain ⟨hten, _, hdot⟩ := groupsText_succ index groups
  apply readIpv4Addr_eq_none
  rw [hspell]
  exact head?_readDigits_ne_dot hds hten hdot

theorem readGroups_groupsText (index : Nat) (groups : List UInt16)
    : readGroups index groups.length (groupsText index groups) = (groups, false, []) := by
  induction groups generalizing index with
  | nil => rfl
  | cons group groups ih =>
    have hlt : group.toNat < 65536 := group.toNat_lt
    have hv4 : (if 0 < groups.length then
          readSeparator colon index readIpv4Addr (groupsText index (group :: groups)) else none)
        = none := by
      split
      . unfold groupsText
        rw [readSeparator_separator, readIpv4Addr_group]
      . rfl
    have hnumber : readSeparator colon index (readNumber 65536 16 4 true)
          (groupsText index (group :: groups))
        = some (group.toNat, groupsText (index + 1) groups) := by
      obtain ⟨_, hsixteen, _⟩ := groupsText_succ index groups
      conv_lhs => unfold groupsText
      rw [readSeparator_separator, readNumber_spell (by decide) (by decide) (by decide) hlt
        (by omega) hsixteen]
    rw [List.length_cons]
    unfold readGroups
    rw [hv4]
    dsimp only
    rw [hnumber]
    dsimp only
    rw [ih]
    simp

end AddrParser

open AddrParser

def Ipv4Addr.text (ip : Ipv4Addr) : Bytes :=
  spell 10 ip.a.toNat ++ dot :: (spell 10 ip.b.toNat ++ dot :: (spell 10 ip.c.toNat
    ++ dot :: spell 10 ip.d.toNat))

/--
All eight groups, none left out.
-/
def Ipv6Addr.text (ip : Ipv6Addr) : Bytes :=
  groupsText 0 ip.segments

namespace IpAddr

def text : IpAddr → Bytes
  | .v4 ip => ip.text
  | .v6 ip => ip.text

theorem readIpv4Addr_text (ip : Ipv4Addr) : readIpv4Addr ip.text = some (ip, []) := by
  have hdot : ∀ rest, NoDigit 10 (dot :: rest) := noDigit_cons (by decide)
  have ha := readOctet_spell 0 ip.a (hdot (spell 10 ip.b.toNat ++ dot :: (spell 10 ip.c.toNat
    ++ dot :: spell 10 ip.d.toNat)))
  have hb := readOctet_spell 1 ip.b (hdot (spell 10 ip.c.toNat ++ dot :: spell 10 ip.d.toNat))
  have hc := readOctet_spell 2 ip.c (hdot (spell 10 ip.d.toNat))
  have hd := readOctet_spell 3 ip.d (noDigit_nil 10)
  simp only [separator, Nat.lt_irrefl, Nat.zero_lt_succ, if_true, if_false, List.nil_append,
    List.singleton_append, List.append_nil] at ha hb hc hd
  unfold readIpv4Addr Ipv4Addr.text
  rw [ha]
  simp only [Option.bind_eq_bind, Option.bind_some, hb, hc, hd]
  rfl

theorem ofGroups_full (ip : Ipv6Addr) : Ipv6Addr.ofGroups ip.segments [] = ip := by
  obtain ⟨segments, hlength⟩ := ip
  rw [Ipv6Addr.mk.injEq]
  apply List.ext_getElem
  . rw [(Ipv6Addr.ofGroups segments []).length_eq, hlength]
  . intro i hi hi'
    have hlt : ¬8 ≤ i := by omega
    simp [Ipv6Addr.ofGroups, hlt, hi']

theorem fromStr_text (ip : IpAddr) : fromStr ip.text = some ip := by
  unfold fromStr readIpAddr
  cases ip with
  | v4 ip =>
    unfold text
    dsimp only
    rw [readIpv4Addr_text]
  | v6 ip =>
    have hread := readGroups_groupsText 0 ip.segments
    rw [ip.length_eq] at hread
    have hv4 : readIpv4Addr ip.text = none := by
      unfold Ipv6Addr.text
      cases hsegments : ip.segments with
      | nil =>
        have hlength := ip.length_eq
        rw [hsegments] at hlength
        contradiction
      | cons group groups => exact readIpv4Addr_group 0 group groups
    have hv6 : readIpv6Addr ip.text = some (ip, []) := by
      unfold readIpv6Addr Ipv6Addr.text
      rw [hread]
      dsimp only
      rw [if_pos ip.length_eq, ofGroups_full]
      rfl
    unfold text
    dsimp only
    rw [hv4]
    dsimp only
    rw [hv6]
    rfl

theorem spell_ascii (radix : Nat) (hradix : 1 < radix) (hradix' : radix ≤ 16) (n : Nat)
    : ∀ b ∈ spell radix n, b.toNat < 128 := by
  obtain ⟨ds, hds, hspell⟩ := exists_spell_eq radix hradix n
  intro b hb
  rw [hspell] at hb
  obtain ⟨d, hd, rfl⟩ := List.mem_map.mp hb
  have hlt := hds d hd
  rw [toNat_digitChar (by omega)]
  split
  . omega
  . omega

theorem groupsText_ascii (index : Nat) (groups : List UInt16)
    : ∀ b ∈ groupsText index groups, b.toNat < 128 := by
  induction groups generalizing index with
  | nil => simp [groupsText]
  | cons group groups ih =>
    have hspell := spell_ascii 16 (by decide) (by decide) group.toNat
    unfold groupsText separator
    simp only [List.mem_append]
    rintro b (hb | hb | hb)
    . split at hb
      . rw [List.mem_singleton] at hb
        rw [hb]
        decide
      . contradiction
    . exact hspell b hb
    . exact ih (index + 1) b hb

theorem text_ascii (ip : IpAddr) : ∀ b ∈ ip.text, b.toNat < 128 := by
  cases ip with
  | v4 ip =>
    have hspell : ∀ octet : UInt8, ∀ b ∈ spell 10 octet.toNat, b.toNat < 128 :=
      fun octet => spell_ascii 10 (by decide) (by decide) octet.toNat
    have hdot : dot.toNat < 128 := by decide
    simp only [text, Ipv4Addr.text, List.mem_append, List.mem_cons]
    rintro b (hb | rfl | hb | rfl | hb | rfl | hb)
    . exact hspell _ b hb
    . exact hdot
    . exact hspell _ b hb
    . exact hdot
    . exact hspell _ b hb
    . exact hdot
    . exact hspell _ b hb
  | v6 ip => exact groupsText_ascii 0 ip.segments

end IpAddr

end Rust
