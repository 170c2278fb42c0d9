import BenTorrent.File.BencodeLemmas
import BenTorrent.Model.Torrent
import BenTorrent.Sha1.Basic

/-!
This module contains that a torrent is what the entries of its file say, whatever else the file holds.
-/

open Rust

def DictT.Holds (d : DictT) (key : String) (bc : Bencode) : Prop :=
  (⟨asBytes key⟩, bc) ∈ d

/--
A string that is spelled like that, also with bytes that are no UTF-8.
-/
def DictT.HoldsText (d : DictT) (key text : String) : Prop :=
  ∃ elements, d.Holds key (.byteString ⟨elements⟩) ∧ fromUtf8Lossy elements = text

theorem getCollected_eq_some_iff {d : DictT} (hsorted : BTreeMap.Sorted d) (key : String)
    (hkey : ∀ c ∈ key.toList, c.toNat < 128) (bc : Bencode)
    : getCollected (convertDictKeys d) key = some bc ↔ d.Holds key bc := by
  have hspells : ∀ e : ByteString × Bencode, e.1.toString = key ↔ e.1 = ⟨asBytes key⟩ := by
    intro e
    rw [ByteString.ext_iff]
    exact fromUtf8Lossy_eq_iff_of_ascii hkey _
  unfold getCollected convertDictKeys DictT.Holds
  rw [← List.map_reverse, List.find?_map, Option.map_map, Option.map_eq_some_iff]
  constructor
  . intro ⟨e, hfind, he⟩
    have hmem := List.mem_of_find?_eq_some hfind
    have hfound := List.find?_some hfind
    simp only [Function.comp_apply, decide_eq_true_eq] at hfound he
    rw [List.mem_reverse] at hmem
    rw [← (hspells e).mp hfound, ← he]
    exact hmem
  . intro hmem
    have hsome : (d.reverse.find? ((fun e : String × Bencode => decide (e.1 = key))
        ∘ fun e => (e.1.toString, e.2))).isSome = true := by
      rw [List.find?_isSome]
      refine ⟨_, List.mem_reverse.mpr hmem, ?_⟩
      simp only [Function.comp_apply, decide_eq_true_eq]
      exact (hspells (⟨asBytes key⟩, bc)).mpr rfl
    obtain ⟨e, hfind⟩ := Option.isSome_iff_exists.mp hsome
    have hfound := List.find?_some hfind
    simp only [Function.comp_apply, decide_eq_true_eq] at hfound
    refine ⟨e, hfind, ?_⟩
    rw [hsorted.eq_of_fst_eq (List.mem_reverse.mp (List.mem_of_find?_eq_some hfind)) hmem
      ((hspells e).mp hfound)]
    rfl

theorem asChunks_append {n : Nat} (hn : 0 < n) {chunk : Bytes} (hchunk : chunk.length = n)
    (elements : Bytes)
    : asChunks n (chunk ++ elements) = chunk :: asChunks n elements := by
  have hdiv : (n + elements.length) / n = elements.length / n + 1 := by
    rw [Nat.add_div_left _ hn]
  unfold asChunks
  rw [List.length_append, hchunk, hdiv, List.range_succ_eq_map, List.map_cons, List.map_map]
  congr 1
  . rw [Nat.zero_mul, List.drop_zero, ← hchunk, List.take_left]
  . apply List.map_congr_left
    intro i _
    have hdrop : (i + 1) * n = chunk.length + i * n := by
      rw [hchunk, Nat.add_mul, Nat.one_mul, Nat.add_comm]
    simp only [Function.comp_apply, Nat.succ_eq_add_one]
    rw [hdrop, List.drop_length_add_append]

theorem toPieces_eq_ok_iff (elements : Bytes) (pieces : List V1Piece)
    : toPieces elements = .ok pieces
        ↔
      elements = pieces.flatMap V1Piece.hash ∧ ∀ piece ∈ pieces, piece.hash.length = 20 := by
  unfold toPieces
  constructor
  . intro h
    split at h
    . contradiction
    . next hlength =>
      rw [Except.ok.injEq] at h
      subst h
      obtain ⟨k, hk⟩ : ∃ k, elements.length = 20 * k := ⟨elements.length / 20, by omega⟩
      clear hlength
      induction k generalizing elements with
      | zero =>
        have hnil : elements = [] := List.eq_nil_of_length_eq_zero (by omega)
        subst hnil
        simp [asChunks]
      | succ k ih =>
        have htake : (elements.take 20).length = 20 := by
          rw [List.length_take]
          omega
        have hsplit := asChunks_append (by decide) htake (elements.drop 20)
        obtain ⟨hrest, hall⟩ := ih (elements.drop 20) (by rw [List.length_drop]; omega)
        rw [List.take_append_drop] at hsplit
        rw [hsplit, List.map_cons, List.flatMap_cons, ← hrest, List.take_append_drop]
        exact ⟨rfl, List.forall_mem_cons.mpr ⟨htake, hall⟩⟩
  . rintro ⟨rfl, hall⟩
    induction pieces with
    | nil => rfl
    | cons piece pieces ih =>
      rw [List.forall_mem_cons] at hall
      have hrest := ih hall.2
      rw [List.flatMap_cons, List.length_append, hall.1, asChunks_append (by decide) hall.1]
      split at hrest
      . contradiction
      . next hlength =>
        rw [if_neg (by omega), List.map_cons]
        rw [Except.ok.injEq] at hrest ⊢
        rw [hrest]

section

variable {d : DictT} (hsorted : BTreeMap.Sorted d) (key : String)
  (hkey : ∀ c ∈ key.toList, c.toNat < 128)

include hsorted hkey

theorem getInt_eq_ok_iff (i : Int64)
    : getInt (convertDictKeys d) key = .ok i ↔ d.Holds key (.int i) := by
  rw [← getCollected_eq_some_iff hsorted key hkey]
  unfold getInt
  constructor
  . intro h
    split at h
    . next hget =>
      rw [Except.ok.injEq] at h
      rw [hget, h]
    . contradiction
  . intro h
    rw [h]

theorem getByteString_eq_ok_iff (elements : Bytes)
    : getByteString (convertDictKeys d) key = .ok elements
        ↔
      d.Holds key (.byteString ⟨elements⟩) := by
  rw [← getCollected_eq_some_iff hsorted key hkey]
  unfold getByteString
  constructor
  . intro h
    split at h
    . next hget =>
      rw [Except.ok.injEq] at h
      rw [hget, h]
    . contradiction
  . intro h
    rw [h]

theorem getRequired_eq_ok_iff (bc : Bencode)
    : getRequired (convertDictKeys d) key = .ok bc ↔ d.Holds key bc := by
  rw [← getCollected_eq_some_iff hsorted key hkey]
  unfold getRequired
  constructor
  . intro h
    split at h
    . next hget =>
      rw [Except.ok.injEq] at h
      rw [hget, h]
    . contradiction
  . intro h
    rw [h]

end

/--
The entries of the info dictionary give the fields, and its bytes the hash.
-/
structure V1TorrentInfo.StandsIn (sha1 : Bytes → Bytes) (info : V1TorrentInfo) (d : DictT) : Prop where
  length : d.Holds "length" (.int info.length)
  pieceLength : d.Holds "piece length" (.int info.pieceLength)
  pieces : d.Holds "pieces" (.byteString ⟨info.pieces.flatMap V1Piece.hash⟩)
  hashes : ∀ piece ∈ info.pieces, piece.hash.length = 20
  name : d.HoldsText "name" info.name
  infoHash_eq : info.infoHash = sha1 (Bencode.encode (.dictionary d))

structure V1Torrent.StandsIn (sha1 : Bytes → Bytes) (torrent : V1Torrent) (d : DictT) : Prop where
  info : ∃ infoDict, d.Holds "info" (.dictionary infoDict) ∧ torrent.info.StandsIn sha1 infoDict
  announce : d.HoldsText "announce" torrent.announce
  announceList_eq : torrent.announceList = []

theorem V1TorrentInfo.tryFrom_eq_ok_iff {sha1 : Bytes → Bytes} {d : DictT}
    (hsorted : BTreeMap.Sorted d) (info : V1TorrentInfo)
    : tryFrom sha1 (.dictionary d) = .ok info ↔ info.StandsIn sha1 d := by
  simp only [tryFrom, Except.bind_eq_ok, getInt_eq_ok_iff hsorted "length" (by simp),
    getInt_eq_ok_iff hsorted "piece length" (by simp),
    getByteString_eq_ok_iff hsorted "pieces" (by simp),
    getByteString_eq_ok_iff hsorted "name" (by simp), toPieces_eq_ok_iff, pure,
    Except.pure, Except.ok.injEq]
  constructor
  . rintro ⟨length, hlength, pieceLength, hpieceLength, elements, helements, pieces, hpieces, name,
      hname, heq⟩
    rw [hpieces.1] at helements
    subst heq
    exact ⟨hlength, hpieceLength, helements, hpieces.2, ⟨name, hname, rfl⟩, rfl⟩
  . rintro ⟨hlength, hpieceLength, hpieces, hhashes, ⟨name, hname, htext⟩, hinfoHash⟩
    refine ⟨_, hlength, _, hpieceLength, _, hpieces, _, ⟨rfl, hhashes⟩, name, hname, ?_⟩
    rw [htext]
    unfold computeInfoHash
    rw [← hinfoHash]

namespace V1Torrent

theorem tryFrom_eq_ok_iff {sha1 : Bytes → Bytes} {d : DictT}
    (hd : Bencode.WellFormed (.dictionary d)) (torrent : V1Torrent)
    : tryFrom sha1 (.dictionary d) = .ok torrent ↔ torrent.StandsIn sha1 d := by
  cases hd with
  | dictionary _ hsorted _ hvals =>
    have hinfoDict : ∀ {infoDict}, d.Holds "info" (.dictionary infoDict) →
        BTreeMap.Sorted infoDict := by
      intro infoDict hholds
      cases hvals _ hholds with
      | dictionary _ hsorted' => exact hsorted'
    simp only [tryFrom, Except.bind_eq_ok,
      getRequired_eq_ok_iff hsorted "info" (by simp),
      getByteString_eq_ok_iff hsorted "announce" (by simp), pure, Except.pure,
      Except.ok.injEq]
    constructor
    . intro ⟨bc, hholds, info, hinfo, announce, hannounce, heq⟩
      subst heq
      cases bc with
      | dictionary infoDict =>
        rw [V1TorrentInfo.tryFrom_eq_ok_iff (hinfoDict hholds)] at hinfo
        exact ⟨⟨infoDict, hholds, hinfo⟩, ⟨announce, hannounce, rfl⟩, rfl⟩
      | _ => contradiction
    . intro ⟨⟨infoDict, hholds, hinfo⟩, ⟨announce, hannounce, htext⟩, hlist⟩
      rw [← V1TorrentInfo.tryFrom_eq_ok_iff (hinfoDict hholds)] at hinfo
      refine ⟨_, hholds, _, hinfo, announce, hannounce, ?_⟩
      rw [htext, ← hlist]

/--
What `main` makes of the bytes of a file.
-/
def ofFile (sha1 : Bytes → Bytes) (torrent : Bytes) : Except FileError V1Torrent := do
  let parsed ← Bencode.parseBencode torrent
  tryFrom sha1 parsed

/--
A file is read as the torrent that stands in it and as no other, and only if one does.
-/
theorem ofFile_encode_iff {sha1 : Bytes → Bytes} {d : DictT} {torrent : V1Torrent}
    (hd : Bencode.WellFormed (.dictionary d)) (rest : Bytes)
    : ofFile sha1 (Bencode.encode (.dictionary d) ++ rest) = .ok torrent
        ↔
      torrent.StandsIn sha1 d := by
  unfold ofFile
  rw [Bencode.parseBencode_encode_append hd]
  exact tryFrom_eq_ok_iff hd torrent

/--
The names are no ASCII, both dictionaries have an entry that is none of the torrent's, and a line break
comes behind them.
-/
theorem ofFile_encode_iff_otherEntries
    : ∃ (d infoDict : DictT) (torrent : V1Torrent), d.Holds "info" (.dictionary infoDict) ∧ infoDict.length = 5
        ∧ d.length = 3 ∧ torrent.info.name = "é" ∧ torrent.info.pieces.length = 2
        ∧ ofFile Sha1.digest (Bencode.encode (.dictionary d) ++ [10]) = .ok torrent := by
  let infoDict : DictT := [(⟨asBytes "length"⟩, .int 3), (⟨asBytes "name"⟩, .byteString ⟨asBytes "é"⟩),
    (⟨asBytes "piece length"⟩, .int 2), (⟨asBytes "pieces"⟩, .byteString ⟨List.replicate 40 7⟩),
    (⟨asBytes "private"⟩, .int 1)]
  let d : DictT := [(⟨asBytes "announce"⟩, .byteString ⟨asBytes "ü"⟩), (⟨asBytes "comment"⟩, .int 0),
    (⟨asBytes "info"⟩, .dictionary infoDict)]
  let torrent : V1Torrent := {
    info := {
      length := 3
      pieceLength := 2
      pieces := [⟨List.replicate 20 7⟩, ⟨List.replicate 20 7⟩]
      name := "é"
      infoHash := Sha1.digest (Bencode.encode (.dictionary infoDict))
    }
    announce := "ü"
    announceList := []
  }
  have hinfoDict : Bencode.WellFormed (.dictionary infoDict) := by
    apply Bencode.WellFormed.dictionary _ (by decide) (by decide)
    simp only [infoDict, List.forall_mem_cons, List.not_mem_nil, false_imp_iff, implies_true, and_true]
    exact ⟨.int _, .byteString _ (by decide), .int _, .byteString _ (by decide), .int _⟩
  have hd : Bencode.WellFormed (.dictionary d) := by
    apply Bencode.WellFormed.dictionary _ (by decide) (by decide)
    simp only [d, List.forall_mem_cons, List.not_mem_nil, false_imp_iff, implies_true, and_true]
    exact ⟨.byteString _ (by decide), .int _, hinfoDict⟩
  have hstands : torrent.StandsIn Sha1.digest d := by
    constructor
    . refine ⟨infoDict, by simp [DictT.Holds, d], ?_⟩
      constructor
      . simp [DictT.Holds, infoDict, torrent]
      . simp [DictT.Holds, infoDict, torrent]
      . simp [DictT.Holds, infoDict, torrent]
      . decide
      . exact ⟨asBytes "é", by simp [DictT.Holds, infoDict], fromUtf8Lossy_asBytes "é"⟩
      . rfl
    . exact ⟨asBytes "ü", by simp [DictT.Holds, d], fromUtf8Lossy_asBytes "ü"⟩
    . rfl
  exact ⟨d, infoDict, torrent, by simp [DictT.Holds, d], rfl, rfl, rfl, rfl,
    (ofFile_encode_iff hd [10]).mpr hstands⟩

end V1Torrent
