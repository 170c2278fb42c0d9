import BenTorrent.File.Canonical
import BenTorrent.Model.Torrent
import BenTorrent.Sha1.Basic

/-!
This module contains when the info hash, which is taken of a re-encoding, is the hash of the file's own
bytes.
-/

open Rust Nom

namespace Bencode

def rawPair : Parser (ByteString × Bytes) := fun i => do
  let (leftover, k) ← innerParseBytestring i
  let (leftover, v) ← recognize parseType leftover
  return (leftover, k, v)

def rawDictionary : Parser (List (ByteString × Bytes)) := fun i => do
  let (leftover, _) ← tag [dictStart] i
  let (leftover, eles, _) ← manyTill rawPair (tag [stop]) leftover
  return (leftover, eles)

def infoKey : Bytes :=
  [105, 110, 102, 111]

def rawInfo (i : Bytes) : Option Bytes :=
  match rawDictionary i with
  -- of two entries with the key the later one counts
  | .ok (_, eles) => (eles.reverse.find? fun e => e.1.elements = infoKey).map Prod.snd
  | .error _ => none

/--
Encoding the parsed value gives the consumed bytes back, and the info hash is the hash of the info
value in the file.
-/
def HashesFile (sha1 : Bytes → Bytes) (i : Bytes) : Prop :=
  ∀ r b, parseType i = .ok (r, b) →
    encode b ++ r = i
      ∧ ∀ torrent, V1Torrent.tryFrom sha1 b = .ok torrent →
          ∃ raw, rawInfo i = some raw ∧ torrent.info.infoHash = sha1 raw

theorem toString_eq_info_iff (bs : ByteString) : bs.toString = "info" ↔ bs.elements = infoKey :=
  fromUtf8Lossy_eq_ascii_iff bs.elements ['i', 'n', 'f', 'o'] (by simp)

theorem getCollected_info (d : DictT)
    : getCollected (convertDictKeys d) "info"
        =
      (d.reverse.find? fun e => e.1.elements = infoKey).map Prod.snd := by
  have hkey : ((fun e : String × Bencode => decide (e.1 = "info"))
      ∘ fun e : ByteString × Bencode => (e.1.toString, e.2))
        = fun e => decide (e.1.elements = infoKey) := by
    funext e
    simp only [Function.comp_apply, toString_eq_info_iff]
  unfold getCollected convertDictKeys
  rw [← List.map_reverse, List.find?_map, hkey, Option.map_map]
  rfl

theorem rawPair_encode {k : ByteString} {v : Bencode} (hk : k.elements.length < 2 ^ 32)
    (hv : WellFormed v) (r : Bytes)
    : rawPair (encodeBs k ++ encode v ++ r) = .ok (r, k, encode v) := by
  unfold rawPair recognize
  rw [List.append_assoc, innerParseBytestring_encodeBs k hk]
  simp only [ok_bind, parseType_encode_append hv, List.length_append, Nat.add_sub_cancel]
  rw [List.take_left]
  rfl

theorem rawDictionary_encode {d : DictT} (hd : WellFormed (.dictionary d)) (r : Bytes)
    : rawDictionary (encode (.dictionary d) ++ r) = .ok (r, d.map fun e => (e.1, encode e.2)) := by
  cases hd with
  | dictionary _ hsorted hkeys hvals =>
    have hmany : manyTill rawPair (tag [stop])
          (d.flatMap (fun e => encodeBs e.1 ++ encode e.2) ++ stop :: r)
        = .ok (r, d.map (fun e => (e.1, encode e.2)), [stop]) := by
      apply manyTill_flatMap
      . intro e he rest
        apply rawPair_encode (hkeys e he) (hvals e he) rest
      . intro e _ rest
        obtain ⟨c, w, hw, hc⟩ := encodeBs_eq_cons e.1
        rw [hw]
        refine ⟨_, tag_singleton_cons_of_ne _ _ _ ?_⟩
        rintro rfl
        contradiction
      . simp
    unfold rawDictionary
    rw [encode, encodeDictionary_eq_flatMap, List.cons_append, List.append_assoc,
      List.singleton_append]
    simp only [tag_singleton_cons_self, ok_bind, hmany]
    rfl

theorem rawInfo_encode {d : DictT} (hd : WellFormed (.dictionary d)) (r : Bytes)
    : rawInfo (encode (.dictionary d) ++ r)
        =
      (getCollected (convertDictKeys d) "info").map encode := by
  unfold rawInfo
  rw [rawDictionary_encode hd, getCollected_info]
  dsimp only
  rw [← List.map_reverse, List.find?_map, Option.map_map, Option.map_map]
  rfl

end Bencode

theorem V1TorrentInfo.infoHash_of_tryFrom {sha1 : Bytes → Bytes} {bc : Bencode}
    {info : V1TorrentInfo} (h : tryFrom sha1 bc = .ok info)
    : info.infoHash = sha1 (Bencode.encode bc) := by
  cases bc with
  | dictionary eles =>
    simp only [tryFrom, Except.bind_eq_ok] at h
    obtain ⟨_, _, _, _, _, _, _, _, _, _, h⟩ := h
    simp only [pure, Except.pure, Except.ok.injEq] at h
    rw [← h]
    rfl
  | _ => contradiction

theorem V1Torrent.infoHash_of_tryFrom {sha1 : Bytes → Bytes} {bc : Bencode} {torrent : V1Torrent}
    (h : tryFrom sha1 bc = .ok torrent)
    : ∃ d info, bc = .dictionary d ∧ getCollected (convertDictKeys d) "info" = some info
        ∧ torrent.info.infoHash = sha1 (Bencode.encode info) := by
  cases bc with
  | dictionary d =>
    simp only [tryFrom, Except.bind_eq_ok] at h
    obtain ⟨v, hget, info, hinfo, _, _, h⟩ := h
    simp only [pure, Except.pure, Except.ok.injEq] at h
    unfold getRequired at hget
    split at hget
    . next v' hget' =>
      rw [Except.ok.injEq] at hget
      subst hget
      refine ⟨d, v', rfl, hget', ?_⟩
      rw [← h]
      apply V1TorrentInfo.infoHash_of_tryFrom hinfo
    . contradiction
  | _ => contradiction

namespace Bencode

theorem hashesFile_iff_startsCanonical (sha1 : Bytes → Bytes) (i r : Bytes) (b : Bencode)
    (h : parseType i = .ok (r, b))
    : HashesFile sha1 i ↔ StartsCanonical i := by
  constructor
  . intro hfile
    exact (encode_append_eq_iff h).mp (hfile r b h).1
  . intro hstarts r' b' h'
    have heq := (encode_append_eq_iff h').mpr hstarts
    refine ⟨heq, ?_⟩
    intro torrent htorrent
    obtain ⟨d, info, rfl, hinfo, hhash⟩ := V1Torrent.infoHash_of_tryFrom htorrent
    refine ⟨encode info, ?_, hhash⟩
    rw [← heq, rawInfo_encode (parseType_wellFormed h'), hinfo]
    rfl

theorem hashesFile_iff_startsCanonical_int
    : HashesFile Sha1.digest [105, 45, 55, 101, 9] ↔ StartsCanonical [105, 45, 55, 101, 9] :=
  hashesFile_iff_startsCanonical Sha1.digest _ [9] (.int (-7)) rfl

theorem not_hashesFile_leadingZero
    : ¬∀ i r b, parseType i = .ok (r, b) → HashesFile Sha1.digest i := by
  intro h
  have hparse : parseType [105, 48, 55, 101] = .ok ([], .int 7) := rfl
  have hfile := (h _ _ _ hparse [] (.int 7) hparse).1
  exact absurd hfile (by decide)

end Bencode
