import BenTorrent.File.Bencode
import BenTorrent.Rust.Utf8

/-!
This module contains torrent files: the fields of the metainfo and how they are read off a bencoded
value.
-/

open Rust

structure V1Piece where
  hash : Bytes
  deriving Repr, DecidableEq

structure V1TorrentInfo where
  length : Int64
  pieceLength : Int64
  pieces : List V1Piece
  name : String
  infoHash : Bytes
  deriving DecidableEq

structure V1Torrent where
  info : V1TorrentInfo
  announce : String
  announceList : List String
  deriving DecidableEq

def ByteString.toString (bs : ByteString) : String :=
  fromUtf8Lossy bs.elements

def convertDictKeys (eles : DictT) : List (String × Bencode) :=
  eles.map fun e => (e.1.toString, e.2)

def getCollected (conv : List (String × Bencode)) (key : String) : Option Bencode :=
  -- collecting into the `HashMap` keeps the later of two pairs with one key
  (conv.reverse.find? fun e => e.1 = key).map Prod.snd

def getRequired (conv : List (String × Bencode)) (key : String) : Except FileError Bencode :=
  match getCollected conv key with
  | some bc => .ok bc
  | none => .error (.missing key)

def getInt (conv : List (String × Bencode)) (key : String) : Except FileError Int64 :=
  match getCollected conv key with
  | some (.int i) => .ok i
  | _ => .error (.missing key)

def getByteString (conv : List (String × Bencode)) (key : String) : Except FileError Bytes :=
  match getCollected conv key with
  | some (.byteString ⟨elements⟩) => .ok elements
  | _ => .error (.missing key)

def asChunks (n : Nat) (elements : Bytes) : List Bytes :=
  (List.range (elements.length / n)).map fun i => (elements.drop (i * n)).take n

def toPieces (elements : Bytes) : Except FileError (List V1Piece) :=
  if elements.length % 20 ≠ 0 then
    .error .wrongType
  else
    .ok ((asChunks 20 elements).map V1Piece.mk)

section

-- the digest of the `sha1` crate
variable (sha1 : Bytes → Bytes)

namespace V1TorrentInfo

def computeInfoHash (bc : Bencode) : Bytes :=
  sha1 (Bencode.encode bc)

def tryFrom (bc : Bencode) : Except FileError V1TorrentInfo :=
  match bc with
  | .dictionary eles => do
    let conv := convertDictKeys eles
    let length ← getInt conv "length"
    let pieceLength ← getInt conv "piece length"
    let elements ← getByteString conv "pieces"
    let pieces ← toPieces elements
    let name ← getByteString conv "name"
    return {
      length
      pieces
      pieceLength
      name := fromUtf8Lossy name
      infoHash := computeInfoHash sha1 bc
    }
  | _ => .error .wrongType

end V1TorrentInfo

namespace V1Torrent

def tryFrom (bc : Bencode) : Except FileError V1Torrent :=
  match bc with
  | .dictionary eles => do
    let conv := convertDictKeys eles
    let d ← getRequired conv "info"
    let info ← V1TorrentInfo.tryFrom sha1 d
    let announce ← getByteString conv "announce"
    return { info, announce := fromUtf8Lossy announce, announceList := [] }
  | _ => .error .wrongType

end V1Torrent

end

theorem length_asChunks (n : Nat) (elements : Bytes)
    : (asChunks n elements).length = elements.length / n := by
  simp [asChunks]

theorem getByteString_eq_ok {d : DictT} {key : String} {elements : Bytes}
    (h : getByteString (convertDictKeys d) key = .ok elements)
    : ∃ e ∈ d, e.2 = .byteString ⟨elements⟩ := by
  unfold getByteString getCollected at h
  split at h
  . next hget =>
    rw [Except.ok.injEq] at h
    subst h
    rw [Option.map_eq_some_iff] at hget
    obtain ⟨e, hfind, he⟩ := hget
    have hmem := List.mem_of_find?_eq_some hfind
    rw [List.mem_reverse, convertDictKeys, List.mem_map] at hmem
    obtain ⟨e', hmem, rfl⟩ := hmem
    exact ⟨e', hmem, he⟩
  . contradiction

/--
No file has more pieces than a `u32` counts: a byte string is shorter than that.
-/
theorem V1TorrentInfo.pieces_length_lt_of_tryFrom {sha1 : Bytes → Bytes} {bc : Bencode}
    {info : V1TorrentInfo} (hbc : Bencode.WellFormed bc) (h : tryFrom sha1 bc = .ok info)
    : info.pieces.length < 2 ^ 32 := by
  cases hbc with
  | dictionary d _ _ hvals =>
    simp only [tryFrom, Except.bind_eq_ok] at h
    obtain ⟨_, _, _, _, elements, helements, pieces, hpieces, _, _, h⟩ := h
    simp only [pure, Except.pure, Except.ok.injEq] at h
    obtain ⟨e, he, hval⟩ := getByteString_eq_ok helements
    have hwf := hvals e he
    rw [hval] at hwf
    cases hwf with
    | byteString _ hlen =>
      unfold toPieces at hpieces
      split at hpieces
      . contradiction
      . rw [Except.ok.injEq] at hpieces
        rw [← h, ← hpieces, List.length_map, length_asChunks]
        dsimp only at hlen
        omega
  | _ => contradiction
