import BenTorrent.Nom.Number
import BenTorrent.Rust.BTreeMap

/-!
This module contains bencoded values, their encoder and the parser for them.
-/

open Rust Nom

inductive FileError where
  | missing (value : String)
  | v1PiecesByteLenWrong
  | wrongType
  | bencodeParse (err : Nom.Error)
  deriving Repr, DecidableEq

@[ext]
structure ByteString where
  elements : Bytes
  deriving Repr, DecidableEq

instance : LinearOrder ByteString :=
  LinearOrder.lift' ByteString.elements fun _ _ => ByteString.ext

inductive Bencode where
  | int (i : Int64)
  | byteString (bs : ByteString)
  | list (l : List Bencode)
  | dictionary (d : List (ByteString × Bencode))

abbrev DictT := List (ByteString × Bencode)

namespace Bencode

def intStart : UInt8 := 105 -- i

def listStart : UInt8 := 108 -- l

def dictStart : UInt8 := 100 -- d

def stop : UInt8 := 101 -- e

def colon : UInt8 := 58

def encodeInt (i : Int64) : Bytes :=
  intStart :: (Decimal.ofInt i.toInt ++ [stop])

def encodeBs (bs : ByteString) : Bytes :=
  Decimal.ofNat bs.elements.length ++ colon :: bs.elements

mutual

def encode : Bencode → Bytes
  | .int i => encodeInt i
  | .byteString bs => encodeBs bs
  | .list l => listStart :: (encodeList l ++ [stop])
  | .dictionary d => dictStart :: (encodeDictionary d ++ [stop])

def encodeList : List Bencode → Bytes
  | [] => []
  | bencode :: l => encode bencode ++ encodeList l

def encodeDictionary : List (ByteString × Bencode) → Bytes
  | [] => []
  | (k, v) :: d => encodeBs k ++ encode v ++ encodeDictionary d

end

def parseInt : Parser Bencode := fun i => do
  let (leftover, number) ← delimited (tag [intStart]) i64 (tag [stop]) i
  return (leftover, .int number)

def innerParseBytestring : Parser ByteString := fun i => do
  let (leftover, len) ← u32 i
  let (leftover, _) ← tag [colon] leftover
  let (leftover, bs) ← take len.toNat leftover
  return (leftover, ⟨bs⟩)

def parseBytestring : Parser Bencode := fun i => do
  let (leftover, bs) ← innerParseBytestring i
  return (leftover, .byteString bs)

def parseList (parseType : Parser Bencode) : Parser Bencode := fun i => do
  let (leftover, _) ← tag [listStart] i
  let (leftover, eles, _) ← manyTill parseType (tag [stop]) leftover
  return (leftover, .list eles)

def parsePair (parseType : Parser Bencode) : Parser (ByteString × Bencode) := fun i => do
  let (leftover, k) ← innerParseBytestring i
  let (leftover, v) ← parseType leftover
  return (leftover, k, v)

def parseDictionary (parseType : Parser Bencode) : Parser Bencode := fun i => do
  let (leftover, _) ← tag [dictStart] i
  let (leftover, eles, _) ← manyTill (parsePair parseType) (tag [stop]) leftover
  return (leftover, .dictionary (BTreeMap.collect eles))

def parseTypeFuel : Nat → Parser Bencode
  | 0, i => .error ⟨i, .alt⟩
  | fuel + 1, i =>
    alt [
      parseInt,
      parseList (parseTypeFuel fuel),
      parseDictionary (parseTypeFuel fuel),
      parseBytestring
    ] i

def parseType : Parser Bencode := fun i =>
  -- a nested value is shorter than the one around it, so this is fuel enough
  parseTypeFuel (i.length + 1) i

def parseBencode (i : Bytes) : Except FileError Bencode :=
  match parseType i with
  | .ok (_, bc) => .ok bc
  | .error err => .error (.bencodeParse err)

/--
The values a dictionary built on `BTreeMap` can hold, with byte strings whose length fits in a
`u32`.
-/
inductive WellFormed : Bencode → Prop where
  | int (i : Int64) : WellFormed (.int i)
  | byteString (bs : ByteString) (hlen : bs.elements.length < 2 ^ 32) : WellFormed (.byteString bs)
  | list (l : List Bencode) (hl : ∀ b ∈ l, WellFormed b) : WellFormed (.list l)
  | dictionary (d : DictT) (hsorted : BTreeMap.Sorted d)
      (hkeys : ∀ e ∈ d, e.1.elements.length < 2 ^ 32) (hvals : ∀ e ∈ d, WellFormed e.2)
      : WellFormed (.dictionary d)

theorem encodeList_eq_flatMap (l : List Bencode) : encodeList l = l.flatMap encode := by
  induction l with
  | nil => rfl
  | cons b l ih => rw [encodeList, ih, List.flatMap_cons]

theorem encodeDictionary_eq_flatMap (d : DictT)
    : encodeDictionary d = d.flatMap fun e => encodeBs e.1 ++ encode e.2 := by
  induction d with
  | nil => rfl
  | cons e d ih => rw [encodeDictionary, ih, List.flatMap_cons]

end Bencode
