import BenTorrent.Peer.Error

/-!
This module contains the messages of the wire protocol, their encoding and their decoder.
-/

open Rust Buf

inductive FlagMessages where
  | choke
  | unchoke
  | interested
  | notInterested
  deriving Repr, DecidableEq

namespace FlagMessages

def toU8 : FlagMessages → UInt8
  | .choke => 0
  | .unchoke => 1
  | .interested => 2
  | .notInterested => 3

def tryFrom : UInt8 → Except ProtocolError FlagMessages
  | 0 => .ok .choke
  | 1 => .ok .unchoke
  | 2 => .ok .interested
  | 3 => .ok .notInterested
  | _ => .error .badId

end FlagMessages

inductive Messages where
  | keepAlive
  | flag (flag : FlagMessages)
  | «have» (pieceIndex : UInt32)
  | bitField (bitfield : Bytes)
  | request (index begin length : UInt32)
  | piece (index begin : UInt32) (block : Bytes)
  | cancel (index begin length : UInt32)
  deriving Repr, DecidableEq

def FlagMessages.interestMsg (interest : Bool) : Messages :=
  .flag (if interest then .interested else .notInterested)

namespace Messages

def encode (build : Build) : Messages → Outcome ε Bytes
  | .keepAlive => return putU32 0
  | .flag f => return putU32 1 ++ [f.toU8]
  | .have pieceIndex => return putU32 5 ++ [4] ++ putU32 pieceIndex
  | .bitField bitfield => do
    let len ← build.u32Add 1 (UInt32.ofNat bitfield.length)
    return putU32 len ++ [5] ++ bitfield
  | .request index begin length =>
    return putU32 13 ++ [6] ++ putU32 index ++ putU32 begin ++ putU32 length
  | .piece index begin block => do
    let len ← build.u32Add 9 (UInt32.ofNat block.length)
    return putU32 len ++ [7] ++ putU32 index ++ putU32 begin ++ block
  | .cancel index begin length =>
    return putU32 13 ++ [8] ++ putU32 index ++ putU32 begin ++ putU32 length

def Fits : Messages → Prop
  | .bitField bitfield => bitfield.length + 1 < 2 ^ 32
  | .piece _ _ block => block.length + 9 < 2 ^ 32
  | _ => True

end Messages

namespace MessagesDecoder

def tryGet (res : Except TryGetError α) : Outcome ProtocolError α :=
  match res with
  | .ok x => .ok x
  | .error e => .error (.err (.tryGetError e))

def decodeRange (b : Bytes) : Outcome ProtocolError ((UInt32 × UInt32 × UInt32) × Bytes) := do
  let (index, b) ← tryGet (tryGetU32 b)
  let (begin, b) ← tryGet (tryGetU32 b)
  let (length, b) ← tryGet (tryGetU32 b)
  return ((index, begin, length), b)

def decodePiece (build : Build) (len : Nat) (b : Bytes)
    : Outcome ProtocolError (Messages × Bytes) := do
  let (index, b) ← tryGet (tryGetU32 b)
  let (begin, b) ← tryGet (tryGetU32 b)
  let blockLen ← build.usizeSub len 9
  let _ ← vecZeros blockLen
  let (block, b) ← tryGet (tryCopyToSlice blockLen b)
  return (.piece index begin block, b)

def decodeBody (build : Build) (len : Nat) (id : UInt8) (b : Bytes)
    : Outcome ProtocolError (Messages × Bytes) :=
  match id with
  | 4 => do
    let (pieceIndex, b) ← tryGet (tryGetU32 b)
    return (.have pieceIndex, b)
  | 5 => do
    let bitfieldLen ← build.usizeSub len 1
    let _ ← vecZeros bitfieldLen
    let (bitfield, b) ← tryGet (tryCopyToSlice bitfieldLen b)
    return (.bitField bitfield, b)
  | 6 => do
    let ((index, begin, length), b) ← decodeRange b
    return (.request index begin length, b)
  | 7 => decodePiece build len b
  | 8 => do
    let ((index, begin, length), b) ← decodeRange b
    return (.cancel index begin length, b)
  | i =>
    -- a flag message has no payload
    if len = 1 then
      match FlagMessages.tryFrom i with
      | .ok flag => .ok (.flag flag, b)
      | .error e => .error (.err e)
    else
      .error (.err .badId)

def decode (build : Build) (b : Bytes) : Outcome ProtocolError (Messages × Bytes) := do
  let (len, b) ← tryGet (tryGetU32 b)
  let len := len.toNat
  if len = 0 then
    return (.keepAlive, b)
  else if b.length < len then
    .error (.err (.tryGetError ⟨len, b.length⟩))
  else
    let (id, b) ← tryGet (tryGetU8 b)
    decodeBody build len id b

example : decode ⟨true⟩ [0, 0, 0, 5, 4, 0, 0, 1, 2, 9] = .ok (.have 258, [9]) := by decide +kernel

end MessagesDecoder
