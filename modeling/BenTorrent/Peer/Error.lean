import BenTorrent.Rust.Buf

/-!
This module contains the errors of the peer layer.
-/

open Rust

inductive PeerError where
  | badBounds (index endPos : Nat)
  | badPieceIdx (index : Nat)
  | fileAlreadyComplete (index : UInt32)
  | filePieceNotFinished (index : UInt32)
  | pieceHashMismatch (index : UInt32) (computed expected : String)
  | networkTimeout
  | other (msg : String)
  deriving Repr, DecidableEq

inductive ProtocolError where
  | tryGetError (e : TryGetError)
  | badId
  deriving Repr, DecidableEq

inductive IoErrorKind where
  | invalidInput
  | unexpectedEof
  deriving Repr, DecidableEq

inductive AnyError where
  | peer (e : PeerError)
  | protocol (e : ProtocolError)
  | io (kind : IoErrorKind)
  deriving Repr, DecidableEq

def hexDigit (n : UInt8) : Char :=
  if n < 10 then Char.ofNat (n.toNat + 48) else Char.ofNat (n.toNat + 87)

/--
`hex::encode` of the crate `hex`: two lower case digits for each byte.
-/
def hexEncode (bytes : Bytes) : String :=
  String.ofList (bytes.flatMap fun byte => [hexDigit (byte / 16), hexDigit (byte % 16)])

example : hexEncode [0, 171, 255] = "00abff" := by decide
