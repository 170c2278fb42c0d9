import BenTorrent.Rust.Basic

/-!
This module contains SHA-1, executable. The development is stated for any digest, only concrete runs
need this one.
-/

namespace Sha1

def rotl (x n : UInt32) : UInt32 :=
  (x <<< n) ||| (x >>> (32 - n))

def bigEndian (width n : Nat) : Bytes :=
  (List.range width).map fun i => UInt8.ofNat (n / 256 ^ (width - 1 - i))

def pad (msg : Bytes) : Bytes :=
  msg ++ 128 :: List.replicate ((119 - msg.length % 64) % 64) 0 ++ bigEndian 8 (8 * msg.length)

def words : Bytes → List UInt32
  | b0 :: b1 :: b2 :: b3 :: bs =>
    ((b0.toUInt32 <<< 24) ||| (b1.toUInt32 <<< 16) ||| (b2.toUInt32 <<< 8) ||| b3.toUInt32)
      :: words bs
  | _ => []

def extend : Nat → List UInt32 → List UInt32
  | 0, ws => ws
  | n + 1, ws =>
    -- the words stand in reverse order
    extend n (rotl (ws.getD 2 0 ^^^ ws.getD 7 0 ^^^ ws.getD 13 0 ^^^ ws.getD 15 0) 1 :: ws)

structure Chain where
  a : UInt32
  b : UInt32
  c : UInt32
  d : UInt32
  e : UInt32

def round (t : Nat) (s : Chain) (w : UInt32) : Chain :=
  let (f, k) :=
    if t < 20 then ((s.b &&& s.c) ||| (~~~s.b &&& s.d), (0x5a827999 : UInt32))
    else if t < 40 then (s.b ^^^ s.c ^^^ s.d, 0x6ed9eba1)
    else if t < 60 then ((s.b &&& s.c) ||| (s.b &&& s.d) ||| (s.c &&& s.d), 0x8f1bbcdc)
    else (s.b ^^^ s.c ^^^ s.d, 0xca62c1d6)
  ⟨rotl s.a 5 + f + s.e + k + w, s.a, rotl s.b 30, s.c, s.d⟩

def rounds : Nat → Chain → List UInt32 → Chain
  | _, s, [] => s
  | t, s, w :: ws => rounds (t + 1) (round t s w) ws

def block (s : Chain) (ws : List UInt32) : Chain :=
  let r := rounds 0 s (extend 64 ws.reverse).reverse
  ⟨s.a + r.a, s.b + r.b, s.c + r.c, s.d + r.d, s.e + r.e⟩

def blocks : Nat → Chain → List UInt32 → Chain
  | 0, s, _ => s
  | n + 1, s, ws => blocks n (block s (ws.take 16)) (ws.drop 16)

def digest (msg : Bytes) : Bytes :=
  let ws := words (pad msg)
  let s := blocks (ws.length / 16) ⟨0x67452301, 0xefcdab89, 0x98badcfe, 0x10325476, 0xc3d2e1f0⟩ ws
  [s.a, s.b, s.c, s.d, s.e].flatMap fun x => bigEndian 4 x.toNat

example : digest [97, 98, 99] = [169, 153, 62, 54, 71, 6, 129, 106, 186, 62, 37, 113, 120, 80, 194,
    108, 156, 208, 216, 157] := by
  decide +kernel

end Sha1
