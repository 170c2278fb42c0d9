import Mathlib.Data.Nat.Digits.Lemmas
import BenTorrent.Rust.Basic

/-!
This module contains `IpAddr::from_str`, which takes an IPv4 address in four decimal numbers or an
IPv6 address with all its groups or with one run of zeros left out.
-/

namespace Rust

structure Ipv4Addr where
  a : UInt8
  b : UInt8
  c : UInt8
  d : UInt8
  deriving Repr, DecidableEq

structure Ipv6Addr where
  segments : List UInt16
  length_eq : segments.length = 8
  deriving Repr, DecidableEq

/--
The groups in front of a run of zeros and those behind it.
-/
def Ipv6Addr.ofGroups (head tail : List UInt16) : Ipv6Addr where
  segments := (List.range 8).map fun i =>
    if 8 - tail.length ≤ i then tail.getD (i - (8 - tail.length)) 0 else head.getD i 0
  length_eq := by rw [List.length_map, List.length_range]

inductive IpAddr where
  | v4 (ip : Ipv4Addr)
  | v6 (ip : Ipv6Addr)
  deriving Repr, DecidableEq

/--
A parser that takes nothing where it fails.
-/
abbrev AddrParser (α : Type) := Bytes → Option (α × Bytes)

namespace AddrParser

def dot : UInt8 := 46

def colon : UInt8 := 58

def toDigit (radix : Nat) (c : UInt8) : Option Nat :=
  let digit :=
    if 48 ≤ c.toNat ∧ c.toNat < 58 then some (c.toNat - 48)
    else if 97 ≤ c.toNat ∧ c.toNat < 123 then some (c.toNat - 87)
    else if 65 ≤ c.toNat ∧ c.toNat < 91 then some (c.toNat - 55)
    else none
  digit.filter fun d => d < radix

def readDigits (radix : Nat) : Bytes → List Nat × Bytes
  | [] => ([], [])
  | c :: s =>
    match toDigit radix c with
    | some d =>
      let (ds, rest) := readDigits radix s
      (d :: ds, rest)
    | none => ([], c :: s)

def readNumber (bound radix maxDigits : Nat) (allowZeroPrefix : Bool) : AddrParser Nat := fun s =>
  let hasLeadingZero := s.head? = some 48
  let (digits, rest) := readDigits radix s
  let result := digits.foldl (fun result digit => result * radix + digit) 0
  if maxDigits < digits.length then none
  else if digits.length = 0 then none
  else if !allowZeroPrefix ∧ hasLeadingZero ∧ 1 < digits.length then none
  else if result < bound then some (result, rest)
  else none

def readGivenChar (given : UInt8) : AddrParser Unit
  | [] => none
  | c :: s => if c = given then some ((), s) else none

def readSeparator (sep : UInt8) (index : Nat) (inner : AddrParser α) : AddrParser α := fun s => do
  if 0 < index then
    let (_, s) ← readGivenChar sep s
    inner s
  else
    inner s

def readOctet (index : Nat) : AddrParser UInt8 := fun s => do
  let (octet, s) ← readSeparator dot index (readNumber 256 10 3 false) s
  return (UInt8.ofNat octet, s)

def readIpv4Addr : AddrParser Ipv4Addr := fun s => do
  let (a, s) ← readOctet 0 s
  let (b, s) ← readOctet 1 s
  let (c, s) ← readOctet 2 s
  let (d, s) ← readOctet 3 s
  return (⟨a, b, c, d⟩, s)

def fromBeBytes (hi lo : UInt8) : UInt16 :=
  UInt16.ofNat (hi.toNat * 256 + lo.toNat)

/--
The groups from one place on when there are `n` places left, and whether an IPv4 address was the last
two of them.
-/
def readGroups : (index n : Nat) → Bytes → List UInt16 × Bool × Bytes
  | _, 0, s => ([], false, s)
  | index, n + 1, s =>
    match (if 0 < n then readSeparator colon index readIpv4Addr s else none) with
    | some (v4, s) => ([fromBeBytes v4.a v4.b, fromBeBytes v4.c v4.d], true, s)
    | none =>
      match readSeparator colon index (readNumber 65536 16 4 true) s with
      | some (group, s) =>
        let (groups, ipv4, s) := readGroups (index + 1) n s
        (UInt16.ofNat group :: groups, ipv4, s)
      | none => ([], false, s)

def readIpv6Addr : AddrParser Ipv6Addr := fun s => do
  let (head, headIpv4, s) := readGroups 0 8 s
  if head.length = 8 then
    return (.ofGroups head [], s)
  else if headIpv4 then
    none
  else
    let (_, s) ← readGivenChar colon s
    let (_, s) ← readGivenChar colon s
    let (tail, _, s) := readGroups 0 (8 - (head.length + 1)) s
    return (.ofGroups head tail, s)

def readIpAddr : AddrParser IpAddr := fun s =>
  match readIpv4Addr s with
  | some (ip, s) => some (.v4 ip, s)
  | none => (readIpv6Addr s).map fun (ip, s) => (.v6 ip, s)

end AddrParser

namespace IpAddr

def fromStr (s : Bytes) : Option IpAddr :=
  match AddrParser.readIpAddr s with
  | some (ip, []) => some ip
  | _ => none

example : fromStr [49, 46, 50, 46, 51, 46, 52] = some (.v4 ⟨1, 2, 3, 4⟩) := by decide

example : fromStr [49, 58, 58, 65, 58, 49, 46, 50, 46, 51, 46, 52] = some (.v6 ⟨[1, 0, 0, 0, 0, 10, 258, 772], rfl⟩) := by
  decide

end IpAddr

end Rust
