import BenTorrent.Rust.Basic

/-!
This module contains files as `tokio::fs::File`, of the crate `tokio`, presents them: the contents,
the position the next operation starts from, and what an overwrite changes. It is assumed that the
disk does not fail and has room, that nobody else has the file open, and, as documented, that
operations take effect in their order, that `set_len` and a write behind the end fill up with zeros
and that `read_exact` fails where there are too few bytes.
-/

namespace Rust

structure File where
  contents : Bytes
  pos : Nat
  deriving Repr, DecidableEq

namespace File

def slice (contents : Bytes) (start len : Nat) : Bytes :=
  (contents.drop start).take len

def overwrite (contents : Bytes) (pos : Nat) (block : Bytes) : Bytes :=
  if block.isEmpty then
    contents
  else
    -- a gap before `pos` reads as zeros
    contents.take pos ++ List.replicate (pos - contents.length) 0 ++ block
      ++ contents.drop (pos + block.length)

def createNew : File :=
  ⟨[], 0⟩

def setLen (file : File) (size : Nat) : Option File :=
  -- sizes and offsets beyond the range of `off_t` are refused
  if size < 2 ^ 63 then
    some { file with
      contents := file.contents.take size ++ List.replicate (size - file.contents.length) 0
    }
  else
    none

def seek (file : File) (offset : Nat) : Option File :=
  if offset < 2 ^ 63 then some { file with pos := offset } else none

def writeAll (file : File) (block : Bytes) : File where
  contents := overwrite file.contents file.pos block
  pos := file.pos + block.length

def readExact (file : File) (len : Nat) : Option (Bytes × File) :=
  if len = 0 ∨ file.pos + len ≤ file.contents.length then
    some (slice file.contents file.pos len, { file with pos := file.pos + len })
  else
    none

theorem slice_getElem? (contents : Bytes) (start len idx : Nat)
    : (slice contents start len)[idx]? = if idx < len then contents[start + idx]? else none := by
  unfold slice
  rw [List.getElem?_take]
  split
  . rw [List.getElem?_drop]
  . rfl

theorem slice_self (contents : Bytes) : slice contents 0 contents.length = contents := by
  simp [slice]

theorem slice_append_slice (contents : Bytes) (start len1 len2 : Nat)
    : slice contents start len1 ++ slice contents (start + len1) len2
        =
      slice contents start (len1 + len2) := by
  unfold slice
  rw [List.take_add, List.drop_drop]

theorem length_overwrite (contents : Bytes) (pos : Nat) (block : Bytes)
    (h : pos + block.length ≤ contents.length)
    : (overwrite contents pos block).length = contents.length := by
  unfold overwrite
  split
  . rfl
  . simp only [List.length_append, List.length_take, List.length_replicate, List.length_drop]
    omega

theorem overwrite_getElem? (contents : Bytes) (pos : Nat) (block : Bytes)
    (h : pos + block.length ≤ contents.length) (idx : Nat)
    : (overwrite contents pos block)[idx]?
        =
      if pos ≤ idx ∧ idx < pos + block.length then block[idx - pos]? else contents[idx]? := by
  have hpos : min pos contents.length = pos := by omega
  unfold overwrite
  split
  . next hempty =>
    rw [List.isEmpty_iff] at hempty
    have : ¬ (pos ≤ idx ∧ idx < pos + block.length) := by simp [hempty]
    rw [if_neg this]
  . rw [Nat.sub_eq_zero_of_le (by omega)]
    simp only [List.replicate_zero, List.append_nil, List.getElem?_append, List.length_append,
      List.length_take, hpos, List.getElem?_take, List.getElem?_drop]
    split
    . next h1 =>
      split
      . next h2 =>
        rw [if_neg (by omega)]
      . next h2 =>
        rw [if_pos (by omega)]
    . next h1 =>
      rw [if_neg (by omega)]
      congr 1
      omega

theorem slice_overwrite_of_disjoint (contents : Bytes) (pos : Nat) (block : Bytes)
    (h : pos + block.length ≤ contents.length) (start len : Nat)
    (hdisj : pos + block.length ≤ start ∨ start + len ≤ pos)
    : slice (overwrite contents pos block) start len = slice contents start len := by
  apply List.ext_getElem?
  intro idx
  rw [slice_getElem?, slice_getElem?]
  split
  . rw [overwrite_getElem? contents pos block h, if_neg (by omega)]
  . rfl

theorem slice_overwrite_of_within (contents : Bytes) (start pos len : Nat) (block : Bytes)
    (h1 : pos + block.length ≤ len) (h2 : start + len ≤ contents.length)
    : slice (overwrite contents (start + pos) block) start len
        =
      overwrite (slice contents start len) pos block := by
  have hlen : (slice contents start len).length = len := by
    simp only [slice, List.length_take, List.length_drop]
    omega
  apply List.ext_getElem?
  intro idx
  rw [slice_getElem?, overwrite_getElem? _ _ _ (by omega), overwrite_getElem? _ _ _ (by omega),
    slice_getElem?]
  by_cases hblock : pos ≤ idx ∧ idx < pos + block.length
  . rw [if_pos (by omega), if_pos (by omega), if_pos hblock]
    congr 1
    omega
  . rw [if_neg hblock]
    split
    . rw [if_neg (by omega)]
    . rfl

theorem slice_slice (contents : Bytes) (start1 len1 start2 len2 : Nat) (h : start2 + len2 ≤ len1)
    : slice (slice contents start1 len1) start2 len2 = slice contents (start1 + start2) len2 := by
  apply List.ext_getElem?
  intro idx
  rw [slice_getElem?, slice_getElem?, slice_getElem?]
  split
  . rw [if_pos (by omega), Nat.add_assoc]
  . rfl

end File

end Rust
