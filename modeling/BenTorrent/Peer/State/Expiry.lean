import BenTorrent.Peer.State.Tracker
import Mathlib.Data.List.TakeWhile

/-!
This module contains how long requests stay out: what the queue of the expirations says about them
after any sequence of insertions, removals and expirations.
-/

open Rust

inductive ExpiryEvent where
  | insert (started : Nat) (pieceRequest : PeerRequestedPiece)
  | setRequestFinished (pieceId begin : UInt32)
  | removeRequest (req : PeerRequestedPiece)
  | setPieceFinished (pieceId : UInt32)
  | removeExpired (now ttl : Nat)

abbrev ExpiryTrace := List (ExpiryEvent × List PeerRequestedPiece)

/--
The operations of the queue with times of any kind. The tracker calls the last one with its own
timeout.
-/
def expiryTask : Machine PieceBlockTracker ExpiryEvent (List PeerRequestedPiece) where
  step tracker
    | .insert started pieceRequest =>
      some ([], { tracker with
        pieceToBlocksOutstanding :=
          tracker.pieceToBlocksOutstanding.insert started pieceRequest })
    | .setRequestFinished pieceId begin =>
      some ([], (tracker.setRequestFinished pieceId begin).getD tracker)
    | .removeRequest req => some ([], (tracker.removeRequest req).2)
    | .setPieceFinished pieceId => some ([], tracker.setPieceFinished pieceId)
    | .removeExpired now ttl =>
      let (expired, outstanding) := tracker.pieceToBlocksOutstanding.removeExpired now ttl
      some (expired, { tracker with pieceToBlocksOutstanding := outstanding })

section trace

def InsertsAt (key : PieceToBlockKey) (started : Nat) (x : ExpiryEvent × List PeerRequestedPiece)
    : Prop :=
  ∃ req : PeerRequestedPiece, x.1 = .insert started req ∧ req.key = key

def Inserts (key : PieceToBlockKey) (x : ExpiryEvent × List PeerRequestedPiece) : Prop :=
  ∃ started, InsertsAt key started x

/--
The last insertion of a request for the block was made then.
-/
def LastInserted (tr : ExpiryTrace) (key : PieceToBlockKey) (started : Nat) : Prop :=
  Since (InsertsAt key started) (Inserts key) tr

def insertTimes (tr : ExpiryTrace) : List Nat :=
  tr.filterMap fun x =>
    match x.1 with
    | .insert started _ => some started
    | _ => none

theorem insertTimes_append_singleton (tr : ExpiryTrace) (event : ExpiryEvent)
    (requests : List PeerRequestedPiece)
    : insertTimes (tr ++ [(event, requests)])
        =
      insertTimes tr ++ match event with
        | .insert started _ => [started]
        | _ => [] := by
  unfold insertTimes
  rw [List.filterMap_append]
  cases event with
  | _ => rfl

theorem lastInserted_insert {tr : ExpiryTrace} {key : PieceToBlockKey} {started started' : Nat}
    {req : PeerRequestedPiece} {requests : List PeerRequestedPiece}
    : LastInserted (tr ++ [(.insert started req, requests)]) key started'
        ↔
      if req.key = key then started' = started else LastInserted tr key started' := by
  unfold LastInserted
  rw [since_append_singleton]
  have hat : ∀ started', InsertsAt key started' (.insert started req, requests)
      ↔ started' = started ∧ req.key = key := by
    intro started'
    simp [InsertsAt, eq_comm]
  split
  . next heq =>
    simp [hat, Inserts, heq]
  . next hne =>
    simp [hat, Inserts, hne]

theorem lastInserted_append {tr : ExpiryTrace} {key : PieceToBlockKey} {started : Nat}
    {event : ExpiryEvent} {requests : List PeerRequestedPiece}
    (hevent : ∀ started req, event ≠ .insert started req)
    : LastInserted (tr ++ [(event, requests)]) key started ↔ LastInserted tr key started := by
  have hnot : ∀ started, ¬InsertsAt key started (event, requests) := by
    intro started ⟨req, heq, _⟩
    exact hevent started req heq
  unfold LastInserted
  rw [since_append_singleton]
  simp [hnot, Inserts]

end trace

namespace InprogressPieceToBlockMap

def Due (now ttl : Nat) (entry : Nat × PieceToBlockKey) : Prop :=
  ttl ≤ now - entry.1

instance (now ttl : Nat) : DecidablePred (Due now ttl) :=
  fun _ => inferInstanceAs (Decidable (_ ≤ _))

def Sorted (expirations : List (Nat × PieceToBlockKey)) : Prop :=
  expirations.Pairwise fun entry1 entry2 => entry1.1 ≤ entry2.1

def ExpiresKey (now ttl : Nat) (expirations : List (Nat × PieceToBlockKey)) (key : PieceToBlockKey)
    : Prop :=
  ∃ entry ∈ expirations.takeWhile fun entry => Due now ttl entry, entry.2 = key

theorem expiresKey_cons {now ttl : Nat} {entry : Nat × PieceToBlockKey}
    {expirations : List (Nat × PieceToBlockKey)} {key : PieceToBlockKey}
    : ExpiresKey now ttl (entry :: expirations) key
        ↔
      Due now ttl entry ∧ (entry.2 = key ∨ ExpiresKey now ttl expirations key) := by
  unfold ExpiresKey
  by_cases hdue : Due now ttl entry
  . simp [hdue]
  . simp [hdue]

theorem Sorted.expiresKey_iff {now ttl : Nat} {expirations : List (Nat × PieceToBlockKey)}
    {key : PieceToBlockKey} (h : Sorted expirations)
    : ExpiresKey now ttl expirations key
        ↔
      ∃ started, (started, key) ∈ expirations ∧ ttl ≤ now - started := by
  induction expirations with
  | nil => simp [ExpiresKey]
  | cons entry expirations ih =>
    unfold Sorted at h
    rw [List.pairwise_cons] at h
    rw [expiresKey_cons, ih h.2]
    constructor
    . rintro ⟨hdue, rfl | ⟨started, hmem, hstarted⟩⟩
      . exact ⟨entry.1, List.mem_cons_self, hdue⟩
      . exact ⟨started, List.mem_cons_of_mem _ hmem, hstarted⟩
    . intro ⟨started, hmem, hstarted⟩
      rcases List.mem_cons.mp hmem with rfl | hmem
      . exact ⟨hstarted, .inl rfl⟩
      . have hle : entry.1 ≤ started := h.1 _ hmem
        refine ⟨?_, .inr ⟨started, hmem, hstarted⟩⟩
        unfold Due
        omega

theorem expirations_expire (now ttl : Nat) (m : PieceToBlockMap)
    (expirations : List (Nat × PieceToBlockKey))
    : (expire now ttl m expirations).2.expirations
        =
      expirations.dropWhile fun entry => Due now ttl entry := by
  induction expirations generalizing m with
  | nil => rfl
  | cons entry expirations ih =>
    unfold expire
    split
    . next hdue =>
      have hdue : Due now ttl entry := hdue
      rw [List.dropWhile_cons_of_pos (by simpa using hdue)]
      split
      . apply ih
      . apply ih
    . next hdue =>
      have hdue : ¬Due now ttl entry := hdue
      rw [List.dropWhile_cons_of_neg (by simpa using hdue)]

theorem lookupAt_expire_eq_some {now ttl : Nat} {m : PieceToBlockMap}
    {expirations : List (Nat × PieceToBlockKey)} {pieceId begin : UInt32} {download : BlockDownload}
    : (expire now ttl m expirations).2.pieceToBlocksStarted.downloading.lookupAt pieceId begin
          = some download
        ↔
      ¬ExpiresKey now ttl expirations ⟨pieceId, begin⟩
        ∧ m.downloading.lookupAt pieceId begin = some download := by
  induction expirations generalizing m with
  | nil => simp [ExpiresKey, expire]
  | cons entry expirations ih =>
    obtain ⟨entryTime, k⟩ := entry
    rw [expiresKey_cons]
    unfold expire
    split
    . next hdue =>
      have hdue : Due now ttl (entryTime, k) := hdue
      simp only [hdue, true_and]
      split
      . next expired hlookup =>
        dsimp only
        rw [ih, NestedMap.lookupAt_eraseAt]
        split
        . next hkey =>
          obtain ⟨rfl, rfl⟩ := hkey
          simp
        . next hkey =>
          have hne : k ≠ ⟨pieceId, begin⟩ := by
            rintro rfl
            exact hkey ⟨rfl, rfl⟩
          simp [hne]
      . next hlookup =>
        rw [ih]
        have hne : m.downloading.lookupAt pieceId begin = some download → k ≠ ⟨pieceId, begin⟩ := by
          rintro hsome rfl
          rw [hlookup] at hsome
          contradiction
        tauto
    . next hdue =>
      have hdue : ¬Due now ttl (entryTime, k) := hdue
      simp [hdue]

def Keyed (m : PieceToBlockMap) : Prop :=
  ∀ pieceId begin download, m.downloading.lookupAt pieceId begin = some download →
    download.pieceRequest.key = ⟨pieceId, begin⟩

theorem mem_expire {now ttl : Nat} {m : PieceToBlockMap}
    {expirations : List (Nat × PieceToBlockKey)} {req : PeerRequestedPiece} (hkeyed : Keyed m)
    : req ∈ (expire now ttl m expirations).1
        ↔
      ExpiresKey now ttl expirations req.key
        ∧ m.downloading.lookupAt req.index req.begin = some { pieceRequest := req } := by
  induction expirations generalizing m with
  | nil => simp [ExpiresKey, expire]
  | cons entry expirations ih =>
    obtain ⟨entryTime, k⟩ := entry
    rw [expiresKey_cons]
    unfold expire
    split
    . next hdue =>
      have hdue : Due now ttl (entryTime, k) := hdue
      simp only [hdue, true_and]
      split
      . next expired hlookup =>
        have hkey := hkeyed k.pieceId k.blockBegin expired hlookup
        have herase := fun pieceId begin =>
          NestedMap.lookupAt_eraseAt m.downloading k.pieceId pieceId k.blockBegin begin
        have hkeyed' : Keyed { m with downloading := m.downloading.eraseAt k.pieceId k.blockBegin } := by
          intro pieceId begin download hsome
          rw [herase] at hsome
          split at hsome
          . contradiction
          . exact hkeyed pieceId begin download hsome
        dsimp only
        rw [List.mem_cons, ih hkeyed', herase]
        by_cases heq : k = req.key
        . subst heq
          have hlookup : m.downloading.lookupAt req.index req.begin = some expired := hlookup
          have hexpired : expired = { pieceRequest := req } ↔ req = expired.pieceRequest := by
            cases expired
            simp [eq_comm]
          simp [PeerRequestedPiece.key, hlookup, hexpired]
        . have hne : ¬(req.index = k.pieceId ∧ req.begin = k.blockBegin) := by
            intro ⟨hindex, hbegin⟩
            apply heq
            rw [PeerRequestedPiece.key, hindex, hbegin]
          have hother : req ≠ expired.pieceRequest := by
            rintro rfl
            exact heq hkey.symm
          simp only [hother, hne, heq, if_false, false_or]
      . next hlookup =>
        rw [ih hkeyed]
        have hne : m.downloading.lookupAt req.index req.begin = some { pieceRequest := req } →
            k ≠ req.key := by
          rintro hsome rfl
          rw [PeerRequestedPiece.key, hsome] at hlookup
          contradiction
        tauto
    . next hdue =>
      have hdue : ¬Due now ttl (entryTime, k) := hdue
      simp [hdue]

end InprogressPieceToBlockMap

namespace PieceBlockTracker

def downloadingAt (tracker : PieceBlockTracker) (key : PieceToBlockKey) : Option BlockDownload :=
  tracker.blocks.downloading.lookupAt key.pieceId key.blockBegin

/--
What the queue says about the insertions so far. The entries of a request that is gone stay in it.
-/
structure Timed (tr : ExpiryTrace) (tracker : PieceBlockTracker) : Prop where
  keyed : InprogressPieceToBlockMap.Keyed tracker.blocks
  sorted : InprogressPieceToBlockMap.Sorted tracker.pieceToBlocksOutstanding.expirations
  inserted : ∀ entry ∈ tracker.pieceToBlocksOutstanding.expirations, entry.1 ∈ insertTimes tr
  le_last : ∀ entry ∈ tracker.pieceToBlocksOutstanding.expirations,
    ∀ started, LastInserted tr entry.2 started → entry.1 ≤ started
  last : ∀ key download, tracker.downloadingAt key = some download →
    ∃ started, LastInserted tr key started
      ∧ (started, key) ∈ tracker.pieceToBlocksOutstanding.expirations

theorem timed_new (maxOutstandingRequests : Nat) (pieces : List V1Piece)
    : (new maxOutstandingRequests pieces).Timed [] := by
  constructor
  . intro pieceId begin download h
    simp [new, blocks, InprogressPieceToBlockMap.empty, PieceToBlockMap.empty] at h
  . exact .nil
  . simp [new, InprogressPieceToBlockMap.empty]
  . simp [new, InprogressPieceToBlockMap.empty]
  . intro key download h
    simp [new, downloadingAt, blocks, InprogressPieceToBlockMap.empty, PieceToBlockMap.empty] at h

theorem Timed.of_le {tracker tracker' : PieceBlockTracker} {tr : ExpiryTrace} {event : ExpiryEvent}
    {requests : List PeerRequestedPiece} (h : tracker.Timed tr)
    (hevent : ∀ started req, event ≠ .insert started req)
    (hsub : tracker'.pieceToBlocksOutstanding.expirations.Sublist
      tracker.pieceToBlocksOutstanding.expirations)
    (hdownloading : ∀ key download, tracker'.downloadingAt key = some download →
      tracker.downloadingAt key = some download
        ∧ ∀ started, (started, key) ∈ tracker.pieceToBlocksOutstanding.expirations →
          (started, key) ∈ tracker'.pieceToBlocksOutstanding.expirations)
    : tracker'.Timed (tr ++ [(event, requests)]) := by
  have htimes : insertTimes (tr ++ [(event, requests)]) = insertTimes tr := by
    rw [insertTimes_append_singleton]
    cases event with
    | insert started req => exact absurd rfl (hevent started req)
    | _ => rw [List.append_nil]
  constructor
  . intro pieceId begin download hlookup
    exact h.keyed pieceId begin download (hdownloading ⟨pieceId, begin⟩ download hlookup).1
  . exact List.Pairwise.sublist hsub h.sorted
  . intro entry hentry
    rw [htimes]
    exact h.inserted entry (hsub.subset hentry)
  . intro entry hentry started hlast
    exact h.le_last entry (hsub.subset hentry) started ((lastInserted_append hevent).mp hlast)
  . intro key download hlookup
    obtain ⟨hlookup, hkeep⟩ := hdownloading key download hlookup
    obtain ⟨started, hlast, hmem⟩ := h.last key download hlookup
    exact ⟨started, (lastInserted_append hevent).mpr hlast, hkeep started hmem⟩

theorem Timed.insert {tracker : PieceBlockTracker} {tr : ExpiryTrace} (h : tracker.Timed tr)
    (started : Nat) (req : PeerRequestedPiece) (requests : List PeerRequestedPiece)
    (htimes : ∀ time ∈ insertTimes tr, time ≤ started)
    : ({ tracker with
        pieceToBlocksOutstanding :=
          tracker.pieceToBlocksOutstanding.insert started req } : PieceBlockTracker).Timed
      (tr ++ [(.insert started req, requests)]) := by
  have hexpirations : (tracker.pieceToBlocksOutstanding.insert started req).expirations
      = tracker.pieceToBlocksOutstanding.expirations ++ [(started, req.key)] := rfl
  have hlookup : ∀ pieceId begin,
      (tracker.pieceToBlocksOutstanding.insert started req).pieceToBlocksStarted.downloading.lookupAt
          pieceId begin
        = if req.key = ⟨pieceId, begin⟩ then some { pieceRequest := req }
          else tracker.blocks.downloading.lookupAt pieceId begin := by
    intro pieceId begin
    have hkey : req.key = ⟨pieceId, begin⟩ ↔ pieceId = req.index ∧ begin = req.begin := by
      simp [PeerRequestedPiece.key, eq_comm]
    simp only [hkey]
    exact NestedMap.lookupAt_insertAt _ _ _ _ _ _
  constructor
  . intro pieceId begin download hsome
    unfold blocks at hsome
    rw [hlookup] at hsome
    split at hsome
    . next hkey =>
      rw [Option.some.injEq] at hsome
      rw [← hsome]
      exact hkey
    . exact h.keyed pieceId begin download hsome
  . unfold InprogressPieceToBlockMap.Sorted
    rw [hexpirations, List.pairwise_append]
    refine ⟨h.sorted, List.pairwise_singleton _ _, ?_⟩
    simp only [List.forall_mem_singleton]
    intro entry hentry
    exact htimes entry.1 (h.inserted entry hentry)
  . intro entry hentry
    rw [hexpirations, List.mem_append, List.mem_singleton] at hentry
    rw [insertTimes_append_singleton, List.mem_append, List.mem_singleton]
    rcases hentry with hentry | rfl
    . exact .inl (h.inserted entry hentry)
    . exact .inr rfl
  . rw [hexpirations]
    simp only [List.forall_mem_append, List.forall_mem_singleton, lastInserted_insert, if_true]
    refine ⟨?_, fun started' heq => le_of_eq heq.symm⟩
    intro entry hentry started' hlast
    split at hlast
    . rw [hlast]
      exact htimes entry.1 (h.inserted entry hentry)
    . exact h.le_last entry hentry started' hlast
  . intro key download hsome
    unfold downloadingAt blocks at hsome
    rw [hlookup] at hsome
    dsimp only
    simp only [lastInserted_insert, hexpirations, List.mem_append, List.mem_singleton]
    split at hsome
    . next hkey => exact ⟨started, by rw [if_pos hkey], .inr (by rw [hkey])⟩
    . next hkey =>
      obtain ⟨started', hlast, hmem⟩ := h.last key download hsome
      exact ⟨started', by rwa [if_neg hkey], .inl hmem⟩

theorem downloadingAt_removeExpired {tracker : PieceBlockTracker} {now ttl : Nat}
    {key : PieceToBlockKey} {download : BlockDownload} {tr : ExpiryTrace}
    (h : tracker.Timed tr)
    : ({ tracker with
        pieceToBlocksOutstanding := (tracker.pieceToBlocksOutstanding.removeExpired now ttl).2
          } : PieceBlockTracker).downloadingAt key = some download
        ↔
      tracker.downloadingAt key = some download
        ∧ ∀ started, (started, key) ∈ tracker.pieceToBlocksOutstanding.expirations →
          now - started < ttl := by
  unfold downloadingAt blocks InprogressPieceToBlockMap.removeExpired
  rw [InprogressPieceToBlockMap.lookupAt_expire_eq_some, h.sorted.expiresKey_iff]
  simp only [not_exists, not_and, not_le]
  exact and_comm

theorem Timed.removeExpired {tracker : PieceBlockTracker} {tr : ExpiryTrace} (h : tracker.Timed tr)
    (now ttl : Nat) (requests : List PeerRequestedPiece)
    : ({ tracker with
        pieceToBlocksOutstanding := (tracker.pieceToBlocksOutstanding.removeExpired now ttl).2
          } : PieceBlockTracker).Timed (tr ++ [(.removeExpired now ttl, requests)]) := by
  have hexpirations : (tracker.pieceToBlocksOutstanding.removeExpired now ttl).2.expirations
      = tracker.pieceToBlocksOutstanding.expirations.dropWhile
        fun entry => InprogressPieceToBlockMap.Due now ttl entry :=
    InprogressPieceToBlockMap.expirations_expire now ttl _ _
  apply h.of_le (by simp)
  . dsimp only
    rw [hexpirations]
    exact List.dropWhile_sublist _
  . intro key download hsome
    rw [downloadingAt_removeExpired h] at hsome
    refine ⟨hsome.1, ?_⟩
    intro started hmem
    dsimp only
    rw [hexpirations]
    rw [← List.takeWhile_append_dropWhile
      (p := fun entry => decide (InprogressPieceToBlockMap.Due now ttl entry))
      (l := tracker.pieceToBlocksOutstanding.expirations), List.mem_append] at hmem
    cases hmem with
    | inl hmem =>
      have hdue := List.mem_takeWhile_imp hmem
      have hyoung := hsome.2 started (List.takeWhile_subset _ hmem)
      rw [decide_eq_true_iff] at hdue
      unfold InprogressPieceToBlockMap.Due at hdue
      omega
    | inr hmem => exact hmem

theorem Timed.of_downloading {tracker tracker' : PieceBlockTracker} {tr : ExpiryTrace}
    {event : ExpiryEvent} {requests : List PeerRequestedPiece} (h : tracker.Timed tr)
    (hevent : ∀ started req, event ≠ .insert started req)
    (hexpirations : tracker'.pieceToBlocksOutstanding.expirations
      = tracker.pieceToBlocksOutstanding.expirations)
    (hdownloading : ∀ key download, tracker'.downloadingAt key = some download →
      tracker.downloadingAt key = some download)
    : tracker'.Timed (tr ++ [(event, requests)]) := by
  apply h.of_le hevent
  . rw [hexpirations]
  . intro key download hsome
    rw [hexpirations]
    exact ⟨hdownloading key download hsome, fun _ hmem => hmem⟩

theorem downloadingAt_of_eraseAt {tracker tracker' : PieceBlockTracker} {pieceId begin : UInt32}
    (h : tracker'.blocks.downloading = tracker.blocks.downloading.eraseAt pieceId begin)
    (key : PieceToBlockKey) (download : BlockDownload)
    (hsome : tracker'.downloadingAt key = some download)
    : tracker.downloadingAt key = some download := by
  unfold downloadingAt at hsome ⊢
  rw [h, NestedMap.lookupAt_eraseAt] at hsome
  split at hsome
  . contradiction
  . exact hsome

theorem Timed.step {tracker tracker' : PieceBlockTracker} {tr : ExpiryTrace} {event : ExpiryEvent}
    {requests : List PeerRequestedPiece} (h : tracker.Timed tr)
    (hstep : expiryTask.step tracker event = some (requests, tracker'))
    (htimes : (insertTimes (tr ++ [(event, requests)])).Pairwise (· ≤ ·))
    : tracker'.Timed (tr ++ [(event, requests)]) := by
  cases event with
  | insert started req =>
    simp only [expiryTask, Option.some.injEq, Prod.mk.injEq] at hstep
    rw [insertTimes_append_singleton, List.pairwise_append] at htimes
    rw [← hstep.2]
    exact h.insert started req requests fun time hmem => htimes.2.2 time hmem started (by simp)
  | setRequestFinished pieceId begin =>
    simp only [expiryTask, Option.some.injEq, Prod.mk.injEq] at hstep
    rw [← hstep.2]
    cases hfinished : tracker.setRequestFinished pieceId begin with
    | none => exact h.of_downloading (by simp) rfl fun _ _ hsome => hsome
    | some tracker1 =>
      obtain ⟨blocks, hblocks, rfl⟩ := setBlocks_of_setRequestFinished hfinished
      obtain ⟨_, _, rfl⟩ := PieceToBlockMap.setRequestFinished_eq_some hblocks
      exact h.of_downloading (by simp) rfl (downloadingAt_of_eraseAt rfl)
  | removeRequest req =>
    simp only [expiryTask, Option.some.injEq, Prod.mk.injEq] at hstep
    rw [← hstep.2]
    exact h.of_downloading (by simp) rfl (downloadingAt_of_eraseAt rfl)
  | setPieceFinished pieceId =>
    simp only [expiryTask, Option.some.injEq, Prod.mk.injEq] at hstep
    rw [← hstep.2]
    refine h.of_downloading (by simp) rfl ?_
    intro key download hsome
    have herase := NestedMap.lookupAt_erase tracker.blocks.downloading pieceId key.pieceId
      key.blockBegin
    have hsome : NestedMap.lookupAt (tracker.blocks.downloading.erase pieceId) key.pieceId
        key.blockBegin = some download := hsome
    rw [herase] at hsome
    split at hsome
    . contradiction
    . exact hsome
  | removeExpired now ttl =>
    simp only [expiryTask, Option.some.injEq, Prod.mk.injEq] at hstep
    rw [← hstep.2]
    exact h.removeExpired now ttl requests

theorem timed_of_run {maxOutstandingRequests : Nat} {pieces : List V1Piece}
    {tracker : PieceBlockTracker} {tr : ExpiryTrace}
    (hrun : expiryTask.Run (new maxOutstandingRequests pieces) tr tracker)
    (htimes : (insertTimes tr).Pairwise (· ≤ ·))
    : tracker.Timed tr := by
  refine hrun.invariant_trace
    (P := fun tr tracker => (insertTimes tr).Pairwise (· ≤ ·) → tracker.Timed tr) ?_
    (fun _ => timed_new maxOutstandingRequests pieces) htimes
  intro tr tracker event requests tracker' _ hstep ih htimes
  have hbefore := htimes
  rw [insertTimes_append_singleton, List.pairwise_append] at hbefore
  exact (ih hbefore.1).step hstep htimes

/--
What is expired was out for long enough, and nothing else changes.
-/
structure ExpiresDue (tr : ExpiryTrace) (tracker tracker' : PieceBlockTracker) (now ttl : Nat)
    (expired : List PeerRequestedPiece) : Prop where
  due : ∀ req ∈ expired, tracker.downloadingAt req.key = some { pieceRequest := req }
    ∧ ∃ started, LastInserted tr req.key started ∧ started + ttl ≤ now
  others : ∀ key, (∀ req ∈ expired, req.key ≠ key) →
    tracker'.downloadingAt key = tracker.downloadingAt key
  done_eq : tracker'.blocks.done = tracker.blocks.done

/--
No request that is out has an entry in the queue that is due and another that is too young.
-/
def NoneYoung (tracker : PieceBlockTracker) : ExpiryEvent → Prop
  | .removeExpired now ttl =>
    ∀ entry ∈ tracker.pieceToBlocksOutstanding.expirations,
      ∀ entry' ∈ tracker.pieceToBlocksOutstanding.expirations,
        entry.2 = entry'.2 → (tracker.downloadingAt entry.2).isSome → ttl ≤ now - entry.1 →
          entry'.1 + ttl ≤ now
  | _ => True

instance (tracker : PieceBlockTracker) (event : ExpiryEvent) : Decidable (tracker.NoneYoung event) :=
  match event with
  | .removeExpired now ttl =>
    inferInstanceAs (Decidable (∀ entry ∈ tracker.pieceToBlocksOutstanding.expirations,
      ∀ entry' ∈ tracker.pieceToBlocksOutstanding.expirations,
        entry.2 = entry'.2 → (tracker.downloadingAt entry.2).isSome → ttl ≤ now - entry.1 →
          entry'.1 + ttl ≤ now))
  | .insert _ _ | .setRequestFinished _ _ | .removeRequest _ | .setPieceFinished _ => isTrue trivial

theorem Timed.mem_expired {tracker : PieceBlockTracker} {tr : ExpiryTrace} (h : tracker.Timed tr)
    {now ttl : Nat} {req : PeerRequestedPiece}
    : req ∈ (tracker.pieceToBlocksOutstanding.removeExpired now ttl).1
        ↔
      tracker.downloadingAt req.key = some { pieceRequest := req }
        ∧ ∃ started, (started, req.key) ∈ tracker.pieceToBlocksOutstanding.expirations
          ∧ ttl ≤ now - started := by
  rw [and_comm, ← h.sorted.expiresKey_iff]
  exact InprogressPieceToBlockMap.mem_expire h.keyed

theorem Timed.expiresDue_iff {tracker tracker' : PieceBlockTracker} {tr : ExpiryTrace}
    {now ttl : Nat} {expired : List PeerRequestedPiece} (h : tracker.Timed tr)
    (hstep : expiryTask.step tracker (.removeExpired now ttl) = some (expired, tracker'))
    : ExpiresDue tr tracker tracker' now ttl expired
        ↔
      tracker.NoneYoung (.removeExpired now ttl) := by
  simp only [expiryTask, Option.some.injEq, Prod.mk.injEq] at hstep
  obtain ⟨rfl, rfl⟩ := hstep
  constructor
  . rintro hexpires ⟨started, key⟩ hmem ⟨started', _⟩ hmem' rfl hsome hdue
    dsimp only at hsome hdue ⊢
    obtain ⟨download, hdownload⟩ := Option.isSome_iff_exists.mp hsome
    have hkey : download.pieceRequest.key = key := h.keyed key.pieceId key.blockBegin download hdownload
    obtain ⟨_, last, hlast, hold⟩ := hexpires.due download.pieceRequest (by
      rw [h.mem_expired, hkey]
      exact ⟨hdownload, started, hmem, hdue⟩)
    rw [hkey] at hlast
    have hle := h.le_last _ hmem' last hlast
    dsimp only at hle
    omega
  . intro hyoung
    constructor
    . intro req hmem
      rw [h.mem_expired] at hmem
      obtain ⟨hsome, started, hmem, hdue⟩ := hmem
      obtain ⟨last, hlast, hmem'⟩ := h.last req.key _ hsome
      have hold := hyoung _ hmem _ hmem' rfl (by rw [hsome]; rfl) hdue
      exact ⟨hsome, last, hlast, hold⟩
    . intro key hne
      apply Option.ext
      intro download
      rw [downloadingAt_removeExpired h]
      constructor
      . exact And.left
      . intro hsome
        refine ⟨hsome, ?_⟩
        intro started hmem
        by_contra hdue
        rw [not_lt] at hdue
        have hkey : download.pieceRequest.key = key :=
          h.keyed key.pieceId key.blockBegin download hsome
        apply hne download.pieceRequest ?_ hkey
        rw [h.mem_expired, hkey]
        exact ⟨hsome, started, hmem, hdue⟩
    . apply InprogressPieceToBlockMap.expire_done

/--
No request expires early if, and only if, none has an entry of an earlier insertion left that is due
before its own.
-/
theorem expiresDue_iff_of_run (maxOutstandingRequests : Nat) (pieces : List V1Piece)
    (tracker : PieceBlockTracker) (tr : ExpiryTrace)
    (hrun : expiryTask.Run (new maxOutstandingRequests pieces) tr tracker)
    (htimes : (insertTimes tr).Pairwise (· ≤ ·))
    : expiryTask.RunWhile NoneYoung (new maxOutstandingRequests pieces) tr tracker
        ↔
      ∀ tr1 now ttl expired tr2 tracker1 tracker2,
        tr = tr1 ++ (.removeExpired now ttl, expired) :: tr2 →
        expiryTask.Run (new maxOutstandingRequests pieces) tr1 tracker1 →
        expiryTask.step tracker1 (.removeExpired now ttl) = some (expired, tracker2) →
        ExpiresDue tr1 tracker1 tracker2 now ttl expired := by
  have htimed : ∀ {tr1 tr2 tracker1}, tr = tr1 ++ tr2 →
      expiryTask.Run (new maxOutstandingRequests pieces) tr1 tracker1 → tracker1.Timed tr1 := by
    intro tr1 tr2 tracker1 htr hrun1
    apply timed_of_run hrun1
    unfold insertTimes at htimes
    rw [htr, List.filterMap_append, List.pairwise_append] at htimes
    exact htimes.1
  rw [Machine.RunWhile.iff_forall_step hrun]
  constructor
  . intro h tr1 now ttl expired tr2 tracker1 tracker2 htr hrun1 hstep
    have hguard := h tr1 _ expired tr2 tracker1 tracker2 htr hrun1 hstep
    exact ((htimed htr hrun1).expiresDue_iff hstep).mpr hguard
  . intro h tr1 event expired tr2 tracker1 tracker2 htr hrun1 hstep
    cases event with
    | removeExpired now ttl =>
      apply ((htimed htr hrun1).expiresDue_iff hstep).mp
      exact h tr1 now ttl expired tr2 tracker1 tracker2 htr hrun1 hstep
    | _ => trivial

/--
After an expiry no request is left that was out for long enough.
-/
theorem young_of_removeExpired (maxOutstandingRequests : Nat) (pieces : List V1Piece)
    (tracker tracker' : PieceBlockTracker) (tr : ExpiryTrace) (now ttl : Nat)
    (expired : List PeerRequestedPiece)
    (hrun : expiryTask.Run (new maxOutstandingRequests pieces) tr tracker)
    (htimes : (insertTimes tr).Pairwise (· ≤ ·))
    (hstep : expiryTask.step tracker (.removeExpired now ttl) = some (expired, tracker'))
    : ∀ key download, tracker'.downloadingAt key = some download →
      ∃ started, LastInserted tr key started ∧ now < started + ttl := by
  have h := timed_of_run hrun htimes
  simp only [expiryTask, Option.some.injEq, Prod.mk.injEq] at hstep
  obtain ⟨_, rfl⟩ := hstep
  intro key download hsome
  rw [downloadingAt_removeExpired h] at hsome
  obtain ⟨started, hlast, hmem⟩ := h.last key download hsome.1
  have hyoung := hsome.2 started hmem
  exact ⟨started, hlast, by omega⟩

def firstRequest : PeerRequestedPiece :=
  { peerId := [5], index := 0, begin := 0, length := 2 }

theorem expiresDue_firstRequest
    : ∃ tr tracker expired tracker', expiryTask.Run (new 1 []) tr tracker
        ∧ expiryTask.step tracker (.removeExpired 10 10) = some (expired, tracker')
        ∧ expired = [firstRequest] ∧ ExpiresDue tr tracker tracker' 10 10 expired := by
  obtain ⟨tr, tracker, hrun, _, hstate⟩ :=
    (expiryTask.restrict NoneYoung).exists_run_of_exec (new 1 []) [.insert 0 firstRequest]
      (fun x => (decide (x.2.NoneYoung (.removeExpired 10 10)), insertTimes x.1,
        (x.2.pieceToBlocksOutstanding.removeExpired 10 10).1))
      (b := (true, [0], [firstRequest])) (by decide +kernel)
  simp only [Prod.mk.injEq, decide_eq_true_iff] at hstate
  obtain ⟨hguard, htimes, hexpired⟩ := hstate
  have hwhile := Machine.runWhile_of_restrict _ _ hrun
  have hrun' : expiryTask.Run (new 1 []) tr tracker := hwhile.mono fun _ _ _ => trivial
  refine ⟨tr, tracker, _, _, hrun', rfl, hexpired, ?_⟩
  refine (expiresDue_iff_of_run 1 [] _ _ (hrun'.append (.cons trivial rfl (.nil _))) ?_).mp
    (hwhile.append (.cons hguard rfl (.nil _))) tr 10 10 _ [] tracker _ rfl hrun' rfl
  rw [insertTimes_append_singleton, htimes]
  exact List.pairwise_singleton _ _

/--
A request that is made again is dropped with the entry that the first one left.
-/
theorem not_expiresDue_requestedAgain
    : ∃ tr tracker expired tracker', expiryTask.Run (new 1 []) tr tracker
        ∧ tr.map Prod.fst
          = [.insert 0 firstRequest, .removeRequest firstRequest, .insert 9 firstRequest]
        ∧ (insertTimes tr).Pairwise (· ≤ ·)
        ∧ expiryTask.step tracker (.removeExpired 10 10) = some (expired, tracker')
        ∧ ¬ExpiresDue tr tracker tracker' 10 10 expired := by
  obtain ⟨tr, tracker, hrun, hmap, hstate⟩ :=
    expiryTask.exists_run_of_exec (new 1 [])
      [.insert 0 firstRequest, .removeRequest firstRequest, .insert 9 firstRequest]
      (fun x => (decide (x.2.NoneYoung (.removeExpired 10 10)), insertTimes x.1))
      (b := (false, [0, 9])) (by decide +kernel)
  simp only [Prod.mk.injEq, decide_eq_false_iff_not] at hstate
  obtain ⟨hguard, htimes⟩ := hstate
  have hsorted : (insertTimes tr).Pairwise (· ≤ ·) := by
    rw [htimes]
    decide
  refine ⟨tr, tracker, _, _, hrun, hmap, hsorted, rfl, ?_⟩
  rw [(timed_of_run hrun hsorted).expiresDue_iff rfl]
  exact hguard

theorem young_firstRequest
    : ∃ tr tracker expired tracker', expiryTask.Run (new 1 []) tr tracker
        ∧ expiryTask.step tracker (.removeExpired 15 10) = some (expired, tracker')
        ∧ ∃ started, LastInserted tr firstRequest.key started ∧ 15 < started + 10 := by
  obtain ⟨tr, tracker, hrun, _, hstate⟩ :=
    expiryTask.exists_run_of_exec (new 1 []) [.insert 6 firstRequest]
      (fun x => (insertTimes x.1, (expiryTask.step x.2 (.removeExpired 15 10)).map fun x =>
        x.2.downloadingAt firstRequest.key))
      (b := ([6], some (some { pieceRequest := firstRequest }))) (by decide +kernel)
  simp only [Prod.mk.injEq, Option.map_eq_some_iff] at hstate
  obtain ⟨htimes, ⟨expired, tracker'⟩, hstep, hsome⟩ := hstate
  refine ⟨tr, tracker, expired, tracker', hrun, hstep, ?_⟩
  apply young_of_removeExpired 1 [] tracker tracker' tr 15 10 expired hrun ?_ hstep _ _ hsome
  rw [htimes]
  exact List.pairwise_singleton _ _

end PieceBlockTracker
