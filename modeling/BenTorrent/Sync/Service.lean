import Mathlib.Algebra.Order.BigOperators.Group.Finset
import BenTorrent.Machine.Basic
import BenTorrent.Sync.Channel

/-!
This module contains a task that works through calls one after the other. A call goes to the task
through a bounded channel and its result comes back on a channel of its own, as with the channels
`mpsc` and `oneshot` of the crate `tokio`. Some results end the task, and with it all calls that are
still open.
-/

/--
Where a caller stands: before its message is in the channel, before it has looked at its result, or
done, without a result if the task was gone.
-/
inductive Stage (ο : Type w) where
  | sending
  | awaiting (reply : Option ο)
  | returned (res : Option ο)
  deriving DecidableEq

structure Call (ι : Type v) (ο : Type w) where
  req : ι
  stage : Stage ο
  deriving DecidableEq

structure Service (σ : Type u) (ι : Type v) (ο : Type w) where
  state : σ
  alive : Bool
  channel : Channel Nat (Nat × ι)
  serving : Option (Nat × ι)
  calls : List (Call ι ο)
  deriving DecidableEq

inductive ServiceEvent (ι : Type v) where
  | call (req : ι)
  | send (k : Nat)
  | take
  | serve
  | receive (k : Nat)
  deriving DecidableEq

structure Served (ι : Type v) (ο : Type w) where
  id : Nat
  req : ι
  res : ο
  deriving DecidableEq

namespace Service

variable {σ : Type u} {ι : Type v} {ο : Type w}

section task

variable (op : σ → ι → ο × σ) (ends : ο → Bool)

def new (capacity : Nat) (state : σ) : Service σ ι ο where
  state := state
  alive := true
  channel := .new capacity
  serving := none
  calls := []

def setStage (p : Service σ ι ο) (k : Nat) (stage : Stage ο) : Service σ ι ο :=
  { p with calls := p.calls.modify k fun call => { call with stage } }

def send (p : Service σ ι ο) (k : Nat) : Option (Service σ ι ο) :=
  match p.calls[k]? with
  | some { req, stage := .sending } =>
    if p.alive then
      match p.channel.send k (k, req) with
      | (true, channel) => some ({ p with channel }.setStage k (.awaiting none))
      -- who waits for a slot is not woken before it is handed one
      | (false, channel) => if k ∈ p.channel.waiting then none else some { p with channel }
    else
      some (p.setStage k (.returned none))
  | _ => none

def take (p : Service σ ι ο) : Option (Service σ ι ο) :=
  match p.alive, p.serving, p.channel.recv with
  | true, none, some (msg, channel) => some { p with channel, serving := some msg }
  | _, _, _ => none

def serve (p : Service σ ι ο) : Option (Served ι ο × Service σ ι ο) :=
  match p.serving with
  | some (k, req) =>
    let (res, state) := op p.state req
    let p := { p with state, serving := none }
    if ends res then
      some (⟨k, req, res⟩, { p with alive := false })
    else
      some (⟨k, req, res⟩, p.setStage k (.awaiting (some res)))
  | none => none

def receive (p : Service σ ι ο) (k : Nat) : Option (Service σ ι ο) :=
  match p.calls[k]? with
  | some { stage := .awaiting (some res), .. } => some (p.setStage k (.returned (some res)))
  | some { stage := .awaiting none, .. } =>
    -- the other end is dropped with the task
    if p.alive then none else some (p.setStage k (.returned none))
  | _ => none

def task : Machine (Service σ ι ο) (ServiceEvent ι) (Option (Served ι ο)) where
  step p
    | .call req => some (none, { p with calls := p.calls ++ [{ req, stage := .sending }] })
    | .send k => (p.send k).map (none, ·)
    | .take => p.take.map (none, ·)
    | .serve => (p.serve op ends).map fun (x, p) => (some x, p)
    | .receive k => (p.receive k).map (none, ·)

/--
The calls as they would be without any caller but one and without a channel.
-/
def sequential : Machine σ ι ο where
  step state req := some (op state req)

end task

def served (tr : List (ServiceEvent ι × Option (Served ι ο))) : List (Served ι ο) :=
  tr.filterMap Prod.snd

@[simp]
theorem served_append (tr1 tr2 : List (ServiceEvent ι × Option (Served ι ο)))
    : served (tr1 ++ tr2) = served tr1 ++ served tr2 := by
  simp [served]

variable {p p' : Service σ ι ο} {k : Nat}

theorem getElem?_setStage {stage : Stage ο} {j : Nat} {call' : Call ι ο}
    : (p.setStage k stage).calls[j]? = some call'
        ↔
      ∃ call, p.calls[j]? = some call ∧ call' = if k = j then { call with stage } else call := by
  unfold setStage
  dsimp only
  rw [List.getElem?_modify, Option.map_eq_map, Option.map_eq_some_iff]
  constructor
  . intro ⟨call, hget, heq⟩
    exact ⟨call, hget, heq.symm⟩
  . intro ⟨call, hget, heq⟩
    exact ⟨call, hget, heq.symm⟩

theorem length_setStage (stage : Stage ο) : (p.setStage k stage).calls.length = p.calls.length := by
  unfold setStage
  rw [List.length_modify]

def pending (p : Service σ ι ο) : List (Nat × ι) :=
  p.serving.toList ++ p.channel.msgs

variable {op : σ → ι → ο × σ} {ends : ο → Bool}

inductive Stepped (op : σ → ι → ο × σ) (ends : ο → Bool) (p : Service σ ι ο)
    : ServiceEvent ι → Option (Served ι ο) → Service σ ι ο → Prop where
  | called (req : ι)
      : Stepped op ends p (.call req) none { p with calls := p.calls ++ [{ req, stage := .sending }] }
  | sent (k : Nat) (req : ι) (channel : Channel Nat (Nat × ι))
      (hget : p.calls[k]? = some { req, stage := .sending }) (halive : p.alive = true)
      (hsend : p.channel.send k (k, req) = (true, channel))
      : Stepped op ends p (.send k) none ({ p with channel }.setStage k (.awaiting none))
  | queued (k : Nat) (req : ι) (channel : Channel Nat (Nat × ι))
      (hget : p.calls[k]? = some { req, stage := .sending }) (halive : p.alive = true)
      (hsend : p.channel.send k (k, req) = (false, channel)) (hnew : k ∉ p.channel.waiting)
      : Stepped op ends p (.send k) none { p with channel }
  | refused (k : Nat) (req : ι) (hget : p.calls[k]? = some { req, stage := .sending })
      (hgone : p.alive = false)
      : Stepped op ends p (.send k) none (p.setStage k (.returned none))
  | took (msg : Nat × ι) (channel : Channel Nat (Nat × ι)) (halive : p.alive = true)
      (hidle : p.serving = none) (hrecv : p.channel.recv = some (msg, channel))
      : Stepped op ends p .take none { p with channel, serving := some msg }
  | answered (k : Nat) (req : ι) (res : ο) (state : σ) (hserving : p.serving = some (k, req))
      (hop : op p.state req = (res, state)) (hends : ends res = false)
      : Stepped op ends p .serve (some ⟨k, req, res⟩)
          ({ p with state, serving := none }.setStage k (.awaiting (some res)))
  | ended (k : Nat) (req : ι) (res : ο) (state : σ) (hserving : p.serving = some (k, req))
      (hop : op p.state req = (res, state)) (hends : ends res = true)
      : Stepped op ends p .serve (some ⟨k, req, res⟩)
          { p with state, serving := none, alive := false }
  | received (k : Nat) (req : ι) (res : ο)
      (hget : p.calls[k]? = some { req, stage := .awaiting (some res) })
      : Stepped op ends p (.receive k) none (p.setStage k (.returned (some res)))
  | abandoned (k : Nat) (req : ι) (hget : p.calls[k]? = some { req, stage := .awaiting none })
      (hgone : p.alive = false)
      : Stepped op ends p (.receive k) none (p.setStage k (.returned none))

theorem stepped_of_step {event : ServiceEvent ι} {out : Option (Served ι ο)}
    (h : (task op ends).step p event = some (out, p'))
    : p.Stepped op ends event out p' := by
  cases event with
  | call req =>
    simp only [task, Option.some.injEq, Prod.mk.injEq] at h
    obtain ⟨rfl, rfl⟩ := h
    exact .called req
  | send k =>
    simp only [task, Option.map_eq_some_iff, Prod.mk.injEq] at h
    obtain ⟨_, h, rfl, rfl⟩ := h
    unfold send at h
    split at h
    . next req hget =>
      split at h
      . next halive =>
        split at h
        . next channel hsend =>
          rw [Option.some.injEq] at h
          rw [← h]
          exact .sent k req channel hget halive hsend
        . next channel hsend =>
          split at h
          . contradiction
          . next hnew =>
            rw [Option.some.injEq] at h
            rw [← h]
            exact .queued k req channel hget halive hsend hnew
      . next hgone =>
        rw [Option.some.injEq] at h
        rw [← h]
        exact .refused k req hget (Bool.eq_false_iff.mpr hgone)
    . contradiction
  | take =>
    simp only [task, Option.map_eq_some_iff, Prod.mk.injEq] at h
    obtain ⟨_, h, rfl, rfl⟩ := h
    unfold take at h
    split at h
    . next msg channel halive hidle hrecv =>
      rw [Option.some.injEq] at h
      rw [← h]
      exact .took msg channel halive hidle hrecv
    . contradiction
  | serve =>
    simp only [task, Option.map_eq_some_iff, Prod.exists, Prod.mk.injEq] at h
    obtain ⟨_, _, h, rfl, rfl⟩ := h
    unfold serve at h
    split at h
    . next k req hserving =>
      obtain ⟨res, state, hop⟩ : ∃ res state, op p.state req = (res, state) := ⟨_, _, rfl⟩
      rw [hop] at h
      dsimp only at h
      split at h
      . next hends =>
        simp only [Option.some.injEq, Prod.mk.injEq] at h
        rw [← h.1, ← h.2]
        exact .ended k req res state hserving hop hends
      . next hends =>
        simp only [Option.some.injEq, Prod.mk.injEq] at h
        rw [← h.1, ← h.2]
        exact .answered k req res state hserving hop (Bool.eq_false_iff.mpr hends)
    . contradiction
  | receive k =>
    simp only [task, Option.map_eq_some_iff, Prod.mk.injEq] at h
    obtain ⟨_, h, rfl, rfl⟩ := h
    unfold receive at h
    split at h
    . next req res hget =>
      rw [Option.some.injEq] at h
      rw [← h]
      exact .received k req res hget
    . next req hget =>
      split at h
      . contradiction
      . next hgone =>
        rw [Option.some.injEq] at h
        rw [← h]
        exact .abandoned k req hget (Bool.eq_false_iff.mpr hgone)
    . contradiction

def At (p : Service σ ι ο) (k : Nat) (req : ι) (stage : Stage ο) : Prop :=
  p.calls[k]? = some { req, stage }

theorem At.unique {req req' : ι} {stage stage' : Stage ο} (h : p.At k req stage)
    (h' : p.At k req' stage')
    : req = req' ∧ stage = stage' := by
  unfold At at h h'
  rw [h, Option.some.injEq, Call.mk.injEq] at h'
  exact h'

theorem at_setStage {req : ι} {stage stage' : Stage ο} {j : Nat}
    : (p.setStage k stage).At j req stage'
        ↔
      (k = j ∧ stage' = stage ∧ ∃ old, p.At j req old) ∨ (k ≠ j ∧ p.At j req stage') := by
  unfold At
  rw [getElem?_setStage]
  constructor
  . intro ⟨⟨req1, old⟩, hget, heq⟩
    split at heq
    . next hk =>
      rw [Call.mk.injEq] at heq
      obtain ⟨rfl, rfl⟩ := heq
      exact .inl ⟨hk, rfl, old, hget⟩
    . next hk =>
      rw [heq]
      exact .inr ⟨hk, hget⟩
  . intro h
    rcases h with ⟨rfl, rfl, old, hget⟩ | ⟨hk, hget⟩
    . exact ⟨_, hget, by rw [if_pos rfl]⟩
    . exact ⟨_, hget, by rw [if_neg hk]⟩

def Shows (ends : ο → Bool) (alive : Bool) (res : ο) (stage : Stage ο) : Prop :=
  if ends res then
    alive = false ∧ (stage = .awaiting none ∨ stage = .returned none)
  else
    stage = .awaiting (some res) ∨ stage = .returned (some res)

def Justifies (log : List (Served ι ο)) (p : Service σ ι ο) (k : Nat) : Stage ο → Prop
  | .sending => True
  | .awaiting none => p.alive = true → k ∈ p.pending.map Prod.fst
  | .awaiting (some res) => ∃ x ∈ log, x.id = k ∧ x.res = res
  | .returned none => p.alive = false
  | .returned (some res) => ∃ x ∈ log, x.id = k ∧ x.res = res

structure Kept (op : σ → ι → ο × σ) (ends : ο → Bool) (s0 : σ) (log : List (Served ι ο))
    (p : Service σ ι ο) : Prop where
  run : (sequential op).Run s0 (log.map fun x => (x.req, x.res)) p.state
  nodup : (log.map Served.id ++ p.pending.map Prod.fst).Nodup
  logged : ∀ x ∈ log, ∃ stage, p.At x.id x.req stage ∧ Shows ends p.alive x.res stage
  sent : ∀ x ∈ p.pending, ∃ stage, p.At x.1 x.2 stage
    ∧ (stage = .awaiting none ∨ (stage = .returned none ∧ p.alive = false))
  justified : ∀ k req stage, p.At k req stage → Justifies log p k stage
  ended : p.alive = false → ∃ x ∈ log, ends x.res = true
  not_ended : ∀ x ∈ log.dropLast, ends x.res = false
  serving : p.alive = false → p.serving = none
  senders : p.alive = true → ∀ w ∈ p.channel.senders, ∃ req, p.At w req .sending

theorem kept_new (capacity : Nat) (s0 : σ) : Kept op ends s0 [] (new capacity s0) := by
  constructor
  . exact .nil s0
  . exact List.nodup_nil
  . intro x hx
    contradiction
  . intro x hx
    contradiction
  . intro k req stage h
    contradiction
  . intro h
    contradiction
  . intro x hx
    contradiction
  . intro _
    rfl
  . intro _ w hw
    contradiction

variable {s0 : σ} {log : List (Served ι ο)}

theorem Kept.not_mem_of_sending {req : ι} (h : Kept op ends s0 log p) (hat : p.At k req .sending)
    : k ∉ log.map Served.id ∧ k ∉ p.pending.map Prod.fst := by
  constructor
  . intro hmem
    rw [List.mem_map] at hmem
    obtain ⟨x, hx, rfl⟩ := hmem
    obtain ⟨stage, hat', hshows⟩ := h.logged x hx
    obtain ⟨_, rfl⟩ := hat.unique hat'
    unfold Shows at hshows
    split at hshows
    . simp at hshows
    . simp at hshows
  . intro hmem
    rw [List.mem_map] at hmem
    obtain ⟨x, hx, rfl⟩ := hmem
    obtain ⟨stage, hat', hstage⟩ := h.sent x hx
    obtain ⟨_, rfl⟩ := hat.unique hat'
    simp at hstage

theorem Kept.setStage {req : ι} {old stage : Stage ο} (h : Kept op ends s0 log p)
    (hat : p.At k req old) (hlogged : ∀ res, Shows ends p.alive res old → Shows ends p.alive res stage)
    (hsent : old = .awaiting none → stage = .returned none ∧ p.alive = false)
    (hdone : old ≠ .returned none) (hjustified : Justifies log p k stage)
    (hsending : old = .sending → p.alive = false)
    : Kept op ends s0 log (p.setStage k stage) := by
  constructor
  . exact h.run
  . exact h.nodup
  . intro x hx
    obtain ⟨stage', hat', hshows⟩ := h.logged x hx
    by_cases hk : k = x.id
    . subst hk
      obtain ⟨_, rfl⟩ := hat.unique hat'
      exact ⟨stage, at_setStage.mpr (.inl ⟨rfl, rfl, _, hat'⟩), hlogged x.res hshows⟩
    . exact ⟨stage', at_setStage.mpr (.inr ⟨hk, hat'⟩), hshows⟩
  . intro x hx
    obtain ⟨stage', hat', hstage⟩ := h.sent x hx
    by_cases hk : k = x.1
    . subst hk
      obtain ⟨_, rfl⟩ := hat.unique hat'
      refine ⟨stage, at_setStage.mpr (.inl ⟨rfl, rfl, _, hat'⟩), .inr (hsent ?_)⟩
      rcases hstage with hstage | ⟨hstage, _⟩
      . exact hstage
      . exact absurd hstage hdone
    . exact ⟨stage', at_setStage.mpr (.inr ⟨hk, hat'⟩), hstage⟩
  . intro j req' stage' hat'
    rcases at_setStage.mp hat' with ⟨rfl, rfl, _⟩ | ⟨_, hat'⟩
    . cases stage' with
      | _ => exact hjustified
    . have hold := h.justified j req' stage' hat'
      cases stage' with
      | _ => exact hold
  . exact h.ended
  . exact h.not_ended
  . exact h.serving
  . intro halive w hw
    obtain ⟨req', hat'⟩ := h.senders halive w hw
    refine ⟨req', at_setStage.mpr (.inr ⟨?_, hat'⟩)⟩
    rintro rfl
    obtain ⟨_, rfl⟩ := hat.unique hat'
    have hgone := hsending rfl
    rw [show p.alive = true from halive] at hgone
    contradiction

theorem Kept.send {req : ι} {channel : Channel Nat (Nat × ι)} (h : Kept op ends s0 log p)
    (hat : p.At k req .sending) (halive : p.alive = true)
    (hsend : p.channel.send k (k, req) = (true, channel))
    : Kept op ends s0 log ({ p with channel }.setStage k (.awaiting none)) := by
  obtain ⟨hlog, hpending⟩ := h.not_mem_of_sending hat
  obtain ⟨_, hmsgs, _⟩ := Channel.send_eq_true hsend
  have hpending' : ({ p with channel }.setStage k (.awaiting none)).pending
      = p.pending ++ [(k, req)] := by
    show p.serving.toList ++ channel.msgs = _
    rw [hmsgs, ← List.append_assoc]
    rfl
  have hold : ∀ {j req' stage}, p.At j req' stage → stage ≠ .sending →
      ({ p with channel }.setStage k (.awaiting none)).At j req' stage := by
    intro j req' stage hat' hstage
    refine at_setStage.mpr (.inr ⟨?_, hat'⟩)
    rintro rfl
    exact hstage (hat'.unique hat).2
  have hself : ({ p with channel }.setStage k (.awaiting none)).At k req (.awaiting none) :=
    at_setStage.mpr (.inl ⟨rfl, rfl, _, hat⟩)
  constructor
  . exact h.run
  . rw [hpending', List.map_append, ← List.append_assoc, List.map_singleton,
      ← List.concat_eq_append, List.nodup_concat, List.mem_append]
    exact ⟨by tauto, h.nodup⟩
  . intro x hx
    obtain ⟨stage, hat', hshows⟩ := h.logged x hx
    refine ⟨stage, hold hat' ?_, hshows⟩
    rintro rfl
    exact (h.not_mem_of_sending hat').1 (List.mem_map_of_mem hx)
  . rw [hpending', List.forall_mem_append, List.forall_mem_singleton]
    refine ⟨?_, .awaiting none, hself, .inl rfl⟩
    intro x hx
    obtain ⟨stage, hat', hstage⟩ := h.sent x hx
    refine ⟨stage, hold hat' ?_, hstage⟩
    rintro rfl
    simp at hstage
  . intro j req' stage hat'
    rcases at_setStage.mp hat' with ⟨rfl, rfl, _⟩ | ⟨_, hat'⟩
    . intro _
      rw [hpending']
      simp
    . have hjustified := h.justified j req' stage hat'
      cases stage with
      | sending => trivial
      | awaiting reply =>
        cases reply with
        | none =>
          intro _
          rw [hpending', List.map_append]
          exact List.mem_append_left _ (hjustified halive)
        | some res => exact hjustified
      | returned res =>
        cases res with
        | none => exact hjustified
        | some res => exact hjustified
  . exact h.ended
  . exact h.not_ended
  . exact h.serving
  . intro _ w hw
    replace hw : w ∈ channel.senders := hw
    rw [Channel.mem_senders_of_send_eq_true hsend] at hw
    obtain ⟨req', hat'⟩ := h.senders halive w hw.2
    exact ⟨req', at_setStage.mpr (.inr ⟨Ne.symm hw.1, hat'⟩)⟩

theorem Kept.of_pending_eq {channel : Channel Nat (Nat × ι)} {serving : Option (Nat × ι)}
    (h : Kept op ends s0 log p) (halive : p.alive = true)
    (hpending : serving.toList ++ channel.msgs = p.pending)
    (hsenders : ∀ w ∈ channel.senders, ∃ req, p.At w req .sending)
    : Kept op ends s0 log { p with channel, serving } := by
  have hpending' : Service.pending { p with channel, serving } = p.pending := hpending
  constructor
  . exact h.run
  . rw [hpending']
    exact h.nodup
  . exact h.logged
  . rw [hpending']
    exact h.sent
  . intro j req' stage hat'
    have hjustified := h.justified j req' stage hat'
    cases stage with
    | sending => trivial
    | awaiting reply =>
      cases reply with
      | none =>
        intro _
        rw [hpending']
        exact hjustified halive
      | some res => exact hjustified
    | returned res =>
      cases res with
      | none => exact hjustified
      | some res => exact hjustified
  . exact h.ended
  . exact h.not_ended
  . intro hgone
    rw [show p.alive = false from hgone] at halive
    contradiction
  . intro _
    exact hsenders

theorem Kept.of_serving {req : ι} (h : Kept op ends s0 log p) (hserving : p.serving = some (k, req))
    : p.At k req (.awaiting none) ∧ p.alive = true := by
  have halive : p.alive = true := by
    cases heq : p.alive with
    | true => rfl
    | false =>
      have hnone := h.serving heq
      rw [hserving] at hnone
      contradiction
  obtain ⟨stage, hat, hstage⟩ := h.sent (k, req) (by
    unfold pending
    rw [hserving]
    exact List.mem_cons_self)
  rw [halive] at hstage
  simp only [Bool.true_eq_false, and_false, or_false] at hstage
  rw [hstage] at hat
  exact ⟨hat, halive⟩

theorem Kept.serve {req : ι} {res : ο} {state : σ} (h : Kept op ends s0 log p)
    (hserving : p.serving = some (k, req)) (hop : op p.state req = (res, state))
    (hstate : p'.state = state) (hpending : p'.serving = none)
    (hchannel : p'.channel = p.channel)
    (hshows : ∃ stage, p'.At k req stage ∧ Shows ends p'.alive res stage
      ∧ Justifies (log ++ [⟨k, req, res⟩]) p' k stage)
    (hothers : ∀ j req' stage, j ≠ k → (p'.At j req' stage ↔ p.At j req' stage))
    (hends : p'.alive = false → ends res = true)
    : Kept op ends s0 (log ++ [⟨k, req, res⟩]) p' := by
  have hthere := (h.of_serving hserving).2
  have hpending' : p.pending = (k, req) :: p'.pending := by
    unfold Service.pending
    rw [hserving, hpending, hchannel]
    rfl
  have hnodup := h.nodup
  rw [hpending', List.map_cons] at hnodup
  have hself : ∀ {x}, x ∈ p'.pending → x.1 ≠ k := by
    intro x hx heq
    have hcons := (List.nodup_append.mp hnodup).2.1
    rw [List.nodup_cons] at hcons
    have hmem : x.1 ∈ p'.pending.map Prod.fst := List.mem_map_of_mem hx
    rw [heq] at hmem
    exact hcons.1 hmem
  have hlog : ∀ {x}, x ∈ log → x.id ≠ k := by
    intro x hx heq
    exact (List.nodup_append.mp hnodup).2.2 x.id (List.mem_map_of_mem hx) k
      List.mem_cons_self heq
  obtain ⟨stage, hat, hshows, hjustifies⟩ := hshows
  constructor
  . rw [List.map_append]
    refine h.run.append (.cons trivial ?_ (.nil _))
    rw [hstate]
    simp only [sequential, hop]
  . rw [List.map_append, List.append_assoc]
    exact hnodup
  . rw [List.forall_mem_append, List.forall_mem_singleton]
    refine ⟨?_, stage, hat, hshows⟩
    intro x hx
    obtain ⟨stage', hat', hshows'⟩ := h.logged x hx
    refine ⟨stage', (hothers _ _ _ (hlog hx)).mpr hat', ?_⟩
    unfold Shows at hshows' ⊢
    split at hshows'
    . rw [hthere] at hshows'
      simp at hshows'
    . next hends' =>
      rw [if_neg hends']
      exact hshows'
  . intro x hx
    obtain ⟨stage', hat', hstage⟩ := h.sent x (by
      rw [hpending']
      exact List.mem_cons_of_mem _ hx)
    refine ⟨stage', (hothers _ _ _ (hself hx)).mpr hat', ?_⟩
    rw [hthere] at hstage
    simp only [Bool.true_eq_false, and_false, or_false] at hstage
    exact .inl hstage
  . intro j req' stage' hat'
    by_cases hj : j = k
    . subst hj
      obtain ⟨_, rfl⟩ := hat'.unique hat
      exact hjustifies
    . have hjustified := h.justified j req' stage' ((hothers _ _ _ hj).mp hat')
      cases stage' with
      | sending => trivial
      | awaiting reply =>
        cases reply with
        | none =>
          intro hthere'
          have hmem := hjustified hthere
          rw [hpending', List.map_cons, List.mem_cons] at hmem
          exact hmem.resolve_left hj
        | some res' =>
          obtain ⟨x, hx, heq⟩ := hjustified
          exact ⟨x, List.mem_append_left _ hx, heq⟩
      | returned res' =>
        cases res' with
        | none =>
          have hgone : p.alive = false := hjustified
          rw [hthere] at hgone
          contradiction
        | some res' =>
          obtain ⟨x, hx, heq⟩ := hjustified
          exact ⟨x, List.mem_append_left _ hx, heq⟩
  . intro hgone
    exact ⟨⟨k, req, res⟩, by simp, hends hgone⟩
  . rw [List.dropLast_concat]
    intro x hx
    obtain ⟨stage', _, hshows'⟩ := h.logged x hx
    unfold Shows at hshows'
    split at hshows'
    . rw [hthere] at hshows'
      simp at hshows'
    . next hends' => exact Bool.eq_false_iff.mpr hends'
  . intro _
    exact hpending
  . intro halive' w hw
    rw [hchannel] at hw
    obtain ⟨req', hat'⟩ := h.senders hthere w hw
    refine ⟨req', (hothers _ _ _ ?_).mpr hat'⟩
    rintro rfl
    have hmem := (h.not_mem_of_sending hat').2
    rw [hpending'] at hmem
    simp at hmem

theorem at_call {req req' : ι} {stage : Stage ο}
    : Service.At { p with calls := p.calls ++ [{ req, stage := .sending }] } k req' stage
        ↔
      p.At k req' stage ∨ (k = p.calls.length ∧ req' = req ∧ stage = .sending) := by
  unfold At
  dsimp only
  rw [List.getElem?_append]
  split
  . next hlt =>
    constructor
    . exact .inl
    . rintro (hget | ⟨heq, _⟩)
      . exact hget
      . omega
  . next hle =>
    rw [List.getElem?_singleton]
    have hnone : p.calls[k]? = none := List.getElem?_eq_none (by omega)
    split
    . simp only [hnone, Option.some.injEq, Call.mk.injEq, reduceCtorEq, false_or]
      constructor
      . rintro ⟨rfl, rfl⟩
        exact ⟨by omega, rfl, rfl⟩
      . rintro ⟨_, rfl, rfl⟩
        exact ⟨rfl, rfl⟩
    . simp only [hnone, reduceCtorEq, false_or, false_iff]
      omega

theorem Kept.call (h : Kept op ends s0 log p) (req : ι)
    : Kept op ends s0 log { p with calls := p.calls ++ [{ req, stage := .sending }] } := by
  have hold : ∀ {j req' stage}, p.At j req' stage →
      Service.At { p with calls := p.calls ++ [{ req, stage := .sending }] } j req' stage :=
    fun hat => at_call.mpr (.inl hat)
  constructor
  . exact h.run
  . exact h.nodup
  . intro x hx
    obtain ⟨stage, hat, hshows⟩ := h.logged x hx
    exact ⟨stage, hold hat, hshows⟩
  . intro x hx
    obtain ⟨stage, hat, hstage⟩ := h.sent x hx
    exact ⟨stage, hold hat, hstage⟩
  . intro j req' stage hat
    rcases at_call.mp hat with hat | ⟨_, _, rfl⟩
    . have hjustified := h.justified j req' stage hat
      cases stage with
      | sending => trivial
      | awaiting reply =>
        cases reply with
        | none => exact hjustified
        | some res => exact hjustified
      | returned res =>
        cases res with
        | none => exact hjustified
        | some res => exact hjustified
    . trivial
  . exact h.ended
  . exact h.not_ended
  . exact h.serving
  . intro halive w hw
    obtain ⟨req', hat⟩ := h.senders halive w hw
    exact ⟨req', hold hat⟩

theorem Kept.stepped {event : ServiceEvent ι} {out : Option (Served ι ο)}
    (h : Kept op ends s0 log p) (hs : p.Stepped op ends event out p')
    : Kept op ends s0 (log ++ out.toList) p' := by
  have hnone : log ++ (none : Option (Served ι ο)).toList = log := List.append_nil log
  cases hs with
  | called req =>
    rw [hnone]
    exact h.call req
  | sent k req channel hget halive hsend =>
    rw [hnone]
    exact h.send hget halive hsend
  | queued k req channel hget halive hsend hnew =>
    rw [hnone]
    obtain ⟨_, hmsgs, _⟩ := Channel.send_eq_false hsend
    apply h.of_pending_eq halive
    . rw [hmsgs]
      rfl
    . intro w hw
      rw [Channel.mem_senders_of_send_eq_false hsend] at hw
      rcases hw with rfl | hw
      . exact ⟨req, hget⟩
      . exact h.senders halive w hw
  | refused k req hget hgone =>
    rw [hnone]
    apply h.setStage hget
    . intro res hshows
      unfold Shows at hshows
      split at hshows
      . simp at hshows
      . simp at hshows
    . intro hold
      contradiction
    . simp
    . exact hgone
    . intro _
      exact hgone
  | took msg channel halive hidle hrecv =>
    rw [hnone]
    obtain ⟨_, hmsgs, hsenders, _⟩ := Channel.recv_eq_some hrecv
    apply h.of_pending_eq halive
    . unfold pending
      rw [hidle, hmsgs]
      rfl
    . rw [hsenders]
      exact h.senders halive
  | answered k req res state hserving hop hends =>
    obtain ⟨hat, halive⟩ := h.of_serving hserving
    refine h.serve hserving hop ?_ ?_ ?_ ?_ ?_ ?_
    . rfl
    . rfl
    . rfl
    . refine ⟨_, at_setStage.mpr (.inl ⟨rfl, rfl, _, hat⟩), ?_, ⟨k, req, res⟩, by simp, rfl, rfl⟩
      unfold Shows
      rw [if_neg (by simp [hends])]
      exact .inl rfl
    . intro j req' stage hj
      have hne : k ≠ j := Ne.symm hj
      rw [at_setStage]
      simp only [hne, false_and, ne_eq, not_false_iff, true_and, false_or]
      rfl
    . intro hgone
      rw [show p.alive = false from hgone] at halive
      contradiction
  | ended k req res state hserving hop hends =>
    obtain ⟨hat, halive⟩ := h.of_serving hserving
    refine h.serve hserving hop ?_ ?_ ?_ ?_ ?_ ?_
    . rfl
    . rfl
    . rfl
    . refine ⟨_, hat, ?_, ?_⟩
      . unfold Shows
        rw [if_pos hends]
        exact ⟨rfl, .inl rfl⟩
      . intro hgone
        contradiction
    . intro j req' stage _
      rfl
    . intro _
      exact hends
  | received k req res hget =>
    rw [hnone]
    have hjustified := h.justified k req _ hget
    apply h.setStage hget
    . intro res' hshows
      unfold Shows at hshows ⊢
      split at hshows
      . simp at hshows
      . next hends =>
        simp only [Stage.awaiting.injEq, Option.some.injEq, reduceCtorEq, or_false] at hshows
        rw [if_neg hends, hshows]
        exact .inr rfl
    . intro hold
      simp at hold
    . simp
    . exact hjustified
    . intro hold
      contradiction
  | abandoned k req hget hgone =>
    rw [hnone]
    apply h.setStage hget
    . intro res hshows
      unfold Shows at hshows ⊢
      split at hshows
      . next hends =>
        rw [if_pos hends]
        exact ⟨hgone, .inr rfl⟩
      . simp at hshows
    . intro _
      exact ⟨rfl, hgone⟩
    . simp
    . exact hgone
    . intro hold
      contradiction

theorem kept_of_run {capacity : Nat} {tr : List (ServiceEvent ι × Option (Served ι ο))}
    (hrun : (task op ends).Run (new capacity s0) tr p)
    : Kept op ends s0 (served tr) p := by
  apply hrun.invariant_trace (P := fun tr p => Kept op ends s0 (served tr) p)
  . intro tr p event out p' _ hstep h
    have h' := h.stepped (stepped_of_step hstep)
    rw [served_append]
    cases out with
    | _ => exact h'
  . exact kept_new capacity s0

/--
What the callers see of a run is what calls one after the other would show them, in an order in
which a call comes behind all that had returned when it began. Without a result return only those
whose turn does not come before the task ends, and the one that ends it.
-/
structure Linearizes (op : σ → ι → ο × σ) (ends : ο → Bool) (capacity : Nat) (s0 : σ)
    (tr : List (ServiceEvent ι × Option (Served ι ο))) (p : Service σ ι ο) : Prop where
  run : (sequential op).Run s0 ((served tr).map fun x => (x.req, x.res)) p.state
  nodup : ((served tr).map Served.id).Nodup
  called : ∀ x ∈ served tr, ∃ stage, p.At x.id x.req stage
  returned : ∀ k req res, p.At k req (.returned (some res)) →
    ⟨k, req, res⟩ ∈ served tr ∧ ends res = false
  failed : ∀ k req, p.At k req (.returned none) →
    (∃ x ∈ served tr, ends x.res = true) ∧ ∀ x ∈ served tr, x.id = k → ends x.res = true
  not_ended : ∀ x ∈ (served tr).dropLast, ends x.res = false
  order : ∀ tr1 tr2 p1, tr = tr1 ++ tr2 → (task op ends).Run (new capacity s0) tr1 p1 →
    ∀ k req res, p1.At k req (.returned (some res)) → ∀ x ∈ served tr, p1.calls.length ≤ x.id →
      ∃ log1 log2, served tr = log1 ++ ⟨k, req, res⟩ :: log2 ∧ x ∈ log2

theorem Kept.mem_of_returned {req : ι} {res : ο} (h : Kept op ends s0 log p)
    (hat : p.At k req (.returned (some res)))
    : ⟨k, req, res⟩ ∈ log ∧ ends res = false := by
  obtain ⟨⟨id, req', res'⟩, hx, heq⟩ := h.justified k req _ hat
  dsimp only at heq
  obtain ⟨rfl, rfl⟩ := heq
  obtain ⟨stage, hat', hshows⟩ := h.logged _ hx
  obtain ⟨rfl, rfl⟩ := hat.unique hat'
  refine ⟨hx, ?_⟩
  unfold Shows at hshows
  split at hshows
  . simp at hshows
  . next hends => exact Bool.eq_false_iff.mpr hends

theorem At.lt {req : ι} {stage : Stage ο} (h : p.At k req stage) : k < p.calls.length :=
  (List.getElem?_eq_some_iff.mp h).1

theorem linearizes {capacity : Nat} {tr : List (ServiceEvent ι × Option (Served ι ο))}
    (hrun : (task op ends).Run (new capacity s0) tr p)
    : Linearizes op ends capacity s0 tr p := by
  have h := kept_of_run hrun
  constructor
  . exact h.run
  . exact (List.nodup_append.mp h.nodup).1
  . intro x hx
    obtain ⟨stage, hat, _⟩ := h.logged x hx
    exact ⟨stage, hat⟩
  . intro k req res hat
    exact h.mem_of_returned hat
  . intro k req hat
    refine ⟨h.ended (h.justified k req _ hat), ?_⟩
    intro x hx hid
    obtain ⟨stage, hat', hshows⟩ := h.logged x hx
    rw [hid] at hat'
    obtain ⟨_, rfl⟩ := hat.unique hat'
    unfold Shows at hshows
    split at hshows
    . next hends => exact hends
    . simp at hshows
  . exact h.not_ended
  . intro tr1 tr2 p1 htr hrun1 k req res hat x hx hle
    subst htr
    have h1 := kept_of_run hrun1
    rw [served_append, List.mem_append] at hx
    rw [served_append]
    obtain ⟨log1, log2, hlog⟩ := List.append_of_mem (h1.mem_of_returned hat).1
    refine ⟨log1, log2 ++ served tr2, by rw [hlog, List.append_assoc, List.cons_append], ?_⟩
    rcases hx with hx | hx
    . obtain ⟨stage, hat', _⟩ := h1.logged x hx
      have := hat'.lt
      omega
    . exact List.mem_append_right _ hx

theorem served_eq_nil {log log' : List (Served ι ο)}
    (hlast : ∀ x ∈ (log ++ log').dropLast, ends x.res = false) (hends : ∃ x ∈ log, ends x.res = true)
    : log' = [] := by
  obtain ⟨x, hx, hends⟩ := hends
  by_contra hne
  rw [List.dropLast_append_of_ne_nil hne] at hlast
  have := hlast x (List.mem_append_left _ hx)
  rw [hends] at this
  contradiction

section progress

def stepsLeft (p : Service σ ι ο) (k : Nat) : Stage ο → Nat
  | .sending => if k ∈ p.channel.senders then 4 else 5
  | .awaiting none =>
    if k ∈ p.channel.msgs.map Prod.fst then 3
    else if p.serving.map Prod.fst = some k then 2
    else 1
  | .awaiting (some _) => 1
  | .returned _ => 0

def weight (p : Service σ ι ο) (k : Nat) : Nat :=
  match p.calls[k]? with
  | some call => p.stepsLeft k call.stage
  | none => 0

def load (p : Service σ ι ο) : Nat :=
  ∑ k ∈ Finset.range p.calls.length, p.weight k

theorem At.weight_eq {req : ι} {stage : Stage ο} (h : p.At k req stage)
    : p.weight k = p.stepsLeft k stage := by
  unfold weight
  rw [h]

theorem stepsLeft_congr {stage : Stage ο}
    (hsenders : k ∈ p'.channel.senders ↔ k ∈ p.channel.senders)
    (hmsgs : k ∈ p'.channel.msgs.map Prod.fst ↔ k ∈ p.channel.msgs.map Prod.fst)
    (hserving : p'.serving.map Prod.fst = some k ↔ p.serving.map Prod.fst = some k)
    : p'.stepsLeft k stage = p.stepsLeft k stage := by
  unfold stepsLeft
  simp only [hsenders, hmsgs, hserving]

theorem load_lt {req req' : ι} {old stage : Stage ο} (hlength : p'.calls.length = p.calls.length)
    (hat : p.At k req old) (hat' : p'.At k req' stage)
    (hself : p'.stepsLeft k stage < p.stepsLeft k old)
    (hothers : ∀ j req stage, j ≠ k → p'.At j req stage →
      p.At j req stage ∧ p'.stepsLeft j stage = p.stepsLeft j stage)
    : p'.load < p.load := by
  unfold load
  rw [hlength]
  apply Finset.sum_lt_sum
  . intro j _
    by_cases hj : j = k
    . rw [hj, hat.weight_eq, hat'.weight_eq]
      exact Nat.le_of_lt hself
    . cases hget : p'.calls[j]? with
      | none =>
        unfold weight
        rw [hget]
        exact Nat.zero_le _
      | some call =>
        obtain ⟨hold, heq⟩ := hothers j call.req call.stage hj hget
        rw [hold.weight_eq, At.weight_eq hget, heq]
  . refine ⟨k, Finset.mem_range.mpr hat.lt, ?_⟩
    rw [hat.weight_eq, hat'.weight_eq]
    exact hself

theorem load_setStage_lt {req : ι} {old : Stage ο} (stage : Stage ο) (hcalls : p'.calls = p.calls)
    (hat : p.At k req old) (hself : p'.stepsLeft k stage < p.stepsLeft k old)
    (hothers : ∀ j stage, j ≠ k → p'.stepsLeft j stage = p.stepsLeft j stage)
    : (p'.setStage k stage).load < p.load := by
  have hat' : p'.At k req old := by
    unfold At
    rwa [hcalls]
  apply load_lt (by rw [length_setStage, hcalls]) hat
    (at_setStage.mpr (.inl ⟨rfl, rfl, old, hat'⟩)) hself
  intro j req' stage' hj hatj
  rcases at_setStage.mp hatj with ⟨rfl, _⟩ | ⟨_, hatj⟩
  . contradiction
  . unfold At at hatj ⊢
    rw [← hcalls]
    exact ⟨hatj, hothers j stage' hj⟩

theorem load_lt_of_calls_eq {req : ι} {stage : Stage ο} (hcalls : p'.calls = p.calls)
    (hat : p.At k req stage) (hself : p'.stepsLeft k stage < p.stepsLeft k stage)
    (hothers : ∀ j stage, j ≠ k → p'.stepsLeft j stage = p.stepsLeft j stage)
    : p'.load < p.load := by
  have hat' : ∀ {j req stage}, p'.At j req stage ↔ p.At j req stage := by
    intro j req stage
    unfold At
    rw [hcalls]
  apply load_lt (by rw [hcalls]) hat (hat'.mpr hat) hself
  intro j req' stage' hj hatj
  exact ⟨hat'.mp hatj, hothers j stage' hj⟩

theorem Kept.not_mem_msgs {req : ι} (h : Kept op ends s0 log p) (hserving : p.serving = some (k, req))
    : k ∉ p.channel.msgs.map Prod.fst := by
  have hnodup := (List.nodup_append.mp h.nodup).2.1
  unfold pending at hnodup
  rw [hserving, Option.toList_some, List.singleton_append, List.map_cons, List.nodup_cons] at hnodup
  exact hnodup.1

theorem Kept.load_lt {event : ServiceEvent ι} {out : Option (Served ι ο)}
    (h : Kept op ends s0 log p) (hs : p.Stepped op ends event out p')
    (hcall : ∀ req, event ≠ .call req)
    : p'.load < p.load := by
  cases hs with
  | called req => exact absurd rfl (hcall req)
  | sent k req channel hget halive hsend =>
    obtain ⟨_, hmsgs, _⟩ := Channel.send_eq_true hsend
    refine load_setStage_lt (.awaiting none) ?_ hget ?_ ?_
    . rfl
    . have hmem : k ∈ channel.msgs.map Prod.fst := by simp [hmsgs]
      simp only [stepsLeft, if_pos hmem]
      split
      . exact Nat.lt_succ_self 3
      . exact Nat.lt_add_of_pos_right Nat.two_pos
    . intro j stage hj
      apply stepsLeft_congr
      . show j ∈ channel.senders ↔ _
        rw [Channel.mem_senders_of_send_eq_true hsend]
        tauto
      . simp [hmsgs, hj]
      . rfl
  | queued k req channel hget halive hsend hnew =>
    obtain ⟨_, hmsgs, _, _, _, hgranted, _⟩ := Channel.send_eq_false hsend
    refine load_lt_of_calls_eq ?_ hget ?_ ?_
    . rfl
    . have hmem : k ∈ channel.senders :=
        (Channel.mem_senders_of_send_eq_false hsend).mpr (.inl rfl)
      have hnot : k ∉ p.channel.senders := by
        unfold Channel.senders
        rw [List.mem_append]
        tauto
      simp only [stepsLeft, if_pos hmem, if_neg hnot]
      exact Nat.lt_succ_self 4
    . intro j stage hj
      apply stepsLeft_congr
      . show j ∈ channel.senders ↔ _
        rw [Channel.mem_senders_of_send_eq_false hsend]
        tauto
      . rw [hmsgs]
      . rfl
  | refused k req hget hgone =>
    refine load_setStage_lt (.returned none) ?_ hget ?_ ?_
    . rfl
    . unfold stepsLeft
      dsimp only
      split
      . exact Nat.succ_pos 3
      . exact Nat.succ_pos 4
    . intro j stage hj
      rfl
  | took msg channel halive hidle hrecv =>
    obtain ⟨k, req⟩ := msg
    obtain ⟨_, hmsgs, hsenders, _⟩ := Channel.recv_eq_some hrecv
    have hpending : p.pending = (k, req) :: channel.msgs := by
      unfold pending
      rw [hidle, hmsgs]
      rfl
    obtain ⟨stage, hat, hstage⟩ := h.sent (k, req) (by simp [hpending])
    rw [halive] at hstage
    simp only [Bool.true_eq_false, and_false, or_false] at hstage
    subst hstage
    have hnodup := (List.nodup_append.mp h.nodup).2.1
    rw [hpending, List.map_cons, List.nodup_cons] at hnodup
    refine load_lt_of_calls_eq ?_ hat ?_ ?_
    . rfl
    . have hmem : k ∈ p.channel.msgs.map Prod.fst := by simp [hmsgs]
      simp only [stepsLeft, if_pos hmem, if_neg hnodup.1, Option.map_some, if_true]
      exact Nat.lt_succ_self 2
    . intro j stage hj
      apply stepsLeft_congr
      . rw [hsenders]
      . simp [hmsgs, hj]
      . simp [hidle, Ne.symm hj]
  | answered k req res state hserving hop hends =>
    refine load_setStage_lt (.awaiting (some res)) ?_ (h.of_serving hserving).1 ?_ ?_
    . rfl
    . simp only [stepsLeft, if_neg (h.not_mem_msgs hserving), hserving, Option.map_some, if_true]
      exact Nat.lt_succ_self 1
    . intro j stage hj
      apply stepsLeft_congr
      . rfl
      . rfl
      . simp [hserving, Ne.symm hj]
  | ended k req res state hserving hop hends =>
    refine load_lt_of_calls_eq ?_ (h.of_serving hserving).1 ?_ ?_
    . rfl
    . simp only [stepsLeft, if_neg (h.not_mem_msgs hserving), hserving, Option.map_some,
        Option.map_none, reduceCtorEq, if_true, if_false]
      exact Nat.lt_succ_self 1
    . intro j stage hj
      apply stepsLeft_congr
      . rfl
      . rfl
      . simp [hserving, Ne.symm hj]
  | received k req res hget =>
    refine load_setStage_lt (.returned (some res)) ?_ hget ?_ ?_
    . rfl
    . exact Nat.zero_lt_one
    . intro j stage hj
      rfl
  | abandoned k req hget hgone =>
    refine load_setStage_lt (.returned none) ?_ hget ?_ ?_
    . rfl
    . unfold stepsLeft
      dsimp only
      split
      . exact Nat.succ_pos 2
      . split
        . exact Nat.succ_pos 1
        . exact Nat.succ_pos 0
    . intro j stage hj
      rfl

theorem Stepped.capacity_eq {event : ServiceEvent ι} {out : Option (Served ι ο)}
    (hs : p.Stepped op ends event out p')
    : p'.channel.capacity = p.channel.capacity := by
  cases hs with
  | sent k req channel hget halive hsend => exact (Channel.send_eq_true hsend).1
  | queued k req channel hget halive hsend => exact (Channel.send_eq_false hsend).1
  | took msg channel halive hidle hrecv => exact (Channel.recv_eq_some hrecv).1
  | _ => rfl

end progress

end Service
