import Mathlib.Data.Int.Order.Basic
import HftComponents.Lib.Machine
import HftComponents.Lib.PriorityQueue
import HftComponents.Timer.Ids

/-!
# The epoll timer

`epoll_timer.cpp`.  A min-heap of entries ordered by expiry, `active_`, the map
of the timers that are live, and one timerfd armed at the earliest expiry.
`cancel` erases from `active_` only, and `drain_expired` discards the entries
of the heap that `active_` does not confirm.

Times are exact integers: the `int64_t` sums of the source are signed, so a
run in which one overflows is undefined, and so is one in which the `int` that
counts callbacks does (`NoOverflow`).  `CLOCK_MONOTONIC` counts from boot
and is a natural number.  The heap is any `PriorityQueue`, since the standard
library does not say which of several entries of equal expiry is on top.

The kernel's part is `timerFd`, the absolute time the timerfd is armed at: it
is readable from that time on until it is read or armed again.  `settime`
follows `timerfd_settime`: a negative time is refused, zero disarms.

`drain_expired` runs user code in the middle of its loop, so `machine` takes one
turn of a loop at each step and stops at every callback.
-/

namespace HftComponents.Timer.Epoll

open Lib

/-! ### The timer -/

structure Entry (κ : Type) where
  id : TimerID
  expiryNs : Int
  intervalNs : Int
  cb : κ
  deriving DecidableEq, Repr

structure Stats where
  fired : UInt64 := 0
  cancelled : UInt64 := 0
  rearms : UInt64 := 0
  overruns : UInt64 := 0
  deriving DecidableEq, Repr

variable {κ : Type}

structure EpollTimer (pq : PriorityQueue (Entry κ) Entry.expiryNs) where
  timerFd : Option Int := none
  heap : pq.Queue := pq.empty
  active : AList (fun _ : TimerID => Entry κ) := ∅
  nextId : UInt64 := 1
  stats : Stats := {}

structure Timespec where
  tvSec : Int
  tvNsec : Int
  deriving DecidableEq, Repr

/-- C++ division truncates. -/
def toItimerspec (expiryNs : Int) : Timespec :=
  ⟨expiryNs.tdiv 1000000000, expiryNs.tmod 1000000000⟩

/-- `timerfd_settime` with `TFD_TIMER_ABSTIME`; `none` is `EINVAL`. -/
def settime (ts : Timespec) : Option (Option Int) :=
  if ts.tvSec < 0 ∨ ts.tvNsec < 0 ∨ 1000000000 ≤ ts.tvNsec then none
  else if ts.tvSec = 0 ∧ ts.tvNsec = 0 then some none
  else some (some (ts.tvSec * 1000000000 + ts.tvNsec))

/-- The inner loop of `drain_expired`, at most `fuel` turns of it. -/
def catchUp (now intervalNs : Int) : Nat → Int → Int
  | 0, expiryNs => expiryNs
  | fuel + 1, expiryNs =>
    if expiryNs ≤ now then catchUp now intervalNs fuel (expiryNs + intervalNs) else expiryNs

/-- The entry of a periodic timer after it has run.  Every turn of the loop
gains at least a nanosecond. -/
def nextPeriod (now : Int) (e : Entry κ) : Entry κ :=
  let expiryNs := e.expiryNs + e.intervalNs
  { e with expiryNs := catchUp now e.intervalNs (now + 1 - expiryNs).toNat expiryNs }

namespace EpollTimer

variable {pq : PriorityQueue (Entry κ) Entry.expiryNs}

def pending (t : EpollTimer pq) : Nat := t.active.keys.length

/-- `none` is the exception. -/
def rearmTimerfd (t : EpollTimer pq) (expiryNs : Int) : Option (EpollTimer pq) :=
  match settime (toItimerspec expiryNs) with
  | none => none
  | some fd => some { t with timerFd := fd, stats := { t.stats with rearms := t.stats.rearms + 1 } }

/-- `active_[e.id] = e; heap_.push(e)`. -/
def store (t : EpollTimer pq) (e : Entry κ) : EpollTimer pq :=
  { t with active := t.active.insert e.id e, heap := pq.push t.heap e }

/-- The common body of `schedule` and `schedule_periodic`.  The second part is
`none` when `rearm_timerfd` throws, after the entry has been stored. -/
def add (t : EpollTimer pq) (now delayNs intervalNs : Int) (cb : κ) :
    EpollTimer pq × Option TimerID :=
  let e : Entry κ := ⟨t.nextId, now + delayNs, intervalNs, cb⟩
  let t := { t with nextId := t.nextId + 1 }
  let needRearm :=
    match pq.top t.heap with
    | none => true
    | some top => decide (e.expiryNs < top.expiryNs)
  let t := t.store e
  if needRearm then
    match t.rearmTimerfd e.expiryNs with
    | none => (t, none)
    | some t => (t, some e.id)
  else (t, some e.id)

def schedule (t : EpollTimer pq) (now delayNs : Int) (cb : κ) : EpollTimer pq × Option TimerID :=
  t.add now delayNs 0 cb

def schedulePeriodic (t : EpollTimer pq) (now intervalNs : Int) (cb : κ) :
    EpollTimer pq × Option TimerID := t.add now intervalNs intervalNs cb

def cancel (t : EpollTimer pq) (id : TimerID) : Bool × EpollTimer pq :=
  match t.active.lookup id with
  | none => (false, t)
  | some _ =>
    (true, { t with
      active := t.active.erase id
      stats := { t.stats with cancelled := t.stats.cancelled + 1 } })

/-- Cancelled or already rescheduled. -/
def stale (t : EpollTimer pq) (top : Entry κ) : Bool :=
  match t.active.lookup top.id with
  | none => true
  | some e => decide (e.expiryNs ≠ top.expiryNs)

def pop (t : EpollTimer pq) : EpollTimer pq := { t with heap := pq.pop t.heap }

/-- `heap_.pop(); active_.erase(e.id)`. -/
def take (t : EpollTimer pq) (e : Entry κ) : EpollTimer pq :=
  { t.pop with active := t.active.erase e.id }

/-- What `drain_expired` does after a callback has returned. -/
def afterCallback (t : EpollTimer pq) (now : Int) (e : Entry κ) : EpollTimer pq :=
  let t := { t with stats := { t.stats with fired := t.stats.fired + 1 } }
  if 0 < e.intervalNs then t.store (nextPeriod now e) else t

/-- `run_once` reads the timerfd: it is no longer armed. -/
def consume (t : EpollTimer pq) (overruns : UInt64) : EpollTimer pq :=
  { t with
    timerFd := none
    stats := { t.stats with
      overruns := if 1 < overruns then t.stats.overruns + (overruns - 1) else t.stats.overruns } }

end EpollTimer

/-! ### The machine -/

/-- Where the thread is: between calls, in the first loop of `drain_expired`,
in a callback of that loop, or in the loop that looks for the next deadline. -/
inductive Control (κ : Type)
  | idle
  | draining (now : Int) (count : Nat)
  | callback (now : Int) (count : Nat) (running : Entry κ)
  | rearming (count : Nat)
  deriving DecidableEq, Repr

structure State (pq : PriorityQueue (Entry κ) Entry.expiryNs) where
  timer : EpollTimer pq := {}
  clock : Nat := 0
  control : Control κ := .idle

/-- What `epoll_wait` answers: no event, `EINTR`, another error, or an event,
with the count that is then read from the timerfd. -/
inductive PollResult
  | timeout
  | interrupted
  | failed
  | readable (overruns : UInt64)
  deriving DecidableEq, Repr

inductive Label (κ : Type)
  | elapse (ns : Nat)
  | schedule (delayNs : Int) (cb : κ)
  | schedulePeriodic (intervalNs : Int) (cb : κ)
  | cancel (id : TimerID)
  | pending
  | runOnce (r : PollResult)
  | drainExpired
  | next
  | ret
  | throw

inductive Event (κ : Type)
  | elapsed (ns : Nat)
  | scheduled (delayNs : Int) (cb : κ) (id : TimerID)
  | scheduledPeriodic (intervalNs : Int) (cb : κ) (id : TimerID)
  | cancelled (id : TimerID) (found : Bool)
  | counted (pending : Nat)
  | polled
  | pollFailed
  | drainBegan
  | invoked (id : TimerID) (expiryNs : Int) (cb : κ)
  | returned
  | drained (count : Nat)
  | threw
  deriving DecidableEq, Repr

variable {pq : PriorityQueue (Entry κ) Entry.expiryNs}

/-- User code can call into the timer. -/
def Control.open : Control κ → Bool
  | .idle | .callback .. => true
  | .draining .. | .rearming .. => false

/-- The entry whose callback is on. -/
def Control.running : Control κ → Option (Entry κ)
  | .callback _ _ e => some e
  | _ => none

/-- One turn of the first loop of `drain_expired`. -/
def drainStep (t : EpollTimer pq) (now : Int) (count : Nat) :
    EpollTimer pq × Control κ × List (Event κ) :=
  match pq.top t.heap with
  | none => (t, .rearming count, [])
  | some top =>
    if t.stale top then (t.pop, .draining now count, [])
    else if now < top.expiryNs then (t, .rearming count, [])
    else (t.take top, .callback now count top, [.invoked top.id top.expiryNs top.cb])

/-- One turn of the second loop. -/
def rearmStep (t : EpollTimer pq) (count : Nat) : EpollTimer pq × Control κ × List (Event κ) :=
  match pq.top t.heap with
  | none => (t, .idle, [.drained count])
  | some top =>
    if t.stale top then (t.pop, .rearming count, [])
    else
      match t.rearmTimerfd top.expiryNs with
      | none => (t, .idle, [.threw])
      | some t => (t, .idle, [.drained count])

def step (s : State pq) : Label κ → Option (State pq × List (Event κ))
  | .elapse ns => some ({ s with clock := s.clock + ns }, [.elapsed ns])
  | .schedule d cb =>
    if s.control.open then
      match s.timer.schedule s.clock d cb with
      | (t, some id) => some ({ s with timer := t }, [.scheduled d cb id])
      | (t, none) => some ({ s with timer := t }, [.threw])
    else none
  | .schedulePeriodic i cb =>
    if s.control.open then
      match s.timer.schedulePeriodic s.clock i cb with
      | (t, some id) => some ({ s with timer := t }, [.scheduledPeriodic i cb id])
      | (t, none) => some ({ s with timer := t }, [.threw])
    else none
  | .cancel id =>
    if s.control.open then
      let (found, t) := s.timer.cancel id
      some ({ s with timer := t }, [.cancelled id found])
    else none
  | .pending => if s.control.open then some (s, [.counted s.timer.pending]) else none
  | .runOnce r =>
    match s.control with
    | .idle =>
      match r with
      | .timeout | .interrupted => some (s, [.polled])
      | .failed => some (s, [.pollFailed])
      | .readable overruns =>
        match s.timer.timerFd with
        | some a =>
          if a ≤ s.clock then
            some ({ s with timer := s.timer.consume overruns, control := .draining s.clock 0 },
              [.drainBegan])
          else none
        | none => none
    | _ => none
  | .drainExpired =>
    match s.control with
    | .idle => some ({ s with control := .draining s.clock 0 }, [.drainBegan])
    | _ => none
  | .next =>
    match s.control with
    | .draining now count =>
      let (t, c, o) := drainStep s.timer now count
      some ({ s with timer := t, control := c }, o)
    | .rearming count =>
      let (t, c, o) := rearmStep s.timer count
      some ({ s with timer := t, control := c }, o)
    | _ => none
  | .ret =>
    match s.control with
    | .callback now count e =>
      some ({ s with timer := s.timer.afterCallback now e, control := .draining now (count + 1) },
        [.returned])
    | _ => none
  | .throw =>
    match s.control with
    | .callback .. => some ({ s with control := .idle }, [.threw])
    | _ => none

/-- What a call that may throw shows. -/
def outcome (r : Option TimerID) (shown : TimerID → Event κ) : List (Event κ) :=
  match r with
  | some id => [shown id]
  | none => [.threw]

/-- What a step can do, one case for each branch of `step`. -/
inductive Moves : State pq → Label κ → State pq → List (Event κ) → Prop
  | elapse (t : EpollTimer pq) (clock : Nat) (c : Control κ) (ns : Nat) :
      Moves ⟨t, clock, c⟩ (.elapse ns) ⟨t, clock + ns, c⟩ [.elapsed ns]
  | schedule {t : EpollTimer pq} {clock : Nat} {c : Control κ} (hc : c.open = true) (d : Int)
      (cb : κ) :
      Moves ⟨t, clock, c⟩ (.schedule d cb) ⟨(t.schedule clock d cb).1, clock, c⟩
        (outcome (t.schedule clock d cb).2 (.scheduled d cb))
  | schedulePeriodic {t : EpollTimer pq} {clock : Nat} {c : Control κ} (hc : c.open = true)
      (i : Int) (cb : κ) :
      Moves ⟨t, clock, c⟩ (.schedulePeriodic i cb) ⟨(t.schedulePeriodic clock i cb).1, clock, c⟩
        (outcome (t.schedulePeriodic clock i cb).2 (.scheduledPeriodic i cb))
  | cancel {t : EpollTimer pq} {clock : Nat} {c : Control κ} (hc : c.open = true) (id : TimerID) :
      Moves ⟨t, clock, c⟩ (.cancel id) ⟨(t.cancel id).2, clock, c⟩ [.cancelled id (t.cancel id).1]
  | pending {t : EpollTimer pq} {clock : Nat} {c : Control κ} (hc : c.open = true) :
      Moves ⟨t, clock, c⟩ .pending ⟨t, clock, c⟩ [.counted t.pending]
  | polled (t : EpollTimer pq) (clock : Nat) (r : PollResult) :
      Moves ⟨t, clock, .idle⟩ (.runOnce r) ⟨t, clock, .idle⟩ [.polled]
  | failed (t : EpollTimer pq) (clock : Nat) :
      Moves ⟨t, clock, .idle⟩ (.runOnce .failed) ⟨t, clock, .idle⟩ [.pollFailed]
  | readable {t : EpollTimer pq} {clock : Nat} {a : Int} (ht : t.timerFd = some a) (ha : a ≤ clock)
      (overruns : UInt64) :
      Moves ⟨t, clock, .idle⟩ (.runOnce (.readable overruns))
        ⟨t.consume overruns, clock, .draining clock 0⟩ [.drainBegan]
  | drainExpired (t : EpollTimer pq) (clock : Nat) :
      Moves ⟨t, clock, .idle⟩ .drainExpired ⟨t, clock, .draining clock 0⟩ [.drainBegan]
  | emptied {t : EpollTimer pq} {clock : Nat} {now : Int} {count : Nat}
      (htop : pq.top t.heap = none) :
      Moves ⟨t, clock, .draining now count⟩ .next ⟨t, clock, .rearming count⟩ []
  | purge {t : EpollTimer pq} {clock : Nat} {now : Int} {count : Nat} {top : Entry κ}
      (htop : pq.top t.heap = some top) (hstale : t.stale top = true) :
      Moves ⟨t, clock, .draining now count⟩ .next ⟨t.pop, clock, .draining now count⟩ []
  | notYet {t : EpollTimer pq} {clock : Nat} {now : Int} {count : Nat} {top : Entry κ}
      (htop : pq.top t.heap = some top) (hstale : t.stale top = false)
      (hlate : now < top.expiryNs) :
      Moves ⟨t, clock, .draining now count⟩ .next ⟨t, clock, .rearming count⟩ []
  | invoke {t : EpollTimer pq} {clock : Nat} {now : Int} {count : Nat} {top : Entry κ}
      (htop : pq.top t.heap = some top) (hstale : t.stale top = false)
      (hdue : top.expiryNs ≤ now) :
      Moves ⟨t, clock, .draining now count⟩ .next ⟨t.take top, clock, .callback now count top⟩
        [.invoked top.id top.expiryNs top.cb]
  | drained {t : EpollTimer pq} {clock : Nat} {count : Nat} (htop : pq.top t.heap = none) :
      Moves ⟨t, clock, .rearming count⟩ .next ⟨t, clock, .idle⟩ [.drained count]
  | rearmPurge {t : EpollTimer pq} {clock : Nat} {count : Nat} {top : Entry κ}
      (htop : pq.top t.heap = some top) (hstale : t.stale top = true) :
      Moves ⟨t, clock, .rearming count⟩ .next ⟨t.pop, clock, .rearming count⟩ []
  | rearm {t t' : EpollTimer pq} {clock : Nat} {count : Nat} {top : Entry κ}
      (htop : pq.top t.heap = some top) (hstale : t.stale top = false)
      (ht : t.rearmTimerfd top.expiryNs = some t') :
      Moves ⟨t, clock, .rearming count⟩ .next ⟨t', clock, .idle⟩ [.drained count]
  | rearmThrew {t : EpollTimer pq} {clock : Nat} {count : Nat} {top : Entry κ}
      (htop : pq.top t.heap = some top) (hstale : t.stale top = false)
      (ht : t.rearmTimerfd top.expiryNs = none) :
      Moves ⟨t, clock, .rearming count⟩ .next ⟨t, clock, .idle⟩ [.threw]
  | ret (t : EpollTimer pq) (clock : Nat) (now : Int) (count : Nat) (e : Entry κ) :
      Moves ⟨t, clock, .callback now count e⟩ .ret
        ⟨t.afterCallback now e, clock, .draining now (count + 1)⟩ [.returned]
  | throw (t : EpollTimer pq) (clock : Nat) (now : Int) (count : Nat) (e : Entry κ) :
      Moves ⟨t, clock, .callback now count e⟩ .throw ⟨t, clock, .idle⟩ [.threw]

theorem step_moves {s u : State pq} {l : Label κ} {o : List (Event κ)}
    (h : step s l = some (u, o)) : Moves s l u o := by
  obtain ⟨t, clock, c⟩ := s
  cases l with
  | elapse ns =>
    obtain ⟨rfl, rfl⟩ := Prod.mk.inj (Option.some.inj h)
    exact .elapse t clock c ns
  | schedule d cb =>
    simp only [step, Option.ite_none_right_eq_some] at h
    obtain ⟨hc, h⟩ := h
    have hm : Moves ⟨t, clock, c⟩ (.schedule d cb) _ _ := .schedule hc d cb
    split at h
    all_goals
      rename_i heq
      obtain ⟨rfl, rfl⟩ := Prod.mk.inj (Option.some.inj h)
      rw [heq] at hm
      exact hm
  | schedulePeriodic i cb =>
    simp only [step, Option.ite_none_right_eq_some] at h
    obtain ⟨hc, h⟩ := h
    have hm : Moves ⟨t, clock, c⟩ (.schedulePeriodic i cb) _ _ := .schedulePeriodic hc i cb
    split at h
    all_goals
      rename_i heq
      obtain ⟨rfl, rfl⟩ := Prod.mk.inj (Option.some.inj h)
      rw [heq] at hm
      exact hm
  | cancel id =>
    simp only [step, Option.ite_none_right_eq_some, Option.some.injEq, Prod.mk.injEq] at h
    obtain ⟨hc, rfl, rfl⟩ := h
    exact .cancel hc id
  | pending =>
    simp only [step, Option.ite_none_right_eq_some, Option.some.injEq, Prod.mk.injEq] at h
    obtain ⟨hc, rfl, rfl⟩ := h
    exact .pending hc
  | runOnce r =>
    cases c with
    | idle =>
      cases r with
      | timeout =>
        obtain ⟨rfl, rfl⟩ := Prod.mk.inj (Option.some.inj h)
        exact .polled t clock _
      | interrupted =>
        obtain ⟨rfl, rfl⟩ := Prod.mk.inj (Option.some.inj h)
        exact .polled t clock _
      | failed =>
        obtain ⟨rfl, rfl⟩ := Prod.mk.inj (Option.some.inj h)
        exact .failed t clock
      | readable overruns =>
        simp only [step] at h
        split at h
        · obtain ⟨ha, h⟩ := Option.ite_none_right_eq_some.mp h
          obtain ⟨rfl, rfl⟩ := Prod.mk.inj (Option.some.inj h)
          exact .readable ‹_› ha overruns
        · cases h
    | _ => cases h
  | drainExpired =>
    cases c with
    | idle =>
      obtain ⟨rfl, rfl⟩ := Prod.mk.inj (Option.some.inj h)
      exact .drainExpired t clock
    | _ => cases h
  | next =>
    cases c with
    | draining now count =>
      simp only [step, drainStep, Option.some.injEq, Prod.mk.injEq] at h
      obtain ⟨rfl, rfl⟩ := h
      cases htop : pq.top t.heap with
      | none => exact .emptied htop
      | some top =>
        cases hstale : t.stale top with
        | true => simpa only [hstale, if_true] using Moves.purge htop hstale
        | false =>
          by_cases hlate : now < top.expiryNs
          · simpa only [hstale, hlate, if_true, Bool.false_eq_true, if_false] using
              Moves.notYet htop hstale hlate
          · simpa only [hstale, hlate, Bool.false_eq_true, if_false] using
              Moves.invoke htop hstale (not_lt.mp hlate)
    | rearming count =>
      simp only [step, rearmStep, Option.some.injEq, Prod.mk.injEq] at h
      obtain ⟨rfl, rfl⟩ := h
      cases htop : pq.top t.heap with
      | none => exact .drained htop
      | some top =>
        cases hstale : t.stale top with
        | true => simpa only [hstale, if_true] using Moves.rearmPurge htop hstale
        | false =>
          cases ht : t.rearmTimerfd top.expiryNs with
          | none =>
            simpa only [hstale, ht, Bool.false_eq_true, if_false] using
              Moves.rearmThrew htop hstale ht
          | some t' =>
            simpa only [hstale, ht, Bool.false_eq_true, if_false] using Moves.rearm htop hstale ht
    | _ => cases h
  | ret =>
    cases c with
    | callback now count e =>
      obtain ⟨rfl, rfl⟩ := Prod.mk.inj (Option.some.inj h)
      exact .ret t clock now count e
    | _ => cases h
  | throw =>
    cases c with
    | callback now count e =>
      obtain ⟨rfl, rfl⟩ := Prod.mk.inj (Option.some.inj h)
      exact .throw t clock now count e
    | _ => cases h

def machine (pq : PriorityQueue (Entry κ) Entry.expiryNs) :
    Lib.Machine (State pq) (Label κ) (Event κ) := ⟨step⟩

/-! ### The range of the arithmetic -/

/-- A value that an `int64_t` holds. -/
def InInt64 (x : Int) : Prop := -2 ^ 63 ≤ x ∧ x < 2 ^ 63

instance (x : Int) : Decidable (InInt64 x) := inferInstanceAs (Decidable (_ ∧ _))

/-- What `drain_expired` computes when a callback has returned fits its types: the
count, and the sums for a periodic timer, the last of which is the greatest. -/
def Control.FitsOnReturn : Control κ → Prop
  | .callback now count e =>
    count + 1 < 2 ^ 31 ∧ (0 < e.intervalNs → InInt64 (nextPeriod now e).expiryNs)
  | .idle | .draining .. | .rearming .. => True

instance : ∀ c : Control κ, Decidable c.FitsOnReturn
  | .callback .. => inferInstanceAs (Decidable (_ ∧ _))
  | .idle | .draining .. | .rearming .. => isTrue trivial

/-- The signed arithmetic of the step does not overflow. -/
def NoOverflow (s : State pq) : Label κ → Prop
  | .schedule delayNs _ | .schedulePeriodic delayNs _ =>
    InInt64 s.clock ∧ InInt64 (s.clock + delayNs)
  | .runOnce _ | .drainExpired => InInt64 s.clock
  | .ret => s.control.FitsOnReturn
  | .elapse _ | .cancel _ | .pending | .next | .throw => True

instance (s : State pq) : ∀ l : Label κ, Decidable (NoOverflow s l)
  | .schedule .. | .schedulePeriodic .. => inferInstanceAs (Decidable (_ ∧ _))
  | .runOnce _ | .drainExpired => inferInstanceAs (Decidable (InInt64 _))
  | .ret => inferInstanceAs (Decidable (Control.FitsOnReturn _))
  | .elapse _ | .cancel _ | .pending | .next | .throw => isTrue trivial

/-! ### Runs -/

/-- A heap that keeps entries of equal expiry in the order of their pushes. -/
abbrev sortedHeap (κ : Type) : PriorityQueue (Entry κ) Entry.expiryNs :=
  PriorityQueue.sortedList Entry.expiryNs

/-- A new timer, at any reading of the clock. -/
def init (clock : Nat) : State pq := { clock := clock }

/-- The ids that a run hands out, in order. -/
def issued : List (Event κ) → List TimerID :=
  List.filterMap fun
    | .scheduled _ _ id | .scheduledPeriodic _ _ id => some id
    | _ => none

end HftComponents.Timer.Epoll
