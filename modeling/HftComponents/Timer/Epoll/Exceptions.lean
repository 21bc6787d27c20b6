import HftComponents.Timer.Epoll.Cadence

/-!
# Exceptions

Two ways out of the timer skip what comes after them.

A callback that throws ends the drain before its second loop.  `run_once` has
read the timerfd, so it is armed only if a callback of this drain has armed it
by a `schedule`, ahead of the whole heap.  After that a periodic timer may go
back ahead of it; `Covers` says that nothing else does, and `rearmed_of_throw`
is what follows for the runs in which neither gap is met.

`schedule` stores the new entry before `timerfd_settime` refuses its expiry.
`atomic_iff` says when it is not refused.
-/

namespace HftComponents.Timer.Epoll

open Lib EpollTimer

variable {κ : Type} {pq : PriorityQueue (Entry κ) Entry.expiryNs} {t : EpollTimer pq}
  {s u : State pq} {os o : List (Event κ)} {l : Label κ}

/-! ### A callback that throws -/

/-- The timerfd is armed, and not later than the next expiry of any periodic
timer in the heap, cancelled or not. -/
def Rearmed (now : Int) (t : EpollTimer pq) : Prop :=
  ∃ a, t.timerFd = some a ∧
    ∀ m ∈ pq.elems t.heap, 0 < m.intervalNs → now < m.expiryNs → a ≤ m.expiryNs

/-- When a callback throws, no timer is live or a callback of the drain has armed
the timerfd again.  No callback makes a timer that `timerfd_settime` refuses, and
`drain_expired` is called from `run_once` only. -/
def Guarded (s : State pq) : Label κ → Prop
  | .schedule d _ | .schedulePeriodic d _ => s.control ≠ .idle → 0 ≤ (s.clock : Int) + d
  | .drainExpired => False
  | .throw => ∀ now count e, s.control = .callback now count e →
      s.timer.active = ∅ ∨ Rearmed now s.timer
  | _ => True

/-- Where the timerfd is armed, an entry that comes before that stands behind a
periodic timer that has gone back into the heap. -/
def Covers (now : Int) (t : EpollTimer pq) : Prop :=
  ∀ a, t.timerFd = some a → ∀ m ∈ pq.elems t.heap, a ≤ m.expiryNs ∨
    ∃ p ∈ pq.elems t.heap, 0 < p.intervalNs ∧ now < p.expiryNs ∧ p.expiryNs ≤ m.expiryNs

/-- Nothing in the heap is due. -/
def Over (now : Int) (t : EpollTimer pq) : Prop := ∀ m ∈ pq.elems t.heap, now < m.expiryNs

structure Drains (s : State pq) : Prop where
  confirmed : Confirmed s.timer
  draining : ∀ now count, s.control = .draining now count → Covers now s.timer ∨ Over now s.timer
  callback : ∀ now count e, s.control = .callback now count e →
    Covers now s.timer ∧ e.expiryNs ≤ now

namespace Covers

variable {now : Int}

theorem of_eq {t' : EpollTimer pq} (h : Covers now t) (hh : t'.heap = t.heap)
    (hf : t'.timerFd = t.timerFd) : Covers now t' := by
  rw [Covers, hh, hf]
  exact h

theorem add (h : Covers now t) {clock d i : Int} {cb : κ} (hnonneg : 0 ≤ clock + d) :
    Covers now (t.add clock d i cb).1 := by
  rcases add_cases t clock d i cb with ⟨⟨top, htop, hle⟩, heq⟩ | ⟨hlt, heq⟩
  · rw [heq]
    intro a ha m hm
    rcases pq.mem_push.mp hm with rfl | hm
    · rcases h a ha top (pq.top_mem htop) with hat | ⟨p, hp, hi, hnow, hpt⟩
      · exact .inl (hat.trans hle)
      · exact .inr ⟨p, pq.mem_push.mpr (.inr hp), hi, hnow, hpt.trans hle⟩
    · rcases h a ha m hm with ham | ⟨p, hp, hpm⟩
      · exact .inl ham
      · exact .inr ⟨p, pq.mem_push.mpr (.inr hp), hpm⟩
  · rcases hnonneg.eq_or_lt with hzero | hpos
    · -- the expiry 0 disarms
      have hdisarmed : (t.issue (clock + d) i cb).rearmTimerfd (clock + d) =
          some { t.issue (clock + d) i cb with
            timerFd := none
            stats := { t.stats with rearms := t.stats.rearms + 1 } } := by
        rw [rearmTimerfd, settime_toItimerspec, ← hzero]
        rfl
      rw [heq, hdisarmed]
      rintro _ ⟨⟩
    · rw [heq, rearmTimerfd_of_pos hpos]
      intro a ha m hm
      obtain rfl := Option.some.inj ha
      rcases pq.mem_push.mp hm with rfl | hm
      · exact .inl le_rfl
      · exact .inl (hlt m hm).le

theorem pop {top : Entry κ} (h : Covers now t) (htop : pq.top t.heap = some top) :
    Covers now t.pop ∨ Over now t.pop := by
  by_cases hlate : now < top.expiryNs
  · refine .inr fun m hm => ?_
    exact hlate.trans_le (pq.key_top_le _ _ htop m (pq.mem_of_mem_pop htop hm))
  · refine .inl fun a ha m hm => ?_
    rcases h a ha m (pq.mem_of_mem_pop htop hm) with ham | ⟨p, hp, hi, hnow, hpm⟩
    · exact .inl ham
    · refine .inr ⟨p, pq.mem_pop_of_ne htop hp ?_, hi, hnow, hpm⟩
      rintro rfl
      exact hlate hnow

theorem take {top : Entry κ} (h : Covers now t) (htop : pq.top t.heap = some top)
    (hdue : top.expiryNs ≤ now) : Covers now (t.take top) := by
  intro a ha m hm
  rcases h a ha m (pq.mem_of_mem_pop htop hm) with ham | ⟨p, hp, hi, hnow, hpm⟩
  · exact .inl ham
  · refine .inr ⟨p, pq.mem_pop_of_ne htop hp ?_, hi, hnow, hpm⟩
    rintro rfl
    exact absurd hnow (not_lt.mpr hdue)

/-- A periodic timer goes back, and is itself the exception. -/
theorem afterCallback {e : Entry κ} (h : Covers now t) (hdue : e.expiryNs ≤ now) :
    Covers now (t.afterCallback now e) := by
  rw [EpollTimer.afterCallback]
  split_ifs with hi
  · have hlater := (isNext_nextPeriod hi (Int.ModEq.refl _) hdue).later
    intro a ha m hm
    rcases pq.mem_push.mp hm with rfl | hm
    · exact .inr ⟨_, pq.mem_push.mpr (.inl rfl), hi, hlater, le_rfl⟩
    · rcases h a ha m hm with ham | ⟨p, hp, hpm⟩
      · exact .inl ham
      · exact .inr ⟨p, pq.mem_push.mpr (.inr hp), hpm⟩
  · exact h.of_eq rfl rfl

end Covers

theorem Drains.add {clock : Nat} {c : Control κ} (h : Drains ⟨t, clock, c⟩) {d : Int} (i : Int)
    (cb : κ) (hopen : c.open = true) (hok : c ≠ .idle → 0 ≤ (clock : Int) + d) :
    Drains ⟨(t.add clock d i cb).1, clock, c⟩ where
  confirmed := h.confirmed.add
  draining := by
    intro now count hc
    rw [show c = _ from hc] at hopen
    cases hopen
  callback := by
    intro now count e hc
    obtain ⟨hcovers, hdue⟩ := h.callback now count e hc
    refine ⟨hcovers.add (hok ?_), hdue⟩
    rw [show c = _ from hc]
    exact nofun

/-- **One step of a drain.** -/
theorem Drains.step (h : Drains s) (hok : Guarded s l) (hstep : step s l = some (u, o)) :
    Drains u := by
  have hconfirmed := h.confirmed.step hstep
  cases step_moves hstep with
  | elapse => exact ⟨hconfirmed, h.draining, h.callback⟩
  | schedule hc d cb => exact h.add 0 cb hc hok
  | schedulePeriodic hc i cb => exact h.add i cb hc hok
  | @cancel t clock c hc id =>
    obtain ⟨hheap, hfd⟩ := cancel_frame t id
    refine ⟨hconfirmed, ?_, ?_⟩
    · intro now count hcontrol
      rw [show c = _ from hcontrol] at hc
      cases hc
    · intro now count e hcontrol
      obtain ⟨hcovers, hdue⟩ := h.callback now count e hcontrol
      exact ⟨hcovers.of_eq hheap hfd, hdue⟩
  | pending | polled | failed => exact h
  | readable =>
    -- `run_once` has read the timerfd
    refine ⟨hconfirmed, fun now count hc => .inl ?_, nofun⟩
    exact nofun
  | drainExpired => exact absurd hok id
  | emptied | notYet | drained | rearmPurge | rearm | rearmThrew | throw =>
    exact ⟨hconfirmed, nofun, nofun⟩
  | @purge t clock now count top htop _ =>
    refine ⟨hconfirmed, fun now' count' hc => ?_, nofun⟩
    obtain ⟨rfl, -⟩ := Control.draining.inj hc
    rcases h.draining _ _ rfl with hcovers | hover
    · exact hcovers.pop htop
    · exact .inr fun m hm => hover m (pq.mem_of_mem_pop htop hm)
  | @invoke t clock now count top htop _ hdue =>
    refine ⟨hconfirmed, nofun, fun now' count' e hc => ?_⟩
    obtain ⟨rfl, -, rfl⟩ := Control.callback.inj hc
    rcases h.draining _ _ rfl with hcovers | hover
    · exact ⟨hcovers.take htop hdue, hdue⟩
    · exact absurd hdue (not_le.mpr (hover _ (pq.top_mem htop)))
  | @ret t clock now count e =>
    refine ⟨hconfirmed, fun now' count' hc => .inl ?_, nofun⟩
    obtain ⟨rfl, -⟩ := Control.draining.inj hc
    obtain ⟨hcovers, hdue⟩ := h.callback _ _ _ rfl
    exact hcovers.afterCallback hdue

theorem drains_init (clock : Nat) : Drains (init clock : State pq) where
  confirmed := (covered_init clock).confirmed
  draining := nofun
  callback := nofun

/-- **After an exception the timerfd is armed for the timers that are left**, in
every run whose steps are guarded. -/
theorem rearmed_of_throw {clock : Nat}
    (h : Machine.Run (machine pq) Guarded (init clock) os s) (hok : Guarded s .throw)
    (hstep : step s .throw = some (u, o)) (hlive : u.timer.active ≠ ∅) :
    ∃ a, u.timer.timerFd = some a ∧
      ∀ id e, u.timer.active.lookup id = some e → a ≤ e.expiryNs := by
  have hs : Drains s :=
    h.keeps (drains_init clock) fun _ _ _ _ ht hok hstep => ht.step hok hstep
  cases step_moves hstep with
  | @throw t clock now count e =>
    obtain ⟨hcovers, -⟩ := hs.callback now count e rfl
    obtain ⟨a, ha, hperiodic⟩ := (hok now count e rfl).resolve_left hlive
    refine ⟨a, ha, ?_⟩
    intro id m hm
    obtain ⟨m', hmem, -, hexpiry⟩ := hs.confirmed id m hm
    rw [← hexpiry]
    rcases hcovers a ha m' hmem with ham | ⟨p, hp, hi, hnow, hpm⟩
    · exact ham
    · exact (hperiodic p hp hi hnow).trans hpm

/-- The callback of one timer schedules another and throws, while a third waits. -/
theorem rearmed_of_throw_scheduled :
    ∃ u : State (sortedHeap Nat),
      Machine.Run (machine (sortedHeap Nat)) Guarded (init 0)
        [.scheduled 5 1 1, .scheduled 50 2 2, .elapsed 5, .drainBegan, .invoked 1 5 1,
          .scheduled 10 3 3, .threw] u ∧
      ∃ a, u.timer.timerFd = some a ∧
        ∀ id e, u.timer.active.lookup id = some e → a ≤ e.expiryNs := by
  have hrun : Machine.Run (machine (sortedHeap Nat)) Guarded (init 0) _ _ :=
    ((((((Machine.Run.refl _).step
      (l := Label.schedule 5 1) (fun h => absurd rfl h) rfl).step
      (l := Label.schedule 50 2) (fun h => absurd rfl h) rfl).step
      (l := Label.elapse 5) trivial rfl).step
      (l := Label.runOnce (.readable 1)) trivial rfl).step
      (l := Label.next) trivial rfl).step
      (l := Label.schedule 10 3) (fun _ => (by decide : (0 : Int) ≤ ((0 + 5 : Nat) : Int) + 10)) rfl
  have hthrow := fun hok => And.intro (hrun.step (l := Label.throw) hok rfl)
    (rearmed_of_throw hrun hok rfl)
  obtain ⟨hrun', harmed⟩ := hthrow fun now count e hc => by
    refine .inr ⟨15, rfl, fun m hm hi => ?_⟩
    have hones : ∀ m ∈ [(⟨3, 15, 0, 3⟩ : Entry Nat), ⟨2, 50, 0, 2⟩], m.intervalNs = 0 := by decide
    exact absurd (hones m hm) hi.ne'
  refine ⟨_, hrun', harmed ?_⟩
  intro hempty
  exact absurd (congrArg AList.keys hempty) (by decide)

/-- **A timer that waits for ever.**  One callback throws; the timerfd is not
armed for the other timer, nor by a later `schedule`. -/
theorem stalled_by_throw :
    ∃ s : State (sortedHeap Nat),
      Machine.Run (machine (sortedHeap Nat)) Machine.anyStep (init 0)
        [.scheduled 5 1 1, .scheduled 20 2 2, .elapsed 5, .drainBegan, .invoked 1 5 1, .threw,
          .elapsed 100, .scheduled 30 3 3] s ∧
      (s.control, s.timer.timerFd, s.timer.pending) = (.idle, none, 2) := by
  refine Machine.exists_run_of_exec (m := machine (sortedHeap Nat))
    (fun s => (s.control, s.timer.timerFd, s.timer.pending))
    (Machine.execOk_of_forall (fun _ _ _ => trivial) _)
    (show ((machine (sortedHeap Nat)).exec (init 0) [.schedule 5 1, .schedule 20 2, .elapse 5,
      .runOnce (.readable 1), .next, .throw, .elapse 100, .schedule 30 3]).map _ = _ from ?_)
  decide +kernel

/-! ### A schedule that throws -/

/-- The entries of the heap that are not stale. -/
def liveHeap (t : EpollTimer pq) : Multiset (Entry κ) :=
  (pq.elems t.heap).filter fun m => t.stale m = false

/-- The same live timers, and the same heap up to stale entries. -/
structure Untouched (t t' : EpollTimer pq) : Prop where
  active : ∀ id, t'.active.lookup id = t.active.lookup id
  heap : liveHeap t' = liveHeap t
  pending : t'.pending = t.pending

/-- If the call `l` throws, it has not changed the timer, and the callback that
would have run at `expiryNs` is not invoked in any run from there on. -/
def Atomic (s : State pq) (l : Label κ) (expiryNs : Int) (cb : κ) : Prop :=
  ∀ u, step s l = some (u, [.threw]) → Untouched s.timer u.timer ∧
    ∀ os v, Machine.Run (machine pq) Machine.anyStep u os v →
      .invoked s.timer.nextId expiryNs cb ∉ os

theorem step_add {d : Int} {cb : κ} (hopen : s.control.open = true)
    (hl : l = .schedule d cb ∨ l = .schedulePeriodic d cb) :
    ∃ (i : Int) (shown : TimerID → Event κ), (∀ id, shown id ≠ .threw) ∧
      step s l = some ({ s with timer := (s.timer.add s.clock d i cb).1 },
        outcome (s.timer.add s.clock d i cb).2 shown) := by
  rcases hl with rfl | rfl
  · refine ⟨0, .scheduled d cb, by rintro _ ⟨⟩, ?_⟩
    simp only [step, hopen, if_true, schedule]
    cases hr : s.timer.add s.clock d 0 cb with
    | mk t r => cases r <;> rfl
  · refine ⟨d, .scheduledPeriodic d cb, by rintro _ ⟨⟩, ?_⟩
    simp only [step, hopen, if_true, schedulePeriodic]
    cases hr : s.timer.add s.clock d d cb with
    | mk t r => cases r <;> rfl

/-- **When `schedule` and `schedule_periodic` are atomic**: if and only if the
expiry is not negative, or does not come before the top of the heap. -/
theorem atomic_iff {clock : Nat} {d : Int} {cb : κ}
    (h : Machine.Run (machine pq) Machine.anyStep (init clock) os s)
    (hopen : s.control.open = true) (hl : l = .schedule d cb ∨ l = .schedulePeriodic d cb) :
    Atomic s l (s.clock + d) cb ↔
      0 ≤ (s.clock : Int) + d ∨
        ∃ top, pq.top s.timer.heap = some top ∧ top.expiryNs ≤ s.clock + d := by
  have hconfirmed : Confirmed s.timer :=
    h.keeps (I := fun s => Confirmed s.timer) (covered_init clock).confirmed
      fun _ _ _ _ ht _ hstep => ht.step hstep
  obtain ⟨i, shown, hshown, hstep⟩ := step_add hopen hl
  constructor
  · intro hatomic
    by_contra hnot
    obtain ⟨hneg, hbehind⟩ := not_or.mp hnot
    rcases add_cases s.timer s.clock d i cb with ⟨htop, -⟩ | ⟨hlt, heq⟩
    · exact hbehind htop
    · have hrefused : (s.timer.issue (s.clock + d) i cb).rearmTimerfd (s.clock + d) = none := by
        rw [rearmTimerfd, settime_toItimerspec, if_pos (not_le.mp hneg)]
      rw [heq, hrefused] at hstep
      have hlookup := (hatomic _ hstep).1.active s.timer.nextId
      have hnew : (s.timer.issue (s.clock + d) i cb).active.lookup s.timer.nextId =
          some ⟨s.timer.nextId, s.clock + d, i, cb⟩ := AList.lookup_insert _
      -- an old entry of this id would be in the heap, with the same expiry
      obtain ⟨m, hm, -, hexpiry⟩ := hconfirmed _ _ (hlookup.symm.trans hnew)
      exact absurd hexpiry (hlt m hm).ne'
  · intro hfits u hu
    have hreturns : (s.timer.add s.clock d i cb).2 = some s.timer.nextId := by
      rcases hfits with hnonneg | ⟨top, htop, hle⟩
      · exact add_snd_of_nonneg i cb hnonneg
      · rcases add_cases s.timer s.clock d i cb with ⟨-, heq⟩ | ⟨hlt, -⟩
        · rw [heq]
        · exact absurd hle (not_le.mpr (hlt top (pq.top_mem htop)))
    rw [hstep, hreturns] at hu
    have hevents := (Prod.mk.inj (Option.some.inj hu)).2
    exact absurd (List.singleton_inj.mp hevents) (hshown _)

/-- After a `schedule` that has thrown, a negative expiry is refused again if and only
if it comes before the one that was left in the heap. -/
theorem atomic_iff_behind :
    ∃ s : State (sortedHeap Nat),
      Machine.Run (machine (sortedHeap Nat)) Machine.anyStep (init 10) [.threw] s ∧
      Atomic s (.schedule (-16) 2) (-6) 2 ∧ ¬ Atomic s (.schedulePeriodic (-30) 3) (-20) 3 := by
  have hrun : Machine.Run (machine (sortedHeap Nat)) Machine.anyStep (init 10) [.threw] _ :=
    .single (l := .schedule (-20) 1) trivial rfl
  refine ⟨_, hrun, (atomic_iff (d := -16) hrun rfl (.inl rfl)).mpr (.inr ⟨_, rfl, by decide⟩), ?_⟩
  intro h
  rcases (atomic_iff (d := -30) hrun rfl (.inr rfl)).mp h with hneg | ⟨top, htop, hle⟩
  · exact absurd hneg (by decide)
  · obtain rfl := Option.some.inj htop
    exact absurd hle (by decide)

/-- **A timer that is there after `schedule` has thrown.**  Nobody has its id,
`pending()` counts it, and its callback runs with the next timer's. -/
theorem half_inserted :
    ∃ s u v : State (sortedHeap Nat),
      Machine.Run (machine (sortedHeap Nat)) Machine.anyStep (init 10) [.scheduled 5 2 1] s ∧
      step s (.schedule (-20) 1) = some (u, [.threw]) ∧
      s.timer.pending = 1 ∧ u.timer.pending = 2 ∧
      Machine.Run (machine (sortedHeap Nat)) Machine.anyStep u
        [.elapsed 5, .drainBegan, .invoked 2 (-10) 1] v := by
  obtain ⟨s, u, v, hs, hu, hv, hbefore, hafter⟩ : ∃ s u v : State (sortedHeap Nat),
      (machine (sortedHeap Nat)).exec (init 10) [.schedule 5 2] = some (s, [.scheduled 5 2 1]) ∧
      step s (.schedule (-20) 1) = some (u, [.threw]) ∧
      (machine (sortedHeap Nat)).exec u [.elapse 5, .runOnce (.readable 1), .next] =
        some (v, [.elapsed 5, .drainBegan, .invoked 2 (-10) 1]) ∧
      s.timer.pending = 1 ∧ u.timer.pending = 2 := ⟨_, _, _, rfl, rfl, rfl, rfl, rfl⟩
  exact ⟨s, u, v, Machine.run_of_exec_any hs, hu, hbefore, hafter, Machine.run_of_exec_any hv⟩

end HftComponents.Timer.Epoll
