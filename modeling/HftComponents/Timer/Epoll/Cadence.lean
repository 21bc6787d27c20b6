import Mathlib.Data.Int.ModEq
import Mathlib.Data.Multiset.Filter
import HftComponents.Timer.Epoll.Cancel
import HftComponents.Timer.Epoll.Order
import HftComponents.Timer.Epoll.Reference

/-!
# The cadence of a periodic timer

A periodic timer that is due runs once in a drain and goes back into the heap
that is being drained.  There it stays, because the catch-up has moved it past
the drain's reading of the clock (`now_lt_nextPeriod`).  In between nobody else
has an entry under its id: the heap has the one that `active_` has (`Waits`), or
none while the callback is on (`Fires`).

`keeps_cadence` is about any drain of any run in which the timer is not
cancelled, its callback returns and the counter of ids does not come round.
-/

namespace HftComponents.Timer.Epoll

open Lib EpollTimer

variable {κ : Type} {pq : PriorityQueue (Entry κ) Entry.expiryNs} {t : EpollTimer pq}
  {s u : State pq} {os o : List (Event κ)} {id : TimerID} {e : Entry κ} {l : Label κ}

/-! ### The catch-up -/

/-- The inner loop of `drain_expired` ends, and with this expiry. -/
inductive CatchesUp (now intervalNs : Int) : Int → Int → Prop
  | stop {x : Int} (h : now < x) : CatchesUp now intervalNs x x
  | turn {x y : Int} (h : x ≤ now) (rest : CatchesUp now intervalNs (x + intervalNs) y) :
      CatchesUp now intervalNs x y

/-- `x` is at the cadence of `first`, in the interval that starts after `now`. -/
structure IsNext (first intervalNs now x : Int) : Prop where
  cadence : x ≡ first [ZMOD intervalNs]
  later : now < x
  within : x ≤ now + intervalNs

theorem IsNext.unique {first i now x y : Int} (hx : IsNext first i now x)
    (hy : IsNext first i now y) : y = x := by
  have hdvd : i ∣ y - x := (hx.cadence.trans hy.cadence.symm).dvd
  have hlt : |y - x| < i := by
    rw [abs_lt]
    have h1 := hx.later
    have h2 := hx.within
    have h3 := hy.later
    have h4 := hy.within
    constructor <;> omega
  have hzero : y - x = 0 := Int.eq_zero_of_abs_lt_dvd hdvd hlt
  omega

/-- The fuel of `catchUp` is enough: it ends as the loop does. -/
theorem catchUp_spec {now i : Int} (hi : 0 < i) (fuel : Nat) (x : Int)
    (hfuel : (now + 1 - x).toNat ≤ fuel) : CatchesUp now i x (catchUp now i fuel x) := by
  induction fuel generalizing x with
  | zero =>
    apply CatchesUp.stop
    omega
  | succ fuel ih =>
    rw [catchUp]
    by_cases hx : x ≤ now
    · rw [if_pos hx]
      exact .turn hx (ih (x + i) (by omega))
    · rw [if_neg hx]
      exact .stop (not_le.mp hx)

/-- The loop stops in the interval after `now`, if it starts below its end. -/
theorem CatchesUp.isNext {first now i x y : Int} (h : CatchesUp now i x y)
    (hx : x ≡ first [ZMOD i]) (hle : x ≤ now + i) : IsNext first i now y := by
  induction h with
  | stop hlt => exact ⟨hx, hlt, hle⟩
  | turn hdue _ ih => exact ih ((Int.add_modEq_right).trans hx) (by omega)

theorem nextPeriod_spec {now : Int} (hi : 0 < e.intervalNs) :
    CatchesUp now e.intervalNs (e.expiryNs + e.intervalNs) (nextPeriod now e).expiryNs :=
  catchUp_spec hi _ _ le_rfl

theorem isNext_nextPeriod {first now : Int} (hi : 0 < e.intervalNs)
    (hcadence : e.expiryNs ≡ first [ZMOD e.intervalNs]) (hdue : e.expiryNs ≤ now) :
    IsNext first e.intervalNs now (nextPeriod now e).expiryNs :=
  (nextPeriod_spec hi).isNext ((Int.add_modEq_right).trans hcadence) (by omega)

/-! ### The entries of one id -/

/-- The entries of the heap under an id, cancelled or not. -/
def entriesOf (id : TimerID) (t : EpollTimer pq) : Multiset (Entry κ) :=
  (pq.elems t.heap).filter fun m => m.id = id

theorem entriesOf_store_of_ne (hne : e.id ≠ id) :
    entriesOf id (t.store e) = entriesOf id t := by
  show ((pq.elems (pq.push t.heap e)).filter fun m => m.id = id) = _
  rw [pq.elems_push, Multiset.filter_cons_of_neg (p := fun m : Entry κ => m.id = id) _ hne]
  rfl

theorem entriesOf_store (hid : e.id = id) : entriesOf id (t.store e) = e ::ₘ entriesOf id t := by
  show ((pq.elems (pq.push t.heap e)).filter fun m => m.id = id) = _
  rw [pq.elems_push, Multiset.filter_cons_of_pos (p := fun m : Entry κ => m.id = id) _ hid]
  rfl

theorem entriesOf_pop_of_ne {top : Entry κ} (htop : pq.top t.heap = some top)
    (hne : top.id ≠ id) : entriesOf id t.pop = entriesOf id t := by
  show _ = (pq.elems t.heap).filter fun m => m.id = id
  rw [pq.elems_pop _ _ htop, Multiset.filter_cons_of_neg (p := fun m : Entry κ => m.id = id) _ hne]
  rfl

theorem entriesOf_pop {top : Entry κ} (htop : pq.top t.heap = some top) (hid : top.id = id) :
    entriesOf id t = top ::ₘ entriesOf id t.pop := by
  show ((pq.elems t.heap).filter fun m => m.id = id) = _
  rw [pq.elems_pop _ _ htop, Multiset.filter_cons_of_pos (p := fun m : Entry κ => m.id = id) _ hid]
  rfl

theorem mem_heap_of_entriesOf (h : entriesOf id t = {e}) : e ∈ pq.elems t.heap ∧ e.id = id :=
  Multiset.mem_filter.mp (show e ∈ entriesOf id t from h ▸ Multiset.mem_singleton_self e)

theorem eq_of_entriesOf {m : Entry κ} (h : entriesOf id t = {e}) (hm : m ∈ pq.elems t.heap)
    (hid : m.id = id) : m = e :=
  Multiset.mem_singleton.mp (h ▸ Multiset.mem_filter.mpr ⟨hm, hid⟩ : m ∈ ({e} : Multiset _))

theorem entriesOf_of_heap {t' : EpollTimer pq} (h : t'.heap = t.heap) :
    entriesOf id t' = entriesOf id t := by
  rw [entriesOf, h]
  rfl

/-! ### The runs in question -/

/-- No timer is made once the counter of ids has come round. -/
def NotRound (s : State pq) : Label κ → Prop
  | .schedule _ _ | .schedulePeriodic _ _ => s.timer.nextId ≠ 0
  | _ => True

/-- The timer `id` is not cancelled, its callback returns, and no timer is made
once the counter of ids has come round. -/
def Unbroken (id : TimerID) (s : State pq) : Label κ → Prop
  | .cancel k => k ≠ id
  | .throw => ∀ m, s.control.running = some m → m.id ≠ id
  | .schedule _ _ | .schedulePeriodic _ _ => s.timer.nextId ≠ 0
  | _ => True

/-- The ids in the heap, and that of the timer that is running, were handed out. -/
structure Known (s : State pq) : Prop where
  heap : ∀ m ∈ pq.elems s.timer.heap, Before m.id s.timer.nextId
  running : ∀ m, s.control.running = some m → Before m.id s.timer.nextId

/-- The timer `id` is live, and its entry is the only one of its id. -/
structure Waits (id : TimerID) (e : Entry κ) (s : State pq) : Prop where
  before : Before id s.timer.nextId
  live : s.timer.active.lookup id = some e
  entries : entriesOf id s.timer = {e}
  resting : ∀ m, s.control.running = some m → m.id ≠ id

/-- Its callback is on, in a drain that works from `now`. -/
structure Fires (id : TimerID) (e : Entry κ) (now : Int) (count : Nat) (s : State pq) : Prop where
  before : Before id s.timer.nextId
  control : s.control = .callback now count e
  own : e.id = id
  entries : entriesOf id s.timer = 0

def Event.Invokes (id : TimerID) : Event κ → Bool
  | .invoked k _ _ => k == id
  | _ => false

/-- The invocations of the callback of `id` in a run. -/
def calls (id : TimerID) (os : List (Event κ)) : List (Event κ) := os.filter (Event.Invokes id)

theorem calls_append (a b : List (Event κ)) : calls id (a ++ b) = calls id a ++ calls id b :=
  List.filter_append a b

theorem calls_outcome (r : Option TimerID) (shown : TimerID → Event κ)
    (hs : ∀ k, (shown k).Invokes id = false) : calls id (outcome r shown) = [] := by
  cases r with
  | none => rfl
  | some k => simp [outcome, calls, hs k]

/-! ### The ids of the heap -/

theorem Known.of_eq (h : Known s) (hn : u.timer.nextId = s.timer.nextId)
    (hheap : ∀ m ∈ pq.elems u.timer.heap, m ∈ pq.elems s.timer.heap)
    (hc : ∀ m, u.control.running = some m → s.control.running = some m) : Known u where
  heap m hm := by
    rw [hn]
    exact h.heap m (hheap m hm)
  running m hm := by
    rw [hn]
    exact h.running m (hc m hm)

theorem Known.add {clock : Nat} {c : Control κ} (h : Known ⟨t, clock, c⟩) (h0 : t.nextId ≠ 0)
    (now d i : Int) (cb : κ) : Known ⟨(t.add now d i cb).1, clock, c⟩ where
  heap m hm := by
    obtain ⟨hheap, -, hnext⟩ := add_frame t now d i cb
    show Before m.id (t.add now d i cb).1.nextId
    rw [hnext]
    rw [hheap] at hm
    rcases pq.mem_push.mp hm with rfl | hm
    · exact before_next (UInt64.le_refl _)
    · exact (h.heap m hm).next h0
  running m hm := by
    show Before m.id (t.add now d i cb).1.nextId
    rw [(add_frame t now d i cb).2.2]
    exact (h.running m hm).next h0

theorem Known.step (h : Known s) (hok : NotRound s l) (hstep : step s l = some (u, o)) :
    Known u := by
  cases step_moves hstep with
  | schedule _ d cb => exact h.add hok _ d 0 cb
  | schedulePeriodic _ i cb => exact h.add hok _ i i cb
  | @cancel t _ _ _ k =>
    refine h.of_eq (cancel_ids t k).1 ?_ fun _ hm => hm
    rw [(cancel_frame t k).1]
    exact fun _ hm => hm
  | elapse | pending | polled | failed => exact h.of_eq rfl (fun _ hm => hm) fun _ hm => hm
  | readable | drainExpired | emptied | notYet | drained | rearmThrew | throw =>
    exact h.of_eq rfl (fun _ hm => hm) nofun
  | purge htop | rearmPurge htop => exact h.of_eq rfl (fun _ => pq.mem_of_mem_pop htop) nofun
  | invoke htop _ _ =>
    refine ⟨fun m hm => h.heap m (pq.mem_of_mem_pop htop hm), ?_⟩
    intro m hm
    obtain rfl := Option.some.inj hm
    exact h.heap _ (pq.top_mem htop)
  | rearm _ _ ht =>
    obtain ⟨hheap, -, hnext⟩ := rearmTimerfd_frame ht
    refine h.of_eq hnext ?_ nofun
    rw [hheap]
    exact fun _ hm => hm
  | ret t clock now count m =>
    have hn := afterCallback_nextId t now m
    refine ⟨?_, nofun⟩
    intro m' hm'
    show Before m'.id (t.afterCallback now m).nextId
    rw [hn]
    rw [afterCallback] at hm'
    split_ifs at hm'
    · rcases pq.mem_push.mp hm' with rfl | hm'
      · exact h.running m rfl
      · exact h.heap m' hm'
    · exact h.heap m' hm'

theorem known_init (clock : Nat) : Known (init clock : State pq) where
  heap m hm := by
    rw [init, pq.elems_empty] at hm
    exact absurd hm (Multiset.notMem_zero m)
  running := nofun

/-! ### One step of a timer that waits, and of one whose callback is on -/

namespace Waits

theorem own (h : Waits id e s) : e.id = id := (mem_heap_of_entriesOf h.entries).2

theorem more (h : Waits id e s) (hb : Before id u.timer.nextId)
    (hl : u.timer.active.lookup id = s.timer.active.lookup id)
    (he : entriesOf id u.timer = entriesOf id s.timer)
    (hc : ∀ m, u.control.running = some m → m.id ≠ id) : Waits id e u where
  before := hb
  live := hl.trans h.live
  entries := he.trans h.entries
  resting := hc

theorem add {clock : Nat} {c : Control κ} (h : Waits id e ⟨t, clock, c⟩) (h0 : t.nextId ≠ 0)
    (now d i : Int) (cb : κ) : Waits id e ⟨(t.add now d i cb).1, clock, c⟩ := by
  have hne : id ≠ t.nextId := h.before.ne h0
  obtain ⟨hheap, hactive, hnext⟩ := add_frame t now d i cb
  refine h.more ?_ ?_ ?_ h.resting
  · show Before id (t.add now d i cb).1.nextId
    rw [hnext]
    exact h.before.next h0
  · show (t.add now d i cb).1.active.lookup id = _
    rw [hactive]
    exact AList.lookup_insert_ne hne
  · exact (entriesOf_of_heap hheap).trans (entriesOf_store_of_ne (Ne.symm hne))

theorem ne_of_stale (h : Waits id e s) {top : Entry κ} (htop : pq.top s.timer.heap = some top)
    (hstale : s.timer.stale top = true) : top.id ≠ id := by
  intro hid
  obtain rfl := eq_of_entriesOf h.entries (pq.top_mem htop) hid
  have hlive : s.timer.stale top = false := stale_eq_false.mpr ⟨top, by rw [hid]; exact h.live, rfl⟩
  rw [hstale] at hlive
  cases hlive

/-- **A timer that waits goes on waiting, or its callback is started.** -/
theorem step (h : Waits id e s) (hok : Unbroken id s l) (hstep : step s l = some (u, o)) :
    Waits id e u ∧ calls id o = [] ∨
      ∃ now count, s.control = .draining now count ∧ e.expiryNs ≤ now ∧
        Fires id e now count u ∧ calls id o = [.invoked id e.expiryNs e.cb] := by
  cases step_moves hstep with
  | @schedule t clock c _ d cb =>
    exact .inl ⟨h.add hok _ d 0 cb, calls_outcome _ _ fun _ => rfl⟩
  | @schedulePeriodic t clock c _ i cb =>
    exact .inl ⟨h.add hok _ i i cb, calls_outcome _ _ fun _ => rfl⟩
  | @cancel t clock c _ k =>
    refine .inl ⟨h.more ?_ ?_ (entriesOf_of_heap (cancel_frame t k).1) h.resting, rfl⟩
    · show Before id (t.cancel k).2.nextId
      rw [(cancel_ids t k).1]
      exact h.before
    · show (t.cancel k).2.active.lookup id = t.active.lookup id
      rw [EpollTimer.cancel]
      cases t.active.lookup k with
      | none => rfl
      | some _ => exact AList.lookup_erase_ne (Ne.symm hok)
  | elapse | pending | polled | failed => exact .inl ⟨h.more h.before rfl rfl h.resting, rfl⟩
  | readable | drainExpired | emptied | notYet | drained | rearmThrew | throw =>
    exact .inl ⟨h.more h.before rfl rfl (by rintro _ ⟨⟩), rfl⟩
  | purge htop hstale | rearmPurge htop hstale =>
    have hentries := entriesOf_pop_of_ne htop (h.ne_of_stale htop hstale)
    exact .inl ⟨h.more h.before rfl hentries (by rintro _ ⟨⟩), rfl⟩
  | @invoke t clock now count top htop hstale hdue =>
    by_cases hid : top.id = id
    · obtain rfl := eq_of_entriesOf h.entries (pq.top_mem htop) hid
      refine .inr ⟨now, count, rfl, hdue, ⟨h.before, rfl, hid, ?_⟩, ?_⟩
      · have hentries := h.entries
        rw [entriesOf_pop htop hid] at hentries
        exact (Multiset.cons_inj_right top).mp hentries
      · simp [calls, Event.Invokes, hid]
    · refine .inl ⟨h.more h.before ?_ (entriesOf_pop_of_ne htop hid) ?_, ?_⟩
      · exact AList.lookup_erase_ne (Ne.symm hid)
      · intro m hm
        obtain rfl := Option.some.inj hm
        exact hid
      · simp [calls, Event.Invokes, hid]
  | @rearm t t' clock count top htop hstale ht =>
    obtain ⟨hheap, hactive, hnext⟩ := rearmTimerfd_frame ht
    refine .inl ⟨h.more ?_ ?_ (entriesOf_of_heap hheap) (by rintro _ ⟨⟩), rfl⟩
    · show Before id t'.nextId
      rw [hnext]
      exact h.before
    · show t'.active.lookup id = _
      rw [hactive]
  | @ret t clock now count m =>
    have hne : m.id ≠ id := h.resting m rfl
    have hn := afterCallback_nextId t now m
    refine .inl ⟨h.more ?_ ?_ ?_ (by rintro _ ⟨⟩), rfl⟩
    · show Before id (t.afterCallback now m).nextId
      rw [hn]
      exact h.before
    · show (t.afterCallback now m).active.lookup id = t.active.lookup id
      rw [afterCallback]
      split_ifs
      · exact AList.lookup_insert_ne (Ne.symm hne)
      · rfl
    · show entriesOf id (t.afterCallback now m) = entriesOf id t
      rw [afterCallback]
      split_ifs
      · exact entriesOf_store_of_ne (e := nextPeriod now m) hne
      · rfl

end Waits

/-- **A callback goes on, or it returns** and its timer waits for the next period. -/
theorem Fires.step {now : Int} {count : Nat} (h : Fires id e now count s)
    (hi : 0 < e.intervalNs) (hok : Unbroken id s l) (hstep : step s l = some (u, o)) :
    calls id o = [] ∧ (Fires id e now count u ∨
      u.control = .draining now (count + 1) ∧ Waits id (nextPeriod now e) u) := by
  obtain ⟨hbefore, hcontrol, hid, hentries⟩ := h
  obtain ⟨t, clock, c⟩ := s
  obtain rfl : c = .callback now count e := hcontrol
  cases step_moves hstep with
  | schedule _ d cb =>
    obtain ⟨hheap, -, hnext⟩ := add_frame t clock d 0 cb
    refine ⟨calls_outcome _ _ fun _ => rfl, .inl ⟨?_, rfl, hid, ?_⟩⟩
    · show Before id (t.add clock d 0 cb).1.nextId
      rw [hnext]
      exact hbefore.next hok
    · refine (entriesOf_of_heap hheap).trans ?_
      exact (entriesOf_store_of_ne (Ne.symm (hbefore.ne hok))).trans hentries
  | schedulePeriodic _ i cb =>
    obtain ⟨hheap, -, hnext⟩ := add_frame t clock i i cb
    refine ⟨calls_outcome _ _ fun _ => rfl, .inl ⟨?_, rfl, hid, ?_⟩⟩
    · show Before id (t.add clock i i cb).1.nextId
      rw [hnext]
      exact hbefore.next hok
    · refine (entriesOf_of_heap hheap).trans ?_
      exact (entriesOf_store_of_ne (Ne.symm (hbefore.ne hok))).trans hentries
  | cancel _ k =>
    refine ⟨rfl, .inl ⟨?_, rfl, hid, (entriesOf_of_heap (cancel_frame t k).1).trans hentries⟩⟩
    show Before id (t.cancel k).2.nextId
    rw [(cancel_ids t k).1]
    exact hbefore
  | elapse | pending => exact ⟨rfl, .inl ⟨hbefore, rfl, hid, hentries⟩⟩
  | ret =>
    refine ⟨rfl, .inr ⟨rfl, ?_⟩⟩
    have hn := afterCallback_nextId t now e
    rw [afterCallback, if_pos hi] at hn ⊢
    refine ⟨?_, ?_, ?_, by rintro _ ⟨⟩⟩
    · show Before id (EpollTimer.nextId _)
      rw [hn]
      exact hbefore
    · subst hid
      exact AList.lookup_insert _
    · refine (entriesOf_store (e := nextPeriod now e) hid).trans ?_
      exact congrArg _ hentries
  | throw => exact absurd hid (hok e rfl)

/-! ### Every step of a run -/

/-- Drains work from the reading at which they began, and the clock does not go
back. -/
theorem snapshot_step (hstep : step s l = some (u, o)) :
    s.clock ≤ u.clock ∧ ∀ n, u.control.snapshot = some n →
      s.control.snapshot = some n ∨ .drainBegan ∈ o ∧ n = s.clock := by
  cases step_moves hstep with
  | elapse t clock c ns => exact ⟨Nat.le_add_right clock ns, fun _ hn => .inl hn⟩
  | readable | drainExpired =>
    refine ⟨le_rfl, fun n hn => .inr ⟨List.mem_cons_self, ?_⟩⟩
    exact (Option.some.inj hn).symm
  | schedule | schedulePeriodic | cancel | pending | polled | failed | purge | invoke | ret =>
    exact ⟨le_rfl, fun _ hn => .inl hn⟩
  | _ => exact ⟨le_rfl, nofun⟩

/-- A periodic timer at the cadence of `first`, between drains and within them. -/
structure Beats (id : TimerID) (first i : Int) (cb : κ) (e : Entry κ) (s : State pq) : Prop where
  interval : e.intervalNs = i
  callback : e.cb = cb
  cadence : e.expiryNs ≡ first [ZMOD i]
  soon : e.expiryNs ≤ s.clock + i
  snapshot : ∀ n, s.control.snapshot = some n → n ≤ s.clock
  place : Waits id e s ∨ ∃ now count, Fires id e now count s ∧ e.expiryNs ≤ now

theorem Beats.step {first i : Int} {cb : κ} (h : Beats id first i cb e s) (hi : 0 < i)
    (hok : Unbroken id s l) (hstep : step s l = some (u, o)) :
    ∃ e', Beats id first i cb e' u := by
  obtain ⟨hinterval, hcb, hcadence, hsoon, hsnapshot, hplace⟩ := h
  obtain ⟨hclock, hkept⟩ := snapshot_step hstep
  have hsnapshot' : ∀ n, u.control.snapshot = some n → n ≤ u.clock := by
    intro n hn
    rcases hkept n hn with hold | ⟨-, rfl⟩
    · exact (hsnapshot n hold).trans (by exact_mod_cast hclock)
    · exact_mod_cast hclock
  have hsoon' : e.expiryNs ≤ u.clock + i := by omega
  rcases hplace with hwaits | ⟨now, count, hfires, hdue⟩
  · rcases hwaits.step hok hstep with ⟨hwaits', -⟩ | ⟨now, count, -, hdue, hfires, -⟩
    · exact ⟨e, hinterval, hcb, hcadence, hsoon', hsnapshot', .inl hwaits'⟩
    · exact ⟨e, hinterval, hcb, hcadence, hsoon', hsnapshot', .inr ⟨now, count, hfires, hdue⟩⟩
  · subst hinterval
    rcases (hfires.step hi hok hstep).2 with hfires' | ⟨hcontrol, hwaits⟩
    · exact ⟨e, rfl, hcb, hcadence, hsoon', hsnapshot', .inr ⟨now, count, hfires', hdue⟩⟩
    · have hnext := isNext_nextPeriod hi hcadence hdue
      have hnow : now ≤ u.clock := hsnapshot' now (by rw [hcontrol]; rfl)
      refine ⟨nextPeriod now e, rfl, hcb, hnext.cadence, ?_, hsnapshot', .inl hwaits⟩
      have hwithin := hnext.within
      omega

/-! ### One drain -/

/-- Drains work from a reading that the clock has had. -/
theorem snapshot_le {clock : Nat} (h : Machine.Run (machine pq) NotRound (init clock) os s) :
    ∀ n, s.control.snapshot = some n → n ≤ s.clock := by
  refine h.keeps (I := fun s => ∀ n, s.control.snapshot = some n → n ≤ s.clock) nofun ?_
  intro t l u o ht _ hstep n hn
  obtain ⟨hclock, hkept⟩ := snapshot_step hstep
  rcases hkept n hn with hold | ⟨-, rfl⟩
  · exact (ht n hold).trans (by exact_mod_cast hclock)
  · exact_mod_cast hclock

/-- How far a drain from `now` has come with the timer of which `e` was the
entry, and what it has invoked of it.  The first loop is not over while the
timer is due. -/
inductive Phase (id : TimerID) (e : Entry κ) (now : Int) : List (Event κ) → State pq → Prop
  | waits {s : State pq} (h : Waits id e s)
      (hsnapshot : ∀ n, s.control.snapshot = some n → n = now)
      (hlate : ∀ count, s.control = .rearming count → now < e.expiryNs) : Phase id e now [] s
  | fires {s : State pq} {count : Nat} (h : Fires id e now count s) (hdue : e.expiryNs ≤ now) :
      Phase id e now [.invoked id e.expiryNs e.cb] s
  | again {s : State pq} (h : Waits id (nextPeriod now e) s)
      (hsnapshot : ∀ n, s.control.snapshot = some n → n = now) (hdue : e.expiryNs ≤ now) :
      Phase id e now [.invoked id e.expiryNs e.cb] s

/-- The first loop ends when the timer is not due. -/
theorem late_of_rearming {count : Nat} (h : Waits id e s) (hstep : step s l = some (u, o))
    (hu : u.control = .rearming count) :
    s.control = .rearming count ∨ ∃ now, s.control.snapshot = some now ∧ now < e.expiryNs := by
  have hmem := (mem_heap_of_entriesOf h.entries).1
  cases step_moves hstep with
  | elapse | schedule | schedulePeriodic | cancel | pending => exact .inl hu
  | rearmPurge _ _ => exact .inl hu
  | @emptied t clock now count' htop =>
    rw [pq.elems_of_top_eq_none _ htop] at hmem
    exact absurd hmem (Multiset.notMem_zero e)
  | @notYet t clock now count' top htop _ hlate =>
    exact .inr ⟨now, rfl, hlate.trans_le (pq.key_top_le _ _ htop e hmem)⟩
  | _ => cases hu

theorem Phase.step {now : Int} (h : Phase id e now os s) (hi : 0 < e.intervalNs)
    (hok : Unbroken id s l) (hone : .drainBegan ∉ o) (hstep : Epoll.step s l = some (u, o)) :
    Phase id e now (os ++ calls id o) u := by
  have hkept : ∀ n, u.control.snapshot = some n → s.control.snapshot = some n := by
    intro n hn
    rcases (snapshot_step hstep).2 n hn with hold | ⟨hbegan, -⟩
    · exact hold
    · exact absurd hbegan hone
  cases h with
  | waits h hsnapshot hlate =>
    rcases h.step hok hstep with ⟨hwaits, hnone⟩ | ⟨now', count, hcontrol, hdue, hfires, hcalls⟩
    · rw [hnone]
      refine .waits hwaits (fun n hn => hsnapshot n (hkept n hn)) ?_
      intro count hu
      rcases late_of_rearming h hstep hu with hold | ⟨now', hnow', hlt⟩
      · exact hlate count hold
      · rw [← hsnapshot now' hnow']
        exact hlt
    · obtain rfl := hsnapshot now' (by rw [hcontrol]; rfl)
      rw [hcalls]
      exact .fires hfires hdue
  | fires h hdue =>
    obtain ⟨hnone, hgoes⟩ := h.step hi hok hstep
    rw [hnone, List.append_nil]
    rcases hgoes with hfires | ⟨hcontrol, hwaits⟩
    · exact .fires hfires hdue
    · refine .again hwaits ?_ hdue
      intro n hn
      rw [hcontrol] at hn
      exact (Option.some.inj hn).symm
  | again h hsnapshot hdue =>
    rcases h.step hok hstep with ⟨hwaits, hnone⟩ | ⟨now', count, hcontrol, hdue', -, -⟩
    · rw [hnone, List.append_nil]
      exact .again hwaits (fun n hn => hsnapshot n (hkept n hn)) hdue
    · -- the next period is not due in this drain
      obtain rfl := hsnapshot now' (by rw [hcontrol]; rfl)
      have hlater := (isNext_nextPeriod hi (Int.ModEq.refl _) hdue).later
      exact absurd hdue' (not_le.mpr hlater)

/-- A drain begins at the reading of the clock, in no callback. -/
theorem control_of_began (hstep : step s l = some (u, [.drainBegan])) :
    (s.control = .idle ∧ u.control = .draining s.clock 0) ∧ ∀ id, Unbroken id s l := by
  generalize ho : [Event.drainBegan] = shown at hstep
  cases step_moves hstep with
  | readable | drainExpired => exact ⟨⟨rfl, rfl⟩, fun _ => trivial⟩
  | @schedule t clock _ _ d cb =>
    cases hr : (t.schedule clock d cb).2 <;> rw [hr] at ho <;> cases ho
  | @schedulePeriodic t clock _ _ i cb =>
    cases hr : (t.schedulePeriodic clock i cb).2 <;> rw [hr] at ho <;> cases ho
  | _ => cases ho

/-- A new periodic timer waits for its first expiry. -/
theorem beats_of_schedulePeriodic {i : Int} {cb : κ} (h : Known s)
    (hsnapshot : ∀ n, s.control.snapshot = some n → n ≤ s.clock) (h0 : s.timer.nextId ≠ 0)
    (hstep : step s (.schedulePeriodic i cb) = some (u, [.scheduledPeriodic i cb id])) :
    Beats id (s.clock + i) i cb ⟨id, s.clock + i, i, cb⟩ u := by
  generalize hl : Label.schedulePeriodic i cb = l at hstep
  generalize ho : [Event.scheduledPeriodic i cb id] = shown at hstep
  cases step_moves hstep with
  | @schedulePeriodic t clock c hc i' cb' =>
    obtain ⟨rfl, rfl⟩ := Label.schedulePeriodic.inj hl
    obtain ⟨hheap, hactive, hnext⟩ := add_frame t clock i i cb
    have hid : id = t.nextId := by
      cases hr : (t.schedulePeriodic clock i cb).2 with
      | none =>
        rw [hr] at ho
        cases ho
      | some k =>
        rw [hr] at ho
        obtain ⟨-, -, rfl⟩ := Event.scheduledPeriodic.inj (List.singleton_inj.mp ho)
        exact add_snd hr
    subst hid
    have hnone : entriesOf t.nextId t = 0 := by
      refine Multiset.eq_zero_of_forall_notMem fun m hm => ?_
      obtain ⟨hmem, hmid⟩ := Multiset.mem_filter.mp hm
      exact (h.heap m hmem).ne h0 hmid
    refine ⟨rfl, rfl, Int.ModEq.refl _, le_rfl, hsnapshot, .inl ⟨?_, ?_, ?_, ?_⟩⟩
    · show Before t.nextId (t.add clock i i cb).1.nextId
      rw [hnext]
      exact before_next (UInt64.le_refl _)
    · show (t.add clock i i cb).1.active.lookup t.nextId = _
      rw [hactive]
      exact AList.lookup_insert _
    · refine (entriesOf_of_heap hheap).trans ?_
      refine (entriesOf_store (e := ⟨t.nextId, clock + i, i, cb⟩) rfl).trans ?_
      exact congrArg _ hnone
    · intro m hm
      exact (h.running m hm).ne h0
  | _ => cases hl

/-- **A periodic timer keeps its cadence without bursts.**  It is made in the
state `s` of some run.  After any further run in which it is unbroken a drain
begins, in the state `v`; the drain has come to the state `z`. -/
theorem keeps_cadence {clock : Nat} {pre mid during : List (Event κ)} {v w z : State pq} {i : Int}
    {cb : κ} (hpre : Machine.Run (machine pq) NotRound (init clock) pre s)
    (h0 : s.timer.nextId ≠ 0) (hi : 0 < i)
    (hnew : step s (.schedulePeriodic i cb) = some (u, [.scheduledPeriodic i cb id]))
    (hmid : Machine.Run (machine pq) (Unbroken id) u mid v)
    (hbegan : step v l = some (w, [.drainBegan]))
    (hduring : Machine.Run (machine pq) (Unbroken id) w during z) (hone : .drainBegan ∉ during) :
    ∃ e, v.timer.active.lookup id = some e ∧ e.expiryNs ≡ s.clock + i [ZMOD i] ∧
      (calls id during).length ≤ 1 ∧
      ∀ count, z.control = .rearming count →
        calls id during = (if e.expiryNs ≤ v.clock then [.invoked id e.expiryNs cb] else []) ∧
        ∃ e', z.timer.active.lookup id = some e' ∧
          (e.expiryNs ≤ v.clock → CatchesUp v.clock i (e.expiryNs + i) e'.expiryNs) ∧
          IsNext (s.clock + i) i v.clock e'.expiryNs ∧
          ∀ x, IsNext (s.clock + i) i v.clock x → x = e'.expiryNs := by
  have hknown : Known s :=
    hpre.keeps (known_init clock) fun _ _ _ _ ht hok hstep => ht.step hok hstep
  have hfirst := beats_of_schedulePeriodic hknown (snapshot_le hpre) h0 hnew
  obtain ⟨e, hbeats⟩ : ∃ e, Beats id (s.clock + i) i cb e v := by
    refine hmid.keeps (I := fun s' => ∃ e, Beats id (s.clock + i) i cb e s') ⟨_, hfirst⟩ ?_
    rintro t l u o ⟨e, he⟩ hok hstep
    exact he.step hi hok hstep
  obtain ⟨hinterval, hcb, hcadence, hsoon, -, hplace⟩ := hbeats
  subst hinterval hcb
  obtain ⟨⟨hidle, hdraining⟩, hok⟩ := control_of_began hbegan
  have hwaits : Waits id e v := by
    rcases hplace with hwaits | ⟨now, count, hfires, -⟩
    · exact hwaits
    · rw [hfires.control] at hidle
      cases hidle
  have hbegins : Phase id e v.clock [] w := by
    rcases hwaits.step (hok id) hbegan with ⟨hwaits', -⟩ | ⟨now, count, hcontrol, -⟩
    · refine .waits hwaits' ?_ ?_
      · rw [hdraining]
        exact fun n hn => (Option.some.inj hn).symm
      · rw [hdraining]
        exact nofun
    · rw [hcontrol] at hidle
      cases hidle
  have hphase : Phase id e v.clock (calls id during) z := by
    refine hduring.invariant_of (P := fun os s' => Phase id e v.clock (calls id os) s')
      (Q := fun os => .drainBegan ∉ os) ?_ hbegins ?_ hone
    · exact fun os o hnot hmem => hnot (List.mem_append_left o hmem)
    · intro os t l u o ht hok hnot hstep
      show Phase id e v.clock (calls id (os ++ o)) u
      rw [calls_append]
      exact ht.step hi hok (fun hmem => hnot (List.mem_append_right os hmem)) hstep
  refine ⟨e, hwaits.live, hcadence, ?_⟩
  generalize calls id during = shown at hphase ⊢
  cases hphase with
  | waits h _ hlate =>
    refine ⟨Nat.zero_le 1, fun count hcontrol => ?_⟩
    have hlt := hlate count hcontrol
    have hnext : IsNext (s.clock + e.intervalNs) e.intervalNs v.clock e.expiryNs :=
      ⟨hcadence, hlt, hsoon⟩
    exact ⟨(if_neg (not_le.mpr hlt)).symm, e, h.live, fun hdue => absurd hdue (not_le.mpr hlt),
      hnext, fun x => hnext.unique⟩
  | fires h _ =>
    refine ⟨le_rfl, fun count hcontrol => ?_⟩
    rw [h.control] at hcontrol
    cases hcontrol
  | again h _ hdue =>
    refine ⟨le_rfl, fun count _ => ?_⟩
    have hnext := isNext_nextPeriod hi hcadence hdue
    exact ⟨(if_pos hdue).symm, _, h.live, fun _ => nextPeriod_spec hi, hnext, fun x => hnext.unique⟩

/-- A periodic timer with the interval 3, made at 5. -/
def everyThree : EpollTimer (sortedHeap Nat) :=
  (({} : EpollTimer (sortedHeap Nat)).schedulePeriodic 5 3 1).1

/-- In a drain at 12 its callback schedules another timer, due at once: one call,
and the next expiry is 14. -/
theorem keeps_cadence_late :
    ∃ (z : State (sortedHeap Nat)) (e' : Entry Nat),
      Machine.Run (machine (sortedHeap Nat)) (Unbroken 1) ⟨everyThree, 12, .draining 12 0⟩
        [.invoked 1 8 1, .scheduled 0 2 2, .returned, .invoked 2 12 2, .returned] z ∧
      z.timer.active.lookup 1 = some e' ∧ IsNext 8 3 12 e'.expiryNs := by
  have hid : (2 : TimerID) ≠ 0 := by decide
  have hmid : Machine.Run (machine (sortedHeap Nat)) (Unbroken 1) ⟨everyThree, 5, .idle⟩
      [.elapsed 7] ⟨everyThree, 12, .idle⟩ := .single (l := .elapse 7) trivial rfl
  have hfires : Machine.Run (machine (sortedHeap Nat)) (Unbroken 1)
      ⟨everyThree, 12, .draining 12 0⟩ [.invoked 1 8 1]
      ⟨everyThree.take ⟨1, 8, 3, 1⟩, 12, .callback 12 0 ⟨1, 8, 3, 1⟩⟩ :=
    .single (l := .next) trivial rfl
  have hduring : Machine.Run (machine (sortedHeap Nat)) (Unbroken 1)
      ⟨everyThree, 12, .draining 12 0⟩
      [.invoked 1 8 1, .scheduled 0 2 2, .returned, .invoked 2 12 2, .returned] _ := ((((hfires.step
    (l := Label.schedule 0 2) hid rfl).step
    (l := Label.ret) trivial rfl).step
    (l := Label.next) trivial rfl).step
    (l := Label.ret) trivial rfl).step
    (l := Label.next) trivial rfl
  have hnew : step (init 5) (.schedulePeriodic 3 1) =
      some (⟨everyThree, 5, .idle⟩, [.scheduledPeriodic 3 1 1]) := rfl
  obtain ⟨e, -, -, -, hdrain⟩ := keeps_cadence (l := .drainExpired) (.refl (init 5)) (by decide)
    (by decide) hnew hmid rfl hduring (by decide)
  obtain ⟨-, e', hlive, -, hnext, -⟩ := hdrain 2 rfl
  exact ⟨_, e', hduring, hlive, hnext⟩

/-! ### When the id comes back, and when the callback throws -/

/-- Behind the top of the heap there are live timers only, and all expire at `x`. -/
structure Filled (e : Entry κ) (x : Int) (t : EpollTimer (sortedHeap κ)) : Prop where
  top : (sortedHeap κ).top t.heap = some e
  rest : ∀ m ∈ (sortedHeap κ).elems ((sortedHeap κ).pop t.heap),
    m.expiryNs = x ∧ t.stale m = false

theorem Filled.issue {x : Int} {t : EpollTimer (sortedHeap κ)} (h : Filled e x t)
    (hle : e.expiryNs ≤ x) (cb : κ) : Filled e x (t.issue x 0 cb) := by
  have htop : (sortedHeap κ).top (t.issue x 0 cb).heap = some e :=
    PriorityQueue.sortedList_top_push h.top hle
  refine ⟨htop, ?_⟩
  intro m hm
  have hrest : (sortedHeap κ).elems ((sortedHeap κ).pop (t.issue x 0 cb).heap) =
      ⟨t.nextId, x, 0, cb⟩ ::ₘ (sortedHeap κ).elems ((sortedHeap κ).pop t.heap) := by
    have hpush := (sortedHeap κ).elems_push t.heap ⟨t.nextId, x, 0, cb⟩
    rw [(sortedHeap κ).elems_pop _ _ h.top, Multiset.cons_swap] at hpush
    exact (Multiset.cons_inj_right e).mp (((sortedHeap κ).elems_pop _ _ htop).symm.trans hpush)
  rw [hrest] at hm
  have hlookup : (t.issue x 0 cb).active.lookup t.nextId = some ⟨t.nextId, x, 0, cb⟩ :=
    AList.lookup_insert t.active
  rcases Multiset.mem_cons.mp hm with rfl | hm
  · exact ⟨rfl, stale_eq_false.mpr ⟨_, hlookup, rfl⟩⟩
  · obtain ⟨hx, hstale⟩ := h.rest m hm
    refine ⟨hx, stale_eq_false.mpr ?_⟩
    by_cases hid : m.id = t.nextId
    · exact ⟨_, by rw [hid]; exact hlookup, hx.symm⟩
    · obtain ⟨e', he', hexpiry⟩ := stale_eq_false.mp hstale
      exact ⟨e', (AList.lookup_insert_ne hid).trans he', hexpiry⟩

/-- Timers use up ids, while none of them is due. -/
theorem run_fill {t : EpollTimer (sortedHeap κ)} {clock : Nat} {d : Int} (cb : κ)
    (h : Filled e (clock + d) t) (hle : e.expiryNs ≤ clock + d) (n : Nat) :
    ∃ os t', Machine.Run (machine (sortedHeap κ)) Machine.anyStep ⟨t, clock, .idle⟩ os
        ⟨t', clock, .idle⟩ ∧
      Filled e (clock + d) t' ∧ t'.nextId = t.nextId + UInt64.ofNat n ∧
      ∀ ev ∈ os, ∃ k, ev = .scheduled d cb k := by
  induction n with
  | zero => exact ⟨[], t, .refl _, h, by simp, by simp⟩
  | succ n ih =>
    obtain ⟨os, t', hrun, hfilled, hnext, hos⟩ := ih
    refine ⟨_, _, hrun.step trivial (step_schedule cb hfilled.top hle), hfilled.issue hle cb, ?_, ?_⟩
    · show t'.nextId + 1 = t.nextId + UInt64.ofNat (n + 1)
      rw [hnext, UInt64.ofNat_add, ← UInt64.add_assoc]
      rfl
    · intro ev hev
      rcases List.mem_append.mp hev with hev | hev
      · exact hos ev hev
      · exact ⟨t'.nextId, List.mem_singleton.mp hev⟩

theorem step_purge {clock count : Nat} {now : Int} {top : Entry κ}
    (htop : pq.top t.heap = some top) (hstale : t.stale top = true) :
    (machine pq).step ⟨t, clock, .draining now count⟩ .next =
      some (⟨t.pop, clock, .draining now count⟩, []) := by
  simp only [machine, step, drainStep, htop, hstale, if_true]

/-- The first loop ends when no live timer is due, and no stale one in front. -/
theorem step_ends {clock count : Nat} {now : Int}
    (h : ∀ m ∈ pq.elems t.heap, now < m.expiryNs ∧ t.stale m = false) :
    (machine pq).step ⟨t, clock, .draining now count⟩ .next =
      some (⟨t, clock, .rearming count⟩, []) := by
  cases htop : pq.top t.heap with
  | none => simp only [machine, step, drainStep, htop]
  | some top =>
    obtain ⟨hlate, hstale⟩ := h top (pq.top_mem htop)
    simp only [machine, step, drainStep, htop, hstale, hlate, if_true, Bool.false_eq_true, if_false]

/-- **Periodic timers that are not cancelled and do not run.**  `2^64` other
timers are made, and the last of them has the id; the callback throws, and the
timer is gone; the callback of an earlier timer throws, and the drain is over. -/
theorem cadence_lost :
    (∃ (s : State (sortedHeap Nat)) (os : List (Event Nat)),
      Machine.Run (machine (sortedHeap Nat)) Machine.anyStep (init 0)
        ([.scheduledPeriodic 10 1 1] ++ os ++ [.elapsed 10] ++ [.drainBegan]) s ∧
      (∀ ev ∈ os, ∃ k, ev = .scheduled 20 2 k) ∧ s.control = .rearming 0) ∧
    (∃ s : State (sortedHeap Nat),
      Machine.Run (machine (sortedHeap Nat)) Machine.anyStep (init 0)
        [.scheduledPeriodic 10 1 1, .elapsed 10, .drainBegan, .invoked 1 10 1, .threw,
          .elapsed 10, .drainBegan] s ∧
      s.control = .rearming 0) ∧
    ∃ s : State (sortedHeap Nat),
      Machine.Run (machine (sortedHeap Nat)) Machine.anyStep (init 0)
        [.scheduledPeriodic 10 1 1, .scheduled 5 2 2, .elapsed 10, .drainBegan,
          .invoked 2 5 2, .threw] s ∧
      s.control = .idle := by
  refine ⟨?_, ?_, ?_⟩
  · let t₁ : EpollTimer (sortedHeap Nat) :=
      (({} : EpollTimer (sortedHeap Nat)).schedulePeriodic 0 10 1).1
    have hfirst : Machine.Run (machine (sortedHeap Nat)) Machine.anyStep (init 0)
        [.scheduledPeriodic 10 1 1] ⟨t₁, 0, .idle⟩ :=
      .single (l := Label.schedulePeriodic 10 1) trivial rfl
    have hle : (10 : Int) ≤ ((0 : Nat) : Int) + 20 := by decide
    have hone : Filled ⟨1, 10, 10, 1⟩ (((0 : Nat) : Int) + 20) t₁ :=
      ⟨rfl, fun m hm => absurd hm (Multiset.notMem_zero m)⟩
    obtain ⟨os, t, hfill, hfilled, hnext, hos⟩ := run_fill 2 hone hle (2 ^ 64 - 1)
    have hid : t.nextId = 1 := by
      rw [hnext]
      show (2 : UInt64) + UInt64.ofNat (2 ^ 64 - 1) = 1
      decide
    -- the new timer takes the place of the periodic one
    let t₂ : EpollTimer (sortedHeap Nat) := t.issue (((0 : Nat) : Int) + 20) 0 2
    have hlast : Filled ⟨1, 10, 10, 1⟩ (((0 : Nat) : Int) + 20) t₂ := hfilled.issue hle 2
    have hlookup : t₂.active.lookup 1 = some ⟨t.nextId, 20, 0, 2⟩ := by
      show (t.active.insert t.nextId _).lookup 1 = _
      rw [hid, AList.lookup_insert]
      rfl
    have hstale : t₂.stale ⟨1, 10, 10, 1⟩ = true := by
      simp only [stale, hlookup]
      exact decide_eq_true (show (20 : Int) ≠ 10 by decide)
    have hpopped : ∀ m ∈ (sortedHeap Nat).elems t₂.pop.heap,
        (10 : Int) < m.expiryNs ∧ t₂.pop.stale m = false := by
      intro m hm
      obtain ⟨hx, hlive⟩ := hlast.rest m hm
      exact ⟨by rw [hx]; decide, hlive⟩
    have hnew := (hfirst.trans hfill).step trivial (step_schedule 2 hfilled.top hle)
    have hbegan := (hnew.step (l := Label.elapse 10) trivial rfl).step (l := Label.drainExpired)
      trivial rfl
    have hrun := (hbegan.step trivial (step_purge hlast.top hstale)).step trivial
      (step_ends hpopped)
    rw [List.append_assoc [_] os, List.append_nil, List.append_nil] at hrun
    refine ⟨_, os ++ [.scheduled 20 2 t.nextId], hrun, ?_, rfl⟩
    intro ev hev
    rcases List.mem_append.mp hev with hev | hev
    · exact hos ev hev
    · exact ⟨_, List.mem_singleton.mp hev⟩
  · refine Machine.exists_run_of_exec (m := machine (sortedHeap Nat)) State.control
      (Machine.execOk_of_forall (fun _ _ _ => trivial) _)
      (show ((machine (sortedHeap Nat)).exec (init 0) [.schedulePeriodic 10 1, .elapse 10,
        .drainExpired, .next, .throw, .elapse 10, .drainExpired, .next]).map _ = _ from ?_)
    decide +kernel
  · refine Machine.exists_run_of_exec (m := machine (sortedHeap Nat)) State.control
      (Machine.execOk_of_forall (fun _ _ _ => trivial) _)
      (show ((machine (sortedHeap Nat)).exec (init 0) [.schedulePeriodic 10 1, .schedule 5 2,
        .elapse 10, .drainExpired, .next, .throw]).map _ = _ from ?_)
    decide +kernel

end HftComponents.Timer.Epoll
