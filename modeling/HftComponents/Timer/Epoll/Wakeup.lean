import HftComponents.Timer.Epoll.Basic

/-!
# No wake-up is lost

Whether to arm the timerfd is decided against the top of the heap, which may be
an entry that was cancelled long ago.  That is safe, because the timerfd is
armed no later than *every* entry of the heap, cancelled ones included
(`Armed`), and every live timer has an entry there (`Confirmed`).

`Armed` fails inside `drain_expired`, once `read` has consumed the timerfd.
The second loop restores it: it throws away the stale tops and arms at the
first that is not, which is the least of the heap.

`wakeup_not_lost` is the result between public calls.
-/

namespace HftComponents.Timer.Epoll

open Lib EpollTimer

variable {κ : Type} {pq : PriorityQueue (Entry κ) Entry.expiryNs} {t : EpollTimer pq}
  {s u : State pq} {os o : List (Event κ)}

/-! ### The timerfd -/

theorem settime_toItimerspec (x : Int) :
    settime (toItimerspec x) = if x < 0 then none else if x = 0 then some none else some (some x) := by
  rw [settime, toItimerspec]
  dsimp only
  rcases lt_trichotomy x 0 with hx | rfl | hx
  · -- truncation rounds up: one of the two parts is negative
    have hq := Int.neg_tdiv x 1000000000
    have hr := Int.neg_tmod x 1000000000
    rw [Int.tdiv_eq_ediv_of_nonneg (by omega)] at hq
    rw [Int.tmod_eq_emod_of_nonneg (by omega)] at hr
    rw [if_pos hx, if_pos (by omega)]
  · rfl
  · rw [Int.tdiv_eq_ediv_of_nonneg hx.le, Int.tmod_eq_emod_of_nonneg hx.le, if_neg (by omega),
      if_neg (by omega), if_neg (by omega), if_neg (by omega)]
    congr 2
    omega

theorem rearmTimerfd_of_pos {x : Int} (hx : 0 < x) :
    t.rearmTimerfd x =
      some { t with timerFd := some x, stats := { t.stats with rearms := t.stats.rearms + 1 } } := by
  rw [rearmTimerfd, settime_toItimerspec, if_neg (by omega), if_neg (by omega)]

/-! ### The operations on the heap and the map -/

theorem rearmTimerfd_frame {t' : EpollTimer pq} {x : Int} (h : t.rearmTimerfd x = some t') :
    t'.heap = t.heap ∧ t'.active = t.active ∧ t'.nextId = t.nextId := by
  rw [rearmTimerfd] at h
  split at h
  · cases h
  · obtain rfl := Option.some.inj h
    exact ⟨rfl, rfl, rfl⟩

/-- The timer with a new entry stored, before any arming. -/
def EpollTimer.issue (t : EpollTimer pq) (expiryNs i : Int) (cb : κ) : EpollTimer pq :=
  { t with nextId := t.nextId + 1 }.store ⟨t.nextId, expiryNs, i, cb⟩

/-- `schedule` arms if and only if the new entry comes before all of the heap. -/
theorem add_cases (t : EpollTimer pq) (now d i : Int) (cb : κ) :
    ((∃ top, pq.top t.heap = some top ∧ top.expiryNs ≤ now + d) ∧
      t.add now d i cb = (t.issue (now + d) i cb, some t.nextId)) ∨
    ((∀ e ∈ pq.elems t.heap, now + d < e.expiryNs) ∧
      t.add now d i cb =
        match (t.issue (now + d) i cb).rearmTimerfd (now + d) with
        | none => (t.issue (now + d) i cb, none)
        | some t' => (t', some t.nextId)) := by
  cases htop : pq.top t.heap with
  | none =>
    refine Or.inr ⟨?_, ?_⟩
    · intro e he
      rw [pq.elems_of_top_eq_none _ htop] at he
      exact absurd he (Multiset.notMem_zero e)
    · simp only [add, htop, if_true]
      rfl
  | some top =>
    by_cases hlt : now + d < top.expiryNs
    · refine Or.inr ⟨?_, ?_⟩
      · intro e he
        exact hlt.trans_le (pq.key_top_le _ _ htop e he)
      simp only [add, htop, hlt, decide_true, if_true]
      rfl
    · refine Or.inl ⟨⟨top, rfl, not_lt.mp hlt⟩, ?_⟩
      simp only [add, htop, hlt, decide_false, Bool.false_eq_true, if_false]
      rfl

theorem add_frame (t : EpollTimer pq) (now d i : Int) (cb : κ) :
    (t.add now d i cb).1.heap = (t.issue (now + d) i cb).heap ∧
      (t.add now d i cb).1.active = (t.issue (now + d) i cb).active ∧
      (t.add now d i cb).1.nextId = t.nextId + 1 := by
  rcases add_cases t now d i cb with ⟨-, h⟩ | ⟨-, h⟩
  · rw [h]
    exact ⟨rfl, rfl, rfl⟩
  · cases hr : (t.issue (now + d) i cb).rearmTimerfd (now + d) with
    | none =>
      rw [h, hr]
      exact ⟨rfl, rfl, rfl⟩
    | some t' =>
      rw [h, hr]
      exact rearmTimerfd_frame hr

theorem cancel_frame (t : EpollTimer pq) (id : TimerID) :
    (t.cancel id).2.heap = t.heap ∧ (t.cancel id).2.timerFd = t.timerFd := by
  rw [EpollTimer.cancel]
  cases t.active.lookup id <;> exact ⟨rfl, rfl⟩

/-! ### The invariants -/

/-- Every live timer has an entry in the heap. -/
def Confirmed (t : EpollTimer pq) : Prop :=
  ∀ id e, t.active.lookup id = some e →
    ∃ h ∈ pq.elems t.heap, h.id = id ∧ h.expiryNs = e.expiryNs

/-- The timerfd is armed, and no later than any entry of the heap. -/
def Armed (t : EpollTimer pq) : Prop :=
  ∀ h ∈ pq.elems t.heap, ∃ a, t.timerFd = some a ∧ a ≤ h.expiryNs

def PositiveHeap (t : EpollTimer pq) : Prop := ∀ h ∈ pq.elems t.heap, 0 < h.expiryNs

theorem stale_eq_false {top : Entry κ} :
    t.stale top = false ↔ ∃ e, t.active.lookup top.id = some e ∧ e.expiryNs = top.expiryNs := by
  rw [stale]
  cases t.active.lookup top.id with
  | none => simp
  | some e => simp

theorem Confirmed.store (h : Confirmed t) (e : Entry κ) : Confirmed (t.store e) := by
  intro id e' hid
  by_cases heq : id = e.id
  · subst heq
    rw [EpollTimer.store, AList.lookup_insert] at hid
    obtain rfl := Option.some.inj hid
    exact ⟨e, pq.mem_push.mpr (Or.inl rfl), rfl, rfl⟩
  · rw [EpollTimer.store, AList.lookup_insert_ne heq] at hid
    obtain ⟨m, hm, hmid, hexp⟩ := h id e' hid
    exact ⟨m, pq.mem_push.mpr (Or.inr hm), hmid, hexp⟩

theorem Confirmed.cancel (h : Confirmed t) (id : TimerID) : Confirmed (t.cancel id).2 := by
  rw [EpollTimer.cancel]
  cases hl : t.active.lookup id with
  | none => exact h
  | some _ =>
    intro id' e he
    by_cases heq : id' = id
    · subst heq
      rw [AList.lookup_erase] at he
      cases he
    · exact h id' e ((AList.lookup_erase_ne heq).symm.trans he)

theorem Confirmed.pop {top : Entry κ} (h : Confirmed t) (htop : pq.top t.heap = some top)
    (hstale : t.stale top = true) : Confirmed t.pop := by
  intro id e he
  obtain ⟨m, hm, hid, hexp⟩ := h id e he
  refine ⟨m, pq.mem_pop_of_ne htop hm ?_, hid, hexp⟩
  rintro rfl
  have hlive : t.stale m = false := stale_eq_false.mpr ⟨e, hid ▸ he, hexp.symm⟩
  rw [hstale] at hlive
  cases hlive

theorem Confirmed.take {top : Entry κ} (h : Confirmed t) (htop : pq.top t.heap = some top) :
    Confirmed (t.take top) := by
  intro id e he
  by_cases heq : id = top.id
  · subst heq
    rw [EpollTimer.take, AList.lookup_erase] at he
    cases he
  · rw [EpollTimer.take, AList.lookup_erase_ne heq] at he
    obtain ⟨m, hm, hid, hexp⟩ := h id e he
    refine ⟨m, pq.mem_pop_of_ne htop hm ?_, hid, hexp⟩
    rintro rfl
    exact heq hid.symm

theorem Confirmed.of_eq {t' : EpollTimer pq} (h : Confirmed t) (hh : t'.heap = t.heap)
    (ha : t'.active = t.active) : Confirmed t' := by
  rw [Confirmed, hh, ha]
  exact h

theorem Confirmed.add (h : Confirmed t) {now d i : Int} {cb : κ} :
    Confirmed (t.add now d i cb).1 := by
  obtain ⟨hheap, hactive, -⟩ := add_frame t now d i cb
  refine Confirmed.of_eq (t := t.issue (now + d) i cb) ?_ hheap hactive
  exact (h.of_eq rfl rfl).store _

theorem Confirmed.step {l : Label κ} (h : Confirmed s.timer) (hstep : step s l = some (u, o)) :
    Confirmed u.timer := by
  cases step_moves hstep with
  | schedule | schedulePeriodic => exact h.add
  | cancel _ id => exact h.cancel id
  | readable => exact h.of_eq rfl rfl
  | purge htop hstale | rearmPurge htop hstale => exact h.pop htop hstale
  | invoke htop _ _ => exact h.take htop
  | rearm _ _ ht =>
    obtain ⟨hheap, hactive, -⟩ := rearmTimerfd_frame ht
    exact h.of_eq hheap hactive
  | ret t clock now count e =>
    show Confirmed (t.afterCallback now e)
    rw [afterCallback]
    split_ifs
    · exact (h.of_eq rfl rfl).store _
    · exact h.of_eq rfl rfl
  | _ => exact h

theorem Armed.of_eq {t' : EpollTimer pq} (h : Armed t) (hh : t'.heap = t.heap)
    (hf : t'.timerFd = t.timerFd) : Armed t' := by
  rw [Armed, hh, hf]
  exact h

theorem Armed.add {now d i : Int} {cb : κ} (h : Armed t) (hpos : 0 < now + d) :
    Armed (t.add now d i cb).1 := by
  rcases add_cases t now d i cb with ⟨⟨top, htop, hle⟩, heq⟩ | ⟨hlt, heq⟩
  · rw [heq]
    intro m hm
    rcases pq.mem_push.mp hm with rfl | hm
    · obtain ⟨a, ha, hat⟩ := h top (pq.top_mem htop)
      exact ⟨a, ha, hat.trans hle⟩
    · exact h m hm
  · rw [heq, rearmTimerfd_of_pos hpos]
    intro m hm
    refine ⟨now + d, rfl, ?_⟩
    rcases pq.mem_push.mp hm with rfl | hm
    · exact le_rfl
    · exact (hlt m hm).le

theorem PositiveHeap.add {now d i : Int} {cb : κ} (h : PositiveHeap t) (hpos : 0 < now + d) :
    PositiveHeap (t.add now d i cb).1 := by
  intro m hm
  rw [(add_frame t now d i cb).1] at hm
  rcases pq.mem_push.mp hm with rfl | hm
  · exact hpos
  · exact h m hm

theorem PositiveHeap.of_pop {t' : EpollTimer pq} {top : Entry κ} (h : PositiveHeap t)
    (htop : pq.top t.heap = some top) (hh : t'.heap = pq.pop t.heap) : PositiveHeap t' := by
  intro m hm
  rw [hh] at hm
  exact h m (pq.mem_of_mem_pop htop hm)

theorem le_catchUp {now i : Int} (hi : 0 ≤ i) (fuel : Nat) (x : Int) :
    x ≤ catchUp now i fuel x := by
  induction fuel generalizing x with
  | zero => exact le_rfl
  | succ fuel ih =>
    rw [catchUp]
    by_cases hx : x ≤ now
    · rw [if_pos hx]
      have := ih (x + i)
      omega
    · rw [if_neg hx]

/-- What holds of every state: the entry that is running counts as one of the
heap, and between calls the timerfd is armed. -/
structure Covered (s : State pq) : Prop where
  confirmed : Confirmed s.timer
  positive : PositiveHeap s.timer
  running : ∀ now count e, s.control = .callback now count e → 0 < e.expiryNs
  armed : s.control = .idle → Armed s.timer

/-- The absolute expiries are positive, and callbacks return. -/
def PositiveExpiries (s : State pq) : Label κ → Prop
  | .schedule d _ => 0 < (s.clock : Int) + d
  | .schedulePeriodic i _ => 0 < (s.clock : Int) + i
  | .throw => False
  | _ => True

theorem Covered.add {clock : Nat} {c : Control κ} (h : Covered ⟨t, clock, c⟩) {now d : Int}
    (i : Int) (cb : κ) (hpos : 0 < now + d) : Covered ⟨(t.add now d i cb).1, clock, c⟩ where
  confirmed := h.confirmed.add
  positive := h.positive.add hpos
  running := h.running
  armed := by
    intro hc
    exact (h.armed hc).add hpos

/-- **One step keeps the timerfd armed between calls.** -/
theorem Covered.step {l : Label κ} (h : Covered s) (hok : PositiveExpiries s l)
    (hstep : step s l = some (u, o)) : Covered u := by
  have hconfirmed := h.confirmed.step hstep
  cases step_moves hstep with
  | elapse t clock c ns => exact ⟨hconfirmed, h.positive, h.running, h.armed⟩
  | schedule _ d cb => exact h.add 0 cb hok
  | schedulePeriodic _ i cb => exact h.add i cb hok
  | @cancel t clock c _ id =>
    obtain ⟨hheap, hfd⟩ := cancel_frame t id
    refine ⟨hconfirmed, ?_, h.running, ?_⟩
    · rw [PositiveHeap, hheap]
      exact h.positive
    · intro hc
      exact (h.armed hc).of_eq hheap hfd
  | pending | polled | failed => exact h
  | readable | drainExpired | emptied | notYet =>
    exact ⟨hconfirmed, h.positive, nofun, nofun⟩
  | purge htop _ | rearmPurge htop _ =>
    exact ⟨hconfirmed, h.positive.of_pop htop rfl, nofun, nofun⟩
  | invoke htop hstale hdue =>
    refine ⟨hconfirmed, h.positive.of_pop htop rfl, ?_, nofun⟩
    intro _ _ _ hc
    obtain ⟨-, -, rfl⟩ := Control.callback.inj hc
    exact h.positive _ (pq.top_mem htop)
  | drained htop =>
    refine ⟨hconfirmed, h.positive, nofun, ?_⟩
    intro _ m hm
    rw [pq.elems_of_top_eq_none _ htop] at hm
    exact absurd hm (Multiset.notMem_zero m)
  | rearm htop hstale ht =>
    rw [rearmTimerfd_of_pos (h.positive _ (pq.top_mem htop))] at ht
    obtain rfl := Option.some.inj ht
    refine ⟨hconfirmed, h.positive, nofun, ?_⟩
    intro _ m hm
    exact ⟨_, rfl, pq.key_top_le _ _ htop m hm⟩
  | rearmThrew htop hstale ht =>
    rw [rearmTimerfd_of_pos (h.positive _ (pq.top_mem htop))] at ht
    cases ht
  | ret t clock now count e =>
    have he := h.running now count e rfl
    refine ⟨hconfirmed, ?_, nofun, nofun⟩
    show PositiveHeap (t.afterCallback now e)
    rw [afterCallback]
    split_ifs with hi
    · intro m hm
      rcases pq.mem_push.mp hm with rfl | hm
      · exact lt_of_lt_of_le (by omega) (le_catchUp hi.le _ _)
      · exact h.positive m hm
    · exact h.positive
  | throw => exact False.elim hok

theorem covered_init (clock : Nat) : Covered (init clock : State pq) where
  confirmed := by
    intro id e he
    cases he
  positive := by
    intro m hm
    rw [init, pq.elems_empty] at hm
    exact absurd hm (Multiset.notMem_zero m)
  running := nofun
  armed := by
    intro _ m hm
    rw [init, pq.elems_empty] at hm
    exact absurd hm (Multiset.notMem_zero m)

/-- **No wake-up is lost.**  Between calls, if a timer is live then the timerfd
is armed, at a time not later than the expiry of any live timer. -/
theorem wakeup_not_lost {clock : Nat} {k : TimerID}
    (h : Lib.Machine.Run (machine pq) PositiveExpiries (init clock) os s)
    (hidle : s.control = .idle) (hlive : k ∈ s.timer.active) :
    ∃ a, s.timer.timerFd = some a ∧ ∀ id e, s.timer.active.lookup id = some e → a ≤ e.expiryNs := by
  have hs : Covered s :=
    h.keeps (covered_init clock) fun _ _ _ _ hc hok hstep => hc.step hok hstep
  obtain ⟨e₀, he₀⟩ := Option.isSome_iff_exists.mp (AList.lookup_isSome.mpr hlive)
  obtain ⟨m₀, hm₀, -, -⟩ := hs.confirmed k e₀ he₀
  obtain ⟨a, ha, -⟩ := hs.armed hidle m₀ hm₀
  refine ⟨a, ha, ?_⟩
  intro id e he
  obtain ⟨m, hm, -, hexp⟩ := hs.confirmed id e he
  obtain ⟨a', ha', hle⟩ := hs.armed hidle m hm
  obtain rfl := Option.some.inj (ha'.symm.trans ha)
  rw [← hexp]
  exact hle

/-- The heap's top is a cancelled entry, and a later timer is live. -/
theorem wakeup_not_lost_stale_top :
    ∃ (s : State (sortedHeap Nat)) (os : List (Event Nat)),
      Lib.Machine.Run (machine (sortedHeap Nat)) PositiveExpiries (init 7) os s ∧
      ∃ a, s.timer.timerFd = some a ∧
        ∀ id e, s.timer.active.lookup id = some e → a ≤ e.expiryNs := by
  have h : ∀ d : Int, 0 < d → 0 < ((7 : Nat) : Int) + d := fun d hd => by omega
  have hrun : Lib.Machine.Run (machine (sortedHeap Nat)) PositiveExpiries (init 7) _ _ :=
    (((Lib.Machine.Run.refl _).step (l := .schedule 5 10) (h 5 (by decide)) rfl).step
      (l := .schedule 9 20) (h 9 (by decide)) rfl).step (l := .cancel 1) trivial rfl
  exact ⟨_, _, hrun, wakeup_not_lost (k := 2) hrun rfl (by decide)⟩

end HftComponents.Timer.Epoll
