import HftComponents.Timer.Epoll.Wakeup

/-!
# Deadlines in order

`drain_expired` works from one clock reading, and the callbacks it runs insert
new deadlines into the heap it works on.  What keeps the order is that no entry
of the heap, cancelled or not, comes before a deadline that has been fired
(`Ordered.ahead`): the one fired was the top, a new timer expires at the present
clock or later, and a periodic one comes back after its own deadline.

`fires_in_order` is the result over whole runs, across all drains.
-/

namespace HftComponents.Timer.Epoll

open Lib EpollTimer

variable {κ : Type} {pq : PriorityQueue (Entry κ) Entry.expiryNs} {t : EpollTimer pq}
  {s u : State pq} {os o : List (Event κ)}

/-- The deadlines of the callbacks that a run invokes, in order. -/
def deadlines : List (Event κ) → List Int :=
  List.filterMap fun
    | .invoked _ expiryNs _ => some expiryNs
    | _ => none

def Event.elapsedNs : Event κ → Nat
  | .elapsed ns => ns
  | _ => 0

/-- The clock reading after the events, from the reading before them. -/
def reading (clock : Nat) : List (Event κ) → Nat
  | [] => clock
  | e :: os => reading (clock + e.elapsedNs) os

/-- No callback is invoked at a clock reading below its deadline. -/
def OnTime (clock : Nat) : List (Event κ) → Prop
  | [] => True
  | e :: os => (∀ x ∈ deadlines [e], x ≤ clock) ∧ OnTime (clock + e.elapsedNs) os

/-- Delays are not negative and intervals are positive. -/
def Forward (_ : State pq) : Label κ → Prop
  | .schedule d _ => 0 ≤ d
  | .schedulePeriodic i _ => 0 < i
  | _ => True

/-- The clock reading that a drain works from. -/
def Control.snapshot : Control κ → Option Int
  | .draining now _ | .callback now _ _ => some now
  | _ => none

/-! ### The trace -/

theorem deadlines_append (a b : List (Event κ)) : deadlines (a ++ b) = deadlines a ++ deadlines b :=
  List.filterMap_append

theorem reading_append (clock : Nat) (a b : List (Event κ)) :
    reading clock (a ++ b) = reading (reading clock a) b := by
  induction a generalizing clock with
  | nil => rfl
  | cons e a ih => exact ih (clock + e.elapsedNs)

theorem onTime_append {clock : Nat} {a b : List (Event κ)} :
    OnTime clock (a ++ b) ↔ OnTime clock a ∧ OnTime (reading clock a) b := by
  induction a generalizing clock with
  | nil => simp [OnTime, reading]
  | cons e a ih => simp only [List.cons_append, OnTime, reading, ih, and_assoc]

/-! ### The invariant -/

structure Ordered (clock : Nat) (os : List (Event κ)) (s : State pq) : Prop where
  sorted : (deadlines os).Pairwise (· ≤ ·)
  onTime : OnTime clock os
  reading : reading clock os = s.clock
  reached : ∀ x ∈ deadlines os, x ≤ s.clock
  ahead : ∀ x ∈ deadlines os, ∀ e ∈ pq.elems s.timer.heap, x ≤ e.expiryNs
  running : ∀ e, s.control.running = some e → ∀ x ∈ deadlines os, x ≤ e.expiryNs
  snapshot : ∀ now, s.control.snapshot = some now → now ≤ s.clock

theorem ordered_init (clock : Nat) : Ordered clock [] (init clock : State pq) where
  sorted := .nil
  onTime := trivial
  reading := rfl
  reached := by simp [deadlines]
  ahead := by simp [deadlines]
  running := by simp [deadlines]
  snapshot := by simp [init, Control.snapshot]

namespace Ordered

variable {clock : Nat}

theorem quiet {u : State pq} (h : Ordered clock os s) (ho : deadlines o = [])
    (hr : Epoll.reading s.clock o = u.clock) (hclock : s.clock ≤ u.clock)
    (hheap : ∀ e ∈ pq.elems u.timer.heap, e ∈ pq.elems s.timer.heap ∨
      ∀ x ∈ deadlines os, x ≤ e.expiryNs)
    (hrun : ∀ e, u.control.running = some e → s.control.running = some e)
    (hsnap : ∀ now, u.control.snapshot = some now → s.control.snapshot = some now ∨ now = s.clock)
    (htime : OnTime s.clock o) : Ordered clock (os ++ o) u where
  sorted := by rw [deadlines_append, ho, List.append_nil]; exact h.sorted
  onTime := onTime_append.mpr ⟨h.onTime, h.reading ▸ htime⟩
  reading := by rw [reading_append, h.reading, hr]
  reached := by
    rw [deadlines_append, ho, List.append_nil]
    intro x hx
    have := h.reached x hx
    omega
  ahead := by
    rw [deadlines_append, ho, List.append_nil]
    intro x hx e he
    rcases hheap e he with hold | hnew
    · exact h.ahead x hx e hold
    · exact hnew x hx
  running := by
    rw [deadlines_append, ho, List.append_nil]
    intro e he
    exact h.running e (hrun e he)
  snapshot := by
    intro now hnow
    rcases hsnap now hnow with hold | rfl
    · have := h.snapshot now hold
      omega
    · omega

theorem add {c : Control κ} {now : Nat} {d i : Int} {cb : κ} (h : Ordered clock os ⟨t, now, c⟩)
    (hd : 0 ≤ d) (ho : deadlines o = []) (hr : Epoll.reading now o = now)
    (htime : OnTime now o) : Ordered clock (os ++ o) ⟨(t.add now d i cb).1, now, c⟩ := by
  refine h.quiet ho hr le_rfl ?_ (fun _ he => he) (fun _ hn => Or.inl hn) htime
  intro e he
  rw [(add_frame t now d i cb).1] at he
  rcases pq.mem_push.mp he with rfl | he
  · right
    intro x hx
    have hx : x ≤ now := h.reached x hx
    show x ≤ (now : Int) + d
    omega
  · exact Or.inl he

theorem outcome_quiet (r : Option TimerID) (shown : TimerID → Event κ)
    (hs : ∀ id, deadlines [shown id] = [] ∧ (shown id).elapsedNs = 0) (now : Nat) :
    deadlines (outcome r shown) = [] ∧ Epoll.reading now (outcome r shown) = now ∧
      OnTime now (outcome r shown) := by
  cases r with
  | none => simp [outcome, deadlines, Epoll.reading, OnTime, Event.elapsedNs]
  | some id => simp [outcome, (hs id).1, Epoll.reading, OnTime, (hs id).2]

/-- **The top of the heap is fired.**  It is due by the snapshot, and the fired
deadlines are at or below it. -/
theorem invoke {now : Int} {count c : Nat} {top : Entry κ}
    (h : Ordered clock os ⟨t, c, .draining now count⟩) (htop : pq.top t.heap = some top)
    (hdue : top.expiryNs ≤ now) :
    Ordered clock (os ++ [.invoked top.id top.expiryNs top.cb])
      ⟨t.take top, c, .callback now count top⟩ := by
  have hnow : now ≤ c := h.snapshot now rfl
  have hlast : ∀ x ∈ deadlines os, x ≤ top.expiryNs := fun x hx =>
    h.ahead x hx top (pq.top_mem htop)
  have hmem : ∀ x, x ∈ deadlines (os ++ [.invoked top.id top.expiryNs top.cb]) ↔
      x ∈ deadlines os ∨ x = top.expiryNs := by
    simp [deadlines]
  refine ⟨?_, ?_, ?_, ?_, ?_, ?_, ?_⟩
  · rw [deadlines_append]
    refine List.pairwise_append.mpr ⟨h.sorted, List.pairwise_singleton _ _, ?_⟩
    intro x hx y hy
    obtain rfl := List.mem_singleton.mp hy
    exact hlast x hx
  · refine onTime_append.mpr ⟨h.onTime, ?_, trivial⟩
    rw [h.reading]
    intro x hx
    obtain rfl := List.mem_singleton.mp hx
    exact hdue.trans hnow
  · rw [reading_append, h.reading]
    rfl
  · intro x hx
    rcases (hmem x).mp hx with hx | rfl
    · exact h.reached x hx
    · exact hdue.trans hnow
  · intro x hx e he
    have he := pq.mem_of_mem_pop htop he
    rcases (hmem x).mp hx with hx | rfl
    · exact h.ahead x hx e he
    · exact pq.key_top_le _ _ htop e he
  · intro e he x hx
    obtain rfl := Option.some.inj he
    rcases (hmem x).mp hx with hx | rfl
    · exact hlast x hx
    · exact le_rfl
  · intro n hn
    obtain rfl := Option.some.inj hn
    exact hnow

theorem ret {now : Int} {count c : Nat} {e : Entry κ}
    (h : Ordered clock os ⟨t, c, .callback now count e⟩) :
    Ordered clock (os ++ [.returned]) ⟨t.afterCallback now e, c, .draining now (count + 1)⟩ := by
  refine h.quiet rfl rfl le_rfl ?_ (by simp [Control.running]) (fun _ hn => Or.inl hn)
    ⟨by simp [deadlines], trivial⟩
  intro m hm
  rw [afterCallback] at hm
  by_cases hi : 0 < e.intervalNs
  · rw [if_pos hi] at hm
    rcases pq.mem_push.mp hm with rfl | hm
    · right
      intro x hx
      have hx : x ≤ e.expiryNs := h.running e rfl x hx
      have hle : e.expiryNs + e.intervalNs ≤ (nextPeriod now e).expiryNs := le_catchUp hi.le _ _
      omega
    · exact Or.inl hm
  · rw [if_neg hi] at hm
    exact Or.inl hm

/-- **One step keeps the deadlines in order.** -/
theorem step {l : Label κ} (h : Ordered clock os s) (hok : Forward s l)
    (hstep : step s l = some (u, o)) : Ordered clock (os ++ o) u := by
  have hkeep : ∀ e : Entry κ, ∀ q : pq.Queue, e ∈ pq.elems q →
      e ∈ pq.elems q ∨ ∀ x ∈ deadlines os, x ≤ e.expiryNs := fun _ _ he => Or.inl he
  cases step_moves hstep with
  | elapse t c ctl ns =>
    refine h.quiet rfl rfl (Nat.le_add_right c ns) (fun e he => hkeep e _ he) (fun _ he => he)
      (fun _ hn => Or.inl hn) ⟨by simp [deadlines], trivial⟩
  | @schedule t c ctl _ d cb =>
    obtain ⟨h1, h2, h3⟩ := outcome_quiet (t.schedule c d cb).2 (.scheduled d cb)
      (fun _ => ⟨rfl, rfl⟩) c
    exact h.add hok h1 h2 h3
  | @schedulePeriodic t c ctl _ i cb =>
    obtain ⟨h1, h2, h3⟩ := outcome_quiet (t.schedulePeriodic c i cb).2
      (.scheduledPeriodic i cb) (fun _ => ⟨rfl, rfl⟩) c
    exact h.add (le_of_lt hok) h1 h2 h3
  | @cancel t c ctl _ id =>
    refine h.quiet rfl rfl le_rfl ?_ (fun _ he => he) (fun _ hn => Or.inl hn)
      ⟨by simp [deadlines], trivial⟩
    intro e he
    rw [(cancel_frame t id).1] at he
    exact Or.inl he
  | pending | polled | failed =>
    exact h.quiet rfl rfl le_rfl (fun e he => hkeep e _ he) (fun _ he => he)
      (fun _ hn => Or.inl hn) ⟨by simp [deadlines], trivial⟩
  | readable | drainExpired =>
    refine h.quiet rfl rfl le_rfl (fun e he => hkeep e _ he) (by simp [Control.running]) ?_
      ⟨by simp [deadlines], trivial⟩
    intro now hnow
    exact Or.inr (Option.some.inj hnow).symm
  | emptied | notYet =>
    exact h.quiet rfl rfl le_rfl (fun e he => hkeep e _ he) (by simp [Control.running])
      (by simp [Control.snapshot]) trivial
  | purge htop | rearmPurge htop =>
    refine h.quiet rfl rfl le_rfl ?_ (by simp [Control.running]) (fun _ hn => Or.inl hn) trivial
    intro e he
    exact Or.inl (pq.mem_of_mem_pop htop he)
  | invoke htop _ hdue => exact h.invoke htop hdue
  | drained | rearmThrew | throw =>
    exact h.quiet rfl rfl le_rfl (fun e he => hkeep e _ he) (by simp [Control.running])
      (by simp [Control.snapshot]) ⟨by simp [deadlines], trivial⟩
  | rearm _ _ ht =>
    refine h.quiet rfl rfl le_rfl ?_ (by simp [Control.running]) (by simp [Control.snapshot])
      ⟨by simp [deadlines], trivial⟩
    intro e he
    rw [(rearmTimerfd_frame ht).1] at he
    exact Or.inl he
  | ret => exact h.ret

end Ordered

/-- **Callbacks fire in the order of their deadlines, over the whole run, and
never early.** -/
theorem fires_in_order {clock : Nat} (h : Machine.Run (machine pq) Forward (init clock) os s) :
    (deadlines os).Pairwise (· ≤ ·) ∧ OnTime clock os := by
  have hord : Ordered clock os s :=
    h.invariant (ordered_init clock) fun _ _ _ _ _ ht hok hstep => ht.step hok hstep
  exact ⟨hord.sorted, hord.onTime⟩

/-- A late periodic timer, and a one-shot that its callback schedules. -/
theorem fires_in_order_late :
    ∃ s os, Machine.Run (machine (sortedHeap Nat)) Forward (init 5) os s ∧
      deadlines os = [8, 12, 14] ∧ (deadlines os).Pairwise (· ≤ ·) ∧ OnTime 5 os := by
  obtain ⟨s, os, hexec, hd⟩ : ∃ s os, (machine (sortedHeap Nat)).exec (init 5)
      [.schedulePeriodic 3 1, .elapse 7, .drainExpired, .next, .schedule 0 2, .ret, .next, .ret,
        .next, .next, .elapse 2, .drainExpired, .next] = some (s, os) ∧
      deadlines os = [8, 12, 14] := ⟨_, _, rfl, rfl⟩
  have hrun : Machine.Run (machine (sortedHeap Nat)) Forward (init 5) os s :=
    Machine.run_of_exec (Machine.execOk_of_forall (by simp [Forward]) _) hexec
  exact ⟨s, os, hrun, hd, fires_in_order hrun⟩

end HftComponents.Timer.Epoll
