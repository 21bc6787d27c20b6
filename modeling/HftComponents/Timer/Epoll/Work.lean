import HftComponents.Lib.Potential
import HftComponents.Timer.Epoll.Cadence

/-!
# The work of a drain

`drain_expired` discards what is stale entry by entry, and calls user code that may
store more.  Over a whole run its loops take no more turns than entries have been
stored, and two for each drain (`Moves.turns`); lazy deletion costs nothing beyond
the push.

A drain invokes a callback for an entry that was due when it began, or that another
callback has stored with an expiry not after its reading of the clock
(`Moves.calls`).  With positive delays there is none of the second kind, and every
drain comes to its end (`drain_work`).  All of it is about runs whose sums of times
stay in `int64_t`: one that wraps would be due at once.
-/

namespace HftComponents.Timer.Epoll

open Lib Lib.Machine EpollTimer

variable {κ : Type} {pq : PriorityQueue (Entry κ) Entry.expiryNs} {t : EpollTimer pq}
  {s u : State pq} {os o : List (Event κ)} {l : Label κ}

def heapSize (t : EpollTimer pq) : Nat := (pq.elems t.heap).card

/-- The entries that are due at `now`, stale ones included. -/
def dueBy (now : Int) (t : EpollTimer pq) : Nat :=
  (pq.elems t.heap).countP fun e => e.expiryNs ≤ now

/-! ### The heap -/

theorem heapSize_pop {top : Entry κ} (htop : pq.top t.heap = some top) :
    heapSize t = heapSize t.pop + 1 := by
  rw [heapSize, pq.elems_pop _ _ htop, Multiset.card_cons]
  rfl

theorem dueBy_pop {top : Entry κ} (htop : pq.top t.heap = some top) (now : Int) :
    dueBy now t = dueBy now t.pop + if top.expiryNs ≤ now then 1 else 0 := by
  rw [dueBy, pq.elems_pop _ _ htop, Multiset.countP_cons]
  rfl

theorem heapSize_store (e : Entry κ) : heapSize (t.store e) = heapSize t + 1 := by
  show (pq.elems (pq.push t.heap e)).card = _
  rw [pq.elems_push, Multiset.card_cons]
  rfl

theorem dueBy_store (e : Entry κ) (now : Int) :
    dueBy now (t.store e) = dueBy now t + if e.expiryNs ≤ now then 1 else 0 := by
  show (pq.elems (pq.push t.heap e)).countP _ = _
  rw [pq.elems_push, Multiset.countP_cons]
  rfl

theorem of_heap_eq {t' : EpollTimer pq} (h : t'.heap = t.heap) (now : Int) :
    heapSize t' = heapSize t ∧ dueBy now t' = dueBy now t := by
  rw [heapSize, heapSize, dueBy, dueBy, h]
  exact ⟨rfl, rfl⟩

theorem heapSize_add (now d i : Int) (cb : κ) :
    heapSize (t.add now d i cb).1 = heapSize t + 1 :=
  (of_heap_eq (add_frame t now d i cb).1 0).1.trans (heapSize_store _)

theorem dueBy_add (x now d i : Int) (cb : κ) :
    dueBy x (t.add now d i cb).1 = dueBy x t + if now + d ≤ x then 1 else 0 :=
  (of_heap_eq (add_frame t now d i cb).1 x).2.trans (dueBy_store _ x)

theorem CatchesUp.lt {now i x y : Int} (h : CatchesUp now i x y) : now < y := by
  induction h with
  | stop hlt => exact hlt
  | turn _ _ ih => exact ih

/-- A periodic timer is not due again in the drain that has run it. -/
theorem dueBy_afterCallback (now : Int) (e : Entry κ) :
    dueBy now (t.afterCallback now e) = dueBy now t := by
  unfold afterCallback
  dsimp only
  split
  · rename_i hi
    rw [dueBy_store, if_neg (not_le.mpr (nextPeriod_spec hi).lt)]
    rfl
  · rfl

theorem heapSize_afterCallback (now : Int) (e : Entry κ) :
    heapSize (t.afterCallback now e) = heapSize t + if 0 < e.intervalNs then 1 else 0 := by
  unfold afterCallback
  dsimp only
  split
  · exact heapSize_store _
  · rfl

/-! ### What pays for what -/

def Label.isNext : Label κ → Bool
  | .next => true
  | _ => false

def Label.isSchedule : Label κ → Bool
  | .schedule .. | .schedulePeriodic .. => true
  | _ => false

def Event.isInvoked : Event κ → Bool
  | .invoked .. => true
  | _ => false

def Event.isBegan : Event κ → Bool
  | .drainBegan => true
  | _ => false

/-- The turns that are left besides those for the heap: one for each of the two loops
to end, and one for the entry that a periodic timer stores when it returns. -/
def Control.turns : Control κ → Nat
  | .idle => 0
  | .rearming _ => 1
  | .draining .. => 2
  | .callback _ _ e => 2 + if 0 < e.intervalNs then 1 else 0

def work (s : State pq) : Nat := heapSize s.timer + s.control.turns

/-- The callbacks that are left in a drain. -/
def due (s : State pq) : Nat :=
  match s.control with
  | .draining now _ | .callback now _ _ => dueBy now s.timer
  | _ => 0

/-- The entries that a drain finds due when it begins. -/
def starts (s : State pq) (l : Label κ) : Nat :=
  (machine pq).shows Event.isBegan s l * dueBy s.clock s.timer

/-- Whether a callback stores an entry that is due in the drain. -/
def early (s : State pq) : Label κ → Nat
  | .schedule d _ | .schedulePeriodic d _ =>
    match s.control with
    | .callback now _ _ => if s.clock + d ≤ now then 1 else 0
    | _ => 0
  | _ => 0

/-- A turn takes an entry off the heap, or ends a loop. -/
theorem Moves.turns (h : Moves s l u o) : l.isNext.toNat + work u ≤
    work s + (l.isSchedule.toNat + o.countP Event.isInvoked + 2 * o.countP Event.isBegan) := by
  cases h with
  | elapse | pending | polled | failed =>
    simp [Label.isNext, work]
  | @schedule t clock c hc d cb =>
    simp only [work, EpollTimer.schedule, heapSize_add, Label.isNext, Label.isSchedule,
      Bool.toNat_false, Bool.toNat_true]
    omega
  | @schedulePeriodic t clock c hc i cb =>
    simp only [work, EpollTimer.schedulePeriodic, heapSize_add, Label.isNext, Label.isSchedule,
      Bool.toNat_false, Bool.toNat_true]
    omega
  | @cancel t clock c hc id =>
    rw [work, (of_heap_eq (cancel_frame t id).1 0).1]
    simp [Label.isNext, work]
  | @readable t clock a ht ha overruns =>
    have hsame : heapSize (t.consume overruns) = heapSize t := (of_heap_eq rfl 0).1
    rw [work, hsame]
    simp [Label.isNext, work, Control.turns, Event.isBegan]
  | drainExpired t clock => simp [Label.isNext, work, Control.turns, Event.isBegan]
  | emptied htop | notYet htop hstale hlate | drained htop =>
    simp [Label.isNext, work, Control.turns]
    omega
  | purge htop hstale | rearmPurge htop hstale =>
    simp only [work, heapSize_pop htop, Label.isNext, Bool.toNat_true, Control.turns]
    omega
  | @invoke t clock now count top htop hstale hdue =>
    have htake : heapSize (t.take top) = heapSize t.pop := rfl
    simp only [work, heapSize_pop htop, htake, Label.isNext, Bool.toNat_true, Control.turns,
      List.countP_singleton, Event.isInvoked, if_true]
    split <;> omega
  | @rearm t t' clock count top htop hstale ht =>
    rw [work, (of_heap_eq (rearmTimerfd_frame ht).1 0).1]
    simp [Label.isNext, work, Control.turns]
    omega
  | rearmThrew htop hstale ht =>
    simp [Label.isNext, work, Control.turns]
    omega
  | ret t clock now count e =>
    simp only [work, heapSize_afterCallback, Label.isNext, Bool.toNat_false, Control.turns]
    omega
  | throw t clock now count e =>
    simp only [work, Label.isNext, Bool.toNat_false, Control.turns]
    omega

/-- A callback is invoked for an entry that is due. -/
theorem Moves.calls (h : Moves s l u o) :
    o.countP Event.isInvoked + due u ≤
      due s + (o.countP Event.isBegan * dueBy s.clock s.timer + early s l) := by
  cases h with
  | elapse | pending | polled | failed => simp [due, Event.isInvoked]
  | @schedule t clock c hc d cb =>
    have hnone : (outcome (t.schedule clock d cb).2 (.scheduled d cb)).countP
        Event.isInvoked = 0 := by
      unfold outcome
      split <;> rfl
    rw [hnone]
    cases c with
    | idle => exact Nat.le_add_right _ _
    | callback now count e =>
      simp only [due, EpollTimer.schedule, dueBy_add, early]
      omega
    | _ => cases hc
  | @schedulePeriodic t clock c hc i cb =>
    have hnone : (outcome (t.schedulePeriodic clock i cb).2 (.scheduledPeriodic i cb)).countP
        Event.isInvoked = 0 := by
      unfold outcome
      split <;> rfl
    rw [hnone]
    cases c with
    | idle => exact Nat.le_add_right _ _
    | callback now count e =>
      simp only [due, EpollTimer.schedulePeriodic, dueBy_add, early]
      omega
    | _ => cases hc
  | @cancel t clock c hc id =>
    have hsame : due ⟨(t.cancel id).2, clock, c⟩ = due ⟨t, clock, c⟩ := by
      unfold due
      cases c <;> first | rfl | exact (of_heap_eq (cancel_frame t id).1 _).2
    rw [hsame]
    simp [Event.isInvoked]
  | @readable t clock a ht ha overruns =>
    have hsame : dueBy clock (t.consume overruns) = dueBy clock t := (of_heap_eq rfl _).2
    simp [due, Event.isInvoked, Event.isBegan, hsame]
  | drainExpired t clock => simp [due, Event.isInvoked, Event.isBegan]
  | emptied | notYet | drained => exact Nat.zero_le _
  | rearmPurge | rearm | rearmThrew => exact Nat.zero_le _
  | purge htop hstale =>
    simp only [due, dueBy_pop htop, List.countP_nil]
    omega
  | @invoke t clock now count top htop hstale hdue =>
    have htake : dueBy now (t.take top) = dueBy now t.pop := rfl
    simp only [due, dueBy_pop htop, htake, if_pos hdue, List.countP_singleton, Event.isInvoked,
      if_true]
    omega
  | ret t clock now count e =>
    simp [due, dueBy_afterCallback, Event.isInvoked]
  | throw => exact Nat.zero_le _

/-! ### Every run -/

/-- The clock has not gone back since the drain has read it. -/
def Timely (s : State pq) : Prop :=
  match s.control with
  | .draining now _ | .callback now _ _ => now ≤ s.clock
  | _ => True

theorem Timely.step (h : Timely s) (hm : Moves s l u o) : Timely u := by
  cases hm with
  | elapse t clock c ns =>
    cases c <;> simp only [Timely] at h ⊢ <;> omega
  | schedule | schedulePeriodic | cancel | pending | polled | failed => exact h
  | readable | drainExpired => exact le_rfl
  | purge | invoke | ret => exact h
  | _ => trivial

def Label.Positive : Label κ → Prop
  | .schedule d _ | .schedulePeriodic d _ => 0 < d
  | _ => True

theorem early_eq_zero (h : Timely s) (hl : l.Positive) : early s l = 0 := by
  cases l with
  | schedule d cb | schedulePeriodic d cb =>
    have hd : 0 < d := hl
    unfold early
    dsimp only
    split
    · rename_i hc
      rw [Timely, hc] at h
      rw [if_neg (by omega)]
    · rfl
  | _ => rfl

theorem countP_isBegan (h : .drainBegan ∉ o) : o.countP Event.isBegan = 0 := by
  rw [List.countP_eq_zero]
  intro e he
  cases e with
  | drainBegan => exact absurd he h
  | _ => exact Bool.false_ne_true

/-- What the loops of `drain_expired` do from `s` on, as long as nothing overflows. -/
structure DrainWork (s : State pq) : Prop where
  turns : ∀ ls t os, (machine pq).ExecOk NoOverflow s ls → (machine pq).exec s ls = some (t, os) →
    ls.countP Label.isNext + work t ≤ work s + (ls.countP Label.isSchedule +
      os.countP Event.isInvoked + 2 * os.countP Event.isBegan)
  calls : ∀ ls t os, (machine pq).ExecOk NoOverflow s ls → (machine pq).exec s ls = some (t, os) →
    os.countP Event.isInvoked + due t ≤
      due s + ((machine pq).tally starts s ls + (machine pq).tally early s ls)
  ends : ∀ ls t os, (machine pq).ExecOk NoOverflow s ls → (machine pq).exec s ls = some (t, os) →
    (∀ l ∈ ls, l.Positive) → .drainBegan ∉ os → os.countP Event.isInvoked ≤ due s ∧
      ls.countP Label.isNext ≤ work s + ls.countP Label.isSchedule + due s

theorem turns_le {ls : List (Label κ)} (h : (machine pq).exec s ls = some (u, os)) :
    ls.countP Label.isNext + work u ≤ work s + (ls.countP Label.isSchedule +
      os.countP Event.isInvoked + 2 * os.countP Event.isBegan) := by
  have hle := Lib.Machine.tally_le (m := machine pq) (I := fun _ => True) (A := anyStep) (r := work)
    (w := fun _ l => l.isNext.toNat)
    (c := fun s l => l.isSchedule.toNat + (machine pq).shows Event.isInvoked s l +
      2 * (machine pq).shows Event.isBegan s l)
    (fun s l t o _ _ hst => by
      rw [shows_eq hst, shows_eq hst]
      exact ⟨trivial, (step_moves hst).turns⟩)
    trivial (execOk_of_forall (fun _ _ _ => trivial) s) h
  rwa [tally_add, tally_add, tally_mul, tally_labels h, tally_labels h, tally_shown h,
    tally_shown h] at hle

theorem Timely.invoked_le (ht : Timely s) {ls : List (Label κ)}
    (h : (machine pq).exec s ls = some (u, os)) (hpos : ∀ l ∈ ls, l.Positive)
    (hbegan : .drainBegan ∉ os) : os.countP Event.isInvoked + due u ≤ due s := by
  have hok : (machine pq).ExecOk (fun s l => l.Positive ∧
      ∀ u o, (machine pq).step s l = some (u, o) → ∀ e ∈ o, e ≠ .drainBegan) s ls :=
    execOk_of_exec h (fun _ => hpos) (by rintro _ he rfl; exact hbegan he)
  have hle := tally_le_rank (m := machine pq) (I := Timely) (r := due)
    (w := (machine pq).shows Event.isInvoked)
    (fun s l t o ht hl hst => by
      obtain ⟨hl, hshown⟩ := hl
      have hcalls := (step_moves hst).calls
      rw [countP_isBegan fun he => hshown t o hst _ he rfl, early_eq_zero ht hl] at hcalls
      rw [shows_eq hst]
      exact ⟨ht.step (step_moves hst), by omega⟩) ht hok h
  rwa [tally_shown h] at hle

/-- **The work of the drains** is what has been stored, and the callbacks are those of
the entries that were due; with positive delays every drain ends. -/
theorem drain_work {clock : Nat}
    (h : (machine pq).Run NoOverflow (init clock) os s) : DrainWork s := by
  have h0 : Timely (init clock : State pq) := trivial
  have ht : Timely s := h.keeps h0 fun _ _ _ _ ht _ hst => ht.step (step_moves hst)
  refine ⟨fun ls t os _ hexec => turns_le hexec, fun ls t os _ hexec => ?_,
    fun ls t os _ hexec hpos hb => ?_⟩
  · have hle := Lib.Machine.tally_le (m := machine pq) (I := fun _ => True) (A := anyStep)
      (r := due) (w := (machine pq).shows Event.isInvoked) (c := fun s l => starts s l + early s l)
      (fun s l t o _ _ hst => by
        rw [starts, shows_eq hst, shows_eq hst]
        exact ⟨trivial, (step_moves hst).calls⟩)
      trivial (execOk_of_forall (fun _ _ _ => trivial) s) hexec
    rwa [tally_shown hexec, tally_add] at hle
  · have hinvoked := ht.invoked_le hexec hpos hb
    have hturns := turns_le hexec
    rw [countP_isBegan hb] at hturns
    exact ⟨by omega, by omega⟩

/-- Two timers of three are due when the drain begins, one of them periodic. -/
theorem drain_work_two : ∃ s os, (machine (sortedHeap Nat)).Run NoOverflow (init 0) os s ∧
    s.control = .draining 10 0 ∧ work s = 5 ∧ due s = 2 ∧ DrainWork s := by
  let ls : List (Label Nat) := [.schedule 5 1, .schedulePeriodic 3 2, .schedule 20 3, .elapse 10,
    .drainExpired]
  have hexec : ((machine (sortedHeap Nat)).exec (init 0) ls).map
        (fun p => ((p.1.control, work p.1, due p.1), p.2)) =
      some ((.draining 10 0, 5, 2), [.scheduled 5 1 1, .scheduledPeriodic 3 2 2,
        .scheduled 20 3 3, .elapsed 10, .drainBegan]) := by
    decide +kernel
  have hok : (machine (sortedHeap Nat)).ExecOk NoOverflow (init 0) ls := by decide +kernel
  obtain ⟨s, hrun, hs⟩ := exists_run_of_exec
    (fun s : State (sortedHeap Nat) => (s.control, work s, due s)) hok hexec
  obtain ⟨hcontrol, hs⟩ := Prod.mk.inj hs
  obtain ⟨hwork, hdue⟩ := Prod.mk.inj hs
  exact ⟨s, _, hrun, hcontrol, hwork, hdue, drain_work hrun⟩

end HftComponents.Timer.Epoll
