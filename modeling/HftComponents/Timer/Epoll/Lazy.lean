import Mathlib.Data.Multiset.MapFold
import HftComponents.Timer.Epoll.Wakeup

/-!
# The heap, the map, and the entries that are gone

No id stands twice in the heap, and the entry of a live timer is in the heap
(`Lazy`).  So an entry that `active_` confirms by its expiry *is* the live
entry: the comparison of expiries in `drain_expired` never takes a cancelled
timer for a live one (`Lazy.lookup_of_not_stale`).

`Sound.step` carries this through every step, for runs that hand out no id
twice; ids that the heap still knows are ids that were handed out.
-/

namespace HftComponents.Timer.Epoll

open Lib EpollTimer

variable {κ : Type} {pq : PriorityQueue (Entry κ) Entry.expiryNs} {t : EpollTimer pq}
  {s u : State pq} {os o : List (Event κ)}

/-! ### The heap and the map -/

/-- No id stands twice in the heap, and the entry of a live timer is there. -/
structure Lazy (t : EpollTimer pq) : Prop where
  nodup : ((pq.elems t.heap).map Entry.id).Nodup
  live : ∀ id e, t.active.lookup id = some e → e.id = id ∧ e ∈ pq.elems t.heap

namespace Lazy

theorem of_eq {t' : EpollTimer pq} (h : Lazy t) (hh : t'.heap = t.heap)
    (ha : t'.active = t.active) : Lazy t' where
  nodup := by rw [hh]; exact h.nodup
  live := by rw [hh, ha]; exact h.live

/-- **An entry that the map confirms is the live entry.** -/
theorem lookup_of_not_stale (h : Lazy t) {m : Entry κ} (hm : m ∈ pq.elems t.heap)
    (hstale : t.stale m = false) : t.active.lookup m.id = some m := by
  obtain ⟨e, he, -⟩ := stale_eq_false.mp hstale
  obtain ⟨hid, hmem⟩ := h.live m.id e he
  rw [he, Multiset.inj_on_of_nodup_map h.nodup e hmem m hm hid]

theorem store (h : Lazy t) {e : Entry κ} (hid : e.id ∉ (pq.elems t.heap).map Entry.id) :
    Lazy (t.store e) where
  nodup := by
    show ((pq.elems (pq.push t.heap e)).map Entry.id).Nodup
    rw [pq.elems_push, Multiset.map_cons]
    exact Multiset.nodup_cons.mpr ⟨hid, h.nodup⟩
  live := by
    intro id e' he'
    by_cases heq : id = e.id
    · subst heq
      rw [EpollTimer.store, AList.lookup_insert] at he'
      obtain rfl := Option.some.inj he'
      exact ⟨rfl, pq.mem_push.mpr (Or.inl rfl)⟩
    · rw [EpollTimer.store, AList.lookup_insert_ne heq] at he'
      obtain ⟨hid', hmem⟩ := h.live id e' he'
      exact ⟨hid', pq.mem_push.mpr (Or.inr hmem)⟩

theorem erase {t' : EpollTimer pq} {id : TimerID} (h : Lazy t) (hh : t'.heap = t.heap)
    (ha : t'.active = t.active.erase id) : Lazy t' where
  nodup := by rw [hh]; exact h.nodup
  live := by
    intro id' e he
    rw [ha] at he
    rw [hh]
    by_cases heq : id' = id
    · subst heq
      rw [AList.lookup_erase] at he
      cases he
    · exact h.live id' e ((AList.lookup_erase_ne heq).symm.trans he)

theorem cancel (h : Lazy t) (id : TimerID) : Lazy (t.cancel id).2 := by
  rw [EpollTimer.cancel]
  cases t.active.lookup id with
  | none => exact h
  | some _ => exact h.erase rfl rfl

theorem nodup_pop (h : Lazy t) {top : Entry κ} (htop : pq.top t.heap = some top) :
    top.id ∉ (pq.elems (pq.pop t.heap)).map Entry.id ∧
      ((pq.elems (pq.pop t.heap)).map Entry.id).Nodup := by
  have hnd := h.nodup
  rw [pq.elems_pop _ _ htop, Multiset.map_cons] at hnd
  exact Multiset.nodup_cons.mp hnd

theorem pop (h : Lazy t) {top : Entry κ} (htop : pq.top t.heap = some top)
    (hlive : ∀ id, t.active.lookup id ≠ some top) : Lazy t.pop where
  nodup := (h.nodup_pop htop).2
  live := by
    intro id e he
    obtain ⟨hid, hmem⟩ := h.live id e he
    refine ⟨hid, pq.mem_pop_of_ne htop hmem ?_⟩
    rintro rfl
    exact hlive id he

theorem purge (h : Lazy t) {top : Entry κ} (htop : pq.top t.heap = some top)
    (hstale : t.stale top = true) : Lazy t.pop := by
  apply h.pop htop
  intro id he
  obtain ⟨rfl, -⟩ := h.live id top he
  have hlive : t.stale top = false := stale_eq_false.mpr ⟨top, he, rfl⟩
  rw [hstale] at hlive
  cases hlive

theorem take (h : Lazy t) {top : Entry κ} (htop : pq.top t.heap = some top) :
    Lazy (t.take top) := by
  have h' : Lazy ({ t with active := t.active.erase top.id } : EpollTimer pq) :=
    h.erase rfl rfl
  refine (h'.pop htop ?_).of_eq rfl rfl
  intro id he
  obtain ⟨rfl, -⟩ := h'.live id top he
  rw [AList.lookup_erase] at he
  cases he

theorem add (h : Lazy t) {now d i : Int} {cb : κ}
    (hid : t.nextId ∉ (pq.elems t.heap).map Entry.id) : Lazy (t.add now d i cb).1 := by
  obtain ⟨hheap, hactive, -⟩ := add_frame t now d i cb
  refine Lazy.of_eq (t := t.issue (now + d) i cb) ?_ hheap hactive
  have hn : Lazy { t with nextId := t.nextId + 1 } := h.of_eq rfl rfl
  exact hn.store hid

end Lazy

/-! ### Arming does not fail -/

theorem rearmTimerfd_of_nonneg {x : Int} (hx : 0 ≤ x) : ∃ t', t.rearmTimerfd x = some t' := by
  rw [rearmTimerfd, settime_toItimerspec, if_neg (by omega)]
  by_cases h0 : x = 0
  · rw [if_pos h0]
    exact ⟨_, rfl⟩
  · rw [if_neg h0]
    exact ⟨_, rfl⟩

theorem add_snd_of_nonneg {now d : Int} (i : Int) (cb : κ) (hx : 0 ≤ now + d) :
    (t.add now d i cb).2 = some t.nextId := by
  rcases add_cases t now d i cb with ⟨-, h⟩ | ⟨-, h⟩
  · rw [h]
  · obtain ⟨t', ht⟩ := rearmTimerfd_of_nonneg (t := t.issue (now + d) i cb) hx
    rw [h, ht]

/-- A delay that is not negative is no error. -/
theorem schedule_snd (t : EpollTimer pq) (clock : Nat) {d : Int} (cb : κ) (hd : 0 ≤ d) :
    0 ≤ (clock : Int) + d ∧ (t.schedule clock d cb).2 = some t.nextId := by
  have hx : 0 ≤ (clock : Int) + d := by omega
  exact ⟨hx, add_snd_of_nonneg 0 cb hx⟩

theorem schedulePeriodic_snd (t : EpollTimer pq) (clock : Nat) {i : Int} (cb : κ) (hi : 0 < i) :
    0 ≤ (clock : Int) + i ∧ (t.schedulePeriodic clock i cb).2 = some t.nextId := by
  have hx : 0 ≤ (clock : Int) + i := by omega
  exact ⟨hx, add_snd_of_nonneg i cb hx⟩

/-! ### The states of a run -/

theorem issued_append (a b : List (Event κ)) : issued (a ++ b) = issued a ++ issued b :=
  List.filterMap_append

theorem nodup_issued_left (a b : List (Event κ)) (h : (issued (a ++ b)).Nodup) :
    (issued a).Nodup := by
  rw [issued_append] at h
  exact h.of_append_left

/-- The timer whose callback is on has left the heap, and it was due. -/
structure Running (s : State pq) (os : List (Event κ)) (now : Int) (e : Entry κ) : Prop where
  known : e.id ∈ issued os
  absent : e.id ∉ (pq.elems s.timer.heap).map Entry.id
  nonneg : 0 ≤ e.expiryNs
  due : e.expiryNs ≤ now

structure Sound (os : List (Event κ)) (s : State pq) : Prop where
  lazy : Lazy s.timer
  nonneg : ∀ e ∈ pq.elems s.timer.heap, 0 ≤ e.expiryNs
  known : ∀ e ∈ pq.elems s.timer.heap, e.id ∈ issued os
  running : ∀ now count e, s.control = .callback now count e → Running s os now e

/-- Delays are not negative, intervals are positive, and callbacks return. -/
def Sane (_ : State pq) : Label κ → Prop
  | .schedule d _ => 0 ≤ d
  | .schedulePeriodic i _ => 0 < i
  | .throw => False
  | .elapse _ | .cancel _ | .pending | .runOnce _ | .drainExpired | .next | .ret => True

instance (s : State pq) : ∀ l : Label κ, Decidable (Sane s l)
  | .schedule d _ => inferInstanceAs (Decidable (0 ≤ d))
  | .schedulePeriodic i _ => inferInstanceAs (Decidable (0 < i))
  | .throw => isFalse id
  | .elapse _ | .cancel _ | .pending | .runOnce _ | .drainExpired | .next | .ret => isTrue trivial

theorem sound_init (clock : Nat) : Sound [] (init clock : State pq) where
  lazy := by
    refine ⟨?_, ?_⟩
    · rw [init, pq.elems_empty]
      exact Multiset.nodup_zero
    · intro id e he
      cases he
  nonneg := by
    rw [init, pq.elems_empty]
    intro e he
    exact absurd he (Multiset.notMem_zero e)
  known := by
    rw [init, pq.elems_empty]
    intro e he
    exact absurd he (Multiset.notMem_zero e)
  running := nofun

namespace Sound

theorem more {t' : EpollTimer pq} {clock clock' : Nat} {c c' : Control κ}
    (h : Sound os ⟨t, clock, c⟩) (hh : t'.heap = t.heap) (hl : Lazy t')
    (hc : ∀ now count e, c' = .callback now count e → c = .callback now count e) :
    Sound (os ++ o) ⟨t', clock', c'⟩ where
  lazy := hl
  nonneg := by rw [hh]; exact h.nonneg
  known := by
    rw [hh, issued_append]
    intro e he
    exact List.mem_append_left _ (h.known e he)
  running := by
    intro now count e hc'
    obtain ⟨hk, ha, hn, hd⟩ := h.running now count e (hc now count e hc')
    refine ⟨?_, ?_, hn, hd⟩
    · rw [issued_append]
      exact List.mem_append_left _ hk
    · show e.id ∉ (pq.elems t'.heap).map Entry.id
      rw [hh]
      exact ha

theorem popped {t' : EpollTimer pq} {clock : Nat} {c c' : Control κ} {top : Entry κ}
    (h : Sound os ⟨t, clock, c⟩) (htop : pq.top t.heap = some top) (hh : t'.heap = pq.pop t.heap)
    (hl : Lazy t') (hc : ∀ now count e, c' ≠ .callback now count e) :
    Sound (os ++ []) ⟨t', clock, c'⟩ where
  lazy := hl
  nonneg := by
    rw [hh]
    intro e he
    exact h.nonneg e (pq.mem_of_mem_pop htop he)
  known := by
    rw [hh, List.append_nil]
    intro e he
    exact h.known e (pq.mem_of_mem_pop htop he)
  running := by
    intro now count e hc'
    exact absurd hc' (hc now count e)

theorem add {clock : Nat} {c : Control κ} (h : Sound os ⟨t, clock, c⟩) {now d : Int} (i : Int)
    (cb : κ) (hx : 0 ≤ now + d) (hnew : t.nextId ∉ issued os) {o : List (Event κ)}
    (ho : t.nextId ∈ issued o) : Sound (os ++ o) ⟨(t.add now d i cb).1, clock, c⟩ := by
  have hid : t.nextId ∉ (pq.elems t.heap).map Entry.id := by
    intro hm
    obtain ⟨e, he, heq⟩ := Multiset.mem_map.mp hm
    exact hnew (heq ▸ h.known e he)
  have hheap : (t.add now d i cb).1.heap = pq.push t.heap ⟨t.nextId, now + d, i, cb⟩ :=
    (add_frame t now d i cb).1
  refine ⟨h.lazy.add hid, ?_, ?_, ?_⟩
  · intro e he
    rw [hheap] at he
    rcases pq.mem_push.mp he with rfl | he
    · exact hx
    · exact h.nonneg e he
  · intro e he
    rw [hheap] at he
    rw [issued_append]
    rcases pq.mem_push.mp he with rfl | he
    · exact List.mem_append_right _ ho
    · exact List.mem_append_left _ (h.known e he)
  · intro now' count e hc
    obtain ⟨hk, ha, hn, hd⟩ := h.running now' count e hc
    refine ⟨?_, ?_, hn, hd⟩
    · rw [issued_append]
      exact List.mem_append_left _ hk
    · show e.id ∉ (pq.elems (t.add now d i cb).1.heap).map Entry.id
      rw [hheap, pq.elems_push, Multiset.map_cons, Multiset.mem_cons, not_or]
      refine ⟨?_, ha⟩
      intro heq
      exact hnew ((show e.id = t.nextId from heq) ▸ hk)

/-- **One step keeps the heap and the map in order.** -/
theorem step {l : Label κ} (h : Sound os s) (hok : Sane s l) (hid : (issued (os ++ o)).Nodup)
    (hstep : step s l = some (u, o)) : Sound (os ++ o) u := by
  rw [issued_append, List.nodup_append] at hid
  cases step_moves hstep with
  | elapse t clock c ns => exact h.more rfl h.lazy fun _ _ _ hc => hc
  | @schedule t clock c _ d cb =>
    obtain ⟨hx, hr⟩ := schedule_snd t clock cb hok
    rw [hr] at hid ⊢
    refine h.add 0 cb hx ?_ List.mem_cons_self
    intro hm
    exact hid.2.2 _ hm _ List.mem_cons_self rfl
  | @schedulePeriodic t clock c _ i cb =>
    obtain ⟨hx, hr⟩ := schedulePeriodic_snd t clock cb hok
    rw [hr] at hid ⊢
    refine h.add i cb hx ?_ List.mem_cons_self
    intro hm
    exact hid.2.2 _ hm _ List.mem_cons_self rfl
  | @cancel t clock c _ id =>
    exact h.more (cancel_frame t id).1 (h.lazy.cancel id) fun _ _ _ hc => hc
  | pending | polled | failed => exact h.more rfl h.lazy fun _ _ _ hc => hc
  | @readable t clock _ _ _ overruns =>
    have hl : Lazy (t.consume overruns) := h.lazy.of_eq rfl rfl
    refine h.more rfl hl ?_
    intro _ _ _ hc
    cases hc
  | drainExpired | emptied | notYet | drained =>
    refine h.more rfl h.lazy ?_
    intro _ _ _ hc
    cases hc
  | purge htop hstale | rearmPurge htop hstale =>
    refine h.popped htop rfl (h.lazy.purge htop hstale) ?_
    intro _ _ _ hc
    cases hc
  | @invoke t clock now count top htop hstale hdue =>
    have hp : Sound (os ++ []) ⟨t.take top, clock, .idle⟩ := by
      refine h.popped htop rfl (h.lazy.take htop) ?_
      intro _ _ _ hc
      cases hc
    rw [List.append_nil] at hp
    refine ⟨hp.lazy, hp.nonneg, ?_, ?_⟩
    · rw [issued_append]
      intro e he
      exact List.mem_append_left _ (hp.known e he)
    · intro _ _ _ hc
      obtain ⟨rfl, -, rfl⟩ := Control.callback.inj hc
      have hmem := pq.top_mem htop
      refine ⟨?_, (h.lazy.nodup_pop htop).1, h.nonneg _ hmem, hdue⟩
      rw [issued_append]
      exact List.mem_append_left _ (h.known _ hmem)
  | rearm htop hstale ht =>
    obtain ⟨hheap, hactive, -⟩ := rearmTimerfd_frame ht
    refine h.more hheap (h.lazy.of_eq hheap hactive) ?_
    intro _ _ _ hc
    cases hc
  | rearmThrew htop hstale ht =>
    obtain ⟨t', ht'⟩ := rearmTimerfd_of_nonneg (h.nonneg _ (pq.top_mem htop))
    rw [ht] at ht'
    cases ht'
  | ret t clock now count e =>
    obtain ⟨hk, ha, hn, hd⟩ := h.running now count e rfl
    rw [afterCallback]
    by_cases hi : 0 < e.intervalNs
    · rw [if_pos hi]
      have hl : Lazy { t with stats := { t.stats with fired := t.stats.fired + 1 } } :=
        h.lazy.of_eq rfl rfl
      refine ⟨hl.store (e := nextPeriod now e) ha, ?_, ?_, ?_⟩
      · intro m hm
        rcases pq.mem_push.mp hm with rfl | hm
        · exact le_trans (by omega) (le_catchUp hi.le _ _)
        · exact h.nonneg m hm
      · intro m hm
        rw [issued_append]
        rcases pq.mem_push.mp hm with rfl | hm
        · exact List.mem_append_left _ hk
        · exact List.mem_append_left _ (h.known m hm)
      · intro _ _ _ hc
        cases hc
    · rw [if_neg hi]
      refine h.more (t := t) rfl (h.lazy.of_eq rfl rfl) ?_
      intro _ _ _ hc
      cases hc
  | throw => exact False.elim hok

end Sound

end HftComponents.Timer.Epoll
