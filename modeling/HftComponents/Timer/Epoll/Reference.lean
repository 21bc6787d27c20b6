import Mathlib.Data.Set.Card
import Mathlib.Tactic.Ring
import HftComponents.Timer.Epoll.Lazy

/-!
# Lazy deletion agrees with eager deletion

`Reference` is the timer without a heap: a map from an id to an expiry and an
interval, from which `cancel` removes at once.  A drain fires a timer of least
expiry as long as one is due (`Follows`).

`epoll_follows` is the refinement, for runs that hand out no id twice and in which
no sum of times leaves `int64_t`, together with what it rests on: a heap entry that
is not stale is the live entry of its id, and no live timer is without its heap
entry.  Without the condition on ids it fails (`stale_entry_revived`): the heap may
still hold the entry of a cancelled timer when its id comes back.
-/

namespace HftComponents.Timer.Epoll

open Lib Lib.Machine EpollTimer

variable {κ : Type} {pq : PriorityQueue (Entry κ) Entry.expiryNs} {t : EpollTimer pq}
  {s u : State pq} {os o : List (Event κ)}

/-! ### The reference -/

structure Row (κ : Type) where
  expiryNs : Int
  intervalNs : Int
  cb : κ

/-- A drain in progress: its reading of the clock, how many callbacks have
returned, and the timer whose callback is on. -/
structure Firing (κ : Type) where
  now : Int
  count : Nat
  running : Option (TimerID × Row κ)

structure Reference (κ : Type) where
  clock : Nat
  timers : TimerID → Option (Row κ) := fun _ => none
  firing : Option (Firing κ) := none

/-- The least expiry after `now` at the cadence of the timer. -/
def Row.again (t : Row κ) (now : Int) : Row κ :=
  { t with expiryNs := t.expiryNs + t.intervalNs * ((now - t.expiryNs) / t.intervalNs + 1) }

namespace Reference

noncomputable def size (r : Reference κ) : Nat := {id | r.timers id ≠ none}.ncard

def set (r : Reference κ) (id : TimerID) (t : Option (Row κ)) : Reference κ :=
  { r with timers := Function.update r.timers id t }

/-- What the reference does on an event. -/
inductive Follows : Reference κ → Event κ → Reference κ → Prop
  | elapsed (r : Reference κ) (ns : Nat) :
      Follows r (.elapsed ns) { r with clock := r.clock + ns }
  | scheduled (r : Reference κ) (d : Int) (cb : κ) (id : TimerID) :
      Follows r (.scheduled d cb id) (r.set id (some ⟨r.clock + d, 0, cb⟩))
  | scheduledPeriodic (r : Reference κ) (i : Int) (cb : κ) (id : TimerID) :
      Follows r (.scheduledPeriodic i cb id) (r.set id (some ⟨r.clock + i, i, cb⟩))
  | cancelled (r : Reference κ) (id : TimerID) :
      Follows r (.cancelled id (r.timers id).isSome) (r.set id none)
  | counted (r : Reference κ) : Follows r (.counted r.size) r
  | polled (r : Reference κ) (hf : r.firing = none) : Follows r .polled r
  | pollFailed (r : Reference κ) (hf : r.firing = none) : Follows r .pollFailed r
  | drainBegan (r : Reference κ) (hf : r.firing = none) :
      Follows r .drainBegan { r with firing := some ⟨r.clock, 0, none⟩ }
  | invoked (r : Reference κ) {f : Firing κ} {id : TimerID} {t : Row κ} (hf : r.firing = some f)
      (hrun : f.running = none) (ht : r.timers id = some t) (hdue : t.expiryNs ≤ f.now)
      (hleast : ∀ id' t', r.timers id' = some t' → t.expiryNs ≤ t'.expiryNs) :
      Follows r (.invoked id t.expiryNs t.cb)
        { r.set id none with firing := some ⟨f.now, f.count, some (id, t)⟩ }
  | returned (r : Reference κ) {f : Firing κ} {id : TimerID} {t : Row κ} (hf : r.firing = some f)
      (hrun : f.running = some (id, t)) :
      Follows r .returned
        { (if 0 < t.intervalNs then r.set id (some (t.again f.now)) else r) with
          firing := some ⟨f.now, f.count + 1, none⟩ }
  | drained (r : Reference κ) {f : Firing κ} (hf : r.firing = some f) (hrun : f.running = none)
      (hlate : ∀ id t, r.timers id = some t → f.now < t.expiryNs) :
      Follows r (.drained f.count) { r with firing := none }

end Reference

open Reference

/-! ### The catch-up -/

theorem next_of_lt {now i x : Int} (hx : x ≤ now) (h : now < x + i) :
    x + i = x + i * ((now - x) / i + 1) := by
  rw [Int.ediv_eq_zero_of_lt (by omega) (by omega), zero_add, mul_one]

theorem catchUp_eq {now i : Int} (hi : 0 < i) (fuel : Nat) (x : Int) (hx : x ≤ now)
    (hfuel : (now + 1 - (x + i)).toNat ≤ fuel) :
    catchUp now i fuel (x + i) = x + i * ((now - x) / i + 1) := by
  induction fuel generalizing x with
  | zero => exact next_of_lt hx (by omega)
  | succ fuel ih =>
    rw [catchUp]
    by_cases hle : x + i ≤ now
    · have hdiv : (now - x) / i = (now - (x + i)) / i + 1 := by
        rw [← Int.add_mul_ediv_right _ 1 hi.ne']
        congr 1
        ring
      rw [if_pos hle, ih (x + i) hle (by omega), hdiv]
      ring
    · rw [if_neg hle]
      exact next_of_lt hx (by omega)

def rowOf (e : Entry κ) : Row κ := ⟨e.expiryNs, e.intervalNs, e.cb⟩

theorem rowOf_nextPeriod {now : Int} {e : Entry κ} (hi : 0 < e.intervalNs)
    (hle : e.expiryNs ≤ now) : rowOf (nextPeriod now e) = (rowOf e).again now := by
  rw [nextPeriod, rowOf, Row.again, rowOf]
  dsimp only
  rw [catchUp_eq hi _ _ hle le_rfl]

/-! ### What ties a timer to the reference -/

/-- Where the thread is and what the reference is doing.  The second loop of
`drain_expired` starts when no live timer is due any more. -/
def InStep : Control κ → Reference κ → Prop
  | .idle, r => r.firing = none
  | .draining now count, r => r.firing = some ⟨now, count, none⟩
  | .callback now count e, r => r.firing = some ⟨now, count, some (e.id, rowOf e)⟩
  | .rearming count, r =>
    ∃ now, r.firing = some ⟨now, count, none⟩ ∧ ∀ id t, r.timers id = some t → now < t.expiryNs

structure Agrees (s : State pq) (r : Reference κ) : Prop where
  clock : r.clock = s.clock
  tracks : ∀ id, r.timers id = (s.timer.active.lookup id).map rowOf
  control : InStep s.control r

theorem agrees_init (clock : Nat) : Agrees (init clock : State pq) { clock := clock } :=
  ⟨rfl, fun _ => rfl, rfl⟩

theorem map_lookup_insert (m : AList fun _ : TimerID => Entry κ) (e : Entry κ) (id : TimerID) :
    ((m.insert e.id e).lookup id).map rowOf =
      Function.update (fun id => (m.lookup id).map rowOf) e.id (some (rowOf e)) id := by
  by_cases h : id = e.id
  · subst h
    rw [AList.lookup_insert, Function.update_self, Option.map_some]
  · rw [AList.lookup_insert_ne h, Function.update_of_ne h]

theorem map_lookup_erase (m : AList fun _ : TimerID => Entry κ) (k id : TimerID) :
    ((m.erase k).lookup id).map rowOf =
      Function.update (fun id => (m.lookup id).map rowOf) k none id := by
  by_cases h : id = k
  · subst h
    rw [AList.lookup_erase, Function.update_self, Option.map_none]
  · rw [AList.lookup_erase_ne h, Function.update_of_ne h]

theorem InStep.set {c : Control κ} {r : Reference κ} (h : InStep c r) (hc : c.open = true)
    (id : TimerID) (t : Option (Row κ)) : InStep c (r.set id t) := by
  cases c with
  | idle | callback => exact h
  | draining | rearming => cases hc

namespace Agrees

variable {r : Reference κ} {clock : Nat} {c : Control κ}

theorem timers_eq (h : Agrees s r) :
    r.timers = fun id => (s.timer.active.lookup id).map rowOf := funext h.tracks

theorem size_eq (h : Agrees s r) : r.size = s.timer.pending := by
  have hset : {id | r.timers id ≠ none} = (s.timer.active.keys.toFinset : Set TimerID) := by
    ext id
    rw [Set.mem_ofPred_eq, h.tracks, Ne, Option.map_eq_none_iff, AList.lookup_eq_none, not_not,
      List.coe_toFinset, Set.mem_ofPred_eq, AList.mem_keys]
  rw [Reference.size, hset, Set.ncard_coe_finset,
    List.toFinset_card_of_nodup s.timer.active.keys_nodup, pending]

theorem add (h : Agrees ⟨t, clock, c⟩ r) (hc : c.open = true) (now d i : Int) (cb : κ) :
    Agrees ⟨(t.add now d i cb).1, clock, c⟩ (r.set t.nextId (some ⟨now + d, i, cb⟩)) where
  clock := h.clock
  tracks := by
    intro id
    obtain ⟨-, hactive, -⟩ := add_frame t now d i cb
    rw [hactive]
    refine Eq.trans ?_ (map_lookup_insert t.active ⟨t.nextId, now + d, i, cb⟩ id).symm
    rw [Reference.set, h.timers_eq]
    rfl
  control := h.control.set hc _ _

theorem cancel (h : Agrees ⟨t, clock, c⟩ r) (hc : c.open = true) (id : TimerID) :
    (r.timers id).isSome = (t.cancel id).1 ∧ Agrees ⟨(t.cancel id).2, clock, c⟩ (r.set id none) := by
  have hid : r.timers id = (t.active.lookup id).map rowOf := h.tracks id
  cases hl : t.active.lookup id with
  | none =>
    rw [hl, Option.map_none] at hid
    rw [EpollTimer.cancel, hl, hid]
    refine ⟨rfl, h.clock, ?_, h.control.set hc _ _⟩
    intro id'
    rw [Reference.set, ← hid, Function.update_eq_self]
    exact h.tracks id'
  | some e =>
    rw [hl, Option.map_some] at hid
    rw [EpollTimer.cancel, hl, hid]
    refine ⟨rfl, h.clock, ?_, h.control.set hc _ _⟩
    intro id'
    refine Eq.trans ?_ (map_lookup_erase t.active id id').symm
    rw [Reference.set, h.timers_eq]

theorem of_active {t' : EpollTimer pq} {c' : Control κ} (h : Agrees ⟨t, clock, c⟩ r)
    (ha : t'.active = t.active) (hc : InStep c' r) : Agrees ⟨t', clock, c'⟩ r where
  clock := h.clock
  tracks := by
    intro id
    rw [ha]
    exact h.tracks id
  control := hc

/-- **One step of the timer is followed by the reference.** -/
theorem step {l : Label κ} (h : Agrees s r) (hs : Sound os s) (hok : Sane s l)
    (hstep : step s l = some (u, o)) : ∃ r', Accepts Follows r o r' ∧ Agrees u r' := by
  cases step_moves hstep with
  | elapse t clock c ns =>
    refine ⟨_, .single (.elapsed r ns), ?_, h.tracks, ?_⟩
    · rw [h.clock]
    · have := h.control
      cases c <;> exact this
  | @schedule t clock c hc d cb =>
    obtain ⟨-, hr⟩ := schedule_snd t clock cb hok
    have hclock : r.clock = clock := h.clock
    refine ⟨_, ?_, h.add hc clock d 0 cb⟩
    rw [hr, ← hclock]
    exact .single (.scheduled r d cb _)
  | @schedulePeriodic t clock c hc i cb =>
    obtain ⟨-, hr⟩ := schedulePeriodic_snd t clock cb hok
    have hclock : r.clock = clock := h.clock
    refine ⟨_, ?_, h.add hc clock i i cb⟩
    rw [hr, ← hclock]
    exact .single (.scheduledPeriodic r i cb _)
  | @cancel t clock c hc id =>
    obtain ⟨hfound, hagrees⟩ := h.cancel hc id
    refine ⟨_, ?_, hagrees⟩
    rw [← hfound]
    exact .single (.cancelled r id)
  | pending =>
    refine ⟨r, ?_, h⟩
    rw [← h.size_eq]
    exact .single (.counted r)
  | polled => exact ⟨r, .single (.polled r h.control), h⟩
  | failed => exact ⟨r, .single (.pollFailed r h.control), h⟩
  | readable =>
    refine ⟨_, .single (.drainBegan r h.control), h.clock, h.tracks, ?_⟩
    rw [h.clock]
    rfl
  | drainExpired =>
    refine ⟨_, .single (.drainBegan r h.control), h.clock, h.tracks, ?_⟩
    rw [h.clock]
    rfl
  | @emptied t clock now count htop =>
    refine ⟨r, .nil r, h.of_active rfl ⟨now, h.control, ?_⟩⟩
    intro id row hrow
    rw [h.tracks, Option.map_eq_some_iff] at hrow
    obtain ⟨e, he, -⟩ := hrow
    have hmem := (hs.lazy.live id e he).2
    rw [pq.elems_of_top_eq_none _ htop] at hmem
    exact absurd hmem (Multiset.notMem_zero e)
  | purge => exact ⟨r, .nil r, h.of_active rfl h.control⟩
  | @notYet t clock now count top htop hstale hlate =>
    refine ⟨r, .nil r, h.of_active rfl ⟨now, h.control, ?_⟩⟩
    intro id row hrow
    rw [h.tracks, Option.map_eq_some_iff] at hrow
    obtain ⟨e, he, rfl⟩ := hrow
    exact hlate.trans_le (pq.key_top_le _ _ htop e (hs.lazy.live id e he).2)
  | @invoke t clock now count top htop hstale hdue =>
    have hlook := hs.lazy.lookup_of_not_stale (pq.top_mem htop) hstale
    have hrow : r.timers top.id = some (rowOf top) := by
      rw [h.tracks, hlook, Option.map_some]
    have hleast : ∀ id row, r.timers id = some row → (rowOf top).expiryNs ≤ row.expiryNs := by
      intro id row hid
      rw [h.tracks, Option.map_eq_some_iff] at hid
      obtain ⟨e, he, rfl⟩ := hid
      exact pq.key_top_le _ _ htop e (hs.lazy.live id e he).2
    refine ⟨_, .single (.invoked r h.control rfl hrow hdue hleast), h.clock, ?_, rfl⟩
    intro id
    refine Eq.trans ?_ (map_lookup_erase t.active top.id id).symm
    show (r.set top.id none).timers id = _
    rw [Reference.set, h.timers_eq]
  | @drained t clock count htop =>
    obtain ⟨now, hf, hlate⟩ := h.control
    exact ⟨_, .single (.drained r hf rfl hlate), h.clock, h.tracks, rfl⟩
  | rearmPurge => exact ⟨r, .nil r, h.of_active rfl h.control⟩
  | rearm htop hstale ht =>
    obtain ⟨now, hf, hlate⟩ := h.control
    refine ⟨_, .single (.drained r hf rfl hlate), h.clock, ?_, rfl⟩
    intro id
    rw [(rearmTimerfd_frame ht).2.1]
    exact h.tracks id
  | rearmThrew htop hstale ht =>
    obtain ⟨t', ht'⟩ := rearmTimerfd_of_nonneg (hs.nonneg _ (pq.top_mem htop))
    rw [ht] at ht'
    cases ht'
  | ret t clock now count e =>
    have hdue := (hs.running now count e rfl).due
    refine ⟨_, .single (.returned r h.control rfl), ?_⟩
    rw [afterCallback]
    by_cases hi : 0 < e.intervalNs
    · rw [if_pos hi, if_pos (show 0 < (rowOf e).intervalNs from hi)]
      refine ⟨h.clock, ?_, rfl⟩
      intro id
      refine Eq.trans ?_ (map_lookup_insert t.active (nextPeriod now e) id).symm
      rw [rowOf_nextPeriod hi hdue]
      show (r.set e.id _).timers id = _
      rw [Reference.set, h.timers_eq]
      rfl
    · rw [if_neg hi, if_neg (show ¬ 0 < (rowOf e).intervalNs from hi)]
      exact ⟨h.clock, h.tracks, rfl⟩
  | throw => exact False.elim hok

end Agrees

/-! ### The range of the arithmetic -/

/-- The steps of the runs that are compared. -/
def Ranged (s : State pq) (l : Label κ) : Prop := Sane s l ∧ NoOverflow s l

instance (s : State pq) (l : Label κ) : Decidable (Ranged s l) :=
  inferInstanceAs (Decidable (_ ∧ _))

def Control.count : Control κ → Nat
  | .idle => 0
  | .draining _ count | .callback _ count _ | .rearming count => count

/-- What the timer stores and counts is in the range of its types. -/
structure InRange (s : State pq) : Prop where
  heap : ∀ e ∈ pq.elems s.timer.heap, InInt64 e.expiryNs
  count : s.control.count < 2 ^ 31

/-- So is what it shows. -/
def Event.Fits : Event κ → Prop
  | .invoked _ expiryNs _ => InInt64 expiryNs
  | .drained count => count < 2 ^ 31
  | _ => True

namespace InRange

theorem of_subset (h : InRange s) (hheap : ∀ e ∈ pq.elems u.timer.heap, e ∈ pq.elems s.timer.heap)
    (hcount : u.control.count ≤ s.control.count) : InRange u :=
  ⟨fun e he => h.heap e (hheap e he), hcount.trans_lt h.count⟩

theorem add {clock : Nat} {c : Control κ} (h : InRange ⟨t, clock, c⟩) {now d : Int} (i : Int)
    (cb : κ) (hx : InInt64 (now + d)) : InRange ⟨(t.add now d i cb).1, clock, c⟩ where
  heap := by
    intro e he
    rw [(add_frame t now d i cb).1] at he
    rcases pq.mem_push.mp he with rfl | he
    · exact hx
    · exact h.heap e he
  count := h.count

theorem afterCallback {clock count : Nat} {now : Int} {e : Entry κ}
    (h : InRange ⟨t, clock, .callback now count e⟩)
    (hx : 0 < e.intervalNs → InInt64 (nextPeriod now e).expiryNs) (hcount : count + 1 < 2 ^ 31) :
    InRange ⟨t.afterCallback now e, clock, .draining now (count + 1)⟩ where
  heap := by
    intro m hm
    dsimp only at hm
    unfold EpollTimer.afterCallback at hm
    dsimp only at hm
    split at hm
    · rename_i hi
      rcases pq.mem_push.mp hm with rfl | hm
      · exact hx hi
      · exact h.heap m hm
    · exact h.heap m hm
  count := hcount

theorem step {l : Label κ} (h : InRange s) (hfit : NoOverflow s l)
    (hstep : step s l = some (u, o)) : InRange u ∧ ∀ e ∈ o, e.Fits := by
  have hone : ∀ e : Event κ, e.Fits → ∀ e' ∈ [e], e'.Fits :=
    fun _ he => List.forall_mem_singleton.mpr he
  cases step_moves hstep with
  | @schedule t clock c _ d cb =>
    refine ⟨h.add 0 cb hfit.2, ?_⟩
    unfold outcome
    split <;> exact hone _ trivial
  | @schedulePeriodic t clock c _ i cb =>
    refine ⟨h.add i cb hfit.2, ?_⟩
    unfold outcome
    split <;> exact hone _ trivial
  | cancel _ id =>
    refine ⟨h.of_subset ?_ le_rfl, hone _ trivial⟩
    rw [(cancel_frame _ id).1]
    exact fun _ he => he
  | @purge t clock now count top htop hstale | @rearmPurge t clock count top htop hstale =>
    exact ⟨h.of_subset (fun e he => pq.mem_of_mem_pop htop he) le_rfl, nofun⟩
  | @invoke t clock now count top htop hstale hdue =>
    exact ⟨h.of_subset (fun e he => pq.mem_of_mem_pop htop he) le_rfl,
      hone _ (h.heap top (pq.top_mem htop))⟩
  | rearm htop hstale ht =>
    refine ⟨h.of_subset ?_ (Nat.zero_le _), hone _ h.count⟩
    rw [(rearmTimerfd_frame ht).1]
    exact fun _ he => he
  | drained htop => exact ⟨h.of_subset (fun _ he => he) (Nat.zero_le _), hone _ h.count⟩
  | ret t clock now count e => exact ⟨h.afterCallback hfit.2 hfit.1, hone _ trivial⟩
  | emptied | notYet => exact ⟨h.of_subset (fun _ he => he) le_rfl, nofun⟩
  | elapse | pending => exact ⟨h.of_subset (fun _ he => he) le_rfl, hone _ trivial⟩
  | _ => exact ⟨h.of_subset (fun _ he => he) (Nat.zero_le _), hone _ trivial⟩

end InRange

/-- **Lazy deletion agrees with eager deletion.**  The timer shows only what
the reference does; a heap entry that is not stale is the live entry of its id,
and every live timer has its entry in the heap. -/
theorem epoll_follows {clock : Nat} (h : Run (machine pq) Ranged (init clock) os s)
    (hid : (issued os).Nodup) :
    (∃ r, Accepts Follows { clock := clock } os r) ∧
      (∀ e ∈ pq.elems s.timer.heap, s.timer.stale e = false →
        s.timer.active.lookup e.id = some e) ∧
      (∀ id e, s.timer.active.lookup id = some e → e ∈ pq.elems s.timer.heap) ∧
      (∀ e ∈ pq.elems s.timer.heap, InInt64 e.expiryNs) ∧ ∀ e ∈ os, e.Fits := by
  obtain ⟨r, hacc, hs, -⟩ := h.accepted
    (R := fun os s r => Sound os s ∧ Agrees s r) (Q := fun os => (issued os).Nodup)
    nodup_issued_left ⟨sound_init clock, agrees_init clock⟩
    (fun os t b l u o hR hok hq hstep => by
      obtain ⟨c, hc, hag⟩ := hR.2.step hR.1 hok.1 hstep
      exact ⟨c, hc, hR.1.step hok.1 hq hstep, hag⟩) hid
  have h0 : InRange (init clock : State pq) := by
    refine ⟨fun e he => ?_, show 0 < 2 ^ 31 by decide⟩
    rw [init, pq.elems_empty] at he
    exact absurd he (Multiset.notMem_zero e)
  obtain ⟨hrange, hfits⟩ := h.keeps_shown (I := InRange) h0
    fun _ _ _ _ hr hok hstep => hr.step hok.2 hstep
  exact ⟨⟨r, hacc⟩, fun e he => hs.lazy.lookup_of_not_stale he,
    fun id e he => (hs.lazy.live id e he).2, hrange.heap, hfits⟩

/-- A one-shot and a periodic timer, one of them cancelled before it is due,
and a drain that fires the other. -/
theorem epoll_follows_drain :
    ∃ (s : State (sortedHeap Nat)) (os : List (Event Nat)),
      Run (machine (sortedHeap Nat)) Ranged (init 5) os s ∧
      os = [.scheduled 3 10 1, .scheduledPeriodic 4 20 2, .cancelled 1 true, .elapsed 4, .drainBegan,
        .invoked 2 9 20, .returned, .drained 1] ∧
      (∃ r, Accepts Follows { clock := 5 } os r) ∧
        ∀ e ∈ (sortedHeap Nat).elems s.timer.heap, s.timer.stale e = false →
          s.timer.active.lookup e.id = some e := by
  let ls : List (Label Nat) := [.schedule 3 10, .schedulePeriodic 4 20, .cancel 1, .elapse 4,
    .drainExpired, .next, .next, .ret, .next, .next]
  have hexec : (machine (sortedHeap Nat)).exec (init 5) ls = some (_, [.scheduled 3 10 1,
      .scheduledPeriodic 4 20 2, .cancelled 1 true, .elapsed 4, .drainBegan, .invoked 2 9 20,
      .returned, .drained 1]) := rfl
  have hok : (machine (sortedHeap Nat)).ExecOk Ranged (init 5) ls := by decide +kernel
  have hrun := run_of_exec hok hexec
  have hfollows := epoll_follows hrun (by decide)
  exact ⟨_, _, hrun, rfl, hfollows.1, hfollows.2.1⟩

/-! ### Ids that come back -/

theorem step_schedule {clock : Nat} {d : Int} {top : Entry κ} (cb : κ)
    (htop : pq.top t.heap = some top) (hle : top.expiryNs ≤ clock + d) :
    (machine pq).step ⟨t, clock, .idle⟩ (.schedule d cb) =
      some (⟨t.issue (clock + d) 0 cb, clock, .idle⟩, [.scheduled d cb t.nextId]) := by
  have hadd : t.schedule clock d cb = (t.issue (clock + d) 0 cb, some t.nextId) := by
    rcases add_cases t clock d 0 cb with ⟨-, h⟩ | ⟨hlt, -⟩
    · exact h
    · exact absurd hle (not_le.mpr (hlt top (pq.top_mem htop)))
  simp only [machine, step, Control.open, if_true, hadd]

theorem cancel_of_mem {id : TimerID} (h : id ∈ t.active) :
    t.cancel id = (true, { t with
      active := t.active.erase id
      stats := { t.stats with cancelled := t.stats.cancelled + 1 } }) := by
  obtain ⟨e, he⟩ := Option.isSome_iff_exists.mp (AList.lookup_isSome.mpr h)
  rw [EpollTimer.cancel, he]

theorem step_cancel {clock : Nat} {id : TimerID} (h : id ∈ t.active) :
    (machine pq).step ⟨t, clock, .idle⟩ (.cancel id) =
      some (⟨(t.cancel id).2, clock, .idle⟩, [.cancelled id true]) := by
  simp only [machine, step, Control.open, if_true, cancel_of_mem h]

theorem ranged_schedule {clock : Nat} {c : Control κ} {d : Int} (cb : κ) (hd : 0 ≤ d)
    (hfit : InInt64 clock ∧ InInt64 (clock + d)) :
    Ranged (⟨t, clock, c⟩ : State pq) (.schedule d cb) := ⟨hd, hfit⟩

/-- Timers scheduled and cancelled at once use up ids, and leave entries behind
the top of the heap. -/
theorem run_skip {t : EpollTimer (sortedHeap κ)} {clock : Nat} {d : Int} {e : Entry κ} (cb : κ)
    (htop : (sortedHeap κ).top t.heap = some e) (hd : 0 ≤ d) (hle : e.expiryNs ≤ clock + d)
    (hfit : InInt64 clock ∧ InInt64 (clock + d)) (n : Nat)
    (hid : ∀ i < n, t.nextId + UInt64.ofNat i ∉ t.active) :
    ∃ os t', Run (machine (sortedHeap κ)) Ranged ⟨t, clock, .idle⟩ os ⟨t', clock, .idle⟩ ∧
      (sortedHeap κ).top t'.heap = some e ∧ t'.active = t.active ∧
      t'.nextId = t.nextId + UInt64.ofNat n := by
  induction n with
  | zero => exact ⟨[], t, .refl _, htop, rfl, by simp⟩
  | succ n ih =>
    obtain ⟨os, t', hrun, htop', hactive, hnext⟩ := ih fun i hi => hid i (by omega)
    have hnew : t'.nextId ∉ t'.active := by
      rw [hactive, hnext]
      exact hid n (by omega)
    have hmem : t'.nextId ∈ (t'.issue (clock + d) 0 cb).active :=
      (AList.mem_insert _).mpr (Or.inl rfl)
    have hsched := hrun.step (ranged_schedule cb hd hfit) (step_schedule cb htop' hle)
    have hranged : Ranged ⟨t'.issue (clock + d) 0 cb, clock, .idle⟩ (.cancel t'.nextId) :=
      ⟨trivial, trivial⟩
    refine ⟨_, _, hsched.step hranged (step_cancel hmem), ?_, ?_, ?_⟩
    · rw [(cancel_frame _ _).1]
      exact PriorityQueue.sortedList_top_push htop' hle
    · rw [cancel_of_mem hmem, ← hactive]
      exact erase_insert_of_notMem hnew
    · rw [cancel_of_mem hmem]
      show t'.nextId + 1 = t.nextId + UInt64.ofNat (n + 1)
      rw [hnext, UInt64.ofNat_add, ← UInt64.add_assoc]
      rfl

/-- The reference runs the callback that was scheduled last under the id. -/
theorem cb_eq_of_accepts {r r' : Reference κ} {d x : Int} {ns : Nat} {cb cb' : κ} {id : TimerID}
    (h : Accepts Follows r
      (os ++ [.scheduled d cb id] ++ [.elapsed ns] ++ [.drainBegan] ++ [.invoked id x cb']) r') :
    cb' = cb := by
  obtain ⟨r₃, h, hinv⟩ := h.of_concat
  obtain ⟨r₂, h, hbegan⟩ := h.of_concat
  obtain ⟨r₁, h, helapsed⟩ := h.of_concat
  obtain ⟨r₀, -, hsched⟩ := h.of_concat
  cases hsched
  cases helapsed
  cases hbegan
  cases hinv with
  | invoked _ _ ht _ _ =>
    simp only [Reference.set, Function.update_self, Option.some.injEq] at ht
    rw [← ht]

theorem step_next {clock count : Nat} {now : Int} {top : Entry κ}
    (htop : pq.top t.heap = some top) (hstale : t.stale top = false) (hdue : top.expiryNs ≤ now) :
    (machine pq).step ⟨t, clock, .draining now count⟩ .next =
      some (⟨t.take top, clock, .callback now count top⟩, [.invoked top.id top.expiryNs top.cb]) := by
  simp only [machine, step, drainStep, htop, hstale, not_lt.mpr hdue, if_false,
    Bool.false_eq_true]

/-- **A cancelled timer whose id is handed out again.**  Its entry is still in
the heap, has the expiry of the new timer, and is taken for it: the callback of
the cancelled timer runs. -/
theorem stale_entry_revived :
    ∃ (s : State (sortedHeap Nat)) (os : List (Event Nat)),
      Run (machine (sortedHeap Nat)) Ranged (init 0) os s ∧
      ¬ ∃ r, Accepts Follows { clock := 0 } os r := by
  let t₁ : EpollTimer (sortedHeap Nat) := (({} : EpollTimer (sortedHeap Nat)).schedule 0 10 1).1
  let t₂ : EpollTimer (sortedHeap Nat) := (t₁.cancel 1).2
  have hfirst : Run (machine (sortedHeap Nat)) Ranged (init 0) ([.scheduled 10 1 1] ++ _)
      ⟨t₂, 0, .idle⟩ :=
    (Run.single (l := .schedule 10 1) (by decide) rfl).step (l := .cancel 1) ⟨trivial, trivial⟩ rfl
  obtain ⟨os, t, hskip, htop, -, hnext⟩ := run_skip (t := t₂) (e := ⟨1, 10, 0, 1⟩) 2
    rfl (show (0 : Int) ≤ 20 by decide) (show (10 : Int) ≤ ((0 : Nat) : Int) + 20 by decide)
    (by decide) (2 ^ 64 - 1) fun i _ => AList.notMem_empty _
  have hid : t.nextId = 1 := by
    rw [hnext]
    show (2 : UInt64) + UInt64.ofNat (2 ^ 64 - 1) = 1
    decide
  -- the new timer has the id and the expiry of the entry on top of the heap
  let t₃ : EpollTimer (sortedHeap Nat) := t.issue 10 0 3
  have hnew : (machine (sortedHeap Nat)).step ⟨t, 0, .idle⟩ (.schedule 10 3) =
      some (⟨t₃, 0, .idle⟩, [.scheduled 10 3 1]) := by
    rw [step_schedule 3 htop (by decide), hid]
    rfl
  have htop₃ : (sortedHeap Nat).top t₃.heap = some ⟨1, 10, 0, 1⟩ :=
    PriorityQueue.sortedList_top_push htop (by exact le_rfl)
  have hstale : t₃.stale ⟨1, 10, 0, 1⟩ = false := by
    refine stale_eq_false.mpr ⟨⟨1, 10, 0, 3⟩, ?_, rfl⟩
    show (t.active.insert t.nextId ⟨t.nextId, 10, 0, 3⟩).lookup 1 = _
    rw [hid, AList.lookup_insert]
  have hdue : (10 : Int) ≤ ((0 + 10 : Nat) : Int) := by decide
  have hrun := ((((hfirst.trans hskip).step (ranged_schedule 3 (by decide) (by decide)) hnew).step
    (l := Label.elapse 10) ⟨trivial, trivial⟩ rfl).step
    (l := Label.drainExpired) ⟨trivial, show InInt64 ((0 + 10 : Nat) : Int) by decide⟩ rfl).step
    (l := Label.next) ⟨trivial, trivial⟩ (step_next htop₃ hstale hdue)
  refine ⟨_, _, hrun, ?_⟩
  rintro ⟨r, hacc⟩
  have hcb : 1 = 3 := cb_eq_of_accepts hacc
  omega

end HftComponents.Timer.Epoll
