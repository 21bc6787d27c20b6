import HftComponents.Timer.Epoll.Lazy

/-!
# Cancelling a timer for good

A timer runs only if `active_` has its id, and ids get into `active_` in two
places only: when a timer is made, and when a periodic one has run.  So after
`cancel` has erased an id (`Gone`) its callback is not started any more, with
one exception.  While a callback is on, `drain_expired` has taken its timer out
of `active_`; `cancel` of that id finds nothing, and a periodic timer is stored
again when the callback returns (`epoll_cancel_self_undone`).

`epoll_cancel_final` is the result for the runs without that step.
-/

namespace HftComponents.Timer.Epoll

open Lib EpollTimer

variable {κ : Type} {pq : PriorityQueue (Entry κ) Entry.expiryNs} {t : EpollTimer pq}
  {s u : State pq} {os o : List (Event κ)} {id : TimerID}

/-- No callback cancels the periodic timer it belongs to, and no timer is made
once the counter of ids has come round. -/
def SparesItself (s : State pq) : Label κ → Prop
  | .cancel id => ∀ e, s.control.running = some e → e.id = id → e.intervalNs ≤ 0
  | .schedule _ _ | .schedulePeriodic _ _ => s.timer.nextId ≠ 0
  | _ => True

/-- The timer `id` is not live, and nothing will make it live again. -/
structure Gone (id : TimerID) (s : State pq) : Prop where
  before : Before id s.timer.nextId
  inactive : id ∉ s.timer.active
  resting : ∀ e, s.control.running = some e → e.id = id → e.intervalNs ≤ 0

/-- The ids handed out are behind the counter. -/
def Issued (os : List (Event κ)) (s : State pq) : Prop :=
  ∀ id ∈ issued os, Before id s.timer.nextId

/-! ### The operations on the ids -/

theorem mem_add_active {now d i : Int} {cb : κ} :
    id ∈ (t.add now d i cb).1.active ↔ id = t.nextId ∨ id ∈ t.active := by
  rw [(add_frame t now d i cb).2.1]
  exact AList.mem_insert _

theorem cancel_ids (t : EpollTimer pq) (k : TimerID) :
    (t.cancel k).2.nextId = t.nextId ∧
      ∀ id, id ∈ (t.cancel k).2.active ↔ id ∈ t.active ∧ id ≠ k := by
  rw [EpollTimer.cancel]
  cases hl : t.active.lookup k with
  | none =>
    refine ⟨rfl, ?_⟩
    intro id
    refine ⟨?_, And.left⟩
    intro hid
    refine ⟨hid, ?_⟩
    rintro rfl
    exact AList.lookup_eq_none.mp hl hid
  | some _ =>
    refine ⟨rfl, ?_⟩
    intro id
    rw [AList.mem_erase, and_comm]

theorem mem_afterCallback_active {now : Int} {e : Entry κ}
    (h : id ∈ (t.afterCallback now e).active) :
    id ∈ t.active ∨ id = e.id ∧ 0 < e.intervalNs := by
  rw [afterCallback] at h
  by_cases hi : 0 < e.intervalNs
  · rw [if_pos hi] at h
    rcases (AList.mem_insert _).mp h with rfl | h
    · exact Or.inr ⟨rfl, hi⟩
    · exact Or.inl h
  · rw [if_neg hi] at h
    exact Or.inl h

theorem afterCallback_nextId (t : EpollTimer pq) (now : Int) (e : Entry κ) :
    (t.afterCallback now e).nextId = t.nextId := by
  rw [afterCallback]
  by_cases hi : 0 < e.intervalNs
  · rw [if_pos hi]
    rfl
  · rw [if_neg hi]

/-! ### The ids of a run -/

theorem outcome_issued {r : Option TimerID} {shown : TimerID → Event κ}
    (hr : ∀ k, r = some k → k = t.nextId) (hs : ∀ k, issued [shown k] = [k])
    (hid : id ∈ issued (outcome r shown)) : id = t.nextId := by
  cases r with
  | none => simp [outcome, issued] at hid
  | some k =>
    rw [outcome, hs, List.mem_singleton] at hid
    rw [hid, hr k rfl]

theorem add_snd {now d i : Int} {cb : κ} {k : TimerID} (h : (t.add now d i cb).2 = some k) :
    k = t.nextId := by
  rcases add_cases t now d i cb with ⟨-, heq⟩ | ⟨-, heq⟩
  · rw [heq] at h
    exact (Option.some.inj h).symm
  · rw [heq] at h
    split at h
    · cases h
    · exact (Option.some.inj h).symm

theorem Issued.of_eq (h : Issued os s) (ho : issued o = []) (hn : u.timer.nextId = s.timer.nextId) :
    Issued (os ++ o) u := by
  intro id hid
  rw [issued_append, ho, List.append_nil] at hid
  rw [hn]
  exact h id hid

theorem Issued.add {c : Control κ} {clock : Nat} {now d i : Int} {cb : κ}
    (h : Issued os ⟨t, clock, c⟩) (h0 : t.nextId ≠ 0) (ho : ∀ id ∈ issued o, id = t.nextId) :
    Issued (os ++ o) ⟨(t.add now d i cb).1, clock, c⟩ := by
  intro id hid
  show Before id (t.add now d i cb).1.nextId
  rw [(add_frame t now d i cb).2.2]
  rw [issued_append] at hid
  rcases List.mem_append.mp hid with hid | hid
  · exact (h id hid).next h0
  · rw [ho id hid]
    exact before_next (UInt64.le_refl _)

theorem Issued.step {l : Label κ} (h : Issued os s) (hok : SparesItself s l)
    (hstep : step s l = some (u, o)) : Issued (os ++ o) u := by
  cases step_moves hstep with
  | schedule _ d cb => exact h.add hok fun _ => outcome_issued (fun _ => add_snd) fun _ => rfl
  | schedulePeriodic _ i cb =>
    exact h.add hok fun _ => outcome_issued (fun _ => add_snd) fun _ => rfl
  | @cancel t _ _ _ k => exact h.of_eq rfl (cancel_ids t k).1
  | rearm _ _ ht => exact h.of_eq rfl (rearmTimerfd_frame ht).2.2
  | ret t _ now _ e => exact h.of_eq rfl (afterCallback_nextId t now e)
  | _ => exact h.of_eq rfl rfl

/-! ### A timer that is gone -/

namespace Gone

theorem more (h : Gone id s) (hn : u.timer.nextId = s.timer.nextId)
    (ha : ∀ k, k ∈ u.timer.active → k ∈ s.timer.active)
    (hc : ∀ e, u.control.running = some e → s.control.running = some e) : Gone id u where
  before := by rw [hn]; exact h.before
  inactive := fun hid => h.inactive (ha id hid)
  resting := fun e he => h.resting e (hc e he)

theorem add {c : Control κ} {clock : Nat} {now d i : Int} {cb : κ} (h : Gone id ⟨t, clock, c⟩)
    (h0 : t.nextId ≠ 0) : Gone id ⟨(t.add now d i cb).1, clock, c⟩ where
  before := by
    show Before id (t.add now d i cb).1.nextId
    rw [(add_frame t now d i cb).2.2]
    exact h.before.next h0
  inactive := by
    intro hid
    rcases mem_add_active.mp hid with heq | hid
    · exact h.before.ne h0 heq
    · exact h.inactive hid
  resting := h.resting

theorem mem_of_invoke {top : Entry κ} (hstale : t.stale top = false) : top.id ∈ t.active := by
  obtain ⟨e, he, -⟩ := stale_eq_false.mp hstale
  exact AList.lookup_isSome.mp (by rw [he]; rfl)

/-- **A timer that is gone stays so**, and its callback is not started. -/
theorem step {l : Label κ} (h : Gone id s) (hok : SparesItself s l)
    (hstep : step s l = some (u, o)) : Gone id u ∧ ∀ x cb, .invoked id x cb ∉ o := by
  cases step_moves hstep with
  | @schedule t c _ _ d cb =>
    refine ⟨h.add hok, ?_⟩
    cases (t.schedule c d cb).2 <;> simp [outcome]
  | @schedulePeriodic t c _ _ i cb =>
    refine ⟨h.add hok, ?_⟩
    cases (t.schedulePeriodic c i cb).2 <;> simp [outcome]
  | @cancel t _ _ _ k =>
    obtain ⟨hn, ha⟩ := cancel_ids t k
    exact ⟨h.more hn (fun k hk => ((ha k).mp hk).1) fun _ he => he, by simp⟩
  | invoke htop hstale hdue =>
    rename_i top
    have hlive := mem_of_invoke hstale
    have hne : id ≠ top.id := by
      rintro rfl
      exact h.inactive hlive
    refine ⟨⟨h.before, ?_, ?_⟩, ?_⟩
    · intro hid
      exact h.inactive (AList.mem_erase.mp hid).2
    · intro e he heq
      obtain rfl := Option.some.inj he
      exact absurd heq.symm hne
    · intro x cb hm
      obtain ⟨heq, -⟩ := Event.invoked.inj (List.mem_singleton.mp hm)
      exact hne heq
  | rearm _ _ ht =>
    obtain ⟨-, hactive, hnext⟩ := rearmTimerfd_frame ht
    exact ⟨h.more hnext (fun k hk => by rwa [hactive] at hk) (by simp [Control.running]), by simp⟩
  | ret t _ now _ e =>
    refine ⟨⟨?_, ?_, by simp [Control.running]⟩, by simp⟩
    · show Before id (t.afterCallback now e).nextId
      rw [afterCallback_nextId]
      exact h.before
    · intro hid
      rcases mem_afterCallback_active hid with hid | ⟨rfl, hi⟩
      · exact h.inactive hid
      · exact absurd (h.resting e rfl rfl) (not_le.mpr hi)
  | elapse | pending | polled | failed =>
    exact ⟨h.more rfl (fun _ hk => hk) fun _ he => he, by simp⟩
  | _ => exact ⟨h.more rfl (fun _ hk => hk) (by simp [Control.running]), by simp⟩

end Gone

/-- What `cancel` leaves behind, when it may be called. -/
theorem gone_cancel (h : Before id s.timer.nextId) (hok : SparesItself s (.cancel id))
    (hstep : step s (.cancel id) = some (u, o)) : Gone id u := by
  cases step_moves hstep with
  | @cancel t _ _ _ _ =>
    obtain ⟨hn, ha⟩ := cancel_ids t id
    refine ⟨?_, ?_, hok⟩
    · show Before id (t.cancel id).2.nextId
      rw [hn]
      exact h
    · intro hid
      exact ((ha id).mp hid).2 rfl

/-- **Once `cancel(id)` has returned, the callback of `id` is never started
again**, in every run that meets `SparesItself`. -/
theorem epoll_cancel_final {clock : Nat} {pre post : List (Event κ)} {v : State pq}
    (h : Machine.Run (machine pq) SparesItself (init clock) pre s) (hid : id ∈ issued pre)
    (hok : SparesItself s (.cancel id)) (hstep : step s (.cancel id) = some (u, o))
    (h' : Machine.Run (machine pq) SparesItself u post v) :
    ∀ x cb, .invoked id x cb ∉ post := by
  have hissued : Issued pre s := by
    refine h.invariant (P := Issued) ?_ fun _ _ _ _ _ ht hok hs => ht.step hok hs
    intro id hid
    cases hid
  have hgone : Gone id u := gone_cancel (hissued id hid) hok hstep
  have hall : Gone id v ∧ ∀ x cb, .invoked id x cb ∉ post := by
    refine h'.invariant (P := fun os s => Gone id s ∧ ∀ x cb, .invoked id x cb ∉ os)
      ⟨hgone, by simp⟩ ?_
    intro os t l w o ht hok hs
    obtain ⟨hg, ho⟩ := ht.1.step hok hs
    refine ⟨hg, ?_⟩
    intro x cb hm
    rcases List.mem_append.mp hm with hm | hm
    · exact ht.2 x cb hm
    · exact ho x cb hm
  exact hall.2

/-- A periodic timer whose entry is on top of the heap, cancelled before it is due. -/
theorem epoll_cancel_final_before_due :
    ∃ (s u v : State (sortedHeap Nat)) (pre post : List (Event Nat)),
      Machine.Run (machine (sortedHeap Nat)) SparesItself (init 0) pre s ∧ 1 ∈ issued pre ∧
      step s (.cancel 1) = some (u, [.cancelled 1 true]) ∧
      Machine.Run (machine (sortedHeap Nat)) SparesItself u post v ∧
      ∀ x cb, .invoked 1 x cb ∉ post := by
  obtain ⟨s, u, v, pre, post, hpre, hid, hidle, hcancel, hpost⟩ :
      ∃ (s u v : State (sortedHeap Nat)) (pre post : List (Event Nat)),
        (machine (sortedHeap Nat)).exec (init 0) [.schedulePeriodic 10 7] = some (s, pre) ∧
        1 ∈ issued pre ∧ s.control.running = none ∧
        step s (.cancel 1) = some (u, [.cancelled 1 true]) ∧
        (machine (sortedHeap Nat)).exec u [.elapse 10, .drainExpired, .next] = some (v, post) :=
    ⟨_, _, _, _, _, rfl, by decide, rfl, rfl, rfl⟩
  have hfirst : Machine.ExecOk (machine (sortedHeap Nat)) SparesItself (init 0)
      [.schedulePeriodic 10 7] := ⟨show (1 : TimerID) ≠ 0 by decide, fun _ _ => trivial⟩
  have hbefore := Machine.run_of_exec hfirst hpre
  have hafter : Machine.Run (machine (sortedHeap Nat)) SparesItself u post v :=
    Machine.run_of_exec (Machine.execOk_of_forall (by simp [SparesItself]) u) hpost
  have hspares : SparesItself s (.cancel 1) := by simp [SparesItself, hidle]
  exact ⟨s, u, v, pre, post, hbefore, hid, hcancel, hafter,
    epoll_cancel_final hbefore hid hspares hcancel hafter⟩

/-- The self-cancel of a periodic timer has no effect: it reports that there is
no such timer, and the timer is live again when the callback has returned. -/
theorem epoll_cancel_self_undone {t : EpollTimer pq} {now : Int} {e : Entry κ}
    (hi : 0 < e.intervalNs) (ha : e.id ∉ t.active) :
    t.cancel e.id = (false, t) ∧ e.id ∈ (t.afterCallback now e).active := by
  refine ⟨?_, ?_⟩
  · rw [EpollTimer.cancel, AList.lookup_eq_none.mpr ha]
  · rw [afterCallback, if_pos hi]
    exact (AList.mem_insert _).mpr (Or.inl rfl)

/-- **A periodic timer that cancels itself** runs again at its next period. -/
theorem epoll_cancel_not_final :
    ∃ (s u v : State (sortedHeap Nat)) (pre post : List (Event Nat)),
      Machine.Run (machine (sortedHeap Nat)) Machine.anyStep (init 0) pre s ∧ 1 ∈ issued pre ∧
      step s (.cancel 1) = some (u, [.cancelled 1 false]) ∧
      Machine.Run (machine (sortedHeap Nat)) Machine.anyStep u post v ∧
      .invoked 1 20 7 ∈ post := by
  obtain ⟨s, u, v, pre, post, hpre, hid, hcancel, hpost, hfired⟩ :
      ∃ (s u v : State (sortedHeap Nat)) (pre post : List (Event Nat)),
        (machine (sortedHeap Nat)).exec (init 0)
          [.schedulePeriodic 10 7, .elapse 10, .drainExpired, .next] = some (s, pre) ∧
        1 ∈ issued pre ∧ step s (.cancel 1) = some (u, [.cancelled 1 false]) ∧
        (machine (sortedHeap Nat)).exec u
          [.ret, .next, .next, .elapse 10, .drainExpired, .next] = some (v, post) ∧
        .invoked 1 20 7 ∈ post :=
    ⟨_, _, _, _, _, rfl, by decide, rfl, rfl, by decide⟩
  exact ⟨s, u, v, pre, post, Machine.run_of_exec_any hpre, hid, hcancel,
    Machine.run_of_exec_any hpost, hfired⟩

end HftComponents.Timer.Epoll
