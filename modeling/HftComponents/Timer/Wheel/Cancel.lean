import HftComponents.Timer.Wheel.Drain

/-!
# Cancelling a timer for good

Every node of the wheel, and every node of a swapped-out list, has its id in
`entries_`; so a timer that `cancel` has erased (`Gone`) is in no list, and its
callback is not started any more.  Two calls from a callback are the exception.
To cancel another timer that is due in the same tick is undefined behaviour.
To cancel the timer itself finds nothing, because `fire_slot` has erased its id,
and a periodic timer is then inserted again (`wheel_cancel_self_undone`).

`wheel_cancel_final` is the result for the runs without these steps.
-/

namespace HftComponents.Timer.Wheel

open TimerWheel

variable {κ : Type} {w : TimerWheel κ} {s t : State κ} {os o : List (Event κ)} {id : TimerID}

/-- No callback cancels the periodic timer it belongs to or a timer that its
tick has yet to run, and no timer is made once the counter of ids has come
round. -/
def SparesItself (s : State κ) : Label κ → Prop
  | .cancel id =>
    (∀ n ∈ s.control.rest, n.entry.id ≠ id) ∧
      ∀ e, s.control.running = some e → e.id = id → e.intervalTicks = 0
  | .schedule _ _ | .schedulePeriodic _ _ => s.wheel.nextId ≠ 0
  | _ => True

theorem SparesItself.sparesDue {l : Label κ} (h : SparesItself s l) : SparesDue s l := by
  rintro id rfl
  exact h.1

/-- The timer `id` is in no list, and nothing will insert it again. -/
structure Gone (id : TimerID) (s : State κ) : Prop where
  before : Before id s.wheel.nextId
  absent : id ∉ s.wheel.entries
  resting : ∀ e, s.control.running = some e → e.id = id → e.intervalTicks = 0

/-! ### The counter of ids -/

theorem foldl_reinsert_nextId (moved : List (Node κ)) (w : TimerWheel κ) :
    (moved.foldl reinsert w).nextId = w.nextId := by
  induction moved generalizing w with
  | nil => rfl
  | cons n moved ih => exact ih (w.reinsert n)

@[simp] theorem cascade_nextId (l : Level) : (w.cascade l).nextId = w.nextId :=
  foldl_reinsert_nextId _ _

theorem turn_nextId : w.turn.nextId = w.nextId := by
  unfold turn
  dsimp only
  split
  · split
    · split <;> simp
    · simp
  · rfl

theorem fireNext_nextId (caller : Caller) (count : Nat) (list : List (Node κ)) :
    (fireNext w caller count list).1.wheel.nextId = w.nextId := by
  cases list with
  | nil => cases caller <;> rfl
  | cons n rest => rfl

theorem afterCallback_nextId (e : Entry κ) : (w.afterCallback e).nextId = w.nextId := by
  rw [afterCallback]
  by_cases hi : e.intervalTicks ≠ 0
  · rw [if_pos hi]
    rfl
  · rw [if_neg hi]

/-! ### The ids of a run -/

/-- The state is sound, and the ids handed out are behind the counter. -/
structure Numbered (os : List (Event κ)) (s : State κ) : Prop where
  sound : Sound os s
  nodup : (issued os).Nodup
  before : ∀ id ∈ issued os, Before id s.wheel.nextId

theorem fireNext_issued (caller : Caller) (count : Nat) (list : List (Node κ)) :
    issued (fireNext w caller count list).2 = [] := by
  cases list with
  | nil => cases caller <;> rfl
  | cons n rest => rfl

/-- What a step hands out, and what becomes of the counter. -/
theorem issued_step {l : Label κ} (hstep : step s l = some (t, o)) :
    (issued o = [] ∧ t.wheel.nextId = s.wheel.nextId) ∨
      (issued o = [s.wheel.nextId] ∧ t.wheel.nextId = s.wheel.nextId + 1 ∧
        (SparesItself s l → s.wheel.nextId ≠ 0)) := by
  cases step_moves hstep with
  | schedule | schedulePeriodic => exact Or.inr ⟨rfl, rfl, fun hok => hok⟩
  | @cancel w w' c _ k found hcan =>
    left
    refine ⟨rfl, ?_⟩
    rw [cancel] at hcan
    split at hcan
    · obtain ⟨-, rfl⟩ := Prod.mk.inj (Option.some.inj hcan)
      rfl
    · split at hcan
      · obtain ⟨-, rfl⟩ := Prod.mk.inj (Option.some.inj hcan)
        rfl
      · cases hcan
  | tick w | advanceTick w =>
    left
    rw [tick_eq]
    refine ⟨fireNext_issued _ _ _, ?_⟩
    exact (fireNext_nextId _ _ _).trans turn_nextId
  | ret w caller count e rest =>
    left
    exact ⟨fireNext_issued _ _ _, (fireNext_nextId _ _ _).trans (afterCallback_nextId e)⟩
  | _ => exact Or.inl ⟨rfl, rfl⟩

theorem Numbered.step {l : Label κ} (h : Numbered os s) (hok : SparesItself s l)
    (hstep : step s l = some (t, o)) : Numbered (os ++ o) t := by
  have hnodup : (issued (os ++ o)).Nodup := by
    rcases issued_step hstep with ⟨ho, -⟩ | ⟨ho, -, h0⟩
    · rw [issued_append, ho, List.append_nil]
      exact h.nodup
    · rw [issued_append, ho]
      refine h.nodup.append (List.nodup_singleton _) ?_
      intro k hk hk'
      exact (h.before k hk).ne (h0 hok) (List.mem_singleton.mp hk')
  refine ⟨h.sound.step hstep hnodup hok.sparesDue, hnodup, ?_⟩
  intro k hk
  rw [issued_append] at hk
  rcases issued_step hstep with ⟨ho, hn⟩ | ⟨ho, hn, h0⟩
  · rw [ho, List.append_nil] at hk
    rw [hn]
    exact h.before k hk
  · rw [ho] at hk
    rw [hn]
    rcases List.mem_append.mp hk with hk | hk
    · exact (h.before k hk).next (h0 hok)
    · rw [List.mem_singleton.mp hk]
      exact before_next (UInt64.le_refl _)

/-! ### A timer that is gone -/

/-- The next callback is not that of a timer unknown to `entries_`. -/
theorem gone_fireNext (caller : Caller) (count : Nat) {list : List (Node κ)}
    (hl : Linked (w.unswap w.currentPlace list)) (hb : Before id w.nextId) (hid : id ∉ w.entries) :
    Gone id (fireNext w caller count list).1 ∧
      ∀ cb, .invoked id cb ∉ (fireNext w caller count list).2 := by
  cases list with
  | nil =>
    cases caller with
    | user => exact ⟨⟨hb, hid, by simp [fireNext, Control.running]⟩, by simp [fireNext]⟩
    | advance _ _ =>
      exact ⟨⟨hb, hid, by simp [fireNext, Control.running]⟩, by simp [fireNext]⟩
  | cons n rest =>
    have hne : id ≠ n.entry.id := by
      rintro rfl
      exact hid (hl.mem_entries (mem_unswap.mpr (Or.inr ⟨rfl, List.mem_cons_self⟩)))
    refine ⟨⟨hb, ?_, ?_⟩, ?_⟩
    · intro hm
      exact hid (AList.mem_erase.mp hm).2
    · intro e he heq
      obtain rfl : n.entry = e := Option.some.inj he
      exact absurd heq.symm hne
    · intro cb hm
      obtain ⟨heq, -⟩ := Event.invoked.inj (List.mem_singleton.mp hm)
      exact hne heq

theorem gone_tick (caller : Caller) (hl : Linked w) (hb : Before id w.nextId)
    (hid : id ∉ w.entries) :
    Gone id (tick w caller).1 ∧ ∀ cb, .invoked id cb ∉ (tick w caller).2 := by
  obtain ⟨hlt, hh⟩ := hl.turn
  have hid' : id ∉ w.turn.entries := by
    intro hm
    obtain ⟨e, he, heq⟩ := hlt.mem_entries_iff.mp hm
    exact hid (hl.mem_entries_iff.mpr ⟨e, (hh e).mp he, heq⟩)
  have hb' : Before id w.turn.nextId := by rwa [turn_nextId]
  have hlt' : Linked ((w.turn.swapOut w.turn.currentPlace).unswap w.turn.currentPlace
      (w.turn.slots w.turn.currentPlace)) := by rwa [unswap_swapOut]
  obtain ⟨hgone, hfire⟩ := gone_fireNext (w := w.turn.swapOut w.turn.currentPlace) caller 0 hlt'
    hb' hid'
  rw [tick_eq]
  exact ⟨hgone, by simpa using hfire⟩

/-- **A timer that is gone stays so**, and its callback is not started. -/
theorem Gone.step {l : Label κ} (h : Gone id s) (hs : Sound os s) (hok : SparesItself s l)
    (hstep : Wheel.step s l = some (t, o)) : Gone id t ∧ ∀ cb, .invoked id cb ∉ o := by
  cases step_moves hstep with
  | schedule _ d cb =>
    refine ⟨⟨h.before.next hok, ?_, h.resting⟩, by simp⟩
    rw [schedule_eq, add_snd_entries, not_or]
    exact ⟨h.before.ne hok, h.absent⟩
  | schedulePeriodic _ i cb =>
    refine ⟨⟨h.before.next hok, ?_, h.resting⟩, by simp⟩
    rw [schedulePeriodic_eq, add_snd_entries, not_or]
    exact ⟨h.before.ne hok, h.absent⟩
  | @cancel w w' c _ k found hcan =>
    refine ⟨?_, by simp⟩
    rcases hs.linked.cancel_cases_unswap hok.1 with ⟨_, hcan'⟩ | ⟨loc, hl, hcan'⟩
    · obtain ⟨rfl, rfl⟩ := Prod.mk.inj (Option.some.inj (hcan.symm.trans hcan'))
      exact h
    · obtain ⟨rfl, rfl⟩ := Prod.mk.inj (Option.some.inj (hcan.symm.trans hcan'))
      refine ⟨h.before, ?_, h.resting⟩
      intro hm
      exact h.absent (AList.mem_erase.mp hm).2
  | undefined => exact ⟨⟨h.before, h.absent, by simp [Control.running]⟩, by simp⟩
  | pending => exact ⟨h, by simp⟩
  | advance | advanced => exact ⟨⟨h.before, h.absent, by simp [Control.running]⟩, by simp⟩
  | tick w => exact gone_tick _ (hs.idle rfl) h.before h.absent
  | advanceTick w left total => exact gone_tick _ (hs.idle rfl) h.before h.absent
  | ret w caller count e rest =>
    have hl : Linked ((w.afterCallback e).unswap (w.afterCallback e).currentPlace rest) :=
      (hs.afterCallback rfl).1
    have hid : id ∉ (w.afterCallback e).entries := by
      rw [afterCallback]
      by_cases hi : e.intervalTicks ≠ 0
      · rw [if_pos hi]
        intro hm
        rcases (AList.mem_insert _).mp hm with rfl | hm
        · exact hi (h.resting e rfl rfl)
        · exact h.absent hm
      · rw [if_neg hi]
        exact h.absent
    have hb : Before id (w.afterCallback e).nextId := by
      rw [afterCallback_nextId]
      exact h.before
    obtain ⟨hgone, hfire⟩ := gone_fireNext caller (count + 1) hl hb hid
    exact ⟨hgone, by simpa using hfire⟩

/-- What `cancel` leaves behind, when it may be called: it returns. -/
theorem gone_cancel (hs : Sound os s) (hb : Before id s.wheel.nextId)
    (hok : SparesItself s (.cancel id)) (hstep : step s (.cancel id) = some (t, o)) :
    Gone id t ∧ ∃ found, o = [.cancelled id found] := by
  cases step_moves hstep with
  | @cancel w w' c _ _ found hcan =>
    refine ⟨?_, found, rfl⟩
    rcases hs.linked.cancel_cases_unswap hok.1 with ⟨hn, hcan'⟩ | ⟨loc, hl, hcan'⟩
    · obtain ⟨rfl, rfl⟩ := Prod.mk.inj (Option.some.inj (hcan.symm.trans hcan'))
      exact ⟨hb, hn, hok.2⟩
    · obtain ⟨rfl, rfl⟩ := Prod.mk.inj (Option.some.inj (hcan.symm.trans hcan'))
      refine ⟨hb, ?_, hok.2⟩
      intro hm
      exact (AList.mem_erase.mp hm).1 rfl
  | @undefined w c _ _ hcan =>
    rcases hs.linked.cancel_cases_unswap hok.1 with ⟨-, hcan'⟩ | ⟨loc, -, hcan'⟩
    · exact absurd (hcan.symm.trans hcan') (by simp)
    · exact absurd (hcan.symm.trans hcan') (by simp)

/-- **`cancel(id)` returns, and then the callback of `id` is never started
again**, in every run that meets `SparesItself`. -/
theorem wheel_cancel_final {pre post : List (Event κ)} {u : State κ}
    (h : Lib.Machine.Run (machine κ) SparesItself init pre s) (hid : id ∈ issued pre)
    (hok : SparesItself s (.cancel id)) (hstep : step s (.cancel id) = some (t, o))
    (h' : Lib.Machine.Run (machine κ) SparesItself t post u) :
    (∃ found, o = [.cancelled id found]) ∧ ∀ cb, .invoked id cb ∉ post := by
  have hpre : Numbered pre s := by
    refine h.invariant (P := Numbered) ⟨Sound.init, List.nodup_nil, ?_⟩
      fun _ _ _ _ _ ht hok hs => ht.step hok hs
    intro id hid
    cases hid
  obtain ⟨hgone, hret⟩ := gone_cancel hpre.sound (hpre.before id hid) hok hstep
  have hall : Numbered (pre ++ o ++ post) u ∧ Gone id u ∧ ∀ cb, .invoked id cb ∉ post := by
    refine h'.invariant
      (P := fun os s => Numbered (pre ++ o ++ os) s ∧ Gone id s ∧ ∀ cb, .invoked id cb ∉ os)
      ⟨?_, hgone, by simp⟩ ?_
    · rw [List.append_nil]
      exact hpre.step hok hstep
    · intro os v l w o' hv hok hs
      obtain ⟨hn, hg, hno⟩ := hv
      obtain ⟨hg', ho⟩ := hg.step hn.sound hok hs
      refine ⟨?_, hg', ?_⟩
      · rw [← List.append_assoc]
        exact hn.step hok hs
      · intro cb hm
        rcases List.mem_append.mp hm with hm | hm
        · exact hno cb hm
        · exact ho cb hm
  exact ⟨hret, hall.2.2⟩

/-- The callback of a one-shot cancels a periodic timer of another slot. -/
theorem wheel_cancel_final_other :
    ∃ (s t u : State Nat) (pre post : List (Event Nat)),
      Lib.Machine.Run (machine Nat) SparesItself init pre s ∧ 1 ∈ issued pre ∧
      step s (.cancel 1) = some (t, [.cancelled 1 true]) ∧
      Lib.Machine.Run (machine Nat) SparesItself t post u ∧ ∀ cb, .invoked 1 cb ∉ post := by
  obtain ⟨s, t, u, pre, post, hpre, hid, hrest, hrun, hcancel, hpost⟩ :
      ∃ (s t u : State Nat) (pre post : List (Event Nat)),
        (machine Nat).exec init [.schedulePeriodic 5 7, .schedule 1 8, .tick] = some (s, pre) ∧
        1 ∈ issued pre ∧ s.control.rest = [] ∧ s.control.running = some ⟨2, 1, 0, 8⟩ ∧
        step s (.cancel 1) = some (t, [.cancelled 1 true]) ∧
        (machine Nat).exec t [.ret, .tick, .tick, .tick, .tick] = some (u, post) :=
    ⟨_, _, _, _, _, rfl, by decide, rfl, rfl, rfl, rfl⟩
  have hfirst : (machine Nat).ExecOk SparesItself init
      [.schedulePeriodic 5 7, .schedule 1 8, .tick] :=
    Lib.Machine.execOk_cons (show (1 : TimerID) ≠ 0 by decide) rfl
      (Lib.Machine.execOk_cons (show (2 : TimerID) ≠ 0 by decide) rfl ⟨trivial, fun _ _ => trivial⟩)
  have hbefore := Lib.Machine.run_of_exec hfirst hpre
  have hafter : Lib.Machine.Run (machine Nat) SparesItself t post u :=
    Lib.Machine.run_of_exec (Lib.Machine.execOk_of_forall (by simp [SparesItself]) t) hpost
  have hspares : SparesItself s (.cancel 1) := by
    refine ⟨by simp [hrest], ?_⟩
    intro e he
    obtain rfl := Option.some.inj (hrun.symm.trans he)
    decide
  exact ⟨s, t, u, pre, post, hbefore, hid, hcancel, hafter,
    (wheel_cancel_final hbefore hid hspares hcancel hafter).2⟩

/-- The self-cancel of a periodic timer has no effect: it reports that there is
no such timer, and the timer is pending again when the callback has returned. -/
theorem wheel_cancel_self_undone {e : Entry κ} (hi : e.intervalTicks ≠ 0) (ha : e.id ∉ w.entries) :
    w.cancel e.id = some (false, w) ∧ e.id ∈ (w.afterCallback e).entries := by
  refine ⟨?_, ?_⟩
  · rw [cancel, AList.lookup_eq_none.mpr ha]
  · rw [afterCallback, if_pos hi]
    exact (AList.mem_insert _).mpr (Or.inl rfl)

/-- **A periodic timer that cancels itself** runs again at its next period. -/
theorem wheel_cancel_not_final :
    ∃ (s t u : State Nat) (pre post : List (Event Nat)),
      Lib.Machine.Run (machine Nat) Lib.Machine.anyStep init pre s ∧ 1 ∈ issued pre ∧
      step s (.cancel 1) = some (t, [.cancelled 1 false]) ∧
      Lib.Machine.Run (machine Nat) Lib.Machine.anyStep t post u ∧ .invoked 1 7 ∈ post := by
  obtain ⟨s, t, u, pre, post, hpre, hid, hcancel, hpost, hfired⟩ :
      ∃ (s t u : State Nat) (pre post : List (Event Nat)),
        (machine Nat).exec init [.schedulePeriodic 1 7, .tick] = some (s, pre) ∧
        1 ∈ issued pre ∧ step s (.cancel 1) = some (t, [.cancelled 1 false]) ∧
        (machine Nat).exec t [.ret, .tick] = some (u, post) ∧ .invoked 1 7 ∈ post :=
    ⟨_, _, _, _, _, rfl, by decide, rfl, rfl, by decide⟩
  exact ⟨s, t, u, pre, post, Lib.Machine.run_of_exec_any hpre, hid, hcancel,
    Lib.Machine.run_of_exec_any hpost, hfired⟩

end HftComponents.Timer.Wheel
