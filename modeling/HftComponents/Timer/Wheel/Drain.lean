import HftComponents.Timer.Wheel.Turn

/-!
# The invariant of the timer wheel

`Sound os s` holds in every state of a run that has shown `os`, as long as no
`TimerID` is handed out twice and no callback cancels a timer that `fire_slot`
still has to run: then the wheel, with the entries to run put back, is `Linked`
and `Timely`, these entries are due now, and the timer whose callback is on is
in no list.  `Sound.step` is the step lemma, one case for each label.
-/

namespace HftComponents.Timer.Wheel

open TimerWheel

variable {κ : Type} {w : TimerWheel κ} {s t : State κ} {os o : List (Event κ)}

/-- What is left of the list that `fire_slot` works through. -/
def Control.rest : Control κ → List (Node κ)
  | .callback _ _ _ rest => rest
  | _ => []

def Control.running : Control κ → Option (Entry κ)
  | .callback _ _ e _ => some e
  | _ => none

structure Sound (os : List (Event κ)) (s : State κ) : Prop where
  defined : s.control ≠ .undefined
  linked : Linked (s.wheel.unswap s.wheel.currentPlace s.control.rest)
  timely : Timely s.wheel
  due : ∀ n ∈ s.control.rest, n.entry.expiryTick = s.wheel.jiffies
  running : ∀ e, s.control.running = some e → e.id ∉ s.wheel.entries ∧ e.id ∈ issued os
  known : ∀ id ∈ s.wheel.entries, id ∈ issued os

@[simp] theorem issued_append : issued (os ++ o) = issued os ++ issued o :=
  List.filterMap_append

/-- No id twice in a run, so none twice in any part of it. -/
theorem nodup_issued_left (os o : List (Event κ)) (h : (issued (os ++ o)).Nodup) :
    (issued os).Nodup := by
  rw [issued_append] at h
  exact h.of_append_left

theorem Sound.init : Sound [] (init : State κ) where
  defined := by simp [Wheel.init]
  linked :=
    { located := by intro p n hn; simp [Wheel.init, Control.rest] at hn
      designates := by intro id loc hl; simp [Wheel.init, Control.rest] at hl
      nodup := by intro p; simp [Wheel.init, Control.rest]
      addr_inj := by intro p n hn; simp [Wheel.init, Control.rest] at hn
      addr_lt := by intro p n hn; simp [Wheel.init, Control.rest] at hn }
  timely := by intro p n hn; simp [Wheel.init] at hn
  due := by intro n hn; simp [Wheel.init, Control.rest] at hn
  running := by intro e he; simp [Wheel.init, Control.running] at he
  known := by intro id hid; simp [Wheel.init] at hid

theorem Sound.more (h : Sound os s) (o : List (Event κ)) : Sound (os ++ o) s where
  defined := h.defined
  linked := h.linked
  timely := h.timely
  due := h.due
  running := fun e he => ⟨(h.running e he).1, by simp [(h.running e he).2]⟩
  known := fun id hid => by simp [h.known id hid]

/-! ### Scheduling -/

/-- The ticks that `schedule` and `schedule_periodic` really use. -/
def atLeastOne (d : UInt64) : UInt64 := if d = 0 then 1 else d

theorem toNat_atLeastOne (d : UInt64) : (atLeastOne d).toNat = max d.toNat 1 := by
  unfold atLeastOne
  split
  · rename_i h
    rw [h]
    rfl
  · rename_i h
    have : d.toNat ≠ 0 := fun h0 => h (UInt64.toNat_inj.mp h0)
    omega

theorem schedule_eq (d : UInt64) (cb : κ) : w.schedule d cb = w.add (atLeastOne d) 0 cb := rfl

theorem schedulePeriodic_eq (i : UInt64) (cb : κ) :
    w.schedulePeriodic i cb = w.add (atLeastOne i) (atLeastOne i) cb := rfl

theorem add_fst (d i : UInt64) (cb : κ) : (w.add d i cb).1 = w.nextId := rfl

theorem add_snd_entries (d i : UInt64) (cb : κ) (id : TimerID) :
    id ∈ (w.add d i cb).2.entries ↔ id = w.nextId ∨ id ∈ w.entries := AList.mem_insert _

theorem holds_add {d i : UInt64} {cb : κ} {e : Entry κ} :
    (w.add d i cb).2.Holds e ↔ w.Holds e ∨ e = ⟨w.nextId, w.jiffies + d, i, cb⟩ :=
  holds_insert (w := { w with nextId := w.nextId + 1 })

theorem Sound.add (h : Sound os s) {d i : UInt64} {cb : κ} (hd : 0 < d.toNat)
    (hnew : s.wheel.nextId ∉ issued os) (ho : issued o = [s.wheel.nextId]) :
    Sound (os ++ o) ⟨(s.wheel.add d i cb).2, s.control⟩ where
  defined := h.defined
  linked := by
    have hid : s.wheel.nextId ∉ (s.wheel.unswap s.wheel.currentPlace s.control.rest).entries := by
      intro hm
      exact hnew (h.known _ hm)
    have hl := h.linked.insert (e := ⟨s.wheel.nextId, s.wheel.jiffies + d, i, cb⟩) hid
    rw [← insert_unswap] at hl
    exact hl.of_eq rfl rfl le_rfl
  timely := h.timely.add hd
  due := h.due
  running := by
    intro e he
    obtain ⟨hn, hk⟩ := h.running e he
    refine ⟨?_, by simp [hk]⟩
    intro hm
    rcases (add_snd_entries d i cb e.id).mp hm with heq | hm
    · exact hnew (heq ▸ hk)
    · exact hn hm
  known := by
    intro id hid
    rw [issued_append, ho]
    rcases (add_snd_entries d i cb id).mp hid with rfl | hm
    · simp
    · simp [h.known id hm]

/-! ### Cancelling -/

/-- No cancel names a timer that the tick has yet to run. -/
def SparesDue (s : State κ) (l : Label κ) : Prop :=
  ∀ id, l = .cancel id → ∀ n ∈ s.control.rest, n.entry.id ≠ id

theorem sparesDue_of_rest {l : Label κ} (h : s.control.rest = []) : SparesDue s l := by
  intro id _ n hn
  simp [h] at hn

theorem mem_of_mem_unlink {id : TimerID} {loc : Location} {p : Place} {n : Node κ}
    (hn : n ∈ (w.unlink id loc).slots p) : n ∈ w.slots p := by
  rcases mem_update.mp hn with ⟨rfl, hm⟩ | ⟨-, hm⟩
  · exact List.mem_of_mem_eraseP hm
  · exact hm

theorem Sound.unlink (h : Sound os s) {id : TimerID}
    (hrest : ∀ n ∈ s.control.rest, n.entry.id ≠ id) {loc : Location}
    (hl : s.wheel.entries.lookup id = some loc) :
    Sound os ⟨s.wheel.unlink id loc, s.control⟩ := by
  refine ⟨h.defined, ?_, ?_, h.due, ?_, ?_⟩
  · show Linked ((s.wheel.unlink id loc).unswap s.wheel.currentPlace s.control.rest)
    rw [h.linked.unlink_unswap hrest hl]
    exact h.linked.unlink hl
  · intro p n hn
    exact h.timely p n (mem_of_mem_unlink hn)
  · intro e he
    obtain ⟨hn, hk⟩ := h.running e he
    refine ⟨?_, hk⟩
    intro hm
    exact hn (AList.mem_erase.mp hm).2
  · intro id' hid
    exact h.known id' (AList.mem_erase.mp hid).2

/-! ### Firing -/

theorem sound_fireNext {caller : Caller} {count : Nat} {list : List (Node κ)}
    (hl : Linked (w.unswap w.currentPlace list)) (ht : Timely w)
    (hd : ∀ n ∈ list, n.entry.expiryTick = w.jiffies) (hk : ∀ id ∈ w.entries, id ∈ issued os) :
    Sound os (fireNext w caller count list).1 := by
  cases list with
  | nil =>
    rw [unswap_nil] at hl
    cases caller
    all_goals
      refine ⟨by simp [fireNext], ?_, ht, by simp [fireNext, Control.rest],
        by simp [fireNext, Control.running], hk⟩
      simpa [fireNext, Control.rest] using hl
  | cons n rest =>
    refine ⟨by simp [fireNext], hl.detach, ht, ?_, ?_, ?_⟩
    · intro m hm
      exact hd m (List.mem_cons_of_mem _ hm)
    · intro e he
      obtain rfl : n.entry = e := Option.some.inj he
      refine ⟨by simp [fireNext, eraseId, AList.mem_erase], hk _ ?_⟩
      exact hl.mem_entries (mem_unswap.mpr (Or.inr ⟨rfl, List.mem_cons_self⟩))
    · intro id hid
      exact hk id (AList.mem_erase.mp hid).2

theorem tick_eq (w : TimerWheel κ) (caller : Caller) :
    tick w caller =
      ((fireNext (w.turn.swapOut w.turn.currentPlace) caller 0
          (w.turn.slots w.turn.currentPlace)).1,
        .tickBegan :: (fireNext (w.turn.swapOut w.turn.currentPlace) caller 0
          (w.turn.slots w.turn.currentPlace)).2) := rfl

/-- A tick starts from a linked and timely wheel and leaves a sound state. -/
theorem sound_tick {caller : Caller} (hl : Linked w) (ht : Timely w)
    (hk : ∀ id ∈ w.entries, id ∈ issued os) : Sound os (tick w caller).1 := by
  obtain ⟨hlt, hh⟩ := hl.turn
  obtain ⟨hcur, htw⟩ := turn_spec ht
  have hdue : ∀ n ∈ w.turn.slots w.turn.currentPlace, n.entry.expiryTick = w.turn.jiffies := by
    intro n hn
    exact eq_of_remaining_eq_zero ((hcur _ n hn).mp rfl)
  have hkt : ∀ id ∈ w.turn.entries, id ∈ issued os := by
    intro id hid
    obtain ⟨e, he, rfl⟩ := hlt.mem_entries_iff.mp hid
    exact hk _ (hl.mem_entries_iff.mpr ⟨e, (hh e).mp he, rfl⟩)
  refine sound_fireNext ?_ htw hdue hkt
  show Linked ((w.turn.swapOut w.turn.currentPlace).unswap w.turn.currentPlace _)
  rw [unswap_swapOut]
  exact hlt

theorem Sound.idle (h : Sound os s) (hc : s.control.rest = []) : Linked s.wheel := by
  simpa [hc] using h.linked

theorem Sound.between (h : Sound os s) (hrest : s.control.rest = []) {c : Control κ}
    (hc : c ≠ .undefined) (hr : c.rest = []) (hrun : c.running = none) :
    Sound os ⟨s.wheel, c⟩ where
  defined := hc
  linked := by simpa [hr] using h.idle hrest
  timely := h.timely
  due := by simp [hr]
  running := by simp [hrun]
  known := h.known

theorem Sound.afterCallback (h : Sound os s) {e : Entry κ} (he : s.control.running = some e) :
    Linked ((s.wheel.afterCallback e).unswap (s.wheel.afterCallback e).currentPlace
      s.control.rest) ∧
    Timely (s.wheel.afterCallback e) ∧ (s.wheel.afterCallback e).jiffies = s.wheel.jiffies ∧
    ∀ id ∈ (s.wheel.afterCallback e).entries, id ∈ issued os := by
  obtain ⟨hn, hk⟩ := h.running e he
  let w0 : TimerWheel κ :=
    { s.wheel with stats := { s.wheel.stats with fired := s.wheel.stats.fired + 1 } }
  have hl0 : Linked (w0.unswap w0.currentPlace s.control.rest) := h.linked.of_eq rfl rfl le_rfl
  by_cases hi : e.intervalTicks ≠ 0
  · have heq : s.wheel.afterCallback e =
        w0.insert { e with expiryTick := w0.jiffies + e.intervalTicks } := by
      simp only [TimerWheel.afterCallback, if_pos hi]
      rfl
    have ht := h.timely.afterCallback e
    rw [heq] at ht ⊢
    refine ⟨?_, ht, rfl, ?_⟩
    · have := hl0.insert (e := { e with expiryTick := w0.jiffies + e.intervalTicks }) hn
      rw [← insert_unswap] at this
      exact this
    · intro id hid
      rcases (AList.mem_insert _).mp hid with rfl | hm
      · exact hk
      · exact h.known id hm
  · have heq : s.wheel.afterCallback e = w0 := by
      simp only [TimerWheel.afterCallback, if_neg hi]
      rfl
    rw [heq]
    exact ⟨hl0, h.timely, rfl, h.known⟩

/-! ### The step lemma -/

/-- **One step keeps the state sound**, when it hands out no id a second time
and cancels no timer that the swapped-out list still has to run. -/
theorem Sound.step (h : Sound os s) {l : Label κ} (hs : step s l = some (t, o))
    (hid : (issued (os ++ o)).Nodup) (hc : SparesDue s l) : Sound (os ++ o) t := by
  rw [issued_append, List.nodup_append] at hid
  cases step_moves hs with
  | schedule _ d cb =>
    rw [schedule_eq]
    refine h.add (by rw [toNat_atLeastOne]; omega) ?_ rfl
    intro hm
    exact hid.2.2 _ hm _ List.mem_cons_self rfl
  | schedulePeriodic _ i cb =>
    rw [schedulePeriodic_eq]
    refine h.add (by rw [toNat_atLeastOne]; omega) ?_ rfl
    intro hm
    exact hid.2.2 _ hm _ List.mem_cons_self rfl
  | @cancel w w' c _ id found hcan =>
    have hrest := hc id rfl
    rcases h.linked.cancel_cases_unswap hrest with ⟨_, hcan'⟩ | ⟨loc, hl, hcan'⟩
    · obtain ⟨rfl, rfl⟩ := Prod.mk.inj (Option.some.inj (hcan.symm.trans hcan'))
      exact h.more _
    · obtain ⟨rfl, rfl⟩ := Prod.mk.inj (Option.some.inj (hcan.symm.trans hcan'))
      exact (h.unlink hrest hl).more _
  | @undefined w c _ id hcan =>
    rcases h.linked.cancel_cases_unswap (hc id rfl) with ⟨_, hcan'⟩ | ⟨loc, hl, hcan'⟩
    · exact absurd (hcan.symm.trans hcan') (by simp)
    · exact absurd (hcan.symm.trans hcan') (by simp)
  | pending _ => exact h.more _
  | tick w => exact (sound_tick (h.idle rfl) h.timely h.known).more _
  | advance w n => exact (h.between rfl (by simp) rfl rfl).more _
  | advanced w total => exact (h.between rfl (by simp) rfl rfl).more _
  | advanceTick w left total => exact (sound_tick (h.idle rfl) h.timely h.known).more _
  | ret w caller count e rest =>
    obtain ⟨hl, ht, hj, hk⟩ := h.afterCallback rfl
    exact (sound_fireNext hl ht (by rw [hj]; exact h.due) hk).more _

/-- **Every state of a run is sound**, if the run hands out no id twice and
cancels no timer of a swapped-out list. -/
theorem sound_of_run {ok : State κ → Label κ → Prop}
    (hok : ∀ os s l, Sound os s → ok s l → SparesDue s l)
    (h : Lib.Machine.Run (machine κ) ok init os s) (hid : (issued os).Nodup) : Sound os s :=
  h.invariant_of (Q := fun os => (issued os).Nodup) nodup_issued_left Sound.init
    (fun os _ l _ _ hs hl hq hstep => hs.step hstep hq (hok os _ l hs hl)) hid

end HftComponents.Timer.Wheel
