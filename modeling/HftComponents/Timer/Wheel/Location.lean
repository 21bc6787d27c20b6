import Mathlib.Algebra.BigOperators.Group.Finset.Basic
import Mathlib.Algebra.Order.BigOperators.Group.Finset
import Mathlib.Data.Fintype.Sigma
import HftComponents.Timer.Wheel.Drain

/-!
# The location map at every call

`LocationsOk w` is what `cancel` relies on: each location names a list that
holds the entry once, and its iterator designates that entry there.

A tick that has more than one timer to fire breaks it.  `fire_slot` swaps the
slot out and erases from `entries_` only the timer it is about to run, so while
the first callback is on, the other due timers are still in `entries_` under
the slot they have left (`locations_broken`), and a `cancel` of one of them
erases a node from a list that does not own it.  Ticks that fire at most one
timer keep it (`locations_ok`).
-/

namespace HftComponents.Timer.Wheel

open TimerWheel

instance : Fintype Level := ⟨{.l0, .l1, .l2, .l3}, by intro l; cases l <;> decide⟩

instance : Fintype Place :=
  Fintype.ofEquiv (Σ l : Level, Fin l.slots.toNat)
    ⟨fun p => ⟨p.1, p.2⟩, fun p => ⟨p.1, p.2⟩, fun _ => rfl, fun _ => rfl⟩

variable {κ : Type} {w : TimerWheel κ} {s : State κ} {os : List (Event κ)}

structure LocationsOk (w : TimerWheel κ) : Prop where
  /-- The list that a location names holds the id once, and the iterator
  designates that node of it. -/
  designates : ∀ id loc, w.entries.lookup id = some loc →
    ∃ n, (w.slots loc.place).filter (fun m => m.entry.id = id) = [n] ∧
      (w.slots loc.place).filter (fun m => m.addr = loc.iter) = [n]
  once : ∀ p, ((w.slots p).map fun n => n.entry.id).Nodup
  distinct : ∀ p q, ∀ n ∈ w.slots p, ∀ m ∈ w.slots q, n.entry.id = m.entry.id → p = q
  pending : w.pending = ∑ p, (w.slots p).length
  cancel_defined : ∀ id, w.cancel id ≠ none

theorem filter_eq_singleton {α : Type} {p : α → Bool} {l : List α} {n : α} (hnd : l.Nodup)
    (hn : n ∈ l) (hp : ∀ m ∈ l, p m = true ↔ m = n) : l.filter p = [n] := by
  have hmem : ∀ m, m ∈ l.filter p ↔ m = n := by
    intro m
    rw [List.mem_filter]
    constructor
    · rintro ⟨hm, hpm⟩
      exact (hp m hm).mp hpm
    · rintro rfl
      exact ⟨hn, (hp m hn).mpr rfl⟩
  exact List.perm_singleton.mp ((List.perm_ext_iff_of_nodup (hnd.filter p)
    (List.nodup_singleton n)).mpr fun m => by rw [hmem m, List.mem_singleton])

theorem TimerWheel.Linked.pending_eq (h : Linked w) : w.pending = ∑ p, (w.slots p).length := by
  have hkeys : w.entries.keys.toFinset =
      Finset.univ.biUnion fun p => ((w.slots p).map fun n => n.entry.id).toFinset := by
    ext id
    simp only [List.mem_toFinset, ← AList.mem_keys, h.mem_entries_iff, Finset.mem_biUnion,
      Finset.mem_univ, true_and, List.mem_map]
    constructor
    · rintro ⟨_, ⟨p, n, hn, rfl⟩, rfl⟩
      exact ⟨p, n, hn, rfl⟩
    · rintro ⟨p, n, hn, rfl⟩
      exact ⟨n.entry, ⟨p, n, hn, rfl⟩, rfl⟩
  rw [pending, ← List.toFinset_card_of_nodup w.entries.keys_nodup, hkeys, Finset.card_biUnion]
  · apply Finset.sum_congr rfl
    intro p _
    rw [List.toFinset_card_of_nodup (h.nodup p), List.length_map]
  · intro p _ q _ hpq
    rw [Function.onFun, Finset.disjoint_left]
    intro id hp hq
    obtain ⟨n, hn, rfl⟩ := List.mem_map.mp (List.mem_toFinset.mp hp)
    obtain ⟨m, hm, he⟩ := List.mem_map.mp (List.mem_toFinset.mp hq)
    exact hpq (h.unique hn hm he.symm).1

theorem TimerWheel.Linked.locationsOk (h : Linked w) : LocationsOk w where
  designates := by
    intro id loc hl
    obtain ⟨n, hn, ha, rfl⟩ := h.designates id loc hl
    have hnd := List.Nodup.of_map _ (h.nodup loc.place)
    refine ⟨n, filter_eq_singleton hnd hn ?_, filter_eq_singleton hnd hn ?_⟩
    · intro m hm
      rw [decide_eq_true_iff]
      refine ⟨?_, ?_⟩
      · intro he
        exact (h.unique hm hn he).2
      · rintro rfl
        rfl
    · intro m hm
      rw [decide_eq_true_iff]
      refine ⟨?_, ?_⟩
      · intro he
        exact h.addr_inj _ m hm n hn (he.trans ha.symm)
      · rintro rfl
        exact ha
  once := h.nodup
  distinct := fun _ _ _ hn _ hm he => (h.unique hn hm he).1
  pending := h.pending_eq
  cancel_defined := by
    intro id
    rcases h.cancel_cases id with ⟨_, hc⟩ | ⟨_, _, hc⟩
    · rw [hc]; simp
    · rw [hc]; simp

/-- The step starts a tick. -/
def startsTick (s : State κ) : Label κ → Prop
  | .tick => True
  | .next => ∃ left total, s.control = .advancing (left + 1) total
  | _ => False

/-- The next tick has at most one timer to fire. -/
def AtMostOneDue (w : TimerWheel κ) : Prop :=
  ∀ e e', w.Holds e → w.Holds e' → e.expiryTick = w.jiffies + 1 → e'.expiryTick = w.jiffies + 1 →
    e = e'

/-- The condition under which `fire_slot` never leaves a due timer behind. -/
def OneAtATime (s : State κ) (l : Label κ) : Prop := startsTick s l → AtMostOneDue s.wheel

/-- A tick with at most one timer to fire swaps out a list of at most one. -/
theorem tick_rest {caller : Caller} (hl : Linked w) (ht : Timely w) (hone : AtMostOneDue w) :
    (tick w caller).1.control.rest = [] := by
  obtain ⟨hlt, hh⟩ := hl.turn
  obtain ⟨hcur, -⟩ := turn_spec ht
  have hdue : ∀ n ∈ w.turn.slots w.turn.currentPlace,
      w.Holds n.entry ∧ n.entry.expiryTick = w.jiffies + 1 := by
    intro n hn
    refine ⟨(hh _).mp ⟨_, n, hn, rfl⟩, ?_⟩
    rw [← turn_jiffies]
    exact eq_of_remaining_eq_zero ((hcur _ n hn).mp rfl)
  have hnd := hlt.nodup w.turn.currentPlace
  rw [tick_eq]
  revert hdue hnd
  generalize w.turn.slots w.turn.currentPlace = list
  intro hdue hnd
  match list with
  | [] => cases caller <;> rfl
  | [n] => rfl
  | n :: m :: rest =>
    have hn := hdue n (by simp)
    have hm := hdue m (by simp)
    have he : n.entry = m.entry := hone _ _ hn.1 hm.1 hn.2 hm.2
    simp [he] at hnd

theorem rest_step {t : State κ} {o : List (Event κ)} {l : Label κ} (h : Sound os s)
    (hr : s.control.rest = []) (hok : OneAtATime s l) (hs : step s l = some (t, o)) :
    t.control.rest = [] := by
  cases step_moves hs with
  | schedule | schedulePeriodic | cancel | pending => exact hr
  | undefined | advance | advanced => rfl
  | tick w => exact tick_rest (h.idle rfl) h.timely (hok trivial)
  | advanceTick w left total => exact tick_rest (h.idle rfl) h.timely (hok ⟨_, _, rfl⟩)
  | ret w caller count e rest =>
    obtain rfl : rest = [] := hr
    cases caller <;> rfl

/-- **The location map is right whenever user code can call**, in every run
whose ticks fire at most one timer each and that hands out no id twice. -/
theorem locations_ok (h : Lib.Machine.Run (machine κ) OneAtATime init os s)
    (hid : (issued os).Nodup) :
    s.control ≠ .undefined ∧ (s.control.open = true → LocationsOk s.wheel) := by
  have hall : Sound os s ∧ s.control.rest = [] :=
    h.invariant_of (P := fun os s => Sound os s ∧ s.control.rest = [])
      (Q := fun os => (issued os).Nodup) nodup_issued_left ⟨Sound.init, rfl⟩
      (fun os _ l _ _ hs hl hq hstep =>
        ⟨hs.1.step hstep hq (sparesDue_of_rest hs.2), rest_step hs.1 hs.2 hl hstep⟩) hid
  exact ⟨hall.1.defined, fun _ => (hall.1.idle hall.2).locationsOk⟩

/-- One of three timers is due, and its callback cancels another. -/
theorem locations_ok_pending :
    ∃ s os, Lib.Machine.Run (machine Nat) OneAtATime init os s ∧
      os = [.scheduled 1 10 1, .scheduled 2 20 2, .scheduledPeriodic 300 30 3, .tickBegan,
        .invoked 1 10, .cancelled 2 true] ∧
      s.wheel.pending = 1 ∧ LocationsOk s.wheel := by
  let w₁ : TimerWheel Nat := (({} : TimerWheel Nat).schedule 1 10).2
  let w : TimerWheel Nat := ((w₁.schedule 2 20).2.schedulePeriodic 300 30).2
  have hfirst : ∀ e, w.Holds e → e.expiryTick = w.jiffies + 1 → e = ⟨1, 1, 0, 10⟩ := by
    intro e he hdue
    rcases holds_add.mp he with he | rfl
    · rcases holds_add.mp he with he | rfl
      · rcases holds_add.mp he with ⟨p, n, hn, -⟩ | rfl
        · exact absurd hn List.not_mem_nil
        · rfl
      · exact absurd hdue (by decide)
    · exact absurd hdue (by decide)
  have hone : AtMostOneDue w := by
    intro e e' he he' hdue hdue'
    rw [hfirst e he hdue, hfirst e' he' hdue']
  have hschedule : ∀ (s : State Nat) (d : UInt64) (cb : Nat), OneAtATime s (.schedule d cb) :=
    fun _ _ _ h => False.elim h
  have hperiodic : ∀ s : State Nat, OneAtATime s (.schedulePeriodic 300 30) :=
    fun _ h => False.elim h
  have hcancel : ∀ s : State Nat, OneAtATime s (.cancel 2) := fun _ h => False.elim h
  have hrun := (((((Lib.Machine.Run.refl (m := machine Nat) init).step
    (hschedule _ 1 10) rfl).step (hschedule _ 2 20) rfl).step (hperiodic _) rfl).step
    (l := .tick) (fun _ => hone) rfl).step (hcancel _) rfl
  exact ⟨_, _, hrun, rfl, rfl, (locations_ok hrun (by decide)).2 rfl⟩

/-- **Two timers due at one tick.**  While the first callback is on, the second
timer is located in a slot that is empty, and to cancel it is undefined. -/
theorem locations_broken :
    ∃ s os, (machine Nat).exec init [.schedule 1 10, .schedule 1 20, .tick] = some (s, os) ∧
      (issued os).Nodup ∧ s.control.open = true ∧ ¬ LocationsOk s.wheel ∧
      (step s (.cancel 2)).map (fun p => p.1.control.open) = some false := by
  refine ⟨_, _, rfl, by decide, rfl, fun h => ?_, by decide⟩
  obtain ⟨n, hn, -⟩ := h.designates 2 ⟨⟨.l0, Level.slotOf 1 .l0⟩, 1⟩ rfl
  exact absurd hn (List.cons_ne_nil _ _).symm

end HftComponents.Timer.Wheel
