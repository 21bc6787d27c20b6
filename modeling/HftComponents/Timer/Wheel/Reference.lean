import Mathlib.Data.Set.Card
import HftComponents.Timer.Wheel.Drain

/-!
# The wheel is a naive timer table

`Reference` is what a timer wheel is for: a clock that counts ticks without
bound, and a map from an id to an expiry and an interval.  `Follows` says what
the reference does on each event; a tick makes due exactly the timers whose
expiry is the new time, and ends when each of them has been invoked.

`wheel_follows` is the refinement: every run of the wheel that hands out no id
twice, with cancels only between ticks and counts that fit an `int`, is a run of
the reference.  There the expiry of an entry is the reference's clock plus the
time that `remaining` reads off the 64-bit clock.

The condition on ids is needed.  `next_id_` comes back to `1` after `2^64`
timers, and a timer that has lived as long is then overwritten in `entries_`
while its node stays in its slot (`ids_wrap`).
-/

namespace HftComponents.Timer.Wheel

open TimerWheel Lib.Machine

variable {κ : Type} {w : TimerWheel κ} {s t : State κ} {os o : List (Event κ)}

/-! ### The reference -/

/-- A row of the table; `interval = 0` is a one-shot. -/
structure Row (κ : Type) where
  expiry : Nat
  interval : Nat
  cb : κ

/-- A tick in progress: the timers it still has to invoke, how many callbacks
have returned, and the timer whose callback is on. -/
structure Firing (κ : Type) where
  due : Set TimerID
  count : Nat
  running : Option (TimerID × Row κ)

/-- `left` is the number of ticks that the `advance` in progress still has to
do, and `total` what its ticks have counted so far. -/
structure Reference (κ : Type) where
  now : Nat := 0
  timers : TimerID → Option (Row κ) := fun _ => none
  firing : Option (Firing κ) := none
  left : Option Nat := none
  total : Nat := 0

namespace Reference

noncomputable def size (r : Reference κ) : Nat := {id | r.timers id ≠ none}.ncard

def set (r : Reference κ) (id : TimerID) (t : Option (Row κ)) : Reference κ :=
  { r with timers := Function.update r.timers id t }

/-- What the reference does on an event. -/
inductive Follows : Reference κ → Event κ → Reference κ → Prop
  | scheduled (r : Reference κ) (d : UInt64) (cb : κ) (id : TimerID) :
      Follows r (.scheduled d cb id) (r.set id (some ⟨r.now + max d.toNat 1, 0, cb⟩))
  | scheduledPeriodic (r : Reference κ) (i : UInt64) (cb : κ) (id : TimerID) :
      Follows r (.scheduledPeriodic i cb id)
        (r.set id (some ⟨r.now + max i.toNat 1, max i.toNat 1, cb⟩))
  | cancelled (r : Reference κ) (id : TimerID) :
      Follows r (.cancelled id (r.timers id).isSome) (r.set id none)
  | counted (r : Reference κ) : Follows r (.counted r.size) r
  | tickBegan (r : Reference κ) (hf : r.firing = none) (hleft : r.left ≠ some 0) :
      Follows r .tickBegan
        { r with
          now := r.now + 1
          left := r.left.map Nat.pred
          firing := some ⟨{id | ∃ t, r.timers id = some t ∧ t.expiry = r.now + 1}, 0, none⟩ }
  | invoked (r : Reference κ) {f : Firing κ} {id : TimerID} {t : Row κ}
      (hf : r.firing = some f) (hrun : f.running = none) (hid : id ∈ f.due)
      (ht : r.timers id = some t) :
      Follows r (.invoked id t.cb)
        { r.set id none with firing := some ⟨f.due \ {id}, f.count, some (id, t)⟩ }
  | returned (r : Reference κ) {f : Firing κ} {id : TimerID} {t : Row κ}
      (hf : r.firing = some f) (hrun : f.running = some (id, t)) :
      Follows r .returned
        { (if t.interval = 0 then r
            else r.set id (some { t with expiry := r.now + t.interval })) with
          firing := some ⟨f.due, f.count + 1, none⟩ }
  | ticked (r : Reference κ) {f : Firing κ} (hf : r.firing = some f) (hrun : f.running = none)
      (hdue : ∀ id ∈ f.due, r.timers id = none) :
      Follows r (.ticked f.count) { r with firing := none, total := r.total + f.count }
  | advanceBegan (r : Reference κ) (hf : r.firing = none) (hleft : r.left = none) (n : UInt64) :
      Follows r (.advanceBegan n) { r with left := some n.toNat, total := 0 }
  | advanced (r : Reference κ) (hf : r.firing = none) (hleft : r.left = some 0) :
      Follows r (.advanced r.total) { r with left := none }

end Reference

open Reference

/-! ### What ties a wheel to the reference -/

/-- The reference's view of an entry. -/
def rowOf (now : Nat) (j : UInt64) (e : Entry κ) : Row κ :=
  ⟨now + remaining j e.expiryTick, e.intervalTicks.toNat, e.cb⟩

/-- The table holds what the slots hold. -/
def Tracks (w : TimerWheel κ) (now : Nat) (timers : TimerID → Option (Row κ)) : Prop :=
  ∀ id t, timers id = some t ↔ ∃ e, w.Holds e ∧ e.id = id ∧ t = rowOf now w.jiffies e

theorem Tracks.of_holds {w' : TimerWheel κ} {now : Nat} {timers : TimerID → Option (Row κ)}
    (h : Tracks w now timers) (hj : w'.jiffies = w.jiffies) (hh : ∀ e, w'.Holds e ↔ w.Holds e) :
    Tracks w' now timers := by
  intro id t
  rw [h id t, hj]
  simp only [hh]

theorem Tracks.isSome_iff {now : Nat} {timers : TimerID → Option (Row κ)}
    (h : Tracks w now timers) (hl : Linked w) (id : TimerID) :
    (timers id).isSome = true ↔ id ∈ w.entries := by
  rw [hl.mem_entries_iff, Option.isSome_iff_exists]
  constructor
  · rintro ⟨t, ht⟩
    obtain ⟨e, he, hid, -⟩ := (h id t).mp ht
    exact ⟨e, he, hid⟩
  · rintro ⟨e, he, hid⟩
    exact ⟨_, (h id _).mpr ⟨e, he, hid, rfl⟩⟩

theorem Tracks.insert {now : Nat} {timers : TimerID → Option (Row κ)} (h : Tracks w now timers)
    (hl : Linked w) {e : Entry κ} (hid : e.id ∉ w.entries) :
    Tracks (w.insert e) now (Function.update timers e.id (some (rowOf now w.jiffies e))) := by
  intro id t
  simp only [holds_insert, insert_jiffies]
  by_cases heq : id = e.id
  · subst heq
    rw [Function.update_self]
    constructor
    · intro ht
      exact ⟨e, Or.inr rfl, rfl, (Option.some.inj ht).symm⟩
    · rintro ⟨e', he' | rfl, hi, rfl⟩
      · exact absurd (hl.mem_entries_iff.mpr ⟨e', he', hi⟩) hid
      · rfl
  · rw [Function.update_of_ne heq, h id t]
    constructor
    · rintro ⟨e', he', hi⟩
      exact ⟨e', Or.inl he', hi⟩
    · rintro ⟨e', he' | rfl, hi, ht⟩
      · exact ⟨e', he', hi, ht⟩
      · exact absurd hi.symm heq

theorem Tracks.remove {w' : TimerWheel κ} {now : Nat} {timers : TimerID → Option (Row κ)}
    {id : TimerID} (h : Tracks w now timers) (hj : w'.jiffies = w.jiffies)
    (hh : ∀ e, w'.Holds e ↔ w.Holds e ∧ e.id ≠ id) :
    Tracks w' now (Function.update timers id none) := by
  intro id' t
  simp only [hh, hj]
  by_cases heq : id' = id
  · subst heq
    rw [Function.update_self]
    constructor
    · intro ht
      cases ht
    · rintro ⟨e, ⟨_, hne⟩, hi, _⟩
      exact absurd hi hne
  · rw [Function.update_of_ne heq, h id' t]
    constructor
    · rintro ⟨e, he, hi, ht⟩
      exact ⟨e, ⟨he, hi ▸ heq⟩, hi, ht⟩
    · rintro ⟨e, ⟨he, _⟩, hi, ht⟩
      exact ⟨e, he, hi, ht⟩

/-- One tick: the clock and the time that remains move together. -/
theorem Tracks.turn {now : Nat} {timers : TimerID → Option (Row κ)} (h : Tracks w now timers)
    (hl : Linked w) (ht : Timely w) : Tracks w.turn (now + 1) timers := by
  intro id t
  rw [h id t]
  simp only [hl.turn.2, turn_jiffies]
  have hpos : ∀ e, w.Holds e → rowOf (now + 1) (w.jiffies + 1) e = rowOf now w.jiffies e := by
    rintro e ⟨p, n, hn, rfl⟩
    have hp := (ht p n hn).pos
    simp only [rowOf, remaining_succ hp, Row.mk.injEq, and_true]
    omega
  constructor
  · rintro ⟨e, he, hi, rfl⟩
    exact ⟨e, he, hi, (hpos e he).symm⟩
  · rintro ⟨e, he, hi, rfl⟩
    exact ⟨e, he, hi, hpos e he⟩

theorem Tracks.size_eq {r : Reference κ} (h : Tracks w r.now r.timers) (hl : Linked w) :
    r.size = w.pending := by
  have hset : {id | r.timers id ≠ none} = (w.entries.keys.toFinset : Set TimerID) := by
    ext id
    rw [Set.mem_ofPred_eq, ← Option.isSome_iff_ne_none, h.isSome_iff hl, List.coe_toFinset,
      Set.mem_ofPred_eq, AList.mem_keys]
  rw [Reference.size, hset, Set.ncard_coe_finset,
    List.toFinset_card_of_nodup w.entries.keys_nodup, pending]

/-- The `advance` that the two sides are in, if any. -/
def InCall : Caller → Reference κ → Prop
  | .user, r => r.left = none
  | .advance left total, r => r.left = some left ∧ r.total = total

/-- Where the thread is and what the reference is doing. -/
def InStep : Control κ → Reference κ → Prop
  | .idle, r => r.firing = none ∧ r.left = none
  | .advancing left total, r => r.firing = none ∧ r.left = some left ∧ r.total = total
  | .callback caller count e rest, r =>
    (r.firing = some ⟨{id | ∃ n ∈ rest, n.entry.id = id}, count,
      some (e.id, ⟨r.now, e.intervalTicks.toNat, e.cb⟩)⟩) ∧ InCall caller r
  | .undefined, _ => False

structure Simulates (s : State κ) (r : Reference κ) : Prop where
  tracks : Tracks (s.wheel.unswap s.wheel.currentPlace s.control.rest) r.now r.timers
  control : InStep s.control r

theorem simulates_init : Simulates (init : State κ) {} where
  tracks := by
    intro id t
    simp [Wheel.init, Control.rest, Holds]
  control := ⟨rfl, rfl⟩

theorem InStep.set {c : Control κ} {r : Reference κ} (h : InStep c r) (id : TimerID)
    (t : Option (Row κ)) : InStep c (r.set id t) := by
  cases c with
  | callback caller => cases caller <;> exact h
  | _ => exact h

/-! ### The steps -/

theorem Simulates.add {r : Reference κ} (h : Simulates s r) (hs : Sound os s) {d i : UInt64}
    {cb : κ} (hnew : s.wheel.nextId ∉ issued os) :
    Simulates ⟨(s.wheel.add d i cb).2, s.control⟩
      (r.set s.wheel.nextId (some ⟨r.now + d.toNat, i.toNat, cb⟩)) where
  tracks := by
    have hid : s.wheel.nextId ∉ (s.wheel.unswap s.wheel.currentPlace s.control.rest).entries := by
      intro hm
      exact hnew (hs.known _ hm)
    have ht := h.tracks.insert hs.linked
      (e := ⟨s.wheel.nextId, s.wheel.jiffies + d, i, cb⟩) hid
    rw [← insert_unswap] at ht
    simp only [rowOf, unswap_jiffies, remaining_add] at ht
    exact ht.of_holds rfl fun _ => Iff.rfl
  control := h.control.set _ _

/-- The loop head of `fire_slot`, on both sides. -/
theorem follows_fireNext (caller : Caller) (count : Nat) (list : List (Node κ)) {r : Reference κ}
    (hl : Linked (w.unswap w.currentPlace list)) (hd : ∀ n ∈ list, n.entry.expiryTick = w.jiffies)
    (ht : Tracks (w.unswap w.currentPlace list) r.now r.timers)
    (hf : r.firing = some ⟨{id | ∃ n ∈ list, n.entry.id = id}, count, none⟩)
    (hcall : InCall caller r) :
    ∃ r', Accepts Follows r (fireNext w caller count list).2 r' ∧
      Simulates (fireNext w caller count list).1 r' := by
  cases list with
  | nil =>
    have hfol := Follows.ticked r hf rfl (by simp)
    rw [unswap_nil] at ht
    cases caller with
    | user =>
      refine ⟨_, .single hfol, ?_, rfl, hcall⟩
      simpa [fireNext, Control.rest] using ht
    | advance left total =>
      refine ⟨_, .single hfol, ?_, rfl, hcall.1, by rw [hcall.2]⟩
      simpa [fireNext, Control.rest] using ht
  | cons n rest =>
    have hn : (w.unswap w.currentPlace (n :: rest)).Holds n.entry :=
      holds_unswap.mpr (Or.inr ⟨n, List.mem_cons_self, rfl⟩)
    have htn := (ht n.entry.id _).mpr ⟨n.entry, hn, rfl, rfl⟩
    have hexp : rowOf r.now w.jiffies n.entry =
        ⟨r.now, n.entry.intervalTicks.toNat, n.entry.cb⟩ := by
      rw [rowOf, hd n List.mem_cons_self, remaining_self, Nat.add_zero]
    rw [unswap_jiffies, hexp] at htn
    have hfol := Follows.invoked r hf rfl ⟨n, List.mem_cons_self, rfl⟩ htn
    refine ⟨_, .single hfol, ?_, ?_, by cases caller <;> exact hcall⟩
    · refine ht.remove rfl ?_
      intro e
      exact hl.holds_detach
    · -- what is left to invoke are the ids of the rest of the list
      have hnd := hl.nodup w.currentPlace
      simp only [unswap, Function.update_self, List.cons_append, List.map_cons,
        List.nodup_cons] at hnd
      have hdue : {id | ∃ m ∈ n :: rest, m.entry.id = id} \ {n.entry.id} =
          {id | ∃ m ∈ rest, m.entry.id = id} := by
        ext id
        simp only [Set.mem_sdiff, Set.mem_ofPred_eq, List.mem_cons, Set.mem_singleton_iff]
        constructor
        · rintro ⟨⟨m, rfl | hm, rfl⟩, hne⟩
          · exact absurd rfl hne
          · exact ⟨m, hm, rfl⟩
        · rintro ⟨m, hm, rfl⟩
          refine ⟨⟨m, Or.inr hm, rfl⟩, ?_⟩
          intro he
          apply hnd.1
          exact List.mem_map.mpr ⟨m, List.mem_append_left _ hm, he⟩
      show some _ = some _
      rw [hdue]
      rfl

theorem follows_tick {caller : Caller} {r : Reference κ} (hl : Linked w) (ht : Timely w)
    (htr : Tracks w r.now r.timers) (hf : r.firing = none) (hleft : r.left ≠ some 0)
    (hcall : InCall caller { r with left := r.left.map Nat.pred }) :
    ∃ r', Accepts Follows r (tick w caller).2 r' ∧ Simulates (tick w caller).1 r' := by
  obtain ⟨hcur, -⟩ := turn_spec ht
  obtain ⟨hlt, hh⟩ := hl.turn
  have htrt := htr.turn hl ht
  -- the due timers of the reference are those of the slot that is swapped out
  have hdue : {id | ∃ t, r.timers id = some t ∧ t.expiry = r.now + 1} =
      {id | ∃ n ∈ w.turn.slots w.turn.currentPlace, n.entry.id = id} := by
    ext id
    constructor
    · rintro ⟨t, hti, hexp⟩
      obtain ⟨e, ⟨p, n, hn, rfl⟩, rfl, rfl⟩ := (htrt id t).mp hti
      have h0 : remaining w.turn.jiffies n.entry.expiryTick = 0 := by
        simp only [rowOf] at hexp
        omega
      have hp := (hcur p n hn).mpr h0
      exact ⟨n, hp ▸ hn, rfl⟩
    · rintro ⟨n, hn, rfl⟩
      refine ⟨_, (htrt _ _).mpr ⟨n.entry, ⟨_, n, hn, rfl⟩, rfl, rfl⟩, ?_⟩
      simp only [rowOf, (hcur _ n hn).mp rfl]
  have hbegan := Follows.tickBegan r hf hleft
  rw [hdue] at hbegan
  have hd : ∀ n ∈ w.turn.slots w.turn.currentPlace, n.entry.expiryTick = w.turn.jiffies := by
    intro n hn
    exact eq_of_remaining_eq_zero ((hcur _ n hn).mp rfl)
  have hunswap := unswap_swapOut (w := w.turn) w.turn.currentPlace
  rw [tick_eq]
  obtain ⟨r', hacc, hsim⟩ := follows_fireNext (w := w.turn.swapOut w.turn.currentPlace)
    caller 0 (w.turn.slots w.turn.currentPlace)
    (r := { r with
      now := r.now + 1, left := r.left.map Nat.pred, firing := some ⟨_, 0, none⟩ })
    (by rw [← hunswap] at hlt; exact hlt) hd (by rw [← hunswap] at htrt; exact htrt) rfl
    (by cases caller <;> exact hcall)
  exact ⟨r', .cons hbegan hacc, hsim⟩

/-- Cancels come between ticks, not from a callback. -/
def CancelsBetweenTicks (s : State κ) (l : Label κ) : Prop :=
  ∀ id, l = .cancel id → s.control = .idle

theorem CancelsBetweenTicks.sparesDue {l : Label κ} (h : CancelsBetweenTicks s l) :
    SparesDue s l := by
  intro id hl n hn
  rw [h id hl] at hn
  cases hn

/-- What `advance` has counted before the tick. -/
def Caller.total : Caller → Nat
  | .user => 0
  | .advance _ total => total

/-- `++count` in `fire_slot` and `total += tick()` do not overflow an `int`. -/
def CountsFit (s : State κ) : Label κ → Prop
  | .ret =>
    match s.control with
    | .callback caller count _ rest =>
      count + 1 < 2 ^ 31 ∧ (rest = [] → caller.total + (count + 1) < 2 ^ 31)
    | _ => True
  | _ => True

/-- The steps of the runs that are compared. -/
def Orderly (s : State κ) (l : Label κ) : Prop := CancelsBetweenTicks s l ∧ CountsFit s l

/-- The counts of a state are `int`s. -/
def Counts : Control κ → Prop
  | .advancing _ total => total < 2 ^ 31
  | .callback caller count _ _ => caller.total < 2 ^ 31 ∧ count < 2 ^ 31
  | _ => True

/-- So are those that `tick` and `advance` return. -/
def Event.Fits : Event κ → Prop
  | .ticked count => count < 2 ^ 31
  | .advanced total => total < 2 ^ 31
  | _ => True

theorem counts_fireNext (w : TimerWheel κ) {caller : Caller} {count : Nat} (list : List (Node κ))
    (htotal : caller.total < 2 ^ 31) (hcount : count < 2 ^ 31)
    (hsum : list = [] → caller.total + count < 2 ^ 31) :
    Counts (fireNext w caller count list).1.control ∧
      ∀ e ∈ (fireNext w caller count list).2, e.Fits := by
  cases list with
  | cons n rest => exact ⟨⟨htotal, hcount⟩, by simp [fireNext, Event.Fits]⟩
  | nil =>
    cases caller with
    | user => exact ⟨trivial, by simpa [fireNext, Event.Fits] using hcount⟩
    | advance left total => exact ⟨hsum rfl, by simpa [fireNext, Event.Fits] using hcount⟩

theorem counts_step {l : Label κ} (h : Counts s.control) (hfit : CountsFit s l)
    (hstep : step s l = some (t, o)) : Counts t.control ∧ ∀ e ∈ o, e.Fits := by
  cases step_moves hstep with
  | tick w =>
    have hzero : Caller.user.total < 2 ^ 31 := by decide
    obtain ⟨hc, he⟩ := counts_fireNext (w.turn.swapOut w.turn.currentPlace)
      (w.turn.slots w.turn.currentPlace) hzero hzero fun _ => hzero
    exact ⟨hc, List.forall_mem_cons.mpr ⟨trivial, he⟩⟩
  | advanceTick w left total =>
    have hzero : 0 < 2 ^ 31 := by decide
    have htotal : (Caller.advance left total).total < 2 ^ 31 := h
    obtain ⟨hc, he⟩ := counts_fireNext (w.turn.swapOut w.turn.currentPlace)
      (w.turn.slots w.turn.currentPlace) htotal hzero fun _ => htotal
    exact ⟨hc, List.forall_mem_cons.mpr ⟨trivial, he⟩⟩
  | ret w caller count e rest =>
    obtain ⟨hcount, hsum⟩ := hfit
    obtain ⟨hc, he⟩ := counts_fireNext (w.afterCallback e) rest h.1 hcount hsum
    exact ⟨hc, List.forall_mem_cons.mpr ⟨trivial, he⟩⟩
  | advanced w total => exact ⟨trivial, List.forall_mem_singleton.mpr h⟩
  | advance w n => exact ⟨show 0 < 2 ^ 31 by decide, List.forall_mem_singleton.mpr trivial⟩
  | undefined => exact ⟨trivial, nofun⟩
  | _ => exact ⟨h, List.forall_mem_singleton.mpr trivial⟩

theorem Simulates.cancel {r : Reference κ} {w' : TimerWheel κ} {id : TimerID} {found : Bool}
    (h : Simulates ⟨w, .idle⟩ r) (hl : Linked w) (hcan : w.cancel id = some (found, w')) :
    ∃ r', Accepts Follows r [.cancelled id found] r' ∧ Simulates ⟨w', .idle⟩ r' := by
  have htr : Tracks w r.now r.timers := by simpa [Control.rest] using h.tracks
  have hfol := Follows.cancelled r id
  rcases hl.cancel_cases id with ⟨hn, hcan'⟩ | ⟨loc, hlk, hcan'⟩
  · obtain ⟨rfl, rfl⟩ := Prod.mk.inj (Option.some.inj (hcan.symm.trans hcan'))
    have hnone : r.timers id = none := by
      rw [← Option.not_isSome_iff_eq_none, htr.isSome_iff hl]
      exact hn
    rw [hnone] at hfol
    refine ⟨_, .single hfol, ?_, h.control.set _ _⟩
    rw [Reference.set, ← hnone, Function.update_eq_self]
    exact h.tracks
  · obtain ⟨rfl, rfl⟩ := Prod.mk.inj (Option.some.inj (hcan.symm.trans hcan'))
    rw [(htr.isSome_iff hl id).mpr (mem_entries_of_lookup hlk)] at hfol
    refine ⟨_, .single hfol, ?_, h.control.set _ _⟩
    show Tracks ((w.unlink id loc).unswap _ []) r.now (Function.update r.timers id none)
    rw [unswap_nil]
    refine htr.remove rfl ?_
    intro e
    exact hl.holds_unlink hlk

theorem Simulates.ret {r : Reference κ} {caller : Caller} {count : Nat} {e : Entry κ}
    {rest : List (Node κ)} (h : Simulates ⟨w, .callback caller count e rest⟩ r)
    (hs : Sound os ⟨w, .callback caller count e rest⟩) :
    ∃ r', Accepts Follows r
        (.returned :: (fireNext (w.afterCallback e) caller (count + 1) rest).2) r' ∧
      Simulates (fireNext (w.afterCallback e) caller (count + 1) rest).1 r' := by
  obtain ⟨hf, hcall⟩ := h.control
  obtain ⟨hl, -, hj, -⟩ := hs.afterCallback rfl
  have hd : ∀ n ∈ rest, n.entry.expiryTick = (w.afterCallback e).jiffies := by
    rw [hj]
    exact hs.due
  have hret := Follows.returned r hf rfl
  obtain ⟨hn, -⟩ := hs.running e rfl
  by_cases hi : e.intervalTicks.toNat = 0
  · have heq : e.intervalTicks = 0 := UInt64.toNat_inj.mp hi
    rw [if_pos hi] at hret
    have htr : Tracks ((w.afterCallback e).unswap (w.afterCallback e).currentPlace rest)
        r.now r.timers := by
      rw [afterCallback, if_neg (by simp [heq])]
      exact h.tracks.of_holds rfl fun _ => Iff.rfl
    obtain ⟨r', hacc, hsim⟩ := follows_fireNext caller (count + 1) rest
      (r := { r with firing := some ⟨_, count + 1, none⟩ }) hl hd htr rfl
      (by cases caller <;> exact hcall)
    exact ⟨r', .cons hret hacc, hsim⟩
  · have hne : e.intervalTicks ≠ 0 := by
      intro h0
      apply hi
      rw [h0]
      rfl
    rw [if_neg hi] at hret
    have htr : Tracks ((w.afterCallback e).unswap (w.afterCallback e).currentPlace rest) r.now
        (r.set e.id
          (some ⟨r.now + e.intervalTicks.toNat, e.intervalTicks.toNat, e.cb⟩)).timers := by
      rw [afterCallback, if_pos hne]
      have := h.tracks.insert hs.linked
        (e := { e with expiryTick := w.jiffies + e.intervalTicks }) hn
      rw [← insert_unswap] at this
      simp only [rowOf, unswap_jiffies, remaining_add] at this
      exact this.of_holds rfl fun _ => Iff.rfl
    obtain ⟨r', hacc, hsim⟩ := follows_fireNext caller (count + 1) rest
      (r := { r.set e.id _ with firing := some ⟨_, count + 1, none⟩ }) hl hd htr rfl
      (by cases caller <;> exact hcall)
    exact ⟨r', .cons hret hacc, hsim⟩

/-- **One step of the wheel is followed by the reference.** -/
theorem Simulates.step {r : Reference κ} (h : Simulates s r) (hs : Sound os s) {l : Label κ}
    (hstep : step s l = some (t, o)) (hid : (issued (os ++ o)).Nodup)
    (hok : CancelsBetweenTicks s l) : ∃ r', Accepts Follows r o r' ∧ Simulates t r' := by
  rw [issued_append, List.nodup_append] at hid
  cases step_moves hstep with
  | schedule _ d cb =>
    have hnew := fun hm => hid.2.2 _ hm _ List.mem_cons_self rfl
    refine ⟨_, .single (.scheduled r d cb _), ?_⟩
    rw [schedule_eq, add_fst, ← toNat_atLeastOne]
    exact h.add hs hnew
  | schedulePeriodic _ i cb =>
    have hnew := fun hm => hid.2.2 _ hm _ List.mem_cons_self rfl
    refine ⟨_, .single (.scheduledPeriodic r i cb _), ?_⟩
    rw [schedulePeriodic_eq, add_fst, ← toNat_atLeastOne]
    exact h.add hs hnew
  | @cancel w w' c _ id found hcan =>
    obtain rfl : c = .idle := hok id rfl
    exact h.cancel (hs.idle rfl) hcan
  | @undefined w c _ id hcan =>
    obtain rfl : c = .idle := hok id rfl
    rcases (hs.idle rfl).cancel_cases id with ⟨_, hcan'⟩ | ⟨loc, hl, hcan'⟩
    · exact absurd (hcan.symm.trans hcan') (by simp)
    · exact absurd (hcan.symm.trans hcan') (by simp)
  | @pending w c _ =>
    have hfol := Follows.counted r
    rw [h.tracks.size_eq hs.linked] at hfol
    exact ⟨r, .single hfol, h⟩
  | tick w =>
    have htr : Tracks w r.now r.timers := by simpa [Control.rest] using h.tracks
    obtain ⟨hf, hleft⟩ := h.control
    refine follows_tick (hs.idle rfl) hs.timely htr hf ?_ ?_
    · rw [hleft]
      exact Option.some_ne_none 0 |>.symm
    · show r.left.map Nat.pred = none
      rw [hleft]
      rfl
  | advance w n =>
    obtain ⟨hf, hleft⟩ := h.control
    refine ⟨_, .single (.advanceBegan r hf hleft n), ?_, hf, rfl, rfl⟩
    simpa [Control.rest] using h.tracks
  | advanced w total =>
    obtain ⟨hf, hleft, htot⟩ := h.control
    have hfol := Follows.advanced r hf hleft
    rw [htot] at hfol
    refine ⟨_, .single hfol, ?_, hf, rfl⟩
    simpa [Control.rest] using h.tracks
  | advanceTick w left total =>
    obtain ⟨hf, hleft, htot⟩ := h.control
    have htr : Tracks w r.now r.timers := by simpa [Control.rest] using h.tracks
    refine follows_tick (hs.idle rfl) hs.timely htr hf ?_ ⟨?_, htot⟩
    · rw [hleft]
      simp
    · show r.left.map Nat.pred = some left
      rw [hleft]
      rfl
  | ret w caller count e rest => exact h.ret hs

/-- **The timer wheel refines the naive timer table.**  In every run with
cancels between ticks and counts in the range of `int` that hands out no id twice,
the wheel shows only what the reference does, and never reaches undefined
behaviour. -/
theorem wheel_follows (h : Run (machine κ) Orderly init os s) (hid : (issued os).Nodup) :
    s.control ≠ .undefined ∧ (∀ e ∈ os, e.Fits) ∧
      ∃ r, Accepts Follows ({} : Reference κ) os r := by
  obtain ⟨r, hacc, hs, -⟩ := h.accepted
    (R := fun os s r => Sound os s ∧ Simulates s r) (Q := fun os => (issued os).Nodup)
    nodup_issued_left ⟨Sound.init, simulates_init⟩
    (fun os t b l u o hR hok hq hstep => by
      obtain ⟨c, hc, hsim⟩ := hR.2.step hR.1 hstep hq hok.1
      exact ⟨c, hc, hR.1.step hstep hq hok.1.sparesDue, hsim⟩) hid
  have h0 : Counts (init : State κ).control := trivial
  obtain ⟨-, hfits⟩ := h.keeps_shown (I := fun s => Counts s.control) h0
    fun _ _ _ _ hc hok hstep => counts_step hc hok.2 hstep
  exact ⟨hs.defined, hfits, r, hacc⟩

theorem orderly_schedule (s : State κ) (d : UInt64) (cb : κ) : Orderly s (.schedule d cb) :=
  ⟨(fun _ h => by cases h), trivial⟩

/-- A one-shot whose callback schedules, and a periodic timer. -/
theorem wheel_follows_nested :
    ∃ s os, Run (machine Nat) Orderly init os s ∧ s.control ≠ .undefined ∧
      (∀ e ∈ os, e.Fits) ∧ ∃ r, Accepts Follows ({} : Reference Nat) os r := by
  have hret : ∀ s : State Nat, CancelsBetweenTicks s .ret := fun _ _ h => by cases h
  have hrun := ((((((Run.refl (m := machine Nat) init).step
    (l := .schedule 1 10) (orderly_schedule _ _ _) rfl).step
    (l := .schedulePeriodic 2 20) ⟨(fun _ h => by cases h), trivial⟩ rfl).step
    (l := .tick) ⟨(fun _ h => by cases h), trivial⟩ rfl).step
    (l := .schedule 1 30) (orderly_schedule _ _ _) rfl).step
    (l := .ret) ⟨hret _, by decide, fun _ => by decide⟩ rfl).step
    (l := .cancel 2) ⟨fun _ _ => rfl, trivial⟩ rfl
  exact ⟨_, _, hrun, wheel_follows hrun (by decide)⟩

/-! ### Ids that come back -/

theorem eraseP_concat_of_notMem {α : Type} {p : α → Bool} {l : List α} {a : α}
    (hl : ∀ b ∈ l, p b = false) (ha : p a = true) : (l ++ [a]).eraseP p = l := by
  rw [List.eraseP_append_right _ fun b hb => by simp [hl b hb], List.eraseP_cons_of_pos ha,
    List.append_nil]

/-- The wheel after `n` timers that left no trace but in the counters. -/
def TimerWheel.skip (w : TimerWheel κ) (n : Nat) (stats : Stats) : TimerWheel κ :=
  { w with nextId := w.nextId + UInt64.ofNat n, nextAddr := w.nextAddr + n, stats := stats }

theorem TimerWheel.Linked.skip (h : Linked w) (n : Nat) (stats : Stats) :
    Linked (w.skip n stats) := h.of_eq rfl rfl (Nat.le_add_right _ _)

theorem step_cancel {w' : TimerWheel κ} {id : TimerID} {found : Bool}
    (h : w.cancel id = some (found, w')) :
    (machine κ).step ⟨w, .idle⟩ (.cancel id) = some (⟨w', .idle⟩, [.cancelled id found]) := by
  simp [machine, step, h, Control.open]

theorem step_schedule (d : UInt64) (cb : κ) :
    (machine κ).step ⟨w, .idle⟩ (.schedule d cb) =
      some (⟨(w.schedule d cb).2, .idle⟩, [.scheduled d cb w.nextId]) := rfl

theorem schedule_slots {d j e : UInt64} (cb : κ) (hj : w.jiffies = j) (he : j + atLeastOne d = e) :
    (w.schedule d cb).2.slots (placeOf j e) =
      w.slots (placeOf j e) ++ [⟨w.nextAddr, w.nextId, e, 0, cb⟩] := by
  subst hj he
  exact Function.update_self ..

/-- A tick that is not at the end of a lap of level 0. -/
theorem turn_of_low {j : UInt64} (hj : w.jiffies + 1 = j) (h : j &&& (kL0Slots - 1) ≠ 0) :
    w.turn = { w with jiffies := j } := by
  subst hj
  exact if_neg h

theorem step_tick {n : Node κ} {rest : List (Node κ)}
    (h : w.turn.slots w.turn.currentPlace = n :: rest) :
    ∃ t, (machine κ).step ⟨w, .idle⟩ .tick =
      some (t, [.tickBegan, .invoked n.entry.id n.entry.cb]) := by
  refine ⟨(tick w .user).1, ?_⟩
  show some (tick w .user) = _
  rw [tick_eq, h]
  rfl

/-- The reference runs the callback that was scheduled last under the id. -/
theorem cb_eq_of_accepts {r r' : Reference κ} {d : UInt64} {cb cb' : κ} {id : TimerID}
    (h : Accepts Follows r (os ++ [.scheduled d cb id] ++ [.tickBegan, .invoked id cb']) r') :
    cb' = cb := by
  rw [← List.singleton_append (l := [_]), ← List.append_assoc] at h
  obtain ⟨r₂, h, hinv⟩ := h.of_concat
  obtain ⟨r₁, h, htick⟩ := h.of_concat
  obtain ⟨r₀, -, hsched⟩ := h.of_concat
  cases hsched
  cases htick
  cases hinv with
  | invoked _ _ _ ht =>
    simp only [Reference.set, Function.update_self, Option.some.injEq] at ht
    rw [← ht]

/-- To cancel the timer just added leaves nothing of it but the counters. -/
theorem cancel_add (hl : Linked w) (hid : w.nextId ∉ w.entries) (d i : UInt64) (cb : κ) :
    ∃ stats, (w.add d i cb).2.cancel w.nextId = some (true, w.skip 1 stats) := by
  let p := placeOf w.jiffies (w.jiffies + d)
  have hlk : (w.add d i cb).2.entries.lookup w.nextId = some ⟨p, w.nextAddr⟩ :=
    AList.lookup_insert _
  have hslot : (w.add d i cb).2.slots p =
      w.slots p ++ [⟨w.nextAddr, w.nextId, w.jiffies + d, i, cb⟩] := Function.update_self ..
  have hany : ((w.add d i cb).2.slots p).any (fun n => n.addr = w.nextAddr) = true := by
    rw [hslot]
    simp
  have hslots : Function.update (w.add d i cb).2.slots p
      (((w.add d i cb).2.slots p).eraseP fun n => n.addr = w.nextAddr) = w.slots := by
    rw [hslot, eraseP_concat_of_notMem
      (fun n hn => decide_eq_false (hl.addr_lt p n hn).ne) (by simp)]
    show Function.update (Function.update w.slots p _) p _ = _
    rw [Function.update_idem, Function.update_eq_self]
  have hentries : (w.add d i cb).2.entries.erase w.nextId = w.entries :=
    erase_insert_of_notMem hid
  refine ⟨((w.add d i cb).2.unlink w.nextId ⟨p, w.nextAddr⟩).stats, ?_⟩
  simp only [cancel, hlk, hany, if_true, Option.some.injEq, Prod.mk.injEq, true_and]
  rw [unlink, hslots, hentries]
  rfl

/-- Timers scheduled and cancelled at once use up ids and nothing else. -/
theorem run_skip (hl : Linked w) (cb : κ) (n : Nat)
    (hid : ∀ i < n, w.nextId + UInt64.ofNat i ∉ w.entries) :
    ∃ os stats, Run (machine κ) Orderly ⟨w, .idle⟩ os ⟨w.skip n stats, .idle⟩ := by
  induction n with
  | zero =>
    have hw : w.skip 0 w.stats = w := by simp [skip]
    exact ⟨[], w.stats, by rw [hw]; exact .refl _⟩
  | succ n ih =>
    obtain ⟨os, stats, hrun⟩ := ih fun i hi => hid i (by omega)
    obtain ⟨stats', hcan⟩ := cancel_add (hl.skip n stats) (hid n (by omega)) 1 0 cb
    have hw : (w.skip n stats).skip 1 stats' = w.skip (n + 1) stats' := by
      simp [skip, UInt64.ofNat_add, UInt64.add_assoc, Nat.add_assoc]
    rw [hw] at hcan
    exact ⟨_, stats', (hrun.step (orderly_schedule _ _ _) (step_schedule 1 cb)).step
      (l := .cancel _) ⟨fun _ _ => rfl, trivial⟩ (step_cancel hcan)⟩

/-- **A timer that lives for `2^64` ids.**  Its id is handed out again, and the
callback that runs is not the one the table holds under it. -/
theorem ids_wrap :
    ∃ os s, Run (machine Nat) Orderly init os s ∧
      ¬ ∃ r, Accepts Follows ({} : Reference Nat) os r := by
  let w : TimerWheel Nat := (({} : TimerWheel Nat).schedule 1 10).2
  have hfirst := (Run.refl (m := machine Nat) init).step (orderly_schedule _ 1 10) (step_schedule 1 10)
  have hl : Linked w := (sound_of_run (fun _ _ _ _ hc => hc.1.sparesDue) hfirst
    (List.nodup_singleton 1)).idle rfl
  have hfresh : ∀ i < 2 ^ 64 - 1, w.nextId + UInt64.ofNat i ∉ w.entries := by
    intro i hi hmem
    rcases (add_snd_entries 1 0 10 _).mp hmem with h1 | h1
    · exact next_ne_first hi h1
    · exact absurd h1 (AList.notMem_empty _)
  obtain ⟨os, stats, hskip⟩ := run_skip hl 30 _ hfresh
  -- the second timer gets the first one's id, and both are due at the first tick
  let w₁ : TimerWheel Nat := w.skip (2 ^ 64 - 1) stats
  have hid : w₁.nextId = 1 := by
    show (2 : UInt64) + UInt64.ofNat (2 ^ 64 - 1) = 1
    decide
  have hsecond := (hfirst.trans hskip).step (orderly_schedule _ 1 20) (step_schedule 1 20)
  have hturn : (w₁.schedule 1 20).2.turn = { (w₁.schedule 1 20).2 with jiffies := 1 } :=
    turn_of_low rfl (by decide)
  have hcur : (w₁.schedule 1 20).2.turn.currentPlace = placeOf 0 1 := by
    rw [hturn]
    rfl
  have hdue : (w₁.schedule 1 20).2.turn.slots (w₁.schedule 1 20).2.turn.currentPlace =
      (⟨0, 1, 1, 0, 10⟩ : Node Nat) :: [⟨w₁.nextAddr, w₁.nextId, 1, 0, 20⟩] := by
    have h1 : w.slots (placeOf 0 1) = [⟨0, 1, 1, 0, 10⟩] := schedule_slots 10 rfl rfl
    have h2 : w₁.slots = w.slots := rfl
    rw [hcur, hturn]
    show (w₁.schedule 1 20).2.slots (placeOf 0 1) = _
    rw [schedule_slots (j := 0) (e := 1) 20 rfl rfl, h2, h1]
    rfl
  obtain ⟨t, htick⟩ := step_tick hdue
  refine ⟨_, t, hsecond.step (l := .tick) ⟨(fun _ h => by cases h), trivial⟩ htick, ?_⟩
  rintro ⟨r, hacc⟩
  rw [hid] at hacc
  have hcb : 10 = 20 := cb_eq_of_accepts hacc
  omega

end HftComponents.Timer.Wheel
