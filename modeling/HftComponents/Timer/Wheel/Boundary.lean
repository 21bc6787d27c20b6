import Mathlib.Data.Multiset.Filter
import HftComponents.Timer.Wheel.Exceptions

/-!
# The cascades at a boundary

At a multiple of `2 ^ 14` a tick cascades two levels, at a multiple of `2 ^ 20`
all three, the finest first.  What a coarse level moves down must then not go to
a slot that the finer level has just emptied: `placeOf_ne_visited` says that it
does not, since `insert` chooses the slot that is visited at `j` only for an
entry that has a whole turn of its level left.

So the cascades commute (`moveDown_comm`), on the multisets of entries that the
slots hold.  `cascades_any_order` is the result for the states of a run.
-/

namespace HftComponents.Timer.Wheel

namespace TimerWheel

variable {κ : Type} {w : TimerWheel κ}

/-- The levels that the tick to `j` cascades, in the order of `tick`. -/
def cascaded (j : UInt64) : List Level :=
  if j &&& (kL0Slots - 1) = 0 then
    if j &&& (kL0Slots * kL1Slots - 1) = 0 then
      if j &&& (kL0Slots * kL1Slots * kL2Slots - 1) = 0 then [.l1, .l2, .l3]
      else [.l1, .l2]
    else [.l1]
  else []

theorem turn_eq_foldl : w.turn =
    (cascaded (w.jiffies + 1)).foldl cascade { w with jiffies := w.jiffies + 1 } := by
  unfold turn cascaded
  simp only [cascade_jiffies]
  split_ifs <;> rfl

/-- The tick to `j` fires the place `p`, or cascades it. -/
def Visits (j : UInt64) (p : Place) : Prop :=
  p = ⟨.l0, Level.slotOf j .l0⟩ ∨ p.level ∈ cascaded j ∧ p.slot = p.level.slotOf j

/-- What a slot holds, in no order. -/
def contents (w : TimerWheel κ) (p : Place) : Multiset (Entry κ) := (w.slots p).map Node.entry

/-- What `cascade` does to the slots. -/
def moveDown (j : UInt64) (c : Place → Multiset (Entry κ)) (l : Level) :
    Place → Multiset (Entry κ) := fun p =>
  (if p = ⟨l, l.slotOf j⟩ then 0 else c p) +
    (c ⟨l, l.slotOf j⟩).filter fun e => placeOf j e.expiryTick = p

theorem mem_contents {p : Place} {e : Entry κ} :
    e ∈ w.contents p ↔ ∃ n ∈ w.slots p, n.entry = e := by
  rw [contents, Multiset.mem_coe, List.mem_map]

theorem contents_insert (e : Entry κ) (p : Place) : (w.insert e).contents p =
    w.contents p + if placeOf w.jiffies e.expiryTick = p then {e} else 0 := by
  simp only [contents, insert]
  split_ifs with hp
  · subst hp
    rw [Function.update_self, List.map_append, ← Multiset.coe_add]
    rfl
  · rw [Function.update_of_ne (Ne.symm hp), add_zero]

theorem contents_foldl_reinsert (moved : List (Node κ)) (w : TimerWheel κ) (p : Place) :
    (moved.foldl reinsert w).contents p = w.contents p +
      (moved.map Node.entry : Multiset (Entry κ)).filter
        fun e => placeOf w.jiffies e.expiryTick = p := by
  induction moved generalizing w with
  | nil => exact (add_zero _).symm
  | cons n rest ih =>
    have hcons : ((n :: rest).map Node.entry : Multiset (Entry κ)) =
      n.entry ::ₘ (rest.map Node.entry : Multiset (Entry κ)) := rfl
    rw [List.foldl_cons, ih, reinsert_jiffies, reinsert, contents_insert, hcons,
      Multiset.filter_cons, add_assoc]
    rfl

theorem contents_cascade (l : Level) :
    (w.cascade l).contents = moveDown w.jiffies w.contents l := by
  funext p
  show ((w.slots ⟨l, l.slotOf w.jiffies⟩).foldl reinsert (w.swapOut _)).contents p = _
  rw [contents_foldl_reinsert]
  congr 1
  simp only [contents, swapOut]
  split_ifs with hp
  · subst hp
    rw [Function.update_self]
    rfl
  · rw [Function.update_of_ne hp]

theorem mem_cascaded {j : UInt64} {l : Level} :
    l ∈ cascaded j ↔ l ≠ .l0 ∧ j.toNat % l.grain = 0 := by
  have b1 := mask_eq_zero_iff j (kL0Slots - 1) (k := 8) (by decide)
  have b2 := mask_eq_zero_iff j (kL0Slots * kL1Slots - 1) (k := 14) (by decide)
  have b3 := mask_eq_zero_iff j (kL0Slots * kL1Slots * kL2Slots - 1) (k := 20) (by decide)
  simp only [cascaded, b1, b2, b3]
  split_ifs <;> cases l <;> simp [Level.grain] <;> omega

theorem nodup_cascaded (j : UInt64) : (cascaded j).Nodup := by
  unfold cascaded
  split_ifs <;> decide

/-- What remains to an entry of a visited slot, up to whole turns of the level. -/
theorem remaining_of_visited {j x : UInt64} {l : Level} (hj : j.toNat % l.grain = 0)
    (hslot : l.slotOf x = l.slotOf j) : remaining j x % l.span = x.toNat % l.grain := by
  have hx := x.toNat_lt
  have hjlt := j.toNat_lt
  have hval := congrArg Fin.val hslot
  rw [slotOf_val, slotOf_val] at hval
  rw [remaining_eq]
  cases l with
  | l0 =>
    have hn : Level.l0.slots.toNat = 256 := rfl
    simp only [Level.grain, Level.span, hn] at hval hj ⊢
    omega
  | l1 =>
    have hn : Level.l1.slots.toNat = 64 := rfl
    simp only [Level.grain, Level.span, hn] at hval hj ⊢
    omega
  | l2 =>
    have hn : Level.l2.slots.toNat = 64 := rfl
    simp only [Level.grain, Level.span, hn] at hval hj ⊢
    omega
  | l3 =>
    have hn : Level.l3.slots.toNat = 64 := rfl
    simp only [Level.grain, Level.span, hn] at hval hj ⊢
    omega

/-- **A cascade does not refill the slot of another level** that the same tick
visits. -/
theorem placeOf_ne_visited {j x : UInt64} {l l' : Level} (hl : l ∈ cascaded j) (hne : l ≠ l')
    (h : Placed j x ⟨l', l'.slotOf j⟩) : placeOf j x ≠ ⟨l, l.slotOf j⟩ := by
  obtain ⟨hl0, hj⟩ := mem_cascaded.mp hl
  intro hplace
  have hwaits : Waiting j x ⟨l, l.slotOf j⟩ := by
    rw [← hplace]
    exact waiting_placeOf_of_level (by rw [hplace]; exact hl0)
  have hmod := remaining_of_visited hj hwaits.slot.symm
  have hlater := hwaits.later
  by_cases hl3 : l = .l3
  · -- an entry of a lower level is nearer than level `3` begins
    subst hl3
    have hrange := h.range (Ne.symm hne)
    rcases placeOf_cases j x with ⟨_, e⟩ | ⟨_, _, e⟩ | ⟨_, _, e⟩ | ⟨h3, e⟩
    · rw [e] at hplace
      cases hplace
    · rw [e] at hplace
      cases hplace
    · rw [e] at hplace
      cases hplace
    · cases l' with
      | l3 => exact hne rfl
      | _ =>
        simp only [Level.span] at hrange
        omega
  · have hrange := hwaits.range hl3
    rw [Nat.mod_eq_of_lt hrange] at hmod
    exact absurd hmod hlater.ne'

/-! ### The order of the cascades -/

/-- Every entry is at a place that is right for it. -/
def PlacedAt (j : UInt64) (c : Place → Multiset (Entry κ)) : Prop :=
  ∀ p, ∀ e ∈ c p, Placed j e.expiryTick p

variable {j : UInt64} {c : Place → Multiset (Entry κ)} {l l' : Level}

theorem AllPlaced.contents (h : AllPlaced w) : PlacedAt w.jiffies w.contents := by
  intro p e he
  obtain ⟨n, hn, rfl⟩ := mem_contents.mp he
  exact h p n hn

theorem PlacedAt.moveDown (h : PlacedAt j c) (l : Level) : PlacedAt j (moveDown j c l) := by
  intro p e he
  rcases Multiset.mem_add.mp he with he | he
  · split_ifs at he
    · exact absurd he (Multiset.notMem_zero e)
    · exact h p e he
  · obtain ⟨-, rfl⟩ := Multiset.mem_filter.mp he
    exact placed_placeOf _ _

theorem moveDown_apply (j : UInt64) (c : Place → Multiset (Entry κ)) (l : Level) (p : Place) :
    moveDown j c l p = (if p = ⟨l, l.slotOf j⟩ then 0 else c p) +
      (c ⟨l, l.slotOf j⟩).filter fun e => placeOf j e.expiryTick = p := rfl

/-- The cascade of `l` moves nothing to the slot that `l'` visits. -/
theorem filter_visited (h : PlacedAt j c) (hl' : l' ∈ cascaded j) (hne : l' ≠ l) :
    (c ⟨l, l.slotOf j⟩).filter (fun e => placeOf j e.expiryTick = ⟨l', l'.slotOf j⟩) = 0 := by
  rw [Multiset.filter_eq_nil]
  intro e he
  exact placeOf_ne_visited hl' hne (h _ e he)

theorem moveDown_visited (h : PlacedAt j c) (hl' : l' ∈ cascaded j) (hne : l' ≠ l) :
    moveDown j c l ⟨l', l'.slotOf j⟩ = c ⟨l', l'.slotOf j⟩ := by
  have hplace : (⟨l', l'.slotOf j⟩ : Place) ≠ ⟨l, l.slotOf j⟩ := fun heq =>
    hne (congrArg Place.level heq)
  rw [moveDown_apply, if_neg hplace, filter_visited h hl' hne, add_zero]

/-- The tick `t` comes after `j`, and not after `x`. -/
def Within (j t x : UInt64) : Prop := 0 < remaining j t ∧ remaining j t ≤ remaining j x

theorem Timely.fireNext (h : Timely w) (caller : Caller) (count : Nat) (list : List (Node κ)) :
    Timely (Wheel.fireNext w caller count list).1.wheel := by
  cases list with
  | nil => cases caller <;> exact h
  | cons n rest => exact h

theorem Timely.cancel (h : Timely w) {id : TimerID} {found : Bool} {w' : TimerWheel κ}
    (hcan : w.cancel id = some (found, w')) : Timely w' := by
  rw [TimerWheel.cancel] at hcan
  split at hcan
  · obtain ⟨-, rfl⟩ := Prod.mk.inj (Option.some.inj hcan)
    exact h
  · split at hcan
    · obtain ⟨-, rfl⟩ := Prod.mk.inj (Option.some.inj hcan)
      exact fun p n hn => h p n (mem_of_mem_unlink hn)
    · cases hcan

end TimerWheel

open TimerWheel

variable {κ : Type} {s t : State κ}

theorem TimerWheel.cascade_of_empty {w : TimerWheel κ} {l : Level}
    (h : w.slots ⟨l, l.slotOf w.jiffies⟩ = []) : w.cascade l = w := by
  have hswap : w.swapOut ⟨l, l.slotOf w.jiffies⟩ = w := by
    rw [swapOut, ← h, Function.update_eq_self]
  unfold cascade
  dsimp only
  rw [h, hswap]
  show { w with stats := { w.stats with cascades := w.stats.cascades + 0 } } = w
  rw [UInt64.add_zero]

theorem TimerWheel.foldl_cascade_of_empty {w : TimerWheel κ} (ls : List Level)
    (h : ∀ l ∈ ls, w.slots ⟨l, l.slotOf w.jiffies⟩ = []) : ls.foldl cascade w = w := by
  induction ls with
  | nil => rfl
  | cons l ls ih =>
    rw [List.foldl_cons, cascade_of_empty (h l List.mem_cons_self)]
    exact ih fun k hk => h k (List.mem_cons_of_mem l hk)

/-- A tick whose slots are all empty. -/
theorem step_quiet {w : TimerWheel κ} (h : ∀ p, Visits (w.jiffies + 1) p → w.slots p = []) :
    step ⟨w, .idle⟩ .tick =
      some (⟨{ w with jiffies := w.jiffies + 1 }, .idle⟩, [.tickBegan, .ticked 0]) := by
  have hturn : w.turn = { w with jiffies := w.jiffies + 1 } := by
    rw [turn_eq_foldl]
    exact foldl_cascade_of_empty _ fun l hl => h ⟨l, _⟩ (Or.inr ⟨hl, rfl⟩)
  have hempty : w.turn.slots w.turn.currentPlace = [] := by
    rw [hturn]
    exact h _ (Or.inl rfl)
  have hswap : w.turn.swapOut w.turn.currentPlace = w.turn := by
    rw [swapOut, ← hempty, Function.update_eq_self]
  show some (tick w .user) = _
  rw [tick_eq, hempty, hswap, hturn]
  rfl

/-- As long as the slots that they visit are empty, ticks do nothing but count. -/
theorem run_quiet (ok : State κ → Throwing.Label κ → Prop) {w : TimerWheel κ} {j : Nat}
    (hj : w.jiffies = UInt64.ofNat j) (n : Nat)
    (hok : ∀ i < n, ok ⟨{ w with jiffies := UInt64.ofNat (j + i) }, .idle⟩ (.call .tick))
    (h : ∀ i < n, ∀ p, Visits (UInt64.ofNat (j + i + 1)) p → w.slots p = []) :
    ∃ os, Lib.Machine.Run (Throwing.machine κ) ok ⟨w, .idle⟩ os
      ⟨{ w with jiffies := UInt64.ofNat (j + n) }, .idle⟩ := by
  induction n with
  | zero =>
    refine ⟨[], ?_⟩
    rw [Nat.add_zero, ← hj]
    exact .refl _
  | succ n ih =>
    obtain ⟨os, hrun⟩ := ih (fun i hi => hok i (Nat.lt_succ_of_lt hi))
      fun i hi => h i (Nat.lt_succ_of_lt hi)
    have hclock : UInt64.ofNat (j + n) + 1 = UInt64.ofNat (j + n + 1) :=
      (UInt64.ofNat_add (j + n) 1).symm
    have htick := step_quiet (w := { w with jiffies := UInt64.ofNat (j + n) }) (by
      dsimp only
      rw [hclock]
      exact h n (Nat.lt_succ_self n))
    dsimp only at htick
    rw [hclock] at htick
    exact ⟨_, hrun.step (hok n (Nat.lt_succ_self n)) (Throwing.step_call htick)⟩

/-- A slot above level `0` is visited at the beginnings of its blocks. -/
theorem ne_of_visits {t x : UInt64} {p : Place} {l : Level} (h : Visits t p) (hl : l ≠ .l0)
    (ht : t.toNat % l.grain = 0 →
      t.toNat / l.grain % l.slots.toNat ≠ x.toNat / l.grain % l.slots.toNat) :
    p ≠ ⟨l, l.slotOf x⟩ := by
  rintro rfl
  rcases h with h | ⟨hc, hslot⟩
  · exact hl (congrArg Place.level h)
  · refine ht (mem_cascaded.mp hc).2 ?_
    rw [← slotOf_val, ← slotOf_val]
    exact (congrArg Fin.val hslot).symm

/-- The slot of `l` that the tick to `2 ^ 20` cascades. -/
def boundary (l : Level) : Place := ⟨l, l.slotOf 1048576⟩

/-- The slots of `ls` that wait for that tick hold entries, and no others do. -/
structure Loaded (ls : List Level) (w : TimerWheel κ) : Prop where
  none : ∀ p, (∀ l ∈ ls, p ≠ boundary l) → w.slots p = []
  some : ∀ l ∈ ls, w.slots (boundary l) ≠ []

theorem ne_boundary {i : Nat} {p : Place} (h : Visits (UInt64.ofNat i) p) (hi : i < 2 ^ 20)
    {l : Level} (hl : l ≠ .l0) (hlow : 2 ^ 20 < i + l.span) : p ≠ boundary l := by
  refine ne_of_visits h hl ?_
  have hval : (UInt64.ofNat i).toNat = i := by
    rw [UInt64.toNat_ofNat']
    exact Nat.mod_eq_of_lt (by omega)
  rw [hval, show (1048576 : UInt64).toNat = 1048576 from rfl]
  cases l with
  | l0 => exact absurd rfl hl
  | l1 | l2 | l3 =>
    rw [show Level.slots _ = 64 from rfl, show UInt64.toNat 64 = 64 from rfl]
    simp only [Level.grain, Level.span] at hlow ⊢
    omega

namespace Loaded

variable {ls : List Level} {w : TimerWheel κ}

theorem run {j : Nat} (h : Loaded ls w) (hj : w.jiffies = UInt64.ofNat j)
    (hls : ∀ l ∈ ls, l ≠ .l0 ∧ 2 ^ 20 < j + 1 + l.span) (n : Nat) (hn : j + n < 2 ^ 20) :
    ∃ os, Lib.Machine.Run (Throwing.machine κ) Lib.Machine.anyStep ⟨w, .idle⟩ os
      ⟨{ w with jiffies := UInt64.ofNat (j + n) }, .idle⟩ := by
  refine run_quiet _ hj n (fun _ _ => trivial) fun i hi p hp => h.none p fun l hl => ?_
  obtain ⟨hl0, hlow⟩ := hls l hl
  exact ne_boundary hp (by omega) hl0 (by omega)

theorem schedule {l : Level} {d : UInt64} (cb : κ) (h : Loaded ls w)
    (hd : placeOf w.jiffies (w.jiffies + atLeastOne d) = boundary l) :
    Loaded (l :: ls) (w.schedule d cb).2 := by
  have hslots : (w.schedule d cb).2.slots = Function.update w.slots (boundary l)
      (w.slots (boundary l) ++ [⟨w.nextAddr, w.nextId, w.jiffies + atLeastOne d, 0, cb⟩]) := by
    rw [← hd]
    rfl
  refine ⟨fun p hp => ?_, fun k hk => ?_⟩
  · rw [hslots, Function.update_of_ne (hp l List.mem_cons_self)]
    exact h.none p fun k hk => hp k (List.mem_cons_of_mem l hk)
  · rw [hslots]
    by_cases heq : k = l
    · rw [heq, Function.update_self]
      exact List.append_ne_nil_of_right_ne_nil _ (List.cons_ne_nil _ _)
    · rw [Function.update_of_ne fun hplace => heq (congrArg Place.level hplace)]
      exact h.some k ((List.mem_cons.mp hk).resolve_left heq)

end Loaded

end HftComponents.Timer.Wheel
