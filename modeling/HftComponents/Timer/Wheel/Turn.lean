import HftComponents.Timer.Wheel.Linked
import HftComponents.Timer.Wheel.Place

/-!
# What a tick finds in the slots

`Timely w`: every entry lies where `Waiting` wants it.  The first half of
`tick` advances the clock, which leaves every entry `Placed`, and then the
cascades move on every entry whose visit has come.  `turn_spec` is the result:
above level `0` everything waits again, and on level `0` the current slot holds
exactly the entries that are due now.
-/

namespace HftComponents.Timer.Wheel

namespace TimerWheel

variable {κ : Type} {w : TimerWheel κ}

def Timely (w : TimerWheel κ) : Prop :=
  ∀ p, ∀ n ∈ w.slots p, Waiting w.jiffies n.entry.expiryTick p

/-- Every entry is `Placed`, the visit of its slot being now or later. -/
def AllPlaced (w : TimerWheel κ) : Prop :=
  ∀ p, ∀ n ∈ w.slots p, Placed w.jiffies n.entry.expiryTick p

/-- The entries of one level wait. -/
def Settled (w : TimerWheel κ) (l : Level) : Prop :=
  ∀ p, p.level = l → ∀ n ∈ w.slots p, Waiting w.jiffies n.entry.expiryTick p

theorem Timely.insert (h : Timely w) {e : Entry κ} (he : 0 < remaining w.jiffies e.expiryTick) :
    Timely (w.insert e) := by
  intro p n hn
  rcases mem_insert_slots.mp hn with hn | ⟨rfl, rfl⟩
  · exact h p n hn
  · exact waiting_placeOf he

theorem Timely.add (h : Timely w) {d i : UInt64} {cb : κ} (hd : 0 < d.toNat) :
    Timely (w.add d i cb).2 := by
  have ht : 0 < remaining w.jiffies (w.jiffies + d) := by
    rw [remaining_add]
    exact hd
  exact Timely.insert (w := { w with nextId := w.nextId + 1 }) h
    (e := ⟨w.nextId, w.jiffies + d, i, cb⟩) ht

theorem Timely.afterCallback (h : Timely w) (e : Entry κ) : Timely (w.afterCallback e) := by
  rw [TimerWheel.afterCallback]
  split_ifs with hi
  · refine Timely.insert
      (w := { w with stats := { w.stats with fired := w.stats.fired + 1 } }) h ?_
    rw [remaining_add]
    exact Nat.pos_of_ne_zero fun h0 => hi (UInt64.toNat_inj.mp h0)
  · exact h

@[simp] theorem reinsert_jiffies (n : Node κ) : (w.reinsert n).jiffies = w.jiffies := rfl

@[simp] theorem foldl_reinsert_jiffies (moved : List (Node κ)) (w : TimerWheel κ) :
    (moved.foldl reinsert w).jiffies = w.jiffies := by
  induction moved generalizing w with
  | nil => rfl
  | cons n rest ih => rw [List.foldl_cons, ih, reinsert_jiffies]

@[simp] theorem cascade_jiffies (l : Level) : (w.cascade l).jiffies = w.jiffies :=
  foldl_reinsert_jiffies _ _

theorem turn_jiffies : w.turn.jiffies = w.jiffies + 1 := by
  unfold turn
  dsimp only
  split
  · split
    · split <;> simp
    · simp
  · rfl

/-- Re-inserting puts nodes where `placeOf` says, and moves no other. -/
theorem mem_foldl_reinsert (moved : List (Node κ)) {w : TimerWheel κ} {p : Place} {n : Node κ}
    (hn : n ∈ (moved.foldl reinsert w).slots p) :
    n ∈ w.slots p ∨ p = placeOf w.jiffies n.entry.expiryTick := by
  induction moved generalizing w with
  | nil => exact Or.inl hn
  | cons m rest ih =>
    rcases ih hn with h | h
    · rcases mem_insert_slots.mp h with h | ⟨rfl, rfl⟩
      · exact Or.inl h
      · exact Or.inr rfl
    · exact Or.inr h

theorem mem_cascade {l : Level} {p : Place} {n : Node κ} (hn : n ∈ (w.cascade l).slots p) :
    (n ∈ w.slots p ∧ p ≠ ⟨l, l.slotOf w.jiffies⟩) ∨
      p = placeOf w.jiffies n.entry.expiryTick := by
  rcases mem_foldl_reinsert _ hn with h | h
  · rcases mem_update.mp h with ⟨_, h⟩ | ⟨hp, h⟩
    · simp at h
    · exact Or.inl ⟨h, hp⟩
  · exact Or.inr h

theorem AllPlaced.cascade (h : AllPlaced w) (l : Level) : AllPlaced (w.cascade l) := by
  intro p n hn
  rw [cascade_jiffies]
  rcases mem_cascade hn with ⟨hn, _⟩ | rfl
  · exact h p n hn
  · exact placed_placeOf _ _

theorem Settled.cascade {l' : Level} (h : Settled w l') (hl' : l' ≠ .l0) (l : Level) :
    Settled (w.cascade l) l' := by
  intro p hp n hn
  rw [cascade_jiffies]
  rcases mem_cascade hn with ⟨hn, _⟩ | rfl
  · exact h p hp n hn
  · exact waiting_placeOf_of_level (by rw [hp]; exact hl')

/-- **A cascade settles its level**: what was in the visited slot has moved on,
and what was not is not yet at its visit. -/
theorem AllPlaced.settled_cascade (h : AllPlaced w) {l : Level} (hl : l ≠ .l0) :
    Settled (w.cascade l) l := by
  intro p hp n hn
  rw [cascade_jiffies]
  rcases mem_cascade hn with ⟨hn, hne⟩ | rfl
  · apply (h p n hn).waiting_of_not_visited
    intro hv
    apply hne
    obtain ⟨l', s⟩ := p
    obtain rfl : l' = l := hp
    exact congrArg _ hv.2
  · exact waiting_placeOf_of_level (by rw [hp]; exact hl)

/-- Off the boundary of its blocks a level needs no cascade. -/
theorem AllPlaced.settled (h : AllPlaced w) {l : Level} (hg : w.jiffies.toNat % l.grain ≠ 0) :
    Settled w l := by
  intro p hp n hn
  apply (h p n hn).waiting_of_not_visited
  intro hv
  apply hg
  rw [← hp]
  exact hv.1

theorem grain_dvd {l l' : Level} (j : Nat) (h : l.grain ∣ l'.grain) (hj : j % l.grain ≠ 0) :
    j % l'.grain ≠ 0 := by
  intro h0
  exact hj (Nat.mod_eq_zero_of_dvd (h.trans (Nat.dvd_of_mod_eq_zero h0)))

/-- The clock stands at a boundary of the blocks of a level. -/
theorem mask_eq_zero_iff (j m : UInt64) {k : Nat} (hm : m.toNat = 2 ^ k - 1) :
    j &&& m = 0 ↔ j.toNat % 2 ^ k = 0 := by
  rw [← UInt64.toNat_inj, toNat_and_mask j hm]
  rfl

/-- **The cascades of a tick settle the levels `1`, `2` and `3`.** -/
theorem turn_settled (h : Timely w) :
    AllPlaced w.turn ∧ ∀ l, l ≠ .l0 → Settled w.turn l := by
  have h0 : AllPlaced { w with jiffies := w.jiffies + 1 } := by
    intro p n hn
    exact (h p n hn).placed_succ
  have h1 := h0.cascade .l1
  have h2 := h1.cascade .l2
  have h3 := h2.cascade .l3
  have b1 := mask_eq_zero_iff (w.jiffies + 1) (kL0Slots - 1) (k := 8) (by decide)
  have b2 := mask_eq_zero_iff (w.jiffies + 1) (kL0Slots * kL1Slots - 1) (k := 14) (by decide)
  have b3 := mask_eq_zero_iff (w.jiffies + 1) (kL0Slots * kL1Slots * kL2Slots - 1) (k := 20) (by decide)
  have s1 := h0.settled_cascade (l := .l1) (by decide)
  have s2 := h1.settled_cascade (l := .l2) (by decide)
  have s3 := h2.settled_cascade (l := .l3) (by decide)
  unfold turn
  simp only [cascade_jiffies, b1, b2, b3]
  split
  · split
    · split
      · refine ⟨h3, ?_⟩
        intro l hl
        cases l with
        | l0 => exact absurd rfl hl
        | l1 => exact (s1.cascade hl .l2).cascade hl .l3
        | l2 => exact s2.cascade hl .l3
        | l3 => exact s3
      · rename_i hb
        refine ⟨h2, ?_⟩
        intro l hl
        cases l with
        | l0 => exact absurd rfl hl
        | l1 => exact s1.cascade hl .l2
        | l2 => exact s2
        | l3 => exact h2.settled (by rw [cascade_jiffies, cascade_jiffies]; exact hb)
    · rename_i hb
      refine ⟨h1, ?_⟩
      intro l hl
      cases l with
      | l0 => exact absurd rfl hl
      | l1 => exact s1
      | l2 => exact h1.settled (by rw [cascade_jiffies]; exact hb)
      | l3 =>
        exact h1.settled (by
          rw [cascade_jiffies]; exact grain_dvd (l := .l2) _ (by decide) hb)
  · rename_i hb
    refine ⟨h0, ?_⟩
    intro l hl
    cases l with
    | l0 => exact absurd rfl hl
    | l1 => exact h0.settled hb
    | l2 => exact h0.settled (grain_dvd (l := .l1) _ (by decide) hb)
    | l3 => exact h0.settled (grain_dvd (l := .l1) _ (by decide) hb)

/-- **What a tick finds.**  The current slot holds exactly the entries that
have no time left, and without it the wheel is timely. -/
theorem turn_spec (h : Timely w) :
    (∀ p, ∀ n ∈ w.turn.slots p,
      p = w.turn.currentPlace ↔ remaining w.turn.jiffies n.entry.expiryTick = 0) ∧
    Timely (w.turn.swapOut w.turn.currentPlace) := by
  obtain ⟨hp, hs⟩ := turn_settled h
  have hcur : ∀ p, ∀ n ∈ w.turn.slots p,
      p = w.turn.currentPlace ↔ remaining w.turn.jiffies n.entry.expiryTick = 0 := by
    intro p n hn
    by_cases hl : p.level = .l0
    · obtain ⟨l, s⟩ := p
      obtain rfl : l = .l0 := hl
      rw [← (hp _ n hn).current_iff]
      simp [currentPlace]
    · constructor
      · rintro rfl
        exact absurd rfl hl
      · intro h0
        exact absurd h0 (hs _ hl p rfl n hn).pos.ne'
  refine ⟨hcur, ?_⟩
  intro p n hn
  rcases mem_update.mp hn with ⟨_, hn⟩ | ⟨hne, hn⟩
  · simp at hn
  · by_cases hl : p.level = .l0
    · refine ⟨hp p n hn, ?_⟩
      have h0 : remaining w.turn.jiffies n.entry.expiryTick ≠ 0 := by
        intro h0
        exact hne ((hcur p n hn).mpr h0)
      rw [hl]
      simp only [Level.grain, pow_zero, Nat.mod_one]
      exact Nat.pos_of_ne_zero h0
    · exact hs _ hl p rfl n hn

end TimerWheel

end HftComponents.Timer.Wheel
