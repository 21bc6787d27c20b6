import Mathlib.Tactic.NormNum
import Mathlib.Tactic.IntervalCases
import HftComponents.Timer.Wheel.Basic

/-!
# Where an entry lies, and when its slot comes round

The slot of an entry is cut from the bits of its absolute expiry, the level is
chosen by the time that remains.  `Level.grain l` is the length of a block of
level `l`: its slots are visited when the clock reaches a multiple of it.

`Placed j x p`: the place `p` is right at the tick `j` for the expiry `x`, and
the visit that must move the entry down is not yet over.  `Waiting` is the
same with that visit strictly ahead.  One tick turns `Waiting` into `Placed`
(`Waiting.placed_succ`), and a place that is not visited at `j` stays `Waiting`
(`Placed.waiting_of_not_visited`).  All distances are read modulo `2^64`.
-/

namespace HftComponents.Timer.Wheel

/-- Ticks from `j` until the expiry `x`, round the 64-bit clock. -/
def remaining (j x : UInt64) : Nat := (x - j).toNat

def Level.grain : Level → Nat
  | .l0 => 2 ^ 0
  | .l1 => 2 ^ 8
  | .l2 => 2 ^ 14
  | .l3 => 2 ^ 20

def Level.span : Level → Nat
  | .l0 => 2 ^ 8
  | .l1 => 2 ^ 14
  | .l2 => 2 ^ 20
  | .l3 => 2 ^ 26

theorem toNat_and_mask (t : UInt64) {m : UInt64} {k : Nat} (hm : m.toNat = 2 ^ k - 1) :
    (t &&& m).toNat = t.toNat % 2 ^ k := by
  rw [UInt64.toNat_and, hm, Nat.and_two_pow_sub_one_eq_mod]

theorem slotOf_val (t : UInt64) (l : Level) :
    (l.slotOf t).val = t.toNat / l.grain % l.slots.toNat := by
  have shift (s : UInt64) (k : Nat) (hs : s.toNat % 64 = k) :
      (t >>> s).toNat = t.toNat / 2 ^ k := by
    rw [UInt64.toNat_shiftRight, hs, Nat.shiftRight_eq_div_pow]
  cases l with
  | l0 => exact (toNat_and_mask t (k := 8) rfl).trans (by rw [Level.grain, pow_zero, Nat.div_one]; rfl)
  | l1 => exact (toNat_and_mask _ (k := 6) rfl).trans (by rw [shift 8 8 rfl]; rfl)
  | l2 => exact (toNat_and_mask _ (k := 6) rfl).trans (by rw [shift 14 14 rfl]; rfl)
  | l3 => exact (toNat_and_mask _ (k := 6) rfl).trans (by rw [shift 20 20 rfl]; rfl)

theorem remaining_eq (j x : UInt64) :
    remaining j x = (2 ^ 64 - j.toNat + x.toNat) % 2 ^ 64 := UInt64.toNat_sub _ _

theorem remaining_self (j : UInt64) : remaining j j = 0 := by simp [remaining]

theorem eq_of_remaining_eq_zero {j x : UInt64} (h : remaining j x = 0) : x = j := by
  have hx := x.toNat_lt
  have hj := j.toNat_lt
  rw [remaining_eq] at h
  exact UInt64.toNat_inj.mp (by omega)

theorem remaining_add (j d : UInt64) : remaining j (j + d) = d.toNat := by
  rw [remaining, UInt64.add_comm, UInt64.add_sub_cancel]

theorem remaining_succ {j x : UInt64} (h : 0 < remaining j x) :
    remaining (j + 1) x = remaining j x - 1 := by
  have hx := x.toNat_lt
  have hj := j.toNat_lt
  have h1 : (j + 1).toNat = (j.toNat + 1) % 2 ^ 64 := UInt64.toNat_add _ _
  rw [remaining_eq] at h ⊢
  rw [remaining_eq, h1]
  omega

/-- The place of an entry that expires at `x`, at the tick `j`: its slot is cut
from `x`, and its visit is not over. -/
structure Placed (j x : UInt64) (p : Place) : Prop where
  slot : p.slot = p.level.slotOf x
  ahead : x.toNat % p.level.grain ≤ remaining j x
  range : p.level ≠ .l3 → remaining j x < p.level.span

/-- The visit that moves or fires the entry is strictly ahead. -/
structure Waiting (j x : UInt64) (p : Place) : Prop extends Placed j x p where
  later : x.toNat % p.level.grain < remaining j x

theorem Waiting.pos {j x : UInt64} {p : Place} (h : Waiting j x p) : 0 < remaining j x :=
  Nat.zero_lt_of_lt h.later

/-! ### The place `insert` chooses -/

theorem placeOf_cases (j x : UInt64) :
    (remaining j x < 2 ^ 8 ∧ placeOf j x = ⟨.l0, Level.slotOf x .l0⟩) ∨
    (2 ^ 8 ≤ remaining j x ∧ remaining j x < 2 ^ 14 ∧ placeOf j x = ⟨.l1, Level.slotOf x .l1⟩) ∨
    (2 ^ 14 ≤ remaining j x ∧ remaining j x < 2 ^ 20 ∧ placeOf j x = ⟨.l2, Level.slotOf x .l2⟩) ∨
    (2 ^ 20 ≤ remaining j x ∧ placeOf j x = ⟨.l3, Level.slotOf x .l3⟩) := by
  have h0 : (x - j < kL0Slots) = (remaining j x < 2 ^ 8) := by rw [UInt64.lt_iff_toNat_lt]; rfl
  have h1 : (x - j < kL0Slots * kL1Slots) = (remaining j x < 2 ^ 14) := by
    rw [UInt64.lt_iff_toNat_lt]; rfl
  have h2 : (x - j < kL0Slots * kL1Slots * kL2Slots) = (remaining j x < 2 ^ 20) := by
    rw [UInt64.lt_iff_toNat_lt]; rfl
  simp only [placeOf, h0, h1, h2]
  split
  · exact Or.inl ⟨‹_›, rfl⟩
  split
  · exact Or.inr (Or.inl ⟨by omega, ‹_›, rfl⟩)
  split
  · exact Or.inr (Or.inr (Or.inl ⟨by omega, ‹_›, rfl⟩))
  · exact Or.inr (Or.inr (Or.inr ⟨by omega, rfl⟩))

/-- Above level `0` the remaining time exceeds what is left of a block. -/
theorem waiting_placeOf_of_level {j x : UInt64} (h : (placeOf j x).level ≠ .l0) :
    Waiting j x (placeOf j x) := by
  rcases placeOf_cases j x with ⟨_, e⟩ | ⟨h1, h2, e⟩ | ⟨h1, h2, e⟩ | ⟨h1, e⟩
  · exact absurd (by rw [e]) h
  all_goals
    rw [e]
    have hm (n : Nat) : x.toNat % 2 ^ n < 2 ^ n := Nat.mod_lt _ (by positivity)
  · have := hm 8
    exact ⟨⟨rfl, by simp only [Level.grain]; omega, fun _ => h2⟩, by simp only [Level.grain]; omega⟩
  · have := hm 14
    exact ⟨⟨rfl, by simp only [Level.grain]; omega, fun _ => h2⟩, by simp only [Level.grain]; omega⟩
  · have := hm 20
    exact ⟨⟨rfl, by simp only [Level.grain]; omega, fun hne => absurd rfl hne⟩,
      by simp only [Level.grain]; omega⟩

theorem placed_placeOf (j x : UInt64) : Placed j x (placeOf j x) := by
  by_cases h : (placeOf j x).level = .l0
  · rcases placeOf_cases j x with ⟨h0, e⟩ | ⟨_, _, e⟩ | ⟨_, _, e⟩ | ⟨_, e⟩
    · rw [e]
      exact ⟨rfl, by simp [Level.grain, Nat.mod_one], fun _ => h0⟩
    all_goals rw [e] at h; simp at h
  · exact (waiting_placeOf_of_level h).toPlaced

theorem waiting_placeOf {j x : UInt64} (h : 0 < remaining j x) : Waiting j x (placeOf j x) := by
  by_cases hl : (placeOf j x).level = .l0
  · refine ⟨placed_placeOf j x, ?_⟩
    rw [hl]
    simpa [Level.grain, Nat.mod_one] using h
  · exact waiting_placeOf_of_level hl

/-! ### One tick -/

theorem Waiting.placed_succ {j x : UInt64} {p : Place} (h : Waiting j x p) :
    Placed (j + 1) x p := by
  have hs := remaining_succ h.pos
  have hlater := h.later
  refine ⟨h.slot, by omega, ?_⟩
  intro hne
  have hrange := h.range hne
  omega

/-- When the time that remains is exactly what is left of the expiry's block,
the clock is at the start of that block. -/
theorem eq_block_of_remaining {j x : UInt64} {g : Nat} (h : remaining j x = x.toNat % g) :
    j.toNat = g * (x.toNat / g) := by
  have hx := x.toNat_lt
  have hj := j.toNat_lt
  have hm : x.toNat % g ≤ x.toNat := Nat.mod_le _ _
  have hd := Nat.div_add_mod x.toNat g
  rw [remaining_eq] at h
  omega

/-- **A place that is not visited keeps waiting.**  A slot is visited when the
clock is at a multiple of its grain and selects it. -/
theorem Placed.waiting_of_not_visited {j x : UInt64} {p : Place} (h : Placed j x p)
    (hv : ¬(j.toNat % p.level.grain = 0 ∧ p.slot = p.level.slotOf j)) : Waiting j x p := by
  refine ⟨h, lt_of_le_of_ne h.ahead ?_⟩
  intro he
  apply hv
  have hb := eq_block_of_remaining he.symm
  have hg : 0 < p.level.grain := by cases p.level <;> simp [Level.grain]
  refine ⟨by rw [hb]; exact Nat.mul_mod_right _ _, ?_⟩
  rw [h.slot, Fin.ext_iff, slotOf_val, slotOf_val, hb, Nat.mul_div_cancel_left _ hg]

/-- On level `0` the current slot holds exactly what is due. -/
theorem Placed.current_iff {j x : UInt64} {s : Fin Level.l0.slots.toNat}
    (h : Placed j x ⟨.l0, s⟩) : s = Level.slotOf j .l0 ↔ remaining j x = 0 := by
  constructor
  · intro hs
    have hr := h.range (by simp)
    have he := h.slot
    rw [hs, Fin.ext_iff, slotOf_val, slotOf_val] at he
    have hx := x.toNat_lt
    have hj := j.toNat_lt
    have hn : Level.l0.slots.toNat = 256 := rfl
    simp only [Level.grain, Level.span, hn] at he hr
    rw [remaining_eq] at hr ⊢
    omega
  · intro hr
    rw [eq_of_remaining_eq_zero hr] at h
    exact h.slot

end HftComponents.Timer.Wheel
