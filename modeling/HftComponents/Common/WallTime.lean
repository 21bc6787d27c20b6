import HftComponents.Common.TscClock
import Mathlib.Algebra.Order.Field.Basic
import Mathlib.Data.Rat.Floor
import Mathlib.Tactic.Linarith
import Mathlib.Tactic.Ring

/-!
# Stamps on either side of the base

A stamp is converted long after it was taken, and the base may have moved past
it.  `to_wall_ns` subtracts in 64 bits, so such a stamp counts as one taken most
of a turn of the counter later: `converts_iff` says that a pair of stamps is
converted to the signed distance from the base, and in order, just when neither
is older than the base, or so little older that even the turn is less than a
nanosecond, and the integers do not overflow.  The reader of `TscClock` does the same
arithmetic on what it has loaded (`convert_of_toWallNs`).
-/

namespace HftComponents.Common

def FitsInt64 (n : Int) : Prop := -2 ^ 63 ≤ n ∧ n < 2 ^ 63

instance (n : Int) : Decidable (FitsInt64 n) := inferInstanceAs (Decidable (_ ∧ _))

namespace TscClock

/-- `double(tsc - base_tsc) / ghz_`. -/
def quotient (c : TscClock) (tsc : UInt64) : ℚ := (tsc - c.tscBase).toNat / c.ghz

/-- `to_wall_ns`; `none` is an overflow, of the conversion to `int64_t` or of the
sum, for which the language gives no result. -/
def toWallNs (c : TscClock) (tsc : UInt64) : Option Int :=
  let deltaNs := truncate (c.quotient tsc)
  if FitsInt64 deltaNs ∧ FitsInt64 (c.wallBaseNs + deltaNs) then some (c.wallBaseNs + deltaNs)
  else none

/-- The two loads of the reader, if no store comes between them. -/
theorem convert_of_toWallNs {c : TscClock} {tsc : UInt64} {ns : Int}
    (h : c.toWallNs tsc = some ns) : convert c.ghz ⟨c.tscBase, c.wallBaseNs⟩ tsc = ns := by
  unfold toWallNs at h
  dsimp only at h
  split at h
  · exact Option.some.inj h
  · cases h

/-! ### What a conversion should give -/

/-- The wall time of a stamp, at `ghz` ticks to a nanosecond. -/
def wallTime (c : TscClock) (tsc : UInt64) : ℚ :=
  c.wallBaseNs + ((tsc.toNat : ℚ) - c.tscBase.toNat) / c.ghz

def Exact (c : TscClock) (tsc : UInt64) (ns : Int) : Prop := |ns - c.wallTime tsc| < 1

structure Converts (c : TscClock) (s t : UInt64) (m n : Int) : Prop where
  first : c.toWallNs s = some m
  second : c.toWallNs t = some n
  exact_first : c.Exact s m
  exact_second : c.Exact t n
  mono : m ≤ n

/-- Within `2 ^ 62` ticks of the base. -/
def Near (c : TscClock) (tsc : UInt64) : Prop :=
  c.tscBase.toNat ≤ tsc.toNat + 2 ^ 62 ∧ tsc.toNat ≤ c.tscBase.toNat + 2 ^ 62

instance (c : TscClock) (tsc : UInt64) : Decidable (c.Near tsc) :=
  inferInstanceAs (Decidable (_ ∧ _))

/-- Not older than the base, or the difference is below a nanosecond all the
same; and no overflow. -/
structure Covered (c : TscClock) (tsc : UInt64) : Prop where
  since : c.tscBase ≤ tsc ∨ ((tsc - c.tscBase).toNat : ℚ) < c.ghz
  delta : c.quotient tsc < 2 ^ 63
  sum : c.wallBaseNs + c.quotient tsc < 2 ^ 63

variable {c : TscClock} {s t : UInt64} {n : Int}

theorem truncate_eq_floor {q : ℚ} (h : 0 ≤ q) : truncate q = ⌊q⌋ := by
  rw [Rat.floor_def', truncate, Int.tdiv_eq_ediv_of_nonneg (Rat.num_nonneg.mpr h)]

theorem quotient_nonneg (hghz : 0 < c.ghz) (tsc : UInt64) : 0 ≤ c.quotient tsc :=
  div_nonneg (Nat.cast_nonneg _) hghz.le

theorem floor_lt_iff_lt {q : ℚ} : ⌊q⌋ < 2 ^ 63 ↔ q < 2 ^ 63 := by
  rw [Int.floor_lt]
  norm_num

theorem add_floor_lt_iff_lt {q : ℚ} {w : Int} : w + ⌊q⌋ < 2 ^ 63 ↔ w + q < 2 ^ 63 := by
  rw [← Int.floor_intCast_add, floor_lt_iff_lt]

theorem toWallNs_eq_some_iff (hghz : 0 < c.ghz) (hwall : FitsInt64 c.wallBaseNs) :
    c.toWallNs t = some n ↔ n = c.wallBaseNs + ⌊c.quotient t⌋ ∧ c.quotient t < 2 ^ 63 ∧
      c.wallBaseNs + c.quotient t < 2 ^ 63 := by
  have hq := quotient_nonneg hghz t
  have hfloor : 0 ≤ ⌊c.quotient t⌋ := Int.floor_nonneg.mpr hq
  have hlow := hwall.1
  unfold toWallNs
  dsimp only
  rw [truncate_eq_floor hq, ← floor_lt_iff_lt, ← add_floor_lt_iff_lt]
  unfold FitsInt64
  split
  · rename_i hfits
    rw [Option.some.injEq]
    exact ⟨fun h => ⟨h.symm, hfits.1.2, hfits.2.2⟩, fun h => h.1.symm⟩
  · rename_i hover
    refine ⟨fun h => absurd h (by simp), ?_⟩
    rintro ⟨-, hdelta, hsum⟩
    exact absurd ⟨⟨by omega, hdelta⟩, by omega, hsum⟩ hover

/-! ### The subtraction -/

theorem quotient_of_le (h : c.tscBase ≤ t) :
    c.quotient t = ((t.toNat : ℚ) - c.tscBase.toNat) / c.ghz := by
  have hle := UInt64.le_iff_toNat_le.mp h
  unfold quotient
  rw [UInt64.toNat_sub_of_le _ _ h, Nat.cast_sub hle]

/-- An older stamp comes out a turn of the counter late. -/
theorem quotient_of_lt (h : t < c.tscBase) :
    c.quotient t = (2 ^ 64 + ((t.toNat : ℚ) - c.tscBase.toNat)) / c.ghz := by
  have hlt := UInt64.lt_iff_toNat_lt.mp h
  have hturn : (t - c.tscBase).toNat + c.tscBase.toNat = 2 ^ 64 + t.toNat := by
    rw [UInt64.toNat_sub]
    have := c.tscBase.toNat_lt
    omega
  have hcast : ((t - c.tscBase).toNat : ℚ) = 2 ^ 64 + ((t.toNat : ℚ) - c.tscBase.toNat) := by
    have : (((t - c.tscBase).toNat + c.tscBase.toNat : Nat) : ℚ) = ((2 ^ 64 + t.toNat : Nat) : ℚ) :=
      congrArg _ hturn
    push_cast at this
    linarith
  unfold quotient
  rw [hcast]

/-- What `to_wall_ns` returns, against the wall time of the stamp. -/
theorem exact_iff (hghz : 0 < c.ghz) (hnear : c.Near t) :
    c.Exact t (c.wallBaseNs + ⌊c.quotient t⌋) ↔
      c.tscBase ≤ t ∨ ((t - c.tscBase).toNat : ℚ) < c.ghz := by
  have hfloor := Int.floor_le (c.quotient t)
  have hfloor' := Int.lt_floor_add_one (c.quotient t)
  unfold Exact wallTime
  rw [Int.cast_add, add_sub_add_left_eq_sub, abs_lt]
  by_cases hle : c.tscBase ≤ t
  · rw [← quotient_of_le hle]
    exact ⟨fun _ => Or.inl hle, fun _ => ⟨by linarith, by linarith⟩⟩
  · have hlt := UInt64.not_le.mp hle
    -- the signed difference is negative, and the floor is not
    have hold : ((t.toNat : ℚ) - c.tscBase.toNat) / c.ghz < 0 := by
      apply div_neg_of_neg_of_pos _ hghz
      have : (t.toNat : ℚ) < c.tscBase.toNat := Nat.cast_lt.mpr (UInt64.lt_iff_toNat_lt.mp hlt)
      linarith
    have hzero : c.quotient t < 1 ↔ ((t - c.tscBase).toNat : ℚ) < c.ghz := div_lt_one hghz
    rw [← hzero]
    refine ⟨?_, ?_⟩
    · rintro ⟨-, hupper⟩
      have hone : ⌊c.quotient t⌋ < 1 := by
        have : (⌊c.quotient t⌋ : ℚ) < 1 := by linarith
        exact_mod_cast this
      right
      exact Int.floor_lt.mp hone |>.trans_le (by norm_num)
    · rintro (hnew | hone)
      · exact absurd hnew hle
      · have hfloor0 : ⌊c.quotient t⌋ = 0 :=
          Int.floor_eq_zero_iff.mpr ⟨quotient_nonneg hghz t, hone⟩
        -- the turn is less than a nanosecond, and `t` is nearer than a turn
        have hback : c.tscBase.toNat ≤ t.toNat + 2 ^ 62 := hnear.1
        have hdist : -((t.toNat : ℚ) - c.tscBase.toNat) <
            2 ^ 64 + ((t.toNat : ℚ) - c.tscBase.toNat) := by
          have : (c.tscBase.toNat : ℚ) ≤ t.toNat + 2 ^ 62 := by exact_mod_cast hback
          linarith
        have hsmall : -(((t.toNat : ℚ) - c.tscBase.toNat) / c.ghz) < 1 := by
          rw [← neg_div]
          refine (div_lt_div_of_pos_right hdist hghz).trans ?_
          rw [← quotient_of_lt hlt]
          exact hone
        rw [hfloor0, Int.cast_zero]
        exact ⟨by linarith, by linarith⟩

theorem exact_iff_covered (hghz : 0 < c.ghz) (hwall : FitsInt64 c.wallBaseNs) (hnear : c.Near t) :
    (∃ n, c.toWallNs t = some n ∧ c.Exact t n) ↔ c.Covered t := by
  constructor
  · rintro ⟨n, hn, hexact⟩
    obtain ⟨rfl, hdelta, hsum⟩ := (toWallNs_eq_some_iff hghz hwall).mp hn
    exact ⟨(exact_iff hghz hnear).mp hexact, hdelta, hsum⟩
  · intro h
    exact ⟨_, (toWallNs_eq_some_iff hghz hwall).mpr ⟨rfl, h.delta, h.sum⟩,
      (exact_iff hghz hnear).mpr h.since⟩

/-- Later stamps are not converted to earlier times. -/
theorem floor_quotient_mono (hghz : 0 < c.ghz) (hle : s ≤ t) (hs : c.Covered s) :
    ⌊c.quotient s⌋ ≤ ⌊c.quotient t⌋ := by
  by_cases hbase : c.tscBase ≤ s
  · apply Int.floor_mono
    rw [quotient_of_le hbase, quotient_of_le (UInt64.le_trans hbase hle)]
    apply div_le_div_of_nonneg_right _ hghz.le
    have : (s.toNat : ℚ) ≤ t.toNat := Nat.cast_le.mpr (UInt64.le_iff_toNat_le.mp hle)
    linarith
  · have hsmall := hs.since.resolve_left hbase
    have hzero : ⌊c.quotient s⌋ = 0 :=
      Int.floor_eq_zero_iff.mpr ⟨quotient_nonneg hghz s, (div_lt_one hghz).mpr hsmall⟩
    rw [hzero]
    exact Int.floor_nonneg.mpr (quotient_nonneg hghz t)

end TscClock

/-! ### Runs -/

theorem run_ghz {ghz : ℚ} {c0 : Correlation} {os : List Event} {u : State}
    (h : Lib.Machine.Run machine Lib.Machine.anyStep (init ghz c0) os u) : u.clock.ghz = ghz := by
  refine h.keeps (I := fun u => u.clock.ghz = ghz) rfl ?_
  intro t l u o ht _ hstep
  cases step_moves hstep <;> exact ht

/-- **Stamps around the base.**  After any recalibrations, two stamps near the
base are converted to their wall times, and in order, if and only if both are
covered. -/
theorem converts_iff {ghz : ℚ} {c0 : Correlation} {os : List Event} {u : State} (hghz : 0 < ghz)
    (h : Lib.Machine.Run machine Lib.Machine.anyStep (init ghz c0) os u)
    (hwall : FitsInt64 u.clock.wallBaseNs) {s t : UInt64} (hle : s ≤ t)
    (hs : u.clock.Near s) (ht : u.clock.Near t) :
    (∃ m n, u.clock.Converts s t m n) ↔ u.clock.Covered s ∧ u.clock.Covered t := by
  rw [← run_ghz h] at hghz
  constructor
  · rintro ⟨m, n, hmn⟩
    exact ⟨(TscClock.exact_iff_covered hghz hwall hs).mp ⟨m, hmn.first, hmn.exact_first⟩,
      (TscClock.exact_iff_covered hghz hwall ht).mp ⟨n, hmn.second, hmn.exact_second⟩⟩
  · rintro ⟨hcs, hct⟩
    obtain ⟨m, hm, hexact⟩ := (TscClock.exact_iff_covered hghz hwall hs).mpr hcs
    obtain ⟨n, hn, hexact'⟩ := (TscClock.exact_iff_covered hghz hwall ht).mpr hct
    refine ⟨m, n, hm, hn, hexact, hexact', ?_⟩
    obtain ⟨rfl, -⟩ := (TscClock.toWallNs_eq_some_iff hghz hwall).mp hm
    obtain ⟨rfl, -⟩ := (TscClock.toWallNs_eq_some_iff hghz hwall).mp hn
    have := TscClock.floor_quotient_mono hghz hle hcs
    omega

theorem recalibrated_run : ∃ os, Lib.Machine.Run machine Lib.Machine.anyStep (init 3 ⟨0, 0⟩) os
    { clock := ⟨3, 3000, 1000⟩ } := by
  have hexec : machine.exec (init 3 ⟨0, 0⟩)
      [.recalibrate ⟨0, 1000⟩ 3000 ⟨0, 1000⟩, .writer, .writer] =
      some ({ clock := ⟨3, 3000, 1000⟩ }, [.snapped ⟨3000, 1000⟩]) := rfl
  exact ⟨_, Lib.Machine.run_of_exec_any hexec⟩

/-- One recalibration, and two stamps after it. -/
theorem converts_iff_after :
    ∃ os u, Lib.Machine.Run machine Lib.Machine.anyStep (init 3 ⟨0, 0⟩) os u ∧
      u.clock.tscBase = 3000 ∧ ∃ m n, u.clock.Converts 3100 3600 m n := by
  obtain ⟨os, hrun⟩ := recalibrated_run
  refine ⟨os, _, hrun, rfl, ?_⟩
  rw [converts_iff (by norm_num) hrun (by decide) (by decide) (by decide +kernel)
    (by decide +kernel)]
  exact ⟨⟨Or.inl (by decide), by decide +kernel, by decide +kernel⟩,
    ⟨Or.inl (by decide), by decide +kernel, by decide +kernel⟩⟩

/-- **A stamp older than the base** is taken at 300 ns and converted after a
recalibration at 1000 ns: it comes out 195 years late, and after a stamp that is
later than it. -/
theorem old_stamp_wraps :
    ∃ os u, Lib.Machine.Run machine Lib.Machine.anyStep (init 3 ⟨0, 0⟩) os u ∧
      u.clock.Near 900 ∧ u.clock.Near 3000 ∧ u.clock.wallTime 900 = 300 ∧
      u.clock.toWallNs 900 = some 6148914691236517505 ∧ u.clock.toWallNs 3000 = some 1000 ∧
      ¬ ∃ m n, u.clock.Converts 900 3000 m n := by
  obtain ⟨os, hrun⟩ := recalibrated_run
  refine ⟨os, _, hrun, by decide +kernel, by decide +kernel, by decide +kernel, by decide +kernel,
    by decide +kernel, ?_⟩
  rintro ⟨m, n, hmn⟩
  have hm : some m = some 6148914691236517505 := hmn.first.symm.trans (by decide +kernel)
  have hn : some n = some 1000 := hmn.second.symm.trans (by decide +kernel)
  obtain rfl := Option.some.inj hm
  obtain rfl := Option.some.inj hn
  exact absurd hmn.mono (by decide)

end HftComponents.Common
