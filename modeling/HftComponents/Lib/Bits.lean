import Mathlib.Data.Nat.ModEq
import Mathlib.Tactic.Common

/-!
# Rounding by bit operations

Two idioms of programs that compute with powers of two.  `x & ~(2^k - 1)`
clears the low bits, and rounds down to a multiple of `2^k`
(`toNat_and_not`).

Or-ing a word with itself shifted right by `1, 2, 4, ...` copies its highest
bit to every lower place.  `Covers x m w` says how far that has come: a bit of
`x` is set if one of the `w` bits of `m` from there up is.  A shift by `w`
doubles `w` (`Covers.double`), and once `w` exceeds the length of `m`, `x` is
all ones (`Covers.eq`).
-/

namespace HftComponents.Lib.Bits

/-- To clear the low bits rounds down. -/
theorem toNat_and_not {x m : UInt64} {k : Nat} (hm : m.toNat = 2 ^ k - 1) :
    (x &&& ~~~m).toNat = 2 ^ k * (x.toNat / 2 ^ k) := by
  have hpos := Nat.two_pow_pos k
  have hlt : 2 ^ k - 1 < 2 ^ 64 := hm ▸ m.toNat_lt
  have hnot : (~~~m).toNat = 2 ^ 64 - (2 ^ k - 1 + 1) := by
    have hsize : UInt64.size = 2 ^ 64 := rfl
    rw [UInt64.toNat_not, hm, hsize]
    omega
  rw [UInt64.toNat_and, hnot]
  apply Nat.eq_of_testBit_eq
  intro i
  rw [Nat.testBit_and, Nat.testBit_two_pow_sub_succ hlt, Nat.testBit_two_pow_sub_one,
    Nat.testBit_two_pow_mul, Nat.testBit_div_two_pow]
  by_cases hi : k ≤ i
  · by_cases hw : i < 64
    · simp [hi, hw]
    · have hbit : x.toNat.testBit i = false :=
        Nat.testBit_lt_two_pow (x.toNat_lt.trans_le (Nat.pow_le_pow_right (by decide) (by omega)))
      simp [hi, hbit]
  · simp [hi, Nat.lt_of_not_le hi]

/-- Bit `i` of `x` is set exactly if a bit of `m` from `i` to `i + w - 1` is. -/
def Covers (x m w : Nat) : Prop :=
  ∀ i, x.testBit i = true ↔ ∃ j < w, m.testBit (i + j) = true

theorem covers_self (m : Nat) : Covers m m 1 := by
  intro i
  refine ⟨?_, ?_⟩
  · intro hbit
    exact ⟨0, Nat.one_pos, hbit⟩
  · rintro ⟨j, hj, hbit⟩
    obtain rfl : j = 0 := by omega
    exact hbit

theorem Covers.double {x m w : Nat} (h : Covers x m w) : Covers (x ||| x >>> w) m (w + w) := by
  intro i
  rw [Nat.testBit_or, Nat.testBit_shiftRight, Bool.or_eq_true, h i, h (w + i)]
  refine ⟨?_, ?_⟩
  · intro hor
    rcases hor with ⟨j, hj, hbit⟩ | ⟨j, hj, hbit⟩
    · exact ⟨j, by omega, hbit⟩
    · exact ⟨w + j, by omega, by rwa [show i + (w + j) = w + i + j by omega]⟩
  · intro hex
    obtain ⟨j, hj, hbit⟩ := hex
    by_cases hlt : j < w
    · exact Or.inl ⟨j, hlt, hbit⟩
    · exact Or.inr ⟨j - w, by omega, by rwa [show w + i + (j - w) = i + j by omega]⟩

/-- All the ones below the highest one of `m`. -/
theorem Covers.eq {x m w : Nat} (h : Covers x m w) (hm : m ≠ 0) (hlt : m < 2 ^ w) :
    x = 2 ^ (m.log2 + 1) - 1 := by
  have hw : m.log2 < w := (Nat.log2_lt hm).mpr hlt
  apply Nat.eq_of_testBit_eq
  intro i
  rw [Nat.testBit_two_pow_sub_one, Bool.eq_iff_iff, decide_eq_true_iff, h i]
  refine ⟨?_, ?_⟩
  · intro hex
    obtain ⟨j, hj, hbit⟩ := hex
    by_contra hge
    have hhigh : m < 2 ^ (i + j) :=
      Nat.lt_log2_self.trans_le (Nat.pow_le_pow_right (by decide) (by omega))
    rw [Nat.testBit_lt_two_pow hhigh] at hbit
    cases hbit
  · intro hi
    refine ⟨m.log2 - i, by omega, ?_⟩
    rw [show i + (m.log2 - i) = m.log2 by omega]
    exact Nat.testBit_log2 hm

end HftComponents.Lib.Bits
