import Mathlib.Data.Nat.Factorization.Basic
import Mathlib.Data.Nat.ModEq
import Mathlib.Logic.Function.Basic
import Mathlib.Tactic.Common

/-!
# Rings and counters that wrap

A ring of `capacity` cells is addressed by positions that only ever count up;
position `p` lives in cell `p % capacity`.  Positions less than `capacity`
apart live in different cells (`mod_ne_of_window`), which is all that keeps a
writer off the cells between the two ends.

A program keeps a position in a machine word.  `u64` and `u32` are the words of
a position: differences of close positions survive the wrap
(`toNat_u64_sub`), and so does the cell, if the capacity is a power of two
(`toNat_u64_and`).

`contents` lists what a ring holds from one position to another.
-/

namespace HftComponents.Lib.Ring

/-! ### The words of a counter -/

def u64 (n : Nat) : UInt64 := UInt64.ofNat n

def u32 (n : Nat) : UInt32 := UInt32.ofNat n

theorem toNat_u64 (n : Nat) : (u64 n).toNat = n % 2 ^ 64 := UInt64.toNat_ofNat'

theorem toNat_u32 (n : Nat) : (u32 n).toNat = n % 2 ^ 32 := UInt32.toNat_ofNat'

/-- The difference of two counters, as far as 64 bits show it. -/
theorem toNat_u64_sub {a b : Nat} (h : b ≤ a) : (u64 a - u64 b).toNat = (a - b) % 2 ^ 64 := by
  rw [UInt64.toNat_sub, toNat_u64, toNat_u64]
  omega

theorem toNat_u64_sub_of_lt {a b : Nat} (h : b ≤ a) (hlt : a - b < 2 ^ 64) :
    (u64 a - u64 b).toNat = a - b := by
  rw [toNat_u64_sub h, Nat.mod_eq_of_lt hlt]

theorem u64_inj_of_lt {a b : Nat} (h : b ≤ a) (hlt : a - b < 2 ^ 64) : u64 a = u64 b ↔ a = b := by
  rw [← UInt64.toNat_inj, toNat_u64, toNat_u64]
  omega

theorem u32_inj_of_lt {a b : Nat} (h : b ≤ a) (hlt : a - b < 2 ^ 32) : u32 a = u32 b ↔ a = b := by
  rw [← UInt32.toNat_inj, toNat_u32, toNat_u32]
  omega

/-- The mask of a power of two keeps the position in the ring. -/
theorem and_mask {c k : Nat} (hc : c = 2 ^ k) (x : Nat) : x &&& (c - 1) = x % c := by
  rw [hc, Nat.and_two_pow_sub_one_eq_mod]

theorem mod_two_pow_mod {c k n : Nat} (hc : c = 2 ^ k) (hk : k ≤ n) (x : Nat) :
    x % 2 ^ n % c = x % c := by
  rw [hc]
  exact Nat.mod_mod_of_dvd x (Nat.pow_dvd_pow 2 hk)

theorem toNat_u64_and {mask : UInt64} {c k : Nat} (hc : c = 2 ^ k) (hk : k ≤ 64)
    (hm : mask.toNat = c - 1) (p : Nat) : (u64 p &&& mask).toNat = p % c := by
  rw [UInt64.toNat_and, hm, and_mask hc, toNat_u64, mod_two_pow_mod hc hk]

theorem toNat_u32_and {mask : UInt32} {c k : Nat} (hc : c = 2 ^ k) (hk : k ≤ 32)
    (hm : mask.toNat = c - 1) (p : Nat) : ((u64 p).toUInt32 &&& mask).toNat = p % c := by
  rw [UInt32.toNat_and, hm, and_mask hc, UInt64.toNat_toUInt32, toNat_u64,
    Nat.mod_mod_of_dvd p (Nat.pow_dvd_pow 2 (by omega)), mod_two_pow_mod hc hk]

/-! ### Cells -/

theorem eq_of_window {c p q : Nat} (hle : p ≤ q) (hlt : q < p + c) (h : p % c = q % c) :
    p = q := by
  have hdvd : c ∣ q - p := (Nat.modEq_iff_dvd' hle).mp h
  have hzero := Nat.eq_zero_of_dvd_of_lt hdvd (by omega)
  omega

theorem mod_ne_of_window {c p q : Nat} (hlt : p < q) (hwin : q < p + c) : p % c ≠ q % c := by
  intro h
  exact hlt.ne (eq_of_window hlt.le hwin h)

/-- Two positions of one cell are a lap apart. -/
theorem add_le_of_mod_eq {c p q : Nat} (hlt : p < q) (h : p % c = q % c) : p + c ≤ q := by
  by_contra hc
  exact mod_ne_of_window hlt (by omega) h

/-! ### Strides that wrap -/

theorem two_pow_dvd_of_dvd_mul {d k s w : Nat} (hd : d ≠ 0) (hlt : d < 2 ^ k)
    (h : 2 ^ w ∣ d * s) : 2 ^ w ∣ 2 ^ k * s := by
  obtain ⟨a, m, hm, rfl⟩ := Nat.exists_eq_two_pow_mul_odd hd
  have hcop : Nat.Coprime (2 ^ w) m := (Nat.coprime_two_left.mpr hm).pow_left w
  have hdvd : 2 ^ w ∣ 2 ^ a * s := by
    refine hcop.dvd_of_dvd_mul_left ?_
    rwa [← Nat.mul_assoc, Nat.mul_comm m]
  have hak : a < k := by
    rw [← Nat.pow_lt_pow_iff_right (by decide : 1 < 2)]
    exact (Nat.le_mul_of_pos_right _ hm.pos).trans_lt hlt
  exact hdvd.trans (Nat.mul_dvd_mul_right (Nat.pow_dvd_pow 2 hak.le) s)

/-- The first `2 ^ k` multiples of a stride are distinct modulo `2 ^ w`, unless
the next one is zero. -/
theorem eq_of_mul_modEq {i j k s w : Nat} (hs : 2 ^ k * s % 2 ^ w ≠ 0) (hi : i < 2 ^ k)
    (hj : j < 2 ^ k) (h : i * s ≡ j * s [MOD 2 ^ w]) : i = j := by
  have hle : ∀ {i j : Nat}, j < 2 ^ k → i ≤ j → i * s ≡ j * s [MOD 2 ^ w] → i = j := by
    intro i j hj hij h
    by_contra hne
    have hdvd := (Nat.modEq_iff_dvd' (Nat.mul_le_mul_right s hij)).mp h
    rw [← Nat.sub_mul] at hdvd
    have hzero := two_pow_dvd_of_dvd_mul (by omega) (by omega : j - i < 2 ^ k) hdvd
    exact hs (Nat.mod_eq_zero_of_dvd hzero)
  rcases Nat.le_total i j with hij | hji
  · exact hle hj hij h
  · exact (hle hi hji h.symm).symm

/-! ### Contents -/

variable {α : Type}

/-- What the ring holds at the positions from `r` on, `n` of them. -/
def contents (cells : Nat → α) (c r : Nat) : Nat → List α
  | 0 => []
  | n + 1 => cells (r % c) :: contents cells c (r + 1) n

theorem contents_congr {cells cells' : Nat → α} {c r n : Nat}
    (h : ∀ i < n, cells ((r + i) % c) = cells' ((r + i) % c)) :
    contents cells c r n = contents cells' c r n := by
  induction n generalizing r with
  | zero => rfl
  | succ n ih =>
    have hhead : cells (r % c) = cells' (r % c) := h 0 (by omega)
    have htail : contents cells c (r + 1) n = contents cells' c (r + 1) n := by
      apply ih
      intro i hi
      have hi' := h (i + 1) (by omega)
      rwa [show r + (i + 1) = r + 1 + i by omega] at hi'
    rw [contents, contents, hhead, htail]

theorem contents_concat (cells : Nat → α) (c r n : Nat) :
    contents cells c r (n + 1) = contents cells c r n ++ [cells ((r + n) % c)] := by
  induction n generalizing r with
  | zero => rfl
  | succ n ih =>
    rw [contents, ih (r + 1), contents, List.cons_append, show r + 1 + n = r + (n + 1) by omega]

theorem length_contents (cells : Nat → α) (c r n : Nat) : (contents cells c r n).length = n := by
  induction n generalizing r with
  | zero => rfl
  | succ n ih => rw [contents, List.length_cons, ih]

end HftComponents.Lib.Ring
