import Mathlib.Order.Bounds.Basic
import HftComponents.Pool.Mapping

/-!
# The rounding helpers

`next_pow2` gives the least power of two that is not below its argument, and
`align_up` the least multiple of its alignment.  What rests on them is the ring
of the free list (`Ringed`): its capacity is the number of blocks, `& mask_` is
the remainder by it, and every block is pushed into a list that has room.

No completed constructor has a rounding that wraps, so for the pools that `mmap`
has backed `rounding_exact` needs no bound on the arguments.
-/

namespace HftComponents.Pool

namespace MemoryPool

/-- The loop of `populate_freelist`, `n` turns of it. -/
def populating (p : MemoryPool) (n : Nat) : SPSCFreeList :=
  (List.range n).foldl (fun l i => (l.push (p.block i)).1) (.make p.numBlocks)

structure Ringed (p : MemoryPool) : Prop where
  cap : p.freelist.cap = p.numBlocks
  pow : ∃ k, p.numBlocks.toNat = 2 ^ k
  cell : ∀ w, p.freelist.cell w = w % p.numBlocks.toNat
  pushed : ∀ i < p.numBlocks.toNat, ((p.populating i).push (p.block i)).2 = true
  filled : p.freelist = p.populating p.numBlocks.toNat

end MemoryPool

theorem nextPow2_isLeast {n : UInt64} (h : n.toNat ≤ 2 ^ 63) :
    IsLeast {m | (∃ k, m = 2 ^ k) ∧ max n.toNat 1 ≤ m} (nextPow2 n).toNat := by
  obtain ⟨k, -, hpow, hle, hleast⟩ := nextPow2_spec h
  rw [hpow]
  refine ⟨⟨⟨k, rfl⟩, max_le hle Nat.one_le_two_pow⟩, ?_⟩
  rintro m ⟨⟨j, rfl⟩, hm⟩
  exact Nat.pow_le_pow_right (by decide) (hleast j ((le_max_left _ _).trans hm))

theorem alignUp_isLeast {n a : UInt64} {k : Nat} (ha : a.toNat = 2 ^ k)
    (h : n.toNat + a.toNat - 1 < 2 ^ 64) :
    IsLeast {m | a.toNat ∣ m ∧ n.toNat ≤ m} (alignUp n a).toNat := by
  have hpos := Nat.two_pow_pos k
  rw [toNat_alignUp_of_pow ha h, ha]
  refine ⟨⟨Nat.dvd_mul_right _ _, ?_⟩, ?_⟩
  · have hdiv := Nat.div_add_mod (n.toNat + (2 ^ k - 1)) (2 ^ k)
    have hmod := Nat.mod_lt (n.toNat + (2 ^ k - 1)) hpos
    omega
  · rintro m ⟨⟨q, rfl⟩, hle⟩
    refine Nat.mul_le_mul_left _ (Nat.le_of_lt_succ ?_)
    rw [Nat.div_lt_iff_lt_mul hpos, Nat.succ_mul, Nat.mul_comm q]
    omega

theorem ringed_create {numBlocks : UInt64} (h : numBlocks.toNat ≤ 2 ^ 63)
    (blockSize backing : UInt64) : (MemoryPool.create blockSize numBlocks backing).Ringed := by
  have hmax : (max numBlocks 2).toNat ≤ 2 ^ 63 := by
    rw [toNat_max]
    exact max_le h (by decide)
  obtain ⟨hwell, hcap, -, -⟩ := @MemoryPool.items_create_of_le blockSize numBlocks backing hmax
  generalize hp : MemoryPool.create blockSize numBlocks backing = p at *
  have hpow : ∃ k ≤ 63, p.numBlocks.toNat = 2 ^ k := by
    rw [← hcap]
    exact hwell.1
  refine ⟨hcap, ?_, ?_, ?_, ?_⟩
  · obtain ⟨k, -, hk⟩ := hpow
    exact ⟨k, hk⟩
  · intro w
    rw [hwell.cell_eq, hcap]
  · intro i hi
    obtain ⟨-, hcap', hrp, hwp, -⟩ :=
      p.populate_spec (SPSCFreeList.wellFormed_make hpow) rfl rfl (n := i) hi.le
    have hle : (p.populating i).rp ≤ (p.populating i).wp := by
      rw [MemoryPool.populating, hrp]
      exact Nat.zero_le _
    have hroom : (p.populating i).wp < (p.populating i).rp + (p.populating i).cap.toNat := by
      rw [MemoryPool.populating, hcap', hrp, hwp, Nat.zero_add]
      exact hi
    rw [SPSCFreeList.push_of_room hle hroom]
  · rw [← hp]
    rfl

/-- **The rounding is exact, and the ring of every pool rests on it.** -/
theorem rounding_exact :
    (∀ n : UInt64, n.toNat ≤ 2 ^ 63 →
        IsLeast {m | (∃ k, m = 2 ^ k) ∧ max n.toNat 1 ≤ m} (nextPow2 n).toNat) ∧
      (∀ n a : UInt64, (∃ k, a.toNat = 2 ^ k) → n.toNat + a.toNat - 1 < 2 ^ 64 →
        IsLeast {m | a.toNat ∣ m ∧ n.toNat ≤ m} (alignUp n a).toNat) ∧
      (∀ blockSize numBlocks backing : UInt64, numBlocks.toNat ≤ 2 ^ 63 →
        (MemoryPool.create blockSize numBlocks backing).Ringed) ∧
      ∀ mmap, Mmap mmap → ∀ blockSize numBlocks p,
        MemoryPool.construct mmap blockSize numBlocks = some p → p.Ringed := by
  refine ⟨fun n => nextPow2_isLeast, ?_, ?_, ?_⟩
  · rintro n a ⟨k, ha⟩
    exact alignUp_isLeast ha
  · exact fun blockSize numBlocks backing h => ringed_create h blockSize backing
  · intro mmap hm blockSize numBlocks p hp
    have hb := MemoryPool.construct_spec hm hp
    rw [hb.create]
    have hpow := hb.pow
    rw [toNat_max] at hpow
    exact ringed_create ((le_max_left _ _).trans hpow) _ _

/-- `5` rounds to `8`, `100` to two cache lines, and three blocks to four. -/
theorem rounding_exact_values :
    IsLeast {m | (∃ k, m = 2 ^ k) ∧ 5 ≤ m} 8 ∧ IsLeast {m | 64 ∣ m ∧ 100 ≤ m} 128 ∧
      ∃ p, MemoryPool.construct MemoryPool.smallMmap 100 3 = some p ∧ p.numBlocks = 4 ∧
        p.Ringed := by
  obtain ⟨hpow, halign, -, hring⟩ := rounding_exact
  exact ⟨hpow 5 (by decide), halign 100 64 ⟨6, rfl⟩ (by decide), _, rfl, rfl,
    hring _ MemoryPool.mmap_smallMmap 100 3 _ rfl⟩

end HftComponents.Pool
