import HftComponents.Pool.FreeList
import Mathlib.Data.Nat.Log

/-!
# The mapping behind a pool

The constructor rounds the block size to cache lines and the number of blocks
to a power of two, maps their product, and lists the blocks.  None of the three
computations is checked.

A rounding that wraps makes the product `0`, and `mmap` fails
(`construct_spec`).  A product that wraps alone may leave any size: the
constructor completes, on a mapping too small for its blocks.
`blocks_laid_iff` says when the blocks of a constructed pool lie in its mapping:
exactly when the product of the rounded arguments does not wrap.

The blocks are distinct pointers in any case (`nodup_blocks_of_construct`).
-/

namespace HftComponents.Pool

open Lib.Ring

/-- The constructor as a whole; it throws if `mmap` fails. -/
def MemoryPool.construct (mmap : UInt64 → Option UInt64) (blockSize numBlocks : UInt64) :
    Option MemoryPool :=
  (mmap (alignUp (max blockSize kCacheLine) kCacheLine * nextPow2 (max numBlocks 2))).map
    (MemoryPool.create blockSize numBlocks)

/-- What `mmap` promises of the region it returns. -/
structure Mmap (mmap : UInt64 → Option UInt64) : Prop where
  zero : mmap 0 = none
  aligned : ∀ n base, mmap n = some base → base.toNat % 4096 = 0
  fits : ∀ n base, mmap n = some base → base.toNat + n.toNat ≤ 2 ^ 64

/-- The size of a block, in integers without bound. -/
def roundedSize (blockSize : UInt64) : Nat := 64 * ((max blockSize.toNat 64 + 63) / 64)

/-- The number of blocks, in integers without bound. -/
def roundedCount (numBlocks : UInt64) : Nat := 2 ^ Nat.clog 2 (max numBlocks.toNat 2)

/-- The blocks are where a caller needs them. -/
structure Laid (blockSize numBlocks : UInt64) (p : MemoryPool) : Prop where
  disjoint : ∀ i < p.numBlocks.toNat, ∀ j < p.numBlocks.toNat, i ≠ j →
    (p.block i).toNat + p.blockSize.toNat ≤ (p.block j).toNat ∨
      (p.block j).toNat + p.blockSize.toNat ≤ (p.block i).toNat
  aligned : ∀ i < p.numBlocks.toNat, (p.block i).toNat % 64 = 0
  large : blockSize.toNat ≤ p.blockSize.toNat
  contained : ∀ i < p.numBlocks.toNat, p.backing.toNat ≤ (p.block i).toNat ∧
    (p.block i).toNat + p.blockSize.toNat ≤ p.backing.toNat + p.backingSize.toNat
  listed : p.freelist.items.Nodup ∧ (∀ x ∈ p.freelist.items, x ∈ p.blocks) ∧
    numBlocks.toNat ≤ p.freelist.items.length

/-! ### Rounding that wraps -/

theorem toNat_max (a b : UInt64) : (max a b).toNat = max a.toNat b.toNat := by
  show (if a ≤ b then b else a).toNat = _
  split
  · rename_i h
    exact (Nat.max_eq_right (UInt64.le_iff_toNat_le.mp h)).symm
  · rename_i h
    rw [UInt64.le_iff_toNat_le] at h
    omega

theorem alignUp_of_le {n : UInt64} (h : 2 ^ 64 ≤ n.toNat + 63) : alignUp n kCacheLine = 0 := by
  have hmask : (kCacheLine - 1).toNat = 2 ^ 6 - 1 := by decide
  have hlt := n.toNat_lt
  have hraw : (n + kCacheLine - 1).toNat = n.toNat + 63 - 2 ^ 64 := by
    have h64 : kCacheLine.toNat = 64 := rfl
    have h1 : (1 : UInt64).toNat = 1 := rfl
    rw [UInt64.toNat_sub, UInt64.toNat_add, h64, h1]
    omega
  rw [← UInt64.toNat_inj, alignUp, Lib.Bits.toNat_and_not hmask, hraw]
  show 2 ^ 6 * ((n.toNat + 63 - 2 ^ 64) / 2 ^ 6) = 0
  omega

theorem nextPow2_of_lt {n : UInt64} (h : 2 ^ 63 < n.toNat) : nextPow2 n = 0 := by
  have hlog : (n.toNat - 1).log2 = 63 := by
    rw [Nat.log2_eq_iff (by omega)]
    have hlt := n.toNat_lt
    omega
  rw [← UInt64.toNat_inj, toNat_nextPow2_of_lt (by omega), hlog]
  rfl

namespace MemoryPool

variable {mmap : UInt64 → Option UInt64} {blockSize numBlocks : UInt64} {p : MemoryPool}

/-! ### What a completed constructor has computed -/

/-- The two roundings of a completed constructor are exact, and the product is
not zero. -/
structure Built (blockSize numBlocks : UInt64) (p : MemoryPool) : Prop where
  create : p = create blockSize numBlocks p.backing
  size : p.blockSize.toNat = roundedSize blockSize
  count : p.numBlocks.toNat = roundedCount numBlocks
  pow : (max numBlocks 2).toNat ≤ 2 ^ 63
  backing : p.backingSize.toNat = p.blockSize.toNat * p.numBlocks.toNat % 2 ^ 64
  nonzero : p.backingSize.toNat ≠ 0
  page : p.backing.toNat % 4096 = 0
  mapped : p.backing.toNat + p.backingSize.toNat ≤ 2 ^ 64

theorem toNat_nextPow2_max (h : (max numBlocks 2).toNat ≤ 2 ^ 63) :
    (nextPow2 (max numBlocks 2)).toNat = roundedCount numBlocks := by
  obtain ⟨k, -, hpow, hle, hleast⟩ := nextPow2_spec h
  have h2 : (2 : UInt64).toNat = 2 := rfl
  rw [toNat_max, h2] at hle hleast
  have hclog : k = Nat.clog 2 (max numBlocks.toNat 2) := by
    apply Nat.le_antisymm
    · exact hleast _ (Nat.le_pow_clog (by decide) _)
    · exact Nat.clog_le_of_le_pow hle
  rw [hpow, roundedCount, hclog]

/-- **Only the product can wrap unnoticed.** -/
theorem construct_spec (hm : Mmap mmap) (h : construct mmap blockSize numBlocks = some p) :
    Built blockSize numBlocks p := by
  obtain ⟨base, hbase, rfl⟩ := Option.map_eq_some_iff.mp h
  have hne : alignUp (max blockSize kCacheLine) kCacheLine * nextPow2 (max numBlocks 2) ≠ 0 := by
    intro hzero
    rw [hzero, hm.zero] at hbase
    cases hbase
  have halign : (max blockSize kCacheLine).toNat + 63 < 2 ^ 64 := by
    by_contra hge
    rw [alignUp_of_le (by omega), UInt64.zero_mul] at hne
    exact hne rfl
  have hpow : (max numBlocks 2).toNat ≤ 2 ^ 63 := by
    by_contra hgt
    rw [nextPow2_of_lt (by omega), UInt64.mul_zero] at hne
    exact hne rfl
  exact {
    create := rfl
    size := by
      refine (toNat_alignUp halign).trans ?_
      rw [toNat_max]
      rfl
    count := toNat_nextPow2_max hpow
    pow := hpow
    backing := UInt64.toNat_mul ..
    nonzero := fun hzero => hne (UInt64.toNat_inj.mp hzero)
    page := hm.aligned _ _ hbase
    mapped := hm.fits _ _ hbase }

theorem Built.items (h : Built blockSize numBlocks p) :
    p.freelist.WellFormed ∧ p.freelist.cap = p.numBlocks ∧ p.freelist.rp ≤ p.freelist.wp ∧
      p.freelist.items = p.blocks := by
  rw [h.create]
  exact items_create_of_le h.pow

theorem Built.blockSize_pos (h : Built blockSize numBlocks p) : 0 < p.blockSize.toNat := by
  rw [h.size, roundedSize]
  omega

theorem length_blocks (p : MemoryPool) : p.blocks.length = p.numBlocks.toNat := by
  rw [blocks, List.length_map, List.length_range]

theorem blocks_eq_cons_cons (h : 2 ≤ p.numBlocks.toNat) :
    ∃ bs, p.blocks = p.block 0 :: p.block 1 :: bs := by
  obtain ⟨k, hk⟩ := Nat.exists_eq_add_of_le' h
  refine ⟨(List.range k).map fun i => p.block (i + 1 + 1), ?_⟩
  rw [blocks, hk, List.range_succ_eq_map, List.range_succ_eq_map, List.map_cons, List.map_map,
    List.map_cons, List.map_map]
  rfl

/-- **The blocks of a constructed pool are distinct.** -/
theorem nodup_blocks_of_construct (hm : Mmap mmap)
    (h : construct mmap blockSize numBlocks = some p) : p.blocks.Nodup := by
  have hb := construct_spec hm h
  refine List.Nodup.map_on ?_ List.nodup_range
  intro i hi j hj heq
  rw [List.mem_range, hb.count, roundedCount] at hi hj
  have hwrap : 2 ^ Nat.clog 2 (max numBlocks.toNat 2) * p.blockSize.toNat % 2 ^ 64 ≠ 0 := by
    rw [Nat.mul_comm]
    have hne := hb.nonzero
    rwa [hb.backing, hb.count] at hne
  refine eq_of_mul_modEq hwrap hi hj ?_
  have hmul : u64 i * p.blockSize = u64 j * p.blockSize := UInt64.add_right_inj _ |>.mp heq
  have hnat := congrArg UInt64.toNat hmul
  rw [UInt64.toNat_mul, UInt64.toNat_mul, toNat_u64, toNat_u64, Nat.mod_mul_mod,
    Nat.mod_mul_mod] at hnat
  exact hnat

/-! ### The blocks in the mapping -/

/-- Blocks that lie in the mapping follow each other without a gap. -/
theorem toNat_block_of_contained
    (h : ∀ i < p.numBlocks.toNat, p.backing.toNat ≤ (p.block i).toNat ∧
      (p.block i).toNat + p.blockSize.toNat ≤ p.backing.toNat + p.backingSize.toNat) {i : Nat}
    (hi : i < p.numBlocks.toNat) :
    (p.block i).toNat = p.backing.toNat + i * p.blockSize.toNat := by
  induction i with
  | zero =>
    have h0 : u64 0 = 0 := rfl
    rw [block, h0, UInt64.zero_mul, UInt64.add_zero, Nat.zero_mul, Nat.add_zero]
  | succ i ih =>
    have hprev := ih (Nat.lt_of_succ_lt hi)
    have hend := (h i (Nat.lt_of_succ_lt hi)).2
    have hstart := (h (i + 1) hi).1
    have hnext : p.block (i + 1) = p.block i + p.blockSize := by
      have hsucc : u64 (i + 1) = u64 i + 1 := by
        rw [← UInt64.toNat_inj, UInt64.toNat_add, toNat_u64, toNat_u64]
        have h1 : (1 : UInt64).toNat = 1 := rfl
        omega
      rw [block, block, hsucc, UInt64.add_mul, UInt64.one_mul, UInt64.add_assoc]
    have hsize := p.backingSize.toNat_lt
    rw [Nat.succ_mul, ← Nat.add_assoc, ← hprev]
    rw [hnext, UInt64.toNat_add] at hstart ⊢
    omega

/-- A product that does not wrap is mapped, and the blocks lie in it. -/
theorem laid_of_lt (hm : Mmap mmap) (h : construct mmap blockSize numBlocks = some p)
    (hlt : roundedSize blockSize * roundedCount numBlocks < 2 ^ 64) :
    Laid blockSize numBlocks p := by
  have hb := construct_spec hm h
  rw [← hb.size, ← hb.count] at hlt
  have hbacking := hb.backing
  rw [Nat.mod_eq_of_lt hlt] at hbacking
  have hmapped := hb.mapped
  rw [hbacking] at hmapped
  have hblock := @toNat_block_of_le p hb.blockSize_pos hmapped
  obtain ⟨-, -, -, hitems⟩ := hb.items
  exact {
    disjoint := by
      intro i hi j hj hne
      rw [hblock hi, hblock hj]
      rcases Nat.lt_or_gt_of_ne hne with hij | hji
      · have := Nat.mul_le_mul_right p.blockSize.toNat (Nat.succ_le_of_lt hij)
        rw [Nat.succ_mul] at this
        omega
      · have := Nat.mul_le_mul_right p.blockSize.toNat (Nat.succ_le_of_lt hji)
        rw [Nat.succ_mul] at this
        omega
    aligned := by
      intro i hi
      have hpage := hb.page
      have hline : 64 ∣ i * p.blockSize.toNat := by
        rw [hb.size, roundedSize]
        exact Dvd.dvd.mul_left (Nat.dvd_mul_right ..) i
      rw [hblock hi]
      omega
    large := by
      rw [hb.size, roundedSize]
      omega
    contained := by
      intro i hi
      have := Nat.mul_le_mul_right p.blockSize.toNat (Nat.succ_le_of_lt hi)
      rw [Nat.succ_mul, Nat.mul_comm p.numBlocks.toNat] at this
      rw [hblock hi, hbacking]
      omega
    listed := by
      rw [hitems]
      refine ⟨nodup_blocks_of_construct hm h, fun _ hx => hx, ?_⟩
      rw [length_blocks, hb.count]
      exact (Nat.le_max_left _ _).trans (Nat.le_pow_clog (by decide) _) }

/-- **The blocks lie in the mapping exactly when its size did not wrap.** -/
theorem blocks_laid_iff (hm : Mmap mmap) (h : construct mmap blockSize numBlocks = some p) :
    Laid blockSize numBlocks p ↔ roundedSize blockSize * roundedCount numBlocks < 2 ^ 64 := by
  refine ⟨?_, laid_of_lt hm h⟩
  intro hlaid
  have hb := construct_spec hm h
  rw [← hb.size, ← hb.count]
  have hpos : 0 < p.numBlocks.toNat := by
    rw [hb.count]
    exact Nat.two_pow_pos _
  have hlast : p.numBlocks.toNat - 1 < p.numBlocks.toNat := by omega
  have hblock := toNat_block_of_contained hlaid.contained hlast
  have hend := (hlaid.contained _ hlast).2
  have hmul : (p.numBlocks.toNat - 1) * p.blockSize.toNat + p.blockSize.toNat =
      p.blockSize.toNat * p.numBlocks.toNat := by
    rw [← Nat.succ_mul, Nat.succ_eq_add_one, Nat.sub_add_cancel hpos, Nat.mul_comm]
  have hsize := p.backingSize.toNat_lt
  omega

/-- Maps requests of up to 1 MiB, at address 65536. -/
def smallMmap (n : UInt64) : Option UInt64 := if n = 0 ∨ 1048576 < n then none else some 65536

theorem mmap_smallMmap : Mmap smallMmap := by
  have hspec : ∀ n base, smallMmap n = some base → base = 65536 ∧ n.toNat ≤ 1048576 := by
    intro n base h
    unfold smallMmap at h
    split at h
    · cases h
    · rename_i hn
      rw [not_or, UInt64.lt_iff_toNat_lt] at hn
      have hlimit : (1048576 : UInt64).toNat = 1048576 := rfl
      exact ⟨(Option.some.inj h).symm, by omega⟩
  refine ⟨rfl, ?_, ?_⟩
  · intro n base h
    obtain ⟨rfl, -⟩ := hspec n base h
    rfl
  · intro n base h
    obtain ⟨rfl, hn⟩ := hspec n base h
    have hbase : (65536 : UInt64).toNat = 65536 := rfl
    omega

/-- Four blocks of 128 bytes. -/
theorem blocks_laid_iff_four :
    ∃ p, construct smallMmap 100 3 = some p ∧ Laid 100 3 p ∧ p.blocks.length = 4 := by
  have h : construct smallMmap 100 3 = some (create 100 3 65536) := rfl
  refine ⟨_, h, (blocks_laid_iff mmap_smallMmap h).mpr ?_, ?_⟩
  · decide +kernel
  · rw [length_blocks]
    rfl

/-- **Two blocks of more than half the address space.**  Their size wraps to 128
bytes: the constructor completes, and no block fits the mapping. -/
theorem wrapped_mapping :
    ∃ p, construct smallMmap 9223372036854775872 2 = some p ∧ p.backingSize = 128 ∧
      ¬Laid 9223372036854775872 2 p := by
  refine ⟨create 9223372036854775872 2 65536, rfl, rfl, ?_⟩
  intro hlaid
  have hend := (hlaid.contained 0 (by decide +kernel)).2
  exact absurd hend (by decide +kernel)

end MemoryPool

end HftComponents.Pool
