import HftComponents.Lib.Bits
import HftComponents.Lib.Ring
import Mathlib.Data.List.Nodup

/-!
# The pool and its free list

`SPSCFreeList` is a ring of pointers, as large as the number of blocks, and
`MemoryPool` fills it with every block of its mapping (`items_create`).  A
pointer is its address; `nullptr` is `0`.

`Fits` collects what keeps the size computations of the constructor from
wrapping, and says of the mapping that it is one.  Under it the blocks are
distinct and none is null (`nodup_blocks`, `ne_zero_of_mem_blocks`).
-/

namespace HftComponents.Pool

open Lib.Ring

def kCacheLine : UInt64 := 64

def alignUp (n a : UInt64) : UInt64 := (n + a - 1) &&& ~~~(a - 1)

def nextPow2 (n : UInt64) : UInt64 :=
  if n ≤ 1 then 1
  else
    let n := n - 1
    let n := n ||| n >>> 1
    let n := n ||| n >>> 2
    let n := n ||| n >>> 4
    let n := n ||| n >>> 8
    let n := n ||| n >>> 16
    let n := n ||| n >>> 32
    n + 1

structure SPSCFreeList where
  cap : UInt64
  mask : UInt64
  slots : Nat → UInt64 := fun _ => 0
  wp : Nat := 0
  rp : Nat := 0

namespace SPSCFreeList

def make (capacity : UInt64) : SPSCFreeList := { cap := capacity, mask := capacity - 1 }

/-- The index `p & mask_`. -/
def cell (l : SPSCFreeList) (p : Nat) : Nat := (u64 p &&& l.mask).toNat

def full (l : SPSCFreeList) (w r : Nat) : Bool := l.cap ≤ u64 w - u64 r

def empty (r w : Nat) : Bool := u64 r = u64 w

/-- `push`, with no other thread at work. -/
def push (l : SPSCFreeList) (ptr : UInt64) : SPSCFreeList × Bool :=
  if l.full l.wp l.rp then (l, false)
  else ({ l with slots := Function.update l.slots (l.cell l.wp) ptr, wp := l.wp + 1 }, true)

end SPSCFreeList

structure PoolStats where
  allocs : Nat := 0
  frees : Nat := 0
  allocFailures : Nat := 0

structure MemoryPool where
  blockSize : UInt64
  numBlocks : UInt64
  freelist : SPSCFreeList
  backing : UInt64
  backingSize : UInt64
  stats : PoolStats := {}

namespace MemoryPool

def block (p : MemoryPool) (i : Nat) : UInt64 := p.backing + u64 i * p.blockSize

def populateFreelist (p : MemoryPool) : MemoryPool :=
  { p with
    freelist := (List.range p.numBlocks.toNat).foldl (fun l i => (l.push (p.block i)).1) p.freelist }

/-- The constructor, `backing` being what `mmap` returns. -/
def create (blockSize numBlocks backing : UInt64) : MemoryPool :=
  let blockSize := alignUp (max blockSize kCacheLine) kCacheLine
  let numBlocks := nextPow2 (max numBlocks 2)
  populateFreelist {
    blockSize := blockSize
    numBlocks := numBlocks
    freelist := .make numBlocks
    backing := backing
    backingSize := blockSize * numBlocks }

/-- Every block, in the order of the addresses. -/
def blocks (p : MemoryPool) : List UInt64 := (List.range p.numBlocks.toNat).map p.block

end MemoryPool

/-! ### Rounding -/

theorem toNat_alignUp_of_pow {n a : UInt64} {k : Nat} (ha : a.toNat = 2 ^ k)
    (h : n.toNat + a.toNat - 1 < 2 ^ 64) :
    (alignUp n a).toNat = 2 ^ k * ((n.toNat + (2 ^ k - 1)) / 2 ^ k) := by
  have hpos := Nat.two_pow_pos k
  have hlt := a.toNat_lt
  have h1 : (1 : UInt64).toNat = 1 := rfl
  have hmask : (a - 1).toNat = 2 ^ k - 1 := by
    rw [UInt64.toNat_sub, h1]
    omega
  have hraw : (n + a - 1).toNat = n.toNat + (2 ^ k - 1) := by
    rw [UInt64.toNat_sub, UInt64.toNat_add, h1]
    omega
  rw [alignUp, Lib.Bits.toNat_and_not hmask, hraw]

theorem toNat_alignUp {n : UInt64} (h : n.toNat + 63 < 2 ^ 64) :
    (alignUp n kCacheLine).toNat = 64 * ((n.toNat + 63) / 64) := by
  have h64 : kCacheLine.toNat = 2 ^ 6 := rfl
  exact toNat_alignUp_of_pow h64 (by rw [h64]; omega)

theorem toNat_or_shiftRight (x k : UInt64) :
    (x ||| x >>> k).toNat = x.toNat ||| x.toNat >>> (k.toNat % 64) := by
  rw [UInt64.toNat_or, UInt64.toNat_shiftRight]

/-- The last addition wraps if bit 63 of `n - 1` is set. -/
theorem toNat_nextPow2_of_lt {n : UInt64} (h : 1 < n.toNat) :
    (nextPow2 n).toNat = 2 ^ ((n.toNat - 1).log2 + 1) % 2 ^ 64 := by
  have h1 : (1 : UInt64).toNat = 1 := rfl
  have hm : (n - 1).toNat = n.toNat - 1 := by
    rw [UInt64.toNat_sub, h1]
    have := n.toNat_lt
    omega
  have hcov := (Lib.Bits.covers_self (n - 1).toNat).double.double.double.double.double.double
  have hones := hcov.eq (by omega) (n - 1).toNat_lt
  have hpos := Nat.two_pow_pos ((n - 1).toNat.log2 + 1)
  rw [nextPow2, if_neg (by rw [UInt64.le_iff_toNat_le]; omega), UInt64.toNat_add, h1]
  simp only [toNat_or_shiftRight]
  refine (congrArg (fun x => (x + 1) % 2 ^ 64) hones).trans ?_
  rw [Nat.sub_add_cancel hpos, hm]

/-- The least power of two that is not below `n`. -/
theorem nextPow2_spec {n : UInt64} (h : n.toNat ≤ 2 ^ 63) :
    ∃ k ≤ 63, (nextPow2 n).toNat = 2 ^ k ∧ n.toNat ≤ 2 ^ k ∧ ∀ j, n.toNat ≤ 2 ^ j → k ≤ j := by
  by_cases hle : n.toNat ≤ 1
  · have hone : nextPow2 n = 1 := if_pos (UInt64.le_iff_toNat_le.mpr hle)
    refine ⟨0, by decide, by rw [hone]; rfl, hle, ?_⟩
    intro j _
    exact Nat.zero_le j
  · have hpow := toNat_nextPow2_of_lt (Nat.lt_of_not_le hle)
    have hne : n.toNat - 1 ≠ 0 := by omega
    generalize hL : (n.toNat - 1).log2 = L at hpow
    have hlow : 2 ^ L ≤ n.toNat - 1 := hL ▸ Nat.log2_self_le hne
    have hhigh : n.toNat - 1 < 2 ^ (L + 1) := hL ▸ Nat.lt_log2_self
    have hL63 : L < 63 := by
      rw [← Nat.pow_lt_pow_iff_right (by decide : 1 < 2)]
      omega
    have hbound : 2 ^ (L + 1) ≤ 2 ^ 63 := Nat.pow_le_pow_right (by decide) hL63
    refine ⟨L + 1, hL63, ?_, by omega, ?_⟩
    · rw [hpow, Nat.mod_eq_of_lt (by omega)]
    · intro j hj
      have hlt : 2 ^ L < 2 ^ j := by omega
      exact (Nat.pow_lt_pow_iff_right (by decide : 1 < 2)).mp hlt

/-! ### The free list as a ring -/

namespace SPSCFreeList

/-- The capacity is a power of two, and the mask is its mask. -/
def WellFormed (l : SPSCFreeList) : Prop :=
  (∃ k ≤ 63, l.cap.toNat = 2 ^ k) ∧ l.mask.toNat = l.cap.toNat - 1

/-- The pointers in the list, the next one to be popped first. -/
def items (l : SPSCFreeList) : List UInt64 := contents l.slots l.cap.toNat l.rp (l.wp - l.rp)

variable {l : SPSCFreeList}

theorem WellFormed.cell_eq (h : l.WellFormed) (p : Nat) : l.cell p = p % l.cap.toNat := by
  obtain ⟨⟨k, hk, hcap⟩, hmask⟩ := h
  exact toNat_u64_and hcap (by omega) hmask p

theorem wellFormed_make {c : UInt64} (h : ∃ k ≤ 63, c.toNat = 2 ^ k) : (make c).WellFormed := by
  refine ⟨h, ?_⟩
  obtain ⟨k, -, hc⟩ := h
  have hpos := Nat.two_pow_pos k
  have h1 : (1 : UInt64).toNat = 1 := rfl
  show (c - 1).toNat = c.toNat - 1
  rw [UInt64.toNat_sub, h1]
  have := c.toNat_lt
  omega

theorem full_iff {w r : Nat} (hle : r ≤ w) (hroom : w ≤ r + l.cap.toNat) :
    l.full w r = true ↔ w = r + l.cap.toNat := by
  have hc := l.cap.toNat_lt
  by_cases hlt : w - r < 2 ^ 64
  · rw [full, decide_eq_true_iff, UInt64.le_iff_toNat_le, toNat_u64_sub_of_lt hle hlt]
    omega
  · omega

theorem push_of_room (hle : l.rp ≤ l.wp) (hroom : l.wp < l.rp + l.cap.toNat) (x : UInt64) :
    l.push x =
      ({ l with slots := Function.update l.slots (l.cell l.wp) x, wp := l.wp + 1 }, true) := by
  rw [push, if_neg]
  rw [full_iff hle hroom.le]
  omega

def storeSlot (l : SPSCFreeList) (w : Nat) (x : UInt64) : SPSCFreeList :=
  { l with slots := Function.update l.slots (l.cell w) x }

/-- The slot of `wp_` is none of the list's. -/
theorem items_storeSlot (h : l.WellFormed) (hle : l.rp ≤ l.wp)
    (hroom : l.wp < l.rp + l.cap.toNat) (x : UInt64) :
    (l.storeSlot l.wp x).items = l.items := by
  apply contents_congr
  intro i hi
  apply Function.update_of_ne
  have hi' : i < l.wp - l.rp := hi
  rw [h.cell_eq]
  show (l.rp + i) % l.cap.toNat ≠ l.wp % l.cap.toNat
  exact mod_ne_of_window (by omega) (by omega)

theorem items_storeWp (hle : l.rp ≤ l.wp) :
    ({ l with wp := l.wp + 1 } : SPSCFreeList).items =
      l.items ++ [l.slots (l.wp % l.cap.toNat)] := by
  unfold items
  show contents l.slots l.cap.toNat l.rp (l.wp + 1 - l.rp) = _
  rw [show l.wp + 1 - l.rp = l.wp - l.rp + 1 by omega, contents_concat,
    show l.rp + (l.wp - l.rp) = l.wp by omega]

theorem items_storeRp (hlt : l.rp < l.wp) :
    l.items =
      l.slots (l.rp % l.cap.toNat) :: ({ l with rp := l.rp + 1 } : SPSCFreeList).items := by
  unfold items
  show contents l.slots l.cap.toNat l.rp (l.wp - l.rp) = _ :: contents _ _ _ (l.wp - (l.rp + 1))
  rw [show l.wp - l.rp = l.wp - (l.rp + 1) + 1 by omega]
  rfl

theorem length_items (l : SPSCFreeList) : l.items.length = l.wp - l.rp :=
  length_contents ..

theorem items_push (h : l.WellFormed) (hle : l.rp ≤ l.wp) (hroom : l.wp < l.rp + l.cap.toNat)
    (x : UInt64) : (l.push x).1.items = l.items ++ [x] := by
  rw [push_of_room hle hroom]
  have hstore := items_storeWp (l := l.storeSlot l.wp x) hle
  rw [items_storeSlot h hle hroom] at hstore
  refine hstore.trans (congrArg (fun y => l.items ++ [y]) ?_)
  show Function.update l.slots (l.cell l.wp) x (l.wp % l.cap.toNat) = x
  rw [h.cell_eq, Function.update_self]

end SPSCFreeList

/-! ### The blocks -/

/-- The size computations of the constructor do not wrap, and `backing` is a
mapping of that size. -/
structure Fits (blockSize numBlocks backing : UInt64) : Prop where
  align : (max blockSize kCacheLine).toNat + 63 < 2 ^ 64
  pow : (max numBlocks 2).toNat ≤ 2 ^ 63
  size : (alignUp (max blockSize kCacheLine) kCacheLine).toNat *
    (nextPow2 (max numBlocks 2)).toNat < 2 ^ 64
  mapped : backing.toNat + (alignUp (max blockSize kCacheLine) kCacheLine).toNat *
    (nextPow2 (max numBlocks 2)).toNat ≤ 2 ^ 64
  nonNull : backing ≠ 0

namespace MemoryPool

theorem populate_spec (p : MemoryPool) {l : SPSCFreeList} (h : l.WellFormed) (hrp : l.rp = 0)
    (hwp : l.wp = 0) {n : Nat} (hn : n ≤ l.cap.toNat) :
    let u := (List.range n).foldl (fun l i => (l.push (p.block i)).1) l
    u.WellFormed ∧ u.cap = l.cap ∧ u.rp = 0 ∧ u.wp = n ∧ u.items = (List.range n).map p.block := by
  induction n with
  | zero =>
    refine ⟨h, rfl, hrp, hwp, ?_⟩
    show contents l.slots l.cap.toNat l.rp (l.wp - l.rp) = []
    rw [hrp, hwp]
    rfl
  | succ n ih =>
    obtain ⟨hw, hcap, hr, hwn, hitems⟩ := ih (Nat.le_of_succ_le hn)
    dsimp only at hw hcap hr hwn hitems ⊢
    rw [List.range_succ, List.foldl_append, List.foldl_cons, List.foldl_nil]
    generalize (List.range n).foldl (fun l i => (l.push (p.block i)).1) l = u at *
    have hle : u.rp ≤ u.wp := by omega
    have hroom : u.wp < u.rp + u.cap.toNat := by
      rw [hcap]
      omega
    rw [List.map_append, List.map_singleton, ← hitems, SPSCFreeList.items_push hw hle hroom,
      SPSCFreeList.push_of_room hle hroom]
    exact ⟨hw, hcap, hr, congrArg (· + 1) hwn, rfl⟩

section Fits

variable {blockSize numBlocks backing : UInt64}

theorem create_eq (blockSize numBlocks backing : UInt64) :
    (create blockSize numBlocks backing).blockSize = alignUp (max blockSize kCacheLine) kCacheLine ∧
      (create blockSize numBlocks backing).numBlocks = nextPow2 (max numBlocks 2) ∧
      (create blockSize numBlocks backing).backing = backing :=
  ⟨rfl, rfl, rfl⟩

theorem le_toNat_max (a b : UInt64) : b.toNat ≤ (max a b).toNat := by
  show b.toNat ≤ (if a ≤ b then b else a).toNat
  split
  · exact le_rfl
  · rename_i h
    rw [UInt64.le_iff_toNat_le] at h
    omega

theorem blockSize_pos (h : Fits blockSize numBlocks backing) :
    0 < (create blockSize numBlocks backing).blockSize.toNat := by
  have hmax := le_toNat_max blockSize kCacheLine
  have h64 : kCacheLine.toNat = 64 := rfl
  rw [(create_eq blockSize numBlocks backing).1, toNat_alignUp h.align]
  omega

/-- Every block is a multiple of the block size above the base. -/
theorem toNat_block_of_le {p : MemoryPool} (hpos : 0 < p.blockSize.toNat)
    (hmapped : p.backing.toNat + p.blockSize.toNat * p.numBlocks.toNat ≤ 2 ^ 64) {i : Nat}
    (hi : i < p.numBlocks.toNat) :
    (p.block i).toNat = p.backing.toNat + i * p.blockSize.toNat := by
  have hle : (i + 1) * p.blockSize.toNat ≤ p.blockSize.toNat * p.numBlocks.toNat := by
    rw [Nat.mul_comm p.blockSize.toNat]
    exact Nat.mul_le_mul_right _ hi
  rw [Nat.succ_mul] at hle
  have hlt : p.backing.toNat + i * p.blockSize.toNat < 2 ^ 64 := by omega
  have hi64 : (u64 i).toNat = i := by
    rw [toNat_u64, Nat.mod_eq_of_lt]
    exact hi.trans p.numBlocks.toNat_lt
  rw [block, UInt64.toNat_add, UInt64.toNat_mul, hi64,
    Nat.mod_eq_of_lt ((Nat.le_add_left ..).trans_lt hlt), Nat.mod_eq_of_lt hlt]

theorem toNat_block (h : Fits blockSize numBlocks backing) {i : Nat}
    (hi : i < (create blockSize numBlocks backing).numBlocks.toNat) :
    ((create blockSize numBlocks backing).block i).toNat =
      backing.toNat + i * (create blockSize numBlocks backing).blockSize.toNat := by
  obtain ⟨hbs, hn, hbase⟩ := create_eq blockSize numBlocks backing
  have hmapped := h.mapped
  rw [← hbs, ← hn] at hmapped
  exact toNat_block_of_le (blockSize_pos h) hmapped hi

theorem nodup_blocks (h : Fits blockSize numBlocks backing) :
    (create blockSize numBlocks backing).blocks.Nodup := by
  refine List.Nodup.map_on ?_ List.nodup_range
  intro i hi j hj heq
  have hpos := blockSize_pos h
  have hij := congrArg UInt64.toNat heq
  rw [toNat_block h (List.mem_range.mp hi), toNat_block h (List.mem_range.mp hj)] at hij
  exact Nat.eq_of_mul_eq_mul_right hpos (Nat.add_left_cancel hij)

theorem ne_zero_of_mem_blocks (h : Fits blockSize numBlocks backing) {x : UInt64}
    (hx : x ∈ (create blockSize numBlocks backing).blocks) : x ≠ 0 := by
  obtain ⟨i, hi, rfl⟩ := List.mem_map.mp hx
  intro hzero
  have hblock := toNat_block h (List.mem_range.mp hi)
  rw [hzero] at hblock
  have hbase : backing.toNat ≠ 0 := by
    intro hb
    exact h.nonNull (UInt64.toNat_inj.mp hb)
  have h0 : (0 : UInt64).toNat = 0 := rfl
  omega

/-- **The constructor fills the free list with every block.** -/
theorem items_create_of_le (h : (max numBlocks 2).toNat ≤ 2 ^ 63) :
    let p := create blockSize numBlocks backing
    p.freelist.WellFormed ∧ p.freelist.cap = p.numBlocks ∧ p.freelist.rp ≤ p.freelist.wp ∧
      p.freelist.items = p.blocks := by
  obtain ⟨k, hk, hpow, -⟩ := nextPow2_spec h
  obtain ⟨hw, hcap, hr, -, hitems⟩ := populate_spec
    { blockSize := alignUp (max blockSize kCacheLine) kCacheLine
      numBlocks := nextPow2 (max numBlocks 2)
      freelist := .make (nextPow2 (max numBlocks 2))
      backing := backing
      backingSize := alignUp (max blockSize kCacheLine) kCacheLine * nextPow2 (max numBlocks 2) }
    (SPSCFreeList.wellFormed_make ⟨k, hk, hpow⟩) rfl rfl (le_refl (nextPow2 (max numBlocks 2)).toNat)
  exact ⟨hw, hcap, hr.le.trans (Nat.zero_le _), hitems⟩

theorem items_create (h : Fits blockSize numBlocks backing) :
    let p := create blockSize numBlocks backing
    p.freelist.WellFormed ∧ p.freelist.cap = p.numBlocks ∧ p.freelist.rp ≤ p.freelist.wp ∧
      p.freelist.items = p.blocks :=
  items_create_of_le h.pow

end Fits

end MemoryPool

end HftComponents.Pool
