import HftComponents.Pool.Mapping
import HftComponents.Pool.Threads

/-!
# One thread on one pool

`pop`, `alloc` and `free` with no other thread at work, as the caches and the
size classes call them.  `Lists` is what such calls keep of a pool whose free
list is `xs`: the blocks that are not listed are those that the counters say
are out.
-/

namespace HftComponents.Pool

open Lib.Ring SPSCFreeList

/-! ### Blocks of several owners -/

/-- The blocks of owner `i`, and those of the others. -/
theorem flatMap_perm_eraseIdx {α : Type} {blocks : α → List UInt64} {l : List α} {i : Nat} {a : α}
    (h : l[i]? = some a) : (l.flatMap blocks).Perm (blocks a ++ (l.eraseIdx i).flatMap blocks) := by
  obtain ⟨hlt, rfl⟩ := List.getElem?_eq_some_iff.mp h
  exact (List.getElem_cons_eraseIdx_perm hlt).symm.flatMap_right blocks

theorem flatMap_set_perm {α : Type} {blocks : α → List UInt64} {l : List α} {i : Nat} {a : α}
    (h : l[i]? = some a) (b : α) :
    ((l.set i b).flatMap blocks).Perm (blocks b ++ (l.eraseIdx i).flatMap blocks) := by
  obtain ⟨hlt, -⟩ := List.getElem?_eq_some_iff.mp h
  exact (List.set_perm_cons_eraseIdx hlt b).flatMap_right blocks

/-! ### The calls -/

def SPSCFreeList.pop (l : SPSCFreeList) : SPSCFreeList × UInt64 :=
  if empty l.rp l.wp then (l, 0)
  else ({ l with rp := l.rp + 1 }, l.slots (l.cell l.rp))

def PoolStats.outstanding (s : PoolStats) : UInt64 := u64 s.allocs - u64 s.frees

namespace MemoryPool

def alloc (m : MemoryPool) : MemoryPool × UInt64 :=
  let (l, p) := m.freelist.pop
  let m := { m with freelist := l }
  (if p ≠ 0 then m.countAlloc else m.countFailure, p)

/-- With the result of the `push`, which is only asserted. -/
def free (m : MemoryPool) (p : UInt64) : MemoryPool × Bool :=
  let (l, ok) := m.freelist.push p
  let m := { m with freelist := l }
  (m.countFree, ok)

def available (m : MemoryPool) : UInt64 := u64 m.freelist.wp - u64 m.freelist.rp

/-- `m` is a pool of `n` blocks with `xs` on its free list. -/
structure Lists (m : MemoryPool) (n : Nat) (xs : List UInt64) : Prop where
  wellFormed : m.freelist.WellFormed
  size : m.freelist.cap.toNat = n
  count : m.numBlocks.toNat = n
  order : m.freelist.rp ≤ m.freelist.wp
  items : m.freelist.items = xs
  length_le : xs.length ≤ n
  counted : m.stats.allocs + xs.length = m.stats.frees + n

variable {m : MemoryPool} {n : Nat} {xs : List UInt64} {x : UInt64}

theorem Lists.length_eq (h : m.Lists n xs) : xs.length = m.freelist.wp - m.freelist.rp := by
  rw [← h.items, length_items]

theorem Lists.lt (h : m.Lists n xs) : n < 2 ^ 64 := h.size ▸ m.freelist.cap.toNat_lt

theorem Lists.alloc_nil (h : m.Lists n []) : m.alloc = (m.countFailure, 0) := by
  have hlen := h.length_eq
  have horder := h.order
  have heq : m.freelist.rp = m.freelist.wp := by
    rw [List.length_nil] at hlen
    omega
  have hpop : m.freelist.pop = (m.freelist, 0) := by
    rw [pop, if_pos]
    rw [SPSCFreeList.empty, heq, decide_eq_true_iff]
  rw [alloc, hpop]
  rfl

theorem Lists.countFailure (h : m.Lists n xs) : m.countFailure.Lists n xs :=
  { h with }

theorem Lists.pop_cons (h : m.Lists n (x :: xs)) :
    m.freelist.rp < m.freelist.wp ∧
      m.freelist.pop = ((m.setRp (m.freelist.rp + 1)).freelist, x) ∧
      (m.setRp (m.freelist.rp + 1)).freelist.items = xs := by
  have hlen := h.length_eq
  have hle := h.length_le
  have hn := h.lt
  rw [List.length_cons] at hlen hle
  have hlt : m.freelist.rp < m.freelist.wp := by omega
  have hitems := items_storeRp hlt
  rw [h.items] at hitems
  obtain ⟨hhead, htail⟩ := List.cons.inj hitems
  refine ⟨hlt, ?_, htail.symm⟩
  rw [pop, if_neg, h.wellFormed.cell_eq, ← hhead]
  · rfl
  · rw [SPSCFreeList.empty, decide_eq_true_iff, eq_comm, u64_inj_of_lt hlt.le (by omega)]
    omega

/-- A null pointer that is popped counts as a failure, and is not on the list
any more. -/
theorem Lists.alloc_null (h : m.Lists n (0 :: xs)) :
    ∃ m', m.alloc = (m', 0) ∧ m'.freelist.items = xs := by
  obtain ⟨-, hpop, htail⟩ := h.pop_cons
  refine ⟨(m.setRp (m.freelist.rp + 1)).countFailure, ?_, htail⟩
  rw [alloc, hpop]
  rfl

theorem Lists.alloc_cons (h : m.Lists n (x :: xs)) (hx : x ≠ 0) :
    ∃ m', m.alloc = (m', x) ∧ m'.Lists n xs := by
  have hle := h.length_le
  have hcounted := h.counted
  rw [List.length_cons] at hle hcounted
  obtain ⟨hlt, hpop, htail⟩ := h.pop_cons
  have halloc : m.alloc = ((m.setRp (m.freelist.rp + 1)).countAlloc, x) := by
    rw [alloc, hpop]
    exact congrArg (fun a => (a, x)) (if_pos hx)
  refine ⟨_, halloc, ?_⟩
  exact {
    wellFormed := h.wellFormed
    size := h.size
    count := h.count
    order := hlt
    items := htail
    length_le := by omega
    counted := by
      show m.stats.allocs + 1 + xs.length = m.stats.frees + n
      omega }

theorem Lists.free (h : m.Lists n xs) (hroom : xs.length < n) (p : UInt64) :
    ∃ m', m.free p = (m', true) ∧ m'.Lists n (xs ++ [p]) := by
  have hlen := h.length_eq
  have hsize := h.size
  have horder := h.order
  have hcounted := h.counted
  have hspace : m.freelist.wp < m.freelist.rp + m.freelist.cap.toNat := by omega
  have hpush := push_of_room h.order hspace p
  have hitems := items_push h.wellFormed h.order hspace p
  rw [hpush, h.items] at hitems
  refine ⟨_, by rw [MemoryPool.free, hpush], ?_⟩
  exact {
    wellFormed := h.wellFormed
    size := h.size
    count := h.count
    order := h.order.trans (Nat.le_succ _)
    items := hitems
    length_le := by
      rw [List.length_append]
      exact hroom
    counted := by
      show m.stats.allocs + (xs ++ [p]).length = m.stats.frees + 1 + n
      rw [List.length_append, List.length_singleton]
      omega }

theorem Lists.all (h : m.Lists n xs) (hall : xs.length = n) :
    m.available = m.numBlocks ∧ m.stats.outstanding = 0 := by
  have hlen := h.length_eq
  have hcounted := h.counted
  have hn := h.lt
  refine ⟨?_, ?_⟩
  · rw [← UInt64.toNat_inj, available, toNat_u64_sub_of_lt h.order (by omega), h.count]
    omega
  · have heq : m.stats.allocs = m.stats.frees := by omega
    rw [PoolStats.outstanding, heq, UInt64.sub_self]

theorem lists_of_construct {mmap : UInt64 → Option UInt64} {blockSize numBlocks : UInt64}
    (hm : Mmap mmap) (h : construct mmap blockSize numBlocks = some m) :
    m.Lists m.numBlocks.toNat m.blocks := by
  have hb := construct_spec hm h
  obtain ⟨hw, hcap, horder, hitems⟩ := hb.items
  have hlength := length_blocks m
  have hstats : m.stats = {} := by
    rw [hb.create]
    rfl
  exact {
    wellFormed := hw
    size := by rw [hcap]
    count := rfl
    order := horder
    items := hitems
    length_le := hlength.le
    counted := by rw [hstats, hlength] }

end MemoryPool

end HftComponents.Pool
