import HftComponents.Lib.Machine
import HftComponents.Pool.Single

/-!
# Caches in front of a pool

`ThreadLocalCache` keeps a stack of blocks.  An `alloc` that finds it empty
refills it with a batch from the pool, and stops half-way if the pool runs out;
a `free` that finds it full flushes a batch first.

The caches here share one pool and are all called by one thread, which also
calls the pool itself.  An access to the stack is checked: `none` is one out of
range.  `caches_conserve` says that there is none, and that every block stays
in one place, if no block is the null pointer.  One is in a pool whose sizes
wrap, and the first `alloc` that pops it loses it (`null_block`).
-/

namespace HftComponents.Pool.Cache

open MemoryPool

/-- The template parameters, with what the `static_assert` tests. -/
structure Params where
  localCapacity : Nat
  batchSize : Nat
  two_le : 2 ≤ localCapacity
  batch_pos : 1 ≤ batchSize
  batch_le : batchSize ≤ localCapacity / 2

structure ThreadLocalCache where
  params : Params
  stack : Nat → UInt64 := fun _ => 0
  top : Nat := 0

namespace ThreadLocalCache

/-- `stack_[top_++] = p`. -/
def pushTop (c : ThreadLocalCache) (p : UInt64) : Option ThreadLocalCache :=
  if c.top < c.params.localCapacity then
    some { c with stack := Function.update c.stack c.top p, top := c.top + 1 }
  else none

/-- `stack_[--top_]`. -/
def popTop (c : ThreadLocalCache) : Option (ThreadLocalCache × UInt64) :=
  match c.top with
  | 0 => none
  | t + 1 => if t < c.params.localCapacity then some ({ c with top := t }, c.stack t) else none

/-- The loop of `alloc`, with `n` turns to go. -/
def refill : Nat → ThreadLocalCache → MemoryPool → Option (ThreadLocalCache × MemoryPool)
  | 0, c, m => some (c, m)
  | n + 1, c, m =>
    let (m, p) := m.alloc
    if p = 0 then some (c, m)
    else
      match c.pushTop p with
      | none => none
      | some c => refill n c m

def alloc (c : ThreadLocalCache) (m : MemoryPool) :
    Option (ThreadLocalCache × MemoryPool × UInt64) :=
  if 0 < c.top then c.popTop.map fun q => (q.1, m, q.2)
  else
    match refill c.params.batchSize c m with
    | none => none
    | some (c, m) =>
      if 0 < c.top then c.popTop.map fun q => (q.1, m, q.2)
      else some (c, m, 0)

/-- `n` turns of `pool_.free(stack_[--top_])`, with the blocks for which the
free list had no room. -/
def flush : Nat → ThreadLocalCache → MemoryPool →
    Option (ThreadLocalCache × MemoryPool × List UInt64)
  | 0, c, m => some (c, m, [])
  | n + 1, c, m =>
    match c.popTop with
    | none => none
    | some (c, p) =>
      let (m, ok) := m.free p
      match flush n c m with
      | none => none
      | some (c, m, lost) => some (c, m, if ok then lost else p :: lost)

def free (c : ThreadLocalCache) (m : MemoryPool) (p : UInt64) :
    Option (ThreadLocalCache × MemoryPool × List UInt64) :=
  if c.top < c.params.localCapacity then (c.pushTop p).map fun c => (c, m, [])
  else
    match flush c.params.batchSize c m with
    | none => none
    | some (c, m, lost) => (c.pushTop p).map fun c => (c, m, lost)

/-- Each turn takes one block, so there are `top_` of them. -/
def flushAll (c : ThreadLocalCache) (m : MemoryPool) :
    Option (ThreadLocalCache × MemoryPool × List UInt64) := flush c.top c m

/-- The blocks of the cache, the top one last. -/
def items (c : ThreadLocalCache) : List UInt64 := (List.range c.top).map c.stack

/-! ### The stack -/

/-- The stack holds `ys`, and is not too high. -/
structure Stacks (c : ThreadLocalCache) (P : Params) (ys : List UInt64) : Prop where
  params : c.params = P
  items : c.items = ys
  length_le : ys.length ≤ P.localCapacity

variable {c : ThreadLocalCache} {P : Params} {ys zs xs : List UInt64} {m : MemoryPool} {n : Nat}

theorem length_items (c : ThreadLocalCache) : c.items.length = c.top := by
  rw [items, List.length_map, List.length_range]

theorem Stacks.top (h : c.Stacks P ys) : c.top = ys.length := by
  rw [← h.items, length_items]

theorem Stacks.push (h : c.Stacks P ys) (hroom : ys.length < P.localCapacity) (p : UInt64) :
    ∃ c', c.pushTop p = some c' ∧ c'.Stacks P (ys ++ [p]) := by
  refine ⟨_, if_pos (by rw [h.top, h.params]; exact hroom), h.params, ?_, ?_⟩
  · show (List.range (c.top + 1)).map (Function.update c.stack c.top p) = ys ++ [p]
    rw [List.range_succ, List.map_append, List.map_singleton, Function.update_self, ← h.items]
    refine congrArg (fun l => l ++ [p]) (List.map_congr_left ?_)
    intro i hi
    exact Function.update_of_ne (List.mem_range.mp hi).ne _ _
  · rw [List.length_append]
    exact hroom

theorem Stacks.pop {p : UInt64} (h : c.Stacks P (ys ++ [p])) :
    ∃ c', c.popTop = some (c', p) ∧ c'.Stacks P ys := by
  have htop := h.top
  have hle := h.length_le
  have hitems := h.items
  rw [List.length_append, List.length_singleton] at htop hle
  rw [ThreadLocalCache.items, htop, List.range_succ, List.map_append, List.map_singleton] at hitems
  obtain ⟨hrest, hlast⟩ := List.append_inj' hitems rfl
  refine ⟨{ c with top := ys.length }, ?_, h.params, hrest, by omega⟩
  rw [popTop, htop]
  dsimp only
  rw [h.params, if_pos (by omega), List.singleton_inj.mp hlast]

/-! ### The batches -/

/-- A refill takes what there is, up to `k` blocks. -/
theorem refill_spec {k : Nat} (hc : c.Stacks P ys) (hm : m.Lists n xs) (h0 : ∀ x ∈ xs, x ≠ 0)
    (hroom : ys.length + k ≤ P.localCapacity) :
    ∃ c' m', refill k c m = some (c', m') ∧ c'.Stacks P (ys ++ xs.take k) ∧
      m'.Lists n (xs.drop k) := by
  induction k generalizing c m ys xs with
  | zero =>
    rw [List.take_zero, List.append_nil, List.drop_zero]
    exact ⟨c, m, rfl, hc, hm⟩
  | succ k ih =>
    cases xs with
    | nil =>
      refine ⟨c, m.countFailure, ?_, by simpa using hc, by simpa using hm.countFailure⟩
      rw [refill, hm.alloc_nil]
      rfl
    | cons x xs =>
      have hx : x ≠ 0 := h0 x List.mem_cons_self
      obtain ⟨m', halloc, hm'⟩ := hm.alloc_cons hx
      obtain ⟨c', hpush, hc'⟩ := hc.push (by omega) x
      have hxs : ∀ y ∈ xs, y ≠ 0 := fun y hy => h0 y (List.mem_cons_of_mem _ hy)
      obtain ⟨c'', m'', hrefill, hc'', hm''⟩ := ih hc' hm' hxs (by simp; omega)
      refine ⟨c'', m'', ?_, ?_, hm''⟩
      · rw [refill, halloc]
        dsimp only
        rw [if_neg hx, hpush]
        exact hrefill
      · rw [List.append_assoc, List.singleton_append] at hc''
        exact hc''

/-- A flush moves the upper blocks to the end of the free list. -/
theorem flush_spec (hc : c.Stacks P (ys ++ zs)) (hm : m.Lists n xs)
    (hroom : xs.length + zs.length ≤ n) :
    ∃ c' m', flush zs.length c m = some (c', m', []) ∧ c'.Stacks P ys ∧
      m'.Lists n (xs ++ zs.reverse) := by
  induction zs using List.reverseRecOn generalizing c m xs with
  | nil =>
    rw [List.append_nil] at hc
    rw [List.reverse_nil, List.append_nil]
    exact ⟨c, m, rfl, hc, hm⟩
  | append_singleton zs p ih =>
    rw [List.length_append, List.length_singleton] at hroom ⊢
    rw [← List.append_assoc] at hc
    obtain ⟨c', hpop, hc'⟩ := hc.pop
    obtain ⟨m', hfree, hm'⟩ := hm.free (by omega) p
    obtain ⟨c'', m'', hflush, hc'', hm''⟩ := ih hc' hm' (by simp; omega)
    refine ⟨c'', m'', ?_, hc'', ?_⟩
    · rw [flush, hpop]
      dsimp only
      rw [hfree]
      dsimp only
      rw [hflush]
      rfl
    · rw [List.reverse_append, List.reverse_singleton, ← List.append_assoc]
      exact hm''

/-! ### The operations -/

theorem alloc_of_concat {p : UInt64} (hc : c.Stacks P (ys ++ [p])) :
    ∃ c', c.popTop.map (fun q => (q.1, m, q.2)) = some (c', m, p) ∧ 0 < c.top ∧
      c'.Stacks P ys := by
  obtain ⟨c', hpop, hc'⟩ := hc.pop
  refine ⟨c', by rw [hpop]; rfl, ?_, hc'⟩
  rw [hc.top, List.length_append]
  exact Nat.succ_pos _

/-- **A cache fails only on an empty stack and an empty list.** -/
theorem alloc_spec (hc : c.Stacks P ys) (hm : m.Lists n xs) (h0 : ∀ x ∈ ys ++ xs, x ≠ 0) :
    ∃ c' m' p ys' xs', c.alloc m = some (c', m', p) ∧ c'.Stacks P ys' ∧ m'.Lists n xs' ∧
      (p = 0 ∧ ys = [] ∧ xs = [] ∧ ys' ++ xs' = [] ∨
        p ≠ 0 ∧ (p :: (ys' ++ xs')).Perm (ys ++ xs)) := by
  induction ys using List.reverseRecOn with
  | append_singleton ys p =>
    obtain ⟨c', hpop, htop, hc'⟩ := alloc_of_concat (m := m) hc
    refine ⟨c', m, p, ys, xs, ?_, hc', hm, Or.inr ⟨h0 p (by simp), ?_⟩⟩
    · rw [alloc, if_pos htop]
      exact hpop
    · rw [List.append_assoc, List.singleton_append]
      exact List.perm_middle.symm
  | nil =>
    have hroom : ([] : List UInt64).length + P.batchSize ≤ P.localCapacity := by
      have := P.batch_le
      rw [List.length_nil]
      omega
    obtain ⟨c', m', hrefill, hc', hm'⟩ := refill_spec hc hm h0 hroom
    have hzero : ¬0 < c.top := by
      rw [hc.top]
      exact Nat.lt_irrefl 0
    rw [List.nil_append] at hc'
    rw [alloc, if_neg hzero, hc.params, hrefill]
    dsimp only
    rcases List.eq_nil_or_concat' (xs.take P.batchSize) with hnil | ⟨zs, p, hzs⟩
    · have hxs : xs = [] := by
        rcases List.take_eq_nil_iff.mp hnil with hk | hxs
        · exact absurd hk (Nat.one_le_iff_ne_zero.mp P.batch_pos)
        · exact hxs
      subst hxs
      rw [List.take_nil] at hc'
      rw [if_neg (by rw [hc'.top]; exact Nat.lt_irrefl 0)]
      exact ⟨c', m', 0, _, _, rfl, hc', hm', Or.inl ⟨rfl, rfl, rfl, List.drop_nil⟩⟩
    · rw [hzs] at hc'
      obtain ⟨c'', hpop, htop, hc''⟩ := alloc_of_concat (m := m') hc'
      rw [if_pos htop]
      have hp : p ∈ xs := List.mem_of_mem_take (hzs ▸ List.mem_append_right _ List.mem_cons_self)
      refine ⟨c'', m', p, _, _, hpop, hc'', hm', Or.inr ⟨h0 p hp, ?_⟩⟩
      have hall : zs ++ p :: xs.drop P.batchSize = xs := by
        rw [List.append_cons, ← hzs, List.take_append_drop]
      rw [List.nil_append]
      exact List.perm_middle.symm.trans (List.Perm.of_eq hall)

/-- An empty cache fails when its first call of the pool does. -/
theorem alloc_of_failure {m' : MemoryPool} (htop : c.top = 0) (h : m.alloc = (m', 0)) :
    c.alloc m = some (c, m', 0) := by
  have hzero : ¬0 < c.top := by
    rw [htop]
    exact Nat.lt_irrefl 0
  obtain ⟨k, hk⟩ := Nat.exists_eq_add_of_le' c.params.batch_pos
  have hrefill : refill c.params.batchSize c m = some (c, m') := by
    rw [hk, refill, h]
    rfl
  rw [alloc, if_neg hzero, hrefill]
  dsimp only
  rw [if_neg hzero]

theorem free_spec (hc : c.Stacks P ys) (hm : m.Lists n xs) (hroom : ys.length + xs.length < n)
    (p : UInt64) :
    ∃ c' m' ys' xs', c.free m p = some (c', m', []) ∧ c'.Stacks P ys' ∧ m'.Lists n xs' ∧
      (ys' ++ xs').Perm (p :: (ys ++ xs)) := by
  by_cases hlt : ys.length < P.localCapacity
  · obtain ⟨c', hpush, hc'⟩ := hc.push hlt p
    refine ⟨c', m, ys ++ [p], xs, ?_, hc', hm, ?_⟩
    · rw [free, if_pos (by rw [hc.top, hc.params]; exact hlt), hpush]
      rfl
    · rw [List.append_assoc, List.singleton_append]
      exact List.perm_middle
  · -- A batch is at most half of a full stack.
    have hle := hc.length_le
    have hbatch := P.batch_le
    obtain ⟨us, zs, rfl, hzs⟩ : ∃ us zs, ys = us ++ zs ∧ zs.length = P.batchSize := by
      refine ⟨ys.take (ys.length - P.batchSize), ys.drop (ys.length - P.batchSize),
        (List.take_append_drop ..).symm, ?_⟩
      rw [List.length_drop]
      omega
    rw [List.length_append] at hle hroom hlt
    obtain ⟨c', m', hflush, hc', hm'⟩ := flush_spec hc hm (by omega)
    have hpos := P.batch_pos
    obtain ⟨c'', hpush, hc''⟩ := hc'.push (by omega) p
    refine ⟨c'', m', us ++ [p], xs ++ zs.reverse, ?_, hc'', hm', ?_⟩
    · rw [free, if_neg (by rw [hc.top, hc.params, List.length_append]; exact hlt), hc.params,
        ← hzs, hflush]
      dsimp only
      rw [hpush]
      rfl
    · rw [List.append_assoc, List.singleton_append, List.append_assoc]
      refine List.perm_middle.trans (List.Perm.cons p (List.Perm.append_left us ?_))
      exact List.perm_append_comm.trans (List.Perm.append_right xs zs.reverse_perm)

theorem flushAll_spec (hc : c.Stacks P ys) (hm : m.Lists n xs)
    (hroom : xs.length + ys.length ≤ n) :
    ∃ c' m', c.flushAll m = some (c', m', []) ∧ c'.Stacks P [] ∧ m'.Lists n (xs ++ ys.reverse) := by
  have hall : c.Stacks P ([] ++ ys) := hc
  rw [flushAll, hc.top]
  exact flush_spec hall hm hroom

end ThreadLocalCache

/-! ### Several caches, one pool and a caller -/

/-- `held` is not the program's: it lists the blocks of the caller. -/
structure State where
  pool : MemoryPool
  caches : List ThreadLocalCache
  held : List UInt64 := []

inductive Label
  | alloc (i : Nat)
  | free (i : Nat) (p : UInt64)
  | flushAll (i : Nat)
  | poolAlloc
  | poolFree (p : UInt64)

/-- `lost` is a block for which the free list had no room, and `outOfRange` an
access beside the stack. -/
inductive Event
  | allocated (p : UInt64)
  | freed
  | lost (p : UInt64)
  | outOfRange
  deriving DecidableEq, Repr

def State.receive (s : State) (p : UInt64) : State :=
  if p = 0 then s else { s with held := p :: s.held }

/-- The call `op` of cache `i`. -/
def onCache {α : Type} (s : State) (i : Nat)
    (op : ThreadLocalCache → MemoryPool → Option (ThreadLocalCache × MemoryPool × α))
    (after : State → α → State × List Event) : Option (State × List Event) :=
  match s.caches[i]? with
  | none => none
  | some c =>
    match op c s.pool with
    | none => some (s, [.outOfRange])
    | some (c, m, a) => some (after { s with pool := m, caches := s.caches.set i c } a)

def step (s : State) : Label → Option (State × List Event)
  | .alloc i => onCache s i ThreadLocalCache.alloc fun s p => (s.receive p, [.allocated p])
  | .free i p =>
    onCache s i (fun c m => c.free m p) fun s lost =>
      ({ s with held := s.held.erase p }, .freed :: lost.map .lost)
  | .flushAll i => onCache s i ThreadLocalCache.flushAll fun s lost => (s, lost.map .lost)
  | .poolAlloc =>
    let (m, p) := s.pool.alloc
    some ({ s with pool := m }.receive p, [.allocated p])
  | .poolFree p =>
    let (m, ok) := s.pool.free p
    some ({ s with pool := m, held := s.held.erase p }, if ok then [.freed] else [.freed, .lost p])

def machine : Lib.Machine State Label Event := ⟨step⟩

/-- The caches are empty, and may differ in their parameters. -/
def init (pool : MemoryPool) (params : List Params) : State :=
  { pool := pool, caches := params.map fun P => { params := P } }

/-- The caller frees only what it holds. -/
def FreesHeld (s : State) : Label → Prop
  | .free _ p => p ∈ s.held
  | .poolFree p => p ∈ s.held
  | _ => True

instance decidableFreesHeld (s : State) : (l : Label) → Decidable (FreesHeld s l)
  | .free _ p => inferInstanceAs (Decidable (p ∈ s.held))
  | .poolFree p => inferInstanceAs (Decidable (p ∈ s.held))
  | .alloc _ => isTrue trivial
  | .flushAll _ => isTrue trivial
  | .poolAlloc => isTrue trivial

/-- The places a block can be in. -/
def places (s : State) : List UInt64 :=
  s.pool.freelist.items ++ s.caches.flatMap ThreadLocalCache.items ++ s.held

/-! ### What every call keeps -/

/-- `bs` are the blocks of the pool. -/
structure Kept (bs : List UInt64) (s : State) : Prop where
  nonNull : ∀ x ∈ bs, x ≠ 0
  pool : s.pool.Lists bs.length s.pool.freelist.items
  caches : ∀ c ∈ s.caches, c.Stacks c.params c.items
  places : (places s).Perm bs

section Step

variable {bs ys xs held : List UInt64} {s u : State} {i : Nat} {c c' : ThreadLocalCache}
  {m : MemoryPool} {p : UInt64} {l : Label} {o : List Event}

/-- The blocks in the caches other than `i`. -/
def others (s : State) (i : Nat) : List UInt64 :=
  (s.caches.eraseIdx i).flatMap ThreadLocalCache.items

theorem places_perm (hi : s.caches[i]? = some c) :
    (places s).Perm (c.items ++ s.pool.freelist.items ++ s.held ++ others s i) := by
  have hsplit : (s.caches.flatMap ThreadLocalCache.items).Perm (c.items ++ others s i) :=
    flatMap_perm_eraseIdx hi
  refine ((hsplit.append_left _).append_right _).trans ?_
  rw [← List.append_assoc, List.append_assoc _ (others s i), List.append_assoc _ s.held]
  exact (List.perm_append_comm.append_right _).trans (List.perm_append_comm.append_left _)

/-- A call of cache `i` moves blocks between it, the free list and the caller. -/
theorem Kept.update (h : Kept bs s) (hi : s.caches[i]? = some c)
    (hc : c'.Stacks c.params ys) (hm : m.Lists bs.length xs)
    (hperm : (ys ++ xs ++ held).Perm (c.items ++ s.pool.freelist.items ++ s.held)) :
    Kept bs { pool := m, caches := s.caches.set i c', held := held } := by
  obtain ⟨hlt, -⟩ := List.getElem?_eq_some_iff.mp hi
  refine ⟨h.nonNull, ?_, ?_, ?_⟩
  · rw [hm.items]
    exact hm
  · intro d hd
    rcases List.mem_or_eq_of_mem_set hd with hd | rfl
    · exact h.caches d hd
    · rw [hc.items, hc.params]
      exact hc
  · have hset : (s.caches.set i c')[i]? = some c' := List.getElem?_set_self hlt
    have hothers : (s.caches.set i c').eraseIdx i = s.caches.eraseIdx i :=
      List.eraseIdx_set_eq
    have hnew := places_perm (s := { pool := m, caches := s.caches.set i c', held := held }) hset
    rw [others, hothers, hc.items, hm.items] at hnew
    exact hnew.trans ((hperm.append_right _).trans ((places_perm hi).symm.trans h.places))

/-- The blocks of the caller are not among those of a cache or the list. -/
theorem Kept.room (h : Kept bs s) (hi : s.caches[i]? = some c) :
    c.items.length + s.pool.freelist.items.length + s.held.length ≤ bs.length := by
  have hlen := ((places_perm hi).symm.trans h.places).length_eq
  rw [List.length_append, List.length_append, List.length_append] at hlen
  omega

theorem Kept.stack (h : Kept bs s) (hi : s.caches[i]? = some c) : c.Stacks c.params c.items :=
  h.caches c (List.mem_of_getElem? hi)

theorem Kept.alloc (h : Kept bs s) (hi : s.caches[i]? = some c) :
    ∃ u p, step s (.alloc i) = some (u, [.allocated p]) ∧ Kept bs u ∧
      (p = 0 → c.top = 0 ∧ s.pool.freelist.items = []) := by
  have h0 : ∀ x ∈ c.items ++ s.pool.freelist.items, x ≠ 0 := by
    intro x hx
    refine h.nonNull x (((places_perm hi).symm.trans h.places).subset ?_)
    exact List.mem_append_left _ (List.mem_append_left _ hx)
  obtain ⟨c', m, p, ys, xs, halloc, hc, hm, hp⟩ :=
    ThreadLocalCache.alloc_spec (h.stack hi) h.pool h0
  have hstep : step s (.alloc i) =
      some (({ s with pool := m, caches := s.caches.set i c' } : State).receive p,
        [.allocated p]) := by
    rw [step, onCache, hi]
    dsimp only
    rw [halloc]
  refine ⟨_, p, hstep, ?_, ?_⟩
  · rcases hp with ⟨rfl, hys, hxs, hnil⟩ | ⟨hne, hperm⟩
    · refine h.update hi hc hm ?_
      rw [hys, hxs, hnil]
      exact List.Perm.refl _
    · rw [State.receive, if_neg hne]
      refine h.update hi hc hm ?_
      exact List.perm_middle.trans (hperm.append_right s.held)
  · intro hzero
    rcases hp with ⟨-, hys, hxs, -⟩ | ⟨hne, -⟩
    · refine ⟨?_, hxs⟩
      rw [← ThreadLocalCache.length_items, hys]
      rfl
    · exact absurd hzero hne

theorem Kept.free (h : Kept bs s) (hi : s.caches[i]? = some c) (hheld : p ∈ s.held) :
    ∃ u, step s (.free i p) = some (u, [.freed]) ∧ Kept bs u := by
  have hroom := h.room hi
  have hpos := List.length_pos_of_mem hheld
  obtain ⟨c', m, ys, xs, hfree, hc, hm, hperm⟩ :=
    ThreadLocalCache.free_spec (h.stack hi) h.pool (by omega) p
  have hstep : step s (.free i p) =
      some ({ pool := m, caches := s.caches.set i c', held := s.held.erase p }, [.freed]) := by
    rw [step, onCache, hi]
    dsimp only
    rw [hfree]
    rfl
  refine ⟨_, hstep, h.update hi hc hm ?_⟩
  refine (hperm.append_right _).trans ?_
  exact List.perm_middle.symm.trans ((List.perm_cons_erase hheld).symm.append_left _)

theorem Kept.flushAll (h : Kept bs s) (hi : s.caches[i]? = some c) :
    ∃ u, step s (.flushAll i) = some (u, []) ∧ Kept bs u ∧
      ∀ d, u.caches[i]? = some d → d.top = 0 := by
  have hroom := h.room hi
  obtain ⟨hlt, -⟩ := List.getElem?_eq_some_iff.mp hi
  obtain ⟨c', m, hflush, hc, hm⟩ :=
    ThreadLocalCache.flushAll_spec (h.stack hi) h.pool (by omega)
  have hstep : step s (.flushAll i) =
      some ({ s with pool := m, caches := s.caches.set i c' }, []) := by
    rw [step, onCache, hi]
    dsimp only
    rw [hflush]
    rfl
  refine ⟨_, hstep, h.update hi hc hm ?_, ?_⟩
  · rw [List.nil_append]
    refine List.Perm.append_right _ ?_
    exact List.perm_append_comm.trans (List.Perm.append_right _ (List.reverse_perm _))
  · intro d hd
    obtain rfl := Option.some.inj ((List.getElem?_set_self hlt).symm.trans hd)
    exact hc.top

/-- A call of the pool itself moves blocks between the free list and the caller. -/
theorem Kept.updatePool (h : Kept bs s) (hm : m.Lists bs.length xs)
    (hperm : (xs ++ held).Perm (s.pool.freelist.items ++ s.held)) :
    Kept bs { s with pool := m, held := held } := by
  refine ⟨h.nonNull, ?_, h.caches, ?_⟩
  · rw [hm.items]
    exact hm
  · have hcaches := List.Perm.append_right (s.caches.flatMap ThreadLocalCache.items) hperm
    rw [List.append_assoc, List.append_assoc] at hcaches
    refine List.Perm.trans ?_ h.places
    rw [Cache.places, Cache.places, hm.items, List.append_assoc, List.append_assoc]
    refine (List.perm_append_comm.append_left xs).trans (hcaches.trans ?_)
    exact List.perm_append_comm.append_left _

theorem Kept.poolAlloc (h : Kept bs s) :
    ∃ u p, step s .poolAlloc = some (u, [.allocated p]) ∧ Kept bs u := by
  have hpool := h.pool
  cases hitems : s.pool.freelist.items with
  | nil =>
    rw [hitems] at hpool
    have hkept : Kept bs { s with pool := s.pool.countFailure, held := s.held } := by
      refine h.updatePool hpool.countFailure ?_
      rw [hitems]
    exact ⟨_, 0, by rw [step, hpool.alloc_nil]; rfl, hkept⟩
  | cons x xs =>
    rw [hitems] at hpool
    have hx : x ∈ bs := by
      refine h.places.subset ?_
      rw [Cache.places, hitems]
      exact List.mem_append_left _ (List.mem_append_left _ List.mem_cons_self)
    obtain ⟨m, halloc, hm⟩ := hpool.alloc_cons (h.nonNull x hx)
    have hstep : step s .poolAlloc =
        some ({ s with pool := m, held := x :: s.held }, [.allocated x]) := by
      rw [step, halloc]
      dsimp only
      rw [State.receive, if_neg (h.nonNull x hx)]
    refine ⟨_, x, hstep, h.updatePool hm ?_⟩
    rw [hitems]
    exact List.perm_middle

theorem Kept.poolFree (h : Kept bs s) (hheld : p ∈ s.held) :
    ∃ u, step s (.poolFree p) = some (u, [.freed]) ∧ Kept bs u := by
  have hlen := h.places.length_eq
  rw [Cache.places, List.length_append, List.length_append] at hlen
  have hpos := List.length_pos_of_mem hheld
  obtain ⟨m, hfree, hm⟩ := h.pool.free (by omega) p
  have hstep : step s (.poolFree p) =
      some ({ s with pool := m, held := s.held.erase p }, [.freed]) := by
    rw [step, hfree]
    rfl
  refine ⟨_, hstep, h.updatePool hm ?_⟩
  rw [List.append_assoc, List.singleton_append]
  exact (List.perm_cons_erase hheld).symm.append_left _

/-- What a step shows. -/
def Event.Clean : Event → Prop
  | .allocated _ | .freed => True
  | .lost _ | .outOfRange => False

theorem cache_of_onCache {α : Type} {q : State × List Event}
    {op : ThreadLocalCache → MemoryPool → Option (ThreadLocalCache × MemoryPool × α)}
    {after : State → α → State × List Event} (h : onCache s i op after = some q) :
    ∃ c, s.caches[i]? = some c := by
  cases hi : s.caches[i]? with
  | none =>
    rw [onCache, hi] at h
    cases h
  | some c => exact ⟨c, rfl⟩

theorem Kept.step (h : Kept bs s) (hok : FreesHeld s l) (hstep : step s l = some (u, o)) :
    Kept bs u ∧ ∀ e ∈ o, e.Clean := by
  cases l with
  | alloc i =>
    have hcall := hstep
    rw [Cache.step] at hcall
    obtain ⟨c, hi⟩ := cache_of_onCache hcall
    obtain ⟨v, p, hv, hkept, -⟩ := h.alloc hi
    obtain ⟨rfl, rfl⟩ := Prod.mk.inj (Option.some.inj (hv.symm.trans hstep))
    exact ⟨hkept, by simp [Event.Clean]⟩
  | free i p =>
    have hcall := hstep
    rw [Cache.step] at hcall
    obtain ⟨c, hi⟩ := cache_of_onCache hcall
    obtain ⟨v, hv, hkept⟩ := h.free hi hok
    obtain ⟨rfl, rfl⟩ := Prod.mk.inj (Option.some.inj (hv.symm.trans hstep))
    exact ⟨hkept, by simp [Event.Clean]⟩
  | flushAll i =>
    have hcall := hstep
    rw [Cache.step] at hcall
    obtain ⟨c, hi⟩ := cache_of_onCache hcall
    obtain ⟨v, hv, hkept, -⟩ := h.flushAll hi
    obtain ⟨rfl, rfl⟩ := Prod.mk.inj (Option.some.inj (hv.symm.trans hstep))
    exact ⟨hkept, by simp⟩
  | poolAlloc =>
    obtain ⟨v, p, hv, hkept⟩ := h.poolAlloc
    obtain ⟨rfl, rfl⟩ := Prod.mk.inj (Option.some.inj (hv.symm.trans hstep))
    exact ⟨hkept, by simp [Event.Clean]⟩
  | poolFree p =>
    obtain ⟨v, hv, hkept⟩ := h.poolFree hok
    obtain ⟨rfl, rfl⟩ := Prod.mk.inj (Option.some.inj (hv.symm.trans hstep))
    exact ⟨hkept, by simp [Event.Clean]⟩

/-- With nothing cached and nothing held, the pool is as full as it was. -/
theorem Kept.all_listed (h : Kept bs s) (hheld : s.held = [])
    (hcaches : ∀ c ∈ s.caches, c.top = 0) :
    s.pool.available = s.pool.numBlocks ∧ s.pool.stats.outstanding = 0 := by
  have hnil : s.caches.flatMap ThreadLocalCache.items = [] := by
    rw [List.flatMap_eq_nil_iff]
    intro c hc
    rw [ThreadLocalCache.items, hcaches c hc]
    rfl
  have hplaces := h.places
  rw [Cache.places, hnil, hheld, List.append_nil, List.append_nil] at hplaces
  exact h.pool.all hplaces.length_eq

end Step

/-! ### Every sequence of calls -/

section Run

variable {mmap : UInt64 → Option UInt64} {blockSize numBlocks : UInt64} {pool : MemoryPool}
  {params : List Params} {os : List Event} {s : State}

theorem kept_init (hm : Mmap mmap) (hp : construct mmap blockSize numBlocks = some pool)
    (h0 : ∀ x ∈ pool.blocks, x ≠ 0) (params : List Params) :
    Kept pool.blocks (init pool params) := by
  have hlists := lists_of_construct hm hp
  have hempty : (init pool params).caches.flatMap ThreadLocalCache.items = [] := by
    rw [List.flatMap_eq_nil_iff]
    intro c hc
    obtain ⟨P, -, rfl⟩ := List.mem_map.mp hc
    rfl
  refine ⟨h0, ?_, ?_, ?_⟩
  · show pool.Lists pool.blocks.length pool.freelist.items
    rw [length_blocks, hlists.items]
    exact hlists
  · intro c hc
    obtain ⟨P, -, rfl⟩ := List.mem_map.mp hc
    exact ⟨rfl, rfl, Nat.zero_le _⟩
  · rw [places, hempty]
    show (pool.freelist.items ++ [] ++ []).Perm pool.blocks
    rw [List.append_nil, List.append_nil, hlists.items]

theorem run_kept (hm : Mmap mmap) (hp : construct mmap blockSize numBlocks = some pool)
    (h0 : ∀ x ∈ pool.blocks, x ≠ 0)
    (h : Lib.Machine.Run machine FreesHeld (init pool params) os s) :
    Kept pool.blocks s ∧ ∀ e ∈ os, e.Clean := by
  refine h.keeps_shown (kept_init hm hp h0 params) ?_
  intro t l u o ht hok hstep
  exact ht.step hok hstep

/-- **The caches conserve the blocks of the pool.**  No stack is too high, no
access is out of range and no flush overflows the free list; each block is in
one place; an `alloc` of a cache fails only on an empty stack and an empty list;
and once everything is freed and flushed, the pool is full again. -/
theorem caches_conserve (hm : Mmap mmap) (hp : construct mmap blockSize numBlocks = some pool)
    (h0 : ∀ x ∈ pool.blocks, x ≠ 0)
    (h : Lib.Machine.Run machine FreesHeld (init pool params) os s) :
    (∀ c ∈ s.caches, c.top ≤ c.params.localCapacity) ∧
      (∀ e ∈ os, e ≠ .outOfRange ∧ ∀ x, e ≠ .lost x) ∧
      (places s).Perm pool.blocks ∧ (places s).Nodup ∧
      (∀ i c u o, s.caches[i]? = some c → step s (.alloc i) = some (u, o) → .allocated 0 ∈ o →
        c.top = 0 ∧ s.pool.freelist.items = []) ∧
      (∀ i u o c, step s (.flushAll i) = some (u, o) → u.caches[i]? = some c → c.top = 0) ∧
      (s.held = [] → (∀ c ∈ s.caches, c.top = 0) →
        s.pool.available = s.pool.numBlocks ∧ s.pool.stats.outstanding = 0) := by
  obtain ⟨hs, hclean⟩ := run_kept hm hp h0 h
  refine ⟨?_, ?_, hs.places, hs.places.nodup_iff.mpr (nodup_blocks_of_construct hm hp), ?_, ?_,
    hs.all_listed⟩
  · intro c hc
    have hstacks := hs.caches c hc
    rw [hstacks.top]
    exact hstacks.length_le
  · intro e he
    have hshown := hclean e he
    refine ⟨?_, ?_⟩
    · rintro rfl
      exact hshown
    · rintro x rfl
      exact hshown
  · intro i c u o hi hstep ho
    obtain ⟨v, p, hv, -, hfail⟩ := hs.alloc hi
    obtain ⟨rfl, rfl⟩ := Prod.mk.inj (Option.some.inj (hv.symm.trans hstep))
    exact hfail (Event.allocated.inj (List.mem_singleton.mp ho)).symm
  · intro i u o c hstep hc
    have hcall := hstep
    rw [step] at hcall
    obtain ⟨d, hi⟩ := cache_of_onCache hcall
    obtain ⟨v, hv, -, hempty⟩ := hs.flushAll hi
    obtain ⟨rfl, rfl⟩ := Prod.mk.inj (Option.some.inj (hv.symm.trans hstep))
    exact hempty c hc

def twoCaches : List Params :=
  [⟨4, 2, by decide, by decide, by decide⟩, ⟨2, 1, by decide, by decide, by decide⟩]

/-- Two caches of different sizes: the first refills a batch, and the third
block given to the second flushes one. -/
theorem caches_conserve_two :
    ∃ pool s os, construct smallMmap 64 4 = some pool ∧
      Lib.Machine.Run machine FreesHeld (init pool twoCaches) os s ∧
      os = [.allocated 65600, .allocated 65536, .allocated 65664, .freed, .freed, .freed] ∧
      (places s).Perm pool.blocks ∧ s.held = [] ∧ s.pool.available = 4 := by
  have hp : construct smallMmap 64 4 = some (create 64 4 65536) := rfl
  obtain ⟨ls, hok, hexec⟩ : ∃ ls,
      machine.ExecOk FreesHeld (init (create 64 4 65536) twoCaches) ls ∧
      (machine.exec (init (create 64 4 65536) twoCaches) ls).map
        (fun q => ((q.1.held, q.1.pool.available), q.2)) =
        some (([], 4), [.allocated 65600, .allocated 65536, .allocated 65664, .freed, .freed,
          .freed]) := by
    refine ⟨[.alloc 0, .alloc 0, .poolAlloc, .free 1 65600, .free 1 65664, .free 1 65536,
      .flushAll 0, .flushAll 1], ?_, ?_⟩
    · decide +kernel
    · decide +kernel
  obtain ⟨s, hrun, hlast⟩ :=
    Lib.Machine.exists_run_of_exec (fun s => (s.held, s.pool.available)) hok hexec
  obtain ⟨hheld, hall⟩ := Prod.mk.inj hlast
  have h0 : (0 : UInt64) ∉ (create 64 4 65536).blocks := by decide +kernel
  obtain ⟨-, -, hplaces, -⟩ :=
    caches_conserve mmap_smallMmap hp (fun _ hx => ne_of_mem_of_not_mem hx h0) hrun
  exact ⟨_, s, _, hp, hrun, rfl, hplaces, hheld, hall⟩

/-- Maps one gigabyte, 4096 bytes below 2^46. -/
def lowMmap (n : UInt64) : Option UInt64 :=
  if n = 1073741824 then some 70368744173568 else none

theorem mmap_lowMmap : Mmap lowMmap := by
  have hspec : ∀ n base, lowMmap n = some base → n = 1073741824 ∧ base = 70368744173568 := by
    intro n base h
    unfold lowMmap at h
    split at h
    · rename_i hn
      exact ⟨hn, (Option.some.inj h).symm⟩
    · cases h
  refine ⟨rfl, ?_, ?_⟩
  · intro n base h
    obtain ⟨-, rfl⟩ := hspec n base h
    rfl
  · intro n base h
    obtain ⟨rfl, rfl⟩ := hspec n base h
    decide

def oneCache : List Params := [⟨2, 1, by decide, by decide, by decide⟩]

/-- A null pointer on the list is popped like a block, and is nowhere then. -/
theorem alloc_pops_null {n : Nat} {x : UInt64} {bs : List UInt64}
    (h : pool.Lists n (x :: 0 :: bs)) (hx : x ≠ 0) :
    ∃ s u, Lib.Machine.Run machine FreesHeld (init pool oneCache) [.allocated x] s ∧
      (∀ c ∈ s.caches, c.top = 0) ∧ s.pool.freelist.items = 0 :: bs ∧
      step s (.alloc 0) = some (u, [.allocated 0]) ∧ places u = bs ++ [x] := by
  obtain ⟨m, hm, hlists⟩ := h.alloc_cons hx
  obtain ⟨m', hm', hitems⟩ := hlists.alloc_null
  let s : State := { init pool oneCache with pool := m, held := [x] }
  have hfirst : step (init pool oneCache) .poolAlloc = some (s, [.allocated x]) := by
    rw [step]
    show some (({ init pool oneCache with pool := pool.alloc.1 } : State).receive pool.alloc.2,
      [Event.allocated pool.alloc.2]) = _
    rw [hm, State.receive, if_neg hx]
    rfl
  have hsecond : step s (.alloc 0) = some ({ s with pool := m' }, [.allocated 0]) := by
    have hcache : s.caches[0]? = some { params := ⟨2, 1, by decide, by decide, by decide⟩ } := rfl
    rw [step, onCache, hcache]
    dsimp only
    rw [ThreadLocalCache.alloc_of_failure rfl hm']
    rfl
  have hrun : Lib.Machine.Run machine FreesHeld (init pool oneCache) [.allocated x] s :=
    .single (l := .poolAlloc) trivial hfirst
  refine ⟨s, _, hrun, ?_, hlists.items, hsecond, ?_⟩
  · intro c hc
    obtain ⟨P, -, rfl⟩ := List.mem_map.mp hc
    rfl
  · show m'.freelist.items ++ [] ++ [x] = bs ++ [x]
    rw [hitems, List.append_nil]

/-- **A block at the null pointer is lost.**  With 2^18 blocks of
2^64 - 2^46 + 4096 bytes the size of the mapping wraps to one gigabyte, and the
second block to address `0`.  An `alloc` of the cache pops it and fails, with
blocks left on the list. -/
theorem null_block :
    ∃ pool s u, Mmap lowMmap ∧ construct lowMmap 18446673704965378048 262144 = some pool ∧
      Lib.Machine.Run machine FreesHeld (init pool oneCache) [.allocated 70368744173568] s ∧
      (∀ c ∈ s.caches, c.top = 0) ∧ s.pool.freelist.items ≠ [] ∧
      step s (.alloc 0) = some (u, [.allocated 0]) ∧ ¬(places u).Perm pool.blocks := by
  have hp : construct lowMmap 18446673704965378048 262144 =
      some (create 18446673704965378048 262144 70368744173568) := rfl
  obtain ⟨hsize, hcount, hbase⟩ := create_eq 18446673704965378048 262144 70368744173568
  generalize create 18446673704965378048 262144 70368744173568 = pool at hp hsize hcount hbase
  have h2 : 2 ≤ pool.numBlocks.toNat := by
    rw [hcount]
    decide +kernel
  have hfirst : pool.block 0 = 70368744173568 := by
    rw [block, hsize, hbase]
    decide +kernel
  have hsecond : pool.block 1 = 0 := by
    rw [block, hsize, hbase]
    decide +kernel
  obtain ⟨bs, hblocks⟩ := blocks_eq_cons_cons h2
  have hlists := lists_of_construct mmap_lowMmap hp
  rw [hfirst, hsecond] at hblocks
  rw [hblocks] at hlists
  obtain ⟨s, u, hrun, htop, hitems, hstep, hplaces⟩ := alloc_pops_null hlists (by decide)
  refine ⟨pool, s, u, mmap_lowMmap, hp, hrun, htop, ?_, hstep, ?_⟩
  · rw [hitems]
    exact List.cons_ne_nil 0 bs
  · intro hperm
    have hlen := hperm.length_eq
    rw [hplaces, hblocks] at hlen
    simp at hlen

end Run

end HftComponents.Pool.Cache
