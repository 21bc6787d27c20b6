import HftComponents.Lib.Potential
import HftComponents.Pool.Cache

/-!
# How often a cache goes to the pool

A call of a cache is cold if it finds the stack empty, or full: only then does it go
to the pool, and moves a batch (`hot_of_not_cold`).  A batch leaves the stack so far
from both ends that there are `BatchSize - 1` hot calls before the next cold one;
`slack` counts those that are missing.  So all but a bounded number of any
`BatchSize` calls are hot (`cold_calls_amortised`), if nobody flushes the cache and the
pool does not run short.
-/

namespace HftComponents.Pool.Cache

open MemoryPool

variable {bs ys xs : List UInt64} {s u : State} {i j n : Nat} {c : ThreadLocalCache}
  {m : MemoryPool} {p : UInt64} {l : Label} {o : List Event} {P : Params}

/-! ### Where a call leaves the stack -/

namespace ThreadLocalCache

theorem alloc_top (hc : c.Stacks P ys) (hm : m.Lists n xs) (h0 : ∀ x ∈ xs, x ≠ 0) :
    ∃ c' m' p, c.alloc m = some (c', m', p) ∧ c'.params = P ∧
      c'.top = (if 0 < c.top then c.top - 1 else min P.batchSize xs.length - 1) ∧
      (0 < c.top → m' = m) := by
  by_cases htop : 0 < c.top
  · rcases List.eq_nil_or_concat' ys with rfl | ⟨zs, p, rfl⟩
    · rw [hc.top] at htop
      exact absurd htop (lt_irrefl 0)
    · obtain ⟨c', hpop, -, hc'⟩ := alloc_of_concat (m := m) hc
      refine ⟨c', m, p, ?_, hc'.params, ?_, fun _ => rfl⟩
      · rw [alloc, if_pos htop]
        exact hpop
      · rw [if_pos htop, hc'.top, hc.top]
        simp
  · have hys : ys = [] := by
      apply List.length_eq_zero_iff.mp
      rw [← hc.top]
      omega
    subst hys
    have hbatch := P.batch_le
    obtain ⟨c', m', hrefill, hc', hm'⟩ := refill_spec hc hm h0 (k := P.batchSize)
      (by rw [List.length_nil]; omega)
    rw [List.nil_append] at hc'
    have htop' := hc'.top
    rw [List.length_take] at htop'
    rw [alloc, if_neg htop, hc.params, hrefill]
    dsimp only
    rw [if_neg htop]
    by_cases hpos : 0 < c'.top
    · rcases List.eq_nil_or_concat' (xs.take P.batchSize) with hnil | ⟨zs, p, hzs⟩
      · rw [hc'.top, hnil] at hpos
        exact absurd hpos (lt_irrefl 0)
      · rw [hzs] at hc'
        obtain ⟨c'', hpop, -, hc''⟩ := alloc_of_concat (m := m') hc'
        rw [if_pos hpos]
        refine ⟨c'', m', p, hpop, hc''.params, ?_, fun h => absurd h htop⟩
        have hlen := hc'.top
        rw [List.length_append, List.length_singleton] at hlen
        rw [hc''.top]
        omega
    · rw [if_neg hpos]
      exact ⟨c', m', 0, rfl, hc'.params, by omega, fun h => absurd h htop⟩

theorem free_top (hc : c.Stacks P ys) (hm : m.Lists n xs) (hroom : ys.length + xs.length < n)
    (p : UInt64) :
    ∃ c' m', c.free m p = some (c', m', []) ∧ c'.params = P ∧
      c'.top = (if c.top < P.localCapacity then c.top + 1
        else P.localCapacity - P.batchSize + 1) ∧
      (c.top < P.localCapacity → m' = m) := by
  have hle := hc.length_le
  have hbatch := P.batch_le
  by_cases hlt : c.top < P.localCapacity
  · obtain ⟨c', hpush, hc'⟩ := hc.push (by rw [← hc.top]; exact hlt) p
    refine ⟨c', m, ?_, hc'.params, ?_, fun _ => rfl⟩
    · rw [free, if_pos (by rw [hc.params]; exact hlt), hpush]
      rfl
    · rw [if_pos hlt, hc'.top, hc.top]
      simp
  · obtain ⟨us, zs, rfl, hzs⟩ : ∃ us zs, ys = us ++ zs ∧ zs.length = P.batchSize := by
      refine ⟨ys.take (ys.length - P.batchSize), ys.drop (ys.length - P.batchSize),
        (List.take_append_drop ..).symm, ?_⟩
      rw [hc.top] at hlt
      rw [List.length_drop]
      omega
    have htop := hc.top
    rw [List.length_append] at hle hroom htop
    obtain ⟨c', m', hflush, hc', hm'⟩ := flush_spec hc hm (by omega)
    obtain ⟨c'', hpush, hc''⟩ := hc'.push (by have := P.batch_pos; omega) p
    refine ⟨c'', m', ?_, hc''.params, ?_, fun h => absurd h hlt⟩
    · rw [free, if_neg (by rw [hc.params]; exact hlt), hc.params, ← hzs, hflush]
      dsimp only
      rw [hpush]
      rfl
    · rw [if_neg hlt, hc''.top, List.length_append, List.length_singleton]
      omega

end ThreadLocalCache

/-! ### Hot and cold calls -/

/-- A call of cache `i`. -/
def Label.calls (i : Nat) : Label → Bool
  | .alloc j | .free j _ => j = i
  | _ => false

def Label.flushes (i : Nat) : Label → Bool
  | .flushAll j => j = i
  | _ => false

/-- A call of cache `i` that misses, or finds the stack full. -/
def cold (i : Nat) (s : State) : Label → Bool
  | .alloc j => j = i && s.caches[i]?.any fun c => c.top = 0
  | .free j _ => j = i && s.caches[i]?.any fun c => c.params.localCapacity ≤ c.top
  | _ => false

/-- A miss that the pool cannot fill with a batch. -/
def short (i : Nat) (s : State) : Label → Bool
  | .alloc j => j = i && s.caches[i]?.any fun c =>
    c.top = 0 && s.pool.freelist.items.length < c.params.batchSize
  | _ => false

/-- The hot calls that are missing between this state and the next cold call. -/
def ThreadLocalCache.slack (c : ThreadLocalCache) : Nat :=
  (c.params.batchSize - 1 - c.top) +
    (c.top - (c.params.localCapacity - c.params.batchSize + 1))

def slack (i : Nat) (s : State) : Nat := (s.caches[i]?.map ThreadLocalCache.slack).getD 0

/-- What a step says of cache `i`. -/
structure Spends (i : Nat) (P : Params) (c : ThreadLocalCache) (s : State) (l : Label)
    (u : State) : Prop where
  cache : ∃ c', u.caches[i]? = some c' ∧ c'.params = P ∧
    P.batchSize * (cold i s l).toNat + c'.slack ≤
      c.slack + ((l.calls i).toNat +
        (P.batchSize - 1) * ((l.flushes i).toNat + (short i s l).toNat))
  hot : l.calls i = true → cold i s l = false → u.pool = s.pool

theorem Spends.other (hi : s.caches[i]? = some c) (hP : c.params = P)
    (hu : u.caches[i]? = s.caches[i]?) (hcold : cold i s l = false) (hcalls : l.calls i = false) :
    Spends i P c s l u where
  cache := by
    refine ⟨c, hu.trans hi, hP, ?_⟩
    rw [hcold, Bool.toNat_false, Nat.mul_zero, Nat.zero_add]
    exact Nat.le_add_right _ _
  hot h := by
    rw [hcalls] at h
    cases h

theorem caches_of_onCache {α : Type} {op : ThreadLocalCache → MemoryPool →
      Option (ThreadLocalCache × MemoryPool × α)} {after : State → α → State × List Event}
    (hafter : ∀ s a, (after s a).1.caches = s.caches) (h : onCache s j op after = some (u, o))
    (hne : j ≠ i) : u.caches[i]? = s.caches[i]? := by
  unfold onCache at h
  split at h
  · cases h
  · split at h
    · cases h
      rfl
    · rename_i d m a _
      have hu := congrArg (fun q => q.1.caches) (Option.some.inj h)
      rw [hafter] at hu
      rw [← hu]
      exact List.getElem?_set_ne hne

theorem Spends.alloc (h : Kept bs s) (hi : s.caches[i]? = some c)
    (hs : step s (.alloc i) = some (u, o)) : Spends i c.params c s (.alloc i) u := by
  have h0 : ∀ x ∈ s.pool.freelist.items, x ≠ 0 := by
    intro x hx
    refine h.nonNull x (h.places.subset ?_)
    exact List.mem_append_left _ (List.mem_append_left _ hx)
  obtain ⟨c', m, p, halloc, hP, htop, hm⟩ :=
    ThreadLocalCache.alloc_top (h.stack hi) h.pool h0
  obtain ⟨hlt, -⟩ := List.getElem?_eq_some_iff.mp hi
  rw [step, onCache, hi] at hs
  dsimp only at hs
  rw [halloc] at hs
  obtain ⟨rfl, -⟩ := Prod.mk.inj (Option.some.inj hs)
  have hcaches : (({ s with pool := m, caches := s.caches.set i c' } : State).receive p).caches =
      s.caches.set i c' := by
    unfold State.receive
    split <;> rfl
  have hpool :
      (({ s with pool := m, caches := s.caches.set i c' } : State).receive p).pool = m := by
    unfold State.receive
    split <;> rfl
  have hpos := c.params.batch_pos
  have hbatch := c.params.batch_le
  have hle := (h.stack hi).length_le
  rw [ThreadLocalCache.length_items] at hle
  refine ⟨⟨c', by rw [hcaches]; exact List.getElem?_set_self hlt, hP, ?_⟩, fun _ hcold => ?_⟩
  · simp only [cold, short, Label.calls, Label.flushes, hi, Option.any_some, decide_true,
      Bool.true_and, Bool.toNat_true, Bool.toNat_false, ThreadLocalCache.slack, hP, htop]
    by_cases hzero : c.top = 0
    · by_cases hshort : s.pool.freelist.items.length < c.params.batchSize
      · simp [hzero, hshort]
        omega
      · simp [hzero, hshort]
        omega
    · simp [hzero]
      split <;> omega
  · rw [hpool]
    apply hm
    simp [cold, hi] at hcold
    omega

theorem Spends.free (h : Kept bs s) (hi : s.caches[i]? = some c) (hheld : p ∈ s.held)
    (hs : step s (.free i p) = some (u, o)) : Spends i c.params c s (.free i p) u := by
  have hroom := h.room hi
  have hlen := List.length_pos_of_mem hheld
  obtain ⟨c', m, hfree, hP, htop, hm⟩ :=
    ThreadLocalCache.free_top (h.stack hi) h.pool (by omega) p
  obtain ⟨hlt, -⟩ := List.getElem?_eq_some_iff.mp hi
  rw [step, onCache, hi] at hs
  dsimp only at hs
  rw [hfree] at hs
  obtain ⟨rfl, -⟩ := Prod.mk.inj (Option.some.inj hs)
  have hpos := c.params.batch_pos
  have hbatch := c.params.batch_le
  refine ⟨⟨c', List.getElem?_set_self hlt, hP, ?_⟩, fun _ hcold => ?_⟩
  · simp only [cold, short, Label.calls, Label.flushes, hi, Option.any_some, decide_true,
      Bool.true_and, Bool.toNat_true, Bool.toNat_false, ThreadLocalCache.slack, hP, htop]
    by_cases hfull : c.params.localCapacity ≤ c.top
    · simp [hfull, Nat.not_lt.mpr hfull]
      omega
    · simp [hfull, Nat.not_le.mp hfull]
      omega
  · apply hm
    simpa [cold, hi] using hcold

theorem Spends.flushAll (h : Kept bs s) (hi : s.caches[i]? = some c)
    (hs : step s (.flushAll i) = some (u, o)) : Spends i c.params c s (.flushAll i) u := by
  have hroom := h.room hi
  obtain ⟨hlt, -⟩ := List.getElem?_eq_some_iff.mp hi
  obtain ⟨c', m, hflush, hc', -⟩ :=
    ThreadLocalCache.flushAll_spec (h.stack hi) h.pool (by omega)
  rw [step, onCache, hi] at hs
  dsimp only at hs
  rw [hflush] at hs
  obtain ⟨rfl, -⟩ := Prod.mk.inj (Option.some.inj hs)
  refine ⟨⟨c', List.getElem?_set_self hlt, hc'.params, ?_⟩, by simp [Label.calls]⟩
  simp [cold, short, Label.calls, Label.flushes, ThreadLocalCache.slack, hc'.params, hc'.top]

/-- **A step**, from the caller's point of view of cache `i`. -/
theorem spends (h : Kept bs s) (hok : FreesHeld s l) (hi : s.caches[i]? = some c)
    (hs : step s l = some (u, o)) : Spends i c.params c s l u := by
  cases l with
  | alloc j =>
    by_cases hj : j = i
    · subst hj
      exact .alloc h hi hs
    · rw [step] at hs
      refine .other hi rfl (caches_of_onCache ?_ hs hj) (by simp [cold, hj])
        (by simp [Label.calls, hj])
      intro s p
      dsimp only [State.receive]
      split <;> rfl
  | free j p =>
    by_cases hj : j = i
    · subst hj
      exact .free h hi hok hs
    · rw [step] at hs
      exact .other hi rfl (caches_of_onCache (fun _ _ => rfl) hs hj) (by simp [cold, hj])
        (by simp [Label.calls, hj])
  | flushAll j =>
    by_cases hj : j = i
    · subst hj
      exact .flushAll h hi hs
    · rw [step] at hs
      exact .other hi rfl (caches_of_onCache (fun _ _ => rfl) hs hj) rfl rfl
  | poolAlloc =>
    refine .other hi rfl ?_ rfl rfl
    rw [step] at hs
    obtain ⟨rfl, -⟩ := Prod.mk.inj (Option.some.inj hs)
    dsimp only [State.receive]
    split <;> rfl
  | poolFree p =>
    refine .other hi rfl ?_ rfl rfl
    rw [step] at hs
    obtain ⟨rfl, -⟩ := Prod.mk.inj (Option.some.inj hs)
    rfl

/-! ### Every sequence of calls -/

theorem slack_le (c : ThreadLocalCache) (hle : c.top ≤ c.params.localCapacity) :
    c.slack ≤ c.params.batchSize - 1 := by
  have hbatch := c.params.batch_le
  have hpos := c.params.batch_pos
  rw [ThreadLocalCache.slack]
  omega

/-- Of `ls`, from `s` on, how many calls of cache `i` are cold. -/
def coldCalls (i : Nat) (s : State) (ls : List Label) : Nat :=
  machine.tally (fun s l => (cold i s l).toNat) s ls

def shortCalls (i : Nat) (s : State) (ls : List Label) : Nat :=
  machine.tally (fun s l => (short i s l).toNat) s ls

/-- What is known of the calls of cache `i` from `s` on. -/
structure Batched (i : Nat) (P : Params) (s : State) : Prop where
  hot : ∀ l u o, FreesHeld s l → l.calls i = true → cold i s l = false →
    step s l = some (u, o) → u.pool = s.pool
  amortised : ∀ ls t os, machine.ExecOk FreesHeld s ls → machine.exec s ls = some (t, os) →
    P.batchSize * coldCalls i s ls ≤ ls.countP (Label.calls i) +
      (P.batchSize - 1) * (1 + ls.countP (Label.flushes i) + shortCalls i s ls)

theorem Kept.batched (h : Kept bs s) (hi : s.caches[i]? = some c) : Batched i c.params s where
  hot _ _ _ hok hcalls hcold hs := (spends h hok hi hs).hot hcalls hcold
  amortised := by
    intro ls t os hok hexec
    have hle := Lib.Machine.tally_le (m := machine)
      (I := fun v => Kept bs v ∧ ∃ d, v.caches[i]? = some d ∧ d.params = c.params)
      (A := FreesHeld) (r := slack i)
      (w := fun v l => c.params.batchSize * (cold i v l).toNat)
      (c := fun v l => (l.calls i).toNat +
        (c.params.batchSize - 1) * ((l.flushes i).toNat + (short i v l).toNat))
      (fun v l w o hv hl hstep => by
        obtain ⟨hkept, d, hd, hP⟩ := hv
        obtain ⟨⟨d', hd', hP', hspent⟩, -⟩ := spends hkept hl hd hstep
        rw [hP] at hP' hspent
        refine ⟨⟨(hkept.step hl hstep).1, d', hd', hP'⟩, ?_⟩
        simpa [slack, hd, hd'] using hspent)
      ⟨h, c, hi, rfl⟩ hok hexec
    have hslack : slack i s ≤ c.params.batchSize - 1 := by
      rw [slack, hi]
      have hstack := h.stack hi
      exact slack_le c (by rw [hstack.top]; exact hstack.length_le)
    rw [Lib.Machine.tally_mul, Lib.Machine.tally_add, Lib.Machine.tally_mul, Lib.Machine.tally_add,
      Lib.Machine.tally_labels hexec, Lib.Machine.tally_labels hexec] at hle
    rw [coldCalls, shortCalls, Nat.add_assoc, Nat.mul_add, Nat.mul_one]
    omega

/-- **Cold calls are amortised.**  From any state on, a hot call does not touch the
pool, and of every `BatchSize` calls of a cache all but one are hot, up to a
batch for the start, each flush and each refill that falls short. -/
theorem cold_calls_amortised {mmap : UInt64 → Option UInt64} {blockSize numBlocks : UInt64}
    {pool : MemoryPool} {params : List Params} {os : List Event} (hm : Mmap mmap)
    (hp : construct mmap blockSize numBlocks = some pool) (h0 : ∀ x ∈ pool.blocks, x ≠ 0)
    (h : Lib.Machine.Run machine FreesHeld (init pool params) os s)
    (hi : s.caches[i]? = some c) : Batched i c.params s :=
  (run_kept hm hp h0 h).1.batched hi

/-- With batches of two, the first and the third of four `alloc`s are cold; from the
state after the first on, the bound holds. -/
theorem cold_calls_amortised_two :
    ∃ pool s c os, construct smallMmap 64 4 = some pool ∧
      Lib.Machine.Run machine FreesHeld (init pool twoCaches) os s ∧ os = [.allocated 65600] ∧
      coldCalls 0 (init pool twoCaches) (List.replicate 4 (.alloc 0)) = 2 ∧
      s.caches[0]? = some c ∧ c.params.batchSize = 2 ∧ Batched 0 c.params s := by
  have hp : construct smallMmap 64 4 = some (create 64 4 65536) := rfl
  have hexec : (machine.exec (init (create 64 4 65536) twoCaches) [.alloc 0]).map
      (fun q => (q.1.caches[0]?.map fun c => c.params.batchSize, q.2)) =
        some (some 2, [.allocated 65600]) := by
    decide +kernel
  obtain ⟨s, hrun, hs⟩ := Lib.Machine.exists_run_of_exec
    (fun s : State => s.caches[0]?.map fun c => c.params.batchSize)
    (by decide +kernel : machine.ExecOk FreesHeld _ [.alloc 0]) hexec
  obtain ⟨c, hc, hbatch⟩ := Option.map_eq_some_iff.mp hs
  have h0 : (0 : UInt64) ∉ (create 64 4 65536).blocks := by decide +kernel
  exact ⟨_, s, c, _, hp, hrun, rfl, by decide +kernel, hc, hbatch,
    cold_calls_amortised mmap_smallMmap hp (fun _ hx => ne_of_mem_of_not_mem hx h0) hrun hc⟩

end HftComponents.Pool.Cache
