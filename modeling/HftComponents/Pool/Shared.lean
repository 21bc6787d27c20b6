import HftComponents.Pool.Cache
import HftComponents.Pool.Conservation

/-!
# Several threads behind one pool

Each thread calls its own `ThreadLocalCache`; the refills and flushes of all of
them meet in the free list of the pool, whose `pop` and `push` are here cut at
every load and store.  The accesses to a cache are no steps of their own: no
other thread sees them.

Neither `pop` nor `push` is made for two threads.  `handed_out_twice` is a run
in which two refills take the same block.  The pool asks its callers that one
thread at a time pops and one at a time pushes; `Exclusive` is that contract,
and under it no block is in two places and none is lost (`shared_conserves`).
-/

namespace HftComponents.Pool.Shared

open Lib.Ring SPSCFreeList MemoryPool
open Cache (Params ThreadLocalCache)

/-- Where a thread is: outside, in a turn of a refill with `n` more to come, or
in a turn of a flush with `n` more to come; `next` is the block that `free` keeps
for the end of its flush. -/
inductive Call
  | idle
  | refill (n : Nat) (a : Alloc)
  | flush (n : Nat) (next : Option UInt64) (f : Free)
  deriving DecidableEq

/-- `held` lists the blocks that the thread has got and not freed. -/
structure Thread where
  cache : ThreadLocalCache
  held : List UInt64 := []
  call : Call := .idle

/-- `lost` is a block for which the free list had no room, and `outOfRange` an
access beside the stack. -/
inductive Event
  | allocated (p : UInt64)
  | freed
  | flushed
  | lost (p : UInt64)
  | outOfRange
  deriving DecidableEq, Repr

namespace Thread

/-- `return top_ > 0 ? stack_[--top_] : nullptr`. -/
def finishAlloc (t : Thread) : Thread × List Event :=
  if 0 < t.cache.top then
    match t.cache.popTop with
    | none => (t, [.outOfRange])
    | some (c, p) => ({ cache := c, held := p :: t.held }, [.allocated p])
  else ({ t with call := .idle }, [.allocated 0])

def alloc (t : Thread) : Thread × List Event :=
  if 0 < t.cache.top then t.finishAlloc
  else ({ t with call := .refill (t.cache.params.batchSize - 1) .loadRp }, [])

/-- The end of a turn of the refill, with what `pool_.alloc()` returned. -/
def received (t : Thread) (n : Nat) (p : UInt64) : Thread × List Event :=
  if p = 0 then t.finishAlloc
  else
    match t.cache.pushTop p with
    | none => (t, [.outOfRange])
    | some c =>
      match n with
      | 0 => { t with cache := c }.finishAlloc
      | n + 1 => ({ t with cache := c, call := .refill n .loadRp }, [])

/-- The next turn of a flush with `n` to come, or its end. -/
def flushTurn (t : Thread) (next : Option UInt64) : Nat → Thread × List Event
  | 0 =>
    match next with
    | none => ({ t with call := .idle }, [.flushed])
    | some p =>
      match t.cache.pushTop p with
      | none => (t, [.outOfRange])
      | some c => ({ t with cache := c, call := .idle }, [.freed])
  | n + 1 =>
    match t.cache.popTop with
    | none => (t, [.outOfRange])
    | some (c, q) => ({ t with cache := c, call := .flush n next (.loadWp q) }, [])

/-- A full cache is flushed first. -/
def free (t : Thread) (p : UInt64) : Thread × List Event :=
  { t with held := t.held.erase p }.flushTurn (some p)
    (if t.cache.top < t.cache.params.localCapacity then 0 else t.cache.params.batchSize)

def flushAll (t : Thread) : Thread × List Event := t.flushTurn none t.cache.top

/-- One access of the thread to the pool. -/
def access (t : Thread) (m : MemoryPool) : Option (MemoryPool × Thread × List Event) :=
  match t.call with
  | .idle => none
  | .refill n a =>
    match stepAlloc { pool := m, alloc := a } with
    | none => none
    | some (s, .allocated p :: _) => some (s.pool, t.received n p)
    | some (s, _) => some (s.pool, { t with call := .refill n s.alloc }, [])
  | .flush n next f =>
    match stepFree { pool := m, free := f } with
    | none => none
    | some (s, .freed :: _) => some (s.pool, t.flushTurn next n)
    | some (s, .overflow p :: _) =>
      some (s.pool, { t with call := .flush n next s.free }, [.lost p])
    | some (s, _) => some (s.pool, { t with call := .flush n next s.free }, [])

end Thread

structure State where
  pool : MemoryPool
  threads : List Thread

/-- The threads by their numbers. -/
inductive Label
  | alloc (i : Nat)
  | free (i : Nat) (p : UInt64)
  | flushAll (i : Nat)
  | access (i : Nat)

/-- A call of thread `i`, which is in no other. -/
def enter (s : State) (i : Nat) (call : Thread → Thread × List Event) :
    Option (State × List Event) :=
  match s.threads[i]? with
  | none => none
  | some t =>
    match t.call with
    | .idle => some ({ s with threads := s.threads.set i (call t).1 }, (call t).2)
    | _ => none

def step (s : State) : Label → Option (State × List Event)
  | .alloc i => enter s i Thread.alloc
  | .free i p => enter s i fun t => t.free p
  | .flushAll i => enter s i Thread.flushAll
  | .access i =>
    match s.threads[i]? with
    | none => none
    | some t =>
      match t.access s.pool with
      | none => none
      | some (m, t, o) => some ({ pool := m, threads := s.threads.set i t }, o)

def machine : Lib.Machine State Label Event := ⟨step⟩

def init (pool : MemoryPool) (params : List Params) : State :=
  { pool := pool, threads := params.map fun P => { cache := { params := P } } }

/-! ### The contracts -/

/-- A thread frees only what it holds. -/
def FreesHeld (s : State) : Label → Prop
  | .free i p => ∃ t ∈ s.threads[i]?, p ∈ t.held
  | _ => True

/-- About to load `rp_`. -/
def Call.startsPop : Call → Bool
  | .refill _ .loadRp => true
  | _ => false

/-- Between the load of `rp_` and its store. -/
def Call.popping : Call → Bool
  | .refill _ (.loadWp _) => true
  | .refill _ (.loadSlot _) => true
  | .refill _ (.storeRp _ _) => true
  | _ => false

/-- About to load `wp_`. -/
def Call.startsPush : Call → Bool
  | .flush _ _ (.loadWp _) => true
  | _ => false

/-- Between the load of `wp_` and its store. -/
def Call.pushing : Call → Bool
  | .flush _ _ (.loadRp _ _) => true
  | .flush _ _ (.storeSlot _ _) => true
  | .flush _ _ (.storeWp _ _) => true
  | _ => false

/-- No thread starts a `pop` while another is in one, nor a `push`. -/
def Exclusive (s : State) : Label → Prop
  | .access i => ∀ t ∈ s.threads[i]?,
    (t.call.startsPop = true → ∀ u ∈ s.threads, u.call.popping = false) ∧
      (t.call.startsPush = true → ∀ u ∈ s.threads, u.call.pushing = false)
  | _ => True

instance decidableFreesHeld (s : State) : (l : Label) → Decidable (FreesHeld s l)
  | .free i p => inferInstanceAs (Decidable (∃ t ∈ s.threads[i]?, p ∈ t.held))
  | .alloc _ => isTrue trivial
  | .flushAll _ => isTrue trivial
  | .access _ => isTrue trivial

instance decidableExclusive (s : State) : (l : Label) → Decidable (Exclusive s l)
  | .access i => inferInstanceAs (Decidable (∀ t ∈ s.threads[i]?,
      (t.call.startsPop = true → ∀ u ∈ s.threads, u.call.popping = false) ∧
        (t.call.startsPush = true → ∀ u ∈ s.threads, u.call.pushing = false)))
  | .alloc _ => isTrue trivial
  | .free _ _ => isTrue trivial
  | .flushAll _ => isTrue trivial

/-! ### Where the blocks are -/

/-- The blocks that a call in progress carries. -/
def Call.blocks : Call → List UInt64
  | .idle => []
  | .refill _ a => a.taken
  | .flush _ next f => f.pending ++ next.toList

def Thread.blocks (t : Thread) : List UInt64 := t.cache.items ++ t.held ++ t.call.blocks

/-- The places a block can be in. -/
def places (s : State) : List UInt64 :=
  s.pool.freelist.items ++ s.threads.flatMap Thread.blocks

/-! ### The accesses to a cache -/

def Event.Clean : Event → Prop
  | .lost _ | .outOfRange => False
  | _ => True

/-- What the thread knows of the list in the middle of a call. -/
def CallOk (c : ThreadLocalCache) (l : SPSCFreeList) : Call → Prop
  | .idle => True
  | .refill n a => c.top + n < c.params.localCapacity ∧ AllocOk l a
  | .flush n _ f => n ≤ c.top ∧ c.top < c.params.localCapacity ∧ FreeOk l f

/-- A thread that is in no `pop` or `push`, with the blocks `bs`. -/
structure Settled (l : SPSCFreeList) (bs : List UInt64) (q : Thread × List Event) : Prop where
  stack : q.1.cache.Stacks q.1.cache.params q.1.cache.items
  call : CallOk q.1.cache l q.1.call
  popping : q.1.call.popping = false
  pushing : q.1.call.pushing = false
  blocks : q.1.blocks.Perm bs
  clean : ∀ e ∈ q.2, e.Clean

section Local

variable {l : SPSCFreeList} {t : Thread} {P : Params} {ys bs : List UInt64} {n : Nat} {p : UInt64}
  {next : Option UInt64} {c : ThreadLocalCache}

theorem stacks_self (hc : c.Stacks P ys) : c.Stacks c.params c.items := by
  rw [hc.params, hc.items]
  exact hc

theorem settled_idle (hc : c.Stacks P ys) {held : List UInt64} {o : List Event}
    (hperm : (ys ++ held).Perm bs) (ho : ∀ e ∈ o, e.Clean) :
    Settled l bs ({ cache := c, held := held }, o) := by
  refine ⟨stacks_self hc, trivial, rfl, rfl, ?_, ho⟩
  show (c.items ++ held ++ []).Perm bs
  rw [List.append_nil, hc.items]
  exact hperm

theorem settled_finishAlloc (hc : t.cache.Stacks P ys) :
    Settled l (ys ++ t.held) t.finishAlloc := by
  unfold Thread.finishAlloc
  rcases List.eq_nil_or_concat' ys with rfl | ⟨zs, p, rfl⟩
  · rw [if_neg (by rw [hc.top]; exact Nat.lt_irrefl 0)]
    exact settled_idle hc (List.Perm.refl _) (List.forall_mem_singleton.mpr trivial)
  · obtain ⟨c', hpop, hc'⟩ := hc.pop
    rw [if_pos (by rw [hc.top, List.length_append]; exact Nat.succ_pos _), hpop]
    refine settled_idle hc' ?_ (List.forall_mem_singleton.mpr trivial)
    rw [List.append_assoc, List.singleton_append]

theorem settled_alloc (hc : t.cache.Stacks P ys) : Settled l (ys ++ t.held) t.alloc := by
  unfold Thread.alloc
  split
  · exact settled_finishAlloc hc
  · rename_i hzero
    have hbatch := P.batch_le
    have hpos := P.batch_pos
    have hcap := P.two_le
    refine ⟨stacks_self hc, ⟨?_, trivial⟩, rfl, rfl, ?_, by simp⟩
    · rw [hc.params]
      show t.cache.top + (P.batchSize - 1) < P.localCapacity
      omega
    · show (t.cache.items ++ t.held ++ []).Perm (ys ++ t.held)
      rw [List.append_nil, hc.items]

theorem settled_received (hc : t.cache.Stacks P ys) (hroom : ys.length + n < P.localCapacity)
    (p : UInt64) : Settled l (ys ++ t.held ++ (Alloc.count p).taken) (t.received n p) := by
  unfold Thread.received
  split
  · rename_i hzero
    rw [hzero]
    show Settled l (ys ++ t.held ++ []) t.finishAlloc
    rw [List.append_nil]
    exact settled_finishAlloc hc
  · rename_i hne
    obtain ⟨c, hpush, hc'⟩ := hc.push (by omega) p
    have hperm : (ys ++ [p] ++ t.held).Perm (ys ++ t.held ++ (Alloc.count p).taken) := by
      rw [taken_count hne, List.append_assoc, List.append_assoc]
      exact List.perm_append_comm.append_left ys
    rw [hpush]
    cases n with
    | zero =>
      have hs := settled_finishAlloc (l := l) (t := { t with cache := c }) hc'
      exact { hs with blocks := hs.blocks.trans hperm }
    | succ n =>
      refine ⟨stacks_self hc', ⟨?_, trivial⟩, rfl, rfl, ?_, by simp⟩
      · show c.top + n < c.params.localCapacity
        rw [hc'.top, hc'.params, List.length_append, List.length_singleton]
        omega
      · refine List.Perm.trans ?_ hperm
        show (c.items ++ t.held ++ []).Perm (ys ++ [p] ++ t.held)
        rw [List.append_nil, hc'.items]

theorem settled_flushTurn (hc : t.cache.Stacks P ys) (hn : n ≤ ys.length)
    (hroom : next = none ∨ ys.length < P.localCapacity + n) :
    Settled l (ys ++ t.held ++ next.toList) (t.flushTurn next n) := by
  cases n with
  | zero =>
    cases next with
    | none =>
      refine settled_idle hc ?_ (List.forall_mem_singleton.mpr trivial)
      exact List.Perm.of_eq (List.append_nil _).symm
    | some p =>
      have hlt : ys.length < P.localCapacity := hroom.resolve_left (Option.some_ne_none p)
      obtain ⟨c, hpush, hc'⟩ := hc.push hlt p
      unfold Thread.flushTurn
      dsimp only
      rw [hpush]
      refine settled_idle hc' ?_ (List.forall_mem_singleton.mpr trivial)
      rw [List.append_assoc, List.append_assoc]
      exact List.perm_append_comm.append_left ys
  | succ n =>
    rcases List.eq_nil_or_concat' ys with rfl | ⟨zs, q, rfl⟩
    · exact absurd hn (Nat.not_succ_le_zero n)
    · obtain ⟨c, hpop, hc'⟩ := hc.pop
      have hlen := hc.length_le
      rw [List.length_append, List.length_singleton] at hlen hn
      unfold Thread.flushTurn
      rw [hpop]
      refine ⟨stacks_self hc', ⟨?_, ?_, trivial⟩, rfl, rfl, ?_, by simp⟩
      · rw [hc'.top]
        omega
      · rw [hc'.top, hc'.params]
        omega
      · show (c.items ++ t.held ++ ([q] ++ next.toList)).Perm _
        rw [hc'.items, ← List.append_assoc]
        refine List.Perm.append_right _ ?_
        rw [List.append_assoc, List.append_assoc]
        exact List.perm_append_comm.append_left zs

theorem settled_free (hc : t.cache.Stacks P ys) (hheld : p ∈ t.held) :
    Settled l (ys ++ t.held) (t.free p) := by
  have hbatch := P.batch_le
  have hpos := P.batch_pos
  have hlen := hc.length_le
  have hturn : ∀ k, k ≤ ys.length → ys.length < P.localCapacity + k →
      Settled l (ys ++ t.held.erase p ++ [p])
        ({ t with held := t.held.erase p }.flushTurn (some p) k) := fun k hk hroom =>
    @settled_flushTurn l { t with held := t.held.erase p } P ys k (some p) hc hk (Or.inr hroom)
  have hs : Settled l (ys ++ t.held.erase p ++ [p]) (t.free p) := by
    unfold Thread.free
    rw [hc.top, hc.params]
    split
    · exact hturn 0 (Nat.zero_le _) (by omega)
    · exact hturn _ (by omega) (by omega)
  refine { hs with blocks := hs.blocks.trans ?_ }
  rw [List.append_assoc]
  refine List.Perm.append_left ys ?_
  exact (List.perm_append_singleton p _).trans (List.perm_cons_erase hheld).symm

theorem settled_flushAll (hc : t.cache.Stacks P ys) : Settled l (ys ++ t.held) t.flushAll := by
  have hs : Settled l (ys ++ t.held ++ []) t.flushAll :=
    settled_flushTurn hc hc.top.le (Or.inl rfl)
  rwa [List.append_nil] at hs

end Local

/-! ### What the accesses of others leave -/

section Others

variable {c : ThreadLocalCache} {l : SPSCFreeList} {k : Call}

theorem CallOk.setRp (h : CallOk c l k) (hk : k.popping = false) :
    CallOk c { l with rp := l.rp + 1 } k := by
  cases k with
  | idle => trivial
  | refill n a =>
    refine ⟨h.1, ?_⟩
    cases a with
    | loadWp _ | loadSlot _ | storeRp _ _ => cases hk
    | _ => trivial
  | flush n next f => exact ⟨h.1, h.2.1, h.2.2.setRp⟩

theorem CallOk.storeSlot (h : CallOk c l k) (hk : k.pushing = false) (hw : l.WellFormed)
    (hroom : l.wp < l.rp + l.cap.toNat) (x : UInt64) : CallOk c (l.storeSlot l.wp x) k := by
  cases k with
  | idle => trivial
  | refill n a => exact ⟨h.1, h.2.storeSlot hw hroom x⟩
  | flush n next f =>
    refine ⟨h.1, h.2.1, ?_⟩
    cases f with
    | loadRp _ _ | storeSlot _ _ | storeWp _ _ => cases hk
    | _ => trivial

theorem CallOk.setWp (h : CallOk c l k) (hk : k.pushing = false) :
    CallOk c { l with wp := l.wp + 1 } k := by
  cases k with
  | idle => trivial
  | refill n a => exact ⟨h.1, h.2.setWp⟩
  | flush n next f =>
    refine ⟨h.1, h.2.1, ?_⟩
    cases f with
    | loadRp _ _ | storeSlot _ _ | storeWp _ _ => cases hk
    | _ => trivial

end Others

/-! ### What every step keeps -/

/-- No thread but `i` is in a call of that kind. -/
def Alone (s : State) (i : Nat) (busy : Call → Bool) : Prop :=
  ∀ j (u : Thread), s.threads[j]? = some u → j ≠ i → busy u.call = false

def AtMostOne (s : State) (busy : Call → Bool) : Prop :=
  ∀ i (t : Thread), s.threads[i]? = some t → busy t.call = true → Alone s i busy

/-- `bs` are the blocks of the pool. -/
structure Kept (bs : List UInt64) (s : State) : Prop where
  nonNull : ∀ x ∈ bs, x ≠ 0
  wellFormed : s.pool.freelist.WellFormed
  size : s.pool.freelist.cap.toNat = bs.length
  order : s.pool.freelist.rp ≤ s.pool.freelist.wp
  stack : ∀ t ∈ s.threads, t.cache.Stacks t.cache.params t.cache.items
  call : ∀ t ∈ s.threads, CallOk t.cache s.pool.freelist t.call
  popping : AtMostOne s Call.popping
  pushing : AtMostOne s Call.pushing
  places : (places s).Perm bs

/-- What thread `i` may do to the pool and to itself. -/
structure Hands (s : State) (i : Nat) (t : Thread) (m : MemoryPool) (t' : Thread) : Prop where
  wellFormed : m.freelist.WellFormed
  size : m.freelist.cap = s.pool.freelist.cap
  order : m.freelist.rp ≤ m.freelist.wp
  stack : t'.cache.Stacks t'.cache.params t'.cache.items
  call : CallOk t'.cache m.freelist t'.call
  others : ∀ j (u : Thread), s.threads[j]? = some u → j ≠ i → CallOk u.cache m.freelist u.call
  popping : t'.call.popping = true → Alone s i Call.popping
  pushing : t'.call.pushing = true → Alone s i Call.pushing
  blocks : (m.freelist.items ++ t'.blocks).Perm (s.pool.freelist.items ++ t.blocks)

section Step

variable {bs : List UInt64} {s u : State} {i : Nat} {t t' : Thread} {m : MemoryPool} {l : Label}
  {o : List Event} {busy : Call → Bool}

theorem places_perm (hi : s.threads[i]? = some t) :
    (places s).Perm (s.pool.freelist.items ++ t.blocks ++
      (s.threads.eraseIdx i).flatMap Thread.blocks) := by
  rw [places, List.append_assoc]
  exact (flatMap_perm_eraseIdx hi).append_left _

theorem getElem?_set_cases (hi : s.threads[i]? = some t) {j : Nat} {v : Thread}
    (hj : (s.threads.set i t')[j]? = some v) :
    j = i ∧ v = t' ∨ j ≠ i ∧ s.threads[j]? = some v := by
  obtain ⟨hlt, -⟩ := List.getElem?_eq_some_iff.mp hi
  by_cases hji : j = i
  · subst hji
    rw [List.getElem?_set_self hlt] at hj
    exact Or.inl ⟨rfl, (Option.some.inj hj).symm⟩
  · rw [List.getElem?_set_ne (Ne.symm hji)] at hj
    exact Or.inr ⟨hji, hj⟩

theorem AtMostOne.update (h : AtMostOne s busy) (hi : s.threads[i]? = some t)
    (ht : busy t'.call = true → Alone s i busy) :
    AtMostOne { pool := m, threads := s.threads.set i t' } busy := by
  intro j v hj hv k w hk hkj
  rcases getElem?_set_cases hi hj with ⟨rfl, rfl⟩ | ⟨hji, hj'⟩
  · rcases getElem?_set_cases hi hk with ⟨rfl, -⟩ | ⟨-, hk'⟩
    · exact absurd rfl hkj
    · exact ht hv k w hk' hkj
  · rcases getElem?_set_cases hi hk with ⟨rfl, rfl⟩ | ⟨-, hk'⟩
    · rw [Bool.eq_false_iff]
      intro hw
      rw [ht hw j v hj' hji] at hv
      cases hv
    · exact h j v hj' hv k w hk' hkj

theorem Kept.update (h : Kept bs s) (hi : s.threads[i]? = some t) (hh : Hands s i t m t') :
    Kept bs { pool := m, threads := s.threads.set i t' } where
  nonNull := h.nonNull
  wellFormed := hh.wellFormed
  size := by rw [hh.size, h.size]
  order := hh.order
  stack := by
    intro v hv
    rcases List.mem_or_eq_of_mem_set hv with hv | rfl
    · exact h.stack v hv
    · exact hh.stack
  call := by
    intro v hv
    obtain ⟨j, hj⟩ := List.mem_iff_getElem?.mp hv
    rcases getElem?_set_cases hi hj with ⟨-, rfl⟩ | ⟨hji, hj⟩
    · exact hh.call
    · exact hh.others j v hj hji
  popping := h.popping.update hi hh.popping
  pushing := h.pushing.update hi hh.pushing
  places := by
    refine List.Perm.trans ?_ ((places_perm hi).symm.trans h.places)
    refine ((flatMap_set_perm hi t').append_left _).trans ?_
    rw [← List.append_assoc]
    exact hh.blocks.append_right _

theorem Kept.hands (h : Kept bs s) (hm : m.freelist = s.pool.freelist)
    (hstack : t'.cache.Stacks t'.cache.params t'.cache.items)
    (hcall : CallOk t'.cache s.pool.freelist t'.call)
    (hpop : t'.call.popping = true → Alone s i Call.popping)
    (hpush : t'.call.pushing = true → Alone s i Call.pushing)
    (hperm : t'.blocks.Perm t.blocks) : Hands s i t m t' where
  wellFormed := hm ▸ h.wellFormed
  size := by rw [hm]
  order := hm ▸ h.order
  stack := hstack
  call := hm ▸ hcall
  others := fun j u hj _ => hm ▸ h.call u (List.mem_of_getElem? hj)
  popping := hpop
  pushing := hpush
  blocks := by
    rw [hm]
    exact hperm.append_left _

theorem Settled.hands {q : Thread × List Event} (hq : Settled s.pool.freelist t.blocks q)
    (h : Kept bs s) (hm : m.freelist = s.pool.freelist) : Hands s i t m q.1 := by
  refine h.hands hm hq.stack hq.call ?_ ?_ hq.blocks
  · intro hp
    rw [hq.popping] at hp
    cases hp
  · intro hp
    rw [hq.pushing] at hp
    cases hp

/-! ### One access to the pool -/

theorem Kept.length_le (h : Kept bs s) (hi : s.threads[i]? = some t) :
    s.pool.freelist.items.length + t.blocks.length ≤ bs.length := by
  have hlen := ((places_perm hi).symm.trans h.places).length_eq
  rw [List.length_append, List.length_append] at hlen
  omega

theorem Kept.empty_iff (h : Kept bs s) (hi : s.threads[i]? = some t) :
    SPSCFreeList.empty s.pool.freelist.rp s.pool.freelist.wp = true ↔
      s.pool.freelist.wp = s.pool.freelist.rp := by
  have hlen := h.length_le hi
  have hc := s.pool.freelist.cap.toNat_lt
  have horder := h.order
  rw [length_items] at hlen
  rw [h.size] at hc
  rw [SPSCFreeList.empty, decide_eq_true_iff, eq_comm, u64_inj_of_lt horder (by omega)]

/-- A thread that carries a block finds room for it. -/
theorem Kept.room (h : Kept bs s) (hi : s.threads[i]? = some t) (hpos : 0 < t.blocks.length) :
    s.pool.freelist.wp < s.pool.freelist.rp + s.pool.freelist.cap.toNat := by
  have hlen := h.length_le hi
  have horder := h.order
  have hsize := h.size
  rw [length_items] at hlen
  omega

theorem Kept.storeRp (h : Kept bs s) (hi : s.threads[i]? = some t) {n r : Nat} {p : UInt64}
    (hcall : t.call = .refill n (.storeRp r p)) :
    Hands s i t (s.pool.setRp (r + 1)) { t with call := .refill n (.count p) } := by
  have hok := h.call t (List.mem_of_getElem? hi)
  rw [hcall] at hok
  obtain ⟨htop, rfl, hlt, rfl⟩ := hok
  have halone := h.popping i t hi (by rw [hcall]; rfl)
  have hitems := items_storeRp hlt
  have hmem : s.pool.freelist.slots (s.pool.freelist.rp % s.pool.freelist.cap.toNat) ∈ bs := by
    refine ((places_perm hi).symm.trans h.places).subset ?_
    rw [hitems]
    exact List.mem_append_left _ (List.mem_append_left _ List.mem_cons_self)
  exact {
    wellFormed := h.wellFormed
    size := rfl
    order := hlt
    stack := h.stack t (List.mem_of_getElem? hi)
    call := ⟨htop, trivial⟩
    others := fun j u hj hji => (h.call u (List.mem_of_getElem? hj)).setRp (halone j u hj hji)
    popping := fun hp => Bool.noConfusion hp
    pushing := fun hp => Bool.noConfusion hp
    blocks := by
      rw [hitems]
      refine List.Perm.trans ?_ List.perm_middle
      refine List.Perm.append_left _ ?_
      rw [Thread.blocks, Thread.blocks, hcall]
      show (t.cache.items ++ t.held ++ (Alloc.count _).taken).Perm
        (_ :: (t.cache.items ++ t.held ++ []))
      rw [taken_count (h.nonNull _ hmem), List.append_nil]
      exact List.perm_append_singleton _ _ }

theorem Kept.storeSlot (h : Kept bs s) (hi : s.threads[i]? = some t) {n w : Nat}
    {next : Option UInt64} {p : UInt64} (hcall : t.call = .flush n next (.storeSlot p w)) :
    Hands s i t (s.pool.setSlot w p) { t with call := .flush n next (.storeWp p w) } := by
  have hok := h.call t (List.mem_of_getElem? hi)
  rw [hcall] at hok
  obtain ⟨hn, htop, rfl, hroom⟩ := hok
  have halone := h.pushing i t hi (by rw [hcall]; rfl)
  have hitems := items_storeSlot h.wellFormed h.order hroom p
  exact {
    wellFormed := h.wellFormed
    size := rfl
    order := h.order
    stack := h.stack t (List.mem_of_getElem? hi)
    call := by
      refine ⟨hn, htop, rfl, hroom, ?_⟩
      show Function.update s.pool.freelist.slots (s.pool.freelist.cell s.pool.freelist.wp) p
        (s.pool.freelist.wp % s.pool.freelist.cap.toNat) = p
      rw [h.wellFormed.cell_eq, Function.update_self]
    others := fun j u hj hji =>
      (h.call u (List.mem_of_getElem? hj)).storeSlot (halone j u hj hji) h.wellFormed hroom p
    popping := fun hp => Bool.noConfusion hp
    pushing := fun _ => halone
    blocks := by
      rw [Thread.blocks, Thread.blocks, hcall]
      exact List.Perm.append_right _ (List.Perm.of_eq hitems) }

theorem Kept.storeWp (h : Kept bs s) (hi : s.threads[i]? = some t) {n w : Nat}
    {next : Option UInt64} {p : UInt64} (hcall : t.call = .flush n next (.storeWp p w)) :
    Hands s i t (s.pool.setWp (w + 1)) { t with call := .flush n next .count } := by
  have hok := h.call t (List.mem_of_getElem? hi)
  rw [hcall] at hok
  obtain ⟨hn, htop, rfl, hroom, hslot⟩ := hok
  have halone := h.pushing i t hi (by rw [hcall]; rfl)
  have hitems := items_storeWp h.order
  rw [hslot] at hitems
  exact {
    wellFormed := h.wellFormed
    size := rfl
    order := h.order.trans (Nat.le_succ _)
    stack := h.stack t (List.mem_of_getElem? hi)
    call := ⟨hn, htop, trivial⟩
    others := fun j u hj hji => (h.call u (List.mem_of_getElem? hj)).setWp (halone j u hj hji)
    popping := fun hp => Bool.noConfusion hp
    pushing := fun hp => Bool.noConfusion hp
    blocks := by
      refine (List.Perm.of_eq (congrArg (fun l => l ++ _) hitems)).trans ?_
      rw [List.append_assoc]
      refine List.Perm.append_left _ ?_
      rw [Thread.blocks, Thread.blocks, hcall]
      show (p :: (t.cache.items ++ t.held ++ next.toList)).Perm
        (t.cache.items ++ t.held ++ p :: next.toList)
      exact List.perm_middle.symm }

theorem Kept.moveOn (h : Kept bs s) (hi : s.threads[i]? = some t) {k : Call}
    (hcall : CallOk t.cache s.pool.freelist k)
    (hpop : k.popping = true → Alone s i Call.popping)
    (hpush : k.pushing = true → Alone s i Call.pushing) (hblocks : k.blocks = t.call.blocks) :
    Hands s i t s.pool { t with call := k } := by
  refine h.hands rfl (h.stack t (List.mem_of_getElem? hi)) hcall hpop hpush ?_
  rw [Thread.blocks, Thread.blocks, hblocks]

theorem Kept.received (h : Kept bs s) (hi : s.threads[i]? = some t) {n : Nat} {p : UInt64}
    (hcall : t.call = .refill n (.count p)) (hm : m.freelist = s.pool.freelist) :
    Hands s i t m (t.received n p).1 ∧ ∀ e ∈ (t.received n p).2, e.Clean := by
  have hok := h.call t (List.mem_of_getElem? hi)
  rw [hcall] at hok
  have hroom : t.cache.items.length + n < t.cache.params.localCapacity := by
    rw [ThreadLocalCache.length_items]
    exact hok.1
  have hq := settled_received (l := s.pool.freelist) (h.stack t (List.mem_of_getElem? hi)) hroom p
  have hblocks : t.blocks = t.cache.items ++ t.held ++ (Alloc.count p).taken := by
    rw [Thread.blocks, hcall]
    rfl
  rw [← hblocks] at hq
  exact ⟨hq.hands h hm, hq.clean⟩

theorem Kept.flushed (h : Kept bs s) (hi : s.threads[i]? = some t) {n : Nat}
    {next : Option UInt64} (hcall : t.call = .flush n next .count)
    (hm : m.freelist = s.pool.freelist) :
    Hands s i t m (t.flushTurn next n).1 ∧ ∀ e ∈ (t.flushTurn next n).2, e.Clean := by
  have hok := h.call t (List.mem_of_getElem? hi)
  rw [hcall] at hok
  obtain ⟨hn, htop, -⟩ := hok
  rw [← ThreadLocalCache.length_items] at hn htop
  have hblocks : t.blocks = t.cache.items ++ t.held ++ next.toList := by
    rw [Thread.blocks, hcall]
    rfl
  have hq : Settled s.pool.freelist t.blocks (t.flushTurn next n) := by
    rw [hblocks]
    exact settled_flushTurn (h.stack t (List.mem_of_getElem? hi)) hn
      (Or.inr (Nat.lt_add_right n htop))
  exact ⟨hq.hands h hm, hq.clean⟩

theorem Kept.pop (h : Kept bs s) (hi : s.threads[i]? = some t) (hex : Exclusive s (.access i))
    {n : Nat} {a : Alloc} (hcall : t.call = .refill n a)
    (hstep : t.access s.pool = some (m, t', o)) :
    Hands s i t m t' ∧ ∀ e ∈ o, e.Clean := by
  have hok := h.call t (List.mem_of_getElem? hi)
  have halone : t.call.popping = true → Alone s i Call.popping := h.popping i t hi
  unfold Thread.access at hstep
  rw [hcall] at hok halone hstep
  obtain ⟨htop, hok⟩ := hok
  cases a with
  | idle => cases hstep
  | loadRp =>
    cases hstep
    have hfree := (hex t hi).1 (by rw [hcall]; rfl)
    refine ⟨h.moveOn hi ⟨htop, rfl⟩ ?_ (fun hp => Bool.noConfusion hp) ?_, by simp⟩
    · exact fun _ j u hj _ => hfree u (List.mem_of_getElem? hj)
    · rw [hcall]
      rfl
  | loadWp r =>
    obtain rfl : r = s.pool.freelist.rp := hok
    dsimp only [stepAlloc] at hstep
    by_cases hempty : SPSCFreeList.empty s.pool.freelist.rp s.pool.freelist.wp = true
    · rw [if_pos hempty] at hstep
      cases hstep
      refine ⟨h.moveOn hi ⟨htop, trivial⟩ (fun hp => Bool.noConfusion hp)
        (fun hp => Bool.noConfusion hp) ?_, by simp⟩
      rw [hcall]
      rfl
    · rw [if_neg hempty] at hstep
      cases hstep
      have hne : s.pool.freelist.rp ≠ s.pool.freelist.wp := by
        intro heq
        exact hempty ((h.empty_iff hi).mpr heq.symm)
      refine ⟨h.moveOn hi ⟨htop, rfl, lt_of_le_of_ne h.order hne⟩ (fun _ => halone rfl)
        (fun hp => Bool.noConfusion hp) ?_, by simp⟩
      rw [hcall]
      rfl
  | loadSlot r =>
    obtain ⟨rfl, hlt⟩ := hok
    cases hstep
    refine ⟨h.moveOn hi ⟨htop, rfl, hlt, ?_⟩ (fun _ => halone rfl)
      (fun hp => Bool.noConfusion hp) ?_, by simp⟩
    · show s.pool.freelist.slots (s.pool.freelist.cell s.pool.freelist.rp) = _
      rw [h.wellFormed.cell_eq]
    · rw [hcall]
      rfl
  | storeRp r p =>
    cases hstep
    exact ⟨h.storeRp hi hcall, by simp⟩
  | count p =>
    dsimp only [stepAlloc] at hstep
    by_cases hp : p = 0
    · rw [if_neg (not_not.mpr hp)] at hstep
      subst hp
      obtain ⟨rfl, hreceived⟩ := Prod.mk.inj (Option.some.inj hstep)
      have hdone := h.received (m := s.pool.countFailure) hi hcall rfl
      rwa [hreceived] at hdone
    · rw [if_pos hp] at hstep
      obtain ⟨rfl, hreceived⟩ := Prod.mk.inj (Option.some.inj hstep)
      have hdone := h.received (m := s.pool.countAlloc) hi hcall rfl
      rwa [hreceived] at hdone

theorem Kept.push (h : Kept bs s) (hi : s.threads[i]? = some t) (hex : Exclusive s (.access i))
    {n : Nat} {next : Option UInt64} {f : Free} (hcall : t.call = .flush n next f)
    (hstep : t.access s.pool = some (m, t', o)) :
    Hands s i t m t' ∧ ∀ e ∈ o, e.Clean := by
  have hok := h.call t (List.mem_of_getElem? hi)
  have halone : t.call.pushing = true → Alone s i Call.pushing := h.pushing i t hi
  have hblocks : t.blocks = t.cache.items ++ t.held ++ (f.pending ++ next.toList) := by
    rw [Thread.blocks, hcall]
    rfl
  unfold Thread.access at hstep
  rw [hcall] at hok halone hstep
  obtain ⟨hn, htop, hok⟩ := hok
  cases f with
  | idle => cases hstep
  | loadWp p =>
    cases hstep
    have hfree := (hex t hi).2 (by rw [hcall]; rfl)
    refine ⟨h.moveOn hi ⟨hn, htop, rfl⟩ (fun hp => Bool.noConfusion hp) ?_ ?_, by simp⟩
    · exact fun _ j u hj _ => hfree u (List.mem_of_getElem? hj)
    · rw [hcall]
      rfl
  | loadRp p w =>
    obtain rfl : w = s.pool.freelist.wp := hok
    have hroom := h.room hi (by rw [hblocks]; simp [Free.pending])
    have hfull : s.pool.freelist.full s.pool.freelist.wp s.pool.freelist.rp = false := by
      rw [Bool.eq_false_iff]
      intro hfull
      have := (full_iff h.order hroom.le).mp hfull
      omega
    dsimp only [stepFree] at hstep
    rw [if_neg (by rw [hfull]; exact Bool.false_ne_true)] at hstep
    cases hstep
    refine ⟨h.moveOn hi ⟨hn, htop, rfl, hroom⟩ (fun hp => Bool.noConfusion hp)
      (fun _ => halone rfl) ?_, by simp⟩
    rw [hcall]
    rfl
  | storeSlot p w =>
    cases hstep
    exact ⟨h.storeSlot hi hcall, by simp⟩
  | storeWp p w =>
    cases hstep
    exact ⟨h.storeWp hi hcall, by simp⟩
  | count =>
    obtain ⟨rfl, hturn⟩ := Prod.mk.inj (Option.some.inj hstep)
    have hdone := h.flushed (m := s.pool.countFree) hi hcall rfl
    rwa [hturn] at hdone

/-- A new call starts with an access to the cache. -/
theorem Kept.enter (h : Kept bs s) {call : Thread → Thread × List Event}
    (hcall : ∀ t, s.threads[i]? = some t → t.cache.Stacks t.cache.params t.cache.items →
      Settled s.pool.freelist (t.cache.items ++ t.held) (call t))
    (hstep : enter s i call = some (u, o)) : Kept bs u ∧ ∀ e ∈ o, e.Clean := by
  unfold Shared.enter at hstep
  cases hi : s.threads[i]? with
  | none =>
    rw [hi] at hstep
    cases hstep
  | some t =>
    rw [hi] at hstep
    dsimp only at hstep
    cases hidle : t.call with
    | idle =>
      rw [hidle] at hstep
      cases hstep
      have hq := hcall t hi (h.stack t (List.mem_of_getElem? hi))
      have hblocks : t.blocks = t.cache.items ++ t.held := by
        rw [Thread.blocks, hidle]
        exact List.append_nil _
      rw [← hblocks] at hq
      exact ⟨h.update hi (hq.hands h rfl), hq.clean⟩
    | _ =>
      rw [hidle] at hstep
      cases hstep

theorem Kept.step (h : Kept bs s) (hok : FreesHeld s l) (hex : Exclusive s l)
    (hstep : step s l = some (u, o)) : Kept bs u ∧ ∀ e ∈ o, e.Clean := by
  cases l with
  | alloc i => exact h.enter (fun t _ hc => settled_alloc hc) hstep
  | free i p =>
    refine h.enter ?_ hstep
    intro t hi hc
    obtain ⟨t', hi', hheld⟩ := hok
    obtain rfl := Option.some.inj (hi.symm.trans hi')
    exact settled_free hc hheld
  | flushAll i => exact h.enter (fun t _ hc => settled_flushAll hc) hstep
  | access i =>
    unfold Shared.step at hstep
    dsimp only at hstep
    cases hi : s.threads[i]? with
    | none =>
      rw [hi] at hstep
      cases hstep
    | some t =>
      rw [hi] at hstep
      dsimp only at hstep
      cases ha : t.access s.pool with
      | none =>
        rw [ha] at hstep
        cases hstep
      | some q =>
        obtain ⟨m, t', o'⟩ := q
        rw [ha] at hstep
        cases hstep
        cases hcall : t.call with
        | idle =>
          rw [Thread.access, hcall] at ha
          cases ha
        | refill n a =>
          obtain ⟨hh, hclean⟩ := h.pop hi hex hcall ha
          exact ⟨h.update hi hh, hclean⟩
        | flush n next f =>
          obtain ⟨hh, hclean⟩ := h.push hi hex hcall ha
          exact ⟨h.update hi hh, hclean⟩

end Step

/-! ### Every interleaving -/

section Run

variable {mmap : UInt64 → Option UInt64} {blockSize numBlocks : UInt64} {pool : MemoryPool}
  {params : List Params} {os : List Event} {s : State}

theorem kept_init (hm : Mmap mmap) (hp : construct mmap blockSize numBlocks = some pool)
    (h0 : ∀ x ∈ pool.blocks, x ≠ 0) (params : List Params) :
    Kept pool.blocks (init pool params) := by
  have hlists := lists_of_construct hm hp
  have hthreads : ∀ t ∈ (init pool params).threads, ∃ P, t = { cache := { params := P } } := by
    intro t ht
    obtain ⟨P, -, rfl⟩ := List.mem_map.mp ht
    exact ⟨P, rfl⟩
  have hnone : ∀ busy : Call → Bool, busy .idle = false →
      AtMostOne (init pool params) busy := by
    intro busy hidle i t hi ht
    obtain ⟨P, rfl⟩ := hthreads t (List.mem_of_getElem? hi)
    rw [hidle] at ht
    cases ht
  refine ⟨h0, hlists.wellFormed, ?_, hlists.order, ?_, ?_, hnone _ rfl, hnone _ rfl, ?_⟩
  · rw [length_blocks]
    exact hlists.size
  · intro t ht
    obtain ⟨P, rfl⟩ := hthreads t ht
    exact ⟨rfl, rfl, Nat.zero_le _⟩
  · intro t ht
    obtain ⟨P, rfl⟩ := hthreads t ht
    trivial
  · have hempty : (init pool params).threads.flatMap Thread.blocks = [] := by
      rw [List.flatMap_eq_nil_iff]
      intro t ht
      obtain ⟨P, rfl⟩ := hthreads t ht
      rfl
    rw [places, hempty, List.append_nil]
    exact List.Perm.of_eq hlists.items

/-- **Under the contract of the pool the threads conserve its blocks.**  In every
interleaving in which one thread at a time pops and one at a time pushes, each
block is in exactly one place, and neither a list nor a stack overflows. -/
theorem shared_conserves (hm : Mmap mmap) (hp : construct mmap blockSize numBlocks = some pool)
    (h0 : ∀ x ∈ pool.blocks, x ≠ 0)
    (h : Lib.Machine.Run machine (fun s l => FreesHeld s l ∧ Exclusive s l) (init pool params)
      os s) :
    (places s).Perm pool.blocks ∧ (places s).Nodup ∧
      ∀ e ∈ os, e ≠ .outOfRange ∧ ∀ x, e ≠ .lost x := by
  have hs : Kept pool.blocks s ∧ ∀ e ∈ os, e.Clean := by
    refine h.keeps_shown (kept_init hm hp h0 params) ?_
    intro t l u o ht hok hstep
    exact ht.step hok.1 hok.2 hstep
  obtain ⟨hkept, hclean⟩ := hs
  refine ⟨hkept.places, hkept.places.nodup_iff.mpr (nodup_blocks_of_construct hm hp), ?_⟩
  intro e he
  have hshown := hclean e he
  refine ⟨?_, ?_⟩
  · rintro rfl
    exact hshown
  · rintro x rfl
    exact hshown

def twoThreads : List Params := Cache.oneCache ++ Cache.oneCache

/-- Two threads allocate a block each, one after the other, and one flushes. -/
theorem shared_conserves_two :
    ∃ pool s os, construct smallMmap 64 2 = some pool ∧
      Lib.Machine.Run machine (fun s l => FreesHeld s l ∧ Exclusive s l) (init pool twoThreads)
        os s ∧
      os = [.allocated 65536, .allocated 65600, .freed, .flushed] ∧
      s.threads.map Thread.held = [[], [65600]] ∧ (places s).Perm pool.blocks := by
  have hp : construct smallMmap 64 2 = some (create 64 2 65536) := rfl
  obtain ⟨ls, hok, hexec⟩ : ∃ ls,
      machine.ExecOk (fun s l => FreesHeld s l ∧ Exclusive s l)
        (init (create 64 2 65536) twoThreads) ls ∧
      (machine.exec (init (create 64 2 65536) twoThreads) ls).map
        (fun q => (q.1.threads.map Thread.held, q.2)) =
        some ([[], [65600]], [.allocated 65536, .allocated 65600, .freed, .flushed]) := by
    refine ⟨List.flatten [.alloc 0 :: List.replicate 5 (.access 0),
      .alloc 1 :: List.replicate 5 (.access 1), [.free 0 65536, .flushAll 0],
      List.replicate 5 (.access 0)], ?_, ?_⟩
    · decide +kernel
    · decide +kernel
  obtain ⟨s, hrun, hheld⟩ :=
    Lib.Machine.exists_run_of_exec (fun s => s.threads.map Thread.held) hok hexec
  have h0 : (0 : UInt64) ∉ (create 64 2 65536).blocks := by decide +kernel
  obtain ⟨hplaces, -⟩ :=
    shared_conserves mmap_smallMmap hp (fun _ hx => ne_of_mem_of_not_mem hx h0) hrun
  exact ⟨_, s, _, hp, hrun, rfl, hheld, hplaces⟩

/-- **Two refills take one block.**  Both threads load `rp_` before either
stores it, and each of them is handed the first block of the list. -/
theorem handed_out_twice :
    ∃ pool s os, construct smallMmap 64 2 = some pool ∧
      Lib.Machine.Run machine FreesHeld (init pool twoThreads) os s ∧
      s.threads.map Thread.held = [[65536], [65536]] ∧ ¬(places s).Nodup := by
  have hp : construct smallMmap 64 2 = some (create 64 2 65536) := rfl
  obtain ⟨ls, hok, hexec⟩ : ∃ ls,
      machine.ExecOk FreesHeld (init (create 64 2 65536) twoThreads) ls ∧
      (machine.exec (init (create 64 2 65536) twoThreads) ls).map
        (fun q => ((q.1.threads.map Thread.held, places q.1), q.2)) =
        some (([[65536], [65536]], [65600, 65536, 65536]),
          [.allocated 65536, .allocated 65536]) := by
    refine ⟨List.flatten [[.alloc 0, .access 0], .alloc 1 :: List.replicate 5 (.access 1),
      List.replicate 4 (.access 0)], ?_, ?_⟩
    · decide +kernel
    · decide +kernel
  obtain ⟨s, hrun, hlast⟩ :=
    Lib.Machine.exists_run_of_exec (fun s => (s.threads.map Thread.held, places s)) hok hexec
  obtain ⟨hheld, hplaces⟩ := Prod.mk.inj hlast
  refine ⟨_, s, _, hp, hrun, hheld, ?_⟩
  rw [hplaces]
  decide

end Run

end HftComponents.Pool.Shared
