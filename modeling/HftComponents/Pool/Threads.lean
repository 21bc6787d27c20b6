import HftComponents.Lib.Machine
import HftComponents.Pool.FreeList

/-!
# Two threads on one pool

`MemoryPool::alloc` and `MemoryPool::free`, with the `pop` and `push` of the
free list in them, cut at every access to shared memory.  One thread calls
`alloc`, the other `free`; a run interleaves their steps.

`held` is not the pool's: it lists the blocks that `alloc` has returned and
that have not been passed to `free` since.  The contract of `free` is
`FreesHeld`: it is called on one of them.  The asserts of `free` test parts of
that contract, and are no steps.
-/

namespace HftComponents.Pool

open Lib.Ring

/-- Where the allocating thread is in `alloc`. -/
inductive Alloc
  | idle
  | loadRp
  | loadWp (r : Nat)
  | loadSlot (r : Nat)
  | storeRp (r : Nat) (p : UInt64)
  | count (p : UInt64)
  deriving DecidableEq, Repr

/-- Where the freeing thread is in `free`. -/
inductive Free
  | idle
  | loadWp (p : UInt64)
  | loadRp (p : UInt64) (w : Nat)
  | storeSlot (p : UInt64) (w : Nat)
  | storeWp (p : UInt64) (w : Nat)
  | count
  deriving DecidableEq, Repr

structure State where
  pool : MemoryPool
  alloc : Alloc := .idle
  free : Free := .idle
  held : List UInt64 := []

inductive Label
  | alloc
  | allocator
  | free (p : UInt64)
  | freer

/-- `allocated` is what `alloc` returns; `overflow` is a `push` that finds the
list full, after which the block is in no list. -/
inductive Event
  | allocated (p : UInt64)
  | freed
  | overflow (p : UInt64)
  deriving DecidableEq, Repr

namespace MemoryPool

def setSlot (m : MemoryPool) (w : Nat) (p : UInt64) : MemoryPool :=
  { m with freelist := m.freelist.storeSlot w p }

def setWp (m : MemoryPool) (w : Nat) : MemoryPool := { m with freelist := { m.freelist with wp := w } }

def setRp (m : MemoryPool) (r : Nat) : MemoryPool := { m with freelist := { m.freelist with rp := r } }

def countAlloc (m : MemoryPool) : MemoryPool :=
  { m with stats := { m.stats with allocs := m.stats.allocs + 1 } }

def countFailure (m : MemoryPool) : MemoryPool :=
  { m with stats := { m.stats with allocFailures := m.stats.allocFailures + 1 } }

def countFree (m : MemoryPool) : MemoryPool :=
  { m with stats := { m.stats with frees := m.stats.frees + 1 } }

end MemoryPool

def stepAlloc (s : State) : Option (State × List Event) :=
  match s.alloc with
  | .idle => none
  | .loadRp => some ({ s with alloc := .loadWp s.pool.freelist.rp }, [])
  | .loadWp r =>
    if SPSCFreeList.empty r s.pool.freelist.wp then some ({ s with alloc := .count 0 }, [])
    else some ({ s with alloc := .loadSlot r }, [])
  | .loadSlot r =>
    some ({ s with alloc := .storeRp r (s.pool.freelist.slots (s.pool.freelist.cell r)) }, [])
  | .storeRp r p => some ({ s with pool := s.pool.setRp (r + 1), alloc := .count p }, [])
  | .count p =>
    if p ≠ 0 then
      some ({ s with pool := s.pool.countAlloc, alloc := .idle, held := p :: s.held },
        [.allocated p])
    else some ({ s with pool := s.pool.countFailure, alloc := .idle }, [.allocated 0])

def stepFree (s : State) : Option (State × List Event) :=
  match s.free with
  | .idle => none
  | .loadWp p => some ({ s with free := .loadRp p s.pool.freelist.wp }, [])
  | .loadRp p w =>
    if s.pool.freelist.full w s.pool.freelist.rp then
      some ({ s with free := .count }, [.overflow p])
    else some ({ s with free := .storeSlot p w }, [])
  | .storeSlot p w => some ({ s with pool := s.pool.setSlot w p, free := .storeWp p w }, [])
  | .storeWp _ w => some ({ s with pool := s.pool.setWp (w + 1), free := .count }, [])
  | .count => some ({ s with pool := s.pool.countFree, free := .idle }, [.freed])

def step (s : State) : Label → Option (State × List Event)
  | .alloc =>
    match s.alloc with
    | .idle => some ({ s with alloc := .loadRp }, [])
    | _ => none
  | .allocator => stepAlloc s
  | .free p =>
    match s.free with
    | .idle => some ({ s with free := .loadWp p, held := s.held.erase p }, [])
    | _ => none
  | .freer => stepFree s

def machine : Lib.Machine State Label Event := ⟨step⟩

def init (pool : MemoryPool) : State := { pool := pool }

/-- The caller frees only what it holds. -/
def FreesHeld (s : State) : Label → Prop
  | .free p => p ∈ s.held
  | _ => True

/-- The block that an `alloc` in progress has taken off the list. -/
def Alloc.taken : Alloc → List UInt64
  | .count p => if p = 0 then [] else [p]
  | _ => []

/-- The block that a `free` in progress has not put on the list yet. -/
def Free.pending : Free → List UInt64
  | .loadWp p => [p]
  | .loadRp p _ => [p]
  | .storeSlot p _ => [p]
  | .storeWp p _ => [p]
  | _ => []

/-! ### What a step can do -/

inductive AllocMoves : State → State → List Event → Prop
  | start {s : State} (hp : s.alloc = .idle) : AllocMoves s { s with alloc := .loadRp } []
  | loadRp {s : State} (hp : s.alloc = .loadRp) :
      AllocMoves s { s with alloc := .loadWp s.pool.freelist.rp } []
  | empty {s : State} {r : Nat} (hp : s.alloc = .loadWp r)
      (hempty : SPSCFreeList.empty r s.pool.freelist.wp = true) :
      AllocMoves s { s with alloc := .count 0 } []
  | loadWp {s : State} {r : Nat} (hp : s.alloc = .loadWp r)
      (hempty : SPSCFreeList.empty r s.pool.freelist.wp = false) :
      AllocMoves s { s with alloc := .loadSlot r } []
  | loadSlot {s : State} {r : Nat} (hp : s.alloc = .loadSlot r) :
      AllocMoves s
        { s with alloc := .storeRp r (s.pool.freelist.slots (s.pool.freelist.cell r)) } []
  | storeRp {s : State} {r : Nat} {p : UInt64} (hp : s.alloc = .storeRp r p) :
      AllocMoves s { s with pool := s.pool.setRp (r + 1), alloc := .count p } []
  | returned {s : State} {p : UInt64} (hp : s.alloc = .count p) (hne : p ≠ 0) :
      AllocMoves s { s with pool := s.pool.countAlloc, alloc := .idle, held := p :: s.held }
        [.allocated p]
  | failed {s : State} (hp : s.alloc = .count 0) :
      AllocMoves s { s with pool := s.pool.countFailure, alloc := .idle } [.allocated 0]

/-- The moves of the freeing thread; `p` is what a new call passes. -/
inductive FreeMoves : State → Option UInt64 → State → List Event → Prop
  | start {s : State} {p : UInt64} (hp : s.free = .idle) :
      FreeMoves s (some p) { s with free := .loadWp p, held := s.held.erase p } []
  | loadWp {s : State} {p : UInt64} (hp : s.free = .loadWp p) :
      FreeMoves s none { s with free := .loadRp p s.pool.freelist.wp } []
  | overflow {s : State} {p : UInt64} {w : Nat} (hp : s.free = .loadRp p w)
      (hfull : s.pool.freelist.full w s.pool.freelist.rp = true) :
      FreeMoves s none { s with free := .count } [.overflow p]
  | loadRp {s : State} {p : UInt64} {w : Nat} (hp : s.free = .loadRp p w)
      (hfull : s.pool.freelist.full w s.pool.freelist.rp = false) :
      FreeMoves s none { s with free := .storeSlot p w } []
  | storeSlot {s : State} {p : UInt64} {w : Nat} (hp : s.free = .storeSlot p w) :
      FreeMoves s none { s with pool := s.pool.setSlot w p, free := .storeWp p w } []
  | storeWp {s : State} {p : UInt64} {w : Nat} (hp : s.free = .storeWp p w) :
      FreeMoves s none { s with pool := s.pool.setWp (w + 1), free := .count } []
  | freed {s : State} (hp : s.free = .count) :
      FreeMoves s none { s with pool := s.pool.countFree, free := .idle } [.freed]

theorem stepAlloc_moves {s u : State} {o : List Event} (h : stepAlloc s = some (u, o)) :
    AllocMoves s u o := by
  unfold stepAlloc at h
  cases hp : s.alloc with
  | idle =>
    rw [hp] at h
    cases h
  | loadRp =>
    rw [hp] at h
    obtain ⟨rfl, rfl⟩ := Prod.mk.inj (Option.some.inj h)
    exact .loadRp hp
  | loadWp r =>
    rw [hp] at h
    dsimp only at h
    split at h
    · obtain ⟨rfl, rfl⟩ := Prod.mk.inj (Option.some.inj h)
      exact .empty hp ‹_›
    · obtain ⟨rfl, rfl⟩ := Prod.mk.inj (Option.some.inj h)
      exact .loadWp hp (Bool.eq_false_iff.mpr ‹_›)
  | loadSlot r =>
    rw [hp] at h
    obtain ⟨rfl, rfl⟩ := Prod.mk.inj (Option.some.inj h)
    exact .loadSlot hp
  | storeRp r p =>
    rw [hp] at h
    obtain ⟨rfl, rfl⟩ := Prod.mk.inj (Option.some.inj h)
    exact .storeRp hp
  | count p =>
    rw [hp] at h
    dsimp only at h
    split at h
    · obtain ⟨rfl, rfl⟩ := Prod.mk.inj (Option.some.inj h)
      exact .returned hp ‹_›
    · rename_i hzero
      obtain rfl : p = 0 := not_not.mp hzero
      obtain ⟨rfl, rfl⟩ := Prod.mk.inj (Option.some.inj h)
      exact .failed hp

theorem stepFree_moves {s u : State} {o : List Event} (h : stepFree s = some (u, o)) :
    FreeMoves s none u o := by
  unfold stepFree at h
  cases hp : s.free with
  | idle =>
    rw [hp] at h
    cases h
  | loadWp p =>
    rw [hp] at h
    obtain ⟨rfl, rfl⟩ := Prod.mk.inj (Option.some.inj h)
    exact .loadWp hp
  | loadRp p w =>
    rw [hp] at h
    dsimp only at h
    split at h
    · obtain ⟨rfl, rfl⟩ := Prod.mk.inj (Option.some.inj h)
      exact .overflow hp ‹_›
    · obtain ⟨rfl, rfl⟩ := Prod.mk.inj (Option.some.inj h)
      exact .loadRp hp (Bool.eq_false_iff.mpr ‹_›)
  | storeSlot p w =>
    rw [hp] at h
    obtain ⟨rfl, rfl⟩ := Prod.mk.inj (Option.some.inj h)
    exact .storeSlot hp
  | storeWp p w =>
    rw [hp] at h
    obtain ⟨rfl, rfl⟩ := Prod.mk.inj (Option.some.inj h)
    exact .storeWp hp
  | count =>
    rw [hp] at h
    obtain ⟨rfl, rfl⟩ := Prod.mk.inj (Option.some.inj h)
    exact .freed hp

/-- A step is one thread's. -/
theorem step_moves {s u : State} {l : Label} {o : List Event} (h : step s l = some (u, o)) :
    AllocMoves s u o ∨ ∃ a, FreeMoves s a u o ∧ ∀ p, a = some p → l = .free p := by
  cases l with
  | alloc =>
    unfold step at h
    cases hp : s.alloc with
    | idle =>
      rw [hp] at h
      obtain ⟨rfl, rfl⟩ := Prod.mk.inj (Option.some.inj h)
      exact Or.inl (.start hp)
    | _ =>
      rw [hp] at h
      cases h
  | allocator => exact Or.inl (stepAlloc_moves h)
  | free p =>
    unfold step at h
    cases hp : s.free with
    | idle =>
      rw [hp] at h
      obtain ⟨rfl, rfl⟩ := Prod.mk.inj (Option.some.inj h)
      refine Or.inr ⟨some p, .start hp, ?_⟩
      intro q hq
      rw [Option.some.inj hq]
    | _ =>
      rw [hp] at h
      cases h
  | freer => exact Or.inr ⟨none, stepFree_moves h, nofun⟩

theorem FreeMoves.alloc_eq {s u : State} {a : Option UInt64} {o : List Event}
    (h : FreeMoves s a u o) : u.alloc = s.alloc := by
  cases h <;> rfl

end HftComponents.Pool
