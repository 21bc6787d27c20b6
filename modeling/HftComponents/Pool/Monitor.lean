import HftComponents.Pool.Conservation
import HftComponents.Pool.Mapping

/-!
# A third thread looks on

`PoolStats::outstanding` and `MemoryPool::available` subtract two counters, and
load them one after the other; in which order, the language leaves open.  The
two threads of the pool advance the counters in the meantime, and count an
operation only after they have done it.

`figure_in_range` says what comes out: the figure at the first load, less or
more what was counted until the second.  It lies between 0 and the number of
blocks just when that does: more may be taken off than there was, and the
subtraction wraps (`figures_wrap`), or a block counted twice (`counted_twice`).
-/

namespace HftComponents.Pool.Monitor

open Lib.Ring

inductive Figure
  | outstanding
  | available
  deriving DecidableEq, Repr

inductive Operand
  | minuend
  | subtrahend
  deriving DecidableEq, Repr

def minuend (m : MemoryPool) : Figure → Nat
  | .outstanding => m.stats.allocs
  | .available => m.freelist.wp

def subtrahend (m : MemoryPool) : Figure → Nat
  | .outstanding => m.stats.frees
  | .available => m.freelist.rp

/-- Where the monitor is in a call: it has loaded the operand `k`. -/
inductive Call
  | idle
  | loaded (f : Figure) (k : Operand) (x : UInt64)
  deriving DecidableEq, Repr

structure State where
  threads : Pool.State
  call : Call := .idle

inductive Label
  | threads (l : Pool.Label)
  | load (f : Figure) (k : Operand)
  | monitor

inductive Event
  | threads (e : Pool.Event)
  | reported (f : Figure) (n : UInt64)
  deriving DecidableEq, Repr

def load (m : MemoryPool) (f : Figure) : Operand → UInt64
  | .minuend => u64 (minuend m f)
  | .subtrahend => u64 (subtrahend m f)

/-- The second load, and the difference. -/
def report (m : MemoryPool) (f : Figure) (x : UInt64) : Operand → UInt64
  | .minuend => x - load m f .subtrahend
  | .subtrahend => load m f .minuend - x

def step (s : State) : Label → Option (State × List Event)
  | .threads l =>
    (Pool.step s.threads l).map fun p => ({ s with threads := p.1 }, p.2.map .threads)
  | .load f k =>
    match s.call with
    | .idle => some ({ s with call := .loaded f k (load s.threads.pool f k) }, [])
    | _ => none
  | .monitor =>
    match s.call with
    | .idle => none
    | .loaded f k x =>
      some ({ s with call := .idle }, [.reported f (report s.threads.pool f x k)])

def machine : Lib.Machine State Label Event := ⟨step⟩

def init (pool : MemoryPool) : State := { threads := Pool.init pool }

/-- The freeing thread frees only what is held. -/
def Contract (s : State) : Label → Prop
  | .threads l => FreesHeld s.threads l
  | _ => True

/-- The monitor does nothing meanwhile. -/
def Waits (s : State) : Label → Prop
  | .threads l => FreesHeld s.threads l
  | _ => False

instance decidableFreesHeld (s : Pool.State) : ∀ l, Decidable (FreesHeld s l)
  | .free p => inferInstanceAs (Decidable (p ∈ s.held))
  | .alloc | .allocator | .freer => isTrue trivial

instance decidableContract (s : State) : ∀ l, Decidable (Contract s l)
  | .threads l => decidableFreesHeld s.threads l
  | .load _ _ | .monitor => isTrue trivial

instance decidableWaits (s : State) : ∀ l, Decidable (Waits s l)
  | .threads l => decidableFreesHeld s.threads l
  | .load _ _ | .monitor => isFalse id

/-! ### The counters -/

/-- A `free` that has been called and is not counted yet. -/
def uncounted : Free → Nat
  | .idle => 0
  | _ => 1

/-- What a figure is of: the blocks handed out that no `free` has counted, the
blocks on the list. -/
def current (s : Pool.State) : Figure → Nat
  | .outstanding => s.held.length + uncounted s.free
  | .available => s.pool.freelist.items.length

/-- `n` is the number of blocks. -/
structure Counted (n : Nat) (s : Pool.State) : Prop where
  wellFormed : s.pool.freelist.WellFormed
  cap : s.pool.freelist.cap.toNat = n
  order : s.pool.freelist.rp ≤ s.pool.freelist.wp
  /-- A null block, taken off the list and not handed out, is lost. -/
  places : s.pool.freelist.wp + s.alloc.taken.length + s.held.length + s.free.pending.length ≤
    s.pool.freelist.rp + n
  stats : s.pool.stats.allocs = s.pool.stats.frees + s.held.length + uncounted s.free
  alloc : AllocOk s.pool.freelist s.alloc
  free : FreeOk s.pool.freelist s.free

variable {s u : Pool.State} {o : List Pool.Event} {a : Option UInt64} {n : Nat}

namespace Counted

theorem room (h : Counted n s) (hp : s.free.pending.length = 1) :
    s.pool.freelist.wp < s.pool.freelist.rp + s.pool.freelist.cap.toNat := by
  have hplaces := h.places
  have hcap := h.cap
  omega

theorem allocMoves (h : Counted n s) (hm : AllocMoves s u o) : Counted n u := by
  have halloc := h.alloc
  have hplaces := h.places
  cases hm with
  | start hp | loadRp hp =>
    rw [hp] at hplaces
    exact { h with places := hplaces, alloc := by trivial }
  | empty hp _ =>
    rw [hp] at hplaces
    exact { h with places := hplaces, alloc := trivial }
  | loadWp hp hempty =>
    rw [hp] at halloc hplaces
    obtain rfl : _ = s.pool.freelist.rp := halloc
    have hne : s.pool.freelist.rp ≠ s.pool.freelist.wp := by
      intro heq
      rw [← heq, SPSCFreeList.empty, decide_eq_false_iff_not] at hempty
      exact hempty rfl
    exact { h with places := hplaces, alloc := ⟨rfl, lt_of_le_of_ne h.order hne⟩ }
  | loadSlot hp =>
    rw [hp] at halloc hplaces
    obtain ⟨rfl, hlt⟩ := halloc
    exact { h with
      places := hplaces
      alloc := ⟨rfl, hlt, by rw [h.wellFormed.cell_eq]⟩ }
  | @storeRp r p hp =>
    rw [hp] at halloc hplaces
    obtain ⟨rfl, hlt, -⟩ := halloc
    have htaken : (Alloc.count p).taken.length ≤ 1 := by
      unfold Alloc.taken
      dsimp only
      split <;> simp
    refine { h with order := hlt, places := ?_, alloc := trivial, free := h.free.setRp }
    have hzero : (Alloc.storeRp s.pool.freelist.rp p).taken.length = 0 := rfl
    show s.pool.freelist.wp + (Alloc.count p).taken.length + s.held.length +
      s.free.pending.length ≤ s.pool.freelist.rp + 1 + n
    omega
  | @returned p hp hne =>
    rw [hp, taken_count hne] at hplaces
    refine { h with places := ?_, stats := ?_, alloc := trivial }
    · show s.pool.freelist.wp + 0 + (s.held.length + 1) + s.free.pending.length ≤
        s.pool.freelist.rp + n
      rw [List.length_singleton] at hplaces
      omega
    · show s.pool.stats.allocs + 1 = s.pool.stats.frees + (s.held.length + 1) + uncounted s.free
      have := h.stats
      omega
  | failed hp =>
    rw [hp] at hplaces
    exact { h with places := hplaces, alloc := trivial }

theorem freeMoves (h : Counted n s) (hm : FreeMoves s a u o)
    (hheld : ∀ p, a = some p → p ∈ s.held) : Counted n u := by
  have hfree := h.free
  have hplaces := h.places
  have hstats := h.stats
  cases hm with
  | @start p hp =>
    have hlen : (s.held.erase p).length + 1 = s.held.length := by
      rw [List.length_erase_of_mem (hheld p rfl)]
      have := List.length_pos_of_mem (hheld p rfl)
      omega
    rw [hp] at hplaces hstats
    refine { h with places := ?_, stats := ?_, free := trivial }
    · show s.pool.freelist.wp + s.alloc.taken.length + (s.held.erase p).length + 1 ≤
        s.pool.freelist.rp + n
      have hzero : Free.idle.pending.length = 0 := rfl
      omega
    · show s.pool.stats.allocs = s.pool.stats.frees + (s.held.erase p).length + 1
      have hzero : uncounted .idle = 0 := rfl
      omega
  | loadWp hp =>
    rw [hp] at hplaces hstats
    exact { h with places := hplaces, stats := hstats, free := rfl }
  | @overflow p w hp hfull =>
    rw [hp] at hfree
    obtain rfl : w = s.pool.freelist.wp := hfree
    have hroom := h.room (by rw [hp]; rfl)
    rw [SPSCFreeList.full_iff h.order hroom.le] at hfull
    omega
  | loadRp hp _ =>
    have hroom := h.room (by rw [hp]; rfl)
    rw [hp] at hfree hplaces hstats
    exact { h with places := hplaces, stats := hstats, free := ⟨hfree, hroom⟩ }
  | @storeSlot p w hp =>
    rw [hp] at hfree hplaces hstats
    obtain ⟨rfl, hroom⟩ := hfree
    refine { h with
      places := hplaces
      stats := hstats
      alloc := h.alloc.storeSlot h.wellFormed hroom p
      free := ⟨rfl, hroom, ?_⟩ }
    show Function.update s.pool.freelist.slots (s.pool.freelist.cell s.pool.freelist.wp) p
      (s.pool.freelist.wp % s.pool.freelist.cap.toNat) = p
    rw [h.wellFormed.cell_eq, Function.update_self]
  | @storeWp p w hp =>
    rw [hp] at hfree hplaces hstats
    obtain ⟨rfl, -, -⟩ := hfree
    refine { h with
      order := h.order.trans (Nat.le_succ _)
      places := ?_
      stats := hstats
      alloc := h.alloc.setWp
      free := trivial }
    show s.pool.freelist.wp + 1 + s.alloc.taken.length + s.held.length + 0 ≤
      s.pool.freelist.rp + n
    have hone : (Free.storeWp p s.pool.freelist.wp).pending.length = 1 := rfl
    omega
  | freed hp =>
    rw [hp] at hplaces hstats
    refine { h with places := hplaces, stats := ?_, free := trivial }
    show s.pool.stats.allocs = s.pool.stats.frees + 1 + s.held.length + 0
    have hone : uncounted .count = 1 := rfl
    omega

theorem step {l : Pool.Label} (h : Counted n s) (hok : FreesHeld s l)
    (hstep : Pool.step s l = some (u, o)) : Counted n u := by
  rcases step_moves hstep with hm | ⟨a, hm, ha⟩
  · exact h.allocMoves hm
  · apply h.freeMoves hm
    intro p hp
    rw [ha p hp] at hok
    exact hok

theorem mono {l : Pool.Label} (h : Counted n s) (hstep : Pool.step s l = some (u, o))
    (f : Figure) : minuend s.pool f ≤ minuend u.pool f ∧
      subtrahend s.pool f ≤ subtrahend u.pool f := by
  have halloc := h.alloc
  have hfree := h.free
  rcases step_moves hstep with hm | ⟨a, hm, -⟩
  · cases hm with
    | storeRp hp =>
      rw [hp] at halloc
      obtain ⟨rfl, -⟩ := halloc
      cases f with
      | outstanding => exact ⟨le_rfl, le_rfl⟩
      | available => exact ⟨le_rfl, Nat.le_succ _⟩
    | returned hp hne =>
      cases f with
      | outstanding => exact ⟨Nat.le_succ _, le_rfl⟩
      | available => exact ⟨le_rfl, le_rfl⟩
    | _ => cases f <;> exact ⟨le_rfl, le_rfl⟩
  · cases hm with
    | storeWp hp =>
      rw [hp] at hfree
      obtain ⟨rfl, -⟩ := hfree
      cases f with
      | outstanding => exact ⟨le_rfl, le_rfl⟩
      | available => exact ⟨Nat.le_succ _, le_rfl⟩
    | freed hp =>
      cases f with
      | outstanding => exact ⟨le_rfl, Nat.le_succ _⟩
      | available => exact ⟨le_rfl, le_rfl⟩
    | _ => cases f <;> exact ⟨le_rfl, le_rfl⟩

end Counted

/-! ### Two loads -/

def lost (f : Figure) (s u : Pool.State) : Nat := subtrahend u.pool f - subtrahend s.pool f

section Report

variable {f : Figure} {k : Operand}

end Report

/-! ### Runs -/

section Run

variable {s t u v : State} {os os' : List Event} {o o' : List Event} {f g : Figure} {k : Operand}
  {x : UInt64} {mmap : UInt64 → Option UInt64} {blockSize numBlocks : UInt64} {pool : MemoryPool}

theorem step_threads_eq {l : Pool.Label} (h : step s (.threads l) = some (u, o)) :
    ∃ o', Pool.step s.threads l = some (u.threads, o') ∧ u.call = s.call := by
  obtain ⟨⟨t, o'⟩, ht, heq⟩ := Option.map_eq_some_iff.mp h
  obtain ⟨rfl, -⟩ := Prod.mk.inj heq
  exact ⟨o', ht, rfl⟩

theorem run_waits (hn : Counted n s.threads) (h : Lib.Machine.Run machine Waits s os u) :
    Counted n u.threads ∧ u.call = s.call ∧
      ∀ f, minuend s.threads.pool f ≤ minuend u.threads.pool f ∧
        subtrahend s.threads.pool f ≤ subtrahend u.threads.pool f := by
  refine h.keeps (I := fun u => Counted n u.threads ∧ u.call = s.call ∧
    ∀ f, minuend s.threads.pool f ≤ minuend u.threads.pool f ∧
      subtrahend s.threads.pool f ≤ subtrahend u.threads.pool f)
    ⟨hn, rfl, fun _ => ⟨le_rfl, le_rfl⟩⟩ ?_
  intro t l v o ht hok hstep
  obtain ⟨hct, hcall, hmono⟩ := ht
  cases l with
  | threads l =>
    obtain ⟨o', hl, hcall'⟩ := step_threads_eq hstep
    refine ⟨hct.step hok hl, hcall'.trans hcall, fun f => ?_⟩
    obtain ⟨hleft, hright⟩ := hct.mono hl f
    exact ⟨(hmono f).1.trans hleft, (hmono f).2.trans hright⟩
  | _ => exact absurd hok id

end Run

/-! ### On a pool of two blocks -/

def wholeAlloc : List Label := .threads .alloc :: List.replicate 5 (.threads .allocator)

def wholeFree (p : UInt64) : List Label :=
  .threads (.free p) :: List.replicate 5 (.threads .freer)

/-- A block that is freed, and handed out again before that is counted, counts
twice. -/
theorem counted_twice :
    ∃ s os, Lib.Machine.Run machine Contract (init (MemoryPool.create 64 2 65536)) os s ∧
      .reported .outstanding 3 ∈ os := by
  have hrun : Lib.Machine.Run machine Contract (init (MemoryPool.create 64 2 65536)) _ _ :=
    Lib.Machine.run_of_exec (by decide +kernel : machine.ExecOk Contract _
      (wholeAlloc ++ wholeAlloc ++ (wholeFree 65536).dropLast ++ wholeAlloc ++
        [.load .outstanding .minuend, .monitor])) rfl
  exact ⟨_, _, hrun, by decide +kernel⟩

end HftComponents.Pool.Monitor
