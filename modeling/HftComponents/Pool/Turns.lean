import HftComponents.Pool.Conservation

/-!
# Blocks are handed out in turn

The free list is a queue.  With one thread in `alloc` and another in `free`, the blocks
that `alloc` has returned, that which it is about to return, the list and the block that
`free` is about to put on it are together, in this order, the blocks of the
pool and then those that have been passed to `free` (`blocks_in_turn`): no block is
handed out before one that was free earlier.
-/

namespace HftComponents.Pool

open Lib.Ring SPSCFreeList

variable {s u : State} {o os : List Event} {l : Label} {ls : List Label} {bs : List UInt64}

/-- The blocks that `alloc` has returned. -/
def handed : List Event → List UInt64 :=
  List.filterMap fun
    | .allocated p => if p = 0 then none else some p
    | _ => none

/-- The blocks that have been passed to `free`. -/
def given : List Label → List UInt64 :=
  List.filterMap fun
    | .free p => some p
    | _ => none

theorem given_cons (l : Label) (ls : List Label) : given (l :: ls) = given [l] ++ given ls := by
  simp only [given, List.filterMap_cons, List.filterMap_nil]
  split <;> rfl

/-- The blocks on their way through the pool, the oldest first. -/
def line (s : State) : List UInt64 := s.alloc.taken ++ s.pool.freelist.items ++ s.free.pending

theorem line_eq {T A P : List UInt64} (hT : s.alloc.taken = T)
    (hA : s.pool.freelist.items = A) (hP : s.free.pending = P) : line s = T ++ A ++ P := by
  rw [line, hT, hA, hP]

namespace Conserved

theorem line_alloc (h : Conserved bs s) (hm : AllocMoves s u o) : handed o ++ line u = line s := by
  have halloc := h.alloc
  cases hm with
  | start hp | loadRp hp | empty hp hempty | loadWp hp hempty | loadSlot hp =>
    rw [line_eq (s := s) (T := []) (by rw [hp]; rfl) rfl rfl]
    rfl
  | @storeRp r p hp =>
    rw [hp] at halloc
    obtain ⟨rfl, hlt, rfl⟩ := halloc
    have hitems := items_storeRp hlt
    have hmem : s.pool.freelist.slots (s.pool.freelist.rp % s.pool.freelist.cap.toNat) ∈ bs := by
      refine h.places.subset ?_
      rw [Pool.places, hitems]
      simp
    rw [line_eq (s := s) (T := []) (by rw [hp]; rfl) hitems rfl,
      line_eq (taken_count (h.nonNull _ hmem)) rfl rfl]
    simp [handed, MemoryPool.setRp]
  | @returned p hp hne =>
    rw [line_eq (s := s) (T := [p]) (by rw [hp]; exact taken_count hne) rfl rfl]
    simp [handed, hne, line, Alloc.taken, MemoryPool.countAlloc]
  | failed hp =>
    rw [line_eq (s := s) (T := []) (by rw [hp]; rfl) rfl rfl]
    rfl

theorem line_free {a : Option UInt64} (h : Conserved bs s) (hm : FreeMoves s a u o) :
    handed o ++ line u = line s ++ a.toList := by
  have hfree := h.free
  cases hm with
  | start hp =>
    rw [line_eq (s := s) rfl rfl (P := []) (by rw [hp]; rfl)]
    simp [handed, line, Free.pending]
  | loadWp hp | loadRp hp hfull =>
    rw [line_eq (s := s) rfl rfl (by rw [hp])]
    simp [handed, line, Free.pending]
  | overflow hp hfull =>
    rw [h.not_full hp] at hfull
    cases hfull
  | @storeSlot p w hp =>
    rw [hp] at hfree
    obtain ⟨rfl, hroom⟩ := hfree
    have hitems := items_storeSlot h.wellFormed h.order hroom p
    rw [line_eq (s := s) rfl rfl (P := [p]) (by rw [hp]; rfl), line_eq (A := _) rfl hitems rfl]
    simp [handed, Free.pending]
  | @storeWp p w hp =>
    rw [hp] at hfree
    obtain ⟨rfl, hroom, hslot⟩ := hfree
    have hitems := items_storeWp h.order
    rw [hslot] at hitems
    rw [line_eq (s := s) rfl rfl (P := [p]) (by rw [hp]; rfl), line_eq rfl hitems rfl]
    simp [handed, Free.pending]
  | freed hp =>
    rw [line_eq (s := s) rfl rfl (P := []) (by rw [hp]; rfl)]
    simp [handed, line, Free.pending, MemoryPool.countFree]

theorem line_step (h : Conserved bs s) (hs : Pool.step s l = some (u, o)) :
    handed o ++ line u = line s ++ given [l] := by
  cases l with
  | alloc =>
    have hm : AllocMoves s u o := by
      unfold Pool.step at hs
      cases hp : s.alloc with
      | idle =>
        rw [hp] at hs
        cases hs
        exact .start hp
      | _ =>
        rw [hp] at hs
        cases hs
    rw [h.line_alloc hm]
    exact (List.append_nil _).symm
  | allocator =>
    rw [h.line_alloc (stepAlloc_moves hs)]
    exact (List.append_nil _).symm
  | free p =>
    have hm : FreeMoves s (some p) u o := by
      unfold Pool.step at hs
      cases hp : s.free with
      | idle =>
        rw [hp] at hs
        cases hs
        exact .start hp
      | _ =>
        rw [hp] at hs
        cases hs
    exact h.line_free hm
  | freer => exact h.line_free (stepFree_moves hs)

theorem line_exec (h : Conserved bs s) (hok : machine.ExecOk FreesHeld s ls)
    (hs : machine.exec s ls = some (u, os)) : handed os ++ line u = line s ++ given ls := by
  induction ls generalizing s os with
  | nil =>
    cases hs
    exact (List.append_nil _).symm
  | cons l ls ih =>
    obtain ⟨t, o, os', hst, hrest, rfl⟩ := Lib.Machine.exec_cons_some hs
    have hrun := ih (h.step hok.1 hst) (hok.2 _ hst) hrest
    calc handed (o ++ os') ++ line u = handed o ++ (handed os' ++ line u) := by
          rw [handed, List.filterMap_append, List.append_assoc]
      _ = line s ++ given [l] ++ given ls := by
          rw [hrun, ← List.append_assoc, h.line_step hst]
      _ = line s ++ given (l :: ls) := by rw [List.append_assoc, ← given_cons]

end Conserved

/-- Whether a concrete schedule keeps the contract of `free` can be computed. -/
instance decidableFreesHeld (s : State) : (l : Label) → Decidable (FreesHeld s l)
  | .free p => inferInstanceAs (Decidable (p ∈ s.held))
  | .alloc | .allocator | .freer => isTrue trivial

/-- **The blocks of a pool are handed out in turn.** -/
theorem blocks_in_turn {blockSize numBlocks backing : UInt64}
    (hfit : Fits blockSize numBlocks backing)
    (hok : machine.ExecOk FreesHeld (init (MemoryPool.create blockSize numBlocks backing)) ls)
    (h : machine.exec (init (MemoryPool.create blockSize numBlocks backing)) ls = some (s, os)) :
    handed os ++ line s = (MemoryPool.create blockSize numBlocks backing).blocks ++ given ls := by
  have hline := (conserved_init hfit).line_exec hok h
  rw [hline, line_eq (T := []) rfl (MemoryPool.items_create hfit).2.2.2 (P := []) rfl,
    List.nil_append, List.append_nil]

/-- Of two blocks, the first is given back while the second is out, and comes next. -/
theorem blocks_in_turn_two :
    ∃ ls s os, machine.exec (init (MemoryPool.create 64 2 4096)) ls = some (s, os) ∧
      handed os = [4096, 4160, 4096] ∧ given ls = [4096] ∧
      handed os ++ line s = (MemoryPool.create 64 2 4096).blocks ++ given ls := by
  let ls : List Label := [.alloc] ++ List.replicate 5 .allocator ++ [.alloc] ++
    List.replicate 5 .allocator ++ [.free 4096] ++ List.replicate 5 .freer ++ [.alloc] ++
    List.replicate 5 .allocator
  obtain ⟨⟨s, os⟩, h, hhanded⟩ := Option.map_eq_some_iff.mp
    (show (machine.exec (init (MemoryPool.create 64 2 4096)) ls).map (fun q => handed q.2) =
      some [4096, 4160, 4096] by decide +kernel)
  exact ⟨ls, s, os, h, hhanded, by decide, blocks_in_turn ⟨by decide, by decide, by decide,
    by decide, by decide⟩ (by decide +kernel) h⟩

end HftComponents.Pool
