import HftComponents.Pool.Threads

/-!
# Every block is in one place

At every moment each block of the pool is on the free list, taken by an `alloc`
in progress, held by a caller, or pending in a `free` in progress: the four
lists together are a permutation of the blocks (`Conserved.places`).  The list
is as large as their number, so a `free`, which carries a block, never finds it
full.

`pool_conserves` states it of every interleaving.
-/

namespace HftComponents.Pool

open Lib.Ring SPSCFreeList

variable {s u : State} {o : List Event} {a : Option UInt64} {bs : List UInt64}

/-- The places a block can be in. -/
def places (s : State) : List UInt64 :=
  s.pool.freelist.items ++ s.alloc.taken ++ s.held ++ s.free.pending

theorem places_eq {A T P : List UInt64} (hA : s.pool.freelist.items = A)
    (hT : s.alloc.taken = T) (hP : s.free.pending = P) : places s = A ++ T ++ s.held ++ P := by
  rw [places, hA, hT, hP]

theorem taken_count {p : UInt64} (hne : p ≠ 0) : (Alloc.count p).taken = [p] := if_neg hne

def AllocOk (l : SPSCFreeList) : Alloc → Prop
  | .loadWp r => r = l.rp
  | .loadSlot r => r = l.rp ∧ l.rp < l.wp
  | .storeRp r p => r = l.rp ∧ l.rp < l.wp ∧ p = l.slots (l.rp % l.cap.toNat)
  | _ => True

def FreeOk (l : SPSCFreeList) : Free → Prop
  | .loadRp _ w => w = l.wp
  | .storeSlot _ w => w = l.wp ∧ l.wp < l.rp + l.cap.toNat
  | .storeWp p w => w = l.wp ∧ l.wp < l.rp + l.cap.toNat ∧ l.slots (l.wp % l.cap.toNat) = p
  | _ => True

/-- `bs` are the blocks of the pool. -/
structure Conserved (bs : List UInt64) (s : State) : Prop where
  wellFormed : s.pool.freelist.WellFormed
  size : bs.length = s.pool.freelist.cap.toNat
  nodup : bs.Nodup
  nonNull : ∀ x ∈ bs, x ≠ 0
  order : s.pool.freelist.rp ≤ s.pool.freelist.wp
  places : (places s).Perm bs
  alloc : AllocOk s.pool.freelist s.alloc
  free : FreeOk s.pool.freelist s.free

namespace Conserved

theorem length_le (h : Conserved bs s) :
    s.pool.freelist.wp + s.free.pending.length ≤
      s.pool.freelist.rp + s.pool.freelist.cap.toNat := by
  have hlen := h.places.length_eq
  have hitems := length_items s.pool.freelist
  have horder := h.order
  rw [Pool.places, List.length_append, List.length_append, List.length_append, h.size] at hlen
  omega

/-- **A block that is being freed has room.** -/
theorem room (h : Conserved bs s) (hp : s.free.pending.length = 1) :
    s.pool.freelist.wp < s.pool.freelist.rp + s.pool.freelist.cap.toNat := by
  have := h.length_le
  omega

theorem not_full (h : Conserved bs s) {p : UInt64} {w : Nat} (hp : s.free = .loadRp p w) :
    s.pool.freelist.full w s.pool.freelist.rp = false := by
  have hfree := h.free
  rw [hp] at hfree
  obtain rfl : w = s.pool.freelist.wp := hfree
  have hroom := h.room (by rw [hp]; rfl)
  rw [Bool.eq_false_iff]
  intro hfull
  have := (full_iff h.order hroom.le).mp hfull
  omega

theorem empty_iff (h : Conserved bs s) :
    SPSCFreeList.empty s.pool.freelist.rp s.pool.freelist.wp = true ↔
      s.pool.freelist.wp = s.pool.freelist.rp := by
  have hc := s.pool.freelist.cap.toNat_lt
  have hle := h.length_le
  rw [SPSCFreeList.empty, decide_eq_true_iff, eq_comm, u64_inj_of_lt h.order (by omega)]

theorem setAlloc (h : Conserved bs s) {a : Alloc} (ht : a.taken = s.alloc.taken)
    (hok : AllocOk s.pool.freelist a) : Conserved bs { s with alloc := a } :=
  { h with
    places := by
      rw [Pool.places, ht]
      exact h.places
    alloc := hok }

theorem setFree (h : Conserved bs s) {f : Free} (hp : f.pending = s.free.pending)
    (hok : FreeOk s.pool.freelist f) : Conserved bs { s with free := f } :=
  { h with
    places := by
      rw [Pool.places, hp]
      exact h.places
    free := hok }

end Conserved

/-- The stores of the allocating thread leave what the other knows. -/
theorem FreeOk.setRp {l : SPSCFreeList} {pc : Free} (h : FreeOk l pc) :
    FreeOk { l with rp := l.rp + 1 } pc := by
  cases pc with
  | storeSlot p w =>
    obtain ⟨hw, hroom⟩ := h
    exact ⟨hw, by show l.wp < l.rp + 1 + l.cap.toNat; omega⟩
  | storeWp p w =>
    obtain ⟨hw, hroom, hslot⟩ := h
    exact ⟨hw, by show l.wp < l.rp + 1 + l.cap.toNat; omega, hslot⟩
  | _ => exact h

theorem AllocOk.storeSlot {l : SPSCFreeList} {pc : Alloc} (h : AllocOk l pc)
    (hw : l.WellFormed) (hroom : l.wp < l.rp + l.cap.toNat) (x : UInt64) :
    AllocOk (l.storeSlot l.wp x) pc := by
  cases pc with
  | storeRp r p =>
    obtain ⟨hr, hlt, hp⟩ := h
    refine ⟨hr, hlt, hp.trans (Function.update_of_ne ?_ _ _).symm⟩
    rw [hw.cell_eq]
    exact mod_ne_of_window hlt hroom
  | _ => exact h

theorem AllocOk.setWp {l : SPSCFreeList} {pc : Alloc} (h : AllocOk l pc) :
    AllocOk { l with wp := l.wp + 1 } pc := by
  cases pc with
  | loadSlot r => exact ⟨h.1, h.2.trans (Nat.lt_succ_self _)⟩
  | storeRp r p => exact ⟨h.1, h.2.1.trans (Nat.lt_succ_self _), h.2.2⟩
  | _ => exact h

namespace Conserved

theorem storeRp (h : Conserved bs s) {r : Nat} {p : UInt64} (hp : s.alloc = .storeRp r p) :
    Conserved bs { s with pool := s.pool.setRp (r + 1), alloc := .count p } := by
  have halloc := h.alloc
  rw [hp] at halloc
  obtain ⟨rfl, hlt, rfl⟩ := halloc
  have hitems := items_storeRp hlt
  have hmem : s.pool.freelist.slots (s.pool.freelist.rp % s.pool.freelist.cap.toNat) ∈ bs := by
    refine h.places.subset ?_
    rw [Pool.places, hitems]
    simp
  have hne := h.nonNull _ hmem
  refine { h with
    order := hlt
    places := ?_
    alloc := trivial
    free := h.free.setRp }
  have hplaces := h.places
  rw [places_eq hitems (T := []) (by rw [hp]; rfl) rfl] at hplaces
  refine List.Perm.trans ?_ hplaces
  rw [places_eq rfl (taken_count hne) rfl]
  simp only [List.append_nil, List.append_assoc, List.cons_append, List.nil_append]
  exact List.perm_middle

theorem returned (h : Conserved bs s) {p : UInt64} (hp : s.alloc = .count p) (hne : p ≠ 0) :
    Conserved bs { s with pool := s.pool.countAlloc, alloc := .idle, held := p :: s.held } := by
  refine { h with places := ?_, alloc := trivial }
  have hplaces := h.places
  rw [places_eq rfl (T := [p]) (by rw [hp]; exact taken_count hne) rfl] at hplaces
  refine List.Perm.trans ?_ hplaces
  rw [places_eq rfl (T := []) rfl rfl]
  simp only [List.append_nil, List.append_assoc, List.cons_append, List.nil_append]
  exact List.Perm.refl _

theorem allocMoves (h : Conserved bs s) (hm : AllocMoves s u o) : Conserved bs u := by
  have halloc := h.alloc
  cases hm with
  | start hp => exact h.setAlloc (by rw [hp]; rfl) trivial
  | loadRp hp => exact h.setAlloc (by rw [hp]; rfl) rfl
  | empty hp hempty => exact h.setAlloc (by rw [hp]; rfl) trivial
  | loadWp hp hempty =>
    rw [hp] at halloc
    subst halloc
    have hne : s.pool.freelist.rp ≠ s.pool.freelist.wp := by
      intro heq
      rw [h.empty_iff.mpr heq.symm] at hempty
      cases hempty
    exact h.setAlloc (by rw [hp]; rfl) ⟨rfl, lt_of_le_of_ne h.order hne⟩
  | loadSlot hp =>
    rw [hp] at halloc
    obtain ⟨rfl, hlt⟩ := halloc
    refine h.setAlloc (by rw [hp]; rfl) ⟨rfl, hlt, ?_⟩
    rw [h.wellFormed.cell_eq]
  | storeRp hp => exact h.storeRp hp
  | returned hp hne => exact h.returned hp hne
  | failed hp =>
    have h' := h.setAlloc (a := .idle) (by rw [hp]; rfl) trivial
    exact { h' with places := h'.places }

theorem freeStart (h : Conserved bs s) (hp : s.free = .idle) {p : UInt64} (hmem : p ∈ s.held) :
    Conserved bs { s with free := .loadWp p, held := s.held.erase p } := by
  refine { h with places := ?_, free := trivial }
  have hplaces := h.places
  rw [places_eq rfl rfl (P := []) (by rw [hp]; rfl), List.append_nil] at hplaces
  refine List.Perm.trans ?_ hplaces
  rw [places_eq rfl rfl (P := [p]) rfl, List.append_assoc _ _ [p]]
  apply List.Perm.append_left
  exact (List.perm_append_singleton p _).trans (List.perm_cons_erase hmem).symm

theorem storeSlot (h : Conserved bs s) {p : UInt64} {w : Nat} (hp : s.free = .storeSlot p w) :
    Conserved bs { s with pool := s.pool.setSlot w p, free := .storeWp p w } := by
  have hfree := h.free
  rw [hp] at hfree
  obtain ⟨rfl, hroom⟩ := hfree
  have hitems := items_storeSlot h.wellFormed h.order hroom p
  refine { h with
    places := ?_
    alloc := h.alloc.storeSlot h.wellFormed hroom p
    free := ⟨rfl, hroom, ?_⟩ }
  · have hplaces := h.places
    rw [Pool.places, ← hitems, hp] at hplaces
    exact hplaces
  · show Function.update s.pool.freelist.slots (s.pool.freelist.cell s.pool.freelist.wp) p
      (s.pool.freelist.wp % s.pool.freelist.cap.toNat) = p
    rw [h.wellFormed.cell_eq, Function.update_self]

theorem storeWp (h : Conserved bs s) {p : UInt64} {w : Nat} (hp : s.free = .storeWp p w) :
    Conserved bs { s with pool := s.pool.setWp (w + 1), free := .count } := by
  have hfree := h.free
  rw [hp] at hfree
  obtain ⟨rfl, hroom, hslot⟩ := hfree
  have hitems := items_storeWp h.order
  rw [hslot] at hitems
  refine { h with
    order := h.order.trans (Nat.le_succ _)
    places := ?_
    alloc := h.alloc.setWp
    free := trivial }
  have hplaces := h.places
  rw [places_eq rfl rfl (P := [p]) (by rw [hp]; rfl)] at hplaces
  refine List.Perm.trans ?_ hplaces
  rw [places_eq (A := _ ++ [p]) hitems rfl (P := []) rfl]
  simp only [List.append_nil, List.append_assoc, List.singleton_append]
  apply List.Perm.append_left
  rw [← List.append_assoc s.alloc.taken]
  exact (List.perm_append_singleton p _).symm

theorem freeMoves (h : Conserved bs s) (hm : FreeMoves s a u o)
    (hheld : ∀ p, a = some p → p ∈ s.held) : Conserved bs u := by
  have hfree := h.free
  cases hm with
  | @start p hp => exact h.freeStart hp (hheld p rfl)
  | loadWp hp => exact h.setFree (by rw [hp]; rfl) rfl
  | overflow hp hfull =>
    rw [h.not_full hp] at hfull
    cases hfull
  | loadRp hp hfull =>
    rw [hp] at hfree
    exact h.setFree (by rw [hp]; rfl) ⟨hfree, h.room (by rw [hp]; rfl)⟩
  | storeSlot hp => exact h.storeSlot hp
  | storeWp hp => exact h.storeWp hp
  | freed hp =>
    have h' := h.setFree (f := .idle) (by rw [hp]; rfl) trivial
    exact { h' with places := h'.places }

end Conserved

/-! ### Every interleaving -/

section Run

variable {blockSize numBlocks backing : UInt64} {os : List Event}

theorem conserved_init (hfit : Fits blockSize numBlocks backing) :
    Conserved (MemoryPool.create blockSize numBlocks backing).blocks
      (init (MemoryPool.create blockSize numBlocks backing)) := by
  obtain ⟨hw, hcap, horder, hitems⟩ := MemoryPool.items_create hfit
  exact {
    wellFormed := hw
    size := by
      show _ = (MemoryPool.create blockSize numBlocks backing).freelist.cap.toNat
      rw [hcap, MemoryPool.blocks, List.length_map, List.length_range]
    nodup := MemoryPool.nodup_blocks hfit
    nonNull := fun _ => MemoryPool.ne_zero_of_mem_blocks hfit
    order := horder
    places := by
      rw [places_eq hitems (T := []) rfl (P := []) rfl]
      simp [init]
    alloc := trivial
    free := trivial }

theorem Conserved.step {l : Label} (h : Conserved bs s) (hok : FreesHeld s l)
    (hstep : step s l = some (u, o)) : Conserved bs u := by
  rcases step_moves hstep with hm | ⟨a, hm, ha⟩
  · exact h.allocMoves hm
  · apply h.freeMoves hm
    intro p hp
    rw [ha p hp] at hok
    exact hok

/-- An `alloc` is about to return null only after it found the list empty. -/
theorem Conserved.empty_of_failing {l : Label} (h : Conserved bs s)
    (hstep : Pool.step s l = some (u, o)) (hfail : u.alloc = .count 0) :
    s.alloc = .count 0 ∨ (∃ r, s.alloc = .loadWp r) ∧ s.pool.freelist.items = [] := by
  have halloc := h.alloc
  rcases step_moves hstep with hm | ⟨a, hm, -⟩
  · cases hm with
    | @empty r hp hempty =>
      rw [hp] at halloc
      obtain rfl : r = s.pool.freelist.rp := halloc
      refine Or.inr ⟨⟨_, hp⟩, List.eq_nil_of_length_eq_zero ?_⟩
      rw [length_items, h.empty_iff.mp hempty, Nat.sub_self]
    | @storeRp r p hp =>
      rw [hp] at halloc
      obtain ⟨-, hlt, rfl⟩ := halloc
      have hmem := h.places.subset (List.mem_append_left _ (List.mem_append_left _
        (List.mem_append_left _ (items_storeRp hlt ▸ List.mem_cons_self))))
      exact absurd (Alloc.count.inj hfail) (h.nonNull _ hmem)
    | failed hp => exact Or.inl hp
    | _ => cases hfail
  · rw [← hm.alloc_eq]
    exact Or.inl hfail

theorem Conserved.no_overflow {l : Label} (h : Conserved bs s)
    (hstep : Pool.step s l = some (u, o)) (p : UInt64) : .overflow p ∉ o := by
  intro ho
  rcases step_moves hstep with hm | ⟨a, hm, -⟩
  · cases hm <;> simp at ho
  · cases hm with
    | overflow hp hfull =>
      rw [h.not_full hp] at hfull
      cases hfull
    | _ => simp at ho

theorem failing_of_null {l : Label} (hstep : step s l = some (u, o)) (ho : .allocated 0 ∈ o) :
    s.alloc = .count 0 := by
  rcases step_moves hstep with hm | ⟨a, hm, -⟩
  · cases hm with
    | returned hp hne => exact absurd (Event.allocated.inj (List.mem_singleton.mp ho)).symm hne
    | failed hp => exact hp
    | _ => simp at ho
  · cases hm <;> simp at ho

/-- **Blocks are conserved.**  In every interleaving each block is in exactly
one place, no two callers hold one block, `free` never finds the list full, and
`alloc` returns null only if the list was empty when it loaded `wp_`. -/
theorem pool_conserves (hfit : Fits blockSize numBlocks backing)
    (h : Lib.Machine.Run machine FreesHeld
      (init (MemoryPool.create blockSize numBlocks backing)) os s) :
    s.held.Nodup ∧ (places s).Perm (MemoryPool.create blockSize numBlocks backing).blocks ∧
      (places s).Nodup ∧
      ∀ l u o, FreesHeld s l → step s l = some (u, o) →
        (∀ p, .overflow p ∉ o) ∧
        (.allocated 0 ∈ o → s.alloc = .count 0) ∧
        (u.alloc = .count 0 → s.alloc = .count 0 ∨
          (∃ r, s.alloc = .loadWp r) ∧ s.pool.freelist.items = []) := by
  have hs := h.keeps (conserved_init hfit) fun _ _ _ _ hc hok hstep => hc.step hok hstep
  have hnodup := hs.places.nodup_iff.mpr hs.nodup
  have hheld : s.held.Nodup :=
    hnodup.sublist ((List.sublist_append_right _ _).trans (List.sublist_append_left _ _))
  exact ⟨hheld, hs.places, hnodup, fun l u o _ hstep =>
    ⟨hs.no_overflow hstep, failing_of_null hstep, hs.empty_of_failing hstep⟩⟩

/-- A pool of two blocks: both are taken, a third `alloc` fails, and a block is
given back. -/
theorem pool_conserves_two :
    ∃ s os, Lib.Machine.Run machine FreesHeld (init (MemoryPool.create 64 2 4096)) os s ∧
      os = [.allocated 4096, .allocated 4160, .allocated 0, .freed] ∧ s.held = [4160] ∧
      (places s).Perm (MemoryPool.create 64 2 4096).blocks := by
  have hallocs : ∀ s, ∀ l ∈ List.flatten [.alloc :: List.replicate 5 .allocator,
      .alloc :: List.replicate 5 .allocator, [.alloc, .allocator, .allocator, .allocator]],
      FreesHeld s l := by
    intro s l hl
    cases l with
    | free p => simp at hl
    | _ => trivial
  have hrun : Lib.Machine.Run machine FreesHeld (init (MemoryPool.create 64 2 4096))
      [.allocated 4096, .allocated 4160, .allocated 0] _ :=
    Lib.Machine.run_of_exec (Lib.Machine.execOk_of_forall hallocs _) rfl
  have hfree := ((((((hrun.step
    (l := Label.free 4096) (by decide : _ ∈ [_, _]) rfl).step
    (l := Label.freer) trivial rfl).step
    (l := Label.freer) trivial rfl).step
    (l := Label.freer) trivial rfl).step
    (l := Label.freer) trivial rfl).step
    (l := Label.freer) trivial rfl)
  exact ⟨_, _, hfree, rfl, rfl, (pool_conserves ⟨by decide, by decide, by decide, by decide,
    by decide⟩ hfree).2.1⟩

end Run

end HftComponents.Pool
