import HftComponents.Lib.Machine
import HftComponents.Pool.Single
import Mathlib.Data.Fin.VecNotation

/-!
# Eight pools by size

`SlabPool` has a pool for each of eight sizes.  `alloc` and `free` find the
class of a request by themselves, from the size that the caller passes both
times.

The mappings of the pools are apart, and the size of each fits a machine word:
`Mapped` and `SizesFit`.  Then every live pointer owns as many bytes as it asked
for, and no two of them share a byte; `slab_serves` states it of every sequence
of calls.
-/

namespace HftComponents.Pool.Slab

open MemoryPool

abbrev kNumSizeClasses : Nat := 8

def kSizeClassBytes : Fin kNumSizeClasses → UInt64 :=
  ![64, 128, 256, 512, 1024, 2048, 4096, 8192]

/-- The index of the class, or `none` for `-1`. -/
def sizeToClass (n : UInt64) : Option (Fin kNumSizeClasses) :=
  if n ≤ 64 then some 0
  else if n ≤ 128 then some 1
  else if n ≤ 256 then some 2
  else if n ≤ 512 then some 3
  else if n ≤ 1024 then some 4
  else if n ≤ 2048 then some 5
  else if n ≤ 4096 then some 6
  else if n ≤ 8192 then some 7
  else none

structure SlabPool where
  pools : Fin kNumSizeClasses → MemoryPool

namespace SlabPool

/-- The constructor, `mmap c` being the call for class `c`. -/
def construct (mmap : Fin kNumSizeClasses → UInt64 → Option UInt64) (blocksPerClass : UInt64) :
    Option SlabPool :=
  if h : ∀ c, (MemoryPool.construct (mmap c) (kSizeClassBytes c) blocksPerClass).isSome then
    some ⟨fun c => (MemoryPool.construct (mmap c) (kSizeClassBytes c) blocksPerClass).get (h c)⟩
  else none

def alloc (s : SlabPool) (size : UInt64) : SlabPool × UInt64 :=
  match sizeToClass size with
  | none => (s, 0)
  | some c =>
    let (m, p) := (s.pools c).alloc
    (⟨Function.update s.pools c m⟩, p)

/-- `none` is an access to `pools_` with the index `-1`. -/
def free (s : SlabPool) (p size : UInt64) : Option (SlabPool × Bool) :=
  match sizeToClass size with
  | none => none
  | some c =>
    let (m, ok) := (s.pools c).free p
    some (⟨Function.update s.pools c m⟩, ok)

end SlabPool

/-- `live` is not the program's: it lists the pointers that the caller has got
and not freed, each with the size it asked for. -/
structure State where
  slab : SlabPool
  live : List (UInt64 × UInt64) := []

inductive Label
  | alloc (size : UInt64)
  | free (p size : UInt64)

inductive Event
  | allocated (size p : UInt64)
  | freed (p size : UInt64)
  | lost (p : UInt64)
  | outOfRange
  deriving DecidableEq, Repr

def step (s : State) : Label → Option (State × List Event)
  | .alloc size =>
    let (slab, p) := s.slab.alloc size
    some ({ slab := slab, live := if p = 0 then s.live else (p, size) :: s.live },
      [.allocated size p])
  | .free p size =>
    match s.slab.free p size with
    | none => some (s, [.outOfRange])
    | some (slab, ok) =>
      some ({ slab := slab, live := s.live.erase (p, size) },
        if ok then [.freed p size] else [.freed p size, .lost p])

def machine : Lib.Machine State Label Event := ⟨step⟩

def init (slab : SlabPool) : State := { slab := slab }

/-- A pointer is freed once, with the size it was allocated with. -/
def FreesLive (s : State) : Label → Prop
  | .alloc _ => True
  | .free p size => (p, size) ∈ s.live

instance decidableFreesLive (s : State) : (l : Label) → Decidable (FreesLive s l)
  | .alloc _ => isTrue trivial
  | .free p size => inferInstanceAs (Decidable ((p, size) ∈ s.live))

/-! ### The classes -/

/-- `c` is the smallest class for `n` bytes. -/
def Smallest (n : UInt64) (c : Fin kNumSizeClasses) : Prop :=
  n ≤ kSizeClassBytes c ∧ ∀ d, n ≤ kSizeClassBytes d → c ≤ d

theorem smallest_of_lt {n b : UInt64} {c : Fin kNumSizeClasses} (hn : ¬n ≤ b)
    (hc : n ≤ kSizeClassBytes c) (hb : ∀ d < c, kSizeClassBytes d ≤ b) : Smallest n c := by
  refine ⟨hc, ?_⟩
  intro d hd
  by_contra hlt
  exact hn (UInt64.le_trans hd (hb d (Fin.not_le.mp hlt)))

theorem smallest_of_sizeToClass {n : UInt64} {c : Fin kNumSizeClasses}
    (h : sizeToClass n = some c) : Smallest n c := by
  unfold sizeToClass at h
  split at h
  · rename_i hle
    obtain rfl := Option.some.inj h
    exact ⟨hle, fun d _ => Fin.zero_le d⟩
  iterate 7
    rename_i hlt
    split at h
    · rename_i hle
      obtain rfl := Option.some.inj h
      exact smallest_of_lt hlt hle (by decide)
  cases h

theorem sizeToClass_eq_none_iff {n : UInt64} : sizeToClass n = none ↔ 8192 < n := by
  refine ⟨?_, ?_⟩
  · intro h
    unfold sizeToClass at h
    iterate 8
      split at h
      · cases h
    exact UInt64.not_le.mp ‹¬n ≤ 8192›
  · intro h
    have hnot : ∀ b ≤ (8192 : UInt64), ¬n ≤ b := by
      intro b hb hn
      exact absurd (UInt64.lt_of_lt_of_le h (UInt64.le_trans hn hb)) (UInt64.lt_irrefl _)
    rw [sizeToClass, if_neg (hnot _ (by decide)), if_neg (hnot _ (by decide)),
      if_neg (hnot _ (by decide)), if_neg (hnot _ (by decide)), if_neg (hnot _ (by decide)),
      if_neg (hnot _ (by decide)), if_neg (hnot _ (by decide)), if_neg (hnot _ (by decide))]

/-- How many bytes a pointer of that size owns. -/
def bytesOf (size : UInt64) : Nat :=
  match sizeToClass size with
  | none => 0
  | some c => (kSizeClassBytes c).toNat

theorem bytesOf_eq {size : UInt64} {c : Fin kNumSizeClasses} (h : sizeToClass size = some c) :
    bytesOf size = (kSizeClassBytes c).toNat := by
  rw [bytesOf, h]

/-! ### The mappings -/

/-- The regions of the eight calls of `mmap` are apart, and none is at `0`. -/
structure Mapped (slab : SlabPool) : Prop where
  apart : ∀ c d, c ≠ d →
    (slab.pools c).backing.toNat + (slab.pools c).backingSize.toNat ≤
        (slab.pools d).backing.toNat ∨
      (slab.pools d).backing.toNat + (slab.pools d).backingSize.toNat ≤
        (slab.pools c).backing.toNat
  nonNull : ∀ c, (slab.pools c).backing ≠ 0

def SizesFit (blocksPerClass : UInt64) : Prop :=
  ∀ c, roundedSize (kSizeClassBytes c) * roundedCount blocksPerClass < 2 ^ 64

/-- What is known of the blocks of a new slab pool. -/
structure Carved (slab : SlabPool) : Prop where
  lists : ∀ c, (slab.pools c).Lists (slab.pools c).numBlocks.toNat (slab.pools c).blocks
  nodup : ∀ c, (slab.pools c).blocks.Nodup
  nonNull : ∀ c, ∀ b ∈ (slab.pools c).blocks, b ≠ 0
  aligned : ∀ c, ∀ b ∈ (slab.pools c).blocks, b.toNat % 64 = 0
  /-- Two blocks, of one class or of two, share no byte. -/
  apart : ∀ c d, ∀ a ∈ (slab.pools c).blocks, ∀ b ∈ (slab.pools d).blocks, c ≠ d ∨ a ≠ b →
    a.toNat + (kSizeClassBytes c).toNat ≤ b.toNat ∨ b.toNat + (kSizeClassBytes d).toNat ≤ a.toNat
  contained : ∀ c, ∀ b ∈ (slab.pools c).blocks, (slab.pools c).backing.toNat ≤ b.toNat ∧
    b.toNat + (kSizeClassBytes c).toNat ≤
      (slab.pools c).backing.toNat + (slab.pools c).backingSize.toNat

section Construct

variable {mmap : Fin kNumSizeClasses → UInt64 → Option UInt64} {blocksPerClass : UInt64}
  {slab : SlabPool}

theorem pool_of_construct (h : SlabPool.construct mmap blocksPerClass = some slab)
    (c : Fin kNumSizeClasses) :
    MemoryPool.construct (mmap c) (kSizeClassBytes c) blocksPerClass = some (slab.pools c) := by
  unfold SlabPool.construct at h
  split at h
  · obtain rfl := Option.some.inj h
    exact (Option.some_get _).symm
  · cases h

theorem carved_of_construct (hm : ∀ c, Mmap (mmap c)) (hfit : SizesFit blocksPerClass)
    (h : SlabPool.construct mmap blocksPerClass = some slab) (hmapped : Mapped slab) :
    Carved slab := by
  have hpool := pool_of_construct h
  have hlaid := fun c => laid_of_lt (hm c) (hpool c) (hfit c)
  have hcontained : ∀ c, ∀ b ∈ (slab.pools c).blocks, (slab.pools c).backing.toNat ≤ b.toNat ∧
      b.toNat + (kSizeClassBytes c).toNat ≤
        (slab.pools c).backing.toNat + (slab.pools c).backingSize.toNat := by
    intro c b hb
    obtain ⟨i, hi, rfl⟩ := List.mem_map.mp hb
    obtain ⟨hlow, hhigh⟩ := (hlaid c).contained i (List.mem_range.mp hi)
    have hlarge := (hlaid c).large
    exact ⟨hlow, by omega⟩
  refine ⟨fun c => lists_of_construct (hm c) (hpool c),
    fun c => nodup_blocks_of_construct (hm c) (hpool c), ?_, ?_, ?_, hcontained⟩
  · intro c b hb hzero
    have hlow := (hcontained c b hb).1
    rw [hzero] at hlow
    exact hmapped.nonNull c (UInt64.toNat_inj.mp (Nat.le_zero.mp hlow))
  · intro c b hb
    obtain ⟨i, hi, rfl⟩ := List.mem_map.mp hb
    exact (hlaid c).aligned i (List.mem_range.mp hi)
  · intro c d a ha b hb hne
    by_cases hcd : c = d
    · subst hcd
      obtain ⟨i, hi, rfl⟩ := List.mem_map.mp ha
      obtain ⟨j, hj, rfl⟩ := List.mem_map.mp hb
      have hij : i ≠ j := by
        rintro rfl
        rcases hne with hne | hne <;> exact hne rfl
      have hlarge := (hlaid c).large
      have hapart := (hlaid c).disjoint i (List.mem_range.mp hi) j (List.mem_range.mp hj) hij
      omega
    · have hregions := hmapped.apart c d hcd
      obtain ⟨halow, hahigh⟩ := hcontained c a ha
      obtain ⟨hblow, hbhigh⟩ := hcontained d b hb
      omega

end Construct

/-! ### What every call keeps -/

/-- The live pointers of class `c`. -/
def liveOf (live : List (UInt64 × UInt64)) (c : Fin kNumSizeClasses) : List UInt64 :=
  (live.filter fun e => sizeToClass e.2 = some c).map Prod.fst

/-- `slab` is the pool as it was built. -/
structure Kept (slab : SlabPool) (s : State) : Prop where
  pool : ∀ c, (s.slab.pools c).Lists (slab.pools c).numBlocks.toNat (s.slab.pools c).freelist.items
  places : ∀ c, ((s.slab.pools c).freelist.items ++ liveOf s.live c).Perm (slab.pools c).blocks
  classed : ∀ e ∈ s.live, sizeToClass e.2 ≠ none

/-- The live pointers have regions of their own. -/
structure Owned (slab : SlabPool) (live : List (UInt64 × UInt64)) : Prop where
  nodup : live.Nodup
  large : ∀ e ∈ live, e.2.toNat ≤ bytesOf e.2
  aligned : ∀ e ∈ live, e.1.toNat % 64 = 0
  apart : ∀ e ∈ live, ∀ f ∈ live, e ≠ f →
    e.1.toNat + bytesOf e.2 ≤ f.1.toNat ∨ f.1.toNat + bytesOf f.2 ≤ e.1.toNat
  contained : ∀ e ∈ live, ∃ c, sizeToClass e.2 = some c ∧ e.1 ∈ (slab.pools c).blocks ∧
    (slab.pools c).backing.toNat ≤ e.1.toNat ∧
    e.1.toNat + bytesOf e.2 ≤ (slab.pools c).backing.toNat + (slab.pools c).backingSize.toNat

section Step

variable {slab : SlabPool} {s u : State} {live : List (UInt64 × UInt64)} {p size x : UInt64}
  {xs : List UInt64} {c : Fin kNumSizeClasses} {l : Label} {o : List Event}

theorem mem_liveOf {e : UInt64 × UInt64} (he : e ∈ live) (hc : sizeToClass e.2 = some c) :
    e.1 ∈ liveOf live c := by
  apply List.mem_map_of_mem
  rw [List.mem_filter]
  exact ⟨he, decide_eq_true hc⟩

theorem of_mem_liveOf (h : p ∈ liveOf live c) :
    ∃ size, (p, size) ∈ live ∧ sizeToClass size = some c := by
  obtain ⟨⟨q, size⟩, he, rfl⟩ := List.mem_map.mp h
  rw [List.mem_filter] at he
  exact ⟨size, he.1, of_decide_eq_true he.2⟩

theorem liveOf_cons (h : sizeToClass size = some c) :
    liveOf ((p, size) :: live) c = p :: liveOf live c := by
  simp [liveOf, h]

theorem liveOf_cons_of_ne (h : sizeToClass size ≠ some c) :
    liveOf ((p, size) :: live) c = liveOf live c := by
  simp [liveOf, h]

theorem liveOf_perm {live' : List (UInt64 × UInt64)} (h : live.Perm live')
    (c : Fin kNumSizeClasses) : (liveOf live c).Perm (liveOf live' c) :=
  (h.filter _).map _

/-- A call to one pool leaves the blocks of the others where they are. -/
theorem Kept.update (h : Kept slab s) {m : MemoryPool}
    (hm : m.Lists (slab.pools c).numBlocks.toNat xs)
    (hperm : (xs ++ liveOf live c).Perm ((s.slab.pools c).freelist.items ++ liveOf s.live c))
    (hothers : ∀ d, d ≠ c → (liveOf live d).Perm (liveOf s.live d))
    (hclassed : ∀ e ∈ live, sizeToClass e.2 ≠ none) :
    Kept slab ⟨⟨Function.update s.slab.pools c m⟩, live⟩ := by
  refine ⟨?_, ?_, hclassed⟩
  · intro d
    dsimp only
    by_cases hd : d = c
    · subst hd
      rw [Function.update_self, hm.items]
      exact hm
    · rw [Function.update_of_ne hd]
      exact h.pool d
  · intro d
    dsimp only
    by_cases hd : d = c
    · subst hd
      rw [Function.update_self, hm.items]
      exact hperm.trans (h.places d)
    · rw [Function.update_of_ne hd]
      exact ((hothers d hd).append_left _).trans (h.places d)

theorem Kept.mem_blocks (h : Kept slab s) {e : UInt64 × UInt64} (he : e ∈ s.live)
    (hc : sizeToClass e.2 = some c) : e.1 ∈ (slab.pools c).blocks :=
  (h.places c).subset (List.mem_append_right _ (mem_liveOf he hc))

theorem Kept.items_mem_blocks (h : Kept slab s) (hx : x ∈ (s.slab.pools c).freelist.items) :
    x ∈ (slab.pools c).blocks :=
  (h.places c).subset (List.mem_append_left _ hx)

/-- A live block is live in its own class. -/
theorem Kept.class_eq (h : Kept slab s) (hslab : Carved slab) (hp : p ∈ (slab.pools c).blocks)
    (hlive : (p, size) ∈ s.live) : sizeToClass size = some c := by
  cases hd : sizeToClass size with
  | none => exact absurd hd (h.classed _ hlive)
  | some d =>
    have hmem := h.mem_blocks hlive hd
    by_cases hcd : c = d
    · rw [hcd]
    · have hpos : ∀ c, 0 < (kSizeClassBytes c).toNat := by decide
      have hapart := hslab.apart c d p hp p hmem (Or.inl hcd)
      have hc := hpos c
      have hd := hpos d
      omega

/-- **The list of a class is empty exactly when all its blocks are live.** -/
theorem Kept.items_eq_nil_iff (h : Kept slab s) (hslab : Carved slab) :
    (s.slab.pools c).freelist.items = [] ↔
      ∀ b ∈ (slab.pools c).blocks, ∃ size, (b, size) ∈ s.live := by
  have hnodup := (h.places c).nodup_iff.mpr (hslab.nodup c)
  refine ⟨?_, ?_⟩
  · intro hnil b hb
    have hb' := (h.places c).symm.subset hb
    rw [hnil, List.nil_append] at hb'
    obtain ⟨size, hlive, -⟩ := of_mem_liveOf hb'
    exact ⟨size, hlive⟩
  · intro hall
    rw [List.eq_nil_iff_forall_not_mem]
    intro b hb
    have hmem := h.items_mem_blocks hb
    obtain ⟨size, hlive⟩ := hall b hmem
    have hclass := h.class_eq hslab hmem hlive
    exact (List.nodup_append.mp hnodup).2.2 b hb b (mem_liveOf hlive hclass) rfl

theorem Kept.owned (h : Kept slab s) (hslab : Carved slab) : Owned slab s.live := by
  have hclass : ∀ e ∈ s.live, ∃ c, sizeToClass e.2 = some c := fun e he =>
    Option.ne_none_iff_exists'.mp (h.classed e he)
  have hnodup : ∀ c, (liveOf s.live c).Nodup := fun c =>
    ((h.places c).nodup_iff.mpr (hslab.nodup c)).of_append_right
  refine ⟨?_, ?_, ?_, ?_, ?_⟩
  · rw [List.nodup_iff_count_le_one]
    intro e
    by_cases he : e ∈ s.live
    · obtain ⟨c, hc⟩ := hclass e he
      rw [← List.count_filter (p := fun e => decide (sizeToClass e.2 = some c)) (decide_eq_true hc)]
      exact List.nodup_iff_count_le_one.mp ((hnodup c).of_map Prod.fst) e
    · rw [List.count_eq_zero_of_not_mem he]
      exact Nat.zero_le 1
  · intro e he
    obtain ⟨c, hc⟩ := hclass e he
    rw [bytesOf_eq hc]
    exact UInt64.le_iff_toNat_le.mp (smallest_of_sizeToClass hc).1
  · intro e he
    obtain ⟨c, hc⟩ := hclass e he
    exact hslab.aligned c e.1 (h.mem_blocks he hc)
  · intro e he f hf hne
    obtain ⟨c, hc⟩ := hclass e he
    obtain ⟨d, hd⟩ := hclass f hf
    rw [bytesOf_eq hc, bytesOf_eq hd]
    refine hslab.apart c d e.1 (h.mem_blocks he hc) f.1 (h.mem_blocks hf hd) ?_
    by_cases hcd : c = d
    · subst hcd
      refine Or.inr fun heq => hne ?_
      refine List.inj_on_of_nodup_map (hnodup c) ?_ ?_ heq
      · exact List.mem_filter.mpr ⟨he, decide_eq_true hc⟩
      · exact List.mem_filter.mpr ⟨hf, decide_eq_true hd⟩
    · exact Or.inl hcd
  · intro e he
    obtain ⟨c, hc⟩ := hclass e he
    have hmem := h.mem_blocks he hc
    rw [bytesOf_eq hc]
    exact ⟨c, hc, hmem, hslab.contained c e.1 hmem⟩

theorem step_alloc {m : MemoryPool} (hc : sizeToClass size = some c)
    (halloc : (s.slab.pools c).alloc = (m, p)) :
    step s (.alloc size) = some (⟨⟨Function.update s.slab.pools c m⟩,
      if p = 0 then s.live else (p, size) :: s.live⟩, [.allocated size p]) := by
  rw [step, SlabPool.alloc, hc]
  dsimp only
  rw [halloc]

theorem Kept.handOut (h : Kept slab s) {m : MemoryPool} {x : UInt64}
    (hc : sizeToClass size = some c) (hitems : (s.slab.pools c).freelist.items = x :: xs)
    (hm : m.Lists (slab.pools c).numBlocks.toNat xs) :
    Kept slab ⟨⟨Function.update s.slab.pools c m⟩, (x, size) :: s.live⟩ := by
  refine h.update hm ?_ ?_ ?_
  · rw [liveOf_cons hc, hitems]
    exact List.perm_middle
  · intro d hd
    rw [liveOf_cons_of_ne]
    rw [hc]
    exact fun heq => hd (Option.some.inj heq).symm
  · intro e he
    rcases List.mem_cons.mp he with rfl | he
    · exact Option.ne_none_iff_exists'.mpr ⟨c, hc⟩
    · exact h.classed e he

/-- **A request fails if it is too large or its class is used up.** -/
theorem Kept.alloc (h : Kept slab s) (hslab : Carved slab) (size : UInt64) :
    ∃ u p, step s (.alloc size) = some (u, [.allocated size p]) ∧ Kept slab u ∧
      (p = 0 ↔ 8192 < size ∨
        ∃ c, Smallest size c ∧ ∀ b ∈ (slab.pools c).blocks, ∃ n, (b, n) ∈ s.live) := by
  cases hc : sizeToClass size with
  | none =>
    refine ⟨s, 0, ?_, h, fun _ => Or.inl (sizeToClass_eq_none_iff.mp hc), fun _ => rfl⟩
    rw [step, SlabPool.alloc, hc]
    rfl
  | some c =>
    have hsmall := smallest_of_sizeToClass hc
    have hpool := h.pool c
    cases hitems : (s.slab.pools c).freelist.items with
    | nil =>
      rw [hitems] at hpool
      have hkept : Kept slab ⟨⟨Function.update s.slab.pools c (s.slab.pools c).countFailure⟩,
          s.live⟩ := by
        refine h.update hpool.countFailure ?_ (fun d _ => List.Perm.refl _) h.classed
        rw [hitems]
      refine ⟨_, 0, step_alloc hc hpool.alloc_nil, hkept, fun _ => Or.inr ⟨c, hsmall, ?_⟩,
        fun _ => rfl⟩
      exact (h.items_eq_nil_iff hslab).mp hitems
    | cons x xs =>
      rw [hitems] at hpool
      have hx : x ≠ 0 := by
        refine hslab.nonNull c x (h.items_mem_blocks ?_)
        rw [hitems]
        exact List.mem_cons_self
      obtain ⟨m, halloc, hm⟩ := hpool.alloc_cons hx
      have hstep := step_alloc hc halloc
      rw [if_neg hx] at hstep
      refine ⟨_, x, hstep, h.handOut hc hitems hm, fun hzero => absurd hzero hx, ?_⟩
      rintro (hlarge | ⟨d, hd, hall⟩)
      · rw [sizeToClass_eq_none_iff.mpr hlarge] at hc
        cases hc
      · obtain rfl : d = c := le_antisymm (hd.2 c hsmall.1) (hsmall.2 d hd.1)
        have hnil := (h.items_eq_nil_iff hslab).mpr hall
        rw [hitems] at hnil
        cases hnil

/-- **A block goes back to the class it came from.** -/
theorem Kept.free (h : Kept slab s) (hlive : (p, size) ∈ s.live) :
    ∃ u c, step s (.free p size) = some (u, [.freed p size]) ∧ Kept slab u ∧
      sizeToClass size = some c ∧ p ∈ (slab.pools c).blocks ∧
      (u.slab.pools c).freelist.items = (s.slab.pools c).freelist.items ++ [p] ∧
      ∀ d, d ≠ c → u.slab.pools d = s.slab.pools d := by
  obtain ⟨c, hc⟩ := Option.ne_none_iff_exists'.mp (h.classed _ hlive)
  have hsplit := List.perm_cons_erase hlive
  have hown := liveOf_perm hsplit c
  rw [liveOf_cons hc] at hown
  have hlen := (h.places c).length_eq
  rw [List.length_append, hown.length_eq, List.length_cons, length_blocks] at hlen
  obtain ⟨m, hfree, hm⟩ := (h.pool c).free (by omega) p
  have hkept : Kept slab ⟨⟨Function.update s.slab.pools c m⟩, s.live.erase (p, size)⟩ := by
    refine h.update hm ?_ ?_ ?_
    · rw [List.append_assoc, List.singleton_append]
      exact hown.symm.append_left _
    · intro d hd
      have hother := liveOf_perm hsplit d
      rw [liveOf_cons_of_ne] at hother
      · exact hother.symm
      · rw [hc]
        exact fun heq => hd (Option.some.inj heq).symm
    · intro e he
      exact h.classed e (List.mem_of_mem_erase he)
  refine ⟨_, c, ?_, hkept, hc, h.mem_blocks hlive hc, ?_, ?_⟩
  · rw [step, SlabPool.free, hc]
    dsimp only
    rw [hfree]
    rfl
  · dsimp only
    rw [Function.update_self, hm.items]
  · intro d hd
    exact Function.update_of_ne hd _ _

theorem Kept.step (h : Kept slab s) (hslab : Carved slab) (hok : FreesLive s l)
    (hstep : step s l = some (u, o)) : Kept slab u := by
  cases l with
  | alloc size =>
    obtain ⟨v, p, hv, hkept, -⟩ := h.alloc hslab size
    obtain ⟨rfl, rfl⟩ := Prod.mk.inj (Option.some.inj (hv.symm.trans hstep))
    exact hkept
  | free p size =>
    obtain ⟨v, c, hv, hkept, -⟩ := h.free hok
    obtain ⟨rfl, rfl⟩ := Prod.mk.inj (Option.some.inj (hv.symm.trans hstep))
    exact hkept

end Step

/-! ### Every sequence of calls -/

section Run

variable {mmap : Fin kNumSizeClasses → UInt64 → Option UInt64} {blocksPerClass : UInt64}
  {slab : SlabPool} {os : List Event} {s : State}

theorem kept_init (hslab : Carved slab) : Kept slab (init slab) where
  pool := by
    intro c
    rw [init, (hslab.lists c).items]
    exact hslab.lists c
  places := by
    intro c
    show ((slab.pools c).freelist.items ++ []).Perm (slab.pools c).blocks
    rw [List.append_nil, (hslab.lists c).items]
  classed := by
    intro e he
    cases he

/-- **Every live request has memory of its own.**  After any calls, the live
pointers own as many bytes as were asked for and no byte together; `alloc` fails
exactly for want of a class or of a block in the smallest one; and `free` puts
the block at the end of the list it came from. -/
theorem slab_serves (hm : ∀ c, Mmap (mmap c)) (hfit : SizesFit blocksPerClass)
    (hp : SlabPool.construct mmap blocksPerClass = some slab) (hmapped : Mapped slab)
    (h : Lib.Machine.Run machine FreesLive (init slab) os s) :
    Owned slab s.live ∧
      (∀ size, ∃ u p, step s (.alloc size) = some (u, [.allocated size p]) ∧
        (p = 0 ↔ 8192 < size ∨
          ∃ c, Smallest size c ∧ ∀ b ∈ (slab.pools c).blocks, ∃ n, (b, n) ∈ s.live)) ∧
      ∀ p size, (p, size) ∈ s.live →
        ∃ u c, step s (.free p size) = some (u, [.freed p size]) ∧
          p ∈ (slab.pools c).blocks ∧
          (u.slab.pools c).freelist.items = (s.slab.pools c).freelist.items ++ [p] ∧
          ∀ d, d ≠ c → u.slab.pools d = s.slab.pools d := by
  have hslab := carved_of_construct hm hfit hp hmapped
  have hs : Kept slab s := by
    refine h.keeps (kept_init hslab) ?_
    intro t l u o ht hok hstep
    exact ht.step hslab hok hstep
  refine ⟨hs.owned hslab, ?_, ?_⟩
  · intro size
    obtain ⟨u, p, hstep, -, hzero⟩ := hs.alloc hslab size
    exact ⟨u, p, hstep, hzero⟩
  · intro p size hlive
    obtain ⟨u, c, hstep, -, -, hmem, hitems, hothers⟩ := hs.free hlive
    exact ⟨u, c, hstep, hmem, hitems, hothers⟩

/-- Maps up to 64 KiB for each class, one region after the other. -/
def smallMmaps (c : Fin kNumSizeClasses) (n : UInt64) : Option UInt64 :=
  if n = 0 ∨ 65536 < n then none else some (Lib.Ring.u64 (65536 * (c + 1)))

theorem mmap_smallMmaps (c : Fin kNumSizeClasses) : Mmap (smallMmaps c) := by
  have hspec : ∀ n base, smallMmaps c n = some base →
      base.toNat = 65536 * (c + 1) ∧ n.toNat ≤ 65536 := by
    intro n base h
    unfold smallMmaps at h
    split at h
    · cases h
    · rename_i hn
      rw [not_or, UInt64.lt_iff_toNat_lt] at hn
      have hlimit : (65536 : UInt64).toNat = 65536 := rfl
      obtain rfl := Option.some.inj h
      have hc : (c : Nat) < 8 := c.isLt
      rw [Lib.Ring.toNat_u64]
      omega
  refine ⟨rfl, ?_, ?_⟩
  · intro n base h
    obtain ⟨hbase, -⟩ := hspec n base h
    omega
  · intro n base h
    obtain ⟨hbase, hn⟩ := hspec n base h
    have hc : (c : Nat) < 8 := c.isLt
    omega

def smallSlab : SlabPool :=
  ⟨fun c => create (kSizeClassBytes c) 2 (Lib.Ring.u64 (65536 * (c + 1)))⟩

theorem construct_smallMmaps : SlabPool.construct smallMmaps 2 = some smallSlab := by
  have hmap : ∀ c, smallMmaps c (alignUp (max (kSizeClassBytes c) kCacheLine) kCacheLine *
      nextPow2 (max 2 2)) = some (Lib.Ring.u64 (65536 * (c + 1))) := by decide +kernel
  have hpool : ∀ c, MemoryPool.construct (smallMmaps c) (kSizeClassBytes c) 2 =
      some (smallSlab.pools c) := by
    intro c
    rw [MemoryPool.construct, hmap c]
    rfl
  rw [SlabPool.construct, dif_pos fun c => by rw [hpool c]; rfl]
  refine congrArg (fun pools => some (SlabPool.mk pools)) (funext ?_)
  intro c
  exact Option.get_of_eq_some _ (hpool c)

/-- Both blocks of the largest class are taken, one of them for 5000 bytes. -/
theorem slab_serves_full :
    ∃ os s, Lib.Machine.Run machine FreesLive (init smallSlab) os s ∧
      os = [.allocated 5000 524288, .allocated 8192 532480, .allocated 6000 0, .allocated 0 65536,
        .freed 532480 8192] ∧
      Owned smallSlab s.live := by
  obtain ⟨ls, hok, hexec⟩ : ∃ ls, machine.ExecOk FreesLive (init smallSlab) ls ∧
      (machine.exec (init smallSlab) ls).map (fun q => (q.1.live.length, q.2)) =
        some (2, [.allocated 5000 524288, .allocated 8192 532480, .allocated 6000 0,
          .allocated 0 65536, .freed 532480 8192]) := by
    refine ⟨[.alloc 5000, .alloc 8192, .alloc 6000, .alloc 0, .free 532480 8192], ?_, ?_⟩
    · decide +kernel
    · decide +kernel
  obtain ⟨s, hrun, -⟩ := Lib.Machine.exists_run_of_exec (fun s => s.live.length) hok hexec
  have hfit : SizesFit 2 := by
    unfold SizesFit
    decide +kernel
  have hmapped : Mapped smallSlab := ⟨by decide +kernel, by decide +kernel⟩
  exact ⟨_, s, hrun, rfl,
    (slab_serves mmap_smallMmaps hfit construct_smallMmaps hmapped hrun).1⟩

end Run

end HftComponents.Pool.Slab
