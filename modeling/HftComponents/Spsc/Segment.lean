import HftComponents.Lib.Bits
import HftComponents.Lib.Ring

/-!
# The shared segment of the bus

`spsc_bus.hpp`: the control block and the slots behind it, as two processes see
them.  A slot starts at a byte offset from the base, with the words
`generation` and `size` of its header and then the payload bytes; the segment
keeps the words by the offset of their slot and the bytes by their own address.

Positions and generations only count up, and are kept as the numbers they
count.  The code holds them in a `uint64_t` and a `uint32_t`: wherever it
compares, subtracts or masks one, it does so on `u64` or `u32` of it.

`Geometry` is what `create` establishes, if the slot stride fits its 32-bit
field: then slots that are not the same are disjoint (`slot_disjoint`).
-/

namespace HftComponents.Spsc

open Lib.Ring

structure ControlBlock where
  capacity : UInt32
  slotStride : UInt32
  maxMsgSize : UInt32
  writePos : Nat := 0
  readPos : Nat := 0

structure Segment where
  cb : ControlBlock
  generation : Nat → Nat := fun _ => 0
  size : Nat → UInt32 := fun _ => 0
  payload : Nat → UInt8 := fun _ => 0

def kCacheLine : UInt64 := 64

/-- `sizeof(ControlBlock)` and `sizeof(SlotHeader)`. -/
def sizeofControlBlock : Nat := 256
def sizeofSlotHeader : UInt64 := 8

def computeSlotStride (maxMsgSize : UInt32) : UInt64 :=
  let raw := sizeofSlotHeader + maxMsgSize.toUInt64
  (raw + kCacheLine - 1) &&& ~~~(kCacheLine - 1)

def computeShmSize (capacity maxMsgSize : UInt32) : UInt64 :=
  sizeofControlBlock.toUInt64 + capacity.toUInt64 * computeSlotStride maxMsgSize

/-- The offset that `slot_ptr` adds to the base of the segment. -/
def slotPtr (capacity stride : UInt32) (pos : Nat) : Nat :=
  let idx := (u64 pos).toUInt32 &&& (capacity - 1)
  sizeofControlBlock + idx.toNat * stride.toNat

/-- `SharedBus::create`, once the system has granted the segment; `none` is
`invalid_argument`. -/
def create (capacity maxMsgSize : UInt32) : Option Segment :=
  if capacity = 0 ∨ capacity &&& (capacity - 1) ≠ 0 then none
  else if maxMsgSize = 0 then none
  else
    some { cb := {
      capacity := capacity
      slotStride := (computeSlotStride maxMsgSize).toUInt32
      maxMsgSize := maxMsgSize } }

namespace Segment

def setSize (s : Segment) (slot : Nat) (n : UInt32) : Segment :=
  { s with size := Function.update s.size slot n }

def setByte (s : Segment) (slot k : Nat) (b : UInt8) : Segment :=
  { s with payload := Function.update s.payload (slot + sizeofSlotHeader.toNat + k) b }

def setGeneration (s : Segment) (slot g : Nat) : Segment :=
  { s with generation := Function.update s.generation slot g }

def setWritePos (s : Segment) (p : Nat) : Segment := { s with cb := { s.cb with writePos := p } }

def setReadPos (s : Segment) (p : Nat) : Segment := { s with cb := { s.cb with readPos := p } }

/-- Byte `k` of the payload of a slot. -/
def byte (s : Segment) (slot k : Nat) : UInt8 := s.payload (slot + sizeofSlotHeader.toNat + k)

end Segment

/-! ### Geometry -/

/-- The capacity is a power of two, and a slot is large enough for its header
and the largest payload. -/
structure Geometry (capacity stride maxMsgSize : UInt32) : Prop where
  pow : ∃ k ≤ 31, capacity.toNat = 2 ^ k
  room : 8 + maxMsgSize.toNat ≤ stride.toNat

theorem pow_of_and_eq_zero {c : UInt32} (h0 : c ≠ 0) (h : c &&& (c - 1) = 0) :
    ∃ k ≤ 31, c.toNat = 2 ^ k := by
  have hpos : c.toNat ≠ 0 := fun h => h0 (UInt32.toNat_inj.mp h)
  have hsub : (c - 1).toNat = c.toNat - 1 := by
    rw [UInt32.toNat_sub_of_le _ _ (by rw [UInt32.le_iff_toNat_le]; exact Nat.pos_of_ne_zero hpos)]
    rfl
  have hand : c.toNat &&& (c.toNat - 1) = 0 := by
    rw [← hsub, ← UInt32.toNat_and, h]
    rfl
  obtain ⟨k, hk⟩ := (Nat.and_sub_one_eq_zero_iff_isPowerOfTwo hpos).mp hand
  refine ⟨k, ?_, hk⟩
  have hlt : 2 ^ k < 2 ^ 32 := hk ▸ c.toNat_lt
  have := (Nat.pow_lt_pow_iff_right (by decide : 1 < 2)).mp hlt
  omega

theorem toNat_computeSlotStride (m : UInt32) :
    (computeSlotStride m).toNat = 64 * ((8 + m.toNat + 63) / 64) := by
  have hm := m.toNat_lt
  have hmask : (kCacheLine - 1).toNat = 2 ^ 6 - 1 := by decide
  have hraw : (sizeofSlotHeader + m.toUInt64 + kCacheLine - 1).toNat = 8 + m.toNat + 63 := by
    have h8 : sizeofSlotHeader.toNat = 8 := rfl
    have h64 : kCacheLine.toNat = 64 := rfl
    have h1 : (1 : UInt64).toNat = 1 := rfl
    rw [UInt64.toNat_sub, UInt64.toNat_add, UInt64.toNat_add, UInt32.toNat_toUInt64, h8, h64, h1]
    omega
  show ((sizeofSlotHeader + m.toUInt64 + kCacheLine - 1) &&& ~~~(kCacheLine - 1)).toNat = _
  rw [Lib.Bits.toNat_and_not hmask, hraw]
  rfl

theorem cb_of_create {c m : UInt32} {s : Segment} (h : create c m = some s) :
    s.cb = ⟨c, (computeSlotStride m).toUInt32, m, 0, 0⟩ := by
  unfold create at h
  split at h
  · cases h
  · split at h
    · cases h
    · obtain rfl := Option.some.inj h
      rfl

theorem generation_of_create {c m : UInt32} {s : Segment} (h : create c m = some s) :
    s.generation = fun _ => 0 := by
  unfold create at h
  split at h
  · cases h
  · split at h
    · cases h
    · obtain rfl := Option.some.inj h
      rfl

theorem size_of_create {c m : UInt32} {s : Segment} (h : create c m = some s) :
    s.size = fun _ => 0 := by
  unfold create at h
  split at h
  · cases h
  · split at h
    · cases h
    · obtain rfl := Option.some.inj h
      rfl

theorem geometry_of_create {c m : UInt32} {s : Segment} (h : create c m = some s)
    (hfit : (computeSlotStride m).toNat < 2 ^ 32) :
    Geometry s.cb.capacity s.cb.slotStride s.cb.maxMsgSize := by
  unfold create at h
  split at h
  · cases h
  · rename_i hc
    split at h
    · cases h
    · obtain rfl := Option.some.inj h
      rw [not_or, not_not] at hc
      refine ⟨pow_of_and_eq_zero hc.1 hc.2, ?_⟩
      show 8 + m.toNat ≤ (computeSlotStride m).toUInt32.toNat
      rw [UInt64.toNat_toUInt32, Nat.mod_eq_of_lt hfit, toNat_computeSlotStride]
      omega

namespace Geometry

variable {c stride m : UInt32}

theorem slotPtr_eq (h : Geometry c stride m) (p : Nat) :
    slotPtr c stride p = 256 + p % c.toNat * stride.toNat := by
  obtain ⟨k, hk, hc⟩ := h.pow
  have hpos := Nat.two_pow_pos k
  have hmask : (c - 1).toNat = c.toNat - 1 := by
    rw [UInt32.toNat_sub_of_le]
    · rfl
    · rw [UInt32.le_iff_toNat_le]
      show 1 ≤ c.toNat
      omega
  show sizeofControlBlock + ((u64 p).toUInt32 &&& (c - 1)).toNat * stride.toNat = _
  rw [toNat_u32_and hc (by omega) hmask]
  rfl

/-- **Slots of different cells do not overlap.** -/
theorem slot_disjoint (h : Geometry c stride m) {p q : Nat} (hne : p % c.toNat ≠ q % c.toNat) :
    slotPtr c stride p + (8 + m.toNat) ≤ slotPtr c stride q ∨
      slotPtr c stride q + (8 + m.toNat) ≤ slotPtr c stride p := by
  have hroom := h.room
  rw [h.slotPtr_eq, h.slotPtr_eq]
  have hstep : ∀ a b : Nat, a < b → a * stride.toNat + stride.toNat ≤ b * stride.toNat := by
    intro a b hab
    calc a * stride.toNat + stride.toNat = (a + 1) * stride.toNat := by rw [Nat.succ_mul]
      _ ≤ b * stride.toNat := Nat.mul_le_mul_right _ hab
  rcases Nat.lt_or_gt_of_ne hne with hlt | hlt
  · have := hstep _ _ hlt
    omega
  · have := hstep _ _ hlt
    omega

theorem slotPtr_ne (h : Geometry c stride m) {p q : Nat} (hne : p % c.toNat ≠ q % c.toNat) :
    slotPtr c stride p ≠ slotPtr c stride q := by
  have := h.slot_disjoint hne
  omega

theorem slot_congr (h : Geometry c stride m) {p q : Nat} (heq : p % c.toNat = q % c.toNat) :
    slotPtr c stride p = slotPtr c stride q := by
  rw [h.slotPtr_eq, h.slotPtr_eq, heq]

end Geometry

/-! ### What a slot holds -/

/-- The slot holds the size of `msg` and the first `k` of its bytes. -/
def Holds (s : Segment) (slot : Nat) (msg : List UInt8) (k : Nat) : Prop :=
  s.size slot = u32 msg.length ∧ ∀ j < k, msg[j]? = some (s.byte slot j)

variable {s : Segment} {c stride m : UInt32} {p q k n : Nat} {msg : List UInt8}

theorem Holds.congr {s' : Segment} (h : Holds s n msg k) (hs : s'.size n = s.size n)
    (hb : ∀ j < k, s'.byte n j = s.byte n j) : Holds s' n msg k := by
  refine ⟨hs.trans h.1, fun j hj => ?_⟩
  rw [hb j hj]
  exact h.2 j hj

theorem Holds.setSize (h : Holds s (slotPtr c stride p) msg k) (hg : Geometry c stride m)
    (hne : p % c.toNat ≠ q % c.toNat) (n : UInt32) :
    Holds (s.setSize (slotPtr c stride q) n) (slotPtr c stride p) msg k := by
  have hslot := hg.slot_disjoint hne
  apply h.congr
  · apply Function.update_of_ne
    omega
  · intro _ _
    rfl

theorem Holds.setByte (h : Holds s (slotPtr c stride p) msg k) (hg : Geometry c stride m)
    (hne : p % c.toNat ≠ q % c.toNat) (hk : k ≤ m.toNat) {i : Nat} (hi : i < m.toNat)
    (b : UInt8) : Holds (s.setByte (slotPtr c stride q) i b) (slotPtr c stride p) msg k := by
  have hslot := hg.slot_disjoint hne
  refine h.congr rfl ?_
  intro j hj
  apply Function.update_of_ne
  omega

theorem holds_setSize (s : Segment) (n : Nat) (msg : List UInt8) :
    Holds (s.setSize n (u32 msg.length)) n msg 0 :=
  ⟨Function.update_self .., fun _ hj => absurd hj (Nat.not_lt_zero _)⟩

theorem byte_setByte_self (s : Segment) (n k : Nat) (b : UInt8) : (s.setByte n k b).byte n k = b :=
  Function.update_self ..

theorem byte_setByte_of_ne {j : Nat} (h : j ≠ k) (b : UInt8) :
    (s.setByte n k b).byte n j = s.byte n j :=
  Function.update_of_ne (by omega) _ _

theorem Holds.next (h : Holds s n msg k) {b : UInt8} (hb : msg[k]? = some b) :
    Holds (s.setByte n k b) n msg (k + 1) := by
  refine ⟨h.1, ?_⟩
  intro j hj
  by_cases hjk : j = k
  · subst hjk
    rw [byte_setByte_self, hb]
  · rw [byte_setByte_of_ne hjk, h.2 j (by omega)]

/-- What the consumer copies: no more than its buffer takes. -/
theorem toNat_copySz (msgSz bufSize : UInt32) :
    (if msgSz < bufSize then msgSz else bufSize).toNat = min msgSz.toNat bufSize.toNat := by
  split
  · rename_i hlt
    rw [Nat.min_eq_left (UInt32.lt_iff_toNat_lt.mp hlt).le]
  · rename_i hle
    rw [Nat.min_eq_right (Nat.le_of_not_lt fun hlt => hle (UInt32.lt_iff_toNat_lt.mpr hlt))]

/-- A reader that has copied the bytes before `k`. -/
theorem Holds.take (h : Holds s n msg msg.length) (hk : k < msg.length) :
    msg.take k ++ [s.byte n k] = msg.take (k + 1) := by
  rw [List.take_add_one, h.2 k hk]
  rfl

end HftComponents.Spsc
