import HftComponents.Spsc.Segment

/-!
# The slots in the segment

`compute_shm_size` works in 64 bits and does not wrap (`toNat_computeShmSize`);
`create` stores the slot stride in 32.  A stride that does not fit is cut to 0
or 64, and every slot lies over the next.

`slots_laid_iff` says when the slots are where they belong: if the stride fits,
or there is only one slot.
-/

namespace HftComponents.Spsc

open Lib.Ring

/-- The slots, with room for the largest message, lie behind the control block
and in the segment, and those of different cells are apart. -/
structure SlotsLaid (capacity stride maxMsgSize : UInt32) : Prop where
  inside : ∀ p : UInt64, sizeofControlBlock ≤ slotPtr capacity stride p.toNat ∧
    slotPtr capacity stride p.toNat + (sizeofSlotHeader.toNat + maxMsgSize.toNat) ≤
      (computeShmSize capacity maxMsgSize).toNat
  apart : ∀ p q : UInt64, p.toNat % capacity.toNat ≠ q.toNat % capacity.toNat →
    slotPtr capacity stride p.toNat + (sizeofSlotHeader.toNat + maxMsgSize.toNat) ≤
        slotPtr capacity stride q.toNat ∨
      slotPtr capacity stride q.toNat + (sizeofSlotHeader.toNat + maxMsgSize.toNat) ≤
        slotPtr capacity stride p.toNat

variable {c m : UInt32} {s : Segment}

theorem toNat_computeShmSize {k : Nat} (hk : k ≤ 31) (hc : c.toNat = 2 ^ k) (m : UInt32) :
    (computeShmSize c m).toNat = 256 + c.toNat * (computeSlotStride m).toNat := by
  have hm := m.toNat_lt
  have hstride := toNat_computeSlotStride m
  have hcap : c.toNat ≤ 2 ^ 31 := hc ▸ Nat.pow_le_pow_right (by decide) hk
  have hprod : c.toNat * (computeSlotStride m).toNat ≤ 2 ^ 31 * (2 ^ 32 + 64) :=
    Nat.mul_le_mul hcap (by omega)
  have h256 : sizeofControlBlock.toUInt64.toNat = 256 := rfl
  rw [computeShmSize, UInt64.toNat_add, UInt64.toNat_mul, UInt32.toNat_toUInt64, h256]
  omega

theorem pow_of_create (h : create c m = some s) : ∃ k ≤ 31, c.toNat = 2 ^ k := by
  unfold create at h
  split at h
  · cases h
  · rename_i hc
    rw [not_or, not_not] at hc
    exact pow_of_and_eq_zero hc.1 hc.2

theorem slot_end_le {i stride : Nat} (hi : i < c.toNat)
    (hroom : 8 + m.toNat ≤ stride) :
    256 + i * stride + (8 + m.toNat) ≤ 256 + c.toNat * stride := by
  have hmul : (i + 1) * stride ≤ c.toNat * stride := Nat.mul_le_mul_right _ hi
  rw [Nat.succ_mul] at hmul
  omega

theorem slotsLaid_of_lt (h : create c m = some s)
    (hfit : (computeSlotStride m).toNat < 2 ^ 32) :
    SlotsLaid s.cb.capacity s.cb.slotStride s.cb.maxMsgSize := by
  have hg := geometry_of_create h hfit
  obtain ⟨k, hk, hc⟩ := pow_of_create h
  have hcb := cb_of_create h
  have hsize := toNat_computeShmSize hk hc m
  have hpos := Nat.two_pow_pos k
  have hstride : s.cb.slotStride.toNat = (computeSlotStride m).toNat := by
    rw [hcb, UInt64.toNat_toUInt32, Nat.mod_eq_of_lt hfit]
  refine ⟨?_, fun p q hne => hg.slot_disjoint hne⟩
  intro p
  have hroom := hg.room
  rw [hg.slotPtr_eq]
  rw [hcb] at hroom hstride ⊢
  dsimp only at hroom hstride ⊢
  rw [hsize, ← hstride]
  have hlt : p.toNat % c.toNat < c.toNat := Nat.mod_lt _ (by omega)
  exact ⟨Nat.le_add_right .., slot_end_le hlt hroom⟩

/-- With one slot the stride is not used. -/
theorem slotsLaid_of_one (h : create 1 m = some s) :
    SlotsLaid s.cb.capacity s.cb.slotStride s.cb.maxMsgSize := by
  have hsize := toNat_computeShmSize (c := 1) (k := 0) (by decide) rfl m
  have hstride := toNat_computeSlotStride m
  have h1 : (1 : UInt32).toNat = 1 := rfl
  rw [cb_of_create h]
  dsimp only
  have hslot : ∀ stride p, slotPtr 1 stride p = 256 := by
    intro stride p
    have hmask : (1 : UInt32) - 1 = 0 := rfl
    have hzero : (0 : UInt32).toNat = 0 := rfl
    rw [slotPtr, hmask, UInt32.and_zero, hzero, Nat.zero_mul]
    rfl
  refine ⟨?_, ?_⟩
  · intro p
    rw [hslot, hsize, h1, Nat.one_mul, hstride]
    refine ⟨Nat.le_refl _, ?_⟩
    show 256 + (8 + m.toNat) ≤ _
    omega
  · intro p q hne
    rw [h1, Nat.mod_one, Nat.mod_one] at hne
    exact absurd rfl hne

theorem slotPtr_of_lt (h : create c m = some s) {p : Nat} (hp : p < c.toNat) :
    slotPtr s.cb.capacity s.cb.slotStride p =
      256 + p * ((computeSlotStride m).toNat % 2 ^ 32) := by
  obtain ⟨k, hk, hc⟩ := pow_of_create h
  have hmask : (c - 1).toNat = c.toNat - 1 := by
    rw [UInt32.toNat_sub_of_le _ _ (UInt32.le_iff_toNat_le.mpr (by
      show 1 ≤ c.toNat
      omega))]
    rfl
  rw [cb_of_create h, slotPtr, toNat_u32_and hc (by omega) hmask, Nat.mod_eq_of_lt hp,
    UInt64.toNat_toUInt32]
  rfl

/-- A stride that is cut lays slot 0 over slot 1. -/
theorem not_slotsLaid_of_le (h : create c m = some s) (hne : c ≠ 1)
    (hcut : 2 ^ 32 ≤ (computeSlotStride m).toNat) :
    ¬SlotsLaid s.cb.capacity s.cb.slotStride s.cb.maxMsgSize := by
  intro hlaid
  obtain ⟨k, -, hc⟩ := pow_of_create h
  have hcap : 2 ≤ c.toNat := by
    have hone : c.toNat ≠ 1 := fun h1 => hne (UInt32.toNat_inj.mp h1)
    have hpos := Nat.two_pow_pos k
    omega
  have hcells : (0 : UInt64).toNat % c.toNat ≠ (1 : UInt64).toNat % c.toNat := by
    show 0 % c.toNat ≠ 1 % c.toNat
    rw [Nat.zero_mod, Nat.mod_eq_of_lt hcap]
    exact Nat.zero_ne_one
  have hm := m.toNat_lt
  have hstride := toNat_computeSlotStride m
  have hcb := cb_of_create h
  have h0 := slotPtr_of_lt h (p := 0) (by omega)
  have h1 := slotPtr_of_lt h (p := 1) (by omega)
  have h8 : sizeofSlotHeader.toNat = 8 := rfl
  have hapart := hlaid.apart 0 1 (by rw [hcb]; exact hcells)
  rw [show (0 : UInt64).toNat = 0 from rfl, show (1 : UInt64).toNat = 1 from rfl, h0, h1, h8,
    hcb] at hapart
  dsimp only at hapart
  omega

/-- **The slots are laid out as computed exactly when the stride fits.** -/
theorem slots_laid_iff (h : create c m = some s) :
    SlotsLaid s.cb.capacity s.cb.slotStride s.cb.maxMsgSize ↔
      c = 1 ∨ (computeSlotStride m).toNat < 2 ^ 32 := by
  refine ⟨?_, ?_⟩
  · intro hlaid
    by_contra hcut
    rw [not_or, Nat.not_lt] at hcut
    exact not_slotsLaid_of_le h hcut.1 hcut.2 hlaid
  · intro hfit
    rcases hfit with rfl | hfit
    · exact slotsLaid_of_one h
    · exact slotsLaid_of_lt h hfit

/-- Four slots for messages of up to 200 bytes. -/
theorem slots_laid_iff_four :
    ∃ s, create 4 200 = some s ∧ SlotsLaid s.cb.capacity s.cb.slotStride s.cb.maxMsgSize := by
  have h : create 4 200 = some { cb := { capacity := 4, slotStride := 256, maxMsgSize := 200 } } :=
    rfl
  exact ⟨_, h, (slots_laid_iff h).mpr (Or.inr (by decide))⟩

/-- **Two slots for messages of 4 GiB.**  The stride of `2 ^ 32` bytes is stored
as `0`, and both slots lie at the same address. -/
theorem slots_overlap :
    ∃ s, create 2 4294967288 = some s ∧ s.cb.slotStride = 0 ∧
      ¬SlotsLaid s.cb.capacity s.cb.slotStride s.cb.maxMsgSize := by
  refine ⟨_, rfl, rfl, ?_⟩
  intro hlaid
  have hapart := hlaid.apart 0 1 (by decide)
  exact absurd hapart (by decide)

end HftComponents.Spsc
