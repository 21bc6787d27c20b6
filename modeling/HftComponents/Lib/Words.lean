import Mathlib.Algebra.Ring.Nat
import Mathlib.Logic.Function.Basic
import Mathlib.Tactic.Common

/-!
# Words in a memory of bytes

A word of 32 bits at the address `a` is the bytes `a` to `a + 3`, the least one
first.  It is what was stored there last (`load32_store32_self`), if nothing
else was stored over one of its bytes (`load32_store32_of_apart`,
`load32_update_of_apart`).
-/

namespace HftComponents.Lib.Words

def load32 (m : Nat → UInt8) (a : Nat) : UInt32 :=
  UInt32.ofNat ((m a).toNat + (m (a + 1)).toNat * 2 ^ 8 + (m (a + 2)).toNat * 2 ^ 16 +
    (m (a + 3)).toNat * 2 ^ 24)

def store32 (m : Nat → UInt8) (a : Nat) (v : UInt32) : Nat → UInt8 := fun x =>
  if a ≤ x ∧ x < a + 4 then UInt8.ofNat (v.toNat / 2 ^ (8 * (x - a))) else m x

variable {m m' : Nat → UInt8} {a b x : Nat}

theorem load32_congr (h : ∀ x, a ≤ x → x < a + 4 → m x = m' x) : load32 m a = load32 m' a := by
  rw [load32, load32, h a (by omega) (by omega), h (a + 1) (by omega) (by omega),
    h (a + 2) (by omega) (by omega), h (a + 3) (by omega) (by omega)]

theorem store32_byte (m : Nat → UInt8) (a : Nat) (v : UInt32) {i : Nat} (hi : i < 4) :
    (store32 m a v (a + i)).toNat = v.toNat / 2 ^ (8 * i) % 2 ^ 8 := by
  rw [store32, if_pos (by omega), Nat.add_sub_cancel_left]
  exact UInt8.toNat_ofNat'

theorem load32_store32_self (m : Nat → UInt8) (a : Nat) (v : UInt32) :
    load32 (store32 m a v) a = v := by
  have hv := v.toNat_lt
  have h0 := store32_byte m a v (i := 0) (by omega)
  have h1 := store32_byte m a v (i := 1) (by omega)
  have h2 := store32_byte m a v (i := 2) (by omega)
  have h3 := store32_byte m a v (i := 3) (by omega)
  rw [Nat.add_zero] at h0
  apply UInt32.toNat_inj.mp
  rw [load32, h0, h1, h2, h3, UInt32.toNat_ofNat']
  omega

theorem load32_store32_of_apart (h : a + 4 ≤ b ∨ b + 4 ≤ a) (v : UInt32) :
    load32 (store32 m b v) a = load32 m a := by
  apply load32_congr
  intro x hle hlt
  rw [store32, if_neg (by omega)]

theorem load32_update_of_apart (h : x < a ∨ a + 4 ≤ x) (v : UInt8) :
    load32 (Function.update m x v) a = load32 m a := by
  apply load32_congr
  intro y hle hlt
  exact Function.update_of_ne (by omega) _ _

end HftComponents.Lib.Words
