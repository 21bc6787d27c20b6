import Mathlib.Data.List.AList
import Mathlib.Data.Nat.ModEq

/-!
# Timer ids

Both timers hand out ids from a 64-bit counter that starts at `1`, and keep a
map from the ids of live timers.  The counter is back at `1` after `2^64`
timers (`next_ne_first`): until then no id is handed out twice, and the ids
that have been handed out are those `Before` the counter.
-/

namespace HftComponents.Timer

abbrev TimerID := UInt64

/-- The counter after the first timer does not come back to its id any sooner. -/
theorem next_ne_first {i : Nat} (hi : i < 2 ^ 64 - 1) : (2 : TimerID) + UInt64.ofNat i ≠ 1 := by
  intro h
  have h := congrArg UInt64.toNat h
  have h2 : (2 : UInt64).toNat = 2 := rfl
  have h1 : (1 : UInt64).toNat = 1 := rfl
  rw [UInt64.toNat_add, UInt64.toNat_ofNat', h2, h1] at h
  omega

/-! ### The ids handed out so far -/

/-- The counter has passed `id`; a counter at `0` has come round. -/
def Before (id next : TimerID) : Prop := id < next ∨ next = 0

theorem Before.ne {id next : TimerID} (h : Before id next) (h0 : next ≠ 0) : id ≠ next :=
  UInt64.ne_of_lt (h.resolve_right h0)

theorem before_next {id next : TimerID} (h : id ≤ next) : Before id (next + 1) := by
  have h1 : (1 : UInt64).toNat = 1 := rfl
  by_cases hwrap : next + 1 = 0
  · exact Or.inr hwrap
  · left
    have hne : (next + 1).toNat ≠ 0 := fun h0 => hwrap (UInt64.toNat_inj.mp h0)
    have hle : id.toNat ≤ next.toNat := h
    have hlt := next.toNat_lt
    show id.toNat < (next + 1).toNat
    rw [UInt64.toNat_add, h1] at hne ⊢
    omega

theorem Before.next {id next : TimerID} (h : Before id next) (h0 : next ≠ 0) :
    Before id (next + 1) := before_next (UInt64.le_of_lt (h.resolve_right h0))

/-- To insert under a new id and erase it again changes nothing. -/
theorem erase_insert_of_notMem {β : TimerID → Type} {m : AList β} {id : TimerID} {b : β id}
    (h : id ∉ m) : (m.insert id b).erase id = m := by
  apply AList.ext
  show (m.insert id b).entries.kerase id = m.entries
  rw [AList.entries_insert_of_notMem h]
  exact List.kerase_cons_eq rfl

end HftComponents.Timer
