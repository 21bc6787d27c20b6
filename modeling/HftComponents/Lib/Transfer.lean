import Mathlib.Data.List.Basic
import Mathlib.Data.Nat.ModEq
import Mathlib.Tactic.Common

/-!
# Partial transfers

A `Source` is the reading end of a stream, a `Sink` the writing end.  A call
asks for `n` elements and moves at least one and at most `n`: how many is up to
the environment, which answers the calls one by one (`Reply`).  A call may also
fail, and a source that has nothing left says so by its `Ending`.

A source or sink is `Clean` if no call of it fails before its time.  Then what
a reader gets is all that is known of a read: it is the next part of the
stream, and not empty (`Source.read_ok`), and only the end of the stream stops
it (`Source.read_error`).
-/

namespace HftComponents.Lib.Transfer

variable {α : Type*}

/-- What the environment does with a call: it moves at most `k` elements, or
fails. -/
inductive Reply
  | upTo (k : Nat)
  | error
  deriving DecidableEq, Repr

inductive Ending
  | eof
  | error
  deriving DecidableEq, Repr

/-- The elements moved by a call that asks for `n`. -/
def portion (k n : Nat) : Nat := max 1 (min k n)

theorem portion_pos (k n : Nat) : 0 < portion k n := lt_max_of_lt_left Nat.one_pos

theorem portion_le {k n : Nat} (hn : 0 < n) : portion k n ≤ n := max_le hn (min_le_right k n)

/-! ### Reading -/

/-- Once the replies are used up, every call moves as much as it can. -/
structure Source (α : Type*) where
  unread : List α
  replies : List Reply := []
  ending : Ending := .eof
  deriving DecidableEq, Repr

namespace Source

def Clean (s : Source α) : Prop := Reply.error ∉ s.replies

def deliver (s : Source α) (m : Nat) : Except Ending (List α) × Source α :=
  match s.unread with
  | [] => (.error s.ending, s)
  | x :: xs => (.ok ((x :: xs).take m), { s with unread := (x :: xs).drop m })

def read (s : Source α) (n : Nat) : Except Ending (List α) × Source α :=
  match s.replies with
  | [] => s.deliver n
  | .error :: rs => (.error .error, { s with replies := rs })
  | .upTo k :: rs => { s with replies := rs }.deliver (portion k n)

variable {s t : Source α} {n m : Nat} {xs : List α} {e : Ending}

theorem deliver_ok (h : s.deliver m = (.ok xs, t)) (hm : 0 < m) :
    s.unread = xs ++ t.unread ∧ xs ≠ [] ∧ xs.length ≤ m ∧ t.replies = s.replies := by
  unfold deliver at h
  split at h
  · cases h
  · rename_i y ys hu
    obtain ⟨hxs, rfl⟩ := Prod.mk.inj h
    obtain rfl := Except.ok.inj hxs
    refine ⟨?_, ?_, List.length_take_le _ _, rfl⟩
    · rw [hu]
      exact (List.take_append_drop m (y :: ys)).symm
    · obtain ⟨k, rfl⟩ := Nat.exists_eq_succ_of_ne_zero hm.ne'
      exact List.cons_ne_nil _ _

theorem deliver_error (h : s.deliver m = (.error e, t)) : s.unread = [] ∧ t = s := by
  unfold deliver at h
  split at h
  · rename_i hu
    exact ⟨hu, (Prod.mk.inj h).2.symm⟩
  · cases h

theorem read_ok (h : s.read n = (.ok xs, t)) (hn : 0 < n) :
    s.unread = xs ++ t.unread ∧ xs ≠ [] ∧ xs.length ≤ n ∧ (s.Clean → t.Clean) := by
  unfold read at h
  cases hr : s.replies with
  | nil =>
    rw [hr] at h
    obtain ⟨heq, hne, hlen, hrep⟩ := deliver_ok h hn
    refine ⟨heq, hne, hlen, ?_⟩
    intro _
    rw [Clean, hrep, hr]
    exact List.not_mem_nil
  | cons r rs =>
    rw [hr] at h
    cases r with
    | error => cases h
    | upTo k =>
      obtain ⟨heq, hne, hlen, hrep⟩ := deliver_ok h (portion_pos k n)
      refine ⟨heq, hne, hlen.trans (portion_le hn), ?_⟩
      intro hc
      rw [Clean, hrep]
      rw [Clean, hr] at hc
      intro hmem
      exact hc (List.mem_cons_of_mem _ hmem)

/-- A call that fails, at a source where only the end of the stream does. -/
theorem read_error (h : s.read n = (.error e, t)) (hc : s.Clean) :
    s.unread = [] ∧ t.unread = [] ∧ t.Clean := by
  unfold read at h
  cases hr : s.replies with
  | nil =>
    rw [hr] at h
    obtain ⟨hu, rfl⟩ := deliver_error h
    exact ⟨hu, hu, hc⟩
  | cons r rs =>
    rw [hr] at h
    rw [Clean, hr] at hc
    cases r with
    | error => exact absurd List.mem_cons_self hc
    | upTo k =>
      obtain ⟨hu, rfl⟩ := deliver_error h
      refine ⟨hu, hu, ?_⟩
      intro hmem
      exact hc (List.mem_cons_of_mem _ hmem)

theorem replies_of_read {r : Except Ending (List α)} (h : s.read n = (r, t)) :
    t.replies = s.replies.tail := by
  unfold read deliver at h
  repeat' split at h
  all_goals cases h
  all_goals simp_all

theorem unread_of_read_error (h : s.read n = (.error e, t)) : t.unread = s.unread := by
  unfold read deliver at h
  repeat' split at h
  all_goals cases h
  all_goals rfl

theorem head_of_read_ok (h : s.read n = (.ok xs, t)) : s.replies.head? ≠ some .error := by
  intro herr
  obtain ⟨rs, hr⟩ := List.head?_eq_some_iff.mp herr
  simp [read, hr] at h

end Source

/-! ### Writing -/

structure Sink (α : Type*) where
  sent : List α := []
  replies : List Reply := []
  deriving DecidableEq, Repr

namespace Sink

def Clean (s : Sink α) : Prop := Reply.error ∉ s.replies

/-- The number of elements written, or `none`. -/
def write (s : Sink α) (xs : List α) : Option Nat × Sink α :=
  match s.replies with
  | [] => (some xs.length, { s with sent := s.sent ++ xs })
  | .error :: rs => (none, { s with replies := rs })
  | .upTo k :: rs =>
    let m := portion k xs.length
    (some m, { s with sent := s.sent ++ xs.take m, replies := rs })

variable {s t : Sink α} {xs : List α} {m : Nat}

theorem write_some (h : s.write xs = (some m, t)) (hne : xs ≠ []) :
    0 < m ∧ m ≤ xs.length ∧ t.sent = s.sent ++ xs.take m ∧ (s.Clean → t.Clean) := by
  have hpos : 0 < xs.length := List.length_pos_iff.mpr hne
  unfold write at h
  cases hr : s.replies with
  | nil =>
    rw [hr] at h
    obtain ⟨hm, rfl⟩ := Prod.mk.inj h
    obtain rfl := Option.some.inj hm
    exact ⟨hpos, le_rfl, by rw [List.take_length], fun _ => List.not_mem_nil⟩
  | cons r rs =>
    rw [hr] at h
    cases r with
    | error => cases h
    | upTo k =>
      obtain ⟨hm, rfl⟩ := Prod.mk.inj h
      obtain rfl := Option.some.inj hm
      refine ⟨portion_pos _ _, portion_le hpos, rfl, ?_⟩
      intro hc hmem
      apply hc
      rw [hr]
      exact List.mem_cons_of_mem _ hmem

theorem sent_of_write_none (h : s.write xs = (none, t)) : t.sent = s.sent := by
  unfold write at h
  repeat' split at h
  all_goals cases h
  rfl

theorem write_ne_none (h : s.write xs = (none, t)) : ¬ s.Clean := by
  unfold write at h
  cases hr : s.replies with
  | nil =>
    rw [hr] at h
    cases h
  | cons r rs =>
    rw [hr] at h
    cases r with
    | error =>
      intro hc
      rw [Clean, hr] at hc
      exact hc List.mem_cons_self
    | upTo k => cases h

end Sink

end HftComponents.Lib.Transfer
