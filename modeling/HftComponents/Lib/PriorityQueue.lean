import Mathlib.Data.Multiset.AddSub
import Mathlib.Order.Lattice
import Mathlib.Tactic.Common

/-!
# Priority queues

What a program may rely on when it uses a min-queue with repeated keys: the
queue is the multiset of what has been pushed and not popped (`elems`), and the
top is one of the elements of least key.  Which one of several is left open, so
a result over every `PriorityQueue` holds for any order of ties.

`PriorityQueue.sortedList` is one of them, which keeps equal keys in the order
in which they were pushed.
-/

namespace HftComponents.Lib

structure PriorityQueue (α : Type) {K : Type} [LinearOrder K] (key : α → K) where
  Queue : Type
  empty : Queue
  push : Queue → α → Queue
  top : Queue → Option α
  pop : Queue → Queue
  elems : Queue → Multiset α
  elems_empty : elems empty = 0
  elems_push : ∀ q a, elems (push q a) = a ::ₘ elems q
  elems_of_top_eq_none : ∀ q, top q = none → elems q = 0
  elems_pop : ∀ q a, top q = some a → elems q = a ::ₘ elems (pop q)
  key_top_le : ∀ q a, top q = some a → ∀ b ∈ elems q, key a ≤ key b

namespace PriorityQueue

variable {α K : Type} [LinearOrder K] {key : α → K} (pq : PriorityQueue α key)

theorem top_mem {q : pq.Queue} {a : α} (h : pq.top q = some a) : a ∈ pq.elems q := by
  rw [pq.elems_pop q a h]
  exact Multiset.mem_cons_self a _

theorem mem_push {q : pq.Queue} {a b : α} : b ∈ pq.elems (pq.push q a) ↔ b = a ∨ b ∈ pq.elems q := by
  rw [pq.elems_push]
  exact Multiset.mem_cons

theorem mem_of_mem_pop {q : pq.Queue} {a b : α} (h : pq.top q = some a)
    (hb : b ∈ pq.elems (pq.pop q)) : b ∈ pq.elems q := by
  rw [pq.elems_pop q a h]
  exact Multiset.mem_cons_of_mem hb

theorem mem_pop_of_ne {q : pq.Queue} {a b : α} (h : pq.top q = some a) (hb : b ∈ pq.elems q)
    (hne : b ≠ a) : b ∈ pq.elems (pq.pop q) := by
  rw [pq.elems_pop q a h] at hb
  exact (Multiset.mem_cons.mp hb).resolve_left hne

/-! ### Sorted lists -/

/-- Goes in after the elements of the same key. -/
def insertByKey (key : α → K) (a : α) : List α → List α
  | [] => [a]
  | b :: l => if key a < key b then a :: b :: l else b :: insertByKey key a l

theorem insertByKey_perm (a : α) (l : List α) : (insertByKey key a l).Perm (a :: l) := by
  induction l with
  | nil => exact List.Perm.refl _
  | cons b l ih =>
    rw [insertByKey]
    by_cases h : key a < key b
    · rw [if_pos h]
    · rw [if_neg h]
      exact (ih.cons b).trans (List.Perm.swap a b l)

def Sorted (key : α → K) (l : List α) : Prop := l.Pairwise fun a b => key a ≤ key b

theorem sorted_insertByKey (a : α) {l : List α} (h : Sorted key l) :
    Sorted key (insertByKey key a l) := by
  induction l with
  | nil => exact List.pairwise_singleton _ a
  | cons b l ih =>
    obtain ⟨hb, hl⟩ := List.pairwise_cons.mp h
    rw [insertByKey]
    by_cases hab : key a < key b
    · rw [if_pos hab]
      refine List.pairwise_cons.mpr ⟨?_, h⟩
      intro c hc
      rcases List.mem_cons.mp hc with rfl | hc
      · exact hab.le
      · exact hab.le.trans (hb c hc)
    · rw [if_neg hab]
      refine List.pairwise_cons.mpr ⟨?_, ih hl⟩
      intro c hc
      rcases List.mem_cons.mp ((insertByKey_perm a l).mem_iff.mp hc) with rfl | hc
      · exact not_lt.mp hab
      · exact hb c hc

def sortedList (key : α → K) : PriorityQueue α key where
  Queue := { l : List α // Sorted key l }
  empty := ⟨[], List.Pairwise.nil⟩
  push q a := ⟨insertByKey key a q.1, sorted_insertByKey a q.2⟩
  top q := q.1.head?
  pop q := ⟨q.1.tail, List.Pairwise.tail q.2⟩
  elems q := q.1
  elems_empty := rfl
  elems_push := fun q a => Multiset.coe_eq_coe.mpr (insertByKey_perm a q.1)
  elems_of_top_eq_none := by
    rintro ⟨l, _⟩ h
    rw [List.head?_eq_none_iff.mp h]
    rfl
  elems_pop := by
    rintro ⟨l, _⟩ a h
    rw [List.head?_eq_some_iff] at h
    obtain ⟨t, rfl⟩ := h
    rfl
  key_top_le := by
    rintro ⟨l, hl⟩ a h b hb
    obtain ⟨t, rfl⟩ := List.head?_eq_some_iff.mp h
    rcases List.mem_cons.mp (Multiset.mem_coe.mp hb) with rfl | hb
    · exact le_rfl
    · exact (List.pairwise_cons.mp hl).1 b hb

/-- An element that is not smaller stays behind the top. -/
theorem sortedList_top_push {q : (sortedList key).Queue} {a b : α}
    (h : (sortedList key).top q = some a) (hab : key a ≤ key b) :
    (sortedList key).top ((sortedList key).push q b) = some a := by
  obtain ⟨l, hl⟩ := q
  obtain ⟨t, rfl⟩ := List.head?_eq_some_iff.mp h
  show (insertByKey key b (a :: t)).head? = some a
  rw [insertByKey, if_neg (not_lt.mpr hab)]
  rfl

end PriorityQueue

end HftComponents.Lib
