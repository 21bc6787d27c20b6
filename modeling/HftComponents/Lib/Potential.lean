import HftComponents.Lib.Machine

/-!
# The potential method

A step of a machine costs what the state and the label say, and `tally` adds up
what the steps of an execution cost.  A potential pays for it: if a step that costs
more than it earns lowers the potential by the difference, then an execution cannot
cost more than it earns and the potential it starts with (`tally_le`).

With the number of labels of a kind as the cost (`tally_labels`) and that of the
events shown as the earnings (`tally_shown`), this bounds the steps of one party by
its calls that have returned; with one cost for each call, it is the amortised cost
of the calls.
-/

namespace HftComponents.Lib.Machine

variable {S L O : Type*} {m : Machine S L O} {s t : S} {ls : List L} {os : List O}

def tally (m : Machine S L O) (w : S → L → Nat) : S → List L → Nat
  | _, [] => 0
  | s, l :: ls =>
    match m.step s l with
    | none => 0
    | some (t, _) => w s l + m.tally w t ls

theorem tally_cons {w : S → L → Nat} {l : L} {o : List O} (h : m.step s l = some (t, o)) :
    m.tally w s (l :: ls) = w s l + m.tally w t ls := by
  rw [tally, h]

/-- The number of events that a step shows of those that meet `q`. -/
def shows (m : Machine S L O) (q : O → Bool) (s : S) (l : L) : Nat :=
  match m.step s l with
  | none => 0
  | some (_, o) => o.countP q

theorem shows_eq {q : O → Bool} {l : L} {o : List O} (h : m.step s l = some (t, o)) :
    m.shows q s l = o.countP q := by
  rw [shows, h]

/-- **The potential rule**: `r` is the potential, `w` what a step costs and `c` what it
earns, needed of the states that meet `I` and of the steps that meet `A` only. -/
theorem tally_le {I : S → Prop} {A : S → L → Prop} {r : S → Nat} {w c : S → L → Nat}
    (hstep : ∀ s l t o, I s → A s l → m.step s l = some (t, o) →
      I t ∧ w s l + r t ≤ r s + c s l)
    (h0 : I s) (hok : m.ExecOk A s ls) (h : m.exec s ls = some (t, os)) :
    m.tally w s ls + r t ≤ r s + m.tally c s ls := by
  induction ls generalizing s os with
  | nil =>
    cases h
    simp [tally]
  | cons l ls ih =>
    obtain ⟨u, o, os', hs, hrest, -⟩ := exec_cons_some h
    obtain ⟨hI, hle⟩ := hstep s l u o h0 hok.1 hs
    have hle' := ih hI (hok.2 _ hs) hrest
    rw [tally_cons hs, tally_cons hs]
    omega

theorem tally_zero : m.tally (fun _ _ => 0) s ls = 0 := by
  induction ls generalizing s with
  | nil => rfl
  | cons l ls ih =>
    simp only [tally]
    split
    · rfl
    · rw [ih]

/-- Without earnings the potential pays for all. -/
theorem tally_le_rank {I : S → Prop} {A : S → L → Prop} {r : S → Nat} {w : S → L → Nat}
    (hstep : ∀ s l t o, I s → A s l → m.step s l = some (t, o) → I t ∧ w s l + r t ≤ r s)
    (h0 : I s) (hok : m.ExecOk A s ls) (h : m.exec s ls = some (t, os)) :
    m.tally w s ls + r t ≤ r s := by
  have hle := tally_le (c := fun _ _ => 0) hstep h0 hok h
  rwa [tally_zero, Nat.add_zero] at hle

theorem tally_labels {p : L → Bool} (h : m.exec s ls = some (t, os)) :
    m.tally (fun _ l => (p l).toNat) s ls = ls.countP p := by
  induction ls generalizing s os with
  | nil => rfl
  | cons l ls ih =>
    obtain ⟨u, o, os', hs, hrest, -⟩ := exec_cons_some h
    rw [tally_cons hs, ih hrest, List.countP_cons, Nat.add_comm]
    cases p l <;> rfl

theorem tally_shown {q : O → Bool} (h : m.exec s ls = some (t, os)) :
    m.tally (m.shows q) s ls = os.countP q := by
  induction ls generalizing s os with
  | nil =>
    cases h
    rfl
  | cons l ls ih =>
    obtain ⟨u, o, os', hs, hrest, rfl⟩ := exec_cons_some h
    rw [tally_cons hs, ih hrest, shows_eq hs, List.countP_append]

theorem tally_mul {w : S → L → Nat} (b : Nat) :
    m.tally (fun s l => b * w s l) s ls = b * m.tally w s ls := by
  induction ls generalizing s with
  | nil => rfl
  | cons l ls ih =>
    simp only [tally]
    split
    · rfl
    · rw [ih, Nat.mul_add]

theorem tally_add {w w' : S → L → Nat} :
    m.tally (fun s l => w s l + w' s l) s ls = m.tally w s ls + m.tally w' s ls := by
  induction ls generalizing s with
  | nil => rfl
  | cons l ls ih =>
    simp only [tally]
    split
    · rfl
    · rw [ih]
      omega

/-! ### Calls that end -/

/-- A party whose steps are the labels that meet `p`, whose calls return with the events
that meet `q`, and which is between its calls in the states that meet `idle`: no call of
it takes more than `b` of its steps, whatever the others do, and none ever waits. -/
structure WaitFree (m : Machine S L O) (p : L → Bool) (q : O → Bool) (idle : S → Prop) (b : Nat)
    (s : S) : Prop where
  bounded : ∀ ls t os, m.exec s ls = some (t, os) → ls.countP p ≤ b * (os.countP q + 1)
  enabled : ¬ idle s → ∃ l, p l = true ∧ (m.step s l).isSome

/-- Each step of the party uses up one of the `b`, which it gets back when it returns. -/
theorem bounded_of_rank {I : S → Prop} {p : L → Bool} {q : O → Bool} {r : S → Nat} {b : Nat}
    (hstep : ∀ s l t o, I s → m.step s l = some (t, o) →
      I t ∧ (p l).toNat + r t ≤ r s + b * o.countP q)
    (h0 : I s) (hr : r s ≤ b) (h : m.exec s ls = some (t, os)) :
    ls.countP p ≤ b * (os.countP q + 1) := by
  have hle := tally_le (m := m) (I := I) (A := anyStep) (r := r) (w := fun _ l => (p l).toNat)
    (c := fun s l => b * m.shows q s l)
    (fun s l t o hs _ hst => by
      rw [shows_eq hst]
      exact hstep s l t o hs hst) h0 (execOk_of_forall (fun _ _ _ => trivial) s) h
  rw [tally_mul, tally_labels h, tally_shown h] at hle
  rw [Nat.mul_add, Nat.mul_one]
  omega

end HftComponents.Lib.Machine
