import Mathlib.Data.List.Basic
import Mathlib.Data.List.Induction
import Mathlib.Tactic.Common

/-!
# Step machines and their runs

A `Machine` is a partial step function: a state and a label (whose turn it is,
and what the environment asks for) give the next state and the events the step
shows to the outside.  Every component below is one: a scheduler picks a label
at each step, so a statement about all runs is a statement about all
interleavings.

`Run ok s os t` is a run from `s` to `t` that shows `os`, every step of which
meets `ok`.  Two rules carry every result of the development:

* `Run.invariant`: what the first state satisfies and every step keeps holds at
  the end of every run, together with what the run has shown so far (`Run.keeps`
  if it does not speak of that).
* `Run.accepted`: a relation to an abstract acceptor that every step keeps
  makes the acceptor follow the whole run (`Accepts`).

`Forever` is an infinite run.  `exec` runs a list of labels, for runs on concrete
inputs and for statements about a schedule.  A rank that every step lowers bounds
them all (`length_exec_le`), and a run can be carried on until it is `Stuck`.
-/

namespace HftComponents.Lib

/-- A machine over states `S`, labels `L` and shown events `O`; `none` means
that the label is not enabled. -/
structure Machine (S L O : Type*) where
  step : S → L → Option (S × List O)

namespace Machine

variable {S L O T : Type*} {m : Machine S L O} {ok : S → L → Prop}

/-- The runs whose steps all meet `ok`. -/
inductive Run (m : Machine S L O) (ok : S → L → Prop) : S → List O → S → Prop
  | refl (s : S) : Run m ok s [] s
  | step {s t u : S} {os o : List O} {l : L} (prior : Run m ok s os t) (hok : ok t l)
      (h : m.step t l = some (u, o)) : Run m ok s (os ++ o) u

/-- Every step, without a condition. -/
def anyStep : S → L → Prop := fun _ _ => True

theorem Run.single {s t : S} {o : List O} {l : L} (hok : ok s l)
    (h : m.step s l = some (t, o)) : Run m ok s o t := by
  simpa using Run.step (.refl s) hok h

theorem Run.trans {s t u : S} {os os' : List O} (h : Run m ok s os t) (g : Run m ok t os' u) :
    Run m ok s (os ++ os') u := by
  induction g with
  | refl => simpa using h
  | step _ hok hs ih =>
    rw [← List.append_assoc]
    exact .step ih hok hs

/-- **The invariant rule.**  `P` may speak of what the run has shown so far. -/
theorem Run.invariant {P : List O → S → Prop} {s : S} (h0 : P [] s)
    (hstep : ∀ os t l u o, P os t → ok t l → m.step t l = some (u, o) → P (os ++ o) u)
    {os : List O} {t : S} (h : Run m ok s os t) : P os t := by
  induction h with
  | refl => exact h0
  | step _ hok hs ih => exact hstep _ _ _ _ _ ih hok hs

theorem Run.keeps {I : S → Prop} {s : S} (h0 : I s)
    (hstep : ∀ t l u o, I t → ok t l → m.step t l = some (u, o) → I u)
    {os : List O} {t : S} (h : Run m ok s os t) : I t :=
  h.invariant (P := fun _ t => I t) h0 fun _ t l u o => hstep t l u o

/-- An invariant whose steps show only events that satisfy `E`. -/
theorem Run.keeps_shown {I : S → Prop} {E : O → Prop} {s : S} (h0 : I s)
    (hstep : ∀ t l u o, I t → ok t l → m.step t l = some (u, o) → I u ∧ ∀ e ∈ o, E e)
    {os : List O} {t : S} (h : Run m ok s os t) : I t ∧ ∀ e ∈ os, E e := by
  refine h.invariant (P := fun os t => I t ∧ ∀ e ∈ os, E e) ⟨h0, by simp⟩ ?_
  intro os t l u o ht hok hs
  obtain ⟨hI, hE⟩ := ht
  obtain ⟨hI', hE'⟩ := hstep t l u o hI hok hs
  refine ⟨hI', ?_⟩
  intro e he
  rcases List.mem_append.mp he with he | he
  · exact hE e he
  · exact hE' e he

/-- A condition that follows from another in the states of an invariant. -/
theorem Run.imp {ok' : S → L → Prop} {I : S → Prop} {s : S} (h0 : I s)
    (hstep : ∀ t l u o, I t → m.step t l = some (u, o) → I u)
    (himp : ∀ t l, I t → ok t l → ok' t l) {os : List O} {t : S} (h : Run m ok s os t) :
    Run m ok' s os t := by
  have hinv : Run m ok' s os t ∧ I t := by
    refine h.invariant (P := fun os t => Run m ok' s os t ∧ I t) ⟨.refl s, h0⟩ ?_
    intro os t l u o ht hok hs
    obtain ⟨hrun, hI⟩ := ht
    exact ⟨hrun.step (himp t l hI hok) hs, hstep t l u o hI hs⟩
  exact hinv.1

/-- The invariant rule under a condition `Q` on what the whole run shows, such
as that no identifier is handed out twice; `Q` passes to every earlier part. -/
theorem Run.invariant_of {P : List O → S → Prop} {Q : List O → Prop} {s : S}
    (hQ : ∀ os o, Q (os ++ o) → Q os) (h0 : P [] s)
    (hstep : ∀ os t l u o, P os t → ok t l → Q (os ++ o) → m.step t l = some (u, o) →
      P (os ++ o) u)
    {os : List O} {t : S} (h : Run m ok s os t) (hq : Q os) : P os t := by
  induction h with
  | refl => exact h0
  | step _ hok hs ih => exact hstep _ _ _ _ _ (ih (hQ _ _ hq)) hok hq hs

/-! ### Infinite runs -/

/-- An infinite run through the states `σ`; step `i` has the label `ls i` and
shows `os i`. -/
def Forever (m : Machine S L O) (σ : Nat → S) (ls : Nat → L) (os : Nat → List O) : Prop :=
  ∀ i, m.step (σ i) (ls i) = some (σ (i + 1), os i)

/-- Until a step shows something that satisfies `E`, what holds at `i` and is
kept by the other steps holds. -/
theorem Forever.keeps_until {I : S → Prop} {E : O → Prop} {σ : Nat → S} {ls : Nat → L}
    {os : Nat → List O} (h : m.Forever σ ls os) {i : Nat} (h0 : I (σ i))
    (hstep : ∀ t l u o, I t → m.step t l = some (u, o) → (∀ e ∈ o, ¬E e) → I u) {j : Nat}
    (hij : i ≤ j) (hnone : ∀ k, i ≤ k → k < j → ∀ e ∈ os k, ¬E e) : I (σ j) := by
  induction hij with
  | refl => exact h0
  | @step j hij ih =>
    refine hstep _ _ _ _ (ih fun k hk hkj => hnone k hk (Nat.lt_succ_of_lt hkj)) (h j) ?_
    exact hnone j hij (Nat.lt_succ_self j)

/-! ### Acceptors -/

/-- An abstract relation `A` on `T` follows a list of events. -/
inductive Accepts (A : T → O → T → Prop) : T → List O → T → Prop
  | nil (t : T) : Accepts A t [] t
  | snoc {t u v : T} {os : List O} {o : O} (prior : Accepts A t os u) (h : A u o v) :
      Accepts A t (os ++ [o]) v

theorem Accepts.single {A : T → O → T → Prop} {t u : T} {o : O} (h : A t o u) :
    Accepts A t [o] u := by
  simpa using Accepts.snoc (.nil t) h

theorem Accepts.trans {A : T → O → T → Prop} {t u v : T} {os os' : List O}
    (h : Accepts A t os u) (g : Accepts A u os' v) : Accepts A t (os ++ os') v := by
  induction g with
  | nil => simpa using h
  | snoc _ ha ih =>
    rw [← List.append_assoc]
    exact .snoc ih ha

theorem Accepts.cons {A : T → O → T → Prop} {t u v : T} {o : O} {os : List O}
    (h : A t o u) (g : Accepts A u os v) : Accepts A t (o :: os) v :=
  (Accepts.single h).trans g

theorem Accepts.of_concat {A : T → O → T → Prop} {t v : T} {os : List O} {o : O}
    (h : Accepts A t (os ++ [o]) v) : ∃ u, Accepts A t os u ∧ A u o v := by
  generalize he : os ++ [o] = l at h
  cases h with
  | nil => exact absurd he (by simp)
  | snoc prior ha =>
    obtain ⟨rfl, hlast⟩ := List.append_inj' he rfl
    obtain rfl := List.singleton_inj.mp hlast
    exact ⟨_, prior, ha⟩

theorem Accepts.of_nil {A : T → O → T → Prop} {t v : T} (h : Accepts A t [] v) : t = v := by
  generalize he : ([] : List O) = l at h
  cases h with
  | nil => rfl
  | snoc _ _ => simp at he

theorem Accepts.of_cons {A : T → O → T → Prop} {t v : T} {o : O} {os : List O}
    (h : Accepts A t (o :: os) v) : ∃ u, A t o u ∧ Accepts A u os v := by
  induction os using List.reverseRecOn generalizing v with
  | nil =>
    obtain ⟨u, hu, ha⟩ := (show Accepts A t ([] ++ [o]) v from h).of_concat
    obtain rfl := hu.of_nil
    exact ⟨v, ha, .nil v⟩
  | append_singleton os p ih =>
    obtain ⟨w, hw, ha⟩ := (show Accepts A t (o :: os ++ [p]) v from h).of_concat
    obtain ⟨u, hu, hrest⟩ := ih hw
    exact ⟨u, hu, hrest.snoc ha⟩

/-- **The simulation rule.**  A relation kept by every step carries every run
to the acceptor, under a condition on what the whole run shows. -/
theorem Run.accepted {A : T → O → T → Prop} {R : List O → S → T → Prop} {Q : List O → Prop}
    {s : S} {a : T} (hQ : ∀ os o, Q (os ++ o) → Q os) (h0 : R [] s a)
    (hstep : ∀ os t b l u o, R os t b → ok t l → Q (os ++ o) → m.step t l = some (u, o) →
      ∃ c, Accepts A b o c ∧ R (os ++ o) u c)
    {os : List O} {t : S} (h : Run m ok s os t) (hq : Q os) :
    ∃ b, Accepts A a os b ∧ R os t b := by
  induction h with
  | refl => exact ⟨a, .nil a, h0⟩
  | step _ hok hs ih =>
    obtain ⟨b, hb, hR⟩ := ih (hQ _ _ hq)
    obtain ⟨c, hc, hR'⟩ := hstep _ _ _ _ _ _ hR hok hq hs
    exact ⟨c, hb.trans hc, hR'⟩

/-! ### Running a list of labels -/

/-- Runs the labels in order, collecting what the steps show. -/
def exec (m : Machine S L O) : S → List L → Option (S × List O)
  | s, [] => some (s, [])
  | s, l :: ls =>
    match m.step s l with
    | none => none
    | some (t, o) =>
      match m.exec t ls with
      | none => none
      | some (u, os) => some (u, o ++ os)

theorem exec_cons {s t : S} {l : L} {ls : List L} {o : List O} (h : m.step s l = some (t, o)) :
    m.exec s (l :: ls) = (m.exec t ls).map fun p => (p.1, o ++ p.2) := by
  rw [exec, h]
  dsimp only
  cases m.exec t ls <;> rfl

theorem exec_cons_some {s t : S} {l : L} {ls : List L} {os : List O}
    (h : m.exec s (l :: ls) = some (t, os)) :
    ∃ u o os', m.step s l = some (u, o) ∧ m.exec u ls = some (t, os') ∧ os = o ++ os' := by
  cases hs : m.step s l with
  | none => simp [exec, hs] at h
  | some p =>
    rw [exec_cons hs] at h
    obtain ⟨q, hq, he⟩ := Option.map_eq_some_iff.mp h
    cases he
    exact ⟨p.1, p.2, q.2, rfl, hq, rfl⟩

/-- Whether every step of an execution meets `ok`, as far as it goes. -/
def ExecOk (m : Machine S L O) (ok : S → L → Prop) : S → List L → Prop
  | _, [] => True
  | s, l :: ls => ok s l ∧ ∀ p, m.step s l = some p → m.ExecOk ok p.1 ls

/-- Whether a concrete execution meets a decidable `ok` can be computed. -/
instance decidableExecOk [∀ s l, Decidable (ok s l)] :
    ∀ (s : S) (ls : List L), Decidable (m.ExecOk ok s ls)
  | _, [] => isTrue trivial
  | s, l :: ls =>
    match h : m.step s l with
    | none =>
      decidable_of_iff (ok s l) ⟨fun hok => ⟨hok, fun _ hp => absurd (h.symm.trans hp) (by simp)⟩,
        And.left⟩
    | some p =>
      have := decidableExecOk p.1 ls
      decidable_of_iff (ok s l ∧ m.ExecOk ok p.1 ls)
        ⟨fun hok => ⟨hok.1, fun _ hp => Option.some.inj (h.symm.trans hp) ▸ hok.2⟩,
          fun hok => ⟨hok.1, hok.2 p h⟩⟩

theorem run_of_exec {s t : S} {ls : List L} {os : List O} (hok : m.ExecOk ok s ls)
    (h : m.exec s ls = some (t, os)) : Run m ok s os t := by
  induction ls generalizing s os with
  | nil =>
    simp only [exec, Option.some.injEq, Prod.mk.injEq] at h
    obtain ⟨rfl, rfl⟩ := h
    exact .refl s
  | cons l ls ih =>
    cases hs : m.step s l with
    | none => simp [exec, hs] at h
    | some p =>
      obtain ⟨u, o⟩ := p
      rw [exec_cons hs] at h
      obtain ⟨q, hq, he⟩ := Option.map_eq_some_iff.mp h
      obtain ⟨rfl, rfl⟩ := Prod.mk.inj he
      exact (Run.single hok.1 hs).trans (ih (hok.2 _ hs) hq)

theorem execOk_cons {s t : S} {l : L} {ls : List L} {o : List O} (hok : ok s l)
    (hs : m.step s l = some (t, o)) (h : m.ExecOk ok t ls) : m.ExecOk ok s (l :: ls) := by
  refine ⟨hok, ?_⟩
  intro p hp
  obtain rfl := Option.some.inj (hs.symm.trans hp)
  exact h

theorem execOk_of_forall {ls : List L} (h : ∀ s, ∀ l ∈ ls, ok s l) (s : S) :
    m.ExecOk ok s ls := by
  induction ls generalizing s with
  | nil => trivial
  | cons l ls ih =>
    refine ⟨h s l List.mem_cons_self, ?_⟩
    intro p _
    apply ih
    intro t k hk
    exact h t k (List.mem_cons_of_mem _ hk)

/-- What an execution has shown, each of its steps has shown. -/
theorem execOk_of_exec {E : O → Prop} {s t : S} {ls : List L} {os : List O}
    (h : m.exec s ls = some (t, os)) (hok : ∀ s, ∀ l ∈ ls, ok s l) (hE : ∀ e ∈ os, E e) :
    m.ExecOk (fun s l => ok s l ∧ ∀ u o, m.step s l = some (u, o) → ∀ e ∈ o, E e) s ls := by
  induction ls generalizing s os with
  | nil => trivial
  | cons l ls ih =>
    obtain ⟨u, o, os', hs, hrest, rfl⟩ := exec_cons_some h
    obtain ⟨hE, hE'⟩ := List.forall_mem_append.mp hE
    refine execOk_cons ⟨hok s l List.mem_cons_self, ?_⟩ hs
      (ih hrest (fun s k hk => hok s k (List.mem_cons_of_mem _ hk)) hE')
    intro v o' hv
    cases hs.symm.trans hv
    exact hE

/-- A concrete run, known by what `f` reads off its last state. -/
theorem exists_run_of_exec {α : Type} (f : S → α) {s : S} {ls : List L} {os : List O} {a : α}
    (hok : m.ExecOk ok s ls)
    (h : (m.exec s ls).map (fun p => (f p.1, p.2)) = some (a, os)) :
    ∃ t, Run m ok s os t ∧ f t = a := by
  obtain ⟨⟨t, os'⟩, hexec, heq⟩ := Option.map_eq_some_iff.mp h
  obtain ⟨rfl, rfl⟩ := Prod.mk.inj heq
  exact ⟨t, run_of_exec hok hexec, rfl⟩

/-- An execution of any labels is a run. -/
theorem run_of_exec_any {s t : S} {ls : List L} {os : List O}
    (h : m.exec s ls = some (t, os)) : Run m anyStep s os t :=
  run_of_exec (execOk_of_forall (fun _ _ _ => trivial) s) h

/-! ### Runs that end -/

/-- No label is enabled. -/
def Stuck (m : Machine S L O) (s : S) : Prop := ∀ l, m.step s l = none

section Rank

variable {rank : S → Nat} (hrank : ∀ s l t o, m.step s l = some (t, o) → rank t < rank s)

include hrank

/-- A rank that every step lowers bounds the length of every execution. -/
theorem length_exec_le {s t : S} {ls : List L} {os : List O} (h : m.exec s ls = some (t, os)) :
    ls.length + rank t ≤ rank s := by
  induction ls generalizing s os with
  | nil =>
    cases h
    simp
  | cons l ls ih =>
    obtain ⟨u, o, os', hs, hrest, rfl⟩ := exec_cons_some h
    have hlt := hrank s l u o hs
    have hle := ih hrest
    rw [List.length_cons]
    omega

/-- ... and then every run can be carried on until it is stuck. -/
theorem exists_stuck (s : S) : ∃ os t, Run m anyStep s os t ∧ m.Stuck t := by
  induction hn : rank s using Nat.strongRecOn generalizing s with
  | ind n ih =>
    by_cases hstuck : m.Stuck s
    · exact ⟨[], s, .refl s, hstuck⟩
    · obtain ⟨l, hl⟩ := not_forall.mp hstuck
      obtain ⟨⟨u, o⟩, hu⟩ := Option.ne_none_iff_exists'.mp hl
      have hlt := hrank s l u o hu
      obtain ⟨os, t, hrun, ht⟩ := ih (rank u) (hn ▸ hlt) u rfl
      exact ⟨o ++ os, t, (Run.single trivial hu).trans hrun, ht⟩

end Rank

end Machine

end HftComponents.Lib
