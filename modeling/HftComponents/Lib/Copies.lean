import HftComponents.Lib.Machine

/-!
# Copies of a machine

Machines that run side by side, of which each step is one of one of them and shows its
events with its index.  Whatever makes them go, each copy makes a run of its own
(`Copies.run`): what holds of every run of the machine holds of each copy, with what
that copy has shown (`shownBy`).
-/

namespace HftComponents.Lib.Machine

variable {S L O : Type*} {m : Machine S L O} {ok : S → L → Prop} {init cs : List S}
  {os : List (Nat × O)} {c d : S} {l : L} {o : List O} {i : Nat}

/-- What copy `i` has shown. -/
def shownBy (i : Nat) (os : List (Nat × O)) : List O :=
  os.filterMap fun e => if e.1 = i then some e.2 else none

theorem shownBy_append (i : Nat) (a b : List (Nat × O)) :
    shownBy i (a ++ b) = shownBy i a ++ shownBy i b := List.filterMap_append

theorem shownBy_self (i : Nat) (o : List O) : shownBy i (o.map fun e => (i, e)) = o := by
  simp [shownBy, List.filterMap_map]

theorem shownBy_of_ne {j : Nat} (h : j ≠ i) (o : List O) :
    shownBy i (o.map fun e => (j, e)) = [] := by
  simp [shownBy, List.filterMap_map, h]

/-- The copies `cs` of `m`, which have started in `init` and shown `os`. -/
structure Copies (m : Machine S L O) (ok : S → L → Prop) (init : List S) (os : List (Nat × O))
    (cs : List S) : Prop where
  length_eq : cs.length = init.length
  run : ∀ i s c, init[i]? = some s → cs[i]? = some c → m.Run ok s (shownBy i os) c

theorem Copies.start (init : List S) : Copies m ok init [] init where
  length_eq := rfl
  run i s c hs hc := by
    obtain rfl := Option.some.inj (hs.symm.trans hc)
    exact .refl s

theorem Copies.step (h : Copies m ok init os cs) (hc : cs[i]? = some c) (hok : ok c l)
    (hs : m.step c l = some (d, o)) :
    Copies m ok init (os ++ o.map fun e => (i, e)) (cs.set i d) where
  length_eq := by rw [List.length_set, h.length_eq]
  run j s c' hinit hc' := by
    rw [shownBy_append]
    by_cases hij : i = j
    · subst hij
      have hlt := (List.getElem?_eq_some_iff.mp hc).1
      rw [List.getElem?_set_self hlt] at hc'
      obtain rfl := Option.some.inj hc'
      rw [shownBy_self]
      exact (h.run i s c hinit hc).step hok hs
    · rw [List.getElem?_set_ne hij] at hc'
      rw [shownBy_of_ne hij, List.append_nil]
      exact h.run j s c' hinit hc'

end HftComponents.Lib.Machine
