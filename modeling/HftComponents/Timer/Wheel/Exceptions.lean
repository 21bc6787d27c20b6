import HftComponents.Timer.Wheel.Location

/-!
# A callback that throws

`fire_slot` runs the callbacks from a list of its own.  An exception destroys
this list, with the timers that are still to run, and their records stay in
`entries_`: they are pending and in no slot, and to cancel one of them is
undefined (`stranded_by_throw`).

`consistent_iff` says that this is the only way: the wheel is consistent after
the exception if and only if the timer that threw was the last of its tick.
-/

namespace HftComponents.Timer.Wheel

open TimerWheel

namespace Throwing

/-- A call, the loop of `advance` going on or a callback returning, as before; or
an exception leaves the callback that is on. -/
inductive Label (κ : Type)
  | call (l : Wheel.Label κ)
  | throw

inductive Event (κ : Type)
  | shown (e : Wheel.Event κ)
  | threw
  deriving DecidableEq, Repr

variable {κ : Type}

/-- The exception leaves `fire_slot`, `tick` and `advance`. -/
def step (s : State κ) : Label κ → Option (State κ × List (Event κ))
  | .call l => (Wheel.step s l).map fun p => (p.1, p.2.map .shown)
  | .throw =>
    match s.control with
    | .callback _ _ _ _ => some (⟨s.wheel, .idle⟩, [.threw])
    | _ => none

def machine (κ : Type) : Lib.Machine (State κ) (Label κ) (Event κ) := ⟨step⟩

/-- What the calls have shown. -/
def calls : List (Event κ) → List (Wheel.Event κ) :=
  List.filterMap fun
    | .shown e => some e
    | .threw => none

/-- After an exception that has left a tick with the timers `due` still to run. -/
structure Consistent (due : List (Node κ)) (w : TimerWheel κ) : Prop where
  designates : ∀ id loc, w.entries.lookup id = some loc →
    ∃ n ∈ w.slots loc.place, n.addr = loc.iter ∧ n.entry.id = id
  pending : w.pending = ∑ p, (w.slots p).length
  waiting : ∀ n ∈ due, w.Holds n.entry

/-- No callback throws while its tick has another timer to run, or cancels such
a timer. -/
def Guarded (s : State κ) : Label κ → Prop
  | .call (.cancel id) => ∀ n ∈ s.control.rest, n.entry.id ≠ id
  | .throw => s.control.rest = []
  | _ => True

variable {s t : State κ} {os o : List (Event κ)} {l : Label κ}

@[simp] theorem calls_append : calls (os ++ o) = calls os ++ calls o := List.filterMap_append

@[simp] theorem calls_map_shown (es : List (Wheel.Event κ)) :
    calls (es.map .shown : List (Event κ)) = es := by
  induction es with
  | nil => rfl
  | cons e es ih => exact congrArg (e :: ·) ih

/-- What a step can do: the wheel's own steps, and the exception. -/
theorem step_cases (h : step s l = some (t, o)) :
    (∃ k es, l = .call k ∧ Wheel.step s k = some (t, es) ∧ o = es.map .shown) ∨
      (l = .throw ∧ t = ⟨s.wheel, .idle⟩ ∧ o = [.threw]) := by
  cases l with
  | call k =>
    obtain ⟨⟨u, es⟩, hstep, heq⟩ := Option.map_eq_some_iff.mp h
    obtain ⟨rfl, rfl⟩ := Prod.mk.inj heq
    exact .inl ⟨k, es, rfl, hstep, rfl⟩
  | throw =>
    right
    dsimp only [step] at h
    split at h
    · obtain ⟨rfl, rfl⟩ := Prod.mk.inj (Option.some.inj h)
      exact ⟨rfl, rfl, rfl⟩
    · cases h

theorem step_call {k : Wheel.Label κ} {es : List (Wheel.Event κ)}
    (h : Wheel.step s k = some (t, es)) : (machine κ).step s (.call k) = some (t, es.map .shown) := by
  show (Wheel.step s k).map _ = _
  rw [h]
  rfl

theorem Guarded.sparesDue {k : Wheel.Label κ} (h : Guarded s (.call k)) : SparesDue s k := by
  rintro id rfl
  exact h

/-- **One step keeps the state sound.** -/
theorem sound_step (h : Sound (calls os) s) (hok : Guarded s l)
    (hid : (issued (calls (os ++ o))).Nodup) (hstep : step s l = some (t, o)) :
    Sound (calls (os ++ o)) t := by
  rcases step_cases hstep with ⟨k, es, rfl, hk, rfl⟩ | ⟨rfl, rfl, rfl⟩
  · rw [calls_append, calls_map_shown] at hid ⊢
    exact h.step hk hid hok.sparesDue
  · rw [calls_append]
    exact (h.between hok (by simp) rfl rfl).more _

theorem sound_run (h : Lib.Machine.Run (machine κ) Guarded init os s)
    (hid : (issued (calls os)).Nodup) : Sound (calls os) s := by
  refine h.invariant_of (P := fun os s => Sound (calls os) s)
    (Q := fun os => (issued (calls os)).Nodup) ?_ Sound.init ?_ hid
  · intro os o hnodup
    rw [calls_append] at hnodup
    exact nodup_issued_left _ _ hnodup
  · intro os u l v o hu hok hnodup hstep
    exact sound_step hu hok hnodup hstep

/-- The timers that are still to run are recorded where they are no more. -/
theorem rest_eq_nil_of_consistent (h : Sound (calls os) s)
    (hc : Consistent s.control.rest s.wheel) : s.control.rest = [] := by
  cases hrest : s.control.rest with
  | nil => rfl
  | cons n rest =>
    have hl := h.linked
    rw [hrest] at hl
    have hn : n ∈ (s.wheel.unswap s.wheel.currentPlace (n :: rest)).slots s.wheel.currentPlace :=
      mem_unswap.mpr (Or.inr ⟨rfl, List.mem_cons_self⟩)
    obtain ⟨m, hm, -, hid⟩ := hc.designates _ _ (hl.located _ n hn)
    have hnodup := hl.nodup s.wheel.currentPlace
    simp only [unswap, Function.update_self, List.cons_append, List.map_cons,
      List.nodup_cons] at hnodup
    refine absurd (List.mem_map.mpr ⟨m, List.mem_append_right rest hm, hid⟩) hnodup.1

/-- **When the wheel is consistent after an exception.** -/
theorem consistent_iff (h : Lib.Machine.Run (machine κ) Guarded init os s)
    (hid : (issued (calls os)).Nodup) (hthrow : step s .throw = some (t, o)) :
    Consistent s.control.rest t.wheel ↔ s.control.rest = [] := by
  have hs := sound_run h hid
  obtain ⟨-, rfl, -⟩ := (step_cases hthrow).resolve_left fun ⟨_, _, hl, _⟩ => by cases hl
  constructor
  · exact rest_eq_nil_of_consistent hs
  · intro hrest
    have hl := hs.idle hrest
    refine ⟨hl.designates, hl.pending_eq, ?_⟩
    rw [hrest]
    exact fun n hn => absurd hn List.not_mem_nil

/-- Two of four timers are due, and the second throws; the first has cancelled a
third. -/
theorem consistent_iff_pending :
    ∃ s t os, Lib.Machine.Run (machine Nat) Guarded init os s ∧
      step s .throw = some (t, [.threw]) ∧
      .shown (.cancelled 4 true) ∈ os ∧ .shown (.invoked 2 20) ∈ os ∧
      t.wheel.pending = 1 ∧ Consistent s.control.rest t.wheel := by
  have hcalls : ∀ (s : State Nat), ∀ l ∈ [Label.call (.schedule 1 10), .call (.schedule 1 20),
      .call (.schedulePeriodic 300 30), .call (.schedule 2 40), .call .tick], Guarded s l := by
    simp [Guarded]
  have hexec : (machine Nat).exec init [.call (.schedule 1 10), .call (.schedule 1 20),
      .call (.schedulePeriodic 300 30), .call (.schedule 2 40), .call .tick] = some (_, _) := rfl
  have hrun := ((Lib.Machine.run_of_exec (Lib.Machine.execOk_of_forall hcalls init) hexec).step
    (l := Label.call (.cancel 4)) (by show ∀ n ∈ Control.rest _, _; decide) rfl).step
    (l := Label.call .ret) trivial rfl
  exact ⟨_, _, _, hrun, rfl, by decide, by decide, rfl,
    (consistent_iff hrun (by decide) rfl).mpr rfl⟩

/-- **The first of two callbacks throws.**  The second timer is still counted, in
a slot that is empty, and to cancel it is undefined. -/
theorem stranded_by_throw :
    ∃ s t os, (machine Nat).exec init
        [.call (.schedule 1 10), .call (.schedule 1 20), .call .tick] = some (s, os) ∧
      step s .throw = some (t, [.threw]) ∧ (issued (calls os)).Nodup ∧
      t.wheel.pending = 1 ∧ t.wheel.slots = (fun _ => []) ∧
      ¬Consistent s.control.rest t.wheel ∧
      (step t (.call (.cancel 2))).map (fun p => p.1.control.open) = some false := by
  refine ⟨_, _, _, rfl, rfl, by decide, rfl, ?_, ?_, by decide⟩
  · let p : Place := ⟨.l0, Level.slotOf 1 .l0⟩
    show Function.update (Function.update (Function.update (fun _ => []) p _) p _) p [] = _
    rw [Function.update_idem, Function.update_idem, Function.update_eq_self]
  · intro h
    obtain ⟨n, hn, -⟩ := h.designates 2 ⟨⟨.l0, Level.slotOf 1 .l0⟩, 1⟩ rfl
    exact absurd hn List.not_mem_nil

end Throwing

end HftComponents.Timer.Wheel
