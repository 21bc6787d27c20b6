import HftComponents.Timer.Epoll.Basic

/-!
# `run` and `stop`

`run` sets `running_` when it begins and tests it before each `run_once`; `stop`
clears it.  A `stop` that comes before the store is overwritten: `run` goes on
for ever (`stop_lost`).  `stop_heeded_iff` says that no other `stop` is lost.

A whole `run_once` is one step here, since it does not look at `running_`.
-/

namespace HftComponents.Timer.Epoll

open Lib

namespace Running

/-- Where the thread is in `run`; an exception of `run_once` leaves it too. -/
inductive Phase
  | store
  | load
  | body
  | returned
  | threw
  deriving DecidableEq, Repr

def Phase.over : Phase → Bool
  | .returned | .threw => true
  | _ => false

variable {κ : Type} {pq : PriorityQueue (Entry κ) Entry.expiryNs}

/-- The timer and the thread that calls `run`. -/
structure Runner (pq : PriorityQueue (Entry κ) Entry.expiryNs) where
  timer : EpollTimer pq := {}
  clock : Nat := 0
  running : Bool := false
  phase : Phase := .store

/-- A `run_once` to its end, from the state `s` of its loops. -/
def finish : State pq → List (Epoll.Label κ) → Option (State pq × List (Epoll.Event κ))
  | s, [] =>
    match s.control with
    | .idle => some (s, [])
    | _ => none
  | s, l :: ls =>
    match s.control with
    | .idle => none
    | _ => do
      let (t, o) ← Epoll.step s l
      let (u, os) ← finish t ls
      return (u, o ++ os)

/-- `run_once(10)`: what `epoll_wait` answers, and what the callbacks do. -/
def runOnce (t : EpollTimer pq) (clock : Nat) (r : PollResult) (ls : List (Epoll.Label κ)) :
    Option (State pq × List (Epoll.Event κ)) := do
  let (s, o) ← Epoll.step ⟨t, clock, .idle⟩ (.runOnce r)
  let (u, os) ← finish s ls
  return (u, o ++ os)

/-- Whether an exception has ended it. -/
def raised (os : List (Epoll.Event κ)) : Bool :=
  match os.getLast? with
  | some .threw | some .pollFailed => true
  | _ => false

/-- The steps of the thread that runs, a `stop` by anyone, and time. -/
inductive Label (κ : Type)
  | store
  | load
  | runOnce (r : PollResult) (ls : List (Epoll.Label κ))
  | stop
  | elapse (ns : Nat)

inductive Event (κ : Type)
  | stored
  | loaded (running : Bool)
  | ranOnce (os : List (Epoll.Event κ))
  | stopped
  deriving DecidableEq, Repr

def Runner.stop (s : Runner pq) : Runner pq := { s with running := false }

def step (s : Runner pq) : Label κ → Option (Runner pq × List (Event κ))
  | .store =>
    match s.phase with
    | .store => some ({ s with running := true, phase := .load }, [.stored])
    | _ => none
  | .load =>
    match s.phase with
    | .load =>
      some ({ s with phase := if s.running then .body else .returned }, [.loaded s.running])
    | _ => none
  | .runOnce r ls =>
    match s.phase with
    | .body => do
      let (t, os) ← runOnce s.timer s.clock r ls
      return (⟨t.timer, t.clock, s.running, if raised os then .threw else .load⟩, [.ranOnce os])
    | _ => none
  | .stop => some (s.stop, [.stopped])
  | .elapse ns => some ({ s with clock := s.clock + ns }, [])

def machine (pq : PriorityQueue (Entry κ) Entry.expiryNs) :
    Lib.Machine (Runner pq) (Label κ) (Event κ) := ⟨step⟩

/-- The thread has been started; `running_` is what an earlier `run` has left. -/
def start (t : EpollTimer pq) (clock : Nat) (running : Bool) : Runner pq :=
  { timer := t, clock := clock, running := running }

variable {r s u : Runner pq} {os o : List (Event κ)} {l : Label κ}

/-- What a step can do. -/
inductive Moves : Runner pq → Label κ → Runner pq → List (Event κ) → Prop
  | store (t : EpollTimer pq) (clock : Nat) (b : Bool) :
      Moves ⟨t, clock, b, .store⟩ .store ⟨t, clock, true, .load⟩ [.stored]
  | enter (t : EpollTimer pq) (clock : Nat) :
      Moves ⟨t, clock, true, .load⟩ .load ⟨t, clock, true, .body⟩ [.loaded true]
  | leave (t : EpollTimer pq) (clock : Nat) :
      Moves ⟨t, clock, false, .load⟩ .load ⟨t, clock, false, .returned⟩ [.loaded false]
  | runOnce (t t' : EpollTimer pq) (clock clock' : Nat) (b : Bool) (r : PollResult)
      (ls : List (Epoll.Label κ)) (os : List (Epoll.Event κ)) :
      Moves ⟨t, clock, b, .body⟩ (.runOnce r ls)
        ⟨t', clock', b, if raised os then .threw else .load⟩ [.ranOnce os]
  | stop (s : Runner pq) : Moves s .stop s.stop [.stopped]
  | elapse (s : Runner pq) (ns : Nat) :
      Moves s (.elapse ns) { s with clock := s.clock + ns } []

theorem step_moves (h : step s l = some (u, o)) : Moves s l u o := by
  obtain ⟨t, clock, b, phase⟩ := s
  cases l with
  | store =>
    cases phase with
    | store =>
      obtain ⟨rfl, rfl⟩ := Prod.mk.inj (Option.some.inj h)
      exact .store t clock b
    | _ => cases h
  | load =>
    cases phase with
    | load =>
      obtain ⟨rfl, rfl⟩ := Prod.mk.inj (Option.some.inj h)
      cases b with
      | true => exact .enter t clock
      | false => exact .leave t clock
    | _ => cases h
  | runOnce r ls =>
    cases phase with
    | body =>
      obtain ⟨⟨v, os⟩, -, heq⟩ := Option.bind_eq_some_iff.mp h
      obtain ⟨rfl, rfl⟩ := Prod.mk.inj (Option.some.inj heq)
      exact .runOnce t v.timer clock v.clock b r ls os
    | _ => cases h
  | stop =>
    obtain ⟨rfl, rfl⟩ := Prod.mk.inj (Option.some.inj h)
    exact .stop _
  | elapse ns =>
    obtain ⟨rfl, rfl⟩ := Prod.mk.inj (Option.some.inj h)
    exact .elapse _ ns

/-! ### A `stop` that is heeded -/

/-- The calls of `run_once`. -/
def runOnces : List (Event κ) → Nat :=
  List.countP fun
    | .ranOnce _ => true
    | _ => false

/-- The steps that the thread in `run` has taken. -/
def ownSteps : List (Event κ) → Nat :=
  List.countP fun
    | .stopped => false
    | _ => true

/-- `run` can take a step of its own. -/
def GoesOn (s : Runner pq) : Prop :=
  ∃ l u o, (machine pq).step s l = some (u, o) ∧ 0 < ownSteps o

/-- What a `stop` asks of the steps `os` that come after it: one `run_once` at
most, and in two steps `run` is over. -/
structure Heeded (os : List (Event κ)) (s : Runner pq) : Prop where
  once : runOnces os ≤ 1
  soon : ownSteps os ≤ 2
  ended : ownSteps os = 2 → s.phase.over = true
  goesOn : s.phase.over = false → GoesOn s

/-- The steps that are left to a thread that will find `running_` cleared. -/
def Phase.steps : Phase → Nat
  | .load => 1
  | .body => 2
  | _ => 0

def Phase.bodies : Phase → Nat
  | .body => 1
  | _ => 0

structure Stopping (os : List (Event κ)) (s : Runner pq) : Prop where
  cleared : s.running = false
  begun : s.phase ≠ .store
  steps : ownSteps os + s.phase.steps ≤ 2
  bodies : runOnces os + s.phase.bodies ≤ 1

@[simp] theorem runOnces_append (os o : List (Event κ)) :
    runOnces (os ++ o) = runOnces os + runOnces o := List.countP_append

@[simp] theorem ownSteps_append (os o : List (Event κ)) :
    ownSteps (os ++ o) = ownSteps os + ownSteps o := List.countP_append

theorem Stopping.init (h : s.phase ≠ .store) : Stopping [] s.stop where
  cleared := rfl
  begun := h
  steps := by
    show 0 + s.phase.steps ≤ 2
    cases s.phase <;> decide
  bodies := by
    show 0 + s.phase.bodies ≤ 1
    cases s.phase <;> decide

theorem Stopping.step (h : Stopping os s) (hstep : step s l = some (u, o)) :
    Stopping (os ++ o) u := by
  obtain ⟨hcleared, hbegun, hsteps, hbodies⟩ := h
  cases step_moves hstep with
  | store => exact absurd rfl hbegun
  | enter => cases hcleared
  | leave t clock =>
    refine ⟨rfl, nofun, ?_, ?_⟩
    · rw [ownSteps_append]
      exact hsteps
    · rw [runOnces_append]
      exact hbodies
  | runOnce t t' clock clock' b r ls es =>
    have hs : ownSteps os + 2 ≤ 2 := hsteps
    have hb : runOnces os + 1 ≤ 1 := hbodies
    refine ⟨hcleared, ?_, ?_, ?_⟩
    · show (if raised es then Phase.threw else .load) ≠ .store
      split_ifs <;> decide
    · rw [ownSteps_append]
      show ownSteps os + 1 + (if raised es then Phase.threw else .load).steps ≤ 2
      split_ifs
      · show _ + 0 ≤ 2
        omega
      · show _ + 1 ≤ 2
        omega
    · rw [runOnces_append]
      show runOnces os + 1 + (if raised es then Phase.threw else .load).bodies ≤ 1
      split_ifs
      · exact hb
      · exact hb
  | stop =>
    refine ⟨rfl, hbegun, ?_, ?_⟩
    · rw [ownSteps_append]
      exact hsteps
    · rw [runOnces_append]
      exact hbodies
  | elapse =>
    rw [List.append_nil]
    exact ⟨hcleared, hbegun, hsteps, hbodies⟩

/-- The thread is never stuck in `run`. -/
theorem goesOn_of_not_over (h : s.phase.over = false) : GoesOn s := by
  obtain ⟨t, clock, b, phase⟩ := s
  cases phase with
  | store => exact ⟨.store, _, _, rfl, Nat.one_pos⟩
  | load => exact ⟨.load, _, _, rfl, Nat.one_pos⟩
  | body => exact ⟨.runOnce .timeout [], _, _, rfl, Nat.one_pos⟩
  | returned | threw => cases h

theorem Stopping.heeded (h : Stopping os s) : Heeded os s where
  once := (Nat.le_add_right _ _).trans h.bodies
  soon := (Nat.le_add_right _ _).trans h.steps
  ended := by
    intro htwo
    have hleft : s.phase.steps = 0 := by
      have := h.steps
      omega
    have hbegun := h.begun
    revert hleft hbegun
    cases s.phase <;> decide
  goesOn := goesOn_of_not_over

/-! ### A `stop` that is lost -/

theorem stored_iff {t : EpollTimer pq} {clock : Nat} {b : Bool}
    (h : Lib.Machine.Run (machine pq) Lib.Machine.anyStep (start t clock b) os s) :
    .stored ∈ os ↔ s.phase ≠ .store := by
  refine h.invariant (P := fun os s => .stored ∈ os ↔ s.phase ≠ .store) (by simp [start]) ?_
  intro os s l u o hiff _ hstep
  rw [List.mem_append, hiff]
  cases step_moves hstep with
  | runOnce t t' clock clock' b r ls es =>
    refine iff_of_true (.inl nofun) ?_
    show (if raised es then Phase.threw else .load) ≠ .store
    split_ifs <;> decide
  | _ => simp [Runner.stop]

/-- A turn of the loop in which no timer is due. -/
theorem run_turns (t : EpollTimer pq) (clock n : Nat) :
    ∃ os, Lib.Machine.Run (machine pq) Lib.Machine.anyStep ⟨t, clock, true, .load⟩ os
      ⟨t, clock, true, .load⟩ ∧ runOnces os = n := by
  induction n with
  | zero => exact ⟨[], .refl _, rfl⟩
  | succ n ih =>
    obtain ⟨os, hrun, hn⟩ := ih
    have hload := hrun.step (l := .load) trivial rfl
    have hbody := hload.step (l := .runOnce .timeout []) trivial rfl
    refine ⟨_, hbody, ?_⟩
    rw [runOnces_append, runOnces_append, hn]
    rfl

theorem run_lost (t : EpollTimer pq) (clock : Nat) (b : Bool) (n : Nat) :
    ∃ os, Lib.Machine.Run (machine pq) Lib.Machine.anyStep (Runner.stop ⟨t, clock, b, .store⟩) os
      ⟨t, clock, true, .load⟩ ∧ runOnces os = n := by
  obtain ⟨os, hrun, hn⟩ := run_turns t clock n
  refine ⟨[.stored] ++ os, (Lib.Machine.Run.single (l := .store) trivial rfl).trans hrun, ?_⟩
  rw [runOnces_append, hn]
  exact Nat.zero_add n

/-- **A `stop` is heeded if and only if `run` has set `running_` before it.** -/
theorem stop_heeded_iff {t : EpollTimer pq} {clock : Nat} {b : Bool}
    (h : Lib.Machine.Run (machine pq) Lib.Machine.anyStep (start t clock b) os s) :
    (∀ os' u, Lib.Machine.Run (machine pq) Lib.Machine.anyStep s.stop os' u → Heeded os' u) ↔
      .stored ∈ os := by
  rw [stored_iff h]
  constructor
  · rintro hheeded hphase
    obtain ⟨t', clock', b', phase⟩ := s
    obtain rfl : phase = .store := hphase
    obtain ⟨os', hrun, hn⟩ := run_lost t' clock' b' 2
    have honce := (hheeded os' _ hrun).once
    omega
  · intro hphase os' u hrun
    have hstopping := hrun.invariant (P := Stopping) (.init hphase)
      fun os s l u o hinv _ hstep => hinv.step hstep
    exact hstopping.heeded

/-- The `stop` comes while the thread is in the loop: one `run_once`, and it
returns. -/
theorem stop_heeded_iff_begun :
    ∃ (s : Runner (sortedHeap Nat)) (os' : List (Event Nat)) (u : Runner (sortedHeap Nat)),
      Lib.Machine.Run (machine (sortedHeap Nat)) Lib.Machine.anyStep (start {} 0 false)
        [.stored, .loaded true] s ∧
      Lib.Machine.Run (machine (sortedHeap Nat)) Lib.Machine.anyStep s.stop os' u ∧
      runOnces os' = 1 ∧ u.phase = .returned ∧ Heeded os' u := by
  have hstored : Lib.Machine.Run (machine (sortedHeap Nat)) Lib.Machine.anyStep
      (start {} 0 false) [.stored] ⟨{}, 0, true, .load⟩ := .single (l := .store) trivial rfl
  have hbegun := hstored.step (l := .load) trivial rfl
  have honce : Lib.Machine.Run (machine (sortedHeap Nat)) Lib.Machine.anyStep
      (Runner.stop ⟨{}, 0, true, .body⟩) [.ranOnce [.polled]] ⟨{}, 0, false, .load⟩ :=
    .single (l := .runOnce .timeout []) trivial rfl
  have hreturns := honce.step (l := .load) trivial rfl
  exact ⟨_, _, _, hbegun, hreturns, rfl, rfl,
    (stop_heeded_iff hbegun).mpr List.mem_cons_self _ _ hreturns⟩

/-- The `stop` comes before the store, and `run` never ends. -/
theorem stop_lost :
    ∃ s, Lib.Machine.Run (machine (sortedHeap Nat)) Lib.Machine.anyStep (start {} 0 false)
        [.stopped] s ∧
      ∀ n, ∃ os u, Lib.Machine.Run (machine (sortedHeap Nat)) Lib.Machine.anyStep s os u ∧
        runOnces os = n ∧ u.phase.over = false := by
  refine ⟨_, .single (l := .stop) trivial rfl, fun n => ?_⟩
  obtain ⟨os, hrun, hn⟩ := run_lost ({} : EpollTimer (sortedHeap Nat)) 0 false n
  exact ⟨os, _, hrun, hn, rfl⟩

end Running

end HftComponents.Timer.Epoll
