import HftComponents.Lib.Machine
import Mathlib.Data.List.Basic
import Mathlib.Data.List.Perm.Basic

/-!
# The thread pool

`thread_pool.hpp`.  A section under `mu_` is one step; so is a notification,
which is sent after the section, and the return of a task.  A worker that is
notified, or that wakes up for no reason, is again about to take the mutex and
to evaluate the predicate of `wait`.

Any number of threads call `submit`: of those outside the pool only the number
that still have to notify counts (`submitting`).  A task is run by a worker, and
may call `submit` as well.  A worker that its constructor has not started yet is
one that has not been scheduled.
-/

namespace HftComponents.Tcp.ThreadPool

/-- Where a worker is in `worker_loop`: about to take the mutex, blocked in
`wait`, in a task, in the `notify_one` of a `submit` that its task has called. -/
inductive Worker (τ : Type*)
  | lock
  | waiting
  | running (task : τ)
  | notifying (task : τ)
  | returned
  deriving DecidableEq, Repr

/-- Where the thread is that calls `shutdown`; in `join`, `k` have been joined. -/
inductive Shutdown
  | idle
  | notifyAll
  | join (k : Nat)
  | returned
  deriving DecidableEq, Repr

structure State (τ : Type*) where
  tasks : List τ := []
  stop : Bool := false
  workers : List (Worker τ)
  submitting : Nat := 0
  shutdown : Shutdown := .idle

/-- A notification wakes the worker `w`, or none if none is waiting. -/
inductive Label (τ : Type*)
  | submit (task : τ)
  | notify (w : Option Nat)
  | work (i : Nat)
  | wakeUp (i : Nat)
  | taskSubmit (i : Nat) (task : τ)
  | taskNotify (i : Nat) (w : Option Nat)
  | stop
  | notifyAll
  | join

inductive Event (τ : Type*)
  | submitted (task : τ)
  | started (task : τ)
  | finished (task : τ)
  | stopped
  | returned
  deriving DecidableEq, Repr

variable {τ : Type*}

def Worker.isWaiting : Worker τ → Bool
  | .waiting => true
  | _ => false

/-- The task that a worker is in. -/
def Worker.task : Worker τ → Option τ
  | .running t | .notifying t => some t
  | _ => none

/-- `notify_one` unblocks one of the waiting, any of them. -/
def notifyOne (workers : List (Worker τ)) : Option Nat → Option (List (Worker τ))
  | some i =>
    match workers[i]? with
    | some .waiting => some (workers.set i .lock)
    | _ => none
  | none => if workers.any Worker.isWaiting then none else some workers

def Worker.notified : Worker τ → Worker τ
  | .waiting => .lock
  | w => w

/-- The section of `worker_loop`. -/
def enter (s : State τ) (i : Nat) : State τ × List (Event τ) :=
  if !(s.stop || !s.tasks.isEmpty) then ({ s with workers := s.workers.set i .waiting }, [])
  else
    match s.tasks with
    | [] => ({ s with workers := s.workers.set i .returned }, [])
    | t :: ts => ({ s with tasks := ts, workers := s.workers.set i (.running t) }, [.started t])

def work (s : State τ) (i : Nat) : Option (State τ × List (Event τ)) :=
  match s.workers[i]? with
  | some .lock => some (enter s i)
  | some (.running t) => some ({ s with workers := s.workers.set i .lock }, [.finished t])
  | _ => none

def join (s : State τ) : Option (State τ × List (Event τ)) :=
  match s.shutdown with
  | .join k =>
    match s.workers[k]? with
    | some .returned => some ({ s with shutdown := .join (k + 1) }, [])
    | some _ => none
    | none => some ({ s with shutdown := .returned }, [.returned])
  | _ => none

def step (s : State τ) : Label τ → Option (State τ × List (Event τ))
  | .submit t =>
    some ({ s with tasks := s.tasks ++ [t], submitting := s.submitting + 1 }, [.submitted t])
  | .notify w =>
    if s.submitting = 0 then none
    else (notifyOne s.workers w).map fun ws =>
      ({ s with workers := ws, submitting := s.submitting - 1 }, [])
  | .work i => work s i
  | .wakeUp i =>
    match s.workers[i]? with
    | some .waiting => some ({ s with workers := s.workers.set i .lock }, [])
    | _ => none
  | .taskSubmit i t' =>
    match s.workers[i]? with
    | some (.running t) =>
      some ({ s with tasks := s.tasks ++ [t'], workers := s.workers.set i (.notifying t) },
        [.submitted t'])
    | _ => none
  | .taskNotify i w =>
    match s.workers[i]? with
    | some (.notifying t) =>
      (notifyOne (s.workers.set i (.running t)) w).map fun ws => ({ s with workers := ws }, [])
    | _ => none
  | .stop =>
    match s.shutdown with
    | .idle => some ({ s with stop := true, shutdown := .notifyAll }, [.stopped])
    | _ => none
  | .notifyAll =>
    match s.shutdown with
    | .notifyAll =>
      some ({ s with workers := s.workers.map Worker.notified, shutdown := .join 0 }, [])
    | _ => none
  | .join => join s

def machine : Lib.Machine (State τ) (Label τ) (Event τ) := ⟨step⟩

/-- The constructor. -/
def init (numThreads : Nat) : State τ := { workers := List.replicate numThreads .lock }

/-! ### What a run shows -/

/-- The tasks pushed, in order. -/
def submitted : List (Event τ) → List τ :=
  List.filterMap fun
    | .submitted t => some t
    | _ => none

/-- The tasks dequeued, in order. -/
def started : List (Event τ) → List τ :=
  List.filterMap fun
    | .started t => some t
    | _ => none

/-- The tasks that have returned. -/
def finished : List (Event τ) → List τ :=
  List.filterMap fun
    | .finished t => some t
    | _ => none

def Event.isStopped : Event τ → Bool
  | .stopped => true
  | _ => false

/-- The tasks pushed before `shutdown` set `stop_`. -/
def submittedBeforeStop (os : List (Event τ)) : List τ :=
  submitted (os.takeWhile fun e => !e.isStopped)

/-- The tasks that workers are in. -/
def inProgress (s : State τ) : List τ := s.workers.filterMap Worker.task

/-! ### What is to hold -/

/-- There is work or a stop to see, a worker is blocked in `wait`, every other
one is too unless it has returned, and no notification is to come. -/
structure Asleep (s : State τ) : Prop where
  work : s.tasks ≠ [] ∨ s.stop = true
  waiting : .waiting ∈ s.workers
  blocked : ∀ w ∈ s.workers, w = .waiting ∨ w = .returned
  submitting : s.submitting = 0
  shutdown : s.shutdown ≠ .notifyAll

structure Serves (os : List (Event τ)) (s : State τ) : Prop where
  /-- Tasks are dequeued in the order they were pushed. -/
  order : started os <+: submitted os
  /-- A task that is dequeued is run once. -/
  once : (finished os ++ inProgress s).Perm (started os)
  /-- When `shutdown` has returned, this has happened to all pushed before. -/
  complete : s.shutdown = .returned →
    submittedBeforeStop os <+: started os ∧ (finished os).Perm (started os)
  awake : ¬ Asleep s

/-! ### What a step can do -/

inductive Moves : State τ → State τ → List (Event τ) → Prop
  | submit {s : State τ} {t : τ} :
      Moves s { s with tasks := s.tasks ++ [t], submitting := s.submitting + 1 } [.submitted t]
  | notify {s : State τ} {w : Option Nat} {ws : List (Worker τ)} (hsub : s.submitting ≠ 0)
      (hws : notifyOne s.workers w = some ws) :
      Moves s { s with workers := ws, submitting := s.submitting - 1 } []
  | wait {s : State τ} {i : Nat} (hi : s.workers[i]? = some .lock) (hstop : s.stop = false)
      (htasks : s.tasks = []) : Moves s { s with workers := s.workers.set i .waiting } []
  | leave {s : State τ} {i : Nat} (hi : s.workers[i]? = some .lock) (hstop : s.stop = true)
      (htasks : s.tasks = []) : Moves s { s with workers := s.workers.set i .returned } []
  | start {s : State τ} {i : Nat} {t : τ} {ts : List τ} (hi : s.workers[i]? = some .lock)
      (htasks : s.tasks = t :: ts) :
      Moves s { s with tasks := ts, workers := s.workers.set i (.running t) } [.started t]
  | finish {s : State τ} {i : Nat} {t : τ} (hi : s.workers[i]? = some (.running t)) :
      Moves s { s with workers := s.workers.set i .lock } [.finished t]
  | wakeUp {s : State τ} {i : Nat} (hi : s.workers[i]? = some .waiting) :
      Moves s { s with workers := s.workers.set i .lock } []
  | taskSubmit {s : State τ} {i : Nat} {t t' : τ} (hi : s.workers[i]? = some (.running t)) :
      Moves s { s with tasks := s.tasks ++ [t'], workers := s.workers.set i (.notifying t) }
        [.submitted t']
  | taskNotify {s : State τ} {i : Nat} {t : τ} {w : Option Nat} {ws : List (Worker τ)}
      (hi : s.workers[i]? = some (.notifying t))
      (hws : notifyOne (s.workers.set i (.running t)) w = some ws) :
      Moves s { s with workers := ws } []
  | stop {s : State τ} (hs : s.shutdown = .idle) :
      Moves s { s with stop := true, shutdown := .notifyAll } [.stopped]
  | notifyAll {s : State τ} (hs : s.shutdown = .notifyAll) :
      Moves s { s with workers := s.workers.map Worker.notified, shutdown := .join 0 } []
  | join {s : State τ} {k : Nat} (hs : s.shutdown = .join k)
      (hk : s.workers[k]? = some .returned) : Moves s { s with shutdown := .join (k + 1) } []
  | joined {s : State τ} {k : Nat} (hs : s.shutdown = .join k) (hk : s.workers[k]? = none) :
      Moves s { s with shutdown := .returned } [.returned]

variable {s u : State τ} {l : Label τ} {os o : List (Event τ)}

theorem enter_moves {i : Nat} (hi : s.workers[i]? = some .lock) (h : enter s i = (u, o)) :
    Moves s u o := by
  unfold enter at h
  split at h
  · rename_i hpred
    obtain ⟨rfl, rfl⟩ := Prod.mk.inj h
    have hboth : s.stop = false ∧ s.tasks = [] := by simpa using hpred
    exact .wait hi hboth.1 hboth.2
  · rename_i hpred
    cases htasks : s.tasks with
    | nil =>
      rw [htasks] at h
      obtain ⟨rfl, rfl⟩ := Prod.mk.inj h
      have hleave := Moves.leave hi (by simpa [htasks] using hpred) htasks
      rwa [htasks] at hleave
    | cons t ts =>
      rw [htasks] at h
      obtain ⟨rfl, rfl⟩ := Prod.mk.inj h
      exact .start hi htasks

theorem step_moves (h : step s l = some (u, o)) : Moves s u o := by
  cases l with
  | submit t =>
    obtain ⟨rfl, rfl⟩ := Prod.mk.inj (Option.some.inj h)
    exact .submit
  | notify w =>
    dsimp only [step] at h
    split at h
    · cases h
    · obtain ⟨ws, hws, heq⟩ := Option.map_eq_some_iff.mp h
      obtain ⟨rfl, rfl⟩ := Prod.mk.inj heq
      exact .notify ‹_› hws
  | work i =>
    dsimp only [step, work] at h
    split at h
    · exact enter_moves ‹_› (Option.some.inj h)
    · obtain ⟨rfl, rfl⟩ := Prod.mk.inj (Option.some.inj h)
      exact .finish ‹_›
    · cases h
  | wakeUp i =>
    dsimp only [step] at h
    split at h
    · obtain ⟨rfl, rfl⟩ := Prod.mk.inj (Option.some.inj h)
      exact .wakeUp ‹_›
    · cases h
  | taskSubmit i t' =>
    dsimp only [step] at h
    split at h
    · obtain ⟨rfl, rfl⟩ := Prod.mk.inj (Option.some.inj h)
      exact .taskSubmit ‹_›
    · cases h
  | taskNotify i w =>
    dsimp only [step] at h
    split at h
    · obtain ⟨ws, hws, heq⟩ := Option.map_eq_some_iff.mp h
      obtain ⟨rfl, rfl⟩ := Prod.mk.inj heq
      exact .taskNotify ‹_› hws
    · cases h
  | stop =>
    dsimp only [step] at h
    split at h
    · obtain ⟨rfl, rfl⟩ := Prod.mk.inj (Option.some.inj h)
      exact .stop ‹_›
    · cases h
  | notifyAll =>
    dsimp only [step] at h
    split at h
    · obtain ⟨rfl, rfl⟩ := Prod.mk.inj (Option.some.inj h)
      exact .notifyAll ‹_›
    · cases h
  | join =>
    dsimp only [step, join] at h
    split at h
    · split at h
      · obtain ⟨rfl, rfl⟩ := Prod.mk.inj (Option.some.inj h)
        exact .join ‹_› ‹_›
      · cases h
      · obtain ⟨rfl, rfl⟩ := Prod.mk.inj (Option.some.inj h)
        exact .joined ‹_› ‹_›
    · cases h

theorem notifyOne_cases {ws vs : List (Worker τ)} {w : Option Nat}
    (h : notifyOne ws w = some vs) :
    .waiting ∉ ws ∧ vs = ws ∨ ∃ i, ws[i]? = some .waiting ∧ vs = ws.set i .lock := by
  unfold notifyOne at h
  split at h
  · split at h
    · exact Or.inr ⟨_, ‹_›, (Option.some.inj h).symm⟩
    · cases h
  · split at h
    · cases h
    · rename_i hnone
      refine Or.inl ⟨?_, (Option.some.inj h).symm⟩
      intro hmem
      exact hnone (List.any_eq_true.mpr ⟨_, hmem, rfl⟩)

/-! ### The invariant -/

/-- Of `numThreads` workers, after a run that has shown `os`. -/
structure Sound (numThreads : Nat) (os : List (Event τ)) (s : State τ) : Prop where
  size : s.workers.length = numThreads
  queue : started os ++ s.tasks = submitted os
  once : (finished os ++ inProgress s).Perm (started os)
  stopped : .stopped ∈ os ↔ s.stop = true
  stopping : s.stop = true ↔ s.shutdown ≠ .idle
  /-- After `notify_all` no worker waits again. -/
  notified : s.stop = true → s.shutdown = .notifyAll ∨ .waiting ∉ s.workers
  /-- A worker blocks on an empty queue only, and who fills it will notify. -/
  awake : s.tasks ≠ [] → .waiting ∈ s.workers →
    s.submitting ≠ 0 ∨ ∃ w ∈ s.workers, w ≠ .waiting ∧ w ≠ .returned
  left : .returned ∈ s.workers → s.stop = true ∧ submittedBeforeStop os <+: started os
  joined : ∀ k, s.shutdown = .join k → ∀ i < k, s.workers[i]? = some .returned
  returned : s.shutdown = .returned → ∀ w ∈ s.workers, w = .returned

open scoped List

variable {n i : Nat} {x y : Worker τ} {ts : List τ}

theorem submitted_append (a b : List (Event τ)) : submitted (a ++ b) = submitted a ++ submitted b :=
  List.filterMap_append

theorem started_append (a b : List (Event τ)) : started (a ++ b) = started a ++ started b :=
  List.filterMap_append

theorem finished_append (a b : List (Event τ)) : finished (a ++ b) = finished a ++ finished b :=
  List.filterMap_append

/-- What was pushed before the stop is settled by it. -/
theorem submittedBeforeStop_append (h : .stopped ∈ os) (o : List (Event τ)) :
    submittedBeforeStop (os ++ o) = submittedBeforeStop os := by
  unfold submittedBeforeStop
  congr 1
  induction os with
  | nil => cases h
  | cons e es ih =>
    rw [List.cons_append, List.takeWhile_cons, List.takeWhile_cons]
    cases he : e.isStopped with
    | true => rfl
    | false =>
      have hes : .stopped ∈ es := by
        rcases List.mem_cons.mp h with heq | hes
        · rw [← heq] at he
          cases he
        · exact hes
      rw [ih hes]

theorem submittedBeforeStop_prefix (os : List (Event τ)) :
    submittedBeforeStop os <+: submitted os :=
  (List.takeWhile_prefix _).filterMap _

/-! ### One worker changes -/

theorem mem_set_self {α : Type*} {l : List α} {a b : α} (hi : l[i]? = some a) : b ∈ l.set i b :=
  List.mem_set (List.getElem?_eq_some_iff.mp hi).1 b

/-- The tasks in progress, when one worker takes one up or puts one down. -/
theorem filterMap_set_perm {α β : Type*} (f : α → Option β) {l : List α} {a : α}
    (hi : l[i]? = some a) (b : α) :
    ((f a).toList ++ (l.set i b).filterMap f).Perm ((f b).toList ++ l.filterMap f) := by
  induction l generalizing i with
  | nil => cases hi
  | cons c l ih =>
    have hcons : ∀ (d : α) (l : List α), (d :: l).filterMap f = (f d).toList ++ l.filterMap f := by
      intro d l
      cases hd : f d <;> simp [hd]
    cases i with
    | zero =>
      obtain rfl := Option.some.inj hi
      rw [List.set_cons_zero, hcons, hcons]
      exact (List.perm_append_comm_assoc _ _ _)
    | succ i =>
      rw [List.set_cons_succ, hcons, hcons]
      calc (f a).toList ++ ((f c).toList ++ (l.set i b).filterMap f)
          ~ (f c).toList ++ ((f a).toList ++ (l.set i b).filterMap f) :=
            List.perm_append_comm_assoc _ _ _
        _ ~ (f c).toList ++ ((f b).toList ++ l.filterMap f) := (ih hi).append_left _
        _ ~ (f b).toList ++ ((f c).toList ++ l.filterMap f) := List.perm_append_comm_assoc _ _ _

namespace Sound

/-- **Worker `i` goes from `x` to `y`**, with the queue then `ts` and the events
`o` shown. -/
theorem set (h : Sound n os s) (hi : s.workers[i]? = some x) (hx : x ≠ .returned) (y : Worker τ)
    (ts : List τ) (ho : .stopped ∉ o)
    (hqueue : started (os ++ o) ++ ts = submitted (os ++ o))
    (honce : (finished o ++ y.task.toList).Perm (x.task.toList ++ started o))
    (hwait : y = .waiting → s.stop = false)
    (hwork : ts ≠ [] → y ≠ .waiting ∧ y ≠ .returned)
    (hleft : y = .returned → s.stop = true ∧ ts = []) :
    Sound n (os ++ o) { s with tasks := ts, workers := s.workers.set i y } := by
  have hstopped : .stopped ∈ os ++ o ↔ .stopped ∈ os := by
    rw [List.mem_append]
    exact or_iff_left ho
  refine {
    size := (List.length_set ..).trans h.size
    queue := hqueue
    once := ?_
    stopped := hstopped.trans h.stopped
    stopping := h.stopping
    notified := ?_
    awake := ?_
    left := ?_
    joined := ?_
    returned := ?_ }
  · classical
    have hold := h.once
    have hone := filterMap_set_perm Worker.task hi y
    rw [finished_append, started_append]
    rw [List.perm_iff_count] at honce hold hone ⊢
    intro t
    have h₁ := honce t
    have h₂ := hold t
    have h₃ := hone t
    simp only [List.count_append, inProgress] at h₁ h₂ h₃ ⊢
    omega
  · intro hstop
    refine (h.notified hstop).imp_right fun hnone hmem => ?_
    rcases List.mem_or_eq_of_mem_set hmem with hmem | heq
    · exact hnone hmem
    · rw [hwait heq.symm] at hstop
      cases hstop
  · intro hts _
    exact Or.inr ⟨y, mem_set_self hi, hwork hts⟩
  · intro hmem
    rcases List.mem_or_eq_of_mem_set hmem with hmem | heq
    · obtain ⟨hstop, hbefore⟩ := h.left hmem
      refine ⟨hstop, ?_⟩
      rw [submittedBeforeStop_append (h.stopped.mpr hstop), started_append]
      exact hbefore.trans (List.prefix_append _ _)
    · obtain ⟨hstop, rfl⟩ := hleft heq.symm
      refine ⟨hstop, ?_⟩
      rw [List.append_nil] at hqueue
      rw [hqueue]
      exact submittedBeforeStop_prefix _
  · intro k hk j hj
    have hret := h.joined k hk j hj
    have hij : i ≠ j := by
      rintro rfl
      exact hx (Option.some.inj (hi.symm.trans hret))
    rw [List.getElem?_set_ne hij]
    exact hret
  · intro hret
    exact absurd (h.returned hret x (List.mem_of_getElem? hi)) hx

theorem wakeUp (h : Sound n os s) (hi : s.workers[i]? = some .waiting) :
    Sound n os { s with workers := s.workers.set i .lock } := by
  have hset := h.set (o := []) hi nofun .lock s.tasks nofun
    (by rw [List.append_nil]; exact h.queue) (.refl _) nofun (fun _ => ⟨nofun, nofun⟩) nofun
  rwa [List.append_nil] at hset

theorem notify {w : Option Nat} {ws : List (Worker τ)} (h : Sound n os s)
    (hws : notifyOne s.workers w = some ws) (k : Nat) :
    Sound n os { s with workers := ws, submitting := k } := by
  rcases notifyOne_cases hws with ⟨hnone, rfl⟩ | ⟨i, hi, rfl⟩
  · exact { h with awake := fun _ hw => absurd hw hnone }
  · exact { h.wakeUp hi with awake := fun _ _ => Or.inr ⟨.lock, mem_set_self hi, nofun, nofun⟩ }

theorem shows (h : Sound n os s) (ho : started o = [] ∧ finished o = [] ∧ .stopped ∉ o)
    (hqueue : submitted (os ++ o) = submitted os ++ ts) :
    started (os ++ o) ++ (s.tasks ++ ts) = submitted (os ++ o) ∧
      (finished (os ++ o) ++ inProgress s).Perm (started (os ++ o)) ∧
      (.stopped ∈ os ++ o ↔ s.stop = true) ∧
      (.returned ∈ s.workers →
        s.stop = true ∧ submittedBeforeStop (os ++ o) <+: started (os ++ o)) := by
  obtain ⟨hstart, hfinish, hstop⟩ := ho
  rw [started_append, finished_append, hstart, hfinish, List.append_nil, List.append_nil]
  refine ⟨?_, h.once, ?_, ?_⟩
  · rw [hqueue, ← h.queue, List.append_assoc]
  · rw [List.mem_append]
    exact (or_iff_left hstop).trans h.stopped
  · intro hmem
    obtain ⟨hs, hbefore⟩ := h.left hmem
    rw [submittedBeforeStop_append (h.stopped.mpr hs)]
    exact ⟨hs, hbefore⟩

theorem submit (h : Sound n os s) (t : τ) : Sound n (os ++ [.submitted t])
    { s with tasks := s.tasks ++ [t], submitting := s.submitting + 1 } := by
  obtain ⟨hqueue, honce, hstopped, hleft⟩ := h.shows (o := [.submitted t]) ⟨rfl, rfl, by simp⟩
    (submitted_append os [.submitted t])
  exact { h with
    queue := hqueue
    once := honce
    stopped := hstopped
    awake := fun _ _ => Or.inl (Nat.succ_ne_zero _)
    left := hleft }

theorem stop (h : Sound n os s) (hs : s.shutdown = .idle) :
    Sound n (os ++ [.stopped]) { s with stop := true, shutdown := .notifyAll } := by
  have hgo : s.stop = false := by
    rw [← Bool.not_eq_true, h.stopping, hs]
    exact not_not.mpr rfl
  have hnone : .returned ∉ s.workers := by
    intro hmem
    rw [(h.left hmem).1] at hgo
    cases hgo
  exact {
    size := h.size
    queue := by
      rw [started_append, submitted_append]
      show started os ++ [] ++ s.tasks = submitted os ++ []
      rw [List.append_nil, List.append_nil]
      exact h.queue
    once := by
      rw [started_append, finished_append]
      show (finished os ++ [] ++ inProgress s).Perm (started os ++ [])
      rw [List.append_nil, List.append_nil]
      exact h.once
    stopped := by simp
    stopping := by simp
    notified := fun _ => Or.inl rfl
    awake := h.awake
    left := fun hmem => absurd hmem hnone
    joined := nofun
    returned := nofun }

theorem notifyAll (h : Sound n os s) (hs : s.shutdown = .notifyAll) :
    Sound n os { s with workers := s.workers.map Worker.notified, shutdown := .join 0 } := by
  have htask : ∀ w : Worker τ, w.notified.task = w.task := by
    intro w
    cases w <;> rfl
  have hnone : .waiting ∉ s.workers.map Worker.notified := by
    intro hmem
    obtain ⟨w, -, hw⟩ := List.mem_map.mp hmem
    cases w <;> cases hw
  have hstop : s.stop = true := h.stopping.mpr (by rw [hs]; nofun)
  exact {
    size := (List.length_map _).trans h.size
    queue := h.queue
    once := by
      show (finished os ++ (s.workers.map Worker.notified).filterMap Worker.task).Perm _
      rw [List.filterMap_map, show Worker.task ∘ Worker.notified = Worker.task from funext htask]
      exact h.once
    stopped := h.stopped
    stopping := ⟨nofun, fun _ => hstop⟩
    notified := fun _ => Or.inr hnone
    awake := fun _ hmem => absurd hmem hnone
    left := by
      intro hmem
      obtain ⟨w, hw, heq⟩ := List.mem_map.mp hmem
      cases w with
      | returned => exact h.left hw
      | _ => cases heq
    joined := by
      intro k hk i hi
      obtain rfl := Shutdown.join.inj hk
      exact absurd hi (Nat.not_lt_zero i)
    returned := nofun }

theorem join {k : Nat} (h : Sound n os s) (hs : s.shutdown = .join k)
    (hk : s.workers[k]? = some .returned) : Sound n os { s with shutdown := .join (k + 1) } := by
  have hstop : s.stop = true := h.stopping.mpr (by rw [hs]; nofun)
  refine { h with
    stopping := ⟨nofun, fun _ => hstop⟩
    notified := ?_
    joined := ?_
    returned := nofun }
  · intro _
    apply (h.notified hstop).imp_left
    intro hall
    rw [hs] at hall
    cases hall
  · intro k' hk' i hi
    obtain rfl := Shutdown.join.inj hk'
    rcases Nat.lt_succ_iff_lt_or_eq.mp hi with hlt | rfl
    · exact h.joined k hs i hlt
    · exact hk

theorem joined_all {k : Nat} (h : Sound n os s) (hs : s.shutdown = .join k)
    (hk : s.workers[k]? = none) :
    Sound n (os ++ [.returned]) { s with shutdown := .returned } := by
  have hnone : submitted (os ++ [.returned]) = submitted os ++ [] := submitted_append os [.returned]
  obtain ⟨hqueue, honce, hstopped, hleft⟩ := h.shows ⟨rfl, rfl, by simp⟩ hnone
  rw [List.append_nil] at hqueue
  have hstop : s.stop = true := h.stopping.mpr (by rw [hs]; nofun)
  refine { h with
    queue := hqueue
    once := honce
    stopped := hstopped
    stopping := ⟨nofun, fun _ => hstop⟩
    notified := ?_
    left := hleft
    joined := nofun
    returned := ?_ }
  · intro _
    apply (h.notified hstop).imp_left
    intro hall
    rw [hs] at hall
    cases hall
  · intro _ w hw
    obtain ⟨i, hi⟩ := List.mem_iff_getElem?.mp hw
    have hlt : i < k :=
      Nat.lt_of_lt_of_le (List.getElem?_eq_some_iff.mp hi).1 (List.getElem?_eq_none_iff.mp hk)
    exact Option.some.inj (hi.symm.trans (h.joined k hs i hlt))

/-- **One step.** -/
theorem step (h : Sound n os s) (hm : Moves s u o) : Sound n (os ++ o) u := by
  have hqueue := h.queue
  cases hm with
  | submit => exact h.submit _
  | notify hsub hws =>
    rw [List.append_nil]
    exact h.notify hws _
  | wait hi hstop htasks =>
    refine h.set hi nofun .waiting s.tasks nofun ?_ (.refl _) (fun _ => hstop) ?_ nofun
    · rw [List.append_nil]
      exact hqueue
    · intro hne
      exact absurd htasks hne
  | leave hi hstop htasks =>
    refine h.set hi nofun .returned s.tasks nofun ?_ (.refl _) nofun ?_ fun _ => ⟨hstop, htasks⟩
    · rw [List.append_nil]
      exact hqueue
    · intro hne
      exact absurd htasks hne
  | @start i t ts hi htasks =>
    refine h.set hi nofun (.running t) ts (by simp) ?_ (.refl _) nofun
      (fun _ => ⟨nofun, nofun⟩) nofun
    rw [htasks] at hqueue
    rw [started_append, submitted_append]
    show started os ++ [t] ++ ts = submitted os ++ []
    rw [List.append_nil, List.append_assoc]
    exact hqueue
  | @finish i t hi =>
    refine h.set hi nofun .lock s.tasks (by simp) ?_ (.refl _) nofun
      (fun _ => ⟨nofun, nofun⟩) nofun
    rw [started_append, submitted_append]
    show started os ++ [] ++ s.tasks = submitted os ++ []
    rw [List.append_nil, List.append_nil]
    exact hqueue
  | wakeUp hi =>
    rw [List.append_nil]
    exact h.wakeUp hi
  | @taskSubmit i t t' hi =>
    refine h.set hi nofun (.notifying t) (s.tasks ++ [t']) (by simp) ?_ (.refl _) nofun
      (fun _ => ⟨nofun, nofun⟩) nofun
    rw [started_append, submitted_append]
    show started os ++ [] ++ (s.tasks ++ [t']) = submitted os ++ [t']
    rw [List.append_nil, ← List.append_assoc, hqueue]
  | @taskNotify i t w ws hi hws =>
    have hback : Sound n (os ++ []) _ := h.set hi nofun (.running t) s.tasks nofun
      (by rw [List.append_nil]; exact hqueue) (.refl _) nofun (fun _ => ⟨nofun, nofun⟩) nofun
    exact hback.notify hws s.submitting
  | stop hs => exact h.stop hs
  | notifyAll hs =>
    rw [List.append_nil]
    exact h.notifyAll hs
  | join hs hk =>
    rw [List.append_nil]
    exact h.join hs hk
  | joined hs hk => exact h.joined_all hs hk

theorem awake_of_work (h : Sound n os s) : ¬ Asleep s := by
  intro hsleep
  have hstop : ¬ s.stop = true := by
    intro hstop
    rcases h.notified hstop with hall | hnone
    · exact hsleep.shutdown hall
    · exact hnone hsleep.waiting
  rcases h.awake (hsleep.work.resolve_right hstop) hsleep.waiting with hsub | ⟨w, hw, hne, hleft⟩
  · exact hsub hsleep.submitting
  · rcases hsleep.blocked w hw with heq | heq
    · exact hne heq
    · exact hleft heq

theorem serves (h : Sound n os s) (hn : 0 < n) : Serves os s where
  order := ⟨s.tasks, h.queue⟩
  once := h.once
  complete hret := by
    have hall := h.returned hret
    have hone : .returned ∈ s.workers := by
      obtain ⟨w, hw⟩ := List.exists_mem_of_length_pos (h.size ▸ hn)
      rw [← hall w hw]
      exact hw
    have hnone : inProgress s = [] := by
      apply List.filterMap_eq_nil_iff.mpr
      intro w hw
      rw [hall w hw]
      rfl
    have honce := h.once
    rw [hnone, List.append_nil] at honce
    exact ⟨(h.left hone).2, honce⟩
  awake := h.awake_of_work

end Sound

/-! ### Runs -/

theorem sound_init (n : Nat) : Sound n [] (init n : State τ) where
  size := List.length_replicate
  queue := rfl
  once := by
    have hnone : inProgress (init n : State τ) = [] := by
      apply List.filterMap_eq_nil_iff.mpr
      intro w hw
      rw [List.eq_of_mem_replicate hw]
      rfl
    rw [hnone]
    exact .refl _
  stopped := by simp [init]
  stopping := by simp [init]
  notified := nofun
  awake := fun hne => absurd rfl hne
  left := by
    intro hmem
    cases List.eq_of_mem_replicate hmem
  joined := nofun
  returned := nofun

/-- **The pool runs every task once and never sleeps on work.** -/
theorem pool_serves (hn : 0 < n)
    (h : Lib.Machine.Run machine Lib.Machine.anyStep (init n) os s) : Serves os s := by
  refine Sound.serves ?_ hn
  refine h.invariant (P := fun os s => Sound n os s) (sound_init n) ?_
  intro os t l u o ht _ hstep
  exact ht.step (step_moves hstep)

/-- One worker, which is asleep when the first task comes; that task submits
another one, and `shutdown` waits for both. -/
theorem pool_serves_nested :
    ∃ s : State Nat, ∃ os, Lib.Machine.Run machine Lib.Machine.anyStep (init 1) os s ∧
      os = [.submitted 1, .started 1, .submitted 2, .stopped, .finished 1, .started 2,
        .finished 2, .returned] ∧ Serves os s := by
  obtain ⟨s, hexec⟩ : ∃ s : State Nat, machine.exec (init 1) [.work 0, .submit 1,
      .notify (some 0), .work 0, .taskSubmit 0 2, .stop, .taskNotify 0 none, .notifyAll, .work 0,
      .work 0, .work 0, .work 0, .join, .join] =
      some (s, [.submitted 1, .started 1, .submitted 2, .stopped, .finished 1, .started 2,
        .finished 2, .returned]) := ⟨_, rfl⟩
  have hrun := Lib.Machine.run_of_exec_any hexec
  exact ⟨s, _, hrun, rfl, pool_serves Nat.one_pos hrun⟩

end HftComponents.Tcp.ThreadPool
