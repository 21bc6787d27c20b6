import HftComponents.Lib.Copies
import HftComponents.Lib.Potential
import HftComponents.Tcp.Pipelining
import HftComponents.Tcp.Shutdown

/-!
# Many clients

The server with all its connections: the accept loop submits `handle_connection` for
each client to the thread pool, and a connection makes its steps (`Loopback`) while a
worker is in its task.  The clients have their own threads, and connect in any order.

Each connection makes a run of its own, whatever the others do (`isolated`), and every
run comes to rest, spurious wake-ups apart (`steps_le`).

`stop` is not called here, and `handler_` is a function: it keeps nothing between its
calls, which come from all workers.
-/

namespace HftComponents.Tcp

namespace ThreadPool

/-! ### Who will take the tasks -/

variable {τ : Type} {s u : State τ} {l : Label τ} {o : List (Event τ)}

/-- It will look at the queue, or make another one do so. -/
def Worker.wakes : Worker τ → Nat
  | .lock | .notifying _ => 1
  | .waiting | .running _ | .returned => 0

/-- As long as a worker is blocked in `wait`, there is a notification to come or a worker
awake for every task in the queue. -/
def Prompt (s : State τ) : Prop :=
  .waiting ∈ s.workers → s.tasks.length ≤ s.submitting + (s.workers.map Worker.wakes).sum

theorem wakes_set {ws : List (Worker τ)} {i : Nat} {x : Worker τ} (hi : ws[i]? = some x)
    (y : Worker τ) : ((ws.set i y).map Worker.wakes).sum + x.wakes =
      (ws.map Worker.wakes).sum + y.wakes :=
  TcpServer.sum_map_set Worker.wakes hi y

/-- A notification wakes a worker, if one is waiting. -/
theorem wakes_notifyOne {ws vs : List (Worker τ)} {w : Option Nat}
    (h : notifyOne ws w = some vs) (hwait : .waiting ∈ vs) :
    (vs.map Worker.wakes).sum = (ws.map Worker.wakes).sum + 1 := by
  rcases notifyOne_cases h with ⟨hnone, rfl⟩ | ⟨i, hi, rfl⟩
  · exact absurd hwait hnone
  · exact wakes_set hi .lock

theorem mem_of_mem_set {α : Type*} {l : List α} {i : Nat} {a b : α} (h : a ∈ l.set i b)
    (hne : a ≠ b) : a ∈ l :=
  (List.mem_or_eq_of_mem_set h).resolve_right hne

theorem prompt_init (n : Nat) : Prompt (init n : State τ) := fun _ => Nat.zero_le _

theorem Prompt.step (h : Prompt s) (hm : Moves s u o) : Prompt u := by
  intro hwait
  cases hm with
  | submit =>
    have hle := h hwait
    simp only [List.length_append, List.length_singleton]
    omega
  | notify hsub hws =>
    have hwake := wakes_notifyOne hws hwait
    have hle : s.tasks.length ≤ s.submitting + (s.workers.map Worker.wakes).sum := by
      rcases notifyOne_cases hws with ⟨hnone, rfl⟩ | ⟨i, hi, rfl⟩
      · exact absurd hwait hnone
      · exact h (List.mem_of_getElem? hi)
    dsimp only
    omega
  | wait hi hstop htasks =>
    dsimp only
    rw [htasks]
    exact Nat.zero_le _
  | leave hi hstop htasks =>
    dsimp only
    rw [htasks]
    exact Nat.zero_le _
  | @start i t ts hi htasks =>
    have hle := h (mem_of_mem_set hwait (by rintro ⟨⟩))
    have hset := wakes_set hi (.running t)
    rw [htasks, List.length_cons] at hle
    simp only [Worker.wakes] at hset ⊢
    omega
  | @finish i t hi =>
    have hle := h (mem_of_mem_set hwait (by rintro ⟨⟩))
    have hset := wakes_set hi .lock
    simp only [Worker.wakes] at hset ⊢
    omega
  | @wakeUp i hi =>
    have hle := h (List.mem_of_getElem? hi)
    have hset := wakes_set hi .lock
    simp only [Worker.wakes] at hset ⊢
    omega
  | @taskSubmit i t t' hi =>
    have hle := h (mem_of_mem_set hwait (by rintro ⟨⟩))
    have hset := wakes_set hi (.notifying t)
    simp only [Worker.wakes, List.length_append, List.length_singleton] at hset ⊢
    omega
  | @taskNotify i t w ws hi hws =>
    have hwake := wakes_notifyOne hws hwait
    have hset := wakes_set hi (.running t)
    have hle : s.tasks.length ≤ s.submitting + (s.workers.map Worker.wakes).sum := by
      rcases notifyOne_cases hws with ⟨hnone, rfl⟩ | ⟨j, hj, rfl⟩
      · exact absurd hwait hnone
      · exact h (mem_of_mem_set (List.mem_of_getElem? hj) (by rintro ⟨⟩))
    simp only [Worker.wakes] at hset ⊢
    omega
  | stop hs => exact h hwait
  | notifyAll hs =>
    obtain ⟨w, -, hw⟩ := List.mem_map.mp hwait
    cases w <;> cases hw
  | join hs hk => exact h hwait
  | joined hs hk => exact h hwait

end ThreadPool

namespace Service

open Lib.Transfer (Reply)
open Lib.Machine (shownBy)
open ThreadPool (Worker)

/-! ### The model -/

/-- The server and its clients.  `backlog` are the clients that are not accepted yet,
by their index in `conns`, and the tasks of the pool are `handle_connection` for them. -/
structure State where
  pool : ThreadPool.State Nat
  backlog : List Nat
  conns : List (Loopback.Conn Unit)

/-- `client` and `serve` are steps of the two ends of a connection, the second in worker
`k`; the answers are those of the system calls. -/
inductive Label
  | client (i : Nat) (reply : Reply)
  | accept (i : Nat)
  | notify (w : Option Nat)
  | worker (k : Nat)
  | wakeUp (k : Nat)
  | serve (k : Nat) (reply : Reply)
  deriving DecidableEq, Repr

/-- A worker that wakes up for no reason. -/
def Label.isWakeUp : Label → Bool
  | .wakeUp _ => true
  | _ => false

def answer (handler : Request → Response) (_ : Unit) (req : Request) : Unit × Response :=
  ((), handler req)

/-- One connection, from `connect` on. -/
abbrev conversation (net : Loopback.Network) (handler : Request → Response) :
    Lib.Machine (Loopback.Conn Unit) Lib.Duplex.Label Loopback.Event :=
  Loopback.machine net (answer handler)

variable (net : Loopback.Network) (handler : Request → Response)

def onConn (s : State) (i : Nat) (l : Lib.Duplex.Label) :
    Option (State × List (Nat × Loopback.Event)) :=
  match s.conns[i]? with
  | some c =>
    ((conversation net handler).step c l).map fun p =>
      ({ s with conns := s.conns.set i p.1 }, p.2.map fun e => (i, e))
  | none => none

def onPool (s : State) (l : ThreadPool.Label Nat) : Option (State × List (Nat × Loopback.Event)) :=
  (ThreadPool.step s.pool l).map fun p => ({ s with pool := p.1 }, [])

/-- `handle_connection` has closed the descriptor. -/
def State.closed (s : State) (i : Nat) : Bool :=
  s.conns[i]?.any fun c => c.right = .closed

/-- `accept4` and `submit`, which the accept loop leaves when it has notified. -/
def accept (s : State) (i : Nat) : Option (State × List (Nat × Loopback.Event)) :=
  if i ∈ s.backlog ∧ s.pool.submitting = 0 then
    (onPool s (.submit i)).map fun p => ({ p.1 with backlog := s.backlog.erase i }, p.2)
  else none

def step (s : State) : Label → Option (State × List (Nat × Loopback.Event))
  | .client i reply => onConn net handler s i (.left reply)
  | .accept i => accept s i
  | .notify w => onPool s (.notify w)
  | .worker k =>
    match s.pool.workers[k]? with
    | some (.running i) => if s.closed i then onPool s (.work k) else none
    | _ => onPool s (.work k)
  | .wakeUp k => onPool s (.wakeUp k)
  | .serve k reply =>
    match s.pool.workers[k]? with
    | some (.running i) => onConn net handler s i (.right reply)
    | _ => none

def machine : Lib.Machine State Label (Nat × Loopback.Event) := ⟨step net handler⟩

/-- `numWorkers` workers, and a client for each list of calls. -/
def init (numWorkers : Nat) (clients : List (List Loopback.Call)) : State where
  pool := ThreadPool.init numWorkers
  backlog := List.range clients.length
  conns := clients.map (Loopback.start ())

/-! ### What a step can do -/

variable {net handler} {s u : State} {l : Label} {o os : List (Nat × Loopback.Event)}

inductive Moves (net : Loopback.Network) (handler : Request → Response) (s : State) :
    Label → State → List (Nat × Loopback.Event) → Prop
  | client {i : Nat} {reply : Reply} {c d : Loopback.Conn Unit} {o : List Loopback.Event}
      (hc : s.conns[i]? = some c)
      (hs : (conversation net handler).step c (.left reply) = some (d, o)) :
      Moves net handler s (.client i reply) { s with conns := s.conns.set i d }
        (o.map fun e => (i, e))
  | serve {k i : Nat} {reply : Reply} {c d : Loopback.Conn Unit} {o : List Loopback.Event}
      (hk : s.pool.workers[k]? = some (.running i)) (hc : s.conns[i]? = some c)
      (hs : (conversation net handler).step c (.right reply) = some (d, o)) :
      Moves net handler s (.serve k reply) { s with conns := s.conns.set i d }
        (o.map fun e => (i, e))
  | accept {i : Nat} (hi : i ∈ s.backlog) (hsub : s.pool.submitting = 0) :
      Moves net handler s (.accept i)
        { s with
          pool := { s.pool with
            tasks := s.pool.tasks ++ [i], submitting := s.pool.submitting + 1 }
          backlog := s.backlog.erase i } []
  | notify {w : Option Nat} {ws : List (Worker Nat)} (hsub : s.pool.submitting ≠ 0)
      (hws : ThreadPool.notifyOne s.pool.workers w = some ws) :
      Moves net handler s (.notify w)
        { s with pool := { s.pool with workers := ws, submitting := s.pool.submitting - 1 } } []
  | enter {k : Nat} (hk : s.pool.workers[k]? = some .lock) :
      Moves net handler s (.worker k) { s with pool := (ThreadPool.enter s.pool k).1 } []
  | finish {k i : Nat} (hk : s.pool.workers[k]? = some (.running i)) (hclosed : s.closed i = true) :
      Moves net handler s (.worker k)
        { s with pool := { s.pool with workers := s.pool.workers.set k .lock } } []
  | wakeUp {k : Nat} (hk : s.pool.workers[k]? = some .waiting) :
      Moves net handler s (.wakeUp k)
        { s with pool := { s.pool with workers := s.pool.workers.set k .lock } } []

theorem onConn_some {i : Nat} {k : Lib.Duplex.Label} (h : onConn net handler s i k = some (u, o)) :
    ∃ c d o', s.conns[i]? = some c ∧ (conversation net handler).step c k = some (d, o') ∧
      u = { s with conns := s.conns.set i d } ∧ o = o'.map fun e => (i, e) := by
  unfold onConn at h
  split at h
  · obtain ⟨⟨d, o'⟩, hs, heq⟩ := Option.map_eq_some_iff.mp h
    obtain ⟨rfl, rfl⟩ := Prod.mk.inj heq
    exact ⟨_, d, o', ‹_›, hs, rfl, rfl⟩
  · cases h

theorem step_moves (h : (machine net handler).step s l = some (u, o)) :
    Moves net handler s l u o := by
  cases l with
  | client i reply =>
    obtain ⟨c, d, o', hc, hs, rfl, rfl⟩ := onConn_some h
    exact .client hc hs
  | accept i =>
    dsimp only [machine, step, Service.accept] at h
    split at h
    · rename_i hi
      cases h
      exact .accept hi.1 hi.2
    · cases h
  | notify w =>
    dsimp only [machine, step, onPool, ThreadPool.step] at h
    split at h
    · cases h
    · rename_i hsub
      cases hws : ThreadPool.notifyOne s.pool.workers w with
      | none =>
        rw [hws] at h
        cases h
      | some ws =>
        rw [hws] at h
        cases h
        exact .notify hsub hws
  | worker k =>
    dsimp only [machine, step] at h
    split at h
    · rename_i i hk
      split at h
      · rename_i hclosed
        simp only [onPool, ThreadPool.step, ThreadPool.work, hk, Option.map_some,
          Option.some.injEq, Prod.mk.injEq] at h
        obtain ⟨rfl, rfl⟩ := h
        exact .finish hk hclosed
      · cases h
    · rename_i hrun
      dsimp only [onPool, ThreadPool.step, ThreadPool.work] at h
      split at h
      · cases h
        exact .enter ‹_›
      · exact absurd ‹_› (hrun _)
      · cases h
  | wakeUp k =>
    dsimp only [machine, step, onPool, ThreadPool.step] at h
    split at h
    · cases h
      exact .wakeUp ‹_›
    · cases h
  | serve k reply =>
    dsimp only [machine, step] at h
    split at h
    · obtain ⟨c, d, o', hc, hs, rfl, rfl⟩ := onConn_some h
      exact .serve ‹_› hc hs
    · cases h

/-! ### Every run comes to rest -/

/-- What a worker can still do with its task. -/
def workerRank : Worker Nat → Nat
  | .lock => 1
  | .running _ => 2
  | .waiting | .notifying _ | .returned => 0

/-- A task is more than a worker that has only to look at the queue, and so is a
notification; to accept a client makes one of each. -/
def rank (s : State) : Nat :=
  (s.conns.map Loopback.rank).sum + 5 * s.backlog.length + 2 * s.pool.tasks.length +
    2 * s.pool.submitting + (s.pool.workers.map workerRank).sum

theorem rank_conn {i : Nat} {k : Lib.Duplex.Label} {c d : Loopback.Conn Unit}
    {o : List Loopback.Event} (hc : s.conns[i]? = some c)
    (hs : (conversation net handler).step c k = some (d, o)) :
    rank { s with conns := s.conns.set i d } < rank s := by
  have hset := TcpServer.sum_map_set Loopback.rank hc d
  have hlt := Loopback.rank_step net (answer handler) c k d o hs
  simp only [rank]
  omega

theorem rank_notify {w : Option Nat} {ws : List (Worker Nat)}
    (hws : ThreadPool.notifyOne s.pool.workers w = some ws) :
    (ws.map workerRank).sum ≤ (s.pool.workers.map workerRank).sum + 1 := by
  rcases ThreadPool.notifyOne_cases hws with ⟨-, rfl⟩ | ⟨i, hi, rfl⟩
  · exact Nat.le_succ _
  · exact (TcpServer.sum_map_set workerRank hi .lock).le

theorem rank_enter {k : Nat} (hk : s.pool.workers[k]? = some .lock) :
    rank { s with pool := (ThreadPool.enter s.pool k).1 } < rank s := by
  unfold ThreadPool.enter
  split
  · have hset := TcpServer.sum_map_set workerRank hk .waiting
    simp only [rank, workerRank] at hset ⊢
    omega
  · split
    · have hset := TcpServer.sum_map_set workerRank hk .returned
      simp only [rank, workerRank] at hset ⊢
      omega
    · rename_i t ts htasks
      have hset := TcpServer.sum_map_set workerRank hk (.running t)
      simp only [rank, workerRank, htasks, List.length_cons] at hset ⊢
      omega

/-- Only a spurious wake-up makes a run longer. -/
theorem Moves.pays (hm : Moves net handler s l u o) :
    (!l.isWakeUp).toNat + rank u ≤ rank s + l.isWakeUp.toNat := by
  cases hm with
  | client hc hs | serve _ hc hs =>
    have hlt := rank_conn hc hs
    simp only [Label.isWakeUp, Bool.not_false, Bool.toNat_true, Bool.toNat_false]
    omega
  | @accept i hi hsub =>
    have hlen := List.length_erase_of_mem hi
    have hpos := List.length_pos_of_mem hi
    simp only [rank, Label.isWakeUp, Bool.not_false, Bool.toNat_true, Bool.toNat_false,
      List.length_append, List.length_singleton]
    omega
  | notify hsub hws =>
    have hle := rank_notify hws
    simp only [rank, Label.isWakeUp, Bool.not_false, Bool.toNat_true, Bool.toNat_false]
    omega
  | enter hk =>
    have hlt := rank_enter hk
    simp only [Label.isWakeUp, Bool.not_false, Bool.toNat_true, Bool.toNat_false]
    omega
  | @finish k i hk hclosed =>
    have hset := TcpServer.sum_map_set workerRank hk .lock
    simp only [rank, workerRank, Label.isWakeUp, Bool.not_false, Bool.toNat_true,
      Bool.toNat_false] at hset ⊢
    omega
  | @wakeUp k hk =>
    have hset := TcpServer.sum_map_set workerRank hk .lock
    simp only [rank, workerRank, Label.isWakeUp, Bool.not_true, Bool.toNat_true,
      Bool.toNat_false] at hset ⊢
    omega

theorem steps_le {ls : List Label} (h : (machine net handler).exec s ls = some (u, os)) :
    ls.countP (fun l => !l.isWakeUp) ≤ rank s + ls.countP Label.isWakeUp := by
  have hle := Lib.Machine.tally_le (m := machine net handler) (I := fun _ => True)
    (A := Lib.Machine.anyStep) (r := rank) (w := fun _ l => (!l.isWakeUp).toNat)
    (c := fun _ l => l.isWakeUp.toNat) (fun _ _ _ _ _ _ hs => ⟨trivial, (step_moves hs).pays⟩)
    trivial (Lib.Machine.execOk_of_forall (fun _ _ _ => trivial) s) h
  rw [Lib.Machine.tally_labels h, Lib.Machine.tally_labels h] at hle
  omega

/-! ### Where the clients are -/

/-- After a run that has shown `os`, in which the pool has shown `po`. -/
structure Attends (net : Loopback.Network) (handler : Request → Response) (numWorkers : Nat)
    (clients : List (List Loopback.Call)) (po : List (ThreadPool.Event Nat))
    (os : List (Nat × Loopback.Event)) (s : State) : Prop where
  copies : Lib.Machine.Copies (conversation net handler) Lib.Machine.anyStep
    (clients.map (Loopback.start ())) os s.conns
  pool : ThreadPool.Sound numWorkers po s.pool
  prompt : ThreadPool.Prompt s.pool
  ids : (s.backlog ++ ThreadPool.submitted po).Perm (List.range clients.length)
  finished : ∀ i ∈ ThreadPool.finished po, s.closed i = true
  running : s.pool.stop = false
  plain : ∀ w ∈ s.pool.workers, ∀ i, w ≠ .notifying i

variable {n : Nat} {clients : List (List Loopback.Call)} {po o' : List (ThreadPool.Event Nat)}

theorem closed_of_step {k : Lib.Duplex.Label} {c d : Loopback.Conn Unit}
    {o : List Loopback.Event} (hs : (conversation net handler).step c k = some (d, o))
    (hc : c.right = .closed) : d.right = .closed := by
  obtain ⟨left, right, up, down⟩ := c
  dsimp only at hc
  subst hc
  cases Lib.Duplex.Link.step_moves hs with
  | left ha => rfl
  | right ha => cases ha

theorem closed_set {i j : Nat} {k : Lib.Duplex.Label} {c d : Loopback.Conn Unit}
    {o : List Loopback.Event} (hc : s.conns[i]? = some c)
    (hs : (conversation net handler).step c k = some (d, o)) (hj : s.closed j = true) :
    State.closed { s with conns := s.conns.set i d } j = true := by
  have hlt := (List.getElem?_eq_some_iff.mp hc).1
  unfold State.closed at hj ⊢
  dsimp only
  by_cases hij : i = j
  · subst hij
    rw [hc] at hj
    rw [List.getElem?_set_self hlt]
    simp only [Option.any_some, decide_eq_true_eq] at hj ⊢
    exact closed_of_step hs hj
  · rw [List.getElem?_set_ne hij]
    exact hj

theorem enter_eq (p : ThreadPool.State Nat) (k : Nat) :
    ∃ w ts o', ThreadPool.enter p k = ({ p with tasks := ts, workers := p.workers.set k w }, o') ∧
      ThreadPool.submitted o' = [] ∧ ThreadPool.finished o' = [] ∧ ∀ i, w ≠ .notifying i := by
  unfold ThreadPool.enter
  split
  · exact ⟨.waiting, p.tasks, [], rfl, rfl, rfl, by simp⟩
  · split
    · exact ⟨.returned, p.tasks, [], rfl, rfl, rfl, by simp⟩
    · exact ⟨.running _, _, _, rfl, rfl, rfl, by simp⟩

theorem mem_set {ws : List (Worker Nat)} {k : Nat} {w : Worker Nat}
    (h : ∀ w ∈ ws, ∀ i, w ≠ .notifying i) (hw : ∀ i, w ≠ .notifying i) :
    ∀ v ∈ ws.set k w, ∀ i, v ≠ .notifying i := by
  intro v hv
  rcases List.mem_or_eq_of_mem_set hv with hv | rfl
  · exact h v hv
  · exact hw

namespace Attends

theorem conn (h : Attends net handler n clients po os s) {i : Nat} {k : Lib.Duplex.Label}
    {c d : Loopback.Conn Unit} {o : List Loopback.Event} (hc : s.conns[i]? = some c)
    (hs : (conversation net handler).step c k = some (d, o)) :
    Attends net handler n clients po (os ++ o.map fun e => (i, e))
      { s with conns := s.conns.set i d } :=
  { h with
    copies := h.copies.step hc trivial hs
    finished := fun j hj => closed_set hc hs (h.finished j hj) }

theorem quiet (h : Attends net handler n clients po os s) {p : ThreadPool.State Nat}
    (hm : ThreadPool.Moves s.pool p o') (hsub : ThreadPool.submitted o' = [])
    (hfin : ∀ i ∈ ThreadPool.finished o', s.closed i = true) (hstop : p.stop = s.pool.stop)
    (hplain : ∀ w ∈ p.workers, ∀ i, w ≠ .notifying i) :
    Attends net handler n clients (po ++ o') os { s with pool := p } where
  copies := h.copies
  pool := h.pool.step hm
  prompt := h.prompt.step hm
  ids := by
    rw [ThreadPool.submitted_append, hsub, List.append_nil]
    exact h.ids
  finished i hi := by
    rw [ThreadPool.finished_append, List.mem_append] at hi
    exact hi.elim (h.finished i) (hfin i)
  running := hstop.trans h.running
  plain := hplain

theorem accept (h : Attends net handler n clients po os s) {i : Nat} (hi : i ∈ s.backlog) :
    Attends net handler n clients (po ++ [.submitted i]) os
      { s with
        pool := { s.pool with
          tasks := s.pool.tasks ++ [i], submitting := s.pool.submitting + 1 }
        backlog := s.backlog.erase i } where
  copies := h.copies
  pool := h.pool.step .submit
  prompt := h.prompt.step .submit
  ids := by
    have hone : ThreadPool.submitted [.submitted i] = [i] := rfl
    rw [ThreadPool.submitted_append, hone, ← List.append_assoc]
    refine List.Perm.trans ?_ h.ids
    have hperm := (List.perm_cons_erase hi).append_right (ThreadPool.submitted po)
    exact (List.perm_append_singleton _ _).trans hperm.symm
  finished j hj := by
    have hnone : ThreadPool.finished [.submitted i] = [] := rfl
    rw [ThreadPool.finished_append, hnone, List.append_nil] at hj
    exact h.finished j hj
  running := h.running
  plain := h.plain

theorem enter (h : Attends net handler n clients po os s) {k : Nat}
    (hk : s.pool.workers[k]? = some .lock) :
    ∃ o', Attends net handler n clients (po ++ o') os
      { s with pool := (ThreadPool.enter s.pool k).1 } := by
  obtain ⟨w, ts, o', henter, hsub, hfin, hw⟩ := enter_eq s.pool k
  have hm := ThreadPool.enter_moves hk henter
  rw [henter]
  refine ⟨o', h.quiet hm hsub ?_ rfl (mem_set h.plain hw)⟩
  rw [hfin]
  rintro _ ⟨⟩

theorem step (h : Attends net handler n clients po os s) (hm : Moves net handler s l u o) :
    ∃ po', Attends net handler n clients po' (os ++ o) u := by
  cases hm with
  | client hc hs | serve _ hc hs => exact ⟨po, h.conn hc hs⟩
  | accept hi hsub =>
    rw [List.append_nil]
    exact ⟨_, h.accept hi⟩
  | notify hsub hws =>
    rw [List.append_nil]
    refine ⟨_, h.quiet (.notify hsub hws) rfl (by rintro _ ⟨⟩) rfl ?_⟩
    rcases ThreadPool.notifyOne_cases hws with ⟨-, rfl⟩ | ⟨i, hi, rfl⟩
    · exact h.plain
    · exact mem_set h.plain fun i => by rintro ⟨⟩
  | enter hk =>
    rw [List.append_nil]
    obtain ⟨o', h'⟩ := h.enter hk
    exact ⟨_, h'⟩
  | @finish k i hk hclosed =>
    rw [List.append_nil]
    refine ⟨_, h.quiet (.finish hk) rfl ?_ rfl (mem_set h.plain fun i => by rintro ⟨⟩)⟩
    intro j hj
    obtain rfl := List.mem_singleton.mp hj
    exact hclosed
  | wakeUp hk =>
    rw [List.append_nil]
    exact ⟨_, h.quiet (.wakeUp hk) rfl (by rintro _ ⟨⟩) rfl
      (mem_set h.plain fun i => by rintro ⟨⟩)⟩

theorem init (net : Loopback.Network) (handler : Request → Response) (n : Nat)
    (clients : List (List Loopback.Call)) :
    Attends net handler n clients [] [] (init n clients) where
  copies := .start _
  pool := ThreadPool.sound_init n
  prompt := ThreadPool.prompt_init n
  ids := by
    have hnone : ThreadPool.submitted ([] : List (ThreadPool.Event Nat)) = [] := rfl
    rw [hnone, List.append_nil]
    exact .refl _
  finished := by rintro _ ⟨⟩
  running := rfl
  plain w hw i := by
    rw [List.eq_of_mem_replicate hw]
    rintro ⟨⟩

theorem run (h : (machine net handler).Run Lib.Machine.anyStep (Service.init n clients) os s) :
    ∃ po, Attends net handler n clients po os s := by
  refine h.invariant (P := fun os s => ∃ po, Attends net handler n clients po os s)
    ⟨[], .init net handler n clients⟩ ?_
  rintro os t l u o ⟨po, ht⟩ - hs
  exact ht.step (step_moves hs)

theorem exists_conn (h : Attends net handler n clients po os s) {i : Nat}
    {calls : List Loopback.Call} (hi : clients[i]? = some calls) :
    ∃ c, s.conns[i]? = some c ∧
      (conversation net handler).Run Lib.Machine.anyStep (Loopback.start () calls)
        (shownBy i os) c := by
  have hlt : i < s.conns.length := by
    rw [h.copies.length_eq, List.length_map]
    exact (List.getElem?_eq_some_iff.mp hi).1
  refine ⟨_, List.getElem?_eq_getElem hlt, ?_⟩
  refine h.copies.run i _ _ ?_ (List.getElem?_eq_getElem hlt)
  rw [List.getElem?_map, hi]
  rfl

end Attends

theorem respond_answer (handler : Request → Response) (rs : List Request) :
    (respond (answer handler) () rs).2 = rs.map handler := by
  induction rs with
  | nil => rfl
  | cons r rs ih => simp only [respond, answer, List.map_cons, ih]

/-- **Clients do not see each other.**  What a connection has shown it could have shown
alone: the handler has been called with the first of the client's requests, and the client
has returned the first of the responses to its requests. -/
theorem isolated (h : (machine net handler).Run Lib.Machine.anyStep (init n clients) os s)
    {i : Nat} {calls : List Loopback.Call} (hi : clients[i]? = some calls) :
    ∃ c, s.conns[i]? = some c ∧
      (conversation net handler).Run Lib.Machine.anyStep (Loopback.start () calls)
        (shownBy i os) c ∧
      Loopback.called (shownBy i os) <+: Loopback.accepted calls ∧
      Loopback.received (shownBy i os) <+: (Loopback.accepted calls).map handler := by
  obtain ⟨po, ht⟩ := Attends.run h
  obtain ⟨c, hc, hrun⟩ := ht.exists_conn hi
  obtain ⟨hcalled, -, hreceived⟩ := Loopback.loopback_in_order hrun
  rw [respond_answer] at hreceived
  exact ⟨c, hc, hrun, hcalled, hreceived⟩

def echo (req : Request) : Response := ⟨req.id, ⟨0⟩, req.payload⟩

/-- One worker, and the second client is accepted first. -/
theorem isolated_two : ∃ os s,
    (machine ⟨64, 64, false⟩ echo).Run Lib.Machine.anyStep
      (init 1 [[.send ⟨7, 0, [1, 2]⟩, .recv], [.send ⟨8, 0, []⟩, .recv]]) os s ∧
    Loopback.called (shownBy 0 os) = [] ∧
    Loopback.received (shownBy 1 os) = [⟨8, ⟨0⟩, []⟩] ∧
    Loopback.received (shownBy 1 os) <+: [echo ⟨8, 0, []⟩] := by
  obtain ⟨⟨s, os⟩, hexec, hshown⟩ := Option.map_eq_some_iff.mp
    (show ((machine ⟨64, 64, false⟩ echo).exec
        (init 1 [[.send ⟨7, 0, [1, 2]⟩, .recv], [.send ⟨8, 0, []⟩, .recv]])
        (List.replicate 6 (.client 1 (.upTo 9)) ++ List.replicate 6 (.client 0 (.upTo 9)) ++
          [.accept 1, .notify none, .worker 0] ++ List.replicate 8 (.serve 0 (.upTo 9)) ++
          [.accept 0] ++ List.replicate 4 (.client 1 (.upTo 9)))).map
          (fun p => (Loopback.called (shownBy 0 p.2), Loopback.received (shownBy 1 p.2))) =
        some ([], [⟨8, ⟨0⟩, []⟩]) by decide +kernel)
  obtain ⟨hcalled, hreceived⟩ := Prod.mk.inj hshown
  have hrun := Lib.Machine.run_of_exec_any hexec
  obtain ⟨-, -, -, -, hprefix⟩ := isolated hrun (i := 1) rfl
  exact ⟨os, s, hrun, hcalled, hreceived, hprefix⟩

end Service

end HftComponents.Tcp
