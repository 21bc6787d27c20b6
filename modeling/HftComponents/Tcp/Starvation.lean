import HftComponents.Tcp.Service

/-!
# Clients that keep a worker

A client that never lets its connection go keeps the worker that serves it.  As long as
there are fewer such clients than workers, every other client is served as if it were
alone, and otherwise the other clients may not be served at all (`served_iff`).

The first rests on the notifications of the pool: it leaves no task to a worker that is
busy while another one is blocked in `wait` (`ThreadPool.Prompt`).
-/

namespace HftComponents.Tcp

namespace Service

open Lib.Transfer (Reply)
open Lib.Machine (shownBy)
open ThreadPool (Worker)

variable {net : Loopback.Network} {handler : Request → Response} {s u : State} {l : Label}
  {o os : List (Nat × Loopback.Event)} {n : Nat} {clients : List (List Loopback.Call)}
  {po o' : List (ThreadPool.Event Nat)}

/-! ### Where the server comes to rest -/

/-- No step is possible but a spurious wake-up. -/
def Rested (net : Loopback.Network) (handler : Request → Response) (s : State) : Prop :=
  ∀ l, l.isWakeUp = false → (machine net handler).step s l = none

theorem stuck_of_closed {c : Loopback.Conn Unit} (hc : c.right = .closed)
    (hleft : ∀ reply, (conversation net handler).step c (.left reply) = none) :
    (conversation net handler).Stuck c := by
  obtain ⟨left, right, up, down⟩ := c
  dsimp only at hc
  subst hc
  intro k
  cases k with
  | left reply => exact hleft reply
  | right reply => rfl

theorem length_le_countP {α : Type*} {p : α → Bool} {l : List α} {is : List Nat}
    (hnodup : is.Nodup) (h : ∀ i ∈ is, ∃ a, l[i]? = some a ∧ p a = true) :
    is.length ≤ l.countP p := by
  have hsub : is ⊆ (l.zipIdx.filter fun x => p x.1).map Prod.snd := by
    intro i hi
    obtain ⟨a, ha, hp⟩ := h i hi
    exact List.mem_map.mpr ⟨(a, i),
      List.mem_filter.mpr ⟨List.mk_mem_zipIdx_iff_getElem?.mpr ha, hp⟩, rfl⟩
  have hle := (List.subperm_of_subset hnodup hsub).length_le
  rw [List.length_map, ← List.countP_eq_length_filter] at hle
  have hfst : (l.zipIdx.map Prod.fst).countP p = l.zipIdx.countP fun x => p x.1 := List.countP_map
  rw [List.zipIdx_map_fst] at hfst
  rwa [hfst]

/-- A client that lets its connection go: `handle_connection` returns. -/
def Releases (net : Loopback.Network) (handler : Request → Response)
    (calls : List Loopback.Call) : Prop :=
  ∀ os c, (conversation net handler).Run Lib.Machine.anyStep (Loopback.start () calls) os c →
    (conversation net handler).Stuck c → c.right = .closed

namespace Rested

variable (hrest : Rested net handler s)

include hrest

theorem submitting_eq_zero : s.pool.submitting = 0 := by
  by_contra hsub
  have hnone : ∀ w, ThreadPool.notifyOne s.pool.workers w = none := by
    intro w
    have hw := hrest (.notify w) rfl
    simpa [machine, Service.step, onPool, ThreadPool.step, hsub] using hw
  have hany := hnone none
  simp only [ThreadPool.notifyOne, ite_eq_left_iff, reduceCtorEq, imp_false, not_not,
    List.any_eq_true] at hany
  obtain ⟨w, hw, hwait⟩ := hany
  obtain ⟨k, hk⟩ := List.getElem?_of_mem hw
  have hsome := hnone (some k)
  cases w <;> simp [ThreadPool.Worker.isWaiting] at hwait
  simp [ThreadPool.notifyOne, hk] at hsome

theorem backlog_eq_nil : s.backlog = [] := by
  cases hb : s.backlog with
  | nil => rfl
  | cons i ids =>
    have hi := hrest (.accept i) rfl
    have hsub := hrest.submitting_eq_zero
    simp [machine, Service.step, Service.accept, hb, hsub, onPool, ThreadPool.step] at hi

theorem not_lock : .lock ∉ s.pool.workers := by
  intro hmem
  obtain ⟨k, hk⟩ := List.getElem?_of_mem hmem
  have hwork := hrest (.worker k) rfl
  simp [machine, Service.step, hk, onPool, ThreadPool.step, ThreadPool.work] at hwork

theorem left_eq_none {i : Nat} {c : Loopback.Conn Unit} (hc : s.conns[i]? = some c)
    (reply : Reply) : (conversation net handler).step c (.left reply) = none := by
  have hstep := hrest (.client i reply) rfl
  simpa [machine, Service.step, onConn, hc] using hstep

/-- A worker that is in its task waits for the client. -/
theorem stuck_of_running {k i : Nat} {c : Loopback.Conn Unit}
    (hk : s.pool.workers[k]? = some (.running i)) (hc : s.conns[i]? = some c) :
    (conversation net handler).Stuck c ∧ c.right ≠ .closed := by
  refine ⟨?_, ?_⟩
  · intro l
    cases l with
    | left reply => exact hrest.left_eq_none hc reply
    | right reply =>
      have hstep := hrest (.serve k reply) rfl
      simpa [machine, Service.step, onConn, hk, hc] using hstep
  · intro hclosed
    have hwork := hrest (.worker k) rfl
    have hyes : s.closed i = true := by simp [State.closed, hc, hclosed]
    simp [machine, Service.step, hk, hyes, onPool, ThreadPool.step, ThreadPool.work] at hwork

end Rested

namespace Attends

variable (h : Attends net handler n clients po os s)

include h

theorem nodup_submitted : (ThreadPool.submitted po).Nodup :=
  (List.nodup_append.mp (h.ids.nodup_iff.mpr List.nodup_range)).2.1

theorem nodup_inProgress : (ThreadPool.inProgress s.pool).Nodup := by
  have hstarted : (ThreadPool.started po).Nodup := by
    have hall := h.nodup_submitted
    rw [← h.pool.queue] at hall
    exact (List.nodup_append.mp hall).1
  exact (List.nodup_append.mp (h.pool.once.nodup_iff.mpr hstarted)).2.1

theorem exists_calls {i : Nat} (hi : i ∈ ThreadPool.submitted po) :
    ∃ calls, clients[i]? = some calls := by
  have hlt := List.mem_range.mp (h.ids.subset (List.mem_append_right _ hi))
  exact ⟨_, List.getElem?_eq_getElem hlt⟩

variable (hrest : Rested net handler s)

include hrest

theorem worker_cases {w : Worker Nat} (hw : w ∈ s.pool.workers) :
    w = .waiting ∨ ∃ i, w = .running i := by
  cases w with
  | lock => exact absurd hw hrest.not_lock
  | waiting => exact Or.inl rfl
  | running i => exact Or.inr ⟨i, rfl⟩
  | notifying i => exact absurd rfl (h.plain _ hw i)
  | returned =>
    have hstop := (h.pool.left hw).1
    rw [h.running] at hstop
    cases hstop

theorem tasks_eq_nil (hwait : .waiting ∈ s.pool.workers) : s.pool.tasks = [] := by
  have hle := h.prompt hwait
  have hnone : (s.pool.workers.map Worker.wakes).sum = 0 := by
    refine List.sum_eq_zero fun x hx => ?_
    obtain ⟨w, hw, rfl⟩ := List.mem_map.mp hx
    rcases h.worker_cases hrest hw with rfl | ⟨i, rfl⟩ <;> rfl
  rw [hrest.submitting_eq_zero, hnone] at hle
  exact List.length_eq_zero_iff.mp (Nat.le_zero.mp hle)

theorem exists_waiting {held : List Loopback.Call → Bool} (hfew : clients.countP held < n)
    (hfree : ∀ calls ∈ clients, held calls = false → Releases net handler calls) :
    .waiting ∈ s.pool.workers := by
  by_contra hnone
  have hrunning : ∀ w ∈ s.pool.workers, ∃ i, w = .running i := by
    intro w hw
    rcases h.worker_cases hrest hw with rfl | hi
    · exact absurd hw hnone
    · exact hi
  have hall : (ThreadPool.inProgress s.pool).length = n := by
    rw [← h.pool.size, ThreadPool.inProgress, List.filterMap_length_eq_length]
    intro w hw
    obtain ⟨i, rfl⟩ := hrunning w hw
    rfl
  refine absurd (length_le_countP h.nodup_inProgress ?_) (by rw [hall]; exact Nat.not_le.mpr hfew)
  intro i hi
  obtain ⟨w, hw, htask⟩ := List.mem_filterMap.mp hi
  obtain ⟨j, rfl⟩ := hrunning w hw
  obtain rfl := Option.some.inj htask
  obtain ⟨k, hk⟩ := List.getElem?_of_mem hw
  have hstarted := h.pool.once.subset (List.mem_append_right _ hi)
  obtain ⟨calls, hcalls⟩ := h.exists_calls (h.pool.queue ▸ List.mem_append_left _ hstarted)
  obtain ⟨c, hc, hrun⟩ := h.exists_conn hcalls
  obtain ⟨hstuck, hopen⟩ := hrest.stuck_of_running hk hc
  refine ⟨calls, hcalls, ?_⟩
  by_contra hheld
  exact hopen (hfree calls (List.mem_of_getElem? hcalls) (Bool.eq_false_iff.mpr hheld) _ c hrun
    hstuck)

/-- With a worker to spare every connection has come to rest. -/
theorem stuck {held : List Loopback.Call → Bool} (hfew : clients.countP held < n)
    (hfree : ∀ calls ∈ clients, held calls = false → Releases net handler calls) {i : Nat}
    {calls : List Loopback.Call} (hi : clients[i]? = some calls) :
    ∃ c, s.conns[i]? = some c ∧ (conversation net handler).Stuck c ∧
      (conversation net handler).Run Lib.Machine.anyStep (Loopback.start () calls)
        (shownBy i os) c := by
  have hid : i ∈ ThreadPool.submitted po := by
    have hrange := List.mem_range.mpr (List.getElem?_eq_some_iff.mp hi).1
    have hids := h.ids.symm.subset hrange
    rwa [hrest.backlog_eq_nil, List.nil_append] at hids
  obtain ⟨c, hc, hrun⟩ := h.exists_conn hi
  refine ⟨c, hc, ?_, hrun⟩
  rw [← h.pool.queue, h.tasks_eq_nil hrest (h.exists_waiting hrest hfew hfree),
    List.append_nil] at hid
  rcases List.mem_append.mp (h.pool.once.symm.subset hid) with hfin | hrunning
  · have hclosed := h.finished i hfin
    simp only [State.closed, hc, Option.any_some, decide_eq_true_eq] at hclosed
    exact stuck_of_closed hclosed (hrest.left_eq_none hc)
  · obtain ⟨w, hw, htask⟩ := List.mem_filterMap.mp hrunning
    obtain ⟨k, hk⟩ := List.getElem?_of_mem hw
    rcases h.worker_cases hrest hw with rfl | ⟨j, rfl⟩
    · cases htask
    · obtain rfl := Option.some.inj htask
      exact (hrest.stuck_of_running hk hc).1

end Attends

/-- What the server does for its clients: a run has boundedly many steps, spurious wake-ups
apart, and at its end each client that would have completed alone has done so. -/
structure Serves (net : Loopback.Network) (handler : Request → Response) (numWorkers : Nat)
    (clients : List (List Loopback.Call)) : Prop where
  bounded : ∃ b, ∀ ls t os, (machine net handler).exec (init numWorkers clients) ls = some (t, os) →
    ls.countP (fun l => !l.isWakeUp) ≤ b + ls.countP Label.isWakeUp
  done : ∀ os t, (machine net handler).Run Lib.Machine.anyStep (init numWorkers clients) os t →
    Rested net handler t → ∀ i calls, clients[i]? = some calls →
      Loopback.Completes net (answer handler) () calls →
        ∃ c, t.conns[i]? = some c ∧
          Loopback.Done (answer handler) () calls (shownBy i os) c

/-- There is a worker more than there are clients that may keep one. -/
theorem serves_of_few {held : List Loopback.Call → Bool} (hfew : clients.countP held < n)
    (hfree : ∀ calls ∈ clients, held calls = false → Releases net handler calls) :
    Serves net handler n clients := by
  refine ⟨⟨rank (init n clients), fun ls t os hexec => steps_le hexec⟩, ?_⟩
  intro os t hrun hrest i calls hi hcompletes
  obtain ⟨po, ht⟩ := Attends.run hrun
  obtain ⟨c, hc, hstuck, hconv⟩ := ht.stuck hrest hfew hfree hi
  exact ⟨c, hc, hcompletes.done _ c hconv hstuck⟩

/-! ### Where they are not served -/

theorem run_conn {k j : Nat} (hk : s.pool.workers[k]? = some (.running j))
    {c d : Loopback.Conn Unit} {o : List Loopback.Event} (hc : s.conns[j]? = some c)
    (hrun : (conversation net handler).Run Lib.Machine.anyStep c o d) :
    (machine net handler).Run Lib.Machine.anyStep s (o.map fun e => (j, e))
      { s with conns := s.conns.set j d } := by
  obtain ⟨hlt, hget⟩ := List.getElem?_eq_some_iff.mp hc
  induction hrun with
  | refl =>
    have hsame : s.conns.set j c = s.conns := by rw [← hget, List.set_getElem_self]
    rw [hsame]
    exact .refl s
  | @step d u os o l prior hok hs ih =>
    rw [List.map_append]
    have hstep : onConn net handler { s with conns := s.conns.set j d } j l =
        some ({ s with conns := s.conns.set j u }, o.map fun e => (j, e)) := by
      simp [onConn, List.getElem?_set_self hlt, hs, List.set_set]
    cases l with
    | left reply => exact ih.step (l := Label.client j reply) trivial hstep
    | right reply =>
      refine ih.step (l := Label.serve k reply) trivial ?_
      simpa [machine, Service.step, hk] using hstep

theorem exists_rested (net : Loopback.Network) (handler : Request → Response) (s : State) :
    ∃ os t, (machine net handler).Run Lib.Machine.anyStep s os t ∧ Rested net handler t := by
  induction hn : rank s using Nat.strongRecOn generalizing s with
  | ind r ih =>
    by_cases hrest : Rested net handler s
    · exact ⟨[], s, .refl s, hrest⟩
    · simp only [Rested, not_forall] at hrest
      obtain ⟨l, hl, hsome⟩ := hrest
      obtain ⟨⟨u, o⟩, hu⟩ := Option.ne_none_iff_exists'.mp hsome
      have hpays := (step_moves hu).pays
      rw [hl] at hpays
      simp only [Bool.not_false, Bool.toNat_true, Bool.toNat_false] at hpays
      obtain ⟨os, t, hrun, ht⟩ := ih (rank u) (by omega) u rfl
      exact ⟨o ++ os, t, (Lib.Machine.Run.single trivial hu).trans hrun, ht⟩

/-- A connection that has come to rest while its worker is in it. -/
def Kept (net : Loopback.Network) (handler : Request → Response) (s : State) (j : Nat) : Prop :=
  ∃ c, s.conns[j]? = some c ∧ (conversation net handler).Stuck c ∧ c.right ≠ .closed

/-- All workers are kept, and the client `i` has none. -/
structure Starves (net : Loopback.Network) (handler : Request → Response) (i : Nat) (s : State) :
    Prop where
  kept : ∀ w ∈ s.pool.workers, ∃ j, w = .running j ∧ j ≠ i ∧ Kept net handler s j
  unserved : ∃ c, s.conns[i]? = some c ∧ c.right = .reading () []

theorem Kept.set {i j : Nat} {k : Lib.Duplex.Label} {c d : Loopback.Conn Unit}
    {o : List Loopback.Event} (h : Kept net handler s j) (hc : s.conns[i]? = some c)
    (hs : (conversation net handler).step c k = some (d, o)) :
    Kept net handler { s with conns := s.conns.set i d } j := by
  obtain ⟨c', hc', hstuck, hopen⟩ := h
  refine ⟨c', ?_, hstuck, hopen⟩
  by_cases hij : i = j
  · subst hij
    obtain rfl := Option.some.inj (hc.symm.trans hc')
    rw [hstuck k] at hs
    cases hs
  · exact (List.getElem?_set_ne hij).trans hc'

theorem Starves.step {i : Nat} (h : Starves net handler i s) (hm : Moves net handler s l u o) :
    Starves net handler i u := by
  obtain ⟨hkept, c', hc', hread⟩ := h
  have hrun : ∀ w ∈ s.pool.workers, ∃ j, w = .running j := by
    intro w hw
    obtain ⟨j, rfl, -⟩ := hkept w hw
    exact ⟨j, rfl⟩
  cases hm with
  | @client j reply c d o hc hs =>
    refine ⟨fun w hw => ?_, ?_⟩
    · obtain ⟨k, rfl, hne, hk⟩ := hkept w hw
      exact ⟨k, rfl, hne, hk.set hc hs⟩
    · by_cases hij : j = i
      · subst hij
        obtain rfl := Option.some.inj (hc.symm.trans hc')
        refine ⟨d, List.getElem?_set_self (List.getElem?_eq_some_iff.mp hc).1, ?_⟩
        obtain ⟨m, -, heq⟩ := Option.map_eq_some_iff.mp hs
        cases heq
        exact hread
      · exact ⟨c', (List.getElem?_set_ne hij).trans hc', hread⟩
  | serve hk hc hs =>
    obtain ⟨j, heq, -, c'', hc'', hstuck, -⟩ := hkept _ (List.mem_of_getElem? hk)
    cases heq
    obtain rfl := Option.some.inj (hc.symm.trans hc'')
    rw [hstuck] at hs
    cases hs
  | accept hi hsub => exact ⟨hkept, c', hc', hread⟩
  | notify hsub hws =>
    rcases ThreadPool.notifyOne_cases hws with ⟨-, rfl⟩ | ⟨k, hk, -⟩
    · exact ⟨hkept, c', hc', hread⟩
    · obtain ⟨j, ⟨⟩⟩ := hrun _ (List.mem_of_getElem? hk)
  | enter hk => obtain ⟨j, ⟨⟩⟩ := hrun _ (List.mem_of_getElem? hk)
  | finish hk hclosed =>
    obtain ⟨j, heq, -, c'', hc'', -, hopen⟩ := hkept _ (List.mem_of_getElem? hk)
    cases heq
    simp only [State.closed, hc'', Option.any_some, decide_eq_true_eq] at hclosed
    exact absurd hclosed hopen
  | wakeUp hk => obtain ⟨j, ⟨⟩⟩ := hrun _ (List.mem_of_getElem? hk)

/-- The first workers are in the tasks `js`, and the other `r` have not looked at the
queue. -/
def taken (js : List Nat) (r : Nat) : List (Worker Nat) :=
  js.map .running ++ List.replicate r .lock

theorem taken_lock (js : List Nat) (r : Nat) :
    (taken js (r + 1))[js.length]? = some .lock := by
  rw [taken, List.getElem?_append_right (by simp)]
  simp

theorem taken_set (js : List Nat) (r j : Nat) :
    (taken js (r + 1)).set js.length (.running j) = taken (js ++ [j]) r := by
  rw [taken, List.set_append_right _ _ (by simp)]
  simp [taken, List.replicate_succ]

theorem taken_running (js : List Nat) (r j : Nat) :
    (taken (js ++ [j]) r)[js.length]? = some (.running j) := by
  rw [taken, List.getElem?_append_left (by simp)]
  simp

theorem notifyOne_taken (js : List Nat) (r : Nat) :
    ThreadPool.notifyOne (taken js r) none = some (taken js r) := by
  simp [ThreadPool.notifyOne, taken, Worker.isWaiting, Function.comp_def]

/-- They are kept, and no other client has done anything. -/
structure Taken (net : Loopback.Network) (handler : Request → Response)
    (clients : List (List Loopback.Call)) (js : List Nat) (r : Nat) (s : State) : Prop where
  tasks : s.pool.tasks = []
  submitting : s.pool.submitting = 0
  workers : s.pool.workers = taken js r
  kept : ∀ j ∈ js, Kept net handler s j
  others : ∀ i calls, i ∉ js → clients[i]? = some calls →
    i ∈ s.backlog ∧ s.conns[i]? = some (Loopback.start () calls)

theorem Taken.init (net : Loopback.Network) (handler : Request → Response) (n : Nat)
    (clients : List (List Loopback.Call)) :
    Taken net handler clients [] n (init n clients) where
  tasks := rfl
  submitting := rfl
  workers := rfl
  kept := by rintro _ ⟨⟩
  others i calls _ hi := by
    refine ⟨List.mem_range.mpr (List.getElem?_eq_some_iff.mp hi).1, ?_⟩
    rw [Service.init, List.getElem?_map, hi]
    rfl

theorem Taken.start {js : List Nat} {r j : Nat} {calls : List Loopback.Call}
    (h : Taken net handler clients js (r + 1) s) (hj : j ∉ js) (hcalls : clients[j]? = some calls) :
    (machine net handler).Run Lib.Machine.anyStep s []
      { s with
        pool := { s.pool with workers := taken (js ++ [j]) r }
        backlog := s.backlog.erase j } := by
  obtain ⟨htasks, hsub, hworkers, -, hothers⟩ := h
  obtain ⟨⟨tasks, stop, workers, submitting, shutdown⟩, backlog, conns⟩ := s
  dsimp only at htasks hsub hworkers hothers ⊢
  subst htasks hsub hworkers
  have hin := (hothers j calls hj hcalls).1
  have haccept : (machine net handler).step
      ⟨⟨[], stop, taken js (r + 1), 0, shutdown⟩, backlog, conns⟩ (.accept j) =
      some (⟨⟨[j], stop, taken js (r + 1), 1, shutdown⟩, backlog.erase j, conns⟩, []) := by
    simp [machine, Service.step, Service.accept, onPool, ThreadPool.step, hin]
  have hnotify : (machine net handler).step
      ⟨⟨[j], stop, taken js (r + 1), 1, shutdown⟩, backlog.erase j, conns⟩ (.notify none) =
      some (⟨⟨[j], stop, taken js (r + 1), 0, shutdown⟩, backlog.erase j, conns⟩, []) := by
    simp [machine, Service.step, onPool, ThreadPool.step, notifyOne_taken]
  have hwork : (machine net handler).step
      ⟨⟨[j], stop, taken js (r + 1), 0, shutdown⟩, backlog.erase j, conns⟩ (.worker js.length) =
      some (⟨⟨[], stop, taken (js ++ [j]) r, 0, shutdown⟩, backlog.erase j, conns⟩, []) := by
    simp [machine, Service.step, taken_lock, onPool, ThreadPool.step, ThreadPool.work,
      ThreadPool.enter, taken_set]
  exact ((Lib.Machine.Run.single trivial haccept).step trivial hnotify).step trivial hwork

/-- A client that would keep a worker may do so. -/
theorem Taken.next {js : List Nat} {r j : Nat} {calls : List Loopback.Call}
    (h : Taken net handler clients js (r + 1) s) (hj : j ∉ js) (hcalls : clients[j]? = some calls)
    (hheld : ¬Releases net handler calls) :
    ∃ os t, (machine net handler).Run Lib.Machine.anyStep s os t ∧
      Taken net handler clients (js ++ [j]) r t := by
  have hrun := h.start hj hcalls
  have hconn := (h.others j calls hj hcalls).2
  have hlt := (List.getElem?_eq_some_iff.mp hconn).1
  simp only [Releases, not_forall] at hheld
  obtain ⟨os, c, hconv, hstuck, hopen⟩ := hheld
  refine ⟨_, _, hrun.trans (run_conn (taken_running js r j) hconn hconv), ?_⟩
  refine ⟨h.tasks, h.submitting, rfl, ?_, ?_⟩
  · intro i hi
    by_cases hij : j = i
    · subst hij
      exact ⟨c, List.getElem?_set_self hlt, hstuck, hopen⟩
    · have hjs : i ∈ js := by
        rcases List.mem_append.mp hi with hi | hi
        · exact hi
        · exact absurd (List.mem_singleton.mp hi).symm hij
      obtain ⟨c', hc', hrest⟩ := h.kept i hjs
      exact ⟨c', (List.getElem?_set_ne hij).trans hc', hrest⟩
  · intro i calls' hi hcalls'
    rw [List.mem_append, List.mem_singleton, not_or] at hi
    obtain ⟨hin, hc'⟩ := h.others i calls' hi.1 hcalls'
    exact ⟨(List.mem_erase_of_ne hi.2).mpr hin,
      (List.getElem?_set_ne (Ne.symm hi.2)).trans hc'⟩

/-- As many clients as there are workers left. -/
theorem Taken.all {is js : List Nat} (h : Taken net handler clients js is.length s)
    (hnodup : (js ++ is).Nodup)
    (hheld : ∀ j ∈ is, ∃ calls, clients[j]? = some calls ∧ ¬Releases net handler calls) :
    ∃ os t, (machine net handler).Run Lib.Machine.anyStep s os t ∧
      Taken net handler clients (js ++ is) 0 t := by
  induction is generalizing js s with
  | nil =>
    rw [List.append_nil]
    exact ⟨[], s, .refl s, h⟩
  | cons j is ih =>
    obtain ⟨calls, hcalls, hj⟩ := hheld j List.mem_cons_self
    have hnot : j ∉ js := by
      intro hmem
      exact (List.nodup_append.mp hnodup).2.2 j hmem j List.mem_cons_self rfl
    obtain ⟨os, t, hrun, ht⟩ := h.next hnot hcalls hj
    rw [List.append_cons] at hnodup ⊢
    obtain ⟨os', u, hrun', hu⟩ := ih ht hnodup fun i hi => hheld i (List.mem_cons_of_mem _ hi)
    exact ⟨os ++ os', u, hrun.trans hrun', hu⟩

/-- Positions at which `p` holds, as many as there are. -/
theorem exists_positions {α : Type*} {p : α → Bool} {l : List α} {n : Nat} (h : n ≤ l.countP p) :
    ∃ is : List Nat, is.Nodup ∧ is.length = n ∧ ∀ i ∈ is, ∃ a, l[i]? = some a ∧ p a = true := by
  have hfst : (l.zipIdx.map Prod.fst).countP p = l.zipIdx.countP fun x => p x.1 := List.countP_map
  rw [List.zipIdx_map_fst, List.countP_eq_length_filter] at hfst
  have hnodup : (l.zipIdx.map Prod.snd).Nodup := by
    rw [List.zipIdx_map_snd]
    exact List.nodup_range'
  have hsub := (List.take_sublist n ((l.zipIdx.filter fun x => p x.1).map Prod.snd))
  refine ⟨_, hnodup.sublist (hsub.trans (List.filter_sublist.map _)), ?_, ?_⟩
  · rw [List.length_take, List.length_map, ← List.countP_eq_length_filter, ← hfst,
      ← List.countP_eq_length_filter]
    exact Nat.min_eq_left h
  · intro i hi
    obtain ⟨⟨a, j⟩, ha, rfl⟩ := List.mem_map.mp (List.mem_of_mem_take hi)
    obtain ⟨hmem, hp⟩ := List.mem_filter.mp ha
    exact ⟨a, List.mk_mem_zipIdx_iff_getElem?.mp hmem, hp⟩

/-- All workers may be kept at once. -/
theorem exists_starves {held : List Loopback.Call → Bool}
    (hheld : ∀ calls ∈ clients, held calls = true → ¬Releases net handler calls)
    (hmany : n ≤ clients.countP held) {i : Nat} {calls : List Loopback.Call}
    (hi : clients[i]? = some calls) (hfree : Releases net handler calls) :
    ∃ os t, (machine net handler).Run Lib.Machine.anyStep (init n clients) os t ∧
      Starves net handler i t := by
  obtain ⟨js, hnodup, rfl, hjs⟩ := exists_positions hmany
  have hkeep : ∀ j ∈ js, ∃ calls, clients[j]? = some calls ∧ ¬Releases net handler calls := by
    intro j hj
    obtain ⟨calls, hcalls, hheld'⟩ := hjs j hj
    exact ⟨calls, hcalls, hheld calls (List.mem_of_getElem? hcalls) hheld'⟩
  have hnot : i ∉ js := by
    intro hmem
    obtain ⟨calls', hcalls, hhold⟩ := hkeep i hmem
    obtain rfl := Option.some.inj (hi.symm.trans hcalls)
    exact hhold hfree
  obtain ⟨os, t, hrun, ht⟩ := (Taken.init net handler js.length clients).all
    (by rwa [List.nil_append]) hkeep
  rw [List.nil_append] at ht
  refine ⟨os, t, hrun, ?_, _, (ht.others i calls hnot hi).2, rfl⟩
  intro w hw
  rw [ht.workers, taken, List.replicate_zero, List.append_nil] at hw
  obtain ⟨j, hj, rfl⟩ := List.mem_map.mp hw
  exact ⟨j, rfl, fun hji => hnot (hji ▸ hj), ht.kept j hj⟩

/-- **The server serves its clients as if each were alone**, those that would complete, if
and only if fewer clients may keep their worker than there are workers. -/
theorem served_iff {held : List Loopback.Call → Bool}
    (hheld : ∀ calls ∈ clients, held calls = true ↔ ¬Releases net handler calls)
    (hgood : ∃ calls ∈ clients, Loopback.Completes net (answer handler) () calls) :
    Serves net handler n clients ↔ clients.countP held < n := by
  constructor
  · intro hserves
    by_contra hmany
    obtain ⟨calls, hmem, hcompletes⟩ := hgood
    obtain ⟨i, hi⟩ := List.getElem?_of_mem hmem
    obtain ⟨os, s, hrun, hs⟩ := exists_starves (fun calls hcalls => (hheld calls hcalls).mp)
      (Nat.not_lt.mp hmany) hi fun os c hc hstuck => (hcompletes.done os c hc hstuck).right
    obtain ⟨os', t, hrun', hrest⟩ := exists_rested net handler s
    have ht : Starves net handler i t :=
      hrun'.keeps hs fun _ _ _ _ ht _ hstep => ht.step (step_moves hstep)
    obtain ⟨c, hc, hdone⟩ := hserves.done _ t (hrun.trans hrun') hrest i calls hi hcompletes
    obtain ⟨c', hc', hread⟩ := ht.unserved
    obtain rfl := Option.some.inj (hc.symm.trans hc')
    rw [hdone.right] at hread
    cases hread
  · intro hfew
    refine serves_of_few hfew fun calls hcalls hfree => ?_
    by_contra hhold
    rw [(hheld calls hcalls).mpr hhold] at hfree
    cases hfree

/-- A client that waits for a response to nothing. -/
theorem not_releases_recv : ¬Releases ⟨4, 4, false⟩ echo [.recv] := by
  intro h
  have hrun : (conversation ⟨4, 4, false⟩ echo).Run Lib.Machine.anyStep
      (Loopback.start () [.recv]) [] ⟨⟨[], .receiving []⟩, .reading () [], [], []⟩ :=
    Lib.Machine.Run.single (l := Lib.Duplex.Label.left .error) trivial rfl
  have hclosed := h _ _ hrun (by rintro (_ | _) <;> rename_i reply <;> cases reply <;> rfl)
  cases hclosed

theorem completes_echo :
    Loopback.Completes ⟨4, 4, false⟩ (answer echo) () [.send ⟨7, 0, [1]⟩, .recv] := by
  refine Loopback.completes_of_one_outstanding (by decide) (by decide) rfl (by decide) ?_
  have hall : ∀ k < 3, let pre := List.take k [.send ⟨7, 0, [1]⟩, .recv]
      Loopback.receives pre ≤ (Loopback.accepted pre).length ∧
        (Loopback.accepted pre).length ≤ Loopback.receives pre + 1 := by
    decide
  intro pre hpre
  rw [List.prefix_iff_eq_take.mp hpre]
  exact hall _ (Nat.lt_succ_of_le hpre.length_le)

/-- It takes two workers to serve another client beside it. -/
theorem served_iff_beside :
    Serves ⟨4, 4, false⟩ echo 2 [[.recv], [.send ⟨7, 0, [1]⟩, .recv]] ∧
      ¬Serves ⟨4, 4, false⟩ echo 1 [[.recv], [.send ⟨7, 0, [1]⟩, .recv]] := by
  have hheld : ∀ calls ∈ [[Loopback.Call.recv], [.send ⟨7, 0, [1]⟩, .recv]],
      decide (calls = [.recv]) = true ↔ ¬Releases ⟨4, 4, false⟩ echo calls := by
    intro calls hmem
    rcases List.mem_pair.mp hmem with rfl | rfl
    · exact iff_of_true (by decide) not_releases_recv
    · refine iff_of_false (by decide) (not_not.mpr ?_)
      exact fun os c hrun hstuck => (completes_echo.done os c hrun hstuck).right
  have hgood : ∃ calls ∈ [[Loopback.Call.recv], [.send ⟨7, 0, [1]⟩, .recv]],
      Loopback.Completes ⟨4, 4, false⟩ (answer echo) () calls :=
    ⟨_, List.mem_pair.mpr (Or.inr rfl), completes_echo⟩
  exact ⟨(served_iff hheld hgood).mpr (by decide), fun h =>
    absurd ((served_iff hheld hgood).mp h) (by decide)⟩

end Service

end HftComponents.Tcp
