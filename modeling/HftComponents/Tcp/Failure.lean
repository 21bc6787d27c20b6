import HftComponents.Tcp.Shutdown

/-!
# A handler that throws

An exception of the handler leaves `handle_connection`, the task and
`worker_loop`: no one catches it, and the process is terminated.  The connection
is not closed, and no other one is served any more (`terminated_by_throw`).

`survives_iff` says that nothing else stands in the way.  As long as no call of
the handler throws, the pool of the server is a pool of ids, to which the results
on `ThreadPool` apply (`Tracks`): every connection accepted is one task, the tasks
are run once and in order, and none of them is left to a pool that sleeps.
-/

namespace HftComponents.Tcp

/-! ### The pool by the ids of its tasks -/

namespace ThreadPool

variable {τ σ : Type*} (f : τ → σ)

def Worker.map : Worker τ → Worker σ
  | .lock => .lock
  | .waiting => .waiting
  | .running t => .running (f t)
  | .notifying t => .notifying (f t)
  | .returned => .returned

def State.map (s : State τ) : State σ where
  tasks := s.tasks.map f
  stop := s.stop
  workers := s.workers.map (Worker.map f)
  submitting := s.submitting
  shutdown := s.shutdown

def Event.map : Event τ → Event σ
  | .submitted t => .submitted (f t)
  | .started t => .started (f t)
  | .finished t => .finished (f t)
  | .stopped => .stopped
  | .returned => .returned

variable {s u : State τ} {o : List (Event τ)} {i : Nat}

theorem map_set_worker (workers : List (Worker τ)) (w : Worker τ) :
    (workers.set i w).map (Worker.map f) = (workers.map (Worker.map f)).set i (w.map f) :=
  List.map_set

theorem getElem?_map_worker {workers : List (Worker τ)} {w : Worker τ} (h : workers[i]? = some w) :
    (workers.map (Worker.map f))[i]? = some (w.map f) := by
  rw [List.getElem?_map, h]
  rfl

theorem notifyOne_map {ws vs : List (Worker τ)} {w : Option Nat} (h : notifyOne ws w = some vs) :
    notifyOne (ws.map (Worker.map f)) w = some (vs.map (Worker.map f)) := by
  have hany : (ws.map (Worker.map f)).any Worker.isWaiting = ws.any Worker.isWaiting := by
    rw [List.any_map]
    congr 1
    funext w
    cases w <;> rfl
  cases w with
  | none =>
    simp only [notifyOne] at h ⊢
    rw [hany]
    split at h
    · cases h
    · obtain rfl := Option.some.inj h
      rw [if_neg ‹_›]
  | some i =>
    simp only [notifyOne] at h ⊢
    split at h
    · obtain rfl := Option.some.inj h
      rw [getElem?_map_worker f ‹_›, map_set_worker]
      rfl
    · cases h

/-- **The pool does not look at its tasks.** -/
theorem Moves.map (h : Moves s u o) : Moves (s.map f) (u.map f) (o.map (Event.map f)) := by
  cases h with
  | submit => simpa [State.map, Event.map] using Moves.submit (s := s.map f)
  | notify hsub hws => exact Moves.notify (s := s.map f) hsub (notifyOne_map f hws)
  | wait hi hstop htasks =>
    have hm := Moves.wait (s := s.map f) (getElem?_map_worker f hi) hstop
      (by rw [State.map, htasks]; rfl)
    simpa [State.map, map_set_worker, Worker.map] using hm
  | leave hi hstop htasks =>
    have hm := Moves.leave (s := s.map f) (getElem?_map_worker f hi) hstop
      (by rw [State.map, htasks]; rfl)
    simpa [State.map, map_set_worker, Worker.map] using hm
  | @start i t ts hi htasks =>
    have hm := Moves.start (s := s.map f) (t := f t) (getElem?_map_worker f hi)
      (by rw [State.map, htasks]; rfl)
    simpa [State.map, map_set_worker, Worker.map, Event.map] using hm
  | finish hi =>
    have hm := Moves.finish (s := s.map f) (getElem?_map_worker f hi)
    simpa [State.map, map_set_worker, Worker.map, Event.map] using hm
  | wakeUp hi =>
    have hm := Moves.wakeUp (s := s.map f) (getElem?_map_worker f hi)
    simpa [State.map, map_set_worker, Worker.map] using hm
  | @taskSubmit i t t' hi =>
    have hm := @Moves.taskSubmit _ (s.map f) i (f t) (f t') (getElem?_map_worker f hi)
    simpa [State.map, map_set_worker, Worker.map, Event.map] using hm
  | taskNotify hi hws =>
    have hws' := notifyOne_map f hws
    rw [map_set_worker] at hws'
    exact Moves.taskNotify (s := s.map f) (getElem?_map_worker f hi) hws'
  | stop hs => exact Moves.stop (s := s.map f) hs
  | notifyAll hs =>
    have hm := Moves.notifyAll (s := s.map f) hs
    have hnotified : Worker.notified ∘ Worker.map f = Worker.map f ∘ Worker.notified := by
      funext w
      cases w <;> rfl
    simpa [State.map, hnotified] using hm
  | join hs hk => exact Moves.join (s := s.map f) hs (getElem?_map_worker f hk)
  | joined hs hk =>
    refine Moves.joined (s := s.map f) hs ?_
    rw [State.map, List.getElem?_map, hk]
    rfl

/-- The tasks of a pool, queued or in progress. -/
def State.Has (s : State τ) (t : τ) : Prop := t ∈ s.tasks ∨ t ∈ inProgress s

theorem mem_inProgress_set {workers : List (Worker τ)} {y : Worker τ} {t : τ}
    (h : t ∈ (workers.set i y).filterMap Worker.task) :
    t ∈ workers.filterMap Worker.task ∨ y.task = some t := by
  obtain ⟨w, hw, ht⟩ := List.mem_filterMap.mp h
  rcases List.mem_or_eq_of_mem_set hw with hw | rfl
  · exact .inl (List.mem_filterMap.mpr ⟨w, hw, ht⟩)
  · exact .inr ht

theorem mem_inProgress_of_getElem? {w : Worker τ} {t : τ} (hi : s.workers[i]? = some w)
    (ht : w.task = some t) : t ∈ inProgress s :=
  List.mem_filterMap.mpr ⟨w, List.mem_of_getElem? hi, ht⟩

theorem Moves.has (h : Moves s u o) {t : τ} (ht : u.Has t) : s.Has t ∨ t ∈ submitted o := by
  rcases ht with ht | ht
  · -- in the queue
    cases h with
    | submit =>
      rcases List.mem_append.mp ht with ht | ht
      · exact .inl (.inl ht)
      · rw [List.mem_singleton.mp ht]
        exact .inr List.mem_cons_self
    | @taskSubmit i t' t'' hi =>
      rcases List.mem_append.mp ht with ht | ht
      · exact .inl (.inl ht)
      · rw [List.mem_singleton.mp ht]
        exact .inr List.mem_cons_self
    | @start i t' ts hi htasks => exact .inl (.inl (htasks ▸ List.mem_cons_of_mem t' ht))
    | _ => exact .inl (.inl ht)
  · left
    cases h with
    | notify hsub hws =>
      rcases notifyOne_cases hws with ⟨-, rfl⟩ | ⟨j, -, rfl⟩
      · exact .inr ht
      · exact .inr ((mem_inProgress_set ht).resolve_right nofun)
    | @start i t' ts hi htasks =>
      rcases mem_inProgress_set ht with ht | ht
      · exact .inr ht
      · obtain rfl := Option.some.inj ht
        exact .inl (htasks ▸ List.mem_cons_self)
    | @taskSubmit i t' t'' hi =>
      rcases mem_inProgress_set ht with ht | ht
      · exact .inr ht
      · obtain rfl := Option.some.inj ht
        exact .inr (mem_inProgress_of_getElem? hi rfl)
    | @taskNotify i t' w ws hi hws =>
      have hset : t ∈ (s.workers.set i (.running t')).filterMap Worker.task := by
        rcases notifyOne_cases hws with ⟨-, rfl⟩ | ⟨j, -, rfl⟩
        · exact ht
        · exact (mem_inProgress_set ht).resolve_right nofun
      rcases mem_inProgress_set hset with ht | ht
      · exact .inr ht
      · obtain rfl := Option.some.inj ht
        exact .inr (mem_inProgress_of_getElem? hi rfl)
    | notifyAll hs =>
      obtain ⟨w, hw, htask⟩ := List.mem_filterMap.mp ht
      obtain ⟨v, hv, rfl⟩ := List.mem_map.mp hw
      refine .inr (List.mem_filterMap.mpr ⟨v, hv, ?_⟩)
      cases v with
      | waiting => cases htask
      | _ => exact htask
    | wait | leave | finish | wakeUp => exact .inr ((mem_inProgress_set ht).resolve_right nofun)
    | _ => exact .inr ht

theorem submitted_map (o : List (Event τ)) :
    submitted (o.map (Event.map f)) = (submitted o).map f := by
  rw [submitted, submitted, List.filterMap_map, List.map_filterMap]
  refine List.filterMap_congr fun e _ => ?_
  cases e <;> rfl

theorem finished_map (o : List (Event τ)) :
    finished (o.map (Event.map f)) = (finished o).map f := by
  rw [finished, finished, List.filterMap_map, List.map_filterMap]
  refine List.filterMap_congr fun e _ => ?_
  cases e <;> rfl

/-- What a step shows of tasks, unless it submits one. -/
theorem shows_of_step {l : Label τ} (h : step s l = some (u, o)) (hl : ∀ t, l ≠ .submit t)
    (hl' : ∀ i t, l ≠ .taskSubmit i t) :
    submitted o = [] ∧ ∀ t ∈ finished o, ∃ i, l = .work i ∧ s.workers[i]? = some (.running t) := by
  cases l with
  | submit t => exact absurd rfl (hl t)
  | taskSubmit i t => exact absurd rfl (hl' i t)
  | work i =>
    dsimp only [step, work] at h
    split at h
    · unfold enter at h
      split at h
      · cases h
        exact ⟨rfl, nofun⟩
      · split at h <;> cases h <;> exact ⟨rfl, nofun⟩
    · cases h
      refine ⟨rfl, fun t ht => ⟨i, rfl, ?_⟩⟩
      rw [List.mem_singleton.mp ht]
      assumption
    · cases h
  | notify w =>
    dsimp only [step] at h
    split at h
    · cases h
    · obtain ⟨ws, -, heq⟩ := Option.map_eq_some_iff.mp h
      cases heq
      exact ⟨rfl, nofun⟩
  | taskNotify i w =>
    dsimp only [step] at h
    split at h
    · obtain ⟨ws, -, heq⟩ := Option.map_eq_some_iff.mp h
      cases heq
      exact ⟨rfl, nofun⟩
    · cases h
  | wakeUp i | stop | notifyAll =>
    dsimp only [step] at h
    split at h
    · cases h
      exact ⟨rfl, nofun⟩
    · cases h
  | join =>
    dsimp only [step, join] at h
    split at h
    · split at h
      · cases h
        exact ⟨rfl, nofun⟩
      · cases h
      · cases h
        exact ⟨rfl, nofun⟩
    · cases h

end ThreadPool

/-! ### What a step of the server does to its connections -/

namespace TcpServer

open Lib.Transfer
open ThreadPool (Worker Sound)

inductive Acts (s : State) : State → List Event → Prop
  | other {u : State} {o : List Event} (hpool : u.pool = s.pool)
      (haccepted : u.accepted = s.accepted) : Acts s u o
  | pool {u : State} {po : List (ThreadPool.Event Conn)} {o : List Event}
      (hm : ThreadPool.Moves s.pool u.pool po) (hnone : ThreadPool.submitted po = [])
      (hclosed : ∀ c ∈ ThreadPool.finished po, s.pool.Has c ∧ c.handle = .closed)
      (haccepted : u.accepted = s.accepted) : Acts s u o
  | accept {u : State} {c : Conn} {o : List Event}
      (hm : ThreadPool.Moves s.pool u.pool [.submitted c]) (hid : c.id = s.accepted)
      (hreading : c.handle = .reading) (haccepted : u.accepted = s.accepted + 1) : Acts s u o
  | serve {i : Nat} {c d : Conn} {o : List Event}
      (hi : s.pool.workers[i]? = some (.running c)) (hid : d.id = c.id)
      (hclosed : d.handle = .closed → .closed c.id ∈ o) :
      Acts s { s with pool := { s.pool with workers := s.pool.workers.set i (.running d) } } o

variable {s u : State} {os o : List Event} {l : Label} {i : Nat}

theorem closed_recv {c d : Conn} {answers : List Reply} (h : c.recv answers = some (d, o)) :
    d.id = c.id ∧ (d.handle = .closed → .closed c.id ∈ o) := by
  unfold Conn.recv at h
  split at h
  · split at h
    · cases h
      exact ⟨rfl, nofun⟩
    · cases h
      exact ⟨rfl, fun _ => List.mem_singleton_self _⟩
  · cases h

theorem closed_respond {c d : Conn} {resp : Response} (h : c.respond resp = some (d, o)) :
    d.id = c.id ∧ (d.handle = .closed → .closed c.id ∈ o) := by
  unfold Conn.respond at h
  split at h
  · cases h
    exact ⟨rfl, nofun⟩
  · cases h

theorem closed_send {c d : Conn} {answers : List Reply} (h : c.send answers = some (d, o)) :
    d.id = c.id ∧ (d.handle = .closed → .closed c.id ∈ o) := by
  unfold Conn.send at h
  split at h
  · split at h
    · cases h
      exact ⟨rfl, nofun⟩
    · cases h
      exact ⟨rfl, fun _ => List.mem_singleton_self _⟩
  · cases h

theorem acts_serve {f : Conn → Option (Conn × List Event)}
    (hf : ∀ c d o, f c = some (d, o) → d.id = c.id ∧ (d.handle = .closed → .closed c.id ∈ o))
    (h : serve s i f = some (u, o)) : Acts s u o := by
  unfold serve at h
  split at h
  · rename_i c hi
    obtain ⟨⟨d, o'⟩, hd, heq⟩ := Option.map_eq_some_iff.mp h
    cases heq
    obtain ⟨hid, hclosed⟩ := hf c d o' hd
    exact .serve hi hid fun hc => List.mem_cons_of_mem _ (hclosed hc)
  · cases h

theorem acts_onPool {k : ThreadPool.Label Conn} (h : onPool s k os = some (u, o))
    (hk : ∀ t, k ≠ .submit t) (hk' : ∀ i t, k ≠ .taskSubmit i t)
    (hwork : ∀ i c, k = .work i → s.pool.workers[i]? = some (.running c) → c.handle = .closed) :
    Acts s u o := by
  obtain ⟨⟨p, po⟩, hstep, heq⟩ := Option.map_eq_some_iff.mp h
  cases heq
  obtain ⟨hnone, hfinished⟩ := ThreadPool.shows_of_step hstep hk hk'
  refine .pool (ThreadPool.step_moves hstep) hnone (fun c hc => ?_) rfl
  obtain ⟨i, hi, hc⟩ := hfinished c hc
  exact ⟨.inr (ThreadPool.mem_inProgress_of_getElem? hc rfl), hwork i c hi hc⟩

theorem acts_worker (h : worker s i = some (u, o)) : Acts s u o := by
  unfold worker at h
  split at h
  · rename_i c hi
    split at h
    · rename_i hclosed
      refine acts_onPool h nofun nofun fun j c' hj hc' => ?_
      obtain rfl := ThreadPool.Label.work.inj hj
      obtain rfl := Worker.running.inj (Option.some.inj (hi.symm.trans hc'))
      exact hclosed
    · cases h
  · rename_i hnot
    refine acts_onPool h nofun nofun fun j c hj hc => ?_
    obtain rfl := ThreadPool.Label.work.inj hj
    exact absurd hc (hnot c)

theorem acts_event {ok : Bool} (h : event s ok = some (u, o)) : Acts s u o := by
  unfold event at h
  split at h
  · cases h
    exact .other rfl rfl
  · cases h
    exact .other rfl rfl
  · split at h
    · cases h
      exact .other rfl rfl
    · split at h
      · cases h
      · cases h
        exact .accept .submit rfl rfl rfl
  · cases h

theorem step_acts (h : step s l = some (u, o)) : Acts s u o := by
  cases l with
  | event ok => exact acts_event h
  | worker i => exact acts_worker h
  | recv i answers => exact acts_serve (fun _ _ _ => closed_recv) h
  | respond i resp => exact acts_serve (fun _ _ _ => closed_respond) h
  | send i answers => exact acts_serve (fun _ _ _ => closed_send) h
  | wakeUp i => exact acts_onPool h (by simp) (by simp) (by simp)
  | notifyAll => exact acts_onPool h (by simp) (by simp) (by simp)
  | join => exact acts_onPool h (by simp) (by simp) (by simp)
  | destroy =>
    simp only [step] at h
    split at h
    · cases h
    · exact acts_onPool h (by simp) (by simp) (by simp)
  | notify w =>
    simp only [step] at h
    split at h
    · obtain ⟨⟨v, o'⟩, hn, heq⟩ := Option.map_eq_some_iff.mp h
      cases heq
      obtain ⟨⟨p, po⟩, hstep, heq⟩ := Option.map_eq_some_iff.mp hn
      cases heq
      obtain ⟨hnone, hfinished⟩ := ThreadPool.shows_of_step hstep (by simp) (by simp)
      refine .pool (ThreadPool.step_moves hstep) hnone (fun c hc => ?_) rfl
      obtain ⟨i, hi, -⟩ := hfinished c hc
      cases hi
    · cases h
  | connect input ending | run | stop =>
    simp only [step] at h
    split at h
    · cases h
    · cases h
      exact .other rfl rfl
  | epollWait swap =>
    simp only [step] at h
    split at h
    · split at h
      · cases h
      · cases h
        exact .other rfl rfl
    · cases h
  | epollFail interrupted =>
    simp only [step] at h
    split at h
    · cases h
      exact .other rfl rfl
    · cases h

/-- The pool is one of ids, each of them the number of a connection; the tasks that
have returned have closed theirs. -/
structure Tracks (n : Nat) (os : List Event) (s : State) : Prop where
  pool : ∃ pos, Sound n pos (s.pool.map Conn.id) ∧
    ThreadPool.submitted pos = List.range s.accepted ∧
    ∀ id ∈ ThreadPool.finished pos, .closed id ∈ os
  closed : ∀ c, s.pool.Has c → c.handle = .closed → .closed c.id ∈ os

theorem tracks_init (n : Nat) : Tracks n [] (init n) where
  pool := by
    refine ⟨[], ?_, rfl, nofun⟩
    have hinit : (init n).pool.map Conn.id = ThreadPool.init n := by
      simp [init, ThreadPool.init, ThreadPool.State.map, Worker.map]
    rw [hinit]
    exact ThreadPool.sound_init n
  closed := by
    rintro c (hc | hc)
    · exact absurd hc List.not_mem_nil
    · obtain ⟨w, hw, htask⟩ := List.mem_filterMap.mp hc
      rw [List.eq_of_mem_replicate hw] at htask
      cases htask

/-- Another state of a connection is the same task. -/
theorem map_serve {p : ThreadPool.State Conn} {c d : Conn}
    (hi : p.workers[i]? = some (.running c)) (hid : d.id = c.id) :
    ({ p with workers := p.workers.set i (.running d) } : ThreadPool.State Conn).map Conn.id =
      p.map Conn.id := by
  have hsame : Worker.map Conn.id (.running d) = Worker.map Conn.id (.running c) :=
    congrArg Worker.running hid
  have hworkers : (p.workers.set i (.running d)).map (Worker.map Conn.id) =
      p.workers.map (Worker.map Conn.id) := by
    rw [ThreadPool.map_set_worker, hsame]
    obtain ⟨hlt, hget⟩ := List.getElem?_eq_some_iff.mp (ThreadPool.getElem?_map_worker Conn.id hi)
    rw [← hget, List.set_getElem_self]
  rw [ThreadPool.State.map, hworkers]
  rfl

/-- **One step.** -/
theorem Tracks.step {n : Nat} (h : Tracks n os s) (ha : Acts s u o) : Tracks n (os ++ o) u := by
  obtain ⟨⟨pos, hsound, hsubmitted, hfinished⟩, hclosed⟩ := h
  cases ha with
  | other hpool haccepted =>
    rw [← hpool] at hsound hclosed
    rw [← haccepted] at hsubmitted
    refine ⟨⟨pos, hsound, hsubmitted, fun id hid => ?_⟩, fun c hc hh => ?_⟩
    · exact List.mem_append_left _ (hfinished id hid)
    · exact List.mem_append_left _ (hclosed c hc hh)
  | @pool u po o hm hnone hshut haccepted =>
    refine ⟨⟨_, hsound.step (hm.map Conn.id), ?_, fun id hid => ?_⟩, fun c hc hh => ?_⟩
    · rw [ThreadPool.submitted_append, ThreadPool.submitted_map, hnone, haccepted, hsubmitted]
      exact List.append_nil _
    · rw [ThreadPool.finished_append, ThreadPool.finished_map] at hid
      rcases List.mem_append.mp hid with hid | hid
      · exact List.mem_append_left _ (hfinished id hid)
      · obtain ⟨c, hc, rfl⟩ := List.mem_map.mp hid
        obtain ⟨hhas, hh⟩ := hshut c hc
        exact List.mem_append_left _ (hclosed c hhas hh)
    · rcases hm.has hc with hold | hnew
      · exact List.mem_append_left _ (hclosed c hold hh)
      · rw [hnone] at hnew
        exact absurd hnew List.not_mem_nil
  | @accept u c o hm hid hreading haccepted =>
    refine ⟨⟨_, hsound.step (hm.map Conn.id), ?_, fun id hid => ?_⟩, fun d hd hh => ?_⟩
    · rw [ThreadPool.submitted_append, ThreadPool.submitted_map, haccepted, hsubmitted,
        List.range_succ, ← hid]
      rfl
    · rw [ThreadPool.finished_append, ThreadPool.finished_map] at hid
      exact List.mem_append_left _ (hfinished id (by simpa [ThreadPool.finished] using hid))
    · rcases hm.has hd with hold | hnew
      · exact List.mem_append_left _ (hclosed d hold hh)
      · rw [List.mem_singleton.mp hnew, hreading] at hh
        cases hh
  | @serve i c d o hi hid hshut =>
    refine ⟨⟨pos, ?_, hsubmitted, fun id hid => ?_⟩, fun e he hh => ?_⟩
    · rw [map_serve hi hid]
      exact hsound
    · exact List.mem_append_left _ (hfinished id hid)
    · rcases he with he | he
      · exact List.mem_append_left _ (hclosed e (.inl he) hh)
      · rcases ThreadPool.mem_inProgress_set he with he | he
        · exact List.mem_append_left _ (hclosed e (.inr he) hh)
        · obtain rfl := Option.some.inj he
          rw [hid]
          exact List.mem_append_right _ (hshut hh)

/-! ### The exception -/

namespace Failing

inductive State
  | up (s : TcpServer.State)
  | terminated

/-- A step of the server, or the handler that worker `i` has called throws. -/
inductive Label
  | call (l : TcpServer.Label)
  | throw (i : Nat)

inductive Event
  | shown (e : TcpServer.Event)
  | threw (id : Nat) (req : Request)
  deriving DecidableEq, Repr

/-- The exception leaves the thread, and `std::terminate` ends the process. -/
def throw (s : TcpServer.State) (i : Nat) : Option (State × List Event) :=
  match s.pool.workers[i]? with
  | some (.running c) =>
    match c.handle with
    | .handling req => some (.terminated, [.threw c.id req])
    | _ => none
  | _ => none

def step : State → Label → Option (State × List Event)
  | .up s, .call l => (TcpServer.step s l).map fun p => (.up p.1, p.2.map .shown)
  | .up s, .throw i => throw s i
  | .terminated, _ => none

def machine : Lib.Machine State Label Event := ⟨step⟩

/-- What the server has shown. -/
def shown : List Event → List TcpServer.Event :=
  List.filterMap fun
    | .shown e => some e
    | .threw _ _ => none

/-- A connection whose handler has thrown is closed, no worker is lost, and the
connections accepted are tasks of a pool that runs all of them. -/
structure Survives (n : Nat) (os : List Event) (s : TcpServer.State) : Prop where
  closed : ∀ id req, .threw id req ∈ os → .shown (.closed id) ∈ os
  staffed : s.pool.workers.length = n ∧ (.returned ∈ s.pool.workers → s.pool.stop = true)
  served : ∃ pos, ThreadPool.submitted pos = List.range s.accepted ∧
    ThreadPool.Serves pos (s.pool.map Conn.id) ∧
    ∀ id ∈ ThreadPool.finished pos, .shown (.closed id) ∈ os

variable {n : Nat} {x y : State} {es e : List Event}

/-- The exception is the last step of a run. -/
def Kept (n : Nat) (es : List Event) : State → Prop
  | .up s => Tracks n (shown es) s ∧ ∀ id req, .threw id req ∉ es
  | .terminated => ∃ id req, .threw id req ∈ es

theorem mem_shown {ev : TcpServer.Event} : ev ∈ shown es ↔ .shown ev ∈ es := by
  rw [shown, List.mem_filterMap]
  refine ⟨?_, fun hmem => ⟨_, hmem, rfl⟩⟩
  rintro ⟨e, he, heq⟩
  cases e with
  | shown ev' =>
    obtain rfl := Option.some.inj heq
    exact he
  | threw id req => cases heq

theorem Kept.step {l : Label} (h : Kept n es x) (hstep : machine.step x l = some (y, e)) :
    Kept n (es ++ e) y := by
  cases x with
  | terminated => cases hstep
  | up s =>
    obtain ⟨htracks, hnone⟩ := h
    cases l with
    | call k =>
      obtain ⟨⟨u, o⟩, hs, heq⟩ := Option.map_eq_some_iff.mp hstep
      cases heq
      have hshown : shown (es ++ o.map .shown) = shown es ++ o := by
        rw [shown, List.filterMap_append, List.filterMap_map]
        exact congrArg (shown es ++ ·) (List.filterMap_some)
      have htracks' := htracks.step (step_acts hs)
      rw [← hshown] at htracks'
      refine ⟨htracks', fun id req hmem => ?_⟩
      rcases List.mem_append.mp hmem with hmem | hmem
      · exact hnone id req hmem
      · obtain ⟨ev, -, heq⟩ := List.mem_map.mp hmem
        cases heq
    | throw i =>
      have hthrow : throw s i = some (y, e) := hstep
      unfold throw at hthrow
      split at hthrow
      · split at hthrow
        · cases hthrow
          exact ⟨_, _, List.mem_append_right _ (List.mem_singleton_self _)⟩
        · cases hthrow
      · cases hthrow

theorem kept_run (h : Lib.Machine.Run machine Lib.Machine.anyStep (.up (init n)) es x) :
    Kept n es x := by
  refine h.invariant (P := Kept n) ?_ ?_
  · exact ⟨tracks_init n, nofun⟩
  · intro es t l u o hkept _ hstep
    exact hkept.step hstep

/-- **The server survives the calls of its handler if and only if none throws.** -/
theorem survives_iff (hn : 0 < n)
    (h : Lib.Machine.Run machine Lib.Machine.anyStep (.up (init n)) es x) :
    (∃ s, x = .up s ∧ Survives n es s) ↔ ∀ id req, .threw id req ∉ es := by
  have hkept := kept_run h
  cases x with
  | terminated =>
    obtain ⟨id, req, hmem⟩ := hkept
    refine iff_of_false ?_ fun hnone => hnone id req hmem
    rintro ⟨s, hs, -⟩
    cases hs
  | up s =>
    obtain ⟨⟨⟨pos, hsound, hsubmitted, hfinished⟩, -⟩, hnone⟩ := hkept
    refine iff_of_true ⟨s, rfl, ?_, ⟨?_, ?_⟩, pos, hsubmitted, hsound.serves hn, ?_⟩ hnone
    · exact fun id req hmem => absurd hmem (hnone id req)
    · rw [← hsound.size, ThreadPool.State.map, List.length_map]
    · intro hmem
      exact (hsound.left (List.mem_map.mpr ⟨_, hmem, rfl⟩)).1
    · exact fun id hid => mem_shown.mp (hfinished id hid)

def State.isTerminated : State → Bool
  | .up _ => false
  | .terminated => true

/-- The labels of a run in which a client is served by the only worker. -/
def answered : List Label :=
  [.call (.connect aRequest.encode .eof), .call .run, .call (.epollWait false), .call (.event true),
    .call (.notify none), .call (.worker 0), .call (.recv 0 [.upTo 3]),
    .call (.respond 0 ⟨9, ⟨0⟩, []⟩), .call (.send 0 []), .call (.recv 0 []), .call (.worker 0)]

/-- Two clients are accepted, and the handler throws for the first one. -/
def thrown : List Label :=
  [.call (.connect aRequest.encode .eof), .call (.connect aRequest.encode .eof), .call .run,
    .call (.epollWait false), .call (.event true), .call (.notify none), .call (.event true),
    .call (.epollWait false), .call (.event true), .call (.notify none), .call (.worker 0),
    .call (.recv 0 []), .throw 0]

/-- One request is answered, and the connection is closed. -/
theorem survives_iff_answered :
    ∃ s es, Lib.Machine.Run machine Lib.Machine.anyStep (.up (init 1)) es (.up s) ∧
      .shown (.called 0 aRequest) ∈ es ∧ .shown (.closed 0) ∈ es ∧ Survives 1 es s := by
  have hexec : (machine.exec (.up (init 1)) answered).map (fun q => (q.1.isTerminated, q.2)) =
      some (false, [.shown (.accepted 0), .shown .worked, .shown .worked,
        .shown (.called 0 aRequest), .shown .worked, .shown .worked, .shown .worked,
        .shown (.closed 0), .shown .worked]) := by
    decide +kernel
  obtain ⟨x, hrun, -⟩ := Lib.Machine.exists_run_of_exec State.isTerminated
    (Lib.Machine.execOk_of_forall (fun _ _ _ => trivial) _) hexec
  obtain ⟨s, rfl, hs⟩ := (survives_iff Nat.one_pos hrun).mpr (by simp)
  exact ⟨s, _, hrun, by simp, by simp, hs⟩

/-- **The only worker throws** for the first client, and the second one, which has
been accepted, is never served. -/
theorem terminated_by_throw :
    ∃ es, Lib.Machine.Run machine Lib.Machine.anyStep (.up (init 1)) es .terminated ∧
      .shown (.accepted 1) ∈ es ∧ .threw 0 aRequest ∈ es ∧
      (∀ id, .shown (.closed id) ∉ es) ∧ ∀ l, machine.step .terminated l = none := by
  have hexec : (machine.exec (.up (init 1)) thrown).map (fun q => (q.1.isTerminated, q.2)) =
      some (true, [.shown (.accepted 0), .shown (.accepted 1), .shown .worked, .shown .worked,
        .shown (.called 0 aRequest), .threw 0 aRequest]) := by
    decide +kernel
  obtain ⟨x, hrun, hx⟩ := Lib.Machine.exists_run_of_exec State.isTerminated
    (Lib.Machine.execOk_of_forall (fun _ _ _ => trivial) _) hexec
  cases x with
  | up s => cases hx
  | terminated => exact ⟨_, hrun, by simp, by simp, by simp, fun _ => rfl⟩

end Failing

end TcpServer

end HftComponents.Tcp
