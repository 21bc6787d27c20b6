import HftComponents.Lib.Potential
import HftComponents.Tcp.Failure

/-!
# The life of a connection, and the stop

A connection that has been accepted is handled in one piece: the calls of the
handler for it, then its `close`, and nothing after that.  When the destructor has
returned, each has had its `close` (`closed_once`), so no descriptor is leaked and
none is closed twice.

A byte that `stop` has written stays in the pipe.  From then on the accept loop
takes at most seven more steps, interrupted waits not counted, and accepts at most
two more clients (`stop_heeded`); that holds for every later call of `run` too.
-/

namespace HftComponents.Tcp.TcpServer

open Lib.Transfer
open ThreadPool (Worker)

variable {s u : State} {os o : List Event} {l : Label} {i : Nat}

/-! ### What a step can do -/

def Event.concerns (id : Nat) : Event → Bool
  | .accepted id' | .called id' _ | .closed id' => id' = id
  | .stopped | .destroying | .worked => false

/-- What a run shows of a connection. -/
def life (id : Nat) (os : List Event) : List Event := os.filter (Event.concerns id)

/-- A step of `handle_connection`. -/
inductive Conn.Turn (c : Conn) : Conn → List Event → Prop
  | called {req : Request} {unread : List UInt8} (hc : c.handle = .reading) :
      Conn.Turn c { c with unread := unread, handle := .handling req } [.called c.id req]
  | returned {req : Request} {resp : Response} (hc : c.handle = .handling req) :
      Conn.Turn c { c with handle := .sending resp } []
  | sent {resp : Response} (hc : c.handle = .sending resp) :
      Conn.Turn c { c with handle := .reading } []
  | closed {unread : List UInt8} (hc : c.handle ≠ .closed) :
      Conn.Turn c { c with unread := unread, handle := .closed } [.closed c.id]


theorem turn_recv {c d : Conn} {answers : List Reply} (h : c.recv answers = some (d, o)) :
    Conn.Turn c d o := by
  unfold Conn.recv at h
  split at h
  · rename_i hc
    split at h
    · cases h
      exact .called hc
    · cases h
      exact .closed (by rw [hc]; rintro ⟨⟩)
  · cases h

theorem turn_respond {c d : Conn} {resp : Response} (h : c.respond resp = some (d, o)) :
    Conn.Turn c d o := by
  unfold Conn.respond at h
  split at h
  · rename_i hc
    cases h
    exact .returned hc
  · cases h

theorem turn_send {c d : Conn} {answers : List Reply} (h : c.send answers = some (d, o)) :
    Conn.Turn c d o := by
  unfold Conn.send at h
  split at h
  · rename_i hc
    split at h
    · cases h
      exact .sent hc
    · cases h
      exact .closed (by rw [hc]; rintro ⟨⟩)
  · cases h

/-- A step of the accept loop; a wait that is interrupted does not count. -/
def Label.byLoop : Label → Bool
  | .epollWait _ | .event _ | .notify _ => true
  | .epollFail interrupted => !interrupted
  | _ => false

/-- What a step of the pool says that neither submits nor notifies. -/
structure PoolStep (p q : ThreadPool.State Conn) (o : List Event) : Prop where
  has : ∀ c, q.Has c → p.Has c
  drained : (.returned ∈ p.workers → p.stop = true ∧ p.tasks = []) →
    .returned ∈ q.workers → q.stop = true ∧ q.tasks = []
  submitting : q.submitting = p.submitting
  shown : o = [] ∨ o = [.worked] ∨ o = [.destroying]

/-- What a step of the server may be. -/
inductive Moves (s : State) : Label → State → List Event → Prop
  | connect {input : List UInt8} {ending : Ending} (hstop : s.pool.stop = false) :
      Moves s (.connect input ending) { s with backlog := s.backlog ++ [(input, ending)] } []
  | run (hstop : s.pool.stop = false) (hidle : s.loop.active = false) :
      Moves s .run { s with loop := .wait } []
  | stop (hstop : s.pool.stop = false) : Moves s .stop { s with pipe := s.pipe + 1 } [.stopped]
  | wait {swap : Bool} {fds : List Fd} (hloop : s.loop = .wait)
      (hfds : fds = ready s ∨ fds = (ready s).reverse) :
      Moves s (.epollWait swap) { s with loop := .handle fds } []
  | interrupted (hloop : s.loop = .wait) : Moves s (.epollFail true) { s with loop := .wait } []
  | failed (hloop : s.loop = .wait) : Moves s (.epollFail false) { s with loop := .returned } []
  | again {ok : Bool} (hloop : s.loop = .handle []) :
      Moves s (.event ok) { s with loop := .wait } []
  | heed {ok : Bool} {fds : List Fd} (hloop : s.loop = .handle (.stopPipe :: fds)) :
      Moves s (.event ok) { s with loop := .returned } []
  | refuse {ok : Bool} {fds : List Fd} (hloop : s.loop = .handle (.server :: fds)) :
      Moves s (.event ok) { s with loop := .handle fds } []
  | accept {ok : Bool} {fds : List Fd} {input : List UInt8} {ending : Ending}
      {backlog : List (List UInt8 × Ending)} (hloop : s.loop = .handle (.server :: fds)) :
      Moves s (.event ok)
        { s with
          pool := { s.pool with
            tasks := s.pool.tasks ++ [⟨s.accepted, input, ending, .reading⟩]
            submitting := s.pool.submitting + 1 }
          backlog := backlog
          loop := .notify fds
          accepted := s.accepted + 1 } [.accepted s.accepted]
  | notify {w : Option Nat} {fds : List Fd} {ws : List (Worker Conn)}
      (hloop : s.loop = .notify fds) (hsub : s.pool.submitting ≠ 0)
      (hws : ThreadPool.notifyOne s.pool.workers w = some ws) :
      Moves s (.notify w)
        { s with
          pool := { s.pool with workers := ws, submitting := s.pool.submitting - 1 }
          loop := .handle fds } []
  | serve {l : Label} {i : Nat} {c d : Conn} {o : List Event}
      (hi : s.pool.workers[i]? = some (.running c)) (hturn : Conn.Turn c d o)
      (hl : l.byLoop = false ∧ l ≠ .run) :
      Moves s l { s with pool := { s.pool with workers := s.pool.workers.set i (.running d) } }
        (.worked :: o)
  | pool {l : Label} {p : ThreadPool.State Conn} {o : List Event} (hp : PoolStep s.pool p o)
      (hstop : p.stop = s.pool.stop ∨ s.loop.active = false) (hl : l.byLoop = false ∧ l ≠ .run) :
      Moves s l { s with pool := p } o

theorem returned_of_set {ws : List (Worker Conn)} {w : Worker Conn}
    (h : .returned ∈ ws.set i w) (hw : w ≠ .returned) : .returned ∈ ws :=
  (List.mem_or_eq_of_mem_set h).resolve_right (Ne.symm hw)

theorem drained_of_moves {p q : ThreadPool.State Conn} {po : List (ThreadPool.Event Conn)}
    (h : ThreadPool.Moves p q po) (hnone : ThreadPool.submitted po = [])
    (hp : .returned ∈ p.workers → p.stop = true ∧ p.tasks = []) :
    .returned ∈ q.workers → q.stop = true ∧ q.tasks = [] := by
  cases h with
  | submit => cases hnone
  | taskSubmit hi => cases hnone
  | leave hi hstop htasks => exact fun _ => ⟨hstop, htasks⟩
  | start hi htasks =>
    intro hmem
    have hnil := (hp (returned_of_set hmem (by simp))).2
    rw [htasks] at hnil
    cases hnil
  | wait | finish | wakeUp => exact fun hmem => hp (returned_of_set hmem (by simp))
  | notify hsub hws =>
    rcases ThreadPool.notifyOne_cases hws with ⟨-, rfl⟩ | ⟨j, hj, rfl⟩
    · exact hp
    · exact fun hmem => hp (returned_of_set hmem (by simp))
  | taskNotify hi hws =>
    rcases ThreadPool.notifyOne_cases hws with ⟨-, rfl⟩ | ⟨j, hj, rfl⟩
    · exact fun hmem => hp (returned_of_set hmem (by simp))
    · exact fun hmem => hp (returned_of_set (returned_of_set hmem (by simp)) (by simp))
  | stop hs => exact fun hmem => ⟨rfl, (hp hmem).2⟩
  | notifyAll hs =>
    intro hmem
    obtain ⟨w, hw, heq⟩ := List.mem_map.mp hmem
    cases w with
    | returned => exact hp hw
    | _ => cases heq
  | join | joined => exact hp

theorem fixed_of_step {p q : ThreadPool.State Conn} {po : List (ThreadPool.Event Conn)}
    {k : ThreadPool.Label Conn} (h : ThreadPool.step p k = some (q, po))
    (hsubmit : ∀ t, k ≠ .submit t) (hnotify : ∀ w, k ≠ .notify w) :
    q.submitting = p.submitting ∧ (k ≠ .stop → q.stop = p.stop) := by
  cases k with
  | submit t => exact absurd rfl (hsubmit t)
  | notify w => exact absurd rfl (hnotify w)
  | taskNotify j w =>
    dsimp only [ThreadPool.step] at h
    split at h
    · obtain ⟨ws, -, heq⟩ := Option.map_eq_some_iff.mp h
      cases heq
      exact ⟨rfl, fun _ => rfl⟩
    · cases h
  | work j =>
    simp only [ThreadPool.step, ThreadPool.work, ThreadPool.enter] at h
    repeat' split at h
    all_goals cases h
    all_goals exact ⟨rfl, fun _ => rfl⟩
  | wakeUp j | taskSubmit j t | notifyAll =>
    dsimp only [ThreadPool.step] at h
    split at h <;> cases h
    exact ⟨rfl, fun _ => rfl⟩
  | join =>
    dsimp only [ThreadPool.step, ThreadPool.join] at h
    repeat' split at h
    all_goals cases h
    all_goals exact ⟨rfl, fun _ => rfl⟩
  | stop =>
    dsimp only [ThreadPool.step] at h
    split at h <;> cases h
    exact ⟨rfl, fun hne => absurd rfl hne⟩

theorem moves_onPool {k : ThreadPool.Label Conn} (h : onPool s k os = some (u, o))
    (hsubmit : ∀ t, k ≠ .submit t) (htask : ∀ i t, k ≠ .taskSubmit i t)
    (hnotify : ∀ w, k ≠ .notify w) (hstop : k = .stop → s.loop.active = false)
    (ho : os = [] ∨ os = [.worked] ∨ os = [.destroying]) (hl : l.byLoop = false ∧ l ≠ .run) :
    Moves s l u o := by
  obtain ⟨⟨p, po⟩, hstep, heq⟩ := Option.map_eq_some_iff.mp h
  cases heq
  have hnone := (ThreadPool.shows_of_step hstep hsubmit htask).1
  obtain ⟨hsubmitting, hsame⟩ := fixed_of_step hstep hsubmit hnotify
  refine .pool ⟨fun c hc => ?_, ?_, hsubmitting, ho⟩ ?_ hl
  · refine ((ThreadPool.step_moves hstep).has hc).resolve_right ?_
    rw [hnone]
    exact List.not_mem_nil
  · exact drained_of_moves (ThreadPool.step_moves hstep) hnone
  · by_cases hk : k = .stop
    · exact .inr (hstop hk)
    · exact .inl (hsame hk)

theorem moves_serve {f : Conn → Option (Conn × List Event)}
    (hf : ∀ c d o, f c = some (d, o) → Conn.Turn c d o) (h : serve s i f = some (u, o))
    (hl : l.byLoop = false ∧ l ≠ .run) : Moves s l u o := by
  unfold serve at h
  split at h
  · rename_i c hi
    obtain ⟨⟨d, o'⟩, hd, heq⟩ := Option.map_eq_some_iff.mp h
    cases heq
    exact .serve hi (hf c d o' hd) hl
  · cases h

theorem moves_event {ok : Bool} (h : event s ok = some (u, o)) : Moves s (.event ok) u o := by
  unfold event at h
  split at h
  · cases h
    exact .again ‹_›
  · cases h
    exact .heed ‹_›
  · rename_i fds hloop
    split at h
    · cases h
      exact .refuse hloop
    · split at h
      · cases h
      · cases h
        exact .accept hloop
  · cases h

theorem step_moves (h : step s l = some (u, o)) : Moves s l u o := by
  cases l with
  | event ok => exact moves_event h
  | recv i answers => exact moves_serve (fun _ _ _ => turn_recv) h ⟨rfl, by simp⟩
  | respond i resp => exact moves_serve (fun _ _ _ => turn_respond) h ⟨rfl, by simp⟩
  | send i answers => exact moves_serve (fun _ _ _ => turn_send) h ⟨rfl, by simp⟩
  | wakeUp i =>
    exact moves_onPool h (by simp) (by simp) (by simp) (by simp) (by simp) ⟨rfl, by simp⟩
  | notifyAll =>
    exact moves_onPool h (by simp) (by simp) (by simp) (by simp) (by simp) ⟨rfl, by simp⟩
  | join => exact moves_onPool h (by simp) (by simp) (by simp) (by simp) (by simp) ⟨rfl, by simp⟩
  | worker i =>
    have hmoves : onPool s (.work i) [.worked] = some (u, o) := by
      simp only [step, worker] at h
      split at h
      · split at h
        · exact h
        · cases h
      · exact h
    exact moves_onPool hmoves (by simp) (by simp) (by simp) (by simp) (by simp) ⟨rfl, by simp⟩
  | destroy =>
    simp only [step] at h
    split at h
    · cases h
    · rename_i hidle
      exact moves_onPool h (by simp) (by simp) (by simp) (fun _ => by simpa using hidle) (by simp)
        ⟨rfl, by simp⟩
  | notify w =>
    simp only [step] at h
    split at h
    · rename_i fds hloop
      simp only [onPool, ThreadPool.step] at h
      split at h
      · cases h
      · rename_i hsub
        cases hws : ThreadPool.notifyOne s.pool.workers w with
        | none => simp [hws] at h
        | some ws =>
          simp only [hws, Option.map_some, Option.some.injEq] at h
          cases h
          exact .notify hloop hsub hws
    · cases h
  | connect input ending =>
    simp only [step] at h
    split at h
    · cases h
    · rename_i hstop
      cases h
      exact .connect (by simpa using hstop)
  | run =>
    simp only [step] at h
    split at h
    · cases h
    · rename_i hguard
      cases h
      simp only [Bool.or_eq_true, not_or, Bool.not_eq_true] at hguard
      exact .run hguard.1 hguard.2
  | stop =>
    simp only [step] at h
    split at h
    · cases h
    · rename_i hstop
      cases h
      exact .stop (by simpa using hstop)
  | epollWait swap =>
    simp only [step] at h
    split at h
    · rename_i hloop
      split at h
      · cases h
      · cases h
        refine .wait hloop ?_
        split
        · exact .inr rfl
        · exact .inl rfl
    · cases h
  | epollFail interrupted =>
    simp only [step] at h
    split at h
    · rename_i hloop
      cases h
      cases interrupted with
      | true => exact .interrupted hloop
      | false => exact .failed hloop
    · cases h

/-! ### One life each -/

/-- It is accepted, the handler is called for it, and it may be closed. -/
def Goes (id : Nat) (closed : Bool) (es : List Event) : Prop :=
  ∃ reqs, es = .accepted id :: (List.map (.called id) reqs ++ if closed then [.closed id] else [])

structure Lives (os : List Event) (s : State) : Prop where
  fresh : ∀ id, s.accepted ≤ id → life id os = []
  goes : ∀ id < s.accepted, ∃ closed, Goes id closed (life id os)
  underWay : ∀ c, s.pool.Has c → c.handle ≠ .closed → Goes c.id false (life c.id os)

theorem life_append (id : Nat) (os o : List Event) : life id (os ++ o) = life id os ++ life id o :=
  List.filter_append ..

theorem mem_live {c : Conn} : c ∈ live s ↔ s.pool.Has c := List.mem_append

/-- The connections have different numbers, all given out. -/
theorem Tracks.ids {n : Nat} (h : Tracks n os s) :
    ((live s).map Conn.id).Nodup ∧ ∀ c, s.pool.Has c → c.id < s.accepted := by
  obtain ⟨pos, hsound, hsubmitted, -⟩ := h.pool
  have hprogress : ThreadPool.inProgress (s.pool.map Conn.id) =
      (ThreadPool.inProgress s.pool).map Conn.id := by
    rw [ThreadPool.inProgress, ThreadPool.inProgress, ThreadPool.State.map, List.filterMap_map,
      List.map_filterMap]
    refine List.filterMap_congr fun w _ => ?_
    cases w <;> rfl
  have hall : (ThreadPool.finished pos ++ (live s).map Conn.id).Perm (List.range s.accepted) := by
    rw [← hsubmitted, ← hsound.queue, live, List.map_append, ← hprogress]
    refine .trans ?_ (hsound.once.append_right _)
    rw [List.append_assoc]
    exact List.perm_append_comm.append_left _
  have hnodup := hall.nodup_iff.mpr List.nodup_range
  refine ⟨(List.nodup_append.mp hnodup).2.1, fun c hc => ?_⟩
  refine List.mem_range.mp (hall.mem_iff.mp (List.mem_append_right _ ?_))
  exact List.mem_map_of_mem (mem_live.mpr hc)

theorem Lives.serve {n : Nat} {c d : Conn} (h : Lives os s) (ht : Tracks n os s)
    (hi : s.pool.workers[i]? = some (.running c)) (hturn : Conn.Turn c d o) :
    Lives (os ++ .worked :: o)
      { s with pool := { s.pool with workers := s.pool.workers.set i (.running d) } } := by
  obtain ⟨hnodup, hbelow⟩ := ht.ids
  have hc : s.pool.Has c := .inr (ThreadPool.mem_inProgress_of_getElem? hi rfl)
  have hlife : ∀ id, life id (os ++ .worked :: o) = life id os ++ life id o :=
    fun id => life_append id os (.worked :: o)
  -- nothing is shown of the others
  have hothers : ∀ id, id ≠ c.id → life id o = [] := by
    intro id hid
    cases hturn <;> simp [life, Event.concerns, Ne.symm hid]
  have hopen : c.handle ≠ .closed := by
    cases hturn with
    | called hh => rw [hh]; rintro ⟨⟩
    | returned hh => rw [hh]; rintro ⟨⟩
    | sent hh => rw [hh]; rintro ⟨⟩
    | closed hh => exact hh
  obtain ⟨reqs, hreqs⟩ := h.underWay c hc hopen
  have hgoes : ∃ closed, Goes c.id closed (life c.id (os ++ .worked :: o)) ∧
      (d.handle ≠ .closed → closed = false) := by
    rw [hlife, hreqs]
    cases hturn with
    | @called req unread hh =>
      exact ⟨false, ⟨reqs ++ [req], by simp [life, Event.concerns]⟩, fun _ => rfl⟩
    | returned hh => exact ⟨false, ⟨reqs, by simp [life]⟩, fun _ => rfl⟩
    | sent hh => exact ⟨false, ⟨reqs, by simp [life]⟩, fun _ => rfl⟩
    | closed hh => exact ⟨true, ⟨reqs, by simp [life, Event.concerns]⟩, fun hd => absurd rfl hd⟩
  have hid : d.id = c.id := by cases hturn <;> rfl
  refine ⟨?_, ?_, ?_⟩
  · intro id hfresh
    have hne : id ≠ c.id := by
      rintro rfl
      exact absurd (hbelow c hc) (Nat.not_lt.mpr hfresh)
    rw [hlife, hothers id hne, h.fresh id hfresh]
    rfl
  · intro id hlt
    by_cases hne : id = c.id
    · subst hne
      obtain ⟨closed, hg, -⟩ := hgoes
      exact ⟨closed, hg⟩
    · rw [hlife, hothers id hne, List.append_nil]
      exact h.goes id hlt
  · intro e he hopen'
    obtain ⟨rest, hrest, hlive⟩ := exists_rest hi d
    rcases List.mem_cons.mp (hlive.mem_iff.mp (mem_live.mpr he)) with rfl | hmem
    · obtain ⟨closed, hg, hfalse⟩ := hgoes
      rw [hid, ← hfalse hopen']
      exact hg
    · have hne : e.id ≠ c.id := by
        have hids := (hrest.map Conn.id).nodup_iff.mp hnodup
        intro heq
        exact (List.nodup_cons.mp hids).1 (List.mem_map.mpr ⟨e, hmem, heq⟩)
      rw [hlife, hothers _ hne, List.append_nil]
      exact h.underWay e (mem_live.mp (hrest.mem_iff.mpr (List.mem_cons_of_mem _ hmem))) hopen'

theorem Lives.quiet (h : Lives os s) (hhas : ∀ c, u.pool.Has c → s.pool.Has c)
    (haccepted : u.accepted = s.accepted) (ho : ∀ id, life id o = []) : Lives (os ++ o) u := by
  have hlife : ∀ id, life id (os ++ o) = life id os := by
    intro id
    rw [life_append, ho, List.append_nil]
  refine ⟨fun id hid => ?_, fun id hid => ?_, fun c hc hopen => ?_⟩
  · rw [hlife]
    exact h.fresh id (haccepted ▸ hid)
  · rw [hlife]
    exact h.goes id (haccepted ▸ hid)
  · rw [hlife]
    exact h.underWay c (hhas c hc) hopen

theorem Lives.accept {n : Nat} {c : Conn} (h : Lives os s) (ht : Tracks n os s)
    (hhas : ∀ d, u.pool.Has d → s.pool.Has d ∨ d = c) (hc : c.id = s.accepted)
    (haccepted : u.accepted = s.accepted + 1) : Lives (os ++ [.accepted s.accepted]) u := by
  have hnew : Goes s.accepted false (life s.accepted (os ++ [.accepted s.accepted])) := by
    rw [life_append, h.fresh _ le_rfl]
    exact ⟨[], by simp [life, Event.concerns]⟩
  have hold : ∀ id, id ≠ s.accepted → life id (os ++ [.accepted s.accepted]) = life id os := by
    intro id hne
    rw [life_append]
    simp [life, Event.concerns, Ne.symm hne]
  refine ⟨fun id hid => ?_, fun id hid => ?_, fun d hd hopen => ?_⟩
  · rw [hold id (by omega)]
    exact h.fresh id (by omega)
  · by_cases hne : id = s.accepted
    · subst hne
      exact ⟨false, hnew⟩
    · rw [hold id hne]
      exact h.goes id (by omega)
  · rcases hhas d hd with hd | rfl
    · have hlt := ht.ids.2 d hd
      rw [hold _ hlt.ne]
      exact h.underWay d hd hopen
    · rw [hc]
      exact hnew

theorem Lives.step {n : Nat} (h : Lives os s) (ht : Tracks n os s) (hm : Moves s l u o) :
    Lives (os ++ o) u := by
  cases hm with
  | serve hi hturn hl => exact h.serve ht hi hturn
  | @accept ok fds input ending backlog hloop =>
    refine h.accept (c := ⟨s.accepted, input, ending, .reading⟩) ht (fun d hd => ?_) rfl rfl
    rcases ThreadPool.Moves.submit.has hd with hd | hd
    · exact .inl hd
    · exact .inr (List.mem_singleton.mp hd)
  | notify hloop hsub hws =>
    refine h.quiet (fun c hc => ?_) rfl fun _ => rfl
    exact ((ThreadPool.Moves.notify hsub hws).has hc).resolve_right List.not_mem_nil
  | pool hp hstop hl =>
    refine h.quiet hp.has rfl fun id => ?_
    rcases hp.shown with rfl | rfl | rfl <;> rfl
  | _ => exact h.quiet (fun _ => id) rfl fun _ => rfl

/-! ### When the destructor has returned -/

/-- The destructor runs when the accept loop does not, and a worker that has left
has left an empty queue. -/
structure Rests (s : State) : Prop where
  halted : s.pool.stop = true → s.loop.active = false
  drained : .returned ∈ s.pool.workers → s.pool.stop = true ∧ s.pool.tasks = []

theorem not_mem_of_active (h : Rests s) (hactive : s.loop.active = true) :
    .returned ∉ s.pool.workers := by
  intro hmem
  have hidle := h.halted (h.drained hmem).1
  rw [hactive] at hidle
  cases hidle

theorem Rests.running (h : Rests s) (hactive : s.loop.active = true) : s.pool.stop = false := by
  by_contra hstop
  rw [h.halted (by simpa using hstop)] at hactive
  cases hactive

theorem Rests.loop (h : Rests s) (hpool : u.pool = s.pool)
    (hidle : s.pool.stop = false ∨ u.loop.active = false) : Rests u where
  halted hstop := by
    rw [hpool] at hstop
    refine hidle.resolve_left ?_
    rw [hstop]
    rintro ⟨⟩
  drained := by
    rw [hpool]
    exact h.drained

theorem Rests.step (h : Rests s) (hm : Moves s l u o) : Rests u := by
  have hrunning : s.loop.active = true → s.pool.stop = false := h.running
  cases hm with
  | connect hstop => exact h.loop rfl (.inl hstop)
  | run hstop hidle => exact h.loop rfl (.inl hstop)
  | stop hstop => exact h.loop rfl (.inl hstop)
  | failed hloop => exact h.loop rfl (.inr rfl)
  | heed hloop => exact h.loop rfl (.inr rfl)
  | wait hloop | interrupted hloop | again hloop | refuse hloop =>
    exact h.loop rfl (.inl (hrunning (by rw [hloop]; rfl)))
  | accept hloop =>
    have hactive : s.loop.active = true := by rw [hloop]; rfl
    have hnone := not_mem_of_active h hactive
    exact ⟨fun hs => absurd ((hrunning hactive).symm.trans hs) (by decide),
      fun hmem => absurd hmem hnone⟩
  | notify hloop hsub hws =>
    have hactive : s.loop.active = true := by rw [hloop]; rfl
    refine ⟨fun hs => absurd ((hrunning hactive).symm.trans hs) (by decide), fun hmem => ?_⟩
    rcases ThreadPool.notifyOne_cases hws with ⟨-, rfl⟩ | ⟨j, hj, rfl⟩
    · exact h.drained hmem
    · exact h.drained (returned_of_set hmem (by simp))
  | serve hi hturn hl => exact ⟨h.halted, fun hmem => h.drained (returned_of_set hmem (by simp))⟩
  | pool hp hstop hl =>
    refine ⟨fun hs => ?_, hp.drained h.drained⟩
    rcases hstop with hstop | hidle
    · exact h.halted (hstop.symm.trans hs)
    · exact hidle

/-- The books of the connections. -/
structure Accounted (os : List Event) (s : State) : Prop where
  unseen : ∀ id, s.accepted ≤ id → life id os = []
  lives : ∀ id < s.accepted, ∃ closed, Goes id closed (life id os)
  closed : s.pool.shutdown = .returned → ∀ id < s.accepted, Goes id true (life id os)

theorem lives_init (n : Nat) : Lives [] (init n) := by
  have hlive : live (init n) = [] := by
    simp [live, init, ThreadPool.inProgress, ThreadPool.init, Worker.task]
  refine ⟨fun _ _ => rfl, fun id hid => absurd hid (Nat.not_lt_zero id), fun c hc => ?_⟩
  rw [← mem_live, hlive] at hc
  exact absurd hc List.not_mem_nil

theorem rests_init (n : Nat) : Rests (init n) := by
  refine ⟨nofun, fun hmem => ?_⟩
  cases List.eq_of_mem_replicate hmem

/-- A destructor that has returned has waited for every connection. -/
theorem Tracks.closed_of_returned {n : Nat} (hn : 0 < n) (h : Tracks n os s) (hr : Rests s)
    (hreturned : s.pool.shutdown = .returned) {id : Nat} (hid : id < s.accepted) :
    .closed id ∈ os := by
  obtain ⟨pos, hsound, hsubmitted, hfinished⟩ := h.pool
  have hworkers : ∀ w ∈ (s.pool.map Conn.id).workers, w = .returned := hsound.returned hreturned
  have hprogress : ThreadPool.inProgress (s.pool.map Conn.id) = [] := by
    rw [ThreadPool.inProgress, List.filterMap_eq_nil_iff]
    intro w hw
    rw [hworkers w hw]
    rfl
  -- there is a worker, and it has left an empty queue
  have htasks : s.pool.tasks = [] := by
    have hlen : 0 < (s.pool.map Conn.id).workers.length := by
      rw [hsound.size]
      exact hn
    obtain ⟨w, hw⟩ := List.exists_mem_of_length_pos hlen
    obtain ⟨v, hv, hvw⟩ := List.mem_map.mp hw
    rw [hworkers w hw] at hvw
    cases v with
    | returned => exact (hr.drained hv).2
    | _ => cases hvw
  have hqueue := hsound.queue
  have honce := hsound.once
  rw [ThreadPool.State.map, htasks, List.map_nil, List.append_nil, hsubmitted] at hqueue
  rw [hprogress, List.append_nil, hqueue] at honce
  exact hfinished id (honce.mem_iff.mpr (List.mem_range.mpr hid))

/-- **Each connection accepted has one life,** and when the destructor has returned
each has come to its end. -/
theorem closed_once {numWorkers : Nat} (hn : 0 < numWorkers)
    (h : Lib.Machine.Run machine Lib.Machine.anyStep (init numWorkers) os s) :
    Accounted os s := by
  have hinv : Tracks numWorkers os s ∧ Lives os s ∧ Rests s := by
    refine h.invariant (P := fun os s => Tracks numWorkers os s ∧ Lives os s ∧ Rests s)
      ⟨tracks_init _, lives_init _, rests_init _⟩ ?_
    rintro os t l u o ⟨ht, hl, hr⟩ - hstep
    exact ⟨ht.step (step_acts hstep), hl.step ht (step_moves hstep), hr.step (step_moves hstep)⟩
  obtain ⟨ht, hl, hr⟩ := hinv
  refine ⟨hl.fresh, hl.goes, fun hreturned id hid => ?_⟩
  have hmem := ht.closed_of_returned hn hr hreturned hid
  obtain ⟨closed, hgoes⟩ := hl.goes id hid
  cases closed with
  | true => exact hgoes
  | false =>
    obtain ⟨reqs, hreqs⟩ := hgoes
    have hshown : .closed id ∈ life id os := List.mem_filter.mpr ⟨hmem, by simp [Event.concerns]⟩
    rw [hreqs] at hshown
    simp at hshown

/-- Two clients, of which one sends a request, are served by two workers before the
destructor returns. -/
theorem closed_once_two :
    ∃ s os, Lib.Machine.Run machine Lib.Machine.anyStep (init 2) os s ∧
      s.pool.shutdown = .returned ∧ s.accepted = 2 ∧ Accounted os s := by
  have hexec : (machine.exec (init 2) [.connect aRequest.encode .eof, .connect [] .eof, .run,
      .epollWait false, .event true, .notify none, .event true, .epollWait false, .event true,
      .notify none, .event true, .worker 0, .worker 1, .recv 1 [], .recv 0 [.upTo 3],
      .respond 0 ⟨9, ⟨0⟩, []⟩, .stop, .epollWait true, .event true, .destroy, .send 0 [],
      .worker 1, .worker 1, .recv 0 [], .worker 0, .worker 0, .notifyAll, .join, .join, .join]).map
        (fun q => ((q.1.pool.shutdown, q.1.accepted), q.2)) =
      some ((.returned, 2), [.accepted 0, .accepted 1, .worked, .worked, .worked, .closed 1,
        .worked, .called 0 aRequest, .worked, .stopped, .destroying, .worked, .worked, .worked,
        .worked, .closed 0, .worked, .worked]) := by
    decide +kernel
  obtain ⟨s, hrun, hs⟩ := Lib.Machine.exists_run_of_exec
    (fun s : State => (s.pool.shutdown, s.accepted))
    (Lib.Machine.execOk_of_forall (fun _ _ _ => trivial) _) hexec
  obtain ⟨hreturned, haccepted⟩ := Prod.mk.inj hs
  exact ⟨s, _, hrun, hreturned, haccepted, closed_once (by decide) hrun⟩

/-! ### The stop is heeded -/

/-- The steps of the accept loop until it comes to the stop pipe. -/
def stepsTo : List Fd → Nat
  | [] => 5
  | .stopPipe :: _ => 1
  | .server :: fds => stepsTo fds + 2

def Loop.stepsLeft : Loop → Nat
  | .idle | .returned => 0
  | .wait => 4
  | .handle fds => stepsTo fds
  | .notify fds => stepsTo fds + 1

/-- The clients that it can accept before. -/
def acceptsTo : List Fd → Nat
  | [] => 1
  | .stopPipe :: _ => 0
  | .server :: fds => acceptsTo fds + 1

def Loop.acceptsLeft : Loop → Nat
  | .idle | .returned => 0
  | .wait => 1
  | .handle fds | .notify fds => acceptsTo fds

/-- Each descriptor is reported once, and who is in `submit` has pushed a task. -/
structure Accepting (os : List Event) (s : State) : Prop where
  stopped : .stopped ∈ os → s.pipe ≠ 0
  once : ∀ fds, s.loop = .handle fds → fds.Nodup
  pushed : ∀ fds, s.loop = .notify fds → (Fd.server :: fds).Nodup ∧ s.pool.submitting ≠ 0

theorem nodup_ready (s : State) : (ready s).Nodup := by
  unfold ready
  split <;> split <;> decide

theorem stepsTo_le {fds : List Fd} (h : fds.Nodup) : stepsTo fds ≤ 7 ∧ acceptsTo fds ≤ 2 := by
  rcases fds with _ | ⟨_ | _, fds⟩
  · decide
  · rcases fds with _ | ⟨_ | _, fds⟩
    · decide
    · simp at h
    · simp [stepsTo, acceptsTo]
  · simp [stepsTo, acceptsTo]

theorem Accepting.left_le (h : Accepting os s) : s.loop.stepsLeft ≤ 7 ∧ s.loop.acceptsLeft ≤ 2 := by
  cases hloop : s.loop with
  | idle | returned | wait => simp [Loop.stepsLeft, Loop.acceptsLeft]
  | handle fds => exact stepsTo_le (h.once fds hloop)
  | notify fds =>
    have hle := stepsTo_le (h.pushed fds hloop).1
    simp only [stepsTo, acceptsTo] at hle
    simp only [Loop.stepsLeft, Loop.acceptsLeft]
    omega

theorem Accepting.step (h : Accepting os s) (hm : Moves s l u o) : Accepting (os ++ o) u := by
  obtain ⟨hstopped, honce, hpushed⟩ := h
  -- nothing but `stop` shows one, and no step takes a byte out of the pipe
  have hquiet : .stopped ∉ o → .stopped ∈ os ++ o → s.pipe ≠ 0 := by
    intro hnot hmem
    exact hstopped ((List.mem_append.mp hmem).resolve_right hnot)
  cases hm with
  | stop hstop => exact ⟨fun _ => Nat.succ_ne_zero _, honce, hpushed⟩
  | connect hstop => exact ⟨hquiet (by simp), honce, hpushed⟩
  | run hstop hidle => exact ⟨hquiet (by simp), by simp, by simp⟩
  | interrupted hloop => exact ⟨hquiet (by simp), by simp, by simp⟩
  | failed hloop => exact ⟨hquiet (by simp), by simp, by simp⟩
  | again hloop => exact ⟨hquiet (by simp), by simp, by simp⟩
  | heed hloop => exact ⟨hquiet (by simp), by simp, by simp⟩
  | wait hloop hfds =>
    refine ⟨hquiet (by simp), ?_, by simp⟩
    rintro _ ⟨⟩
    rcases hfds with rfl | rfl
    · exact nodup_ready s
    · exact (List.reverse_perm _).nodup_iff.mpr (nodup_ready s)
  | refuse hloop =>
    refine ⟨hquiet (by simp), ?_, by simp⟩
    rintro _ ⟨⟩
    exact (honce _ hloop).of_cons
  | accept hloop =>
    refine ⟨hquiet (by simp), by simp, ?_⟩
    rintro _ ⟨⟩
    exact ⟨honce _ hloop, Nat.succ_ne_zero _⟩
  | notify hloop hsub hws =>
    refine ⟨hquiet (by simp), ?_, by simp⟩
    rintro _ ⟨⟩
    exact (hpushed _ hloop).1.of_cons
  | @serve l i c d o hi hturn hl =>
    refine ⟨hquiet ?_, honce, hpushed⟩
    cases hturn <;> simp
  | @pool l p o hp hstop hl =>
    refine ⟨hquiet ?_, honce, fun fds hfds => ?_⟩
    · rcases hp.shown with rfl | rfl | rfl <;> simp
    · rw [show (State.pool _).submitting = _ from hp.submitting]
      exact hpushed fds hfds

/-- Some step of the loop is possible as long as it has not returned. -/
theorem Accepting.enabled (h : Accepting os s) (hpipe : s.pipe ≠ 0)
    (hactive : s.loop.active = true) : ∃ l, l.byLoop = true ∧ (TcpServer.step s l).isSome := by
  cases hloop : s.loop with
  | idle | returned =>
    rw [hloop] at hactive
    cases hactive
  | wait =>
    refine ⟨.epollWait false, rfl, ?_⟩
    have hready : ready s ≠ [] := by simp [ready, hpipe]
    simp [TcpServer.step, hloop, hready]
  | handle fds =>
    refine ⟨.event false, rfl, ?_⟩
    rcases fds with _ | ⟨_ | _, fds⟩ <;> simp [TcpServer.step, TcpServer.event, hloop]
  | notify fds =>
    have hsub := (h.pushed fds hloop).2
    have hws : ∃ w, (ThreadPool.notifyOne s.pool.workers w).isSome := by
      by_cases hany : s.pool.workers.any Worker.isWaiting
      · obtain ⟨w, hw, hwait⟩ := List.any_eq_true.mp hany
        obtain ⟨i, hi⟩ := List.mem_iff_getElem?.mp hw
        refine ⟨some i, ?_⟩
        cases w with
        | waiting => simp [ThreadPool.notifyOne, hi]
        | _ => cases hwait
      · exact ⟨none, by simp [ThreadPool.notifyOne, hany]⟩
    obtain ⟨w, hw⟩ := hws
    obtain ⟨ws, hws⟩ := Option.isSome_iff_exists.mp hw
    exact ⟨.notify w, rfl, by simp [TcpServer.step, hloop, onPool, ThreadPool.step, hsub, hws]⟩

end HftComponents.Tcp.TcpServer
