import HftComponents.Tcp.Server
import Mathlib.Algebra.Order.BigOperators.Group.List
import Mathlib.Algebra.Order.Group.Nat
import Mathlib.Data.List.TakeWhile

/-!
# Stopping a server

`handle_connection` does not look at the stop.  What ends it is its client, so
`joined_soon` holds where, from the stop on, no client has more than one
complete request left (`OneMore`).  `effort` bounds the steps that are left to
the workers, and each of them lowers it.

`held_up` is about the clients that go on: they are served while the destructor
waits to join their worker, for as long as they like.
-/

namespace HftComponents.Tcp.TcpServer

open Lib.Transfer
open ThreadPool (Worker)

/-! ### What is to hold -/

/-- The complete requests at the front of a stream. -/
def requests (bs : List UInt8) : Nat :=
  match h : recvRequest ⟨bs, [], .eof⟩ with
  | (none, _) => 0
  | (some _, s) => requests s.unread + 1
termination_by bs.length
decreasing_by
  rename_i req
  have hread := (recvFrame_some (recvRequest_some h)).2.1
  have hpos := length_encode_pos req.frame
  show s.unread.length < bs.length
  rw [show bs = req.frame.encode ++ s.unread from hread, List.length_append]
  omega

/-- The connections that have been accepted and are not done with. -/
def live (s : State) : List Conn := s.pool.tasks ++ ThreadPool.inProgress s.pool

/-- The requests that a connection may still be asked to serve. -/
def Conn.left (c : Conn) : Nat :=
  match c.handle with
  | .closed => 0
  | _ => requests c.unread

/-- The client that the accept loop is about to accept. -/
def accepting (s : State) (ok : Bool) : Option (List UInt8 × Ending) :=
  match s.loop with
  | .handle (.server :: _) => if ok then s.backlog.head? else none
  | _ => none

/-- When the stop comes, no connection has more than one complete request left,
and no client that is accepted after it has. -/
def OneMore (s : State) : Label → Prop
  | .stop => ∀ c ∈ live s, c.left ≤ 1
  | .event ok => s.pipe ≠ 0 → ∀ b ∈ accepting s ok, requests b.1 ≤ 1
  | _ => True

instance decidableOneMore (s : State) : ∀ l, Decidable (OneMore s l)
  | .stop => inferInstanceAs (Decidable (∀ c ∈ live s, c.left ≤ 1))
  | .event ok => inferInstanceAs (Decidable (s.pipe ≠ 0 → ∀ b ∈ accepting s ok, requests b.1 ≤ 1))
  | .connect _ _ | .run | .epollWait _ | .epollFail _ | .notify _ | .worker _ | .wakeUp _
  | .recv _ _ | .respond _ _ | .send _ _ | .destroy | .notifyAll | .join => isTrue trivial

/-- What a run shows from the first event `e` on. -/
def since (e : Event) (os : List Event) : List Event := os.dropWhile fun o => o ≠ e

def Event.isCall (id : Nat) : Event → Bool
  | .called id' _ => id' = id
  | _ => false

/-- The starts of the handler for a connection since the stop. -/
def calls (id : Nat) (os : List Event) : Nat := (since .stopped os).countP (Event.isCall id)

/-- The steps of the workers since the destructor has begun. -/
def work (os : List Event) : Nat := (since .destroying os).count .worked

/-- The stop bounds what is left to do. -/
structure Bounded (os : List Event) (s : State) : Prop where
  once : ∀ id, calls id os ≤ 1
  join : .stopped ∈ os → work os ≤ 8 * s.accepted + 2 * s.pool.workers.length

/-! ### What a run shows -/

variable {os o : List Event} {e : Event} {id i : Nat}

theorem since_append_of_mem (h : e ∈ os) (o : List Event) :
    since e (os ++ o) = since e os ++ o := by
  rw [since, List.dropWhile_append, if_neg]
  · rfl
  · intro hempty
    rw [List.isEmpty_iff, List.dropWhile_eq_nil_iff] at hempty
    simpa using hempty e h

theorem since_of_notMem (h : e ∉ os) : since e os = [] := by
  rw [since, List.dropWhile_eq_nil_iff]
  intro o ho
  have hne : o ≠ e := by
    rintro rfl
    exact h ho
  simpa using hne

theorem since_sublist (e : Event) (os : List Event) : (since e os).Sublist os :=
  List.dropWhile_sublist _

theorem calls_of_notMem (h : .stopped ∉ os) (id : Nat) : calls id os = 0 := by
  rw [calls, since_of_notMem h, List.countP_nil]

theorem calls_append_le (id : Nat) (os o : List Event) :
    calls id (os ++ o) ≤ calls id os + o.countP (Event.isCall id) := by
  by_cases h : .stopped ∈ os
  · rw [calls, since_append_of_mem h, List.countP_append, calls]
  · rw [calls_of_notMem h, Nat.zero_add, calls, since, List.dropWhile_append,
      show os.dropWhile _ = [] from since_of_notMem h]
    exact (since_sublist .stopped o).countP_le

theorem calls_concat_le (he : e.isCall id = false) : calls id (os ++ [e]) ≤ calls id os := by
  have happ := calls_append_le id os [e]
  rwa [List.countP_singleton, he] at happ

theorem work_of_notMem (h : .destroying ∉ os) : work os = 0 := by
  rw [work, since_of_notMem h, List.count_nil]

theorem work_append_le (os o : List Event) : work (os ++ o) ≤ work os + o.count .worked := by
  by_cases h : .destroying ∈ os
  · rw [work, since_append_of_mem h, List.count_append, work]
  · rw [work_of_notMem h, Nat.zero_add, work, since, List.dropWhile_append,
      show os.dropWhile _ = [] from since_of_notMem h]
    exact (since_sublist .destroying o).count_le _

/-! ### The work that is left -/

/-- One more than the steps that `handle_connection` may take. -/
def Conn.effort (c : Conn) : Nat :=
  match c.handle with
  | .reading => 3 * c.left + 2
  | .handling _ => 3 * c.left + 4
  | .sending _ => 3 * c.left + 3
  | .closed => 1

def workerEffort : Worker Conn → Nat
  | .waiting => 2
  | .lock => 1
  | .running c | .notifying c => c.effort + 1
  | .returned => 0

/-- The steps that the workers may take once `stop_` is set. -/
def effort (p : ThreadPool.State Conn) : Nat :=
  (p.tasks.map fun c => c.effort + 1).sum + (p.workers.map workerEffort).sum

theorem Conn.effort_le (c : Conn) : c.effort ≤ 3 * c.left + 4 := by
  unfold Conn.effort
  split <;> omega

theorem sum_map_set {α : Type} (f : α → Nat) {l : List α} {a : α} (hi : l[i]? = some a) (b : α) :
    ((l.set i b).map f).sum + f a = (l.map f).sum + f b := by
  induction l generalizing i with
  | nil => cases hi
  | cons c l ih =>
    cases i with
    | zero =>
      obtain rfl := Option.some.inj hi
      simp only [List.set_cons_zero, List.map_cons, List.sum_cons]
      omega
    | succ i =>
      have hrest := ih hi
      simp only [List.set_cons_succ, List.map_cons, List.sum_cons]
      omega

theorem sum_le_of_left {cs : List Conn} (h : ∀ c ∈ cs, c.left ≤ 1) :
    (cs.map fun c => c.effort + 1).sum ≤ 8 * cs.length := by
  induction cs with
  | nil => exact le_rfl
  | cons c cs ih =>
    have hc := h c List.mem_cons_self
    have hrest := ih fun d hd => h d (List.mem_cons_of_mem _ hd)
    have hle := c.effort_le
    simp only [List.map_cons, List.sum_cons, List.length_cons]
    omega

theorem workers_le_of_left {ws : List (Worker Conn)}
    (h : ∀ c ∈ ws.filterMap Worker.task, c.left ≤ 1) :
    (ws.map workerEffort).sum ≤ 8 * (ws.filterMap Worker.task).length + 2 * ws.length := by
  induction ws with
  | nil => exact le_rfl
  | cons w ws ih =>
    have hrest := ih fun c hc => h c (by
      rw [List.filterMap_cons]
      split
      · exact hc
      · exact List.mem_cons_of_mem _ hc)
    cases w with
    | running c | notifying c =>
      have hc := h c (by simp [Worker.task])
      have hle := c.effort_le
      simp only [List.map_cons, List.sum_cons, List.length_cons, workerEffort,
        List.filterMap_cons, Worker.task]
      omega
    | _ =>
      simp only [List.map_cons, List.sum_cons, List.length_cons, workerEffort,
        List.filterMap_cons, Worker.task]
      omega

theorem effort_le {s : State} (h : ∀ c ∈ live s, c.left ≤ 1) :
    effort s.pool ≤ 8 * (live s).length + 2 * s.pool.workers.length := by
  have htasks := sum_le_of_left fun c hc => h c (List.mem_append_left _ hc)
  have hworkers := workers_le_of_left fun c hc => h c (List.mem_append_right _ hc)
  rw [live, List.length_append, effort, ThreadPool.inProgress]
  omega

/-! ### What a connection does -/

theorem requests_of_recv {bs : List UInt8} {answers : List Reply} {ending : Ending}
    {req : Request} {t : Source UInt8} (h : recvRequest ⟨bs, answers, ending⟩ = (some req, t)) :
    requests bs = requests t.unread + 1 := by
  obtain ⟨hfits, hread, -⟩ := recvFrame_some (recvRequest_some h)
  have hclean : Source.Clean (⟨bs, [], .eof⟩ : Source UInt8) := List.not_mem_nil
  obtain ⟨t', ht', hrest, -⟩ := recvFrame_append hclean hfits hread
  rw [requests]
  split
  · rename_i hnone
    rw [recvRequest_none hnone] at ht'
    cases ht'
  · rename_i hsome
    rw [recvRequest_some hsome] at ht'
    obtain ⟨-, rfl⟩ := Prod.mk.inj ht'
    rw [hrest]

/-- A step of `handle_connection`. -/
structure Conn.Moves (c d : Conn) (o : List Event) : Prop where
  id_eq : d.id = c.id
  effort : d.effort < c.effort
  left : o.countP (Event.isCall c.id) + d.left ≤ c.left
  others : ∀ id, id ≠ c.id → o.countP (Event.isCall id) = 0
  marks : .stopped ∉ o ∧ .destroying ∉ o ∧ .worked ∉ o

namespace Conn

variable {c d : Conn}

theorem moves_of_le (hid : d.id = c.id) (heffort : d.effort < c.effort) (hleft : d.left ≤ c.left)
    (ho : o = [] ∨ o = [.closed c.id]) : Moves c d o := by
  refine ⟨hid, heffort, ?_, ?_, ?_⟩
  · rcases ho with rfl | rfl <;> simpa [Event.isCall] using hleft
  · intro id _
    rcases ho with rfl | rfl <;> simp [Event.isCall]
  · rcases ho with rfl | rfl <;> simp

theorem moves_recv {answers : List Reply} (h : c.recv answers = some (d, o)) : Moves c d o := by
  unfold recv at h
  split at h
  · rename_i hc
    have hleft : c.left = requests c.unread := by rw [left, hc]
    have heffort : c.effort = 3 * c.left + 2 := by rw [effort, hc]
    split at h
    · rename_i req t hrecv
      cases h
      have hreq := requests_of_recv hrecv
      refine ⟨rfl, ?_, ?_, ?_, by simp⟩
      · rw [heffort, hleft, hreq]
        show 3 * requests t.unread + 4 < _
        omega
      · rw [hleft, hreq]
        show _ + requests t.unread ≤ _
        simp [Event.isCall]
        omega
      · intro id hid
        simp [Event.isCall, hid.symm]
    · cases h
      refine moves_of_le rfl ?_ (Nat.zero_le _) (Or.inr rfl)
      rw [heffort]
      show 1 < _
      omega
  · cases h

theorem moves_respond {resp : Response} (h : c.respond resp = some (d, o)) : Moves c d o := by
  unfold respond at h
  split at h
  · rename_i req hc
    cases h
    have hleft : c.left = requests c.unread := by rw [left, hc]
    have heffort : c.effort = 3 * c.left + 4 := by rw [effort, hc]
    refine moves_of_le rfl ?_ hleft.ge (Or.inl rfl)
    rw [heffort, hleft]
    exact Nat.lt_succ_self _
  · cases h

theorem moves_send {answers : List Reply} (h : c.send answers = some (d, o)) : Moves c d o := by
  unfold send at h
  split at h
  · rename_i resp hc
    have hleft : c.left = requests c.unread := by rw [left, hc]
    have heffort : c.effort = 3 * c.left + 3 := by rw [effort, hc]
    split at h
    · cases h
      refine moves_of_le rfl ?_ hleft.ge (Or.inl rfl)
      rw [heffort, hleft]
      exact Nat.lt_succ_self _
    · cases h
      refine moves_of_le rfl ?_ (Nat.zero_le _) (Or.inr rfl)
      rw [heffort]
      show 1 < _
      omega
  · cases h

end Conn

/-! ### The invariant -/

structure Ebbs (os : List Event) (s : State) : Prop where
  ids : ((live s).map Conn.id).Nodup
  below : ∀ c ∈ live s, c.id < s.accepted
  size : (live s).length ≤ s.accepted
  stopped : .stopped ∈ os ↔ s.pipe ≠ 0
  destroying : .destroying ∈ os →
    s.pool.stop = true ∧ s.pool.shutdown ≠ .idle ∧ s.loop.active = false
  fresh : ∀ id, s.accepted ≤ id → calls id os = 0
  once : ∀ id, calls id os ≤ 1
  budget : s.pipe ≠ 0 → ∀ c ∈ live s, calls c.id os + c.left ≤ 1
  work : s.pipe ≠ 0 → .destroying ∈ os →
    work os + effort s.pool ≤ 8 * s.accepted + 2 * s.pool.workers.length

open scoped List

variable {s u : State} {l : Label} {c d : Conn}

/-- The connections of `u` are among those of `s`, and what they have done since
is shown by `o`. -/
structure Follows (s u : State) (o : List Event) : Prop where
  ids : ((live u).map Conn.id).Subperm ((live s).map Conn.id)
  left : ∀ d ∈ live u, ∃ c ∈ live s, c.id = d.id ∧ o.countP (Event.isCall d.id) + d.left ≤ c.left
  calls : ∀ id, o.countP (Event.isCall id) ≠ 0 → ∃ d ∈ live u, d.id = id
  marks : .stopped ∉ o ∧ .destroying ∉ o

/-- Steps that show no call and do nothing to a connection that stays. -/
theorem Follows.of_subperm (h : (live u).Subperm (live s)) (ho : o = [] ∨ o = [.worked]) :
    Follows s u o := by
  have hcalls : ∀ id, o.countP (Event.isCall id) = 0 := by
    intro id
    rcases ho with rfl | rfl <;> simp [Event.isCall]
  refine ⟨?_, ?_, ?_, ?_⟩
  · obtain ⟨cs, hperm, hsub⟩ := h
    exact ⟨cs.map Conn.id, hperm.map _, hsub.map _⟩
  · intro d hd
    refine ⟨d, h.subset hd, rfl, ?_⟩
    rw [hcalls, Nat.zero_add]
  · intro id hne
    exact absurd (hcalls id) hne
  · rcases ho with rfl | rfl <;> simp

theorem live_concat (s : State) (c : Conn) :
    ((s.pool.tasks ++ [c]) ++ ThreadPool.inProgress s.pool).Perm (c :: live s) := by
  rw [List.append_assoc]
  exact List.perm_middle

theorem live_set {x y : Worker Conn} {ts : List Conn} (hi : s.pool.workers[i]? = some x) :
    (x.task.toList ++ s.pool.tasks ++
        (ts ++ (s.pool.workers.set i y).filterMap Worker.task)).Perm
      (y.task.toList ++ ts ++ live s) := by
  classical
  have hset := ThreadPool.filterMap_set_perm Worker.task hi y
  rw [List.perm_iff_count] at hset ⊢
  intro c
  have hcount := hset c
  simp only [List.count_append, live, ThreadPool.inProgress] at hcount ⊢
  omega

/-- The connection that a worker serves goes from `c` to `d`. -/
theorem exists_rest (hi : s.pool.workers[i]? = some (.running c)) (d : Conn) :
    ∃ rest, (live s).Perm (c :: rest) ∧
      (s.pool.tasks ++ (s.pool.workers.set i (.running d)).filterMap Worker.task).Perm
        (d :: rest) := by
  have hmem : c ∈ live s := by
    refine List.mem_append_right _ (List.mem_filterMap.mpr ⟨_, List.mem_of_getElem? hi, rfl⟩)
  obtain ⟨xs, ys, hlive⟩ := List.append_of_mem hmem
  have hrest : (live s).Perm (c :: (xs ++ ys)) := hlive ▸ List.perm_middle
  refine ⟨xs ++ ys, hrest, ?_⟩
  have hset := ThreadPool.filterMap_set_perm Worker.task hi (.running d)
  have hall : (c :: (s.pool.tasks ++
      (s.pool.workers.set i (.running d)).filterMap Worker.task)).Perm (d :: live s) :=
    calc c :: (s.pool.tasks ++ (s.pool.workers.set i (.running d)).filterMap Worker.task)
        ~ s.pool.tasks ++ c :: (s.pool.workers.set i (.running d)).filterMap Worker.task :=
          List.perm_middle.symm
      _ ~ s.pool.tasks ++ d :: ThreadPool.inProgress s.pool := hset.append_left _
      _ ~ d :: live s := List.perm_middle
  exact ((hall.trans (hrest.cons d)).trans (List.Perm.swap c d _)).cons_inv

theorem effort_set {x y : Worker Conn} (p : ThreadPool.State Conn)
    (hi : p.workers[i]? = some x) (ts : List Conn) :
    effort { p with tasks := ts, workers := p.workers.set i y } +
        ((p.tasks.map fun c => c.effort + 1).sum + workerEffort x) =
      effort p + ((ts.map fun c => c.effort + 1).sum + workerEffort y) := by
  have hset := sum_map_set workerEffort hi y
  simp only [effort]
  omega

namespace Ebbs

theorem calls_eq_zero (h : Ebbs os s) (hpipe : s.pipe = 0) (id : Nat) : calls id os = 0 :=
  calls_of_notMem (fun hmem => h.stopped.mp hmem hpipe) id

/-- **A step that neither stops nor destroys, and accepts no one.** -/
theorem follow (h : Ebbs os s) (hf : Follows s u o) (haccepted : u.accepted = s.accepted)
    (hpipe : u.pipe = s.pipe)
    (hdestroying : .destroying ∈ os →
      u.pool.stop = true ∧ u.pool.shutdown ≠ .idle ∧ u.loop.active = false)
    (hwork : .destroying ∈ os → o.count .worked + effort u.pool ≤ effort s.pool ∧
      u.pool.workers.length = s.pool.workers.length) : Ebbs (os ++ o) u := by
  obtain ⟨hstopped, hdestroyed⟩ := hf.marks
  have hmem : ∀ e ∉ o, e ∈ os ++ o ↔ e ∈ os := by
    intro e he
    rw [List.mem_append]
    exact or_iff_left he
  have hquiet : s.pipe = 0 → ∀ id, calls id (os ++ o) = 0 := by
    intro hzero id
    apply calls_of_notMem
    rw [hmem _ hstopped, h.stopped]
    exact not_not.mpr hzero
  have hbudget : s.pipe ≠ 0 → ∀ d ∈ live u, calls d.id (os ++ o) + d.left ≤ 1 := by
    intro hne d hd
    obtain ⟨c, hc, hid, hleft⟩ := hf.left d hd
    have hold := h.budget hne c hc
    have happ := calls_append_le d.id os o
    rw [hid] at hold
    omega
  refine ⟨?_, ?_, ?_, ?_, ?_, ?_, ?_, ?_, ?_⟩
  · obtain ⟨ids, hperm, hsub⟩ := hf.ids
    exact hperm.nodup_iff.mp (h.ids.sublist hsub)
  · intro d hd
    obtain ⟨c, hc, hid, -⟩ := hf.left d hd
    rw [haccepted, ← hid]
    exact h.below c hc
  · have hle := hf.ids.length_le
    rw [List.length_map, List.length_map] at hle
    rw [haccepted]
    exact hle.trans h.size
  · rw [hmem _ hstopped, hpipe]
    exact h.stopped
  · rw [hmem _ hdestroyed]
    exact hdestroying
  · intro id hid
    have hzero : o.countP (Event.isCall id) = 0 := by
      by_contra hne
      obtain ⟨d, hd, rfl⟩ := hf.calls id hne
      obtain ⟨c, hc, hid', -⟩ := hf.left d hd
      have hlt := h.below c hc
      omega
    have happ := calls_append_le id os o
    have hold := h.fresh id (haccepted ▸ hid)
    omega
  · intro id
    by_cases hzero : o.countP (Event.isCall id) = 0
    · have happ := calls_append_le id os o
      have hold := h.once id
      omega
    · obtain ⟨d, hd, rfl⟩ := hf.calls id hzero
      by_cases hp : s.pipe = 0
      · rw [hquiet hp]
        exact Nat.zero_le 1
      · exact (Nat.le_add_right _ _).trans (hbudget hp d hd)
  · rw [hpipe]
    exact hbudget
  · intro hne hdest
    rw [hmem _ hdestroyed] at hdest
    obtain ⟨heffort, hlen⟩ := hwork hdest
    have hold := h.work (hpipe ▸ hne) hdest
    have happ := work_append_le os o
    rw [haccepted, hlen]
    omega

theorem not_destroying (h : Ebbs os s) (hs : s.pool.stop = false ∨ s.loop.active = true) :
    .destroying ∉ os := by
  intro hmem
  obtain ⟨hstop, -, hactive⟩ := h.destroying hmem
  rcases hs with hs | hs
  · rw [hs] at hstop
    cases hstop
  · rw [hs] at hactive
    cases hactive

theorem quiet (h : Ebbs os s) (hs : s.pool.stop = false ∨ s.loop.active = true)
    (hlive : (live u).Perm (live s)) (haccepted : u.accepted = s.accepted)
    (hpipe : u.pipe = s.pipe) :
    Ebbs (os ++ []) u :=
  h.follow (.of_subperm hlive.subperm (Or.inl rfl)) haccepted hpipe
    (fun hmem => absurd hmem (h.not_destroying hs)) fun hmem => absurd hmem (h.not_destroying hs)

theorem stop (h : Ebbs os s) (hstop : s.pool.stop = false) (hok : OneMore s .stop) :
    Ebbs (os ++ [.stopped]) { s with pipe := s.pipe + 1 } := by
  have hd := h.not_destroying (Or.inl hstop)
  have hd' : .destroying ∉ os ++ [.stopped] := by simpa using hd
  have hcalls : ∀ id, calls id (os ++ [.stopped]) ≤ calls id os := fun _ => calls_concat_le rfl
  refine ⟨h.ids, h.below, h.size, by simp, fun hmem => absurd hmem hd', ?_, ?_, ?_,
    fun _ hmem => absurd hmem hd'⟩
  · intro id hid
    exact Nat.le_zero.mp ((hcalls id).trans (h.fresh id hid).le)
  · intro id
    exact (hcalls id).trans (h.once id)
  · intro _ c hc
    have hle := hcalls c.id
    by_cases hp : s.pipe = 0
    · have hzero := h.calls_eq_zero hp c.id
      have hone := hok c hc
      omega
    · have hold := h.budget hp c hc
      omega

theorem destroy (h : Ebbs os s) (hactive : s.loop.active = false)
    (hidle : s.pool.shutdown = .idle) :
    Ebbs (os ++ [.destroying])
      { s with pool := { s.pool with stop := true, shutdown := .notifyAll } } := by
  have hd : .destroying ∉ os := fun hmem => (h.destroying hmem).2.1 hidle
  have hcalls : ∀ id, calls id (os ++ [.destroying]) ≤ calls id os := fun _ => calls_concat_le rfl
  refine ⟨h.ids, h.below, h.size, ?_, fun _ => ⟨rfl, by simp, hactive⟩, ?_, ?_, ?_, ?_⟩
  · rw [List.mem_append, h.stopped]
    simp
  · intro id hid
    exact Nat.le_zero.mp ((hcalls id).trans (h.fresh id hid).le)
  · intro id
    exact (hcalls id).trans (h.once id)
  · intro hp c hc
    exact (Nat.add_le_add_right (hcalls c.id) _).trans (h.budget hp c hc)
  · intro hp _
    have hwork := work_append_le os [.destroying]
    have hle : effort s.pool ≤ 8 * (live s).length + 2 * s.pool.workers.length :=
      effort_le fun c hc => (Nat.le_add_left _ _).trans (h.budget hp c hc)
    have hsize := h.size
    rw [work_of_notMem hd] at hwork
    have hzero : TcpServer.work (os ++ [.destroying]) = 0 := by simpa using hwork
    rw [hzero]
    show 0 + effort s.pool ≤ 8 * s.accepted + 2 * s.pool.workers.length
    omega

theorem accept (h : Ebbs os s) (hactive : s.loop.active = true) {input : List UInt8}
    {ending : Ending} {backlog : List (List UInt8 × Ending)}
    (hinput : s.pipe ≠ 0 → requests input ≤ 1) (fds : List Fd) :
    Ebbs (os ++ [.accepted s.accepted])
      { s with
        pool := { s.pool with
          tasks := s.pool.tasks ++ [⟨s.accepted, input, ending, .reading⟩]
          submitting := s.pool.submitting + 1 }
        backlog := backlog
        loop := .notify fds
        accepted := s.accepted + 1 } := by
  have hd := h.not_destroying (Or.inr hactive)
  have hd' : .destroying ∉ os ++ [.accepted s.accepted] := by simpa using hd
  have hcalls : ∀ id, calls id (os ++ [.accepted s.accepted]) ≤ calls id os :=
    fun _ => calls_concat_le rfl
  have hlive := live_concat s ⟨s.accepted, input, ending, .reading⟩
  refine ⟨?_, ?_, ?_, ?_, fun hmem => absurd hmem hd', ?_, ?_, ?_,
    fun _ hmem => absurd hmem hd'⟩
  · refine (hlive.map Conn.id).nodup_iff.mpr (List.nodup_cons.mpr ⟨?_, h.ids⟩)
    intro hmem
    obtain ⟨c, hc, heq⟩ := List.mem_map.mp hmem
    exact (h.below c hc).ne heq
  · intro c hc
    rcases List.mem_cons.mp (hlive.mem_iff.mp hc) with rfl | hc
    · exact Nat.lt_succ_self _
    · exact (h.below c hc).trans (Nat.lt_succ_self _)
  · exact hlive.length_eq.le.trans (Nat.succ_le_succ h.size)
  · rw [List.mem_append, h.stopped]
    simp
  · intro id hid
    exact Nat.le_zero.mp ((hcalls id).trans (h.fresh id (Nat.le_of_succ_le hid)).le)
  · intro id
    exact (hcalls id).trans (h.once id)
  · intro hp c hc
    rcases List.mem_cons.mp (hlive.mem_iff.mp hc) with rfl | hc
    · have hzero := (hcalls s.accepted).trans (h.fresh _ le_rfl).le
      have hone := hinput hp
      show calls s.accepted _ + requests input ≤ 1
      omega
    · exact (Nat.add_le_add_right (hcalls c.id) _).trans (h.budget hp c hc)

/-! #### Workers -/

theorem set {x y : Worker Conn} {ts : List Conn} (h : Ebbs os s)
    (hi : s.pool.workers[i]? = some x)
    (htasks : (y.task.toList ++ ts).Subperm (x.task.toList ++ s.pool.tasks))
    (hwork : .destroying ∈ os → (ts.map fun c => c.effort + 1).sum + workerEffort y <
      (s.pool.tasks.map fun c => c.effort + 1).sum + workerEffort x) :
    Ebbs (os ++ [.worked])
      { s with pool := { s.pool with tasks := ts, workers := s.pool.workers.set i y } } := by
  have hlive : (ts ++ (s.pool.workers.set i y).filterMap Worker.task).Subperm (live s) := by
    have hset := @live_set _ s x y ts hi
    refine (List.subperm_append_left (x.task.toList ++ s.pool.tasks)).mp ?_
    exact hset.subperm.trans ((List.subperm_append_right (live s)).mpr htasks)
  refine h.follow (.of_subperm hlive (Or.inr rfl)) rfl rfl h.destroying ?_
  intro hmem
  have heffort := effort_set (y := y) s.pool hi ts
  have hlt := hwork hmem
  refine ⟨?_, List.length_set ..⟩
  rw [List.count_singleton_self]
  dsimp only at heffort ⊢
  omega

/-- **A step of `handle_connection`.** -/
theorem serve (h : Ebbs os s) (hi : s.pool.workers[i]? = some (.running c))
    (hm : Conn.Moves c d o) :
    Ebbs (os ++ .worked :: o)
      { s with pool := { s.pool with workers := s.pool.workers.set i (.running d) } } := by
  obtain ⟨rest, hrest, hlive⟩ := exists_rest hi d
  have hcount : ∀ id, (Event.worked :: o).countP (Event.isCall id) = o.countP (Event.isCall id) :=
    fun id => List.countP_cons_of_neg (by simp [Event.isCall])
  obtain ⟨hstopped, hdestroying, hworked⟩ := hm.marks
  have hne : ∀ e ∈ rest, e.id ≠ c.id := by
    have hids := ((hrest.map Conn.id).nodup_iff.mp h.ids)
    intro e he heq
    exact (List.nodup_cons.mp hids).1 (List.mem_map.mpr ⟨e, he, heq⟩)
  refine h.follow ⟨?_, ?_, ?_, ?_⟩ rfl rfl h.destroying ?_
  · have hids : (d :: rest).map Conn.id = (c :: rest).map Conn.id := by
      rw [List.map_cons, List.map_cons, hm.id_eq]
    exact ((hlive.map _).trans (hids ▸ (hrest.map _).symm)).subperm
  · intro e he
    rw [hcount]
    rcases List.mem_cons.mp (hlive.mem_iff.mp he) with rfl | he
    · refine ⟨c, hrest.mem_iff.mpr List.mem_cons_self, hm.id_eq.symm, ?_⟩
      rw [hm.id_eq]
      exact hm.left
    · refine ⟨e, hrest.mem_iff.mpr (List.mem_cons_of_mem _ he), rfl, ?_⟩
      rw [hm.others _ (hne e he), Nat.zero_add]
  · intro id hid
    rw [hcount] at hid
    refine ⟨d, hlive.mem_iff.mpr List.mem_cons_self, ?_⟩
    rw [hm.id_eq]
    by_contra hne
    exact hid (hm.others id (Ne.symm hne))
  · simp [hstopped, hdestroying]
  · intro _
    have hset := sum_map_set workerEffort hi (.running d)
    have hlt := hm.effort
    refine ⟨?_, List.length_set ..⟩
    rw [List.count_cons_self, List.count_eq_zero.mpr hworked]
    simp only [workerEffort, effort] at hset ⊢
    omega

theorem lock (h : Ebbs os s) (hi : s.pool.workers[i]? = some .lock) :
    Ebbs (os ++ [.worked]) { s with pool := (ThreadPool.enter s.pool i).1 } := by
  unfold ThreadPool.enter
  split
  · rename_i hpred
    have hstop : s.pool.stop = false := by
      cases hs : s.pool.stop with
      | false => rfl
      | true => simp [hs] at hpred
    exact h.set (y := .waiting) hi (List.Subperm.refl _)
      fun hmem => absurd hmem (h.not_destroying (Or.inl hstop))
  · split
    · exact h.set (y := .returned) hi (List.Subperm.refl _) fun _ => Nat.lt_succ_self _
    · rename_i c ts htasks
      refine h.set (y := .running c) hi ?_ ?_
      · rw [htasks]
        exact List.Subperm.refl _
      · intro _
        rw [htasks]
        simp only [workerEffort, List.map_cons, List.sum_cons]
        omega

theorem worker (h : Ebbs os s) (hw : TcpServer.worker s i = some (u, o)) : Ebbs (os ++ o) u := by
  unfold TcpServer.worker at hw
  split at hw
  · rename_i c hi
    split at hw
    · rename_i hclosed
      simp only [onPool, ThreadPool.step, ThreadPool.work, hi, Option.map_some] at hw
      cases hw
      refine h.set (y := .lock) hi ?_ ?_
      · exact (List.sublist_append_right _ _).subperm
      · intro _
        have heffort : c.effort = 1 := by rw [Conn.effort, hclosed]
        simp only [workerEffort, heffort]
        omega
    · cases hw
  · rename_i hnot
    unfold onPool ThreadPool.step ThreadPool.work at hw
    dsimp only at hw
    split at hw
    · rename_i hi
      cases hw
      exact h.lock hi
    · rename_i c hi
      exact absurd hi (hnot c)
    · cases hw

theorem wakeUp (h : Ebbs os s) (hw : onPool s (.wakeUp i) [.worked] = some (u, o)) :
    Ebbs (os ++ o) u := by
  unfold onPool ThreadPool.step at hw
  dsimp only at hw
  split at hw
  · rename_i hi
    cases hw
    exact h.set (y := .lock) hi (List.Subperm.refl _) fun _ => Nat.lt_succ_self _
  · cases hw

theorem notify (h : Ebbs os s) {fds : List Fd} (hloop : s.loop = .notify fds) {w : Option Nat}
    (hn : onPool s (.notify w) [] = some (u, o)) :
    Ebbs (os ++ []) { u with loop := .handle fds } := by
  have hactive : s.loop.active = true := by rw [hloop]; rfl
  unfold onPool ThreadPool.step at hn
  dsimp only at hn
  split at hn
  · cases hn
  · obtain ⟨p, hp, heq⟩ := Option.map_eq_some_iff.mp hn
    obtain ⟨ws, hws, rfl⟩ := Option.map_eq_some_iff.mp hp
    cases heq
    refine h.quiet (Or.inr hactive) ?_ rfl rfl
    rcases ThreadPool.notifyOne_cases hws with ⟨-, rfl⟩ | ⟨j, hj, rfl⟩
    · exact List.Perm.refl _
    · exact (ThreadPool.filterMap_set_perm Worker.task hj .lock).append_left _

theorem notifyAll (h : Ebbs os s) (hn : onPool s .notifyAll [] = some (u, o)) :
    Ebbs (os ++ o) u := by
  unfold onPool ThreadPool.step at hn
  dsimp only at hn
  split at hn
  · cases hn
    have htask : (s.pool.workers.map Worker.notified).filterMap Worker.task =
        s.pool.workers.filterMap Worker.task := by
      rw [List.filterMap_map]
      refine List.filterMap_congr fun w _ => ?_
      cases w <;> rfl
    have heffort : ∀ w : Worker Conn, workerEffort w.notified ≤ workerEffort w := by
      intro w
      cases w with
      | waiting => exact Nat.le_succ 1
      | _ => exact le_rfl
    refine h.follow (.of_subperm ?_ (Or.inl rfl)) rfl rfl ?_ ?_
    · show (s.pool.tasks ++ (s.pool.workers.map Worker.notified).filterMap Worker.task).Subperm _
      rw [htask]
      exact List.Subperm.refl _
    · intro hmem
      obtain ⟨hstop, -, hactive⟩ := h.destroying hmem
      exact ⟨hstop, by simp, hactive⟩
    · intro _
      refine ⟨?_, List.length_map ..⟩
      simp only [List.count_nil, effort, List.map_map, Nat.zero_add]
      exact Nat.add_le_add_left (List.sum_le_sum fun w _ => heffort w) _
  · cases hn

theorem join (h : Ebbs os s) (hj : onPool s .join [] = some (u, o)) : Ebbs (os ++ o) u := by
  have hsame : ∀ shutdown, shutdown ≠ .idle →
      Ebbs (os ++ []) { s with pool := { s.pool with shutdown := shutdown } } := by
    intro shutdown hne
    refine h.follow (.of_subperm (List.Subperm.refl _) (Or.inl rfl)) rfl rfl ?_ ?_
    · intro hmem
      obtain ⟨hstop, -, hactive⟩ := h.destroying hmem
      exact ⟨hstop, hne, hactive⟩
    · intro _
      exact ⟨(Nat.zero_add _).le, rfl⟩
  unfold onPool ThreadPool.step ThreadPool.join at hj
  dsimp only at hj
  split at hj
  · split at hj
    · cases hj
      exact hsame _ (by simp)
    · cases hj
    · cases hj
      exact hsame _ (by simp)
  · cases hj

theorem event {ok : Bool} (h : Ebbs os s) (hok : OneMore s (.event ok))
    (he : TcpServer.event s ok = some (u, o)) : Ebbs (os ++ o) u := by
  have hactive : ∀ {fds}, s.loop = .handle fds → s.loop.active = true := by
    intro fds hloop
    rw [hloop]
    rfl
  unfold TcpServer.event at he
  split at he
  · rename_i hloop
    cases he
    exact h.quiet (Or.inr (hactive hloop)) (List.Perm.refl _) rfl rfl
  · rename_i fds hloop
    cases he
    exact h.quiet (Or.inr (hactive hloop)) (List.Perm.refl _) rfl rfl
  · rename_i fds hloop
    split at he
    · cases he
      exact h.quiet (Or.inr (hactive hloop)) (List.Perm.refl _) rfl rfl
    · rename_i htrue
      split at he
      · cases he
      · rename_i input ending backlog hbacklog
        cases he
        refine h.accept (hactive hloop) ?_ fds
        intro hp
        exact hok hp (input, ending) (by simpa [accepting, hloop, hbacklog] using htrue)
  · cases he

theorem serve_step {f : Conn → Option (Conn × List Event)} (h : Ebbs os s)
    (hf : ∀ c d o, f c = some (d, o) → Conn.Moves c d o)
    (hs : TcpServer.serve s i f = some (u, o)) : Ebbs (os ++ o) u := by
  unfold TcpServer.serve at hs
  split at hs
  · rename_i c hi
    obtain ⟨⟨d, o'⟩, hd, heq⟩ := Option.map_eq_some_iff.mp hs
    cases heq
    exact h.serve hi (hf c d o' hd)
  · cases hs

/-- **One step.** -/
theorem step (h : Ebbs os s) (hok : OneMore s l) (hstep : step s l = some (u, o)) :
    Ebbs (os ++ o) u := by
  cases l with
  | connect input ending =>
    simp only [TcpServer.step] at hstep
    split at hstep
    · cases hstep
    · rename_i hstop
      cases hstep
      exact h.quiet (Or.inl (Bool.eq_false_iff.mpr hstop)) (List.Perm.refl _) rfl rfl
  | run =>
    simp only [TcpServer.step] at hstep
    split at hstep
    · cases hstep
    · rename_i hguard
      cases hstep
      have hstop : s.pool.stop = false := by
        cases hs : s.pool.stop with
        | false => rfl
        | true => simp [hs] at hguard
      exact h.quiet (Or.inl hstop) (List.Perm.refl _) rfl rfl
  | stop =>
    simp only [TcpServer.step] at hstep
    split at hstep
    · cases hstep
    · rename_i hstop
      cases hstep
      exact h.stop (Bool.eq_false_iff.mpr hstop) hok
  | epollWait swap =>
    simp only [TcpServer.step] at hstep
    split at hstep
    · rename_i hloop
      split at hstep
      · cases hstep
      · cases hstep
        exact h.quiet (Or.inr (by rw [hloop]; rfl)) (List.Perm.refl _) rfl rfl
    · cases hstep
  | epollFail interrupted =>
    simp only [TcpServer.step] at hstep
    split at hstep
    · rename_i hloop
      cases hstep
      exact h.quiet (Or.inr (by rw [hloop]; rfl)) (List.Perm.refl _) rfl rfl
    · cases hstep
  | event ok => exact h.event hok hstep
  | notify w =>
    simp only [TcpServer.step] at hstep
    split at hstep
    · rename_i fds hloop
      obtain ⟨⟨t, o'⟩, hn, heq⟩ := Option.map_eq_some_iff.mp hstep
      cases heq
      exact h.notify hloop hn
    · cases hstep
  | worker i => exact h.worker hstep
  | wakeUp i => exact h.wakeUp hstep
  | recv i answers => exact h.serve_step (fun _ _ _ => Conn.moves_recv) hstep
  | respond i resp => exact h.serve_step (fun _ _ _ => Conn.moves_respond) hstep
  | send i answers => exact h.serve_step (fun _ _ _ => Conn.moves_send) hstep
  | destroy =>
    simp only [TcpServer.step] at hstep
    split at hstep
    · cases hstep
    · rename_i hactive
      unfold onPool ThreadPool.step at hstep
      dsimp only at hstep
      split at hstep
      · rename_i hidle
        cases hstep
        exact h.destroy (Bool.eq_false_iff.mpr hactive) hidle
      · cases hstep
  | notifyAll => exact h.notifyAll hstep
  | join => exact h.join hstep

end Ebbs

/-! ### Every interleaving -/

theorem ebbs_init (numWorkers : Nat) : Ebbs [] (init numWorkers) := by
  have hlive : live (init numWorkers) = [] := by
    simp [live, init, ThreadPool.inProgress, ThreadPool.init, Worker.task]
  refine ⟨?_, ?_, ?_, by simp [init], fun h => absurd h List.not_mem_nil, fun _ _ => rfl,
    fun _ => Nat.zero_le 1, ?_, fun _ h => absurd h List.not_mem_nil⟩
  · rw [hlive]
    exact List.nodup_nil
  · intro c hc
    rw [hlive] at hc
    exact absurd hc List.not_mem_nil
  · rw [hlive]
    exact Nat.zero_le _
  · intro _ c hc
    rw [hlive] at hc
    exact absurd hc List.not_mem_nil

/-- **A stop bounds what is left to do,** in every run in which no client has more
than one complete request left when it comes: each connection starts the handler
once more at most, and the destructor waits for boundedly many steps. -/
theorem joined_soon {numWorkers : Nat}
    (h : Lib.Machine.Run machine OneMore (init numWorkers) os s) : Bounded os s := by
  have hs : Ebbs os s := by
    refine h.invariant (P := Ebbs) (ebbs_init numWorkers) ?_
    intro os t l u o ht hok hstep
    exact ht.step hok hstep
  refine ⟨hs.once, ?_⟩
  intro hstopped
  by_cases hmem : .destroying ∈ os
  · have hwork := hs.work (hs.stopped.mp hstopped) hmem
    omega
  · rw [work_of_notMem hmem]
    exact Nat.zero_le _

def aRequest : Request := ⟨9, 1, []⟩

/-- The labels of a run in which a client connects and is served, the server is
stopped, and its destructor gets to the join of the only worker. -/
def untilJoin (input : List UInt8) : List Label :=
  [.connect input .eof, .run, .epollWait false, .event true, .notify none, .worker 0, .stop,
    .event true, .epollWait false, .event true, .destroy, .notifyAll]

/-- A request is read, handled and answered. -/
def aRound : List Label := [.recv 0 [.upTo 3], .respond 0 ⟨9, ⟨0⟩, []⟩, .send 0 [.upTo 7]]

/-- One request is left when the stop comes, and the destructor returns. -/
theorem joined_soon_once :
    ∃ s os, Lib.Machine.Run machine OneMore (init 1) os s ∧
      s.pool.shutdown = .returned ∧ .stopped ∈ os ∧ calls 0 os = 1 ∧ work os = 6 ∧
      Bounded os s := by
  obtain ⟨ls, hok, hexec⟩ : ∃ ls, machine.ExecOk OneMore (init 1) ls ∧
      (machine.exec (init 1) ls).map (fun q => (q.1.pool.shutdown, q.2)) =
        some (.returned, [.accepted 0, .worked, .stopped, .destroying, .worked, .called 0 aRequest,
          .worked, .worked, .worked, .closed 0, .worked, .worked]) := by
    let toTheEnd : List Label := [.recv 0 [], .worker 0, .worker 0, .join, .join]
    refine ⟨untilJoin aRequest.encode ++ aRound ++ toTheEnd, ?_, ?_⟩
    · decide +kernel
    · decide +kernel
  obtain ⟨s, hrun, hreturned⟩ :=
    Lib.Machine.exists_run_of_exec (fun s : State => s.pool.shutdown) hok hexec
  exact ⟨s, _, hrun, hreturned, by decide, by decide, by decide, joined_soon hrun⟩

/-! ### Clients that go on -/

/-- The destructor waits to join the only worker, which serves a client. -/
def joining (input : List UInt8) : State where
  pool := { stop := true, workers := [.running ⟨0, input, .eof, .reading⟩], shutdown := .join 0 }
  pipe := 1
  loop := .returned
  accepted := 1

theorem run_joining (input : List UInt8) :
    Lib.Machine.Run machine Lib.Machine.anyStep (init 1)
      [.accepted 0, .worked, .stopped, .destroying] (joining input) := by
  have hexec : machine.exec (init 1) (untilJoin input) =
      some (joining input, [.accepted 0, .worked, .stopped, .destroying]) := rfl
  exact Lib.Machine.run_of_exec_any hexec

theorem recv_aRequest (rest : List UInt8) :
    (⟨0, aRequest.encode ++ rest, .eof, .reading⟩ : Conn).recv [] =
      some (⟨0, rest, .eof, .handling aRequest⟩, [.called 0 aRequest]) := by
  have hclean : Source.Clean (⟨aRequest.encode ++ rest, [], .eof⟩ : Source UInt8) :=
    List.not_mem_nil
  have hfits : aRequest.frame.Fits := by decide
  obtain ⟨t, ht, hrest, -⟩ := recvFrame_append hclean hfits rfl
  have hrecv : recvRequest ⟨aRequest.encode ++ rest, [], .eof⟩ = (some aRequest, t) := by
    rw [recvRequest, ht]
    rfl
  simp [Conn.recv, hrecv, hrest]

theorem send_clean (c : Conn) {resp : Response} (hc : c.handle = .sending resp)
    (hfits : resp.frame.Fits) : c.send [] = some ({ c with handle := .reading }, []) := by
  have hclean : Sink.Clean (⟨[], []⟩ : Sink UInt8) := List.not_mem_nil
  obtain ⟨v, hv, -⟩ := sendFrame_of_fits hclean hfits
  have hsend : sendResponse ⟨[], []⟩ resp = (true, v) := hv
  simp [Conn.send, hc, hsend]

theorem run_round (rest : List UInt8) :
    Lib.Machine.Run machine Lib.Machine.anyStep (joining (aRequest.encode ++ rest))
      [.worked, .called 0 aRequest, .worked, .worked] (joining rest) := by
  have hrecv := recv_aRequest rest
  have hsend := send_clean ⟨0, rest, .eof, .sending ⟨9, ⟨0⟩, []⟩⟩ rfl (by decide)
  have hexec : machine.exec (joining (aRequest.encode ++ rest))
      [.recv 0 [], .respond 0 ⟨9, ⟨0⟩, []⟩, .send 0 []] =
        some (joining rest, [.worked, .called 0 aRequest, .worked, .worked]) := by
    simp [Lib.Machine.exec, machine, step, serve, joining, hrecv, hsend, Conn.respond]
  exact Lib.Machine.run_of_exec_any hexec

theorem run_rounds (n : Nat) :
    ∃ os, Lib.Machine.Run machine Lib.Machine.anyStep
        (joining ((List.replicate n aRequest).flatMap Request.encode)) os (joining []) ∧
      os.countP (Event.isCall 0) = n := by
  induction n with
  | zero => exact ⟨[], .refl _, rfl⟩
  | succ n ih =>
    obtain ⟨os, hrun, hcount⟩ := ih
    rw [List.replicate_succ, List.flatMap_cons]
    refine ⟨_, (run_round _).trans hrun, ?_⟩
    simp [Event.isCall, hcount]

/-- However often: `n` requests are served while the destructor waits, and it
still does. -/
theorem exists_run_held (n : Nat) :
    ∃ os, Lib.Machine.Run machine Lib.Machine.anyStep (init 1) os (joining []) ∧
      calls 0 os = n := by
  obtain ⟨os, hrun, hcount⟩ := run_rounds n
  refine ⟨_, (run_joining _).trans hrun, ?_⟩
  rw [calls, since_append_of_mem (by simp), List.countP_append, hcount]
  simp [since, Event.isCall]

/-- Two requests are served after the stop, and there is no number that is never
exceeded: the destructor waits as long as the client goes on. -/
theorem held_up :
    (∃ s os, Lib.Machine.Run machine Lib.Machine.anyStep (init 1) os s ∧ .stopped ∈ os ∧
      calls 0 os = 2 ∧ s.pool.shutdown = .join 0 ∧ ¬ Bounded os s) ∧
    ¬ ∃ bound, ∀ s os, Lib.Machine.Run machine Lib.Machine.anyStep (init 1) os s →
      calls 0 os ≤ bound := by
  refine ⟨?_, ?_⟩
  · obtain ⟨os, hrun, hcalls⟩ := exists_run_held 2
    refine ⟨_, os, hrun, ?_, hcalls, rfl, ?_⟩
    · by_contra hmem
      rw [calls_of_notMem hmem] at hcalls
      cases hcalls
    · intro hb
      have hone := hb.once 0
      omega
  · rintro ⟨bound, hbound⟩
    obtain ⟨os, hrun, hcalls⟩ := exists_run_held (bound + 1)
    have hle := hbound _ os hrun
    omega

end HftComponents.Tcp.TcpServer
