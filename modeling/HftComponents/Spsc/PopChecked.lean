import HftComponents.Spsc.Recovery

/-!
# The blocking pop and a dead producer

`Consumer::pop_checked` repeats `try_pop` while it returns 0, and after every
`check_every`-th failure asks whether the producer is dead.  If so it gives up.

The two samples are taken one after the other: first the ring is empty, then
the producer is dead.  What the producer publishes in between, it publishes
unseen, and `unread_of_dead` is such a run.  `drained_of_dead` needs that no
producer exits so (`ExitsSeen`); then a ring that was empty when it was looked
at is still empty when the death is seen, since `write_pos` no longer moves.

`PeerStatus` is what `kill(pid, 0)` makes of it: the producer is registered from
the start, and dead exactly when it has exited.
-/

namespace HftComponents.Spsc.PopChecked

open Lib.Ring
open Recovery (Life Account Agrees Moves Delivers)

/-! ### The machine -/

inductive PeerStatus
  | alive
  | dead
  | unknown
  deriving DecidableEq, Repr

def producerStatus (s : Recovery.State) : PeerStatus :=
  match s.prod with
  | .dead => .dead
  | _ => .alive

/-- The arguments of `pop_checked`, and how many attempts have failed; the `int` that
counts them, and where it overflows, is in `Liveness`. -/
structure Attempts where
  bufSize : UInt32
  checkEvery : Nat
  spins : Nat := 0

/-- Where the consumer is in `pop_checked`: about to call `try_pop`, in it, or
about to call `producer_status`. -/
inductive Call
  | idle
  | attempt (p : Attempts)
  | trying (p : Attempts)
  | status (p : Attempts)

structure State where
  bus : Recovery.State
  call : Call := .idle

inductive Label
  | tryPush (msg : List UInt8)
  | producer
  | exit
  | popChecked (bufSize : UInt32) (checkEvery : Nat)
  | consumer

/-- `published` and `rejected` are of the producer; `pop_checked` has returned
a message, or 0 with `*peer_dead` set. -/
inductive Event
  | published (msg : List UInt8)
  | rejected
  | returned (bufSize msgSz : UInt32) (out : List UInt8)
  | peerDead
  deriving DecidableEq, Repr

/-- A `try_pop` that returns 0 is not seen outside. -/
def shown : Recovery.Event → List Event
  | .pushed msg => [.published msg]
  | .full | .refused => [.rejected]
  | .popped bufSize msgSz out => if msgSz = 0 then [] else [.returned bufSize msgSz out]
  | .abandoned _ _ _ | .empty => []

/-- `++spins % check_every == 0`. -/
def Attempts.failed (p : Attempts) : Call :=
  let p := { p with spins := p.spins + 1 }
  if p.spins % p.checkEvery = 0 then .status p else .attempt p

/-- What follows a step of `try_pop` that has shown `o`. -/
def Attempts.after (p : Attempts) : List Recovery.Event → Call
  | [] => .trying p
  | .popped _ msgSz _ :: _ => if msgSz = 0 then p.failed else .idle
  | _ => p.failed

def onBus (s : State) (l : Recovery.Label) (next : List Recovery.Event → Call) :
    Option (State × List Event) :=
  (Recovery.step s.bus l).map fun p => (⟨p.1, next p.2⟩, p.2.flatMap shown)

def step (s : State) : Label → Option (State × List Event)
  | .tryPush msg => onBus s (.tryPush msg) fun _ => s.call
  | .producer => onBus s .producer fun _ => s.call
  | .exit => onBus s .killProducer fun _ => s.call
  | .popChecked bufSize checkEvery =>
    match s.call with
    | .idle =>
      if checkEvery = 0 then none
      else some ({ s with call := .attempt ⟨bufSize, checkEvery, 0⟩ }, [])
    | _ => none
  | .consumer =>
    match s.call with
    | .idle => none
    | .attempt p => onBus s (.tryPop p.bufSize) fun _ => .trying p
    | .trying p => onBus s .consumer p.after
    | .status p =>
      if producerStatus s.bus = .dead then some ({ s with call := .idle }, [.peerDead])
      else some ({ s with call := .attempt p }, [])

def machine : Lib.Machine State Label Event := ⟨step⟩

/-- Both parties are attached to a fresh bus. -/
def init (seg : Segment) : State := { bus := { bus := Bus.init seg, prod := .up, cons := .up } }

/-! ### The runs in question -/

/-- Messages of size 0 are not pushed: `try_pop` returns 0 for them. -/
def Nonempty (_ : State) : Label → Prop
  | .tryPush msg => msg ≠ []
  | _ => True

/-- Nothing has been published since the failed attempt. -/
def Call.Seen (b : Bus.State) : Call → Prop
  | .status _ => b.cons.writeCache = b.seg.cb.writePos
  | _ => True

/-- The producer does not exit between an attempt that found the ring empty and
the call of `producer_status` after it, with a message published in between. -/
def ExitsSeen (s : State) : Label → Prop
  | .exit => s.call.Seen s.bus.bus
  | _ => True

instance decidableNonempty (s : State) : ∀ l, Decidable (Nonempty s l)
  | .tryPush msg => inferInstanceAs (Decidable (msg ≠ []))
  | .producer | .exit | .popChecked _ _ | .consumer => isTrue trivial

instance decidableSeen (b : Bus.State) : ∀ call : Call, Decidable (call.Seen b)
  | .status _ => inferInstanceAs (Decidable (b.cons.writeCache = b.seg.cb.writePos))
  | .idle | .attempt _ | .trying _ => isTrue trivial

instance decidableExitsSeen (s : State) : ∀ l, Decidable (ExitsSeen s l)
  | .exit => inferInstanceAs (Decidable (s.call.Seen s.bus.bus))
  | .tryPush _ | .producer | .popChecked _ _ | .consumer => isTrue trivial

/-! ### The specification -/

/-- Messages are returned in order, and when a death is reported none is left. -/
inductive Watches : Account → Event → Account → Prop
  | published {a : Account} {msg : List UInt8} :
      Watches a (.published msg) { a with published := a.published ++ [msg] }
  | rejected {a : Account} : Watches a .rejected a
  | returned {a : Account} {bufSize n : UInt32} {out msg : List UInt8}
      (hget : a.published[a.next]? = some msg) (hsize : n.toNat = msg.length)
      (hout : out = msg.take bufSize.toNat) :
      Watches a (.returned bufSize n out) { a with next := a.next + 1 }
  | peerDead {a : Account} (hall : a.next = a.published.length) : Watches a .peerDead a

/-! ### The invariant -/

def pushing : Bus.Push → Option (List UInt8)
  | .idle => none
  | .reload msg | .setSize msg | .copy msg _ => some msg

/-- A call of `producer_status` to come has been preceded by a look at an empty
ring, and by one at the last of the ring if the producer is dead. -/
structure Watch (capacity : UInt32) (a : Account) (s : State) : Prop where
  agrees : Agrees capacity a s.bus
  nonempty : ∀ msg ∈ a.published, msg ≠ []
  pushing : ∀ msg, pushing s.bus.bus.push = some msg → msg ≠ []
  status : ∀ p, s.call = .status p →
    s.bus.bus.cons.readPos = s.bus.bus.cons.writeCache ∧
      (s.bus.prod = .dead → s.bus.bus.cons.writeCache = s.bus.bus.seg.cb.writePos)

variable {s u : State} {l : Label} {o os : List Event} {a a' : Account} {c : UInt32}
  {t : Recovery.State} {o' : List Recovery.Event}

theorem onBus_eq {k : Recovery.Label} {next : List Recovery.Event → Call}
    (h : onBus s k next = some (u, o)) :
    ∃ t o', Moves s.bus k t o' ∧ u = ⟨t, next o'⟩ ∧ o = o'.flatMap shown := by
  obtain ⟨⟨t, o'⟩, ht, heq⟩ := Option.map_eq_some_iff.mp h
  obtain ⟨rfl, rfl⟩ := Prod.mk.inj heq
  exact ⟨t, o', Recovery.step_moves ht, rfl, rfl⟩

theorem ne_zero_of_size {n : UInt32} {msg : List UInt8} (hne : msg ≠ [])
    (hsize : n.toNat = msg.length) : n ≠ 0 := by
  rintro rfl
  exact hne (List.length_eq_zero_iff.mp hsize.symm)

theorem dead_of_status {b : Recovery.State} (h : producerStatus b = .dead) : b.prod = .dead := by
  unfold producerStatus at h
  split at h
  · assumption
  · cases h

/-- What the bus shows, an observer of `pop_checked` sees the like of. -/
theorem accepts_shown (hacc : Lib.Machine.Accepts (Delivers c) a o' a')
    (hne : ∀ msg ∈ a'.published, msg ≠ []) :
    Lib.Machine.Accepts Watches a (o'.flatMap shown) a' := by
  induction hacc with
  | nil => exact .nil a
  | @snoc b d os e prior he ih =>
    have hb : ∀ msg ∈ b.published, msg ≠ [] := by
      cases he with
      | pushed _ =>
        intro msg hm
        exact hne msg (List.mem_append_left _ hm)
      | _ => exact hne
    rw [List.flatMap_append, List.flatMap_singleton]
    refine (ih hb).trans ?_
    cases he with
    | pushed _ => exact .single .published
    | full _ => exact .single .rejected
    | refused => exact .single .rejected
    | popped hget hsize hout =>
      rw [shown, if_neg (ne_zero_of_size (hb _ (List.mem_of_getElem? hget)) hsize)]
      exact .single (.returned hget hsize hout)
    | abandoned _ _ _ => exact .nil _
    | empty _ => exact .nil _

theorem mem_published (hacc : Lib.Machine.Accepts (Delivers c) a o' a') {msg : List UInt8}
    (hm : msg ∈ a'.published) : msg ∈ a.published ∨ .pushed msg ∈ o' := by
  induction hacc with
  | nil => exact Or.inl hm
  | @snoc b d os e prior he ih =>
    cases he with
    | pushed _ =>
      rcases List.mem_append.mp hm with hm | hm
      · exact (ih hm).imp_right (List.mem_append_left _)
      · rw [List.mem_singleton.mp hm]
        exact Or.inr (List.mem_append_right _ List.mem_cons_self)
    | _ => exact (ih hm).imp_right (List.mem_append_left _)

theorem pushing_pushMoves {b v : Bus.State} {x : Option (List UInt8)} {o : List Bus.Event}
    (hm : Bus.PushMoves b x v o) :
    (∀ msg, pushing v.push = some msg → pushing b.push = some msg ∨ x = some msg) ∧
      ∀ msg, .pushed msg ∈ o → pushing b.push = some msg := by
  cases hm with
  | refused hp _ => simp [pushing, hp]
  | look hp _ _ | start hp _ _ => simp [pushing, hp]
  | full hp _ | reload hp _ | pushed hp _ | setByte hp _ => simp [pushing, hp]
  | setSize hp => simp [pushing, hp]

theorem pushed_mem_shown {n : UInt32} {o : List Bus.Event} {msg : List UInt8}
    (h : .pushed msg ∈ o.map (Recovery.shown n)) : .pushed msg ∈ o := by
  obtain ⟨e, he, heq⟩ := List.mem_map.mp h
  cases e with
  | pushed m =>
    obtain rfl := Recovery.Event.pushed.inj heq
    exact he
  | _ => cases heq

theorem quiet_popMoves {b v : Bus.State} {x : Option UInt32} {o : List Bus.Event}
    (hm : Bus.PopMoves b x v o) : v.push = b.push ∧ ∀ msg, .pushed msg ∉ o := by
  cases hm <;> simp

/-- The message of a push is the one that the call was given. -/
theorem pushing_moves {b : Recovery.State} {k : Recovery.Label} (hm : Moves b k t o') :
    (∀ msg, pushing t.bus.push = some msg →
      pushing b.bus.push = some msg ∨ k = .tryPush msg) ∧
      ∀ msg, .pushed msg ∈ o' → pushing b.bus.push = some msg := by
  cases hm with
  | tryPush _ hm =>
    obtain ⟨hnext, hpushed⟩ := pushing_pushMoves hm
    refine ⟨fun msg hmsg => (hnext msg hmsg).imp_right ?_, ?_⟩
    · intro heq
      rw [Option.some.inj heq]
    · exact fun msg hmsg => hpushed msg (pushed_mem_shown hmsg)
  | push _ hm =>
    obtain ⟨hnext, hpushed⟩ := pushing_pushMoves hm
    refine ⟨fun msg hmsg => (hnext msg hmsg).imp_right nofun, ?_⟩
    exact fun msg hmsg => hpushed msg (pushed_mem_shown hmsg)
  | tryPop _ hm | pop _ hm =>
    obtain ⟨hpush, hnone⟩ := quiet_popMoves hm
    refine ⟨fun msg hmsg => Or.inl (hpush ▸ hmsg), ?_⟩
    exact fun msg hmsg => absurd (pushed_mem_shown hmsg) (hnone msg)
  | killProducer => exact ⟨nofun, nofun⟩
  | killConsumer =>
    refine ⟨fun msg hmsg => Or.inl hmsg, ?_⟩
    intro msg hmsg
    cases hp : b.bus.pop with
    | copy _ _ _ => simp [Recovery.abandons, hp] at hmsg
    | _ => simp [Recovery.abandons, hp] at hmsg
  | _ => exact ⟨fun msg hmsg => Or.inl hmsg, nofun⟩

namespace Watch

theorem inner {k : Recovery.Label} {next : Call} (h : Watch c a s) (hm : Moves s.bus k t o')
    (hk : ∀ msg, k = .tryPush msg → msg ≠ [])
    (hstatus : ∀ p, next = .status p → t.bus.cons.readPos = t.bus.cons.writeCache ∧
      (t.prod = .dead → t.bus.cons.writeCache = t.bus.seg.cb.writePos)) :
    ∃ a', Lib.Machine.Accepts Watches a (o'.flatMap shown) a' ∧ Watch c a' ⟨t, next⟩ := by
  obtain ⟨a', hacc, hagrees⟩ := h.agrees.step hm
  obtain ⟨hpushing, hpushed⟩ := pushing_moves hm
  have hne : ∀ msg ∈ a'.published, msg ≠ [] := by
    intro msg hmsg
    rcases mem_published hacc hmsg with hold | hnew
    · exact h.nonempty msg hold
    · exact h.pushing msg (hpushed msg hnew)
  refine ⟨a', accepts_shown hacc hne, hagrees, hne, ?_, hstatus⟩
  intro msg hmsg
  rcases hpushing msg hmsg with hold | hcall
  · exact h.pushing msg hold
  · exact hk msg hcall

theorem producer {k : Recovery.Label} (h : Watch c a s) (hm : Moves s.bus k t o')
    (hk : ∀ msg, k = .tryPush msg → msg ≠ []) (hprod : t.prod = .up)
    (hcons : t.bus.cons = s.bus.bus.cons) :
    ∃ a', Lib.Machine.Accepts Watches a (o'.flatMap shown) a' ∧ Watch c a' ⟨t, s.call⟩ := by
  refine h.inner hm hk ?_
  intro p hp
  rw [hcons, hprod]
  exact ⟨(h.status p hp).1, nofun⟩

/-- The end of a failed attempt: the ring was empty. -/
theorem attempt {p q : Attempts} (h : Watch c a s) (hm : Moves s.bus .consumer t o')
    (hnext : p.after o' = .status q) :
    t.bus.cons.readPos = t.bus.cons.writeCache ∧
      t.bus.cons.writeCache = t.bus.seg.cb.writePos := by
  have hq := h.agrees.sound.queue
  cases hm with
  | pop hup hm =>
    cases hm with
    | empty hp hempty =>
      refine ⟨?_, rfl⟩
      rw [show s.bus.bus.seg.cb.writePos = s.bus.bus.prod.writePos from hq.writePos] at hempty ⊢
      exact ((Bus.empty_iff hq.order hq.room).mp hempty).symm
    | popped hp hle =>
      -- a message of size 0 would be a failed attempt that is not one
      have hcopying := h.agrees.sound.copying
      rw [hp] at hcopying
      obtain ⟨-, msg, hget, rfl, -⟩ := hcopying
      have hm := List.mem_of_getElem? hget
      have hsize := ne_zero_of_size (h.nonempty msg hm) (h.agrees.sound.toNat_length hm)
      simp [Attempts.after, Recovery.shown, hsize] at hnext
    | _ => cases hnext

/-- **One step.** -/
theorem step (h : Watch c a s) (hne : Nonempty s l) (hok : ExitsSeen s l)
    (hstep : step s l = some (u, o)) :
    ∃ a', Lib.Machine.Accepts Watches a o a' ∧ Watch c a' u := by
  unfold PopChecked.step at hstep
  cases l with
  | tryPush msg =>
    obtain ⟨t, o', hm, rfl, rfl⟩ := onBus_eq hstep
    have hk : ∀ m, Recovery.Label.tryPush msg = .tryPush m → m ≠ [] := by
      intro m heq
      obtain rfl := Recovery.Label.tryPush.inj heq
      exact hne
    cases hm with
    | tryPush hup hm => exact h.producer (.tryPush hup hm) hk hup hm.cons_eq
  | producer =>
    obtain ⟨t, o', hm, rfl, rfl⟩ := onBus_eq hstep
    cases hm with
    | push hup hm => exact h.producer (.push hup hm) nofun hup hm.cons_eq
  | exit =>
    obtain ⟨t, o', hm, rfl, rfl⟩ := onBus_eq hstep
    refine h.inner hm nofun ?_
    cases hm with
    | killProducer =>
      intro p hp
      refine ⟨(h.status p hp).1, fun _ => ?_⟩
      rw [ExitsSeen, hp] at hok
      exact hok
  | popChecked bufSize checkEvery =>
    dsimp only at hstep
    split at hstep
    · split at hstep
      · cases hstep
      · obtain ⟨rfl, rfl⟩ := Prod.mk.inj (Option.some.inj hstep)
        exact ⟨a, .nil a, h.agrees, h.nonempty, h.pushing, nofun⟩
    · cases hstep
  | consumer =>
    dsimp only at hstep
    split at hstep
    · cases hstep
    · obtain ⟨t, o', hm, rfl, rfl⟩ := onBus_eq hstep
      exact h.inner hm nofun nofun
    · obtain ⟨t, o', hm, rfl, rfl⟩ := onBus_eq hstep
      refine h.inner hm nofun ?_
      intro q hq
      obtain ⟨hempty, hlast⟩ := h.attempt hm hq
      exact ⟨hempty, fun _ => hlast⟩
    · rename_i p hp
      split at hstep
      · rename_i hdead
        obtain ⟨rfl, rfl⟩ := Prod.mk.inj (Option.some.inj hstep)
        refine ⟨a, .single (.peerDead ?_), h.agrees, h.nonempty, h.pushing, nofun⟩
        obtain ⟨hempty, hlast⟩ := h.status p hp
        rw [h.agrees.next, hempty, hlast (dead_of_status hdead), h.agrees.sound.queue.count]
        exact h.agrees.sound.queue.writePos
      · obtain ⟨rfl, rfl⟩ := Prod.mk.inj (Option.some.inj hstep)
        exact ⟨a, .nil a, h.agrees, h.nonempty, h.pushing, nofun⟩

end Watch

/-! ### Runs -/

theorem watch_init {n m : UInt32} {seg : Segment} (hc : create n m = some seg)
    (hfit : (computeSlotStride m).toNat < 2 ^ 32) : Watch n {} (init seg) where
  agrees := { Recovery.agrees_init hc hfit with
    sound := { (Recovery.agrees_init hc hfit).sound with
      attachingProducer := nofun
      attachingConsumer := nofun
      idleProducer := fun _ => rfl
      idleConsumer := fun _ => rfl } }
  nonempty := nofun
  pushing := nofun
  status := nofun

/-- **A reported death means a drained ring**, in runs without an exit unseen. -/
theorem drained_of_dead {n m : UInt32} {seg : Segment} (hc : create n m = some seg)
    (hfit : (computeSlotStride m).toNat < 2 ^ 32)
    (h : Lib.Machine.Run machine (fun s l => Nonempty s l ∧ ExitsSeen s l) (init seg) os s) :
    ∃ a, Lib.Machine.Accepts Watches {} os a := by
  refine Exists.imp (fun _ ha => ha.1) (h.accepted (R := fun _ s a => Watch n a s)
    (Q := fun _ => True) (fun _ _ _ => trivial) (watch_init hc hfit) ?_ trivial)
  intro os t a l u o ha hok _ hstep
  exact ha.step hok.1 hok.2 hstep

/-- The producer dies with a message in the ring, and it is the second call that
reports it. -/
theorem drained_of_dead_second :
    ∃ seg s os, create 2 8 = some seg ∧
      Lib.Machine.Run machine (fun s l => Nonempty s l ∧ ExitsSeen s l) (init seg) os s ∧
      os = [.published [7], .returned 8 1 [7], .peerDead] ∧
      ∃ a, Lib.Machine.Accepts Watches {} os a := by
  obtain ⟨ls, hok, s, hexec⟩ : ∃ ls,
      machine.ExecOk (fun s l => Nonempty s l ∧ ExitsSeen s l)
        (init ⟨⟨2, 64, 8, 0, 0⟩, fun _ => 0, fun _ => 0, fun _ => 0⟩) ls ∧
      ∃ s, machine.exec (init ⟨⟨2, 64, 8, 0, 0⟩, fun _ => 0, fun _ => 0, fun _ => 0⟩) ls =
        some (s, [.published [7], .returned 8 1 [7], .peerDead]) := by
    refine ⟨[.popChecked 8 2, .consumer, .consumer, .tryPush [7], .producer, .producer, .producer,
      .exit, .consumer, .consumer, .consumer, .consumer, .consumer, .popChecked 8 1, .consumer,
      .consumer, .consumer], ?_, _, rfl⟩
    decide +kernel
  have hrun := Lib.Machine.run_of_exec hok hexec
  exact ⟨_, s, _, rfl, hrun, rfl, drained_of_dead (n := 2) (m := 8) rfl (by decide) hrun⟩

/-- The ring is empty, a message is published, the producer exits: the death is
reported with the message unread. -/
theorem unread_of_dead :
    ∃ seg s os, create 2 8 = some seg ∧
      Lib.Machine.Run machine Nonempty (init seg) os s ∧
      ¬ ∃ a, Lib.Machine.Accepts Watches {} os a := by
  obtain ⟨ls, hok, s, hexec⟩ : ∃ ls,
      machine.ExecOk Nonempty (init ⟨⟨2, 64, 8, 0, 0⟩, fun _ => 0, fun _ => 0, fun _ => 0⟩) ls ∧
      ∃ s, machine.exec (init ⟨⟨2, 64, 8, 0, 0⟩, fun _ => 0, fun _ => 0, fun _ => 0⟩) ls =
        some (s, [.published [7], .peerDead]) := by
    refine ⟨[.popChecked 8 1, .consumer, .consumer, .tryPush [7], .producer, .producer, .producer,
      .exit, .consumer], ?_, _, rfl⟩
    decide +kernel
  refine ⟨_, s, _, rfl, Lib.Machine.run_of_exec hok hexec, ?_⟩
  intro hacc
  obtain ⟨a, hacc⟩ := hacc
  obtain ⟨b, h₁, hacc⟩ := hacc.of_cons
  obtain ⟨d, h₂, -⟩ := hacc.of_cons
  cases h₁
  cases h₂ with
  | peerDead hall => cases hall

end HftComponents.Spsc.PopChecked
