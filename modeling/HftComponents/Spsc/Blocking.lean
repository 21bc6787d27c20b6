import HftComponents.Spsc.Fifo
import HftComponents.Spsc.PopChecked

/-!
# The blocking calls

`push` and `push_checked` repeat `try_push` until it returns true, `pop` and
`pop_checked` repeat `try_pop` until it returns something else than 0.  The
checked ones count their failures, and ask after every `check_every`-th whether
the other process is dead; the answer is a label, and may be any.

A call is a layer on the bus: `machine` runs the steps of `try_push` and
`try_pop` as they are (`Bus.step`), and decides what follows a return.
-/

namespace HftComponents.Spsc.Blocking

open PopChecked (PeerStatus pushing)

inductive PushKind
  | tryPush
  | push
  | pushChecked (checkEvery : Nat)
  deriving DecidableEq, Repr

inductive PopKind
  | tryPop
  | pop
  | popChecked (checkEvery : Nat)
  deriving DecidableEq, Repr

/-- `spins` is a number here; the `int` that it is, and where it overflows, is in
`Liveness`. -/
structure Pushing where
  kind : PushKind
  msg : List UInt8
  spins : Nat := 0
  deriving DecidableEq, Repr

/-- `wrote` is what the call has written to `out_buf` so far; `spins` as in `Pushing`. -/
structure Popping where
  kind : PopKind
  bufSize : UInt32
  wrote : List UInt8 := []
  spins : Nat := 0
  deriving DecidableEq, Repr

/-- Where the producer is in its call: about to call `try_push`, in it, or about
to call `consumer_status`. -/
inductive Push
  | idle
  | attempt (p : Pushing)
  | trying (p : Pushing)
  | status (p : Pushing)

inductive Pop
  | idle
  | attempt (p : Popping)
  | trying (p : Popping)
  | status (p : Popping)

structure State where
  bus : Bus.State
  push : Push := .idle
  pop : Pop := .idle

inductive Label
  | push (kind : PushKind) (msg : List UInt8)
  | producer
  | consumerStatus (st : PeerStatus)
  | pop (kind : PopKind) (bufSize : UInt32)
  | consumer
  | producerStatus (st : PeerStatus)

/-- `accepted` and `failed` are the returns of `try_push`, `zero` is a 0 that
`try_pop` returns.  A call returns true with `accepted`, and false with `gaveUp`;
`returned` is the return of a call of the consumer, with the bytes it has written
to `out_buf`. -/
inductive Event
  | accepted (msg : List UInt8)
  | failed
  | gaveUp
  | zero
  | returned (kind : PopKind) (bufSize n : UInt32) (out : List UInt8)
  deriving DecidableEq, Repr

/-- After a `try_push` that returned false. -/
def Pushing.failed (p : Pushing) : Push × List Event :=
  match p.kind with
  | .tryPush => (.idle, [.failed, .gaveUp])
  | .push => (.attempt p, [.failed])
  | .pushChecked checkEvery =>
    let p := { p with spins := p.spins + 1 }
    if p.spins % checkEvery = 0 then (.status p, [.failed]) else (.attempt p, [.failed])

/-- After a step of `try_push` that has shown `o`. -/
def Pushing.after (p : Pushing) : List Bus.Event → Push × List Event
  | [] => (.trying p, [])
  | .pushed msg :: _ => (.idle, [.accepted msg])
  | _ => p.failed

/-- After a `try_pop` that returned 0. -/
def Popping.failed (p : Popping) : Pop × List Event :=
  match p.kind with
  | .tryPop => (.idle, [.zero, .returned p.kind p.bufSize 0 p.wrote])
  | .pop => (.attempt p, [.zero])
  | .popChecked checkEvery =>
    let p := { p with spins := p.spins + 1 }
    if p.spins % checkEvery = 0 then (.status p, [.zero]) else (.attempt p, [.zero])

/-- `out` is written from the start of the buffer. -/
def Popping.write (p : Popping) (out : List UInt8) : Popping :=
  { p with wrote := out ++ p.wrote.drop out.length }

def Popping.after (p : Popping) : List Bus.Event → Pop × List Event
  | [] => (.trying p, [])
  | .popped msgSz out :: _ =>
    let p := p.write out
    if msgSz = 0 then p.failed else (.idle, [.returned p.kind p.bufSize msgSz p.wrote])
  | _ => p.failed

def onPush (s : State) (l : Bus.Label) (p : Pushing) : Option (State × List Event) :=
  (Bus.step s.bus l).map fun b =>
    ({ s with bus := b.1, push := (p.after b.2).1 }, (p.after b.2).2)

def onPop (s : State) (l : Bus.Label) (p : Popping) : Option (State × List Event) :=
  (Bus.step s.bus l).map fun b =>
    ({ s with bus := b.1, pop := (p.after b.2).1 }, (p.after b.2).2)

/-- A `check_every` of 0 divides by zero. -/
def step (s : State) : Label → Option (State × List Event)
  | .push kind msg =>
    match s.push with
    | .idle =>
      if kind = .pushChecked 0 then none else some ({ s with push := .attempt ⟨kind, msg, 0⟩ }, [])
    | _ => none
  | .producer =>
    match s.push with
    | .attempt p => onPush s (.tryPush p.msg) p
    | .trying p => onPush s .producer p
    | _ => none
  | .consumerStatus st =>
    match s.push with
    | .status p =>
      if st = .dead then some ({ s with push := .idle }, [.gaveUp])
      else some ({ s with push := .attempt p }, [])
    | _ => none
  | .pop kind bufSize =>
    match s.pop with
    | .idle =>
      if kind = .popChecked 0 then none
      else some ({ s with pop := .attempt ⟨kind, bufSize, [], 0⟩ }, [])
    | _ => none
  | .consumer =>
    match s.pop with
    | .attempt p => onPop s (.tryPop p.bufSize) p
    | .trying p => onPop s .consumer p
    | _ => none
  | .producerStatus st =>
    match s.pop with
    | .status p =>
      if st = .dead then
        some ({ s with pop := .idle }, [.returned p.kind p.bufSize 0 p.wrote])
      else some ({ s with pop := .attempt p }, [])
    | _ => none

def machine : Lib.Machine State Label Event := ⟨step⟩

def init (seg : Segment) : State := { bus := Bus.init seg }

/-- The messages that `push` or `try_push` has accepted, in order. -/
def accepted : List Event → List (List UInt8) :=
  List.filterMap fun
    | .accepted msg => some msg
    | _ => none

/-- What the calls of the consumer have returned, in order; a `try_pop` that
returns 0 has found nothing. -/
def returns : List Event → List (UInt32 × List UInt8) :=
  List.filterMap fun
    | .returned kind _ n out => if kind = .tryPop ∧ n = 0 then none else some (n, out)
    | _ => none

/-! ### What a step can do -/

/-- The step of the bus that a call in progress takes next. -/
inductive NextPush : Push → Pushing → Option (List UInt8) → Prop
  | attempt {p : Pushing} : NextPush (.attempt p) p (some p.msg)
  | trying {p : Pushing} : NextPush (.trying p) p none

inductive NextPop : Pop → Popping → Option UInt32 → Prop
  | attempt {p : Popping} : NextPop (.attempt p) p (some p.bufSize)
  | trying {p : Popping} : NextPop (.trying p) p none

inductive Moves : State → Label → State → List Event → Prop
  | push {s : State} {kind : PushKind} {msg : List UInt8} (hp : s.push = .idle) :
      Moves s (.push kind msg) { s with push := .attempt ⟨kind, msg, 0⟩ } []
  | producer {s : State} {p : Pushing} {a : Option (List UInt8)} {b : Bus.State}
      {o : List Bus.Event} (hp : NextPush s.push p a) (hm : Bus.PushMoves s.bus a b o) :
      Moves s .producer { s with bus := b, push := (p.after o).1 } (p.after o).2
  | gaveUp {s : State} {p : Pushing} (hp : s.push = .status p) :
      Moves s (.consumerStatus .dead) { s with push := .idle } [.gaveUp]
  | pushAgain {s : State} {p : Pushing} {st : PeerStatus} (hp : s.push = .status p)
      (hst : st ≠ .dead) : Moves s (.consumerStatus st) { s with push := .attempt p } []
  | pop {s : State} {kind : PopKind} {bufSize : UInt32} (hp : s.pop = .idle) :
      Moves s (.pop kind bufSize) { s with pop := .attempt ⟨kind, bufSize, [], 0⟩ } []
  | consumer {s : State} {p : Popping} {a : Option UInt32} {b : Bus.State}
      {o : List Bus.Event} (hp : NextPop s.pop p a) (hm : Bus.PopMoves s.bus a b o) :
      Moves s .consumer { s with bus := b, pop := (p.after o).1 } (p.after o).2
  | peerDead {s : State} {p : Popping} (hp : s.pop = .status p) :
      Moves s (.producerStatus .dead) { s with pop := .idle }
        [.returned p.kind p.bufSize 0 p.wrote]
  | popAgain {s : State} {p : Popping} {st : PeerStatus} (hp : s.pop = .status p)
      (hst : st ≠ .dead) : Moves s (.producerStatus st) { s with pop := .attempt p } []

variable {s u : State} {l : Label} {o os : List Event}

theorem onPush_eq {k : Bus.Label} {p : Pushing} (h : onPush s k p = some (u, o)) :
    ∃ b o', Bus.step s.bus k = some (b, o') ∧
      u = { s with bus := b, push := (p.after o').1 } ∧ o = (p.after o').2 := by
  obtain ⟨⟨b, o'⟩, hb, heq⟩ := Option.map_eq_some_iff.mp h
  obtain ⟨rfl, rfl⟩ := Prod.mk.inj heq
  exact ⟨b, o', hb, rfl, rfl⟩

theorem onPop_eq {k : Bus.Label} {p : Popping} (h : onPop s k p = some (u, o)) :
    ∃ b o', Bus.step s.bus k = some (b, o') ∧
      u = { s with bus := b, pop := (p.after o').1 } ∧ o = (p.after o').2 := by
  obtain ⟨⟨b, o'⟩, hb, heq⟩ := Option.map_eq_some_iff.mp h
  obtain ⟨rfl, rfl⟩ := Prod.mk.inj heq
  exact ⟨b, o', hb, rfl, rfl⟩

theorem step_moves (h : step s l = some (u, o)) : Moves s l u o := by
  unfold step at h
  cases l with
  | push kind msg =>
    dsimp only at h
    split at h
    · split at h
      · cases h
      · obtain ⟨rfl, rfl⟩ := Prod.mk.inj (Option.some.inj h)
        exact .push ‹_›
    · cases h
  | producer =>
    dsimp only at h
    split at h
    · rename_i p hp
      obtain ⟨b, o', hb, rfl, rfl⟩ := onPush_eq h
      exact .producer (hp ▸ .attempt) (Bus.step_tryPush_moves hb)
    · rename_i p hp
      obtain ⟨b, o', hb, rfl, rfl⟩ := onPush_eq h
      exact .producer (hp ▸ .trying) (Bus.stepPush_moves hb)
    · cases h
  | consumerStatus st =>
    dsimp only at h
    split at h
    · split at h
      · rename_i p hp hst
        subst hst
        obtain ⟨rfl, rfl⟩ := Prod.mk.inj (Option.some.inj h)
        exact .gaveUp hp
      · obtain ⟨rfl, rfl⟩ := Prod.mk.inj (Option.some.inj h)
        exact .pushAgain ‹_› ‹_›
    · cases h
  | pop kind bufSize =>
    dsimp only at h
    split at h
    · split at h
      · cases h
      · obtain ⟨rfl, rfl⟩ := Prod.mk.inj (Option.some.inj h)
        exact .pop ‹_›
    · cases h
  | consumer =>
    dsimp only at h
    split at h
    · rename_i p hp
      obtain ⟨b, o', hb, rfl, rfl⟩ := onPop_eq h
      exact .consumer (hp ▸ .attempt) (Bus.step_tryPop_moves hb)
    · rename_i p hp
      obtain ⟨b, o', hb, rfl, rfl⟩ := onPop_eq h
      exact .consumer (hp ▸ .trying) (Bus.stepPop_moves hb)
    · cases h
  | producerStatus st =>
    dsimp only at h
    split at h
    · split at h
      · rename_i p hp hst
        subst hst
        obtain ⟨rfl, rfl⟩ := Prod.mk.inj (Option.some.inj h)
        exact .peerDead hp
      · obtain ⟨rfl, rfl⟩ := Prod.mk.inj (Option.some.inj h)
        exact .popAgain ‹_› ‹_›
    · cases h

/-! ### What a call shows -/

/-- The event is one of the producer's. -/
def Event.Pushes : Event → Prop
  | .accepted _ | .failed | .gaveUp => True
  | _ => False

theorem pushes_of_failed {p : Pushing} {e : Event} (h : e ∈ p.failed.2) : e.Pushes := by
  unfold Pushing.failed at h
  cases hk : p.kind with
  | tryPush =>
    rw [hk] at h
    rcases List.mem_pair.mp h with rfl | rfl <;> trivial
  | push =>
    rw [hk] at h
    rw [List.mem_singleton.mp h]
    trivial
  | pushChecked checkEvery =>
    rw [hk] at h
    dsimp only at h
    split at h <;> rw [List.mem_singleton.mp h] <;> trivial

theorem pushes_of_after {p : Pushing} {o : List Bus.Event} {e : Event}
    (h : e ∈ (p.after o).2) : e.Pushes := by
  unfold Pushing.after at h
  split at h
  · simp at h
  · rw [List.mem_singleton.mp h]
    trivial
  · exact pushes_of_failed h

theorem not_pushes_of_failed {p : Popping} {e : Event} (h : e ∈ p.failed.2) : ¬e.Pushes := by
  unfold Popping.failed at h
  cases hk : p.kind with
  | tryPop =>
    rw [hk] at h
    rcases List.mem_pair.mp h with rfl | rfl <;> exact id
  | pop =>
    rw [hk] at h
    rw [List.mem_singleton.mp h]
    exact id
  | popChecked checkEvery =>
    rw [hk] at h
    dsimp only at h
    split at h <;> rw [List.mem_singleton.mp h] <;> exact id

theorem not_pushes_of_after {p : Popping} {o : List Bus.Event} {e : Event}
    (h : e ∈ (p.after o).2) : ¬e.Pushes := by
  unfold Popping.after at h
  split at h
  · simp at h
  · dsimp only at h
    split at h
    · exact not_pushes_of_failed h
    · rw [List.mem_singleton.mp h]
      exact id
  · exact not_pushes_of_failed h

theorem accepted_append (a b : List Event) : accepted (a ++ b) = accepted a ++ accepted b :=
  List.filterMap_append

theorem returns_append (a b : List Event) : returns (a ++ b) = returns a ++ returns b :=
  List.filterMap_append

end HftComponents.Spsc.Blocking
