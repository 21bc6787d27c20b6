import HftComponents.Lib.Machine
import HftComponents.Spsc.Segment

/-!
# Producer and consumer of the bus

`Producer::try_push` and `Consumer::try_pop`, each cut at every access to the
shared segment: a load or store of `read_pos` or `write_pos`, of a slot's size,
of one payload byte.  What a party does between two accesses touches only its
own fields and belongs to the step before.

A step of `machine` is one party's: a new call, or the next access of the call
it is in.  A run is an interleaving.
-/

namespace HftComponents.Spsc

open Lib.Ring

structure Producer where
  capacity : UInt32
  stride : UInt32
  maxMsg : UInt32
  writePos : Nat
  readCache : Nat

def Producer.attach (s : Segment) : Producer :=
  ⟨s.cb.capacity, s.cb.slotStride, s.cb.maxMsgSize, s.cb.writePos, s.cb.readPos⟩

structure Consumer where
  capacity : UInt32
  stride : UInt32
  maxMsg : UInt32
  readPos : Nat
  writeCache : Nat

def Consumer.attach (s : Segment) : Consumer :=
  ⟨s.cb.capacity, s.cb.slotStride, s.cb.maxMsgSize, s.cb.readPos, s.cb.writePos⟩

namespace Bus

/-- Where the producer is in `try_push`; in `copy`, `k` bytes have been copied. -/
inductive Push
  | idle
  | reload (msg : List UInt8)
  | setSize (msg : List UInt8)
  | copy (msg : List UInt8) (k : Nat)
  deriving DecidableEq, Repr

/-- Where the consumer is in `try_pop`; in `copy`, `out` has been copied. -/
inductive Pop
  | idle
  | reload (bufSize : UInt32)
  | getSize (bufSize : UInt32)
  | copy (msgSz copySz : UInt32) (out : List UInt8)
  deriving DecidableEq, Repr

structure State where
  seg : Segment
  prod : Producer
  push : Push := .idle
  cons : Consumer
  pop : Pop := .idle

inductive Label
  | tryPush (msg : List UInt8)
  | producer
  | tryPop (bufSize : UInt32)
  | consumer

/-- What the calls return: `pushed` is `true`, `full` and `refused` are `false`;
`popped` is the size, with the bytes written to `out_buf`, and `empty` is `0`. -/
inductive Event
  | pushed (msg : List UInt8)
  | full
  | refused
  | popped (msgSz : UInt32) (out : List UInt8)
  | empty
  deriving DecidableEq, Repr

def full (p : Producer) : Bool := p.capacity.toUInt64 ≤ u64 p.writePos - u64 p.readCache

def wslot (p : Producer) : Nat := slotPtr p.capacity p.stride p.writePos

def empty (c : Consumer) : Bool := u64 c.readPos = u64 c.writeCache

def rslot (c : Consumer) : Nat := slotPtr c.capacity c.stride c.readPos

def stepPush (s : State) : Option (State × List Event) :=
  match s.push with
  | .idle => none
  | .reload msg =>
    let prod := { s.prod with readCache := s.seg.cb.readPos }
    if full prod then some ({ s with prod := prod, push := .idle }, [.full])
    else some ({ s with prod := prod, push := .setSize msg }, [])
  | .setSize msg =>
    some ({ s with
      seg := s.seg.setSize (wslot s.prod) (u32 msg.length), push := .copy msg 0 }, [])
  | .copy msg k =>
    match msg[k]? with
    | some b =>
      some ({ s with seg := s.seg.setByte (wslot s.prod) k b, push := .copy msg (k + 1) },
        [])
    | none =>
      some ({ s with
        seg := s.seg.setWritePos (s.prod.writePos + 1)
        prod := { s.prod with writePos := s.prod.writePos + 1 }
        push := .idle }, [.pushed msg])

def stepPop (s : State) : Option (State × List Event) :=
  match s.pop with
  | .idle => none
  | .reload bufSize =>
    let cons := { s.cons with writeCache := s.seg.cb.writePos }
    if empty cons then some ({ s with cons := cons, pop := .idle }, [.empty])
    else some ({ s with cons := cons, pop := .getSize bufSize }, [])
  | .getSize bufSize =>
    let msgSz := s.seg.size (rslot s.cons)
    let copySz := if msgSz < bufSize then msgSz else bufSize
    some ({ s with pop := .copy msgSz copySz [] }, [])
  | .copy msgSz copySz out =>
    if out.length < copySz.toNat then
      let b := s.seg.byte (rslot s.cons) out.length
      some ({ s with pop := .copy msgSz copySz (out ++ [b]) }, [])
    else
      some ({ s with
        seg := s.seg.setReadPos (s.cons.readPos + 1)
        cons := { s.cons with readPos := s.cons.readPos + 1 }
        pop := .idle }, [.popped msgSz out])

def step (s : State) : Label → Option (State × List Event)
  | .tryPush msg =>
    match s.push with
    | .idle =>
      if s.prod.maxMsg.toNat < msg.length then some (s, [.refused])
      else if full s.prod then some ({ s with push := .reload msg }, [])
      else some ({ s with push := .setSize msg }, [])
    | _ => none
  | .producer => stepPush s
  | .tryPop bufSize =>
    match s.pop with
    | .idle =>
      if empty s.cons then some ({ s with pop := .reload bufSize }, [])
      else some ({ s with pop := .getSize bufSize }, [])
    | _ => none
  | .consumer => stepPop s

def machine : Lib.Machine State Label Event := ⟨step⟩

def init (seg : Segment) : State :=
  { seg := seg, prod := .attach seg, cons := .attach seg }

/-- The buffer passed to `try_pop` takes the largest message. -/
def BufferFits (maxMsg : UInt32) (_ : State) : Label → Prop
  | .tryPop bufSize => maxMsg ≤ bufSize
  | _ => True

/-- The producer is between its checks and the store of `write_pos`. -/
def Push.Writing : Push → Prop
  | .setSize _ | .copy _ _ => True
  | _ => False

/-- The consumer is between its checks and the store of `read_pos`. -/
def Pop.Reading : Pop → Prop
  | .getSize _ | .copy _ _ _ => True
  | _ => False

/-- The messages whose push was accepted, in order. -/
def pushed : List Event → List (List UInt8) :=
  List.filterMap fun
    | .pushed msg => some msg
    | _ => none

/-- The messages consumed, in order: the size returned and the bytes copied. -/
def popped : List Event → List (UInt32 × List UInt8) :=
  List.filterMap fun
    | .popped n out => some (n, out)
    | _ => none

/-! ### What a step can do -/

/-- The moves of the producer; `msg` is what a new call passes. -/
inductive PushMoves : State → Option (List UInt8) → State → List Event → Prop
  | refused {s : State} {msg : List UInt8} (hp : s.push = .idle)
      (hlen : s.prod.maxMsg.toNat < msg.length) : PushMoves s (some msg) s [.refused]
  | look {s : State} {msg : List UInt8} (hp : s.push = .idle)
      (hlen : msg.length ≤ s.prod.maxMsg.toNat) (hfull : full s.prod = true) :
      PushMoves s (some msg) { s with push := .reload msg } []
  | start {s : State} {msg : List UInt8} (hp : s.push = .idle)
      (hlen : msg.length ≤ s.prod.maxMsg.toNat) (hfull : full s.prod = false) :
      PushMoves s (some msg) { s with push := .setSize msg } []
  | full {s : State} {msg : List UInt8} (hp : s.push = .reload msg)
      (hfull : full { s.prod with readCache := s.seg.cb.readPos } = true) :
      PushMoves s none
        { s with prod := { s.prod with readCache := s.seg.cb.readPos }, push := .idle } [.full]
  | reload {s : State} {msg : List UInt8} (hp : s.push = .reload msg)
      (hfull : full { s.prod with readCache := s.seg.cb.readPos } = false) :
      PushMoves s none
        { s with prod := { s.prod with readCache := s.seg.cb.readPos }, push := .setSize msg } []
  | setSize {s : State} {msg : List UInt8} (hp : s.push = .setSize msg) :
      PushMoves s none
        { s with
          seg := s.seg.setSize (wslot s.prod) (u32 msg.length), push := .copy msg 0 } []
  | setByte {s : State} {msg : List UInt8} {k : Nat} {b : UInt8} (hp : s.push = .copy msg k)
      (hb : msg[k]? = some b) :
      PushMoves s none
        { s with seg := s.seg.setByte (wslot s.prod) k b, push := .copy msg (k + 1) } []
  | pushed {s : State} {msg : List UInt8} {k : Nat} (hp : s.push = .copy msg k)
      (hk : msg.length ≤ k) :
      PushMoves s none
        { s with
          seg := s.seg.setWritePos (s.prod.writePos + 1)
          prod := { s.prod with writePos := s.prod.writePos + 1 }
          push := .idle } [.pushed msg]

/-- The moves of the consumer; `bufSize` is what a new call passes. -/
inductive PopMoves : State → Option UInt32 → State → List Event → Prop
  | look {s : State} {bufSize : UInt32} (hp : s.pop = .idle)
      (hempty : empty s.cons = true) :
      PopMoves s (some bufSize) { s with pop := .reload bufSize } []
  | start {s : State} {bufSize : UInt32} (hp : s.pop = .idle)
      (hempty : empty s.cons = false) :
      PopMoves s (some bufSize) { s with pop := .getSize bufSize } []
  | empty {s : State} {bufSize : UInt32} (hp : s.pop = .reload bufSize)
      (hempty : empty { s.cons with writeCache := s.seg.cb.writePos } = true) :
      PopMoves s none
        { s with cons := { s.cons with writeCache := s.seg.cb.writePos }, pop := .idle } [.empty]
  | reload {s : State} {bufSize : UInt32} (hp : s.pop = .reload bufSize)
      (hempty : empty { s.cons with writeCache := s.seg.cb.writePos } = false) :
      PopMoves s none
        { s with
          cons := { s.cons with writeCache := s.seg.cb.writePos }, pop := .getSize bufSize } []
  | getSize {s : State} {bufSize : UInt32} (hp : s.pop = .getSize bufSize) :
      PopMoves s none
        { s with
          pop := .copy (s.seg.size (rslot s.cons))
            (if s.seg.size (rslot s.cons) < bufSize then s.seg.size (rslot s.cons)
              else bufSize) [] } []
  | getByte {s : State} {msgSz copySz : UInt32} {out : List UInt8}
      (hp : s.pop = .copy msgSz copySz out) (hlt : out.length < copySz.toNat) :
      PopMoves s none
        { s with
          pop := .copy msgSz copySz (out ++ [s.seg.byte (rslot s.cons) out.length]) } []
  | popped {s : State} {msgSz copySz : UInt32} {out : List UInt8}
      (hp : s.pop = .copy msgSz copySz out) (hle : copySz.toNat ≤ out.length) :
      PopMoves s none
        { s with
          seg := s.seg.setReadPos (s.cons.readPos + 1)
          cons := { s.cons with readPos := s.cons.readPos + 1 }
          pop := .idle } [.popped msgSz out]

theorem stepPush_moves {s u : State} {o : List Event} (h : stepPush s = some (u, o)) :
    PushMoves s none u o := by
  unfold stepPush at h
  cases hp : s.push with
  | idle =>
    rw [hp] at h
    cases h
  | reload msg =>
    rw [hp] at h
    dsimp only at h
    split at h
    · obtain ⟨rfl, rfl⟩ := Prod.mk.inj (Option.some.inj h)
      exact .full hp ‹_›
    · obtain ⟨rfl, rfl⟩ := Prod.mk.inj (Option.some.inj h)
      exact .reload hp (Bool.eq_false_iff.mpr ‹_›)
  | setSize msg =>
    rw [hp] at h
    obtain ⟨rfl, rfl⟩ := Prod.mk.inj (Option.some.inj h)
    exact .setSize hp
  | copy msg k =>
    rw [hp] at h
    dsimp only at h
    split at h
    · obtain ⟨rfl, rfl⟩ := Prod.mk.inj (Option.some.inj h)
      exact .setByte hp ‹_›
    · obtain ⟨rfl, rfl⟩ := Prod.mk.inj (Option.some.inj h)
      exact .pushed hp (List.getElem?_eq_none_iff.mp ‹_›)

theorem stepPop_moves {s u : State} {o : List Event} (h : stepPop s = some (u, o)) :
    PopMoves s none u o := by
  unfold stepPop at h
  cases hp : s.pop with
  | idle =>
    rw [hp] at h
    cases h
  | reload bufSize =>
    rw [hp] at h
    dsimp only at h
    split at h
    · obtain ⟨rfl, rfl⟩ := Prod.mk.inj (Option.some.inj h)
      exact .empty hp ‹_›
    · obtain ⟨rfl, rfl⟩ := Prod.mk.inj (Option.some.inj h)
      exact .reload hp (Bool.eq_false_iff.mpr ‹_›)
  | getSize bufSize =>
    rw [hp] at h
    obtain ⟨rfl, rfl⟩ := Prod.mk.inj (Option.some.inj h)
    exact .getSize hp
  | copy msgSz copySz out =>
    rw [hp] at h
    dsimp only at h
    split at h
    · obtain ⟨rfl, rfl⟩ := Prod.mk.inj (Option.some.inj h)
      exact .getByte hp ‹_›
    · obtain ⟨rfl, rfl⟩ := Prod.mk.inj (Option.some.inj h)
      exact .popped hp (Nat.le_of_not_lt ‹_›)

theorem step_tryPush_moves {s u : State} {o : List Event} {msg : List UInt8}
    (h : step s (.tryPush msg) = some (u, o)) : PushMoves s (some msg) u o := by
  unfold step at h
  cases hp : s.push with
  | idle =>
    rw [hp] at h
    dsimp only at h
    split at h
    · obtain ⟨rfl, rfl⟩ := Prod.mk.inj (Option.some.inj h)
      exact .refused hp ‹_›
    · rename_i hlen
      split at h
      · obtain ⟨rfl, rfl⟩ := Prod.mk.inj (Option.some.inj h)
        exact .look hp (Nat.le_of_not_lt hlen) ‹_›
      · obtain ⟨rfl, rfl⟩ := Prod.mk.inj (Option.some.inj h)
        exact .start hp (Nat.le_of_not_lt hlen) (Bool.eq_false_iff.mpr ‹_›)
  | _ =>
    rw [hp] at h
    cases h

theorem step_tryPop_moves {s u : State} {o : List Event} {bufSize : UInt32}
    (h : step s (.tryPop bufSize) = some (u, o)) : PopMoves s (some bufSize) u o := by
  unfold step at h
  cases hp : s.pop with
  | idle =>
    rw [hp] at h
    dsimp only at h
    split at h
    · obtain ⟨rfl, rfl⟩ := Prod.mk.inj (Option.some.inj h)
      exact .look hp ‹_›
    · obtain ⟨rfl, rfl⟩ := Prod.mk.inj (Option.some.inj h)
      exact .start hp (Bool.eq_false_iff.mpr ‹_›)
  | _ =>
    rw [hp] at h
    cases h

/-- A step is one party's. -/
theorem step_moves {s u : State} {l : Label} {o : List Event} (h : step s l = some (u, o)) :
    (∃ a, PushMoves s a u o ∧ ∀ msg, a = some msg → l = .tryPush msg) ∨
      ∃ b, PopMoves s b u o ∧ ∀ n, b = some n → l = .tryPop n := by
  cases l with
  | tryPush msg =>
    refine Or.inl ⟨_, step_tryPush_moves h, ?_⟩
    intro msg' hmsg
    rw [Option.some.inj hmsg]
  | producer => exact Or.inl ⟨none, stepPush_moves h, nofun⟩
  | tryPop bufSize =>
    refine Or.inr ⟨_, step_tryPop_moves h, ?_⟩
    intro n hn
    rw [Option.some.inj hn]
  | consumer => exact Or.inr ⟨none, stepPop_moves h, nofun⟩

/-- No step changes what the parties read of the control block at the start. -/
theorem PushMoves.fixed {s u : State} {a : Option (List UInt8)} {o : List Event}
    (h : PushMoves s a u o) :
    u.prod.capacity = s.prod.capacity ∧ u.prod.maxMsg = s.prod.maxMsg := by
  cases h <;> exact ⟨rfl, rfl⟩

theorem PushMoves.cons_eq {s u : State} {a : Option (List UInt8)} {o : List Event}
    (h : PushMoves s a u o) : u.cons = s.cons := by
  cases h <;> rfl

theorem PopMoves.prod_eq {s u : State} {b : Option UInt32} {o : List Event}
    (h : PopMoves s b u o) : u.prod = s.prod := by
  cases h <;> rfl

end Bus

end HftComponents.Spsc
