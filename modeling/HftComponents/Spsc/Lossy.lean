import HftComponents.Spsc.Bus
import Mathlib.Data.Nat.Find

/-!
# The lossy bus

`OverwriteProducer::push` and `Consumer::try_pop_lossy`, cut at every access to
the shared segment.  The producer never looks at `read_pos`: it marks the slot
of `write_pos` as being written by an odd generation, writes it, and makes the
generation even again.  The consumer notices a lap by `write_pos`, or by a
generation that changed while it copied.

The fence of `push` orders two stores that a step order has in order anyway,
and is no step.

What a call returns does not say which push it is from, and payloads repeat.  So
the model carries the push index along (`occupant`); no step depends on it.
-/

namespace HftComponents.Spsc

open Lib.Ring

/-- Its `read_cache_` is set and never read, and left out. -/
structure OverwriteProducer where
  capacity : UInt32
  stride : UInt32
  maxMsg : UInt32
  writePos : Nat

def OverwriteProducer.attach (s : Segment) : OverwriteProducer :=
  ⟨s.cb.capacity, s.cb.slotStride, s.cb.maxMsgSize, s.cb.writePos⟩

namespace Lossy

open Bus (empty rslot)

/-- Where the producer is in `push`, with the generation `g` it has read. -/
inductive Push
  | idle
  | loadGen (msg : List UInt8)
  | storeOdd (msg : List UInt8) (g : Nat)
  | setSize (msg : List UInt8) (g : Nat)
  | copy (msg : List UInt8) (g k : Nat)
  | publish (msg : List UInt8)
  deriving DecidableEq, Repr

/-- Where the consumer is in `try_pop_lossy`.  `fastForward` and `storeLost`
are about to store the read position `p`; in `copy`, `out` has been copied.  The
`index` is that of the push that `out` is from, and no data of the code. -/
inductive Pop
  | idle
  | reload (bufSize : UInt32)
  | fastForward (bufSize : UInt32) (p : Nat)
  | loadGen (bufSize : UInt32)
  | getSize (bufSize : UInt32) (gen1 : Nat)
  | copy (bufSize : UInt32) (gen1 : Nat) (msgSz copySz : UInt32) (out : List UInt8)
  | store (bufSize : UInt32) (msgSz : UInt32) (out : List UInt8) (index : Nat)
  | relocate (bufSize : UInt32) (out : List UInt8)
  | storeLost (bufSize : UInt32) (out : List UInt8) (p : Nat)
  deriving DecidableEq, Repr

structure State where
  seg : Segment
  prod : OverwriteProducer
  push : Push := .idle
  cons : Consumer
  pop : Pop := .idle

inductive Label
  | push (msg : List UInt8)
  | producer
  | tryPopLossy (bufSize : UInt32)
  | consumer

/-- What the calls return; `popped` also shows the size of the buffer, the bytes
written to it, what `*overwritten` was set to and, of a message, its push index. -/
inductive Event
  | pushed (msg : List UInt8)
  | refused
  | popped (bufSize msgSz : UInt32) (out : List UInt8) (overwritten : Bool) (index : Option Nat)
  deriving DecidableEq, Repr

def wslot (p : OverwriteProducer) : Nat := slotPtr p.capacity p.stride p.writePos

/-- `write_cache_ - read_pos_ > capacity_`. -/
def lapped (c : Consumer) : Bool := c.capacity.toUInt64 < u64 c.writeCache - u64 c.readPos

/-- The read position after a copy that was overwritten. -/
def relocated (c : Consumer) : Nat :=
  if c.capacity.toUInt64 < u64 c.writeCache then c.writeCache - c.capacity.toNat else c.writeCache

/-- `gen1 & 1u`: the slot is being written. -/
def odd (g : Nat) : Bool := u32 g &&& 1 = 1

/-- The test for a lap, once `write_cache_` is ahead. -/
def look (s : State) (bufSize : UInt32) : Pop :=
  if lapped s.cons then .fastForward bufSize (s.cons.writeCache - s.cons.capacity.toNat)
  else .loadGen bufSize

/-- The pushes that have written their slot. -/
def committed (s : State) : Nat :=
  match s.push with
  | .publish _ => s.prod.writePos + 1
  | _ => s.prod.writePos

/-- The push whose message is in the consumer's slot: the last to have written it. -/
def occupant (s : State) : Nat :=
  Nat.findGreatest (fun i => slotPtr s.prod.capacity s.prod.stride i = rslot s.cons)
    (committed s - 1)

/-- The store of `read_pos`, which ends the call. -/
def setRead (s : State) (p : Nat) : State :=
  { s with seg := s.seg.setReadPos p, cons := { s.cons with readPos := p }, pop := .idle }

def stepPush (s : State) : Option (State × List Event) :=
  match s.push with
  | .idle => none
  | .loadGen msg =>
    some ({ s with push := .storeOdd msg (s.seg.generation (wslot s.prod)) }, [])
  | .storeOdd msg g =>
    some ({ s with seg := s.seg.setGeneration (wslot s.prod) (g + 1), push := .setSize msg g }, [])
  | .setSize msg g =>
    some ({ s with
      seg := s.seg.setSize (wslot s.prod) (u32 msg.length), push := .copy msg g 0 }, [])
  | .copy msg g k =>
    match msg[k]? with
    | some b =>
      some ({ s with
        seg := s.seg.setByte (wslot s.prod) k b, push := .copy msg g (k + 1) }, [])
    | none =>
      some ({ s with
        seg := s.seg.setGeneration (wslot s.prod) (g + 2), push := .publish msg }, [])
  | .publish msg =>
    some ({ s with
      seg := s.seg.setWritePos (s.prod.writePos + 1)
      prod := { s.prod with writePos := s.prod.writePos + 1 }
      push := .idle }, [.pushed msg])

def stepPop (s : State) : Option (State × List Event) :=
  match s.pop with
  | .idle => none
  | .reload bufSize =>
    let s := { s with cons := { s.cons with writeCache := s.seg.cb.writePos } }
    if empty s.cons then some ({ s with pop := .idle }, [.popped bufSize 0 [] false none])
    else some ({ s with pop := look s bufSize }, [])
  | .fastForward bufSize p => some (setRead s p, [.popped bufSize 0 [] true none])
  | .loadGen bufSize =>
    let gen1 := s.seg.generation (rslot s.cons)
    if odd gen1 then some ({ s with pop := .idle }, [.popped bufSize 0 [] false none])
    else some ({ s with pop := .getSize bufSize gen1 }, [])
  | .getSize bufSize gen1 =>
    let msgSz := s.seg.size (rslot s.cons)
    let copySz := if msgSz < bufSize then msgSz else bufSize
    some ({ s with pop := .copy bufSize gen1 msgSz copySz [] }, [])
  | .copy bufSize gen1 msgSz copySz out =>
    if out.length < copySz.toNat then
      let b := s.seg.byte (rslot s.cons) out.length
      some ({ s with pop := .copy bufSize gen1 msgSz copySz (out ++ [b]) }, [])
    else if u32 (s.seg.generation (rslot s.cons)) ≠ u32 gen1 then
      some ({ s with pop := .relocate bufSize out }, [])
    else some ({ s with pop := .store bufSize msgSz out (occupant s) }, [])
  | .store bufSize msgSz out index =>
    some (setRead s (s.cons.readPos + 1), [.popped bufSize msgSz out false (some index)])
  | .relocate bufSize out =>
    let s := { s with cons := { s.cons with writeCache := s.seg.cb.writePos } }
    some ({ s with pop := .storeLost bufSize out (relocated s.cons) }, [])
  | .storeLost bufSize out p => some (setRead s p, [.popped bufSize 0 out true none])

def step (s : State) : Label → Option (State × List Event)
  | .push msg =>
    match s.push with
    | .idle =>
      if s.prod.maxMsg.toNat < msg.length then some (s, [.refused])
      else some ({ s with push := .loadGen msg }, [])
    | _ => none
  | .producer => stepPush s
  | .tryPopLossy bufSize =>
    match s.pop with
    | .idle =>
      if empty s.cons then some ({ s with pop := .reload bufSize }, [])
      else some ({ s with pop := look s bufSize }, [])
    | _ => none
  | .consumer => stepPop s

def machine : Lib.Machine State Label Event := ⟨step⟩

def init (seg : Segment) : State :=
  { seg := seg, prod := .attach seg, cons := .attach seg }

/-- The messages pushed, in order: message `i` is the one of push index `i`. -/
def pushed : List Event → List (List UInt8) :=
  List.filterMap fun
    | .pushed msg => some msg
    | _ => none

/-- The successful returns of `try_pop_lossy`, in order: the size of the buffer,
the size returned and the bytes copied. -/
def returned : List Event → List (UInt32 × UInt32 × List UInt8) :=
  List.filterMap fun
    | .popped bufSize msgSz out _ _ => if msgSz = 0 then none else some (bufSize, msgSz, out)
    | _ => none

/-- Their push indices. -/
def indices : List Event → List Nat :=
  List.filterMap fun
    | .popped _ msgSz _ _ index => if msgSz = 0 then none else index
    | _ => none

/-! ### What a step can do -/

/-- The moves of the producer; `msg` is what a new call passes. -/
inductive PushMoves : State → Option (List UInt8) → State → List Event → Prop
  | refused {s : State} {msg : List UInt8} (hp : s.push = .idle)
      (hlen : s.prod.maxMsg.toNat < msg.length) : PushMoves s (some msg) s [.refused]
  | start {s : State} {msg : List UInt8} (hp : s.push = .idle)
      (hlen : msg.length ≤ s.prod.maxMsg.toNat) :
      PushMoves s (some msg) { s with push := .loadGen msg } []
  | loadGen {s : State} {msg : List UInt8} (hp : s.push = .loadGen msg) :
      PushMoves s none { s with push := .storeOdd msg (s.seg.generation (wslot s.prod)) } []
  | storeOdd {s : State} {msg : List UInt8} {g : Nat} (hp : s.push = .storeOdd msg g) :
      PushMoves s none
        { s with
          seg := s.seg.setGeneration (wslot s.prod) (g + 1), push := .setSize msg g } []
  | setSize {s : State} {msg : List UInt8} {g : Nat} (hp : s.push = .setSize msg g) :
      PushMoves s none
        { s with
          seg := s.seg.setSize (wslot s.prod) (u32 msg.length), push := .copy msg g 0 } []
  | setByte {s : State} {msg : List UInt8} {g k : Nat} {b : UInt8} (hp : s.push = .copy msg g k)
      (hb : msg[k]? = some b) :
      PushMoves s none
        { s with seg := s.seg.setByte (wslot s.prod) k b, push := .copy msg g (k + 1) } []
  | storeEven {s : State} {msg : List UInt8} {g k : Nat} (hp : s.push = .copy msg g k)
      (hk : msg.length ≤ k) :
      PushMoves s none
        { s with
          seg := s.seg.setGeneration (wslot s.prod) (g + 2), push := .publish msg } []
  | publish {s : State} {msg : List UInt8} (hp : s.push = .publish msg) :
      PushMoves s none
        { s with
          seg := s.seg.setWritePos (s.prod.writePos + 1)
          prod := { s.prod with writePos := s.prod.writePos + 1 }
          push := .idle } [.pushed msg]

/-- The moves of the consumer. -/
inductive PopMoves : State → State → List Event → Prop
  | reload {s : State} {bufSize : UInt32} (hp : s.pop = .idle) (hempty : empty s.cons = true) :
      PopMoves s { s with pop := .reload bufSize } []
  | look {s : State} {bufSize : UInt32} (hp : s.pop = .idle) (hempty : empty s.cons = false) :
      PopMoves s { s with pop := look s bufSize } []
  | empty {s : State} {bufSize : UInt32} (hp : s.pop = .reload bufSize)
      (hempty : empty { s.cons with writeCache := s.seg.cb.writePos } = true) :
      PopMoves s
        { s with cons := { s.cons with writeCache := s.seg.cb.writePos }, pop := .idle }
        [.popped bufSize 0 [] false none]
  | relook {s : State} {bufSize : UInt32} (hp : s.pop = .reload bufSize)
      (hempty : empty { s.cons with writeCache := s.seg.cb.writePos } = false) :
      PopMoves s
        { s with
          cons := { s.cons with writeCache := s.seg.cb.writePos }
          pop := Lossy.look { s with cons := { s.cons with writeCache := s.seg.cb.writePos } }
            bufSize } []
  | fastForward {s : State} {bufSize : UInt32} {p : Nat} (hp : s.pop = .fastForward bufSize p) :
      PopMoves s (setRead s p) [.popped bufSize 0 [] true none]
  | retry {s : State} {bufSize : UInt32} (hp : s.pop = .loadGen bufSize)
      (hodd : odd (s.seg.generation (rslot s.cons)) = true) :
      PopMoves s { s with pop := .idle } [.popped bufSize 0 [] false none]
  | loadGen {s : State} {bufSize : UInt32} (hp : s.pop = .loadGen bufSize)
      (heven : odd (s.seg.generation (rslot s.cons)) = false) :
      PopMoves s { s with pop := .getSize bufSize (s.seg.generation (rslot s.cons)) } []
  | getSize {s : State} {bufSize : UInt32} {gen1 : Nat} (hp : s.pop = .getSize bufSize gen1) :
      PopMoves s
        { s with
          pop := .copy bufSize gen1 (s.seg.size (rslot s.cons))
            (if s.seg.size (rslot s.cons) < bufSize then s.seg.size (rslot s.cons)
              else bufSize) [] } []
  | getByte {s : State} {bufSize msgSz copySz : UInt32} {gen1 : Nat} {out : List UInt8}
      (hp : s.pop = .copy bufSize gen1 msgSz copySz out) (hlt : out.length < copySz.toNat) :
      PopMoves s
        { s with
          pop := .copy bufSize gen1 msgSz copySz
            (out ++ [s.seg.byte (rslot s.cons) out.length]) } []
  | torn {s : State} {bufSize msgSz copySz : UInt32} {gen1 : Nat} {out : List UInt8}
      (hp : s.pop = .copy bufSize gen1 msgSz copySz out) (hle : copySz.toNat ≤ out.length)
      (hgen : u32 (s.seg.generation (rslot s.cons)) ≠ u32 gen1) :
      PopMoves s { s with pop := .relocate bufSize out } []
  | whole {s : State} {bufSize msgSz copySz : UInt32} {gen1 : Nat} {out : List UInt8}
      (hp : s.pop = .copy bufSize gen1 msgSz copySz out) (hle : copySz.toNat ≤ out.length)
      (hgen : u32 (s.seg.generation (rslot s.cons)) = u32 gen1) :
      PopMoves s { s with pop := .store bufSize msgSz out (occupant s) } []
  | store {s : State} {bufSize msgSz : UInt32} {out : List UInt8} {index : Nat}
      (hp : s.pop = .store bufSize msgSz out index) :
      PopMoves s (setRead s (s.cons.readPos + 1)) [.popped bufSize msgSz out false (some index)]
  | relocate {s : State} {bufSize : UInt32} {out : List UInt8}
      (hp : s.pop = .relocate bufSize out) :
      PopMoves s
        { s with
          cons := { s.cons with writeCache := s.seg.cb.writePos }
          pop := .storeLost bufSize out
            (relocated { s.cons with writeCache := s.seg.cb.writePos }) } []
  | storeLost {s : State} {bufSize : UInt32} {out : List UInt8} {p : Nat}
      (hp : s.pop = .storeLost bufSize out p) :
      PopMoves s (setRead s p) [.popped bufSize 0 out true none]

theorem stepPush_moves {s u : State} {o : List Event} (h : stepPush s = some (u, o)) :
    PushMoves s none u o := by
  unfold stepPush at h
  cases hp : s.push with
  | idle =>
    rw [hp] at h
    cases h
  | loadGen msg =>
    rw [hp] at h
    obtain ⟨rfl, rfl⟩ := Prod.mk.inj (Option.some.inj h)
    exact .loadGen hp
  | storeOdd msg g =>
    rw [hp] at h
    obtain ⟨rfl, rfl⟩ := Prod.mk.inj (Option.some.inj h)
    exact .storeOdd hp
  | setSize msg g =>
    rw [hp] at h
    obtain ⟨rfl, rfl⟩ := Prod.mk.inj (Option.some.inj h)
    exact .setSize hp
  | copy msg g k =>
    rw [hp] at h
    dsimp only at h
    split at h
    · obtain ⟨rfl, rfl⟩ := Prod.mk.inj (Option.some.inj h)
      exact .setByte hp ‹_›
    · obtain ⟨rfl, rfl⟩ := Prod.mk.inj (Option.some.inj h)
      exact .storeEven hp (List.getElem?_eq_none_iff.mp ‹_›)
  | publish msg =>
    rw [hp] at h
    obtain ⟨rfl, rfl⟩ := Prod.mk.inj (Option.some.inj h)
    exact .publish hp

theorem stepPop_moves {s u : State} {o : List Event} (h : stepPop s = some (u, o)) :
    PopMoves s u o := by
  unfold stepPop at h
  cases hp : s.pop with
  | idle =>
    rw [hp] at h
    cases h
  | reload bufSize =>
    rw [hp] at h
    dsimp only at h
    split at h
    · obtain ⟨rfl, rfl⟩ := Prod.mk.inj (Option.some.inj h)
      exact .empty hp ‹_›
    · obtain ⟨rfl, rfl⟩ := Prod.mk.inj (Option.some.inj h)
      exact .relook hp (Bool.eq_false_iff.mpr ‹_›)
  | fastForward bufSize p =>
    rw [hp] at h
    obtain ⟨rfl, rfl⟩ := Prod.mk.inj (Option.some.inj h)
    exact .fastForward hp
  | loadGen bufSize =>
    rw [hp] at h
    dsimp only at h
    split at h
    · obtain ⟨rfl, rfl⟩ := Prod.mk.inj (Option.some.inj h)
      exact .retry hp ‹_›
    · obtain ⟨rfl, rfl⟩ := Prod.mk.inj (Option.some.inj h)
      exact .loadGen hp (Bool.eq_false_iff.mpr ‹_›)
  | getSize bufSize gen1 =>
    rw [hp] at h
    obtain ⟨rfl, rfl⟩ := Prod.mk.inj (Option.some.inj h)
    exact .getSize hp
  | copy bufSize gen1 msgSz copySz out =>
    rw [hp] at h
    dsimp only at h
    split at h
    · obtain ⟨rfl, rfl⟩ := Prod.mk.inj (Option.some.inj h)
      exact .getByte hp ‹_›
    · rename_i hlen
      split at h
      · obtain ⟨rfl, rfl⟩ := Prod.mk.inj (Option.some.inj h)
        exact .torn hp (Nat.le_of_not_lt hlen) ‹_›
      · obtain ⟨rfl, rfl⟩ := Prod.mk.inj (Option.some.inj h)
        exact .whole hp (Nat.le_of_not_lt hlen) (not_not.mp ‹_›)
  | store bufSize msgSz out index =>
    rw [hp] at h
    obtain ⟨rfl, rfl⟩ := Prod.mk.inj (Option.some.inj h)
    exact .store hp
  | relocate bufSize out =>
    rw [hp] at h
    obtain ⟨rfl, rfl⟩ := Prod.mk.inj (Option.some.inj h)
    exact .relocate hp
  | storeLost bufSize out p =>
    rw [hp] at h
    obtain ⟨rfl, rfl⟩ := Prod.mk.inj (Option.some.inj h)
    exact .storeLost hp

theorem step_push_moves {s u : State} {o : List Event} {msg : List UInt8}
    (h : step s (.push msg) = some (u, o)) : PushMoves s (some msg) u o := by
  unfold step at h
  cases hp : s.push with
  | idle =>
    rw [hp] at h
    dsimp only at h
    split at h
    · obtain ⟨rfl, rfl⟩ := Prod.mk.inj (Option.some.inj h)
      exact .refused hp ‹_›
    · obtain ⟨rfl, rfl⟩ := Prod.mk.inj (Option.some.inj h)
      exact .start hp (Nat.le_of_not_lt ‹_›)
  | _ =>
    rw [hp] at h
    cases h

theorem step_tryPopLossy_moves {s u : State} {o : List Event} {bufSize : UInt32}
    (h : step s (.tryPopLossy bufSize) = some (u, o)) : s.pop = .idle ∧ PopMoves s u o := by
  unfold step at h
  cases hp : s.pop with
  | idle =>
    rw [hp] at h
    dsimp only at h
    refine ⟨rfl, ?_⟩
    split at h
    · obtain ⟨rfl, rfl⟩ := Prod.mk.inj (Option.some.inj h)
      exact .reload hp ‹_›
    · obtain ⟨rfl, rfl⟩ := Prod.mk.inj (Option.some.inj h)
      exact .look hp (Bool.eq_false_iff.mpr ‹_›)
  | _ =>
    rw [hp] at h
    cases h

/-- A step is one party's. -/
theorem step_moves {s u : State} {l : Label} {o : List Event} (h : step s l = some (u, o)) :
    (∃ a, PushMoves s a u o ∧ ∀ msg, a = some msg → l = .push msg) ∨
      PopMoves s u o ∧ (l = .consumer ∨ s.pop = .idle) := by
  cases l with
  | push msg =>
    refine Or.inl ⟨some msg, step_push_moves h, ?_⟩
    intro msg' hmsg
    rw [Option.some.inj hmsg]
  | producer => exact Or.inl ⟨none, stepPush_moves h, nofun⟩
  | tryPopLossy bufSize =>
    obtain ⟨hidle, hm⟩ := step_tryPopLossy_moves h
    exact Or.inr ⟨hm, Or.inr hidle⟩
  | consumer => exact Or.inr ⟨stepPop_moves h, Or.inl rfl⟩

/-- The producer returns nothing of the consumer's, and leaves it as it is. -/
theorem PushMoves.cons_eq {s u : State} {a : Option (List UInt8)} {o : List Event}
    (h : PushMoves s a u o) : u.cons = s.cons := by
  cases h <;> rfl

theorem PushMoves.pop_eq {s u : State} {a : Option (List UInt8)} {o : List Event}
    (h : PushMoves s a u o) : u.pop = s.pop := by
  cases h <;> rfl

theorem PushMoves.capacity_eq {s u : State} {a : Option (List UInt8)} {o : List Event}
    (h : PushMoves s a u o) : u.prod.capacity = s.prod.capacity := by
  cases h <;> rfl

theorem PushMoves.returned_eq {s u : State} {a : Option (List UInt8)} {o : List Event}
    (h : PushMoves s a u o) : returned o = [] := by
  cases h <;> rfl

theorem PushMoves.indices_eq {s u : State} {a : Option (List UInt8)} {o : List Event}
    (h : PushMoves s a u o) : indices o = [] := by
  cases h <;> rfl

theorem PopMoves.pushed_eq {s u : State} {o : List Event} (h : PopMoves s u o) :
    pushed o = [] := by
  cases h <;> rfl

end Lossy

end HftComponents.Spsc
