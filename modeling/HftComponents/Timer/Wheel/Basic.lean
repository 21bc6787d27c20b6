import Mathlib.Logic.Function.Basic
import HftComponents.Lib.Machine
import HftComponents.Timer.Ids

/-!
# The hierarchical timer wheel

`timer_wheel.hpp`.  Four levels of slots, each slot a linked list of entries,
and `entries_`, a map from a `TimerID` to the place and the list node of its
entry, so that `cancel` can unlink in constant time.

A list node carries an address, because `entries_` stores an iterator and the
question is whether that iterator still designates a node of the list `cancel`
erases it from.  Erasing a node from a list that does not hold it is undefined
behaviour, and `cancel` says so by answering `none`.

Unsigned arithmetic is `UInt64` and wraps as in the source.  The `int` that
`cascade` makes of a size is an `Int32`.  The `int` counters that `tick` and
`advance` return are exact: signed overflow is undefined, and a statement about
them takes the steps whose counts fit (`CountsFit`).

`fire_slot` runs user code in the middle of its loop.  `machine` therefore cuts
it at every callback: `Control.callback` is the moment a callback runs, with
the entries of the swapped-out list that have not run yet, and the labels that
are enabled there are the calls the callback may make.
-/

namespace HftComponents.Timer.Wheel

/-! ### Slots and places -/

def kL0Slots : UInt64 := 256
def kL1Slots : UInt64 := 64
def kL2Slots : UInt64 := 64
def kL3Slots : UInt64 := 64

/-- The four arrays `l0_` … `l3_`. -/
inductive Level
  | l0 | l1 | l2 | l3
  deriving DecidableEq, Repr

def Level.slots : Level → UInt64
  | .l0 => kL0Slots
  | .l1 => kL1Slots
  | .l2 => kL2Slots
  | .l3 => kL3Slots

/-- A slot of a level: `l0_[slot]` is the place `⟨.l0, slot⟩`. -/
structure Place where
  level : Level
  slot : Fin level.slots.toNat
  deriving DecidableEq, Repr

theorem toNat_and_lt (t : UInt64) (l : Level) : (t &&& (l.slots - 1)).toNat < l.slots.toNat := by
  rw [UInt64.toNat_and]
  cases l
  all_goals exact lt_of_le_of_lt Nat.and_le_right (by decide)

/-- The slot of a level that the absolute tick `t` selects. -/
def Level.slotOf (t : UInt64) : (l : Level) → Fin l.slots.toNat
  | .l0 => ⟨(t &&& (kL0Slots - 1)).toNat, toNat_and_lt _ .l0⟩
  | .l1 => ⟨((t >>> 8) &&& (kL1Slots - 1)).toNat, toNat_and_lt _ .l1⟩
  | .l2 => ⟨((t >>> 14) &&& (kL2Slots - 1)).toNat, toNat_and_lt _ .l2⟩
  | .l3 => ⟨((t >>> 20) &&& (kL3Slots - 1)).toNat, toNat_and_lt _ .l3⟩

/-- The level by the remaining time, the slot by the expiry's own bits. -/
def placeOf (jiffies expiryTick : UInt64) : Place :=
  let remaining := expiryTick - jiffies
  if remaining < kL0Slots then ⟨.l0, Level.slotOf expiryTick .l0⟩
  else if remaining < kL0Slots * kL1Slots then ⟨.l1, Level.slotOf expiryTick .l1⟩
  else if remaining < kL0Slots * kL1Slots * kL2Slots then ⟨.l2, Level.slotOf expiryTick .l2⟩
  else ⟨.l3, Level.slotOf expiryTick .l3⟩

/-! ### The wheel -/

structure Entry (κ : Type) where
  id : TimerID
  expiryTick : UInt64
  intervalTicks : UInt64
  cb : κ
  deriving DecidableEq, Repr

/-- A node of a `std::list<Entry>`; an iterator to it holds `addr`. -/
structure Node (κ : Type) where
  addr : Nat
  entry : Entry κ
  deriving DecidableEq, Repr

structure Location where
  place : Place
  iter : Nat
  deriving DecidableEq, Repr

structure Stats where
  inserted : UInt64 := 0
  fired : UInt64 := 0
  cancelled : UInt64 := 0
  cascades : UInt64 := 0
  deriving DecidableEq, Repr

/-- `nextAddr` stands for the allocator: nodes that exist have distinct
addresses, all below it. -/
structure TimerWheel (κ : Type) where
  slots : Place → List (Node κ) := fun _ => []
  entries : AList (fun _ : TimerID => Location) := ∅
  jiffies : UInt64 := 0
  nextId : UInt64 := 1
  stats : Stats := {}
  nextAddr : Nat := 0

namespace TimerWheel

variable {κ : Type}

def pending (w : TimerWheel κ) : Nat := w.entries.keys.length

/-- `push_back` a new node at the entry's place and record its location. -/
def insert (w : TimerWheel κ) (e : Entry κ) : TimerWheel κ :=
  let p := placeOf w.jiffies e.expiryTick
  { w with
    slots := Function.update w.slots p (w.slots p ++ [⟨w.nextAddr, e⟩])
    entries := w.entries.insert e.id ⟨p, w.nextAddr⟩
    nextAddr := w.nextAddr + 1 }

/-- The common part of `schedule` and `schedule_periodic`: issue an id, insert,
count.  `interval` is `0` for a one-shot. -/
def add (w : TimerWheel κ) (delay interval : UInt64) (cb : κ) : TimerID × TimerWheel κ :=
  let e : Entry κ := ⟨w.nextId, w.jiffies + delay, interval, cb⟩
  let w := insert { w with nextId := w.nextId + 1 } e
  (e.id, { w with stats := { w.stats with inserted := w.stats.inserted + 1 } })

def schedule (w : TimerWheel κ) (delayTicks : UInt64) (cb : κ) : TimerID × TimerWheel κ :=
  let delayTicks := if delayTicks = 0 then 1 else delayTicks
  w.add delayTicks 0 cb

def schedulePeriodic (w : TimerWheel κ) (intervalTicks : UInt64) (cb : κ) :
    TimerID × TimerWheel κ :=
  let intervalTicks := if intervalTicks = 0 then 1 else intervalTicks
  w.add intervalTicks intervalTicks cb

/-- `erase(loc.iter)` on the list `loc` names, and `entries_.erase(it)`. -/
def unlink (w : TimerWheel κ) (id : TimerID) (loc : Location) : TimerWheel κ :=
  { w with
    slots := Function.update w.slots loc.place
      ((w.slots loc.place).eraseP fun n => n.addr = loc.iter)
    entries := w.entries.erase id
    stats := { w.stats with cancelled := w.stats.cancelled + 1 } }

/-- `none` is undefined behaviour: the iterator is not one into that list. -/
def cancel (w : TimerWheel κ) (id : TimerID) : Option (Bool × TimerWheel κ) :=
  match w.entries.lookup id with
  | none => some (false, w)
  | some loc =>
    if (w.slots loc.place).any (fun n => n.addr = loc.iter) then some (true, w.unlink id loc)
    else none

/-- `local.swap(slot)`: the slot is left empty. -/
def swapOut (w : TimerWheel κ) (p : Place) : TimerWheel κ :=
  { w with slots := Function.update w.slots p [] }

def eraseId (w : TimerWheel κ) (id : TimerID) : TimerWheel κ :=
  { w with entries := w.entries.erase id }

/-- One turn of the loops of `cascade`. -/
def reinsert (w : TimerWheel κ) (n : Node κ) : TimerWheel κ := (w.eraseId n.entry.id).insert n.entry

/-- `cascade(from_level)`, the same code for the levels `1`, `2` and `3`.  `count`
is `static_cast<int>(local.size())`. -/
def cascade (w : TimerWheel κ) (l : Level) : TimerWheel κ :=
  let p : Place := ⟨l, l.slotOf w.jiffies⟩
  let moved := w.slots p
  let w := moved.foldl reinsert (w.swapOut p)
  let count := Int32.ofNat moved.length
  { w with stats := { w.stats with cascades := w.stats.cascades + count.toInt64.toUInt64 } }

/-- The first half of `tick`: the clock and the cascades. -/
def turn (w : TimerWheel κ) : TimerWheel κ :=
  let w := { w with jiffies := w.jiffies + 1 }
  if w.jiffies &&& (kL0Slots - 1) = 0 then
    let w := w.cascade .l1
    if w.jiffies &&& (kL0Slots * kL1Slots - 1) = 0 then
      let w := w.cascade .l2
      if w.jiffies &&& (kL0Slots * kL1Slots * kL2Slots - 1) = 0 then w.cascade .l3
      else w
    else w
  else w

/-- The place `tick` fires. -/
def currentPlace (w : TimerWheel κ) : Place := ⟨.l0, Level.slotOf w.jiffies .l0⟩

/-- What `fire_slot` does after a callback has returned. -/
def afterCallback (w : TimerWheel κ) (e : Entry κ) : TimerWheel κ :=
  let w := { w with stats := { w.stats with fired := w.stats.fired + 1 } }
  if e.intervalTicks ≠ 0 then w.insert { e with expiryTick := w.jiffies + e.intervalTicks }
  else w

end TimerWheel

/-! ### The machine -/

/-- Who called `tick`: the user, or `advance` with `left` ticks to go. -/
inductive Caller
  | user
  | advance (left total : Nat)
  deriving DecidableEq, Repr

/-- Where the thread is.  In `callback` the entry `running` is on, `rest` is
what is left of `fire_slot`'s local list and `count` what it has counted. -/
inductive Control (κ : Type)
  | idle
  | advancing (left total : Nat)
  | callback (caller : Caller) (count : Nat) (running : Entry κ) (rest : List (Node κ))
  | undefined

structure State (κ : Type) where
  wheel : TimerWheel κ := {}
  control : Control κ := .idle

/-- The calls, and the two moves of the thread itself: the loop of `advance`
going on, a callback returning. -/
inductive Label (κ : Type)
  | schedule (delayTicks : UInt64) (cb : κ)
  | schedulePeriodic (intervalTicks : UInt64) (cb : κ)
  | cancel (id : TimerID)
  | pending
  | tick
  | advance (n : UInt64)
  | next
  | ret

inductive Event (κ : Type)
  | scheduled (delayTicks : UInt64) (cb : κ) (id : TimerID)
  | scheduledPeriodic (intervalTicks : UInt64) (cb : κ) (id : TimerID)
  | cancelled (id : TimerID) (found : Bool)
  | counted (pending : Nat)
  | tickBegan
  | invoked (id : TimerID) (cb : κ)
  | returned
  | ticked (count : Nat)
  | advanceBegan (n : UInt64)
  | advanced (total : Nat)
  deriving DecidableEq, Repr

variable {κ : Type}

/-- User code can call into the wheel: between public calls and in a callback. -/
def Control.open : Control κ → Bool
  | .idle | .callback .. => true
  | .advancing .. | .undefined => false

/-- The loop head of `fire_slot`: start the next callback, or end the tick. -/
def fireNext (w : TimerWheel κ) (caller : Caller) (count : Nat) :
    List (Node κ) → State κ × List (Event κ)
  | n :: rest =>
    (⟨w.eraseId n.entry.id, .callback caller count n.entry rest⟩, [.invoked n.entry.id n.entry.cb])
  | [] =>
    match caller with
    | .user => (⟨w, .idle⟩, [.ticked count])
    | .advance left total => (⟨w, .advancing left (total + count)⟩, [.ticked count])

/-- `tick` up to its first callback. -/
def tick (w : TimerWheel κ) (caller : Caller) : State κ × List (Event κ) :=
  let w := w.turn
  let p := w.currentPlace
  let (s, o) := fireNext (w.swapOut p) caller 0 (w.slots p)
  (s, .tickBegan :: o)

def step (s : State κ) : Label κ → Option (State κ × List (Event κ))
  | .schedule d cb =>
    if s.control.open then
      let (id, w) := s.wheel.schedule d cb
      some (⟨w, s.control⟩, [.scheduled d cb id])
    else none
  | .schedulePeriodic i cb =>
    if s.control.open then
      let (id, w) := s.wheel.schedulePeriodic i cb
      some (⟨w, s.control⟩, [.scheduledPeriodic i cb id])
    else none
  | .cancel id =>
    if s.control.open then
      match s.wheel.cancel id with
      | some (found, w) => some (⟨w, s.control⟩, [.cancelled id found])
      | none => some (⟨s.wheel, .undefined⟩, [])
    else none
  | .pending => if s.control.open then some (s, [.counted s.wheel.pending]) else none
  | .tick =>
    match s.control with
    | .idle => some (tick s.wheel .user)
    | _ => none
  | .advance n =>
    match s.control with
    | .idle => some (⟨s.wheel, .advancing n.toNat 0⟩, [.advanceBegan n])
    | _ => none
  | .next =>
    match s.control with
    | .advancing 0 total => some (⟨s.wheel, .idle⟩, [.advanced total])
    | .advancing (left + 1) total => some (tick s.wheel (.advance left total))
    | _ => none
  | .ret =>
    match s.control with
    | .callback caller count e rest =>
      let (t, o) := fireNext (s.wheel.afterCallback e) caller (count + 1) rest
      some (t, .returned :: o)
    | _ => none

/-- What a step can do, one case for each branch of `step`. -/
inductive Moves : State κ → Label κ → State κ → List (Event κ) → Prop
  | schedule {w : TimerWheel κ} {c : Control κ} (hc : c.open = true) (d : UInt64) (cb : κ) :
      Moves ⟨w, c⟩ (.schedule d cb) ⟨(w.schedule d cb).2, c⟩ [.scheduled d cb (w.schedule d cb).1]
  | schedulePeriodic {w : TimerWheel κ} {c : Control κ} (hc : c.open = true) (i : UInt64) (cb : κ) :
      Moves ⟨w, c⟩ (.schedulePeriodic i cb) ⟨(w.schedulePeriodic i cb).2, c⟩
        [.scheduledPeriodic i cb (w.schedulePeriodic i cb).1]
  | cancel {w w' : TimerWheel κ} {c : Control κ} (hc : c.open = true) {id : TimerID} {found : Bool}
      (h : w.cancel id = some (found, w')) :
      Moves ⟨w, c⟩ (.cancel id) ⟨w', c⟩ [.cancelled id found]
  | undefined {w : TimerWheel κ} {c : Control κ} (hc : c.open = true) {id : TimerID}
      (h : w.cancel id = none) : Moves ⟨w, c⟩ (.cancel id) ⟨w, .undefined⟩ []
  | pending {w : TimerWheel κ} {c : Control κ} (hc : c.open = true) :
      Moves ⟨w, c⟩ .pending ⟨w, c⟩ [.counted w.pending]
  | tick (w : TimerWheel κ) : Moves ⟨w, .idle⟩ .tick (tick w .user).1 (tick w .user).2
  | advance (w : TimerWheel κ) (n : UInt64) :
      Moves ⟨w, .idle⟩ (.advance n) ⟨w, .advancing n.toNat 0⟩ [.advanceBegan n]
  | advanced (w : TimerWheel κ) (total : Nat) :
      Moves ⟨w, .advancing 0 total⟩ .next ⟨w, .idle⟩ [.advanced total]
  | advanceTick (w : TimerWheel κ) (left total : Nat) :
      Moves ⟨w, .advancing (left + 1) total⟩ .next (tick w (.advance left total)).1
        (tick w (.advance left total)).2
  | ret (w : TimerWheel κ) (caller : Caller) (count : Nat) (e : Entry κ) (rest : List (Node κ)) :
      Moves ⟨w, .callback caller count e rest⟩ .ret
        (fireNext (w.afterCallback e) caller (count + 1) rest).1
        (.returned :: (fireNext (w.afterCallback e) caller (count + 1) rest).2)

theorem step_moves {s t : State κ} {l : Label κ} {o : List (Event κ)}
    (h : step s l = some (t, o)) : Moves s l t o := by
  obtain ⟨w, c⟩ := s
  cases l with
  | schedule d cb =>
    simp only [step, Option.ite_none_right_eq_some, Option.some.injEq, Prod.mk.injEq] at h
    obtain ⟨hc, rfl, rfl⟩ := h
    exact .schedule hc d cb
  | schedulePeriodic i cb =>
    simp only [step, Option.ite_none_right_eq_some, Option.some.injEq, Prod.mk.injEq] at h
    obtain ⟨hc, rfl, rfl⟩ := h
    exact .schedulePeriodic hc i cb
  | cancel id =>
    simp only [step, Option.ite_none_right_eq_some] at h
    obtain ⟨hc, h⟩ := h
    split at h
    · obtain ⟨rfl, rfl⟩ := Prod.mk.inj (Option.some.inj h)
      exact .cancel hc ‹_›
    · obtain ⟨rfl, rfl⟩ := Prod.mk.inj (Option.some.inj h)
      exact .undefined hc ‹_›
  | pending =>
    simp only [step, Option.ite_none_right_eq_some, Option.some.injEq, Prod.mk.injEq] at h
    obtain ⟨hc, rfl, rfl⟩ := h
    exact .pending hc
  | tick =>
    cases c with
    | idle =>
      obtain ⟨rfl, rfl⟩ := Prod.mk.inj (Option.some.inj h)
      exact .tick w
    | _ => cases h
  | advance n =>
    cases c with
    | idle =>
      obtain ⟨rfl, rfl⟩ := Prod.mk.inj (Option.some.inj h)
      exact .advance w n
    | _ => cases h
  | next =>
    cases c with
    | advancing left total =>
      cases left with
      | zero =>
        obtain ⟨rfl, rfl⟩ := Prod.mk.inj (Option.some.inj h)
        exact .advanced w total
      | succ left =>
        obtain ⟨rfl, rfl⟩ := Prod.mk.inj (Option.some.inj h)
        exact .advanceTick w left total
    | _ => cases h
  | ret =>
    cases c with
    | callback caller count e rest =>
      obtain ⟨rfl, rfl⟩ := Prod.mk.inj (Option.some.inj h)
      exact .ret w caller count e rest
    | _ => cases h

def machine (κ : Type) : Lib.Machine (State κ) (Label κ) (Event κ) := ⟨step⟩

def init : State κ := {}

/-- The ids that a run hands out, in order. -/
def issued : List (Event κ) → List TimerID :=
  List.filterMap fun
    | .scheduled _ _ id | .scheduledPeriodic _ _ id => some id
    | _ => none

end HftComponents.Timer.Wheel
