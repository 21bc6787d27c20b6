import HftComponents.Spsc.Fifo

/-!
# Death and re-attachment

Either process may die between any two accesses to the segment, and a new
`Producer` or `Consumer` may be constructed on it.  All that outlives a process
is the segment: a constructor reads its own position there and then the other
side's, while that side keeps moving.

A death loses what was private, and by `Fifo` that is little: the own position
is that of the control block (`Sound.queue`), the cached one is a bound that a
fresh load improves, and a message half written lies in a slot that is free.  So
the observer of `Delivers` sees one queue, whatever dies: the `i`-th message
consumed is the `i`-th one published, and what a dead consumer had copied is
part of the message that is consumed next.

`create` stores the slot stride in 32 bits.  `recovers` needs it to fit: else
slots overlap, and a message is overwritten before it is consumed
(`overwritten_unread`).
-/

namespace HftComponents.Spsc.Recovery

open Lib.Ring
open Bus (PushMoves PopMoves Fifo delivered rslot)

/-! ### The machine -/

/-- A process has died, is in its constructor with what that has read so far, or
runs. -/
inductive Life (P : Type)
  | dead
  | attaching (p : P)
  | up

/-- While a side is dead or attaching, `bus` keeps its last object. -/
structure State where
  bus : Bus.State
  prod : Life Producer := .dead
  cons : Life Consumer := .dead
  /-- What the `try_pop` in progress has been called with. -/
  bufSize : UInt32 := 0

inductive Label
  | tryPush (msg : List UInt8)
  | producer
  | killProducer
  | newProducer
  | tryPop (bufSize : UInt32)
  | consumer
  | killConsumer
  | newConsumer

/-- `pushed` and `popped` are shown with the store of the position; `abandoned`
is what a consumer had in its buffer when it died before that. -/
inductive Event
  | pushed (msg : List UInt8)
  | full
  | refused
  | popped (bufSize msgSz : UInt32) (out : List UInt8)
  | abandoned (bufSize msgSz : UInt32) (out : List UInt8)
  | empty
  deriving DecidableEq, Repr

def shown (bufSize : UInt32) : Bus.Event → Event
  | .pushed msg => .pushed msg
  | .full => .full
  | .refused => .refused
  | .popped msgSz out => .popped bufSize msgSz out
  | .empty => .empty

/-- What is lost with the consumer. -/
def abandons (bufSize : UInt32) : Bus.Pop → List Event
  | .copy msgSz _ out => [.abandoned bufSize msgSz out]
  | _ => []

/-- A step of the bus itself. -/
def onBus (s : State) (l : Bus.Label) : Option (State × List Event) :=
  (Bus.step s.bus l).map fun p => ({ s with bus := p.1 }, p.2.map (shown s.bufSize))

/-- The constructor of `Producer`: the first step reads the fields that are
constant or the producer's own, the second one `read_pos`. -/
def newProducer (s : State) : Option (State × List Event) :=
  match s.prod with
  | .dead => some ({ s with
      prod := .attaching { Producer.attach s.bus.seg with readCache := 0 } }, [])
  | .attaching p => some ({ s with
      bus := { s.bus with prod := { p with readCache := s.bus.seg.cb.readPos } }
      prod := .up }, [])
  | .up => none

def newConsumer (s : State) : Option (State × List Event) :=
  match s.cons with
  | .dead => some ({ s with
      cons := .attaching { Consumer.attach s.bus.seg with writeCache := 0 } }, [])
  | .attaching c => some ({ s with
      bus := { s.bus with cons := { c with writeCache := s.bus.seg.cb.writePos } }
      cons := .up }, [])
  | .up => none

def step (s : State) : Label → Option (State × List Event)
  | .tryPush msg =>
    match s.prod with
    | .up => onBus s (.tryPush msg)
    | _ => none
  | .producer =>
    match s.prod with
    | .up => onBus s .producer
    | _ => none
  | .killProducer =>
    match s.prod with
    | .dead => none
    | _ => some ({ s with bus := { s.bus with push := .idle }, prod := .dead }, [])
  | .newProducer => newProducer s
  | .tryPop bufSize =>
    match s.cons with
    | .up => onBus { s with bufSize := bufSize } (.tryPop bufSize)
    | _ => none
  | .consumer =>
    match s.cons with
    | .up => onBus s .consumer
    | _ => none
  | .killConsumer =>
    match s.cons with
    | .dead => none
    | _ => some ({ s with bus := { s.bus with pop := .idle }, cons := .dead },
        abandons s.bufSize s.bus.pop)
  | .newConsumer => newConsumer s

def machine : Lib.Machine State Label Event := ⟨step⟩

/-- A bus just created, with no process attached. -/
def init (seg : Segment) : State := { bus := Bus.init seg }

/-! ### What a step can do -/

inductive Moves : State → Label → State → List Event → Prop
  | tryPush {s : State} {msg : List UInt8} {u : Bus.State} {o : List Bus.Event}
      (hup : s.prod = .up) (hm : PushMoves s.bus (some msg) u o) :
      Moves s (.tryPush msg) { s with bus := u } (o.map (shown s.bufSize))
  | push {s : State} {u : Bus.State} {o : List Bus.Event} (hup : s.prod = .up)
      (hm : PushMoves s.bus none u o) :
      Moves s .producer { s with bus := u } (o.map (shown s.bufSize))
  | killProducer {s : State} :
      Moves s .killProducer { s with bus := { s.bus with push := .idle }, prod := .dead } []
  | attachProducer {s : State} (hdead : s.prod = .dead) :
      Moves s .newProducer
        { s with prod := .attaching { Producer.attach s.bus.seg with readCache := 0 } } []
  | newProducer {s : State} {p : Producer} (hat : s.prod = .attaching p) :
      Moves s .newProducer
        { s with
          bus := { s.bus with prod := { p with readCache := s.bus.seg.cb.readPos } }
          prod := .up } []
  | tryPop {s : State} {bufSize : UInt32} {u : Bus.State} {o : List Bus.Event}
      (hup : s.cons = .up) (hm : PopMoves s.bus (some bufSize) u o) :
      Moves s (.tryPop bufSize) { s with bus := u, bufSize := bufSize } (o.map (shown bufSize))
  | pop {s : State} {u : Bus.State} {o : List Bus.Event} (hup : s.cons = .up)
      (hm : PopMoves s.bus none u o) :
      Moves s .consumer { s with bus := u } (o.map (shown s.bufSize))
  | killConsumer {s : State} :
      Moves s .killConsumer { s with bus := { s.bus with pop := .idle }, cons := .dead }
        (abandons s.bufSize s.bus.pop)
  | attachConsumer {s : State} (hdead : s.cons = .dead) :
      Moves s .newConsumer
        { s with cons := .attaching { Consumer.attach s.bus.seg with writeCache := 0 } } []
  | newConsumer {s : State} {c : Consumer} (hat : s.cons = .attaching c) :
      Moves s .newConsumer
        { s with
          bus := { s.bus with cons := { c with writeCache := s.bus.seg.cb.writePos } }
          cons := .up } []

variable {s u : State} {l : Label} {o os : List Event} {ms : List (List UInt8)}

theorem onBus_eq {b : Bus.Label} (h : onBus s b = some (u, o)) :
    ∃ v o', Bus.step s.bus b = some (v, o') ∧ u = { s with bus := v } ∧
      o = o'.map (shown s.bufSize) := by
  obtain ⟨⟨v, o'⟩, hv, heq⟩ := Option.map_eq_some_iff.mp h
  obtain ⟨rfl, rfl⟩ := Prod.mk.inj heq
  exact ⟨v, o', hv, rfl, rfl⟩

theorem step_moves (h : step s l = some (u, o)) : Moves s l u o := by
  unfold step at h
  cases l with
  | tryPush msg =>
    dsimp only at h
    split at h
    · obtain ⟨v, o', hv, rfl, rfl⟩ := onBus_eq h
      exact .tryPush ‹_› (Bus.step_tryPush_moves hv)
    · cases h
  | producer =>
    dsimp only at h
    split at h
    · obtain ⟨v, o', hv, rfl, rfl⟩ := onBus_eq h
      exact .push ‹_› (Bus.stepPush_moves hv)
    · cases h
  | killProducer =>
    dsimp only at h
    split at h
    · cases h
    · obtain ⟨rfl, rfl⟩ := Prod.mk.inj (Option.some.inj h)
      exact .killProducer
  | newProducer =>
    dsimp only [newProducer] at h
    split at h
    · obtain ⟨rfl, rfl⟩ := Prod.mk.inj (Option.some.inj h)
      exact .attachProducer ‹_›
    · obtain ⟨rfl, rfl⟩ := Prod.mk.inj (Option.some.inj h)
      exact .newProducer ‹_›
    · cases h
  | tryPop bufSize =>
    dsimp only at h
    split at h
    · obtain ⟨v, o', hv, rfl, rfl⟩ := onBus_eq h
      exact .tryPop ‹_› (Bus.step_tryPop_moves hv)
    · cases h
  | consumer =>
    dsimp only at h
    split at h
    · obtain ⟨v, o', hv, rfl, rfl⟩ := onBus_eq h
      exact .pop ‹_› (Bus.stepPop_moves hv)
    · cases h
  | killConsumer =>
    dsimp only at h
    split at h
    · cases h
    · obtain ⟨rfl, rfl⟩ := Prod.mk.inj (Option.some.inj h)
      exact .killConsumer
  | newConsumer =>
    dsimp only [newConsumer] at h
    split at h
    · obtain ⟨rfl, rfl⟩ := Prod.mk.inj (Option.some.inj h)
      exact .attachConsumer ‹_›
    · obtain ⟨rfl, rfl⟩ := Prod.mk.inj (Option.some.inj h)
      exact .newConsumer ‹_›
    · cases h

/-! ### The specification -/

/-- The queue as an observer sees it. -/
structure Account where
  published : List (List UInt8) := []
  next : Nat := 0

/-- Message `next` is the one that is consumed, and the only one of which a dead
consumer has part. -/
inductive Delivers (capacity : UInt32) : Account → Event → Account → Prop
  | pushed {a : Account} {msg : List UInt8} (hroom : a.published.length < a.next + capacity.toNat) :
      Delivers capacity a (.pushed msg) { a with published := a.published ++ [msg] }
  | full {a : Account} (hfull : a.published.length = a.next + capacity.toNat) :
      Delivers capacity a .full a
  | refused {a : Account} : Delivers capacity a .refused a
  | popped {a : Account} {bufSize n : UInt32} {out msg : List UInt8}
      (hget : a.published[a.next]? = some msg) (hsize : n.toNat = msg.length)
      (hout : out = msg.take bufSize.toNat) :
      Delivers capacity a (.popped bufSize n out) { a with next := a.next + 1 }
  | abandoned {a : Account} {bufSize n : UInt32} {out msg : List UInt8}
      (hget : a.published[a.next]? = some msg) (hsize : n.toNat = msg.length)
      (hout : out <+: msg.take bufSize.toNat) :
      Delivers capacity a (.abandoned bufSize n out) a
  | empty {a : Account} (hempty : a.next = a.published.length) : Delivers capacity a .empty a

/-! ### The invariant -/

/-- Of what a constructor has read, all but the cache. -/
structure CopiesProducer (p q : Producer) : Prop where
  capacity : p.capacity = q.capacity
  stride : p.stride = q.stride
  maxMsg : p.maxMsg = q.maxMsg
  writePos : p.writePos = q.writePos

structure CopiesConsumer (c d : Consumer) : Prop where
  capacity : c.capacity = d.capacity
  stride : c.stride = d.stride
  maxMsg : c.maxMsg = d.maxMsg
  readPos : c.readPos = d.readPos

theorem CopiesProducer.eq {p q : Producer} (h : CopiesProducer p q) (r : Nat) :
    { p with readCache := r } = { q with readCache := r } := by
  obtain ⟨hcap, hstride, hmax, hpos⟩ := h
  rw [hcap, hstride, hmax, hpos]

theorem CopiesConsumer.eq {c d : Consumer} (h : CopiesConsumer c d) (w : Nat) :
    { c with writeCache := w } = { d with writeCache := w } := by
  obtain ⟨hcap, hstride, hmax, hpos⟩ := h
  rw [hcap, hstride, hmax, hpos]

/-- What `try_pop` has copied belongs to the oldest message. -/
def Copying (ms : List (List UInt8)) (c : Consumer) (bufSize : UInt32) : Bus.Pop → Prop
  | .idle => True
  | .reload b => b = bufSize
  | .getSize b => b = bufSize ∧ c.readPos < c.writeCache
  | .copy msgSz copySz out =>
    c.readPos < c.writeCache ∧ ∃ msg, ms[c.readPos]? = some msg ∧ msgSz = u32 msg.length ∧
      copySz.toNat = min msg.length bufSize.toNat ∧ out = msg.take out.length ∧
      out.length ≤ copySz.toNat

/-- `ms` are the messages published so far.  Up to what the consumer is doing,
the bus is the queue that it would be without a death. -/
structure Sound (ms : List (List UInt8)) (s : State) : Prop where
  queue : Fifo ms ((ms.take s.bus.cons.readPos).map delivered) { s.bus with pop := .idle }
  producer : CopiesProducer (.attach s.bus.seg) s.bus.prod
  consumer : CopiesConsumer (.attach s.bus.seg) s.bus.cons
  attachingProducer : ∀ p, s.prod = .attaching p → CopiesProducer p s.bus.prod
  attachingConsumer : ∀ c, s.cons = .attaching c → CopiesConsumer c s.bus.cons
  idleProducer : s.prod ≠ .up → s.bus.push = .idle
  idleConsumer : s.cons ≠ .up → s.bus.pop = .idle
  copying : Copying ms s.bus.cons s.bufSize s.bus.pop

/-- What an observer knows of the state. -/
structure Agrees (capacity : UInt32) (a : Account) (s : State) : Prop where
  sound : Sound a.published s
  next : a.next = s.bus.cons.readPos
  capacity : s.bus.prod.capacity = capacity

variable {a : Account} {c : UInt32} {b : Bus.State} {o' : List Bus.Event}

theorem Copying.append {d : Consumer} {n : UInt32} {pop : Bus.Pop} (h : Copying ms d n pop)
    (more : List (List UInt8)) : Copying (ms ++ more) d n pop := by
  cases pop with
  | copy msgSz copySz out =>
    obtain ⟨hlt, msg, hget, hrest⟩ := h
    refine ⟨hlt, msg, ?_, hrest⟩
    rw [List.getElem?_append_left (List.getElem?_eq_some_iff.mp hget).1, hget]
  | _ => exact h

/-- What the producer does has nothing to do with what the consumer does. -/
theorem pushMoves_idle {t v : Bus.State} {x : Option (List UInt8)} (hm : PushMoves t x v o') :
    PushMoves { t with pop := .idle } x { v with pop := .idle } o' := by
  cases hm with
  | refused hp hlen => exact .refused hp hlen
  | look hp hlen hfull => exact .look hp hlen hfull
  | start hp hlen hfull => exact .start hp hlen hfull
  | full hp hfull => exact .full (s := { t with pop := .idle }) hp hfull
  | reload hp hfull => exact .reload (s := { t with pop := .idle }) hp hfull
  | setSize hp => exact .setSize (s := { t with pop := .idle }) hp
  | setByte hp hb => exact .setByte (s := { t with pop := .idle }) hp hb
  | pushed hp hk => exact .pushed (s := { t with pop := .idle }) hp hk

theorem fifo_delivery {rs : List (UInt32 × List UInt8)} {t : Bus.State} (h : Fifo ms rs t) :
    Fifo ms ((ms.take t.cons.readPos).map delivered) t := by
  rw [← h.delivery]
  exact h

namespace Sound

/-- **A step of the producer.** -/
theorem push {x : Option (List UInt8)} (h : Sound ms s) (hup : s.prod = .up)
    (hm : PushMoves s.bus x b o') : Sound (ms ++ Bus.pushed o') { s with bus := b } := by
  have hcons := hm.cons_eq
  have hpop : b.pop = s.bus.pop := by cases hm <;> rfl
  refine {
    queue := fifo_delivery (h.queue.pushMoves (pushMoves_idle hm))
    producer := ?_
    consumer := ?_
    attachingProducer := ?_
    attachingConsumer := ?_
    idleProducer := ?_
    idleConsumer := ?_
    copying := ?_ }
  · have hp := h.producer
    cases hm with
    | pushed _ _ => exact { hp with writePos := rfl }
    | _ => exact ⟨hp.capacity, hp.stride, hp.maxMsg, hp.writePos⟩
  · have hc := h.consumer
    rw [hcons]
    cases hm <;> exact ⟨hc.capacity, hc.stride, hc.maxMsg, hc.readPos⟩
  · intro p hp
    rw [show s.prod = .attaching p from hp] at hup
    cases hup
  · rw [hcons]
    exact h.attachingConsumer
  · intro hne
    exact absurd hup hne
  · rw [hpop]
    exact h.idleConsumer
  · rw [hcons, hpop]
    exact h.copying.append _

theorem quiet {pop : Bus.Pop} {n : UInt32} {w : Nat} (h : Sound ms s) (hup : s.cons = .up)
    (hw : s.bus.cons.readPos ≤ w ∧ w ≤ s.bus.prod.writePos)
    (hpop : Copying ms { s.bus.cons with writeCache := w } n pop) :
    Sound ms { s with
      bus := { s.bus with cons := { s.bus.cons with writeCache := w }, pop := pop }
      bufSize := n } where
  queue := { h.queue with
    writeCache := hw.2
    writeCacheOrder := hw.1
    push := h.queue.push }
  producer := h.producer
  consumer := { h.consumer with }
  attachingProducer := h.attachingProducer
  attachingConsumer c hc := by
    rw [show s.cons = .attaching c from hc] at hup
    cases hup
  idleProducer := h.idleProducer
  idleConsumer hne := absurd hup hne
  copying := hpop

theorem toNat_length (h : Sound ms s) {msg : List UInt8} (hm : msg ∈ ms) :
    (u32 msg.length).toNat = msg.length :=
  h.queue.toNat_size hm

/-- The message at the read position, and what its slot holds. -/
theorem oldest (h : Sound ms s) (hlt : s.bus.cons.readPos < s.bus.cons.writeCache) :
    ∃ msg, ms[s.bus.cons.readPos]? = some msg ∧
      Holds s.bus.seg (rslot s.bus.cons) msg msg.length := by
  have hin : s.bus.cons.readPos < ms.length := by
    rw [h.queue.count]
    exact hlt.trans_le h.queue.writeCache
  have hget := List.getElem?_eq_getElem hin
  exact ⟨_, hget, h.queue.oldest hget⟩

/-- **A step of the consumer** before the store of `read_pos`. -/
theorem pop {x : Option UInt32} {n : UInt32} (h : Sound ms s) (hup : s.cons = .up)
    (hx : x.getD s.bufSize = n) (hm : PopMoves s.bus x b o') (ho : Bus.popped o' = []) :
    Sound ms { s with bus := b, bufSize := n } := by
  have hq := h.queue
  have hcopying := h.copying
  have hcache := And.intro hq.writeCacheOrder hq.writeCache
  cases hm with
  | look hp hempty => exact h.quiet hup hcache hx
  | start hp hempty =>
    exact h.quiet hup hcache
      ⟨hx, Bus.lt_of_empty_eq_false hq.writeCacheOrder (hq.writeCache.trans hq.room) hempty⟩
  | empty hp hempty =>
    rw [show s.bus.seg.cb.writePos = s.bus.prod.writePos from hq.writePos]
    exact h.quiet hup ⟨hq.order, le_rfl⟩ trivial
  | reload hp hempty =>
    rw [show s.bus.seg.cb.writePos = s.bus.prod.writePos from hq.writePos] at hempty ⊢
    rw [hp] at hcopying
    exact h.quiet hup ⟨hq.order, le_rfl⟩
      ⟨hcopying.trans hx, Bus.lt_of_empty_eq_false hq.order hq.room hempty⟩
  | getSize hp =>
    rw [hp] at hcopying
    obtain ⟨rfl, hlt⟩ := hcopying
    obtain ⟨msg, hget, hholds⟩ := h.oldest hlt
    refine h.quiet hup hcache ⟨hlt, msg, hget, hholds.1, ?_, rfl, Nat.zero_le _⟩
    rw [toNat_copySz, hholds.1, h.toNat_length (List.mem_of_getElem? hget), ← hx]
    rfl
  | @getByte msgSz copySz out hp hlen =>
    rw [hp] at hcopying
    obtain ⟨hlt, msg, hget, hsize, hcopy, hout, hle⟩ := hcopying
    obtain ⟨msg', hget', hholds⟩ := h.oldest hlt
    obtain rfl := Option.some.inj (hget.symm.trans hget')
    refine h.quiet hup hcache ⟨hlt, msg, hget, hsize, hx ▸ hcopy, ?_, ?_⟩
    · rw [List.length_append, List.length_singleton, ← hholds.take (by omega), ← hout]
    · rw [List.length_append, List.length_singleton]
      exact hlen
  | popped hp hle => cases ho

theorem popped {msg : List UInt8} (h : Sound ms s) (hup : s.cons = .up)
    (hlt : s.bus.cons.readPos < s.bus.cons.writeCache)
    (hget : ms[s.bus.cons.readPos]? = some msg) :
    Sound ms { s with
      bus := { s.bus with
        seg := s.bus.seg.setReadPos (s.bus.cons.readPos + 1)
        cons := { s.bus.cons with readPos := s.bus.cons.readPos + 1 }
        pop := .idle } } := by
  -- as of a call with a buffer that takes the whole message
  have hcopied : Fifo ms ((ms.take s.bus.cons.readPos).map delivered)
      { s.bus with pop := .copy (u32 msg.length) (u32 msg.length) msg } := { h.queue with
    push := h.queue.push
    pop := ⟨hlt, msg, hget, rfl, rfl, List.take_length.symm, le_rfl⟩ }
  have hnext := hcopied.popMoves (b := none) (.popped rfl
    (h.toNat_length (List.mem_of_getElem? hget)).le) nofun
  have hqueue := fifo_delivery hnext
  rw [show ms ++ Bus.pushed [.popped (u32 msg.length) msg] = ms from List.append_nil ms] at hqueue
  exact {
    queue := hqueue
    producer := { h.producer with }
    consumer := { h.consumer with readPos := rfl }
    attachingProducer := h.attachingProducer
    attachingConsumer := by
      intro c hc
      rw [show s.cons = .attaching c from hc] at hup
      cases hup
    idleProducer := h.idleProducer
    idleConsumer := fun hne => absurd hup hne
    copying := trivial }

/-! ### Deaths and constructors -/

theorem killProducer (h : Sound ms s) :
    Sound ms { s with bus := { s.bus with push := .idle }, prod := .dead } where
  queue := { h.queue with push := trivial }
  producer := h.producer
  consumer := h.consumer
  attachingProducer := nofun
  attachingConsumer := h.attachingConsumer
  idleProducer _ := rfl
  idleConsumer := h.idleConsumer
  copying := h.copying

theorem killConsumer (h : Sound ms s) :
    Sound ms { s with bus := { s.bus with pop := .idle }, cons := .dead } where
  queue := h.queue
  producer := h.producer
  consumer := h.consumer
  attachingProducer := h.attachingProducer
  attachingConsumer := nofun
  idleProducer := h.idleProducer
  idleConsumer _ := rfl
  copying := trivial

theorem attachProducer (h : Sound ms s) (hdead : s.prod = .dead) :
    Sound ms
      { s with prod := .attaching { Producer.attach s.bus.seg with readCache := 0 } } := by
  have hidle : s.bus.push = .idle := h.idleProducer (by rw [hdead]; nofun)
  refine { h with attachingProducer := ?_, idleProducer := fun _ => hidle }
  intro p hp
  obtain rfl := Life.attaching.inj hp
  exact { h.producer with }

theorem attachConsumer (h : Sound ms s) (hdead : s.cons = .dead) :
    Sound ms
      { s with cons := .attaching { Consumer.attach s.bus.seg with writeCache := 0 } } := by
  have hidle : s.bus.pop = .idle := h.idleConsumer (by rw [hdead]; nofun)
  refine { h with attachingConsumer := ?_, idleConsumer := fun _ => hidle }
  intro c hc
  obtain rfl := Life.attaching.inj hc
  exact { h.consumer with }

/-- The new producer is the old one, with a fresh load of `read_pos`. -/
theorem newProducer {p : Producer} (h : Sound ms s) (hat : s.prod = .attaching p) :
    Sound ms { s with
      bus := { s.bus with prod := { p with readCache := s.bus.seg.cb.readPos } }
      prod := .up } := by
  have hidle : s.bus.push = .idle := h.idleProducer (by rw [hat]; nofun)
  rw [(h.attachingProducer p hat).eq]
  exact { h with
    queue := { h.queue with
      readCache := h.queue.readPos.le
      readCacheRoom := by
        rw [show s.bus.seg.cb.readPos = s.bus.cons.readPos from h.queue.readPos]
        exact h.queue.room
      push := by
        show Bus.PushOk _ s.bus.push
        rw [hidle]
        trivial }
    producer := { h.producer with }
    attachingProducer := nofun
    idleProducer := fun hne => absurd rfl hne }

theorem newConsumer {d : Consumer} (h : Sound ms s) (hat : s.cons = .attaching d) :
    Sound ms { s with
      bus := { s.bus with cons := { d with writeCache := s.bus.seg.cb.writePos } }
      cons := .up } := by
  have hidle : s.bus.pop = .idle := h.idleConsumer (by rw [hat]; nofun)
  rw [(h.attachingConsumer d hat).eq]
  exact { h with
    queue := { h.queue with
      writeCache := h.queue.writePos.le
      writeCacheOrder := by
        rw [show s.bus.seg.cb.writePos = s.bus.prod.writePos from h.queue.writePos]
        exact h.queue.order
      push := h.queue.push
      pop := trivial }
    consumer := { h.consumer with }
    attachingConsumer := nofun
    idleConsumer := fun hne => absurd rfl hne
    copying := by
      show Copying _ _ _ s.bus.pop
      rw [hidle]
      trivial }

end Sound

/-! ### The observer follows -/

theorem takes_bufSize {msg out : List UInt8} {bufSize copySz : UInt32}
    (hcopy : copySz.toNat = min msg.length bufSize.toNat) (hout : out = msg.take out.length)
    (hle : out.length ≤ copySz.toNat) : out <+: msg.take bufSize.toNat := by
  have hmin : min out.length bufSize.toNat = out.length := by omega
  rw [hout, ← hmin, ← List.take_take]
  exact List.take_prefix _ _

namespace Agrees

theorem push {x : Option (List UInt8)} (h : Agrees c a s) (hup : s.prod = .up)
    (hm : PushMoves s.bus x b o') :
    ∃ a', Lib.Machine.Accepts (Delivers c) a (o'.map (shown s.bufSize)) a' ∧
      Agrees c a' { s with bus := b } := by
  have hs := h.sound.push hup hm
  have hcons := hm.cons_eq
  have hcount := h.sound.queue.count
  refine ⟨{ a with published := a.published ++ Bus.pushed o' }, ?_, hs,
    h.next.trans (by rw [hcons]), hm.fixed.1.trans h.capacity⟩
  have hnone : Bus.pushed o' = [] → { a with published := a.published ++ Bus.pushed o' } = a := by
    intro hnil
    rw [hnil, List.append_nil]
  cases hm with
  | refused hp hlen =>
    rw [hnone rfl]
    exact .single .refused
  | full hp hfull =>
    rw [hnone rfl]
    refine .single (.full ?_)
    rw [show s.bus.seg.cb.readPos = s.bus.cons.readPos from h.sound.queue.readPos] at hfull
    rw [hcount, h.next, ← h.capacity]
    exact (Bus.full_iff h.sound.queue.order h.sound.queue.room).mp hfull
  | pushed hp hk =>
    refine .single (.pushed ?_)
    rw [hcount, h.next, ← h.capacity]
    exact hs.queue.room
  | _ =>
    rw [hnone rfl]
    exact .nil a

theorem pop {x : Option UInt32} {n : UInt32} (h : Agrees c a s) (hup : s.cons = .up)
    (hx : x.getD s.bufSize = n) (hm : PopMoves s.bus x b o') :
    ∃ a', Lib.Machine.Accepts (Delivers c) a (o'.map (shown n)) a' ∧
      Agrees c a' { s with bus := b, bufSize := n } := by
  have hs := h.sound.pop hup hx hm
  have hcopying := h.sound.copying
  have hq := h.sound.queue
  cases hm with
  | @popped msgSz copySz out hp hle =>
    rw [hp] at hcopying
    obtain ⟨hlt, msg, hget, rfl, hcopy, hout, hlen⟩ := hcopying
    have hn : s.bufSize = n := hx
    have hnext : a.published[a.next]? = some msg := by
      rw [h.next]
      exact hget
    refine ⟨{ a with next := a.next + 1 }, .single (.popped hnext ?_ ?_), ?_, ?_, h.capacity⟩
    · exact h.sound.toNat_length (List.mem_of_getElem? hget)
    · rw [hout, List.take_eq_take_iff, ← hn]
      omega
    · have hpopped := h.sound.popped hup hlt hget
      exact { hpopped with queue := hpopped.queue }
    · exact congrArg (· + 1) h.next
  | empty hp hempty =>
    refine ⟨a, .single (.empty ?_), hs rfl, h.next, h.capacity⟩
    rw [show s.bus.seg.cb.writePos = s.bus.prod.writePos from hq.writePos] at hempty
    rw [h.next, hq.count]
    exact ((Bus.empty_iff hq.order hq.room).mp hempty).symm
  | _ => exact ⟨a, .nil a, hs rfl, h.next, h.capacity⟩

/-- **One step.** -/
theorem step (h : Agrees c a s) (hm : Moves s l u o) :
    ∃ a', Lib.Machine.Accepts (Delivers c) a o a' ∧ Agrees c a' u := by
  cases hm with
  | tryPush hup hm => exact h.push hup hm
  | push hup hm => exact h.push hup hm
  | tryPop hup hm => exact h.pop hup rfl hm
  | pop hup hm => exact h.pop hup rfl hm
  | killProducer => exact ⟨a, .nil a, h.sound.killProducer, h.next, h.capacity⟩
  | attachProducer hdead => exact ⟨a, .nil a, h.sound.attachProducer hdead, h.next, h.capacity⟩
  | newProducer hat =>
    exact ⟨a, .nil a, h.sound.newProducer hat, h.next,
      (h.sound.attachingProducer _ hat).capacity.trans h.capacity⟩
  | killConsumer =>
    refine ⟨a, ?_, h.sound.killConsumer, h.next, h.capacity⟩
    have hcopying := h.sound.copying
    cases hp : s.bus.pop with
    | copy msgSz copySz out =>
      rw [hp] at hcopying
      obtain ⟨hlt, msg, hget, rfl, hcopy, hout, hlen⟩ := hcopying
      have hnext : a.published[a.next]? = some msg := by
        rw [h.next]
        exact hget
      exact .single (.abandoned hnext (h.sound.toNat_length (List.mem_of_getElem? hget))
        (takes_bufSize hcopy hout hlen))
    | _ => exact .nil a
  | attachConsumer hdead => exact ⟨a, .nil a, h.sound.attachConsumer hdead, h.next, h.capacity⟩
  | newConsumer hat =>
    exact ⟨a, .nil a, h.sound.newConsumer hat,
      h.next.trans (h.sound.attachingConsumer _ hat).readPos.symm, h.capacity⟩

/-- **A run.** -/
theorem run {ok : State → Label → Prop} (h : Agrees c a s)
    (hr : Lib.Machine.Run machine ok s os u) :
    ∃ a', Lib.Machine.Accepts (Delivers c) a os a' ∧ Agrees c a' u := by
  refine hr.accepted (R := fun _ s a => Agrees c a s) (Q := fun _ => True)
    (fun _ _ _ => trivial) h ?_ trivial
  intro os t b l v o hb _ _ hstep
  exact hb.step (step_moves hstep)

end Agrees

/-! ### Nothing is lost -/

/-- Only the consumer moves, and it does not die. -/
def ConsumerOnly (_ : State) : Label → Prop
  | .tryPop _ | .consumer | .newConsumer => True
  | _ => False

theorem step_consumer (hup : s.cons = .up) (h : Bus.stepPop s.bus = some (b, o')) :
    machine.step s .consumer = some ({ s with bus := b }, o'.map (shown s.bufSize)) := by
  have hbus : step s .consumer = onBus s .consumer := by rw [step, hup]
  show step s .consumer = _
  rw [hbus]
  show (Bus.stepPop s.bus).map _ = _
  rw [h]
  rfl

/-- The consumer consumes one message. -/
def Consumes (s : State) : Prop :=
  ∃ os u, Lib.Machine.Run machine ConsumerOnly s os u ∧ u.cons = .up ∧
    u.bus.seg.cb.writePos = s.bus.seg.cb.writePos ∧ u.bus.cons.readPos = s.bus.cons.readPos + 1

theorem Consumes.of_step {l : Label} (hok : ConsumerOnly s l)
    (hstep : machine.step s l = some (u, o))
    (hsame : u.bus.seg.cb.writePos = s.bus.seg.cb.writePos ∧
      u.bus.cons.readPos = s.bus.cons.readPos) (h : Consumes u) : Consumes s := by
  obtain ⟨os, v, hrun, hup, hwrite, hread⟩ := h
  exact ⟨o ++ os, v, (Lib.Machine.Run.single hok hstep).trans hrun, hup,
    hwrite.trans hsame.1, hread.trans (by rw [hsame.2])⟩

/-- A call that copies comes to its end. -/
theorem consumes_of_copy {msgSz copySz : UInt32} {out : List UInt8} (hup : s.cons = .up)
    (hp : s.bus.pop = .copy msgSz copySz out) : Consumes s := by
  induction hd : copySz.toNat - out.length generalizing s out with
  | zero =>
    have hle : ¬ out.length < copySz.toNat := by omega
    have hpop : Bus.stepPop s.bus = some ({ s.bus with
        seg := s.bus.seg.setReadPos (s.bus.cons.readPos + 1)
        cons := { s.bus.cons with readPos := s.bus.cons.readPos + 1 }
        pop := .idle }, [.popped msgSz out]) := by
      rw [Bus.stepPop, hp]
      dsimp only
      rw [if_neg hle]
    exact ⟨_, _, .single (l := .consumer) trivial (step_consumer hup hpop), hup, rfl, rfl⟩
  | succ d ih =>
    have hlt : out.length < copySz.toNat := by omega
    have hpop : Bus.stepPop s.bus = some ({ s.bus with
        pop := .copy msgSz copySz (out ++ [s.bus.seg.byte (rslot s.bus.cons) out.length]) },
        []) := by
      rw [Bus.stepPop, hp]
      dsimp only
      rw [if_pos hlt]
    refine .of_step (l := .consumer) trivial (step_consumer hup hpop) ⟨rfl, rfl⟩ (ih hup rfl ?_)
    rw [List.length_append, List.length_singleton]
    omega

theorem consumes_of_getSize {n : UInt32} (hup : s.cons = .up)
    (hp : s.bus.pop = .getSize n) : Consumes s := by
  have hpop : Bus.stepPop s.bus = some ({ s.bus with
      pop := .copy (s.bus.seg.size (rslot s.bus.cons))
        (if s.bus.seg.size (rslot s.bus.cons) < n then s.bus.seg.size (rslot s.bus.cons)
          else n) [] }, []) := by
    rw [Bus.stepPop, hp]
  exact .of_step (l := .consumer) trivial (step_consumer hup hpop) ⟨rfl, rfl⟩
    (consumes_of_copy hup rfl)

theorem consumes_of_reload {n : UInt32} (h : Sound ms s) (hup : s.cons = .up)
    (hlt : s.bus.cons.readPos < s.bus.prod.writePos) (hp : s.bus.pop = .reload n) :
    Consumes s := by
  have hq := h.queue
  have hsome : ¬ Bus.empty { s.bus.cons with writeCache := s.bus.seg.cb.writePos } = true := by
    rw [show s.bus.seg.cb.writePos = s.bus.prod.writePos from hq.writePos,
      Bus.empty_iff (n := s.bus.prod.capacity) hq.order hq.room]
    exact hlt.ne'
  have hpop : Bus.stepPop s.bus = some ({ s.bus with
      cons := { s.bus.cons with writeCache := s.bus.seg.cb.writePos }
      pop := .getSize n }, []) := by
    rw [Bus.stepPop, hp]
    dsimp only
    rw [if_neg hsome]
  exact .of_step (l := .consumer) trivial (step_consumer hup hpop) ⟨rfl, rfl⟩
    (consumes_of_getSize hup rfl)

theorem consumes (h : Sound ms s) (hup : s.cons = .up)
    (hlt : s.bus.cons.readPos < s.bus.prod.writePos) : Consumes s := by
  cases hp : s.bus.pop with
  | idle =>
    have hcall : ∀ v : Bus.State, Bus.step s.bus (.tryPop 0) = some (v, []) →
        machine.step s (.tryPop 0) = some ({ s with bus := v, bufSize := 0 }, []) := by
      intro v hv
      have hbus : step s (.tryPop 0) = onBus { s with bufSize := 0 } (.tryPop 0) := by
        rw [step, hup]
      show step s (.tryPop 0) = _
      rw [hbus]
      show (Bus.step s.bus (.tryPop 0)).map _ = _
      rw [hv]
      rfl
    by_cases hempty : Bus.empty s.bus.cons = true
    · have hv : Bus.step s.bus (.tryPop 0) = some ({ s.bus with pop := .reload 0 }, []) := by
        rw [Bus.step, hp]
        dsimp only
        rw [if_pos hempty]
      have hs := h.pop hup (x := some 0) rfl (Bus.step_tryPop_moves hv) rfl
      exact .of_step (l := .tryPop 0) trivial (hcall _ hv) ⟨rfl, rfl⟩
        (consumes_of_reload hs hup hlt rfl)
    · have hv : Bus.step s.bus (.tryPop 0) = some ({ s.bus with pop := .getSize 0 }, []) := by
        rw [Bus.step, hp]
        dsimp only
        rw [if_neg hempty]
      exact .of_step (l := .tryPop 0) trivial (hcall _ hv) ⟨rfl, rfl⟩
        (consumes_of_getSize hup rfl)
  | reload n => exact consumes_of_reload h hup hlt hp
  | getSize n => exact consumes_of_getSize hup hp
  | copy msgSz copySz out => exact consumes_of_copy hup hp

theorem comes_up (s : State) : ∃ u, Lib.Machine.Run machine ConsumerOnly s [] u ∧ u.cons = .up ∧
    u.bus.seg = s.bus.seg := by
  have hbuild : ∀ s : State, ∀ d, s.cons = .attaching d →
      ∃ u, machine.step s .newConsumer = some (u, []) ∧ u.cons = .up ∧ u.bus.seg = s.bus.seg := by
    intro s d hd
    refine ⟨{ s with
      bus := { s.bus with cons := { d with writeCache := s.bus.seg.cb.writePos } }
      cons := .up }, ?_, rfl, rfl⟩
    show Recovery.newConsumer s = _
    rw [Recovery.newConsumer, hd]
  cases hlife : s.cons with
  | up => exact ⟨s, .refl s, hlife, rfl⟩
  | attaching d =>
    obtain ⟨u, hstep, hup, hseg⟩ := hbuild s d hlife
    exact ⟨u, .single (l := .newConsumer) trivial hstep, hup, hseg⟩
  | dead =>
    have hfirst : machine.step s .newConsumer = some ({ s with
        cons := .attaching { Consumer.attach s.bus.seg with writeCache := 0 } }, []) := by
      show Recovery.newConsumer s = _
      rw [Recovery.newConsumer, hlife]
    obtain ⟨u, hstep, hup, hseg⟩ := hbuild { s with
      cons := .attaching { Consumer.attach s.bus.seg with writeCache := 0 } } _ rfl
    have hrun : Lib.Machine.Run machine ConsumerOnly s [] _ :=
      .single (l := .newConsumer) trivial hfirst
    exact ⟨u, hrun.trans (.single (l := .newConsumer) trivial hstep), hup, hseg⟩

/-- **The consumer alone drains the queue.** -/
theorem drains (h : Agrees c a s) : ∃ os u, Lib.Machine.Run machine ConsumerOnly s os u ∧
    u.bus.cons.readPos = s.bus.seg.cb.writePos := by
  obtain ⟨t, hrun, hup, hseg⟩ := comes_up s
  obtain ⟨b, -, ht⟩ := h.run hrun
  rw [← hseg]
  suffices hdrain : ∃ os u, Lib.Machine.Run machine ConsumerOnly t os u ∧
      u.bus.cons.readPos = t.bus.seg.cb.writePos by
    obtain ⟨os, u, hdrained, heq⟩ := hdrain
    exact ⟨os, u, hrun.trans hdrained, heq⟩
  clear hrun hseg h
  induction hd : t.bus.seg.cb.writePos - t.bus.cons.readPos generalizing t b with
  | zero =>
    have hle : t.bus.cons.readPos ≤ t.bus.prod.writePos := ht.sound.queue.order
    have hw : t.bus.seg.cb.writePos = t.bus.prod.writePos := ht.sound.queue.writePos
    exact ⟨[], t, .refl t, by omega⟩
  | succ d ih =>
    have hw : t.bus.seg.cb.writePos = t.bus.prod.writePos := ht.sound.queue.writePos
    obtain ⟨os, v, hrun, hup', hwrite, hread⟩ := consumes ht.sound hup (by omega)
    obtain ⟨b', -, hv⟩ := ht.run hrun
    obtain ⟨os', u, hrun', heq⟩ := ih v hup' b' hv (by omega)
    exact ⟨os ++ os', u, hrun.trans hrun', heq.trans hwrite⟩

/-! ### Recovery -/

/-- The bus is one bounded queue to an observer of all processes; `delivers`
compares its account with the control block, and in `drains` the observer sees
every message consumed that is published. -/
structure Recovers (capacity : UInt32) (os : List Event) (s : State) : Prop where
  delivers : ∃ a, Lib.Machine.Accepts (Delivers capacity) {} os a ∧
    a.published.length = s.bus.seg.cb.writePos ∧ a.next = s.bus.seg.cb.readPos
  order : s.bus.seg.cb.readPos ≤ s.bus.seg.cb.writePos
  room : s.bus.seg.cb.writePos - s.bus.seg.cb.readPos ≤ capacity.toNat
  drains : ∃ os' u a, Lib.Machine.Run machine ConsumerOnly s os' u ∧
    Lib.Machine.Accepts (Delivers capacity) {} (os ++ os') a ∧ a.next = s.bus.seg.cb.writePos

theorem agrees_init {c m : UInt32} {seg : Segment} (hc : create c m = some seg)
    (hfit : (computeSlotStride m).toNat < 2 ^ 32) : Agrees c {} (init seg) where
  sound := {
    queue := fifo_delivery (Bus.fifo_init hc hfit)
    producer := ⟨rfl, rfl, rfl, rfl⟩
    consumer := ⟨rfl, rfl, rfl, rfl⟩
    attachingProducer := nofun
    attachingConsumer := nofun
    idleProducer := fun _ => rfl
    idleConsumer := fun _ => rfl
    copying := trivial }
  next := (congrArg ControlBlock.readPos (cb_of_create hc)).symm
  capacity := congrArg ControlBlock.capacity (cb_of_create hc)

/-- **Re-attaching neither loses nor corrupts**, on a bus whose slot stride fits
its field. -/
theorem recovers {c m : UInt32} {seg : Segment} (hc : create c m = some seg)
    (hfit : (computeSlotStride m).toNat < 2 ^ 32)
    (h : Lib.Machine.Run machine Lib.Machine.anyStep (init seg) os s) : Recovers c os s := by
  obtain ⟨a, ha, hs⟩ := (agrees_init hc hfit).run h
  have hq := hs.sound.queue
  have hw : s.bus.seg.cb.writePos = s.bus.prod.writePos := hq.writePos
  have hr : s.bus.seg.cb.readPos = s.bus.cons.readPos := hq.readPos
  refine ⟨⟨a, ha, hq.count.trans hw.symm, hs.next.trans hr.symm⟩, ?_, ?_, ?_⟩
  · rw [hw, hr]
    exact hq.order
  · have hroom := hq.room
    rw [hw, hr, ← hs.capacity]
    exact Nat.sub_le_iff_le_add'.mpr hroom
  · obtain ⟨os', u, hrun, hread⟩ := drains hs
    obtain ⟨a', ha', hu⟩ := hs.run hrun
    exact ⟨os', u, a', hrun, ha.trans ha', hu.next.trans hread⟩

/-- One producer dies with its message half written, one consumer with its
message copied.  The next ones push and pop another message. -/
theorem recovers_both :
    ∃ seg s, create 2 8 = some seg ∧
      Lib.Machine.Run machine Lib.Machine.anyStep (init seg)
        [.pushed [6], .abandoned 8 1 [6], .popped 8 1 [6]] s ∧
      Recovers 2 [.pushed [6], .abandoned 8 1 [6], .popped 8 1 [6]] s := by
  obtain ⟨s, hexec⟩ : ∃ s, machine.exec
      (init ⟨⟨2, 64, 8, 0, 0⟩, fun _ => 0, fun _ => 0, fun _ => 0⟩)
      [.newProducer, .newProducer, .tryPush [5, 5], .producer, .producer, .killProducer,
        .newProducer, .newConsumer, .newProducer, .tryPush [6], .producer, .producer, .producer,
        .newConsumer, .tryPop 8, .consumer, .consumer, .killConsumer, .newConsumer, .newConsumer,
        .tryPop 8, .consumer, .consumer, .consumer] =
      some (s, [.pushed [6], .abandoned 8 1 [6], .popped 8 1 [6]]) := ⟨_, rfl⟩
  have hrun := Lib.Machine.run_of_exec_any hexec
  exact ⟨_, s, rfl, hrun, recovers (c := 2) (m := 8) rfl (by decide) hrun⟩

/-! ### Slots that overlap -/

/-- `create 2 (2 ^ 32 - 8)`: of the stride of `2 ^ 32` bytes, none are stored,
and both positions have the slot at offset 256. -/
theorem overwritten_unread :
    ∃ seg s, create 2 0xFFFFFFF8 = some seg ∧
      Lib.Machine.Run machine Lib.Machine.anyStep (init seg)
        [.pushed [1], .pushed [2], .popped 8 1 [2]] s ∧
      ¬ Recovers 2 [.pushed [1], .pushed [2], .popped 8 1 [2]] s := by
  obtain ⟨s, hexec⟩ : ∃ s, machine.exec
      (init ⟨⟨2, 0, 0xFFFFFFF8, 0, 0⟩, fun _ => 0, fun _ => 0, fun _ => 0⟩)
      [.newProducer, .newProducer, .tryPush [1], .producer, .producer, .producer, .killProducer,
        .newProducer, .newProducer, .tryPush [2], .producer, .producer, .producer,
        .newConsumer, .newConsumer, .tryPop 8, .consumer, .consumer, .consumer] =
      some (s, [.pushed [1], .pushed [2], .popped 8 1 [2]]) := ⟨_, rfl⟩
  refine ⟨_, s, rfl, Lib.Machine.run_of_exec_any hexec, ?_⟩
  intro hrec
  obtain ⟨a, hacc, -⟩ := hrec.delivers
  obtain ⟨a₁, h₁, hacc⟩ := hacc.of_cons
  obtain ⟨a₂, h₂, hacc⟩ := hacc.of_cons
  obtain ⟨a₃, h₃, -⟩ := hacc.of_cons
  cases h₁
  cases h₂
  cases h₃ with
  | popped hget _ hout =>
    obtain rfl := Option.some.inj hget
    exact absurd hout (by decide)

end HftComponents.Spsc.Recovery
