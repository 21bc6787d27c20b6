import HftComponents.Spsc.Loss

/-!
# The parity of a generation after a death

`OverwriteProducer::push` marks a slot by adding 1 to whatever generation it
finds, and clears the mark by adding 2 to the same.  So an odd generation means
"being written" as long as every push finds an even one.

A producer that dies between its two stores leaves the mark behind.  It has not
stored `write_pos`, so its successor's first push goes to that slot, finds an
odd generation, and the marks are inverted: even while the slot is written, odd
once it is committed (`parity_inverted`).  `parity_kept` holds of the runs where
no producer dies there (`Spared`), with messages that fit their slot, for these
alone have a header that no payload runs into.
-/

namespace HftComponents.Spsc.Mark

open Lib.Ring
open Bus (rslot)
open Lossy (PushMoves PopMoves wslot odd)

/-! ### The machine -/

/-- While no producer is alive, `bus` keeps the last one. -/
structure State where
  bus : Lossy.State
  alive : Bool := false

inductive Label
  | push (msg : List UInt8)
  | producer
  | kill
  | attach
  | tryPopLossy (bufSize : UInt32)
  | consumer

/-- `pushed` shows the position that the message has been pushed at. -/
inductive Event
  | pushed (pos : Nat) (msg : List UInt8)
  | refused
  | popped (bufSize msgSz : UInt32) (out : List UInt8) (overwritten : Bool)
  | died
  deriving DecidableEq, Repr

def shown (pos : Nat) : Lossy.Event → Event
  | .pushed msg => .pushed pos msg
  | .refused => .refused
  | .popped bufSize msgSz out overwritten _ => .popped bufSize msgSz out overwritten

def onBus (s : State) (l : Lossy.Label) : Option (State × List Event) :=
  (Lossy.step s.bus l).map fun p => ({ s with bus := p.1 }, p.2.map (shown s.bus.prod.writePos))

/-- `attach` is the constructor.  Without a producer no one else stores what it
reads. -/
def step (s : State) : Label → Option (State × List Event)
  | .push msg => if s.alive then onBus s (.push msg) else none
  | .producer => if s.alive then onBus s .producer else none
  | .kill =>
    if s.alive then
      some ({ bus := { s.bus with push := .idle }, alive := false }, [.died])
    else none
  | .attach =>
    if s.alive then none
    else some ({ bus := { s.bus with prod := .attach s.bus.seg }, alive := true }, [])
  | .tryPopLossy bufSize => onBus s (.tryPopLossy bufSize)
  | .consumer => onBus s .consumer

def machine : Lib.Machine State Label Event := ⟨step⟩

/-- A bus just created, with a consumer attached. -/
def init (seg : Segment) : State := { bus := Lossy.init seg }

/-! ### The runs in question -/

/-- No producer dies while it has a slot marked. -/
def Spared (s : State) : Label → Prop
  | .kill => ¬ s.bus.push.Writing
  | _ => True

/-- A message that is accepted fits its slot. -/
def FitsSlot (s : State) : Label → Prop
  | .push msg =>
    msg.length ≤ s.bus.prod.maxMsg.toNat → 8 + msg.length ≤ s.bus.prod.stride.toNat
  | _ => True

instance decidableWriting : ∀ push : Lossy.Push, Decidable push.Writing
  | .setSize _ _ | .copy _ _ _ => isTrue trivial
  | .idle | .loadGen _ | .storeOdd _ _ | .publish _ => isFalse id

instance decidableSpared (s : State) : ∀ l, Decidable (Spared s l)
  | .kill => inferInstanceAs (Decidable (¬ s.bus.push.Writing))
  | .push _ | .producer | .attach | .tryPopLossy _ | .consumer => isTrue trivial

instance decidableFitsSlot (s : State) : ∀ l, Decidable (FitsSlot s l)
  | .push msg => inferInstanceAs (Decidable (msg.length ≤ s.bus.prod.maxMsg.toNat →
      8 + msg.length ≤ s.bus.prod.stride.toNat))
  | .producer | .kill | .attach | .tryPopLossy _ | .consumer => isTrue trivial

/-! ### What is to hold -/

def slot (s : State) (p : Nat) : Nat := slotPtr s.bus.seg.cb.capacity s.bus.seg.cb.slotStride p

/-- The positions of the pushes that have completed since the last death. -/
def sinceDeath : List Event → List Nat :=
  List.foldl (fun ps e =>
    match e with
    | .pushed p _ => ps ++ [p]
    | .died => []
    | _ => ps) []

/-- What the generation says of a slot, and what a call takes it for. -/
structure Parity (os : List Event) (s : State) : Prop where
  /-- A slot that has been pushed to and is not being pushed to. -/
  committed : ∀ p ∈ sinceDeath os, (s.bus.push ≠ .idle → slot s p ≠ wslot s.bus.prod) →
    s.bus.seg.generation (slot s p) % 2 = 0
  writing : s.bus.push.Writing → s.bus.seg.generation (wslot s.bus.prod) % 2 = 1
  /-- A call that turns a slot down finds it being written. -/
  refused : ∀ b, s.bus.pop = .loadGen b → odd (s.bus.seg.generation (rslot s.bus.cons)) = true →
    s.bus.push.Writing ∧ rslot s.bus.cons = wslot s.bus.prod
  /-- A call that takes a slot does not. -/
  taken : ∀ b, s.bus.pop = .loadGen b → odd (s.bus.seg.generation (rslot s.bus.cons)) = false →
    ¬ (s.bus.push.Writing ∧ rslot s.bus.cons = wslot s.bus.prod)

/-! ### The invariant -/

/-- What the push in progress has loaded and stored. -/
def Marking (s : Lossy.State) : Lossy.Push → Prop
  | .storeOdd _ g => g % 2 = 0 ∧ s.seg.generation (wslot s.prod) = g
  | .setSize _ g | .copy _ g _ => g % 2 = 0
  | _ => True

/-- A generation is odd exactly in the slot that is being written. -/
structure Marked (s : State) : Prop where
  producer : s.bus.prod = .attach s.bus.seg
  sameCapacity : s.bus.cons.capacity = s.bus.seg.cb.capacity
  sameStride : s.bus.cons.stride = s.bus.seg.cb.slotStride
  marks : ∀ p, s.bus.seg.generation (slot s p) % 2 = 1 ↔
    s.bus.push.Writing ∧ slot s p = wslot s.bus.prod
  marking : Marking s.bus s.bus.push
  dead : s.alive = false → s.bus.push = .idle

variable {s u : State} {l : Label} {o os : List Event} {b : Lossy.State} {o' : List Lossy.Event}
  {a : Option (List UInt8)} {msg : List UInt8} {g k : Nat}

theorem onBus_eq {k : Lossy.Label} (h : onBus s k = some (u, o)) :
    ∃ b o', Lossy.step s.bus k = some (b, o') ∧ u = { s with bus := b } ∧
      o = o'.map (shown s.bus.prod.writePos) := by
  obtain ⟨⟨b, o'⟩, hb, heq⟩ := Option.map_eq_some_iff.mp h
  obtain ⟨rfl, rfl⟩ := Prod.mk.inj heq
  exact ⟨b, o', hb, rfl, rfl⟩

namespace Marked

theorem wslot_eq (h : Marked s) : wslot s.bus.prod = slot s s.bus.seg.cb.writePos := by
  rw [h.producer]
  rfl

theorem rslot_eq (h : Marked s) : rslot s.bus.cons = slot s s.bus.cons.readPos := by
  rw [rslot, h.sameCapacity, h.sameStride]
  rfl

theorem even (h : Marked s) {p : Nat}
    (hp : ¬ (s.bus.push.Writing ∧ slot s p = wslot s.bus.prod)) :
    s.bus.seg.generation (slot s p) % 2 = 0 := by
  apply Nat.mod_two_ne_one.mp
  intro hodd
  exact hp ((h.marks p).mp hodd)

theorem even_of_not_writing (h : Marked s) (hw : ¬ s.bus.push.Writing) (p : Nat) :
    s.bus.seg.generation (slot s p) % 2 = 0 :=
  h.even fun hmark => hw hmark.1

theorem quiet (h : Marked s) (hup : s.alive = true) (seg : Segment) {push : Lossy.Push}
    (hcb : seg.cb = s.bus.seg.cb) (hgen : seg.generation = s.bus.seg.generation)
    (hw : push.Writing ↔ s.bus.push.Writing)
    (hok : Marking { s.bus with seg := seg, push := push } push) :
    Marked { s with bus := { s.bus with seg := seg, push := push } } := by
  obtain ⟨cb, generation, size, payload⟩ := seg
  obtain rfl : cb = s.bus.seg.cb := hcb
  obtain rfl : generation = s.bus.seg.generation := hgen
  refine { h with producer := h.producer, marks := ?_, marking := hok, dead := ?_ }
  · intro p
    exact (h.marks p).trans (and_congr_left' hw.symm)
  · intro hdead
    rw [hup] at hdead
    cases hdead

theorem store (h : Marked s) (hup : s.alive = true) {n : Nat} {push : Lossy.Push}
    (hw : push.Writing ↔ n % 2 = 1) (hold : ∀ p, slot s p ≠ wslot s.bus.prod →
      s.bus.seg.generation (slot s p) % 2 = 0)
    (hok : Marking { s.bus with
      seg := s.bus.seg.setGeneration (wslot s.bus.prod) n, push := push } push) :
    Marked { s with bus := { s.bus with
      seg := s.bus.seg.setGeneration (wslot s.bus.prod) n, push := push } } := by
  refine { h with producer := h.producer, marks := ?_, marking := hok, dead := ?_ }
  · intro p
    show Function.update s.bus.seg.generation (wslot s.bus.prod) n (slot s p) % 2 = 1 ↔
      push.Writing ∧ slot s p = wslot s.bus.prod
    by_cases heq : slot s p = wslot s.bus.prod
    · rw [heq, Function.update_self, hw]
      exact ⟨fun hodd => ⟨hodd, rfl⟩, And.left⟩
    · rw [Function.update_of_ne heq]
      exact iff_of_false (Nat.mod_two_ne_one.mpr (hold p heq)) fun hmark => heq hmark.2
  · intro hdead
    rw [hup] at hdead
    cases hdead

/-- **A step of the producer.** -/
theorem push (h : Marked s) (hup : s.alive = true) (hm : PushMoves s.bus a b o') :
    Marked { s with bus := b } := by
  have hmarking := h.marking
  have heven : ∀ p, slot s p ≠ wslot s.bus.prod →
      s.bus.seg.generation (slot s p) % 2 = 0 := by
    intro p hne
    exact h.even fun hmark => hne hmark.2
  cases hm with
  | refused hp hlen => exact h
  | start hp hlen =>
    exact h.quiet hup s.bus.seg rfl rfl (by rw [hp]; exact Iff.rfl) trivial
  | loadGen hp =>
    have hw : ¬ s.bus.push.Writing := by
      rw [hp]
      exact id
    refine h.quiet hup s.bus.seg rfl rfl (by rw [hp]; exact Iff.rfl) ⟨?_, rfl⟩
    rw [h.wslot_eq]
    exact h.even_of_not_writing hw _
  | @storeOdd msg g hp =>
    rw [hp] at hmarking
    refine h.store hup ⟨fun _ => ?_, fun _ => trivial⟩ heven hmarking.1
    have := hmarking.1
    omega
  | setSize hp =>
    rw [hp] at hmarking
    exact h.quiet hup _ rfl rfl (by rw [hp]; exact Iff.rfl) hmarking
  | setByte hp hb =>
    rw [hp] at hmarking
    exact h.quiet hup _ rfl rfl (by rw [hp]; exact Iff.rfl) hmarking
  | @storeEven msg g k hp hk =>
    rw [hp] at hmarking
    have hg : g % 2 = 0 := hmarking
    refine h.store hup ⟨False.elim, fun hodd => ?_⟩ heven trivial
    omega
  | publish hp =>
    have hw : ¬ s.bus.push.Writing := by
      rw [hp]
      exact id
    refine { h with producer := ?_, marks := ?_, marking := trivial, dead := fun _ => rfl }
    · rw [h.producer]
      rfl
    · intro p
      have heven := h.even_of_not_writing hw p
      exact iff_of_false (Nat.mod_two_ne_one.mpr heven) fun hmark => hmark.1

theorem pop (h : Marked s) (hm : PopMoves s.bus b o') : Marked { s with bus := b } := by
  have hmarking : ∀ t : Lossy.State, t.seg.generation = s.bus.seg.generation →
      t.prod = s.bus.prod → Marking t s.bus.push := by
    intro t hgen hprod
    have hold := h.marking
    cases hp : s.bus.push with
    | storeOdd msg g =>
      rw [hp] at hold
      unfold Marking
      rw [hgen, hprod]
      exact hold
    | _ =>
      rw [hp] at hold
      exact hold
  cases hm
  all_goals
    exact {
      producer := h.producer
      sameCapacity := h.sameCapacity
      sameStride := h.sameStride
      marks := h.marks
      marking := hmarking _ rfl rfl
      dead := h.dead }

theorem kill (h : Marked s) (hw : ¬ s.bus.push.Writing) :
    Marked { bus := { s.bus with push := .idle }, alive := false } := by
  refine { h with producer := h.producer, marks := ?_, marking := trivial, dead := fun _ => rfl }
  intro p
  have heven := h.even_of_not_writing hw p
  exact iff_of_false (Nat.mod_two_ne_one.mpr heven) fun hmark => hmark.1

theorem attach (h : Marked s) (hdead : s.alive = false) :
    Marked { bus := { s.bus with prod := .attach s.bus.seg }, alive := true } := by
  have hidle := h.dead hdead
  rw [← h.producer]
  refine { h with producer := h.producer, dead := nofun }

/-- **One step.** -/
theorem step (h : Marked s) (hok : Spared s l) (hstep : step s l = some (u, o)) : Marked u := by
  unfold Mark.step at hstep
  cases l with
  | push msg =>
    dsimp only at hstep
    split at hstep
    · obtain ⟨b, o', hb, rfl, rfl⟩ := onBus_eq hstep
      exact h.push ‹_› (Lossy.step_push_moves hb)
    · cases hstep
  | producer =>
    dsimp only at hstep
    split at hstep
    · obtain ⟨b, o', hb, rfl, rfl⟩ := onBus_eq hstep
      exact h.push ‹_› (Lossy.stepPush_moves hb)
    · cases hstep
  | kill =>
    dsimp only at hstep
    split at hstep
    · obtain ⟨rfl, rfl⟩ := Prod.mk.inj (Option.some.inj hstep)
      exact h.kill hok
    · cases hstep
  | attach =>
    dsimp only at hstep
    split at hstep
    · cases hstep
    · obtain ⟨rfl, rfl⟩ := Prod.mk.inj (Option.some.inj hstep)
      exact h.attach (Bool.eq_false_iff.mpr ‹_›)
  | tryPopLossy bufSize =>
    obtain ⟨b, o', hb, rfl, rfl⟩ := onBus_eq hstep
    exact h.pop (Lossy.step_tryPopLossy_moves hb).2
  | consumer =>
    obtain ⟨b, o', hb, rfl, rfl⟩ := onBus_eq hstep
    exact h.pop (Lossy.stepPop_moves hb)

theorem parity (h : Marked s) (os : List Event) : Parity os s where
  committed p _ hp := by
    apply h.even
    rintro ⟨hw, heq⟩
    have hbusy : s.bus.push ≠ .idle := by
      intro hidle
      rw [hidle] at hw
      exact hw
    exact hp hbusy heq
  writing hw := by
    rw [h.wslot_eq]
    exact (h.marks _).mpr ⟨hw, h.wslot_eq.symm⟩
  refused _ _ hodd := by
    rw [h.rslot_eq] at hodd ⊢
    exact (h.marks _).mp ((Lossy.odd_iff _).mp hodd)
  taken _ _ heven hmark := by
    rw [h.rslot_eq] at heven hmark
    rw [(Lossy.odd_iff _).mpr ((h.marks _).mpr hmark)] at heven
    cases heven

end Marked

/-! ### Runs -/

theorem marked_init {c m : UInt32} {seg : Segment} (hc : create c m = some seg) :
    Marked (init seg) where
  producer := rfl
  sameCapacity := rfl
  sameStride := rfl
  marks p := by
    have hg : seg.generation = fun _ => 0 := generation_of_create hc
    refine ⟨fun hodd => ?_, fun hmark => hmark.1.elim⟩
    rw [show (init seg).bus.seg.generation = fun _ => 0 from hg] at hodd
    cases hodd
  marking := trivial
  dead _ := rfl

/-- **The parity of a generation is right** in runs where no producer dies with
a slot marked. -/
theorem parity_kept {c m : UInt32} {seg : Segment} (hc : create c m = some seg)
    (h : Lib.Machine.Run machine (fun s l => Spared s l ∧ FitsSlot s l) (init seg) os s) :
    Parity os s := by
  refine Marked.parity ?_ os
  refine h.keeps (marked_init hc) ?_
  intro t l u o ht hok hstep
  exact ht.step hok.1 hstep

/-- A producer dies with the generation loaded, and the next one pushes to the
same slot. -/
theorem parity_kept_successor :
    ∃ seg s os, create 2 8 = some seg ∧
      Lib.Machine.Run machine (fun s l => Spared s l ∧ FitsSlot s l) (init seg) os s ∧
      os = [.died, .pushed 0 [2], .popped 8 1 [2] false] ∧ Parity os s := by
  obtain ⟨ls, hok, s, hexec⟩ : ∃ ls,
      machine.ExecOk (fun s l => Spared s l ∧ FitsSlot s l) (init Lossy.twoSlots) ls ∧
      ∃ s, machine.exec (init Lossy.twoSlots) ls =
        some (s, [.died, .pushed 0 [2], .popped 8 1 [2] false]) := by
    refine ⟨List.flatten [[.attach, .push [1], .producer, .kill, .attach, .push [2]],
      List.replicate 6 .producer, [.tryPopLossy 8], List.replicate 6 .consumer], ?_, _, rfl⟩
    decide +kernel
  have hrun := Lib.Machine.run_of_exec hok hexec
  exact ⟨_, s, _, rfl, hrun, rfl, parity_kept (c := 2) (m := 8) rfl hrun⟩

/-- A producer dies with its slot marked.  Its successor pushes a message to
that slot, and leaves it with an odd generation. -/
theorem parity_inverted :
    ∃ seg s os, create 2 8 = some seg ∧
      Lib.Machine.Run machine FitsSlot (init seg) os s ∧ ¬ Parity os s := by
  obtain ⟨ls, hok, hshown⟩ : ∃ ls, machine.ExecOk FitsSlot (init Lossy.twoSlots) ls ∧
      (machine.exec (init Lossy.twoSlots) ls).map (fun p =>
        (p.1.bus.push, p.1.bus.seg.generation (slot p.1 0), p.2)) =
        some (.idle, 3, [.died, .pushed 0 [2]]) := by
    refine ⟨List.flatten [[.attach, .push [1], .producer, .producer, .kill, .attach, .push [2]],
      List.replicate 6 .producer], ?_, ?_⟩
    · decide +kernel
    · decide +kernel
  obtain ⟨⟨s, os⟩, hexec, hlast⟩ := Option.map_eq_some_iff.mp hshown
  obtain ⟨hidle, hlast⟩ := Prod.mk.inj hlast
  obtain ⟨hgen, rfl⟩ := Prod.mk.inj hlast
  refine ⟨_, s, _, rfl, Lib.Machine.run_of_exec hok hexec, ?_⟩
  intro hparity
  have heven := hparity.committed 0 (by decide) fun hbusy => absurd hidle hbusy
  dsimp only at hgen
  rw [hgen] at heven
  cases heven

end HftComponents.Spsc.Mark
