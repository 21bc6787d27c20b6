import HftComponents.Spsc.Loss

/-!
# No torn read

Whatever the consumer has missed, what it returns was written by one push.  The
argument needs no lap and no read position.  A slot that is not being written
has an even generation and holds one message (`Untorn.slots`), and as long as
its generation stays what the consumer has loaded first, it is not being
written at all: so what has been copied are bytes of the message it holds
(`ReadOk`), and if the second load agrees they are all there are.

This rests on slots that do not overlap.  `create` stores the slot stride in 32
bits; for the largest message sizes the stride is cut off, and a long message
runs into the slots behind its own.  `no_torn_read` holds of the runs whose
messages fit their slots (`Apart`), and `torn_read` is one where they do not.
-/

namespace HftComponents.Spsc

open Lib.Ring

/-- Slots with different addresses have room for messages of `n` bytes. -/
def Apart (capacity stride : UInt32) (n : Nat) : Prop :=
  ∀ p q, slotPtr capacity stride p < slotPtr capacity stride q →
    slotPtr capacity stride p + (8 + n) ≤ slotPtr capacity stride q

theorem apart_of_room {capacity stride : UInt32} {n : Nat} (h : 8 + n ≤ stride.toNat) :
    Apart capacity stride n := by
  intro p q hlt
  simp only [slotPtr] at hlt ⊢
  generalize ((u64 p).toUInt32 &&& (capacity - 1)).toNat = i at hlt ⊢
  generalize ((u64 q).toUInt32 &&& (capacity - 1)).toNat = j at hlt ⊢
  have hij : i < j := by
    by_contra hle
    have := Nat.mul_le_mul_right stride.toNat (Nat.le_of_not_lt hle)
    omega
  have hstep : (i + 1) * stride.toNat ≤ j * stride.toNat := Nat.mul_le_mul_right _ hij
  rw [Nat.succ_mul] at hstep
  omega

/-- Every message fits its slot, if the stride fits the field it is stored in. -/
theorem apart_of_create {c m : UInt32} {seg : Segment} (hc : create c m = some seg)
    (hfit : (computeSlotStride m).toNat < 2 ^ 32) {n : Nat} (hn : n ≤ m.toNat) :
    Apart seg.cb.capacity seg.cb.slotStride n := by
  have hroom := (geometry_of_create hc hfit).room
  have hm : seg.cb.maxMsgSize = m := by rw [cb_of_create hc]
  rw [hm] at hroom
  exact apart_of_room (by omega)

theorem Holds.setByte_apart {seg : Segment} {c stride : UInt32} {p q k : Nat} {msg : List UInt8}
    {n : Nat} (h : Holds seg (slotPtr c stride p) msg msg.length)
    (hne : slotPtr c stride p ≠ slotPtr c stride q) (hmsg : Apart c stride msg.length)
    (hn : Apart c stride n) (hk : k < n) (b : UInt8) :
    Holds (seg.setByte (slotPtr c stride q) k b) (slotPtr c stride p) msg msg.length := by
  refine h.congr rfl ?_
  intro j hj
  apply Function.update_of_ne
  rcases Nat.lt_or_gt_of_ne hne with hlt | hlt
  · have := hmsg p q hlt
    omega
  · have := hn q p hlt
    omega

namespace Lossy

open Bus (empty rslot)

/-! ### The runs in question -/

/-- The generation `g` has not come round since the first load. -/
def Pop.Recent (g : Nat) : Pop → Prop
  | .copy _ gen1 _ copySz out => copySz.toNat ≤ out.length → g < gen1 + 2 ^ 32
  | _ => True

instance decidableRecent (g : Nat) : ∀ pop : Pop, Decidable (pop.Recent g)
  | .copy _ gen1 _ copySz out =>
    inferInstanceAs (Decidable (copySz.toNat ≤ out.length → g < gen1 + 2 ^ 32))
  | .idle | .reload _ | .fastForward _ _ | .loadGen _ | .getSize _ _ | .store _ _ _ _
  | .relocate _ _ | .storeLost _ _ _ => isTrue trivial

/-- Fewer than `2 ^ 31` pushes, of which each adds two to the generation, hit
the slot that a call copies from. -/
def FewPushes (s : State) : Label → Prop
  | .consumer => s.pop.Recent (s.seg.generation (rslot s.cons))
  | _ => True

instance decidableFewPushes (s : State) : ∀ l, Decidable (FewPushes s l)
  | .consumer => inferInstanceAs (Decidable (s.pop.Recent (s.seg.generation (rslot s.cons))))
  | .push _ | .producer | .tryPopLossy _ => isTrue trivial

theorem fewPushes_of_idle {s : State} (h : s.pop = .idle) : FewPushes s .consumer := by
  rw [FewPushes, h]
  trivial

/-- A message that is accepted fits its slot. -/
def FitsSlot (s : State) : Label → Prop
  | .push msg =>
    msg.length ≤ s.prod.maxMsg.toNat → Apart s.prod.capacity s.prod.stride msg.length
  | _ => True

/-- The messages that have been written to their slot: those of the pushes that
have returned, and of a push that has only `write_pos` left to store. -/
def written (ms : List (List UInt8)) (s : State) : List (List UInt8) :=
  match s.push with
  | .publish msg => ms ++ [msg]
  | _ => ms

/-! ### The invariant -/

def Push.message : Push → Option (List UInt8)
  | .idle => none
  | .loadGen msg | .storeOdd msg _ | .setSize msg _ | .copy msg _ _ | .publish msg => some msg

/-- A message that may be written. -/
def Sized (s : State) (msg : List UInt8) : Prop :=
  msg.length ≤ s.prod.maxMsg.toNat ∧ Apart s.prod.capacity s.prod.stride msg.length

/-- The slot holds a message of `ms`, or a size of `0`. -/
def Filled (ms : List (List UInt8)) (seg : Segment) (slot : Nat) : Prop :=
  seg.size slot = 0 ∨ ∃ msg ∈ ms, Holds seg slot msg msg.length

/-- What a call returns is empty, or of one message. -/
def Whole (ms : List (List UInt8)) (bufSize msgSz : UInt32) (out : List UInt8) : Prop :=
  msgSz = 0 ∨ ∃ msg ∈ ms, msgSz = u32 msg.length ∧ out = msg.take bufSize.toNat

/-- What has been copied is part of the message that `slot` holds. -/
def Part (ms : List (List UInt8)) (seg : Segment) (slot : Nat) (bufSize msgSz copySz : UInt32)
    (out : List UInt8) : Prop :=
  msgSz = 0 ∨ ∃ msg ∈ ms, Holds seg slot msg msg.length ∧ msgSz = u32 msg.length ∧
    copySz.toNat = min msg.length bufSize.toNat ∧ out = msg.take out.length

def ReadOk (ms : List (List UInt8)) (s : State) : Pop → Prop
  | .getSize _ gen1 => gen1 % 2 = 0 ∧ gen1 ≤ s.seg.generation (rslot s.cons)
  | .copy bufSize gen1 msgSz copySz out =>
    gen1 % 2 = 0 ∧ gen1 ≤ s.seg.generation (rslot s.cons) ∧ out.length ≤ copySz.toNat ∧
      (s.seg.generation (rslot s.cons) = gen1 →
        Part ms s.seg (rslot s.cons) bufSize msgSz copySz out)
  | .store bufSize msgSz out _ => Whole ms bufSize msgSz out
  | _ => True

/-- `ms` are the messages pushed so far. -/
structure Untorn (ms : List (List UInt8)) (s : State) : Prop where
  sameCapacity : s.cons.capacity = s.prod.capacity
  sameStride : s.cons.stride = s.prod.stride
  sized : ∀ msg ∈ written ms s, Sized s msg
  current : ∀ msg, s.push.message = some msg → Sized s msg
  slots : ∀ p, (s.push.Writing ∧ slotPtr s.prod.capacity s.prod.stride p = wslot s.prod) ∨
    (s.seg.generation (slotPtr s.prod.capacity s.prod.stride p) % 2 = 0 ∧
      Filled (written ms s) s.seg (slotPtr s.prod.capacity s.prod.stride p))
  push : PushOk s s.push
  pop : ReadOk (written ms s) s s.pop

variable {s u : State} {o os : List Event} {a : Option (List UInt8)} {ms ms' : List (List UInt8)}
  {msg : List UInt8} {g k : Nat}

theorem Filled.mono {seg : Segment} {slot : Nat} (h : Filled ms seg slot)
    (hms : ∀ m ∈ ms, m ∈ ms') : Filled ms' seg slot := by
  apply h.imp_right
  rintro ⟨m, hm, hh⟩
  exact ⟨m, hms m hm, hh⟩

/-- A step of the producer: the generation of the consumer's slot does not go
back, and while it is the one loaded first the slot keeps what it holds. -/
theorem ReadOk.of_push {pop : Pop} (h : ReadOk ms s pop) (hcons : u.cons = s.cons)
    (hms : ∀ m ∈ ms, m ∈ ms')
    (hgen : s.seg.generation (rslot s.cons) ≤ u.seg.generation (rslot s.cons))
    (hsame : s.seg.generation (rslot s.cons) % 2 = 0 →
      u.seg.generation (rslot s.cons) = s.seg.generation (rslot s.cons) →
      ∀ m ∈ ms, Holds s.seg (rslot s.cons) m m.length → Holds u.seg (rslot s.cons) m m.length) :
    ReadOk ms' u pop := by
  cases pop with
  | getSize b gen1 =>
    unfold ReadOk at h ⊢
    rw [hcons]
    exact ⟨h.1, h.2.trans hgen⟩
  | copy b gen1 msgSz copySz out =>
    unfold ReadOk at h ⊢
    rw [hcons]
    obtain ⟨heven, hle, hlen, hpart⟩ := h
    refine ⟨heven, hle.trans hgen, hlen, ?_⟩
    intro heq
    have hold : s.seg.generation (rslot s.cons) = gen1 := le_antisymm (hgen.trans heq.le) hle
    apply (hpart hold).imp_right
    rintro ⟨m, hm, hh, hrest⟩
    exact ⟨m, hms m hm, hsame (hold ▸ heven) (heq.trans hold.symm) m hm hh, hrest⟩
  | store b msgSz out =>
    apply Or.imp_right ?_ h
    rintro ⟨m, hm, hrest⟩
    exact ⟨m, hms m hm, hrest⟩
  | _ => trivial

namespace Untorn

theorem rslot_eq (h : Untorn ms s) :
    rslot s.cons = slotPtr s.prod.capacity s.prod.stride s.cons.readPos := by
  unfold rslot
  rw [h.sameCapacity, h.sameStride]

theorem odd_of_writing (h : Untorn ms s) (hw : s.push.Writing) :
    s.seg.generation (wslot s.prod) % 2 = 1 := by
  have hpush := h.push
  cases hp : s.push with
  | setSize msg g =>
    rw [hp] at hpush
    obtain ⟨-, heven, hgen⟩ := hpush
    omega
  | copy msg g k =>
    rw [hp] at hpush
    obtain ⟨-, heven, hgen, -⟩ := hpush
    omega
  | _ =>
    rw [hp] at hw
    exact hw.elim

theorem even_of_not_writing (h : Untorn ms s) (hw : ¬ s.push.Writing) (p : Nat) :
    s.seg.generation (slotPtr s.prod.capacity s.prod.stride p) % 2 = 0 ∧
      Filled (written ms s) s.seg (slotPtr s.prod.capacity s.prod.stride p) :=
  (h.slots p).resolve_left fun hl => hw hl.1

/-- What a slot with an even generation holds. -/
theorem filled (h : Untorn ms s) (heven : s.seg.generation (rslot s.cons) % 2 = 0) :
    Filled (written ms s) s.seg (rslot s.cons) := by
  rw [h.rslot_eq] at heven ⊢
  rcases h.slots s.cons.readPos with ⟨hw, heq⟩ | hfree
  · rw [heq, h.odd_of_writing hw] at heven
    cases heven
  · exact hfree.2

/-- What a step of the producer has to keep. -/
theorem of_push (h : Untorn ms s) (hcons : u.cons = s.cons) (hpop : u.pop = s.pop)
    (hprod : u.prod.capacity = s.prod.capacity ∧ u.prod.stride = s.prod.stride ∧
      u.prod.maxMsg = s.prod.maxMsg)
    (hms : ∀ m ∈ written ms s, m ∈ written ms' u) (hsized : ∀ m ∈ written ms' u, Sized s m)
    (hcur : ∀ m, u.push.message = some m → Sized s m)
    (hslots : ∀ p, (u.push.Writing ∧
        slotPtr s.prod.capacity s.prod.stride p = wslot u.prod) ∨
      (u.seg.generation (slotPtr s.prod.capacity s.prod.stride p) % 2 = 0 ∧
        Filled (written ms' u) u.seg (slotPtr s.prod.capacity s.prod.stride p)))
    (hok : PushOk u u.push)
    (hgen : s.seg.generation (rslot s.cons) ≤ u.seg.generation (rslot s.cons))
    (hsame : s.seg.generation (rslot s.cons) % 2 = 0 →
      u.seg.generation (rslot s.cons) = s.seg.generation (rslot s.cons) →
      ∀ m ∈ written ms s, Holds s.seg (rslot s.cons) m m.length →
        Holds u.seg (rslot s.cons) m m.length) : Untorn ms' u := by
  obtain ⟨hcap, hstride, hmax⟩ := hprod
  have hsizedEq : ∀ m, Sized u m ↔ Sized s m := by
    intro m
    unfold Sized
    rw [hcap, hstride, hmax]
  refine ⟨?_, ?_, ?_, ?_, ?_, hok, ?_⟩
  · rw [hcons, hcap, h.sameCapacity]
  · rw [hcons, hstride, h.sameStride]
  · intro m hm
    exact (hsizedEq m).mpr (hsized m hm)
  · intro m hm
    exact (hsizedEq m).mpr (hcur m hm)
  · rw [hcap, hstride]
    exact hslots
  · rw [hpop]
    exact h.pop.of_push hcons hms hgen hsame

theorem quiet (h : Untorn ms s) (hw : ¬ s.push.Writing) (hcons : u.cons = s.cons)
    (hpop : u.pop = s.pop)
    (hprod : u.prod.capacity = s.prod.capacity ∧ u.prod.stride = s.prod.stride ∧
      u.prod.maxMsg = s.prod.maxMsg)
    (hseg : u.seg.generation = s.seg.generation ∧ u.seg.size = s.seg.size ∧
      u.seg.payload = s.seg.payload)
    (hms : written ms' u = written ms s) (hcur : ∀ m, u.push.message = some m → Sized s m)
    (hok : PushOk u u.push) : Untorn ms' u := by
  obtain ⟨hgen, hsize, hpay⟩ := hseg
  have hholds : ∀ slot m, Holds s.seg slot m m.length → Holds u.seg slot m m.length := by
    intro slot m hh
    apply hh.congr
    · rw [hsize]
    · intro j _
      rw [Segment.byte, Segment.byte, hpay]
  refine h.of_push hcons hpop hprod (fun m hm => hms ▸ hm) ?_ hcur ?_ hok (by rw [hgen])
    fun _ _ m _ hh => hholds _ m hh
  · rw [hms]
    exact h.sized
  · intro p
    obtain ⟨heven, hfilled⟩ := h.even_of_not_writing hw p
    right
    rw [hgen, hms]
    refine ⟨heven, ?_⟩
    rcases hfilled with hzero | ⟨m, hm, hh⟩
    · left
      rw [hsize]
      exact hzero
    · exact Or.inr ⟨m, hm, hholds _ m hh⟩

theorem write {seg : Segment} {push : Push} (h : Untorn ms s) (hw : s.push.Writing)
    (hpush : push.Writing) (hmsg : push.message = s.push.message)
    (hgen : seg.generation = s.seg.generation)
    (hsize : ∀ slot, slot ≠ wslot s.prod → seg.size slot = s.seg.size slot)
    (hholds : ∀ p m, slotPtr s.prod.capacity s.prod.stride p ≠ wslot s.prod → Sized s m →
      Holds s.seg (slotPtr s.prod.capacity s.prod.stride p) m m.length →
      Holds seg (slotPtr s.prod.capacity s.prod.stride p) m m.length)
    (hok : PushOk { s with seg := seg, push := push } push) :
    Untorn ms { s with seg := seg, push := push } := by
  have hold : written ms s = ms := by
    unfold written
    cases hp : s.push with
    | publish m =>
      rw [hp] at hw
      exact hw.elim
    | _ => rfl
  have hnew : written ms { s with seg := seg, push := push } = ms := by
    unfold written
    cases push with
    | publish m => exact hpush.elim
    | _ => rfl
  refine h.of_push rfl rfl ⟨rfl, rfl, rfl⟩ ?_ ?_ ?_ ?_ hok (by rw [hgen]) ?_
  · rw [hold, hnew]
    exact fun m hm => hm
  · rw [hnew, ← hold]
    exact h.sized
  · intro m hm
    exact h.current m (hmsg ▸ hm)
  · intro p
    by_cases heq : slotPtr s.prod.capacity s.prod.stride p = wslot s.prod
    · exact Or.inl ⟨hpush, heq⟩
    right
    obtain ⟨heven, hfilled⟩ := (h.slots p).resolve_left fun hl => heq hl.2
    rw [hnew, hgen]
    rw [hold] at hfilled
    refine ⟨heven, ?_⟩
    rcases hfilled with hzero | ⟨m, hm, hh⟩
    · left
      rw [hsize _ heq]
      exact hzero
    · exact Or.inr ⟨m, hm, hholds p m heq (h.sized m (by rwa [hold])) hh⟩
  · intro heven _ m hm hh
    -- the slot being written has an odd generation, so it is not the consumer's
    have hne : rslot s.cons ≠ wslot s.prod := by
      intro heq
      rw [heq, h.odd_of_writing hw] at heven
      cases heven
    rw [h.rslot_eq] at hne hh ⊢
    exact hholds _ m hne (h.sized m hm) hh

theorem storeOdd (h : Untorn ms s) (hp : s.push = .storeOdd msg g) :
    Untorn ms { s with
      seg := s.seg.setGeneration (wslot s.prod) (g + 1), push := .setSize msg g } := by
  have hpush := h.push
  rw [hp] at hpush
  obtain ⟨hlen, heven, hgen⟩ := hpush
  have hwritten : written ms s = ms := by rw [written, hp]
  have hw : ¬ s.push.Writing := by
    rw [hp]
    exact id
  have hother : ∀ slot, slot ≠ wslot s.prod →
      (s.seg.setGeneration (wslot s.prod) (g + 1)).generation slot = s.seg.generation slot :=
    fun slot hne => Function.update_of_ne hne _ _
  refine h.of_push rfl rfl ⟨rfl, rfl, rfl⟩ ?_ ?_ ?_ ?_ ⟨hlen, heven, Function.update_self ..⟩ ?_ ?_
  · rw [hwritten]
    exact fun m hm => hm
  · intro m hm
    exact h.sized m (by rw [hwritten]; exact hm)
  · rintro m hm
    exact h.current m (by rw [hp]; exact hm)
  · intro p
    by_cases heq : slotPtr s.prod.capacity s.prod.stride p = wslot s.prod
    · exact Or.inl ⟨trivial, heq⟩
    right
    have hfree := h.even_of_not_writing hw p
    rw [hwritten] at hfree
    rw [hother _ heq]
    exact hfree
  · by_cases heq : rslot s.cons = wslot s.prod
    · rw [heq, hgen]
      show g ≤ Function.update s.seg.generation (wslot s.prod) (g + 1) (wslot s.prod)
      rw [Function.update_self]
      exact Nat.le_succ g
    · rw [hother _ heq]
  · intro _ _ m _ hh
    exact hh

theorem storeEven (h : Untorn ms s) (hp : s.push = .copy msg g k) (hk : msg.length ≤ k) :
    Untorn ms { s with
      seg := s.seg.setGeneration (wslot s.prod) (g + 2), push := .publish msg } := by
  have hpush := h.push
  rw [hp] at hpush
  obtain ⟨hlen, heven, hgen, hk', hholds⟩ := hpush
  obtain rfl : k = msg.length := le_antisymm hk' hk
  have hwritten : written ms s = ms := by rw [written, hp]
  have hother : ∀ slot, slot ≠ wslot s.prod →
      (s.seg.setGeneration (wslot s.prod) (g + 2)).generation slot = s.seg.generation slot :=
    fun slot hne => Function.update_of_ne hne _ _
  have hcur : Sized s msg := h.current msg (by rw [hp]; rfl)
  refine h.of_push rfl rfl ⟨rfl, rfl, rfl⟩ ?_ ?_ ?_ ?_ ⟨hlen, hholds⟩ ?_ ?_
  · rw [hwritten]
    exact fun m hm => List.mem_append_left _ hm
  · intro m hm
    rcases List.mem_append.mp hm with hm | hm
    · exact h.sized m (by rwa [hwritten])
    · rw [List.mem_singleton.mp hm]
      exact hcur
  · rintro m hm
    obtain rfl := Option.some.inj hm
    exact hcur
  · intro p
    right
    by_cases heq : slotPtr s.prod.capacity s.prod.stride p = wslot s.prod
    · rw [heq]
      refine ⟨?_, Or.inr ⟨msg, List.mem_append_right _ List.mem_cons_self, hholds⟩⟩
      show Function.update s.seg.generation (wslot s.prod) (g + 2) (wslot s.prod) % 2 = 0
      rw [Function.update_self]
      omega
    · obtain ⟨hfree, hfilled⟩ := (h.slots p).resolve_left fun hl => heq hl.2
      rw [hother _ heq]
      rw [hwritten] at hfilled
      exact ⟨hfree, hfilled.mono fun m hm => List.mem_append_left _ hm⟩
  · by_cases heq : rslot s.cons = wslot s.prod
    · rw [heq, hgen]
      show g + 1 ≤ Function.update s.seg.generation (wslot s.prod) (g + 2) (wslot s.prod)
      rw [Function.update_self]
      exact Nat.le_succ (g + 1)
    · rw [hother _ heq]
  · intro _ _ m _ hh
    exact hh

/-- **One step of the producer.** -/
theorem pushMoves (h : Untorn ms s) (hm : PushMoves s a u o)
    (hok : ∀ m, a = some m → FitsSlot s (.push m)) : Untorn (ms ++ pushed o) u := by
  have hpush := h.push
  cases hm with
  | refused hp hlen =>
    rw [show ms ++ pushed [.refused] = ms from List.append_nil ms]
    exact h
  | @start msg hp hlen =>
    rw [show ms ++ pushed [] = ms from List.append_nil ms]
    refine h.quiet (by rw [hp]; exact id) rfl rfl ⟨rfl, rfl, rfl⟩ ⟨rfl, rfl, rfl⟩ ?_ ?_ hlen
    · rw [written, written, hp]
    · rintro m hm
      obtain rfl := Option.some.inj hm
      exact ⟨hlen, hok msg rfl hlen⟩
  | @loadGen msg hp =>
    rw [show ms ++ pushed [] = ms from List.append_nil ms]
    rw [hp] at hpush
    have hw : ¬ s.push.Writing := by
      rw [hp]
      exact id
    have heven := (h.even_of_not_writing hw s.prod.writePos).1
    refine h.quiet hw rfl rfl ⟨rfl, rfl, rfl⟩ ⟨rfl, rfl, rfl⟩ ?_ ?_ ⟨hpush, heven, rfl⟩
    · rw [written, written, hp]
    · intro m hm
      exact h.current m (by rw [hp]; exact hm)
  | storeOdd hp =>
    rw [show ms ++ pushed [] = ms from List.append_nil ms]
    exact h.storeOdd hp
  | @setSize msg g hp =>
    rw [show ms ++ pushed [] = ms from List.append_nil ms]
    rw [hp] at hpush
    obtain ⟨hlen, heven, hgen⟩ := hpush
    refine h.write (by rw [hp]; trivial) trivial (by rw [hp]; rfl) rfl
      (fun slot hne => Function.update_of_ne hne _ _) ?_
      ⟨hlen, heven, hgen, Nat.zero_le _, holds_setSize _ _ _⟩
    intro p m hne _ hh
    exact hh.congr (Function.update_of_ne hne _ _) fun _ _ => rfl
  | @setByte msg g k b hp hb =>
    rw [show ms ++ pushed [] = ms from List.append_nil ms]
    rw [hp] at hpush
    obtain ⟨hlen, heven, hgen, hk, hholds⟩ := hpush
    have hkl : k < msg.length := (List.getElem?_eq_some_iff.mp hb).1
    have hcur : Sized s msg := h.current msg (by rw [hp]; rfl)
    refine h.write (by rw [hp]; trivial) trivial (by rw [hp]; rfl) rfl (fun _ _ => rfl) ?_
      ⟨hlen, heven, hgen, hkl, hholds.next hb⟩
    intro p m hne hm hh
    exact hh.setByte_apart hne hm.2 hcur.2 hkl b
  | storeEven hp hk =>
    rw [show ms ++ pushed [] = ms from List.append_nil ms]
    exact h.storeEven hp hk
  | @publish msg hp =>
    refine h.quiet (by rw [hp]; exact id) rfl rfl ⟨rfl, rfl, rfl⟩ ⟨rfl, rfl, rfl⟩ ?_ ?_ trivial
    · rw [written, written, hp]
      rfl
    · intro m hm
      cases hm

/-! ### The consumer -/

/-- A step of the consumer: of the segment it writes `read_pos` at most. -/
theorem of_pop (h : Untorn ms s) (hprod : u.prod = s.prod) (hpush : u.push = s.push)
    (hcons : u.cons.capacity = s.cons.capacity ∧ u.cons.stride = s.cons.stride)
    (hseg : u.seg.generation = s.seg.generation ∧ u.seg.size = s.seg.size ∧
      u.seg.payload = s.seg.payload)
    (hok : ReadOk (written ms s) u u.pop) : Untorn ms u := by
  obtain ⟨⟨cb, generation, size, payload⟩, prod, push, cons, pop⟩ := u
  obtain ⟨rfl, rfl, rfl⟩ := hseg
  obtain rfl : prod = s.prod := hprod
  obtain rfl : push = s.push := hpush
  refine { h with
    sameCapacity := hcons.1.trans h.sameCapacity
    sameStride := hcons.2.trans h.sameStride
    push := ?_
    pop := hok }
  have hpush := h.push
  show PushOk _ s.push
  cases hp : s.push
  all_goals
    rw [hp] at hpush
    exact hpush

theorem silent (h : Untorn ms s) (hprod : u.prod = s.prod) (hpush : u.push = s.push)
    (hcons : u.cons.capacity = s.cons.capacity ∧ u.cons.stride = s.cons.stride)
    (hseg : u.seg.generation = s.seg.generation ∧ u.seg.size = s.seg.size ∧
      u.seg.payload = s.seg.payload)
    (hok : ReadOk (written ms s) u u.pop) (ho : returned o = []) :
    Untorn ms u ∧ ∀ r ∈ returned o, Whole (written ms s) r.1 r.2.1 r.2.2 := by
  refine ⟨h.of_pop hprod hpush hcons hseg hok, ?_⟩
  rw [ho]
  intro r hr
  cases hr

theorem toNat_length (h : Untorn ms s) (hm : msg ∈ written ms s) :
    (u32 msg.length).toNat = msg.length := by
  rw [toNat_u32]
  exact Nat.mod_eq_of_lt ((h.sized msg hm).1.trans_lt s.prod.maxMsg.toNat_lt)

theorem part_getSize (h : Untorn ms s) (heven : s.seg.generation (rslot s.cons) % 2 = 0)
    (bufSize : UInt32) :
    Part (written ms s) s.seg (rslot s.cons) bufSize (s.seg.size (rslot s.cons))
      (if s.seg.size (rslot s.cons) < bufSize then s.seg.size (rslot s.cons) else bufSize) [] := by
  apply (h.filled heven).imp_right
  rintro ⟨msg, hm, hholds⟩
  refine ⟨msg, hm, hholds, hholds.1, ?_, rfl⟩
  rw [toNat_copySz, hholds.1, h.toNat_length hm]

theorem part_getByte {bufSize msgSz copySz : UInt32} {out : List UInt8} {slot : Nat}
    {seg : Segment} (h : Part ms seg slot bufSize msgSz copySz out)
    (hlt : out.length < copySz.toNat) :
    Part ms seg slot bufSize msgSz copySz (out ++ [seg.byte slot out.length]) := by
  apply h.imp_right
  rintro ⟨msg, hm, hholds, hsize, hcopy, hout⟩
  refine ⟨msg, hm, hholds, hsize, hcopy, ?_⟩
  rw [List.length_append, List.length_singleton, ← hholds.take (by omega), ← hout]

/-- What has been copied when the second load agrees with the first. -/
theorem whole_of_part {bufSize msgSz copySz : UInt32} {out : List UInt8} {slot : Nat}
    {seg : Segment} (h : Part ms seg slot bufSize msgSz copySz out)
    (hlen : out.length = copySz.toNat) : Whole ms bufSize msgSz out := by
  apply h.imp_right
  rintro ⟨msg, hm, -, hsize, hcopy, hout⟩
  refine ⟨msg, hm, hsize, ?_⟩
  rw [hout, hlen, hcopy, List.take_eq_take_iff]
  omega

/-- **One step of the consumer.**  What it returns is of one message. -/
theorem popMoves (h : Untorn ms s) (hm : PopMoves s u o) (hok : FewPushes s .consumer) :
    Untorn ms u ∧ ∀ r ∈ returned o, Whole (written ms s) r.1 r.2.1 r.2.2 := by
  have hpop := h.pop
  have hlook : ∀ (t v : State) (b : UInt32), ReadOk (written ms s) t (look v b) := by
    intro t v b
    unfold look
    split <;> trivial
  cases hm with
  | reload | empty | fastForward | retry | torn | relocate | storeLost =>
    exact h.silent rfl rfl ⟨rfl, rfl⟩ ⟨rfl, rfl, rfl⟩ trivial rfl
  | look | relook => exact h.silent rfl rfl ⟨rfl, rfl⟩ ⟨rfl, rfl, rfl⟩ (hlook _ _ _) rfl
  | loadGen hp heven =>
    exact h.silent rfl rfl ⟨rfl, rfl⟩ ⟨rfl, rfl, rfl⟩ ⟨mod_two_of_even heven, le_rfl⟩ rfl
  | @getSize b gen1 hp =>
    rw [hp] at hpop
    obtain ⟨heven, hle⟩ := hpop
    refine h.silent rfl rfl ⟨rfl, rfl⟩ ⟨rfl, rfl, rfl⟩ ⟨heven, hle, Nat.zero_le _, ?_⟩ rfl
    intro heq
    have heven' : s.seg.generation (rslot s.cons) % 2 = 0 := by
      rw [show s.seg.generation (rslot s.cons) = gen1 from heq]
      exact heven
    exact h.part_getSize heven' b
  | @getByte b msgSz copySz gen1 out hp hlt =>
    rw [hp] at hpop
    obtain ⟨heven, hle, hlen, hpart⟩ := hpop
    refine h.silent rfl rfl ⟨rfl, rfl⟩ ⟨rfl, rfl, rfl⟩ ⟨heven, hle, ?_, ?_⟩ rfl
    · rw [List.length_append, List.length_singleton]
      exact hlt
    · intro heq
      exact part_getByte (hpart heq) hlt
  | @whole b msgSz copySz gen1 out hp hcopied hgen =>
    have hfew : s.seg.generation (rslot s.cons) < gen1 + 2 ^ 32 := by
      rw [FewPushes, hp] at hok
      exact hok hcopied
    rw [hp] at hpop
    obtain ⟨-, hle, hlen, hpart⟩ := hpop
    have heq : s.seg.generation (rslot s.cons) = gen1 := (u32_inj_of_lt hle (by omega)).mp hgen
    have hwhole := whole_of_part (hpart heq) (le_antisymm hlen hcopied)
    exact h.silent rfl rfl ⟨rfl, rfl⟩ ⟨rfl, rfl, rfl⟩ hwhole rfl
  | @store b msgSz out index hp =>
    rw [hp] at hpop
    refine ⟨h.of_pop rfl rfl ⟨rfl, rfl⟩ ⟨rfl, rfl, rfl⟩ trivial, ?_⟩
    intro r hr
    by_cases hzero : msgSz = 0
    · simp [returned, hzero] at hr
    · obtain rfl : r = (b, msgSz, out) := by simpa [returned, hzero] using hr
      exact hpop

theorem init {c m : UInt32} {seg : Segment} (hc : create c m = some seg) :
    Untorn [] (init seg) := by
  have hg : seg.generation = fun _ => 0 := generation_of_create hc
  have hs : seg.size = fun _ => 0 := size_of_create hc
  refine ⟨rfl, rfl, nofun, nofun, ?_, trivial, trivial⟩
  intro p
  right
  simp [Lossy.init, Filled, hg, hs]

/-- **One step.** -/
theorem step {l : Label} (h : Untorn ms s) (hok : FewPushes s l ∧ FitsSlot s l)
    (hstep : step s l = some (u, o)) :
    Untorn (ms ++ pushed o) u ∧ ∀ r ∈ returned o, Whole (written ms s) r.1 r.2.1 r.2.2 := by
  rcases step_moves hstep with ⟨a, hm, ha⟩ | ⟨hm, hl⟩
  · refine ⟨h.pushMoves hm ?_, ?_⟩
    · intro msg hmsg
      rw [← ha msg hmsg]
      exact hok.2
    · rw [hm.returned_eq]
      nofun
  · have hfew : FewPushes s .consumer := by
      rcases hl with rfl | hidle
      · exact hok.1
      · exact fewPushes_of_idle hidle
    rw [hm.pushed_eq, List.append_nil]
    exact h.popMoves hm hfew

end Untorn

/-! ### Runs -/

theorem written_of_message_none (h : s.push.message = none) : written ms s = ms := by
  cases hp : s.push with
  | idle => rw [written, hp]
  | _ =>
    rw [hp] at h
    cases h

theorem written_mono {l : Label} (hstep : step s l = some (u, o)) {msg : List UInt8}
    (h : msg ∈ written ms s) : msg ∈ written (ms ++ pushed o) u := by
  rcases step_moves hstep with ⟨a, hm, -⟩ | ⟨hm, -⟩
  · cases hm with
    | refused hp hlen => rwa [show ms ++ pushed [.refused] = ms from List.append_nil ms]
    | storeEven hp hk =>
      rw [written, hp] at h
      exact List.mem_append_left _ (List.mem_append_left _ h)
    | publish hp =>
      rw [written, hp] at h
      exact h
    | start hp _ | loadGen hp | storeOdd hp | setSize hp | setByte hp _ =>
      rw [written, hp] at h
      exact List.mem_append_left _ h
  · rw [hm.pushed_eq, List.append_nil]
    have hpush : u.push = s.push := by cases hm <;> rfl
    rw [written, hpush]
    exact h

/-- What a call with a message in it returns is of one message. -/
theorem Whole.returns {r : UInt32 × UInt32 × List UInt8} (h : Whole ms r.1 r.2.1 r.2.2)
    (hsize : r.2.1 ≠ 0) : ∃ i, Returns ms r i := by
  obtain ⟨msg, hm, hlen, hout⟩ := h.resolve_left hsize
  obtain ⟨i, hi⟩ := List.mem_iff_getElem?.mp hm
  exact ⟨i, msg, hi, hlen, hout⟩

theorem ne_zero_of_mem_returned {r : UInt32 × UInt32 × List UInt8} (h : r ∈ returned os) :
    r.2.1 ≠ 0 := by
  obtain ⟨e, -, he⟩ := List.mem_filterMap.mp h
  cases e with
  | popped b msgSz out overwritten index =>
    dsimp only at he
    split at he
    · cases he
    · obtain rfl := Option.some.inj he
      assumption
  | _ => cases he

/-- **No torn read**, in runs whose messages fit their slots. -/
theorem no_torn_read {c m : UInt32} {seg : Segment} (hc : create c m = some seg)
    (h : Lib.Machine.Run machine (fun s l => FewPushes s l ∧ FitsSlot s l) (init seg) os s) :
    ∀ r ∈ returned os, ∃ i, Returns (written (pushed os) s) r i := by
  have hinv : Untorn (pushed os) s ∧
      ∀ r ∈ returned os, Whole (written (pushed os) s) r.1 r.2.1 r.2.2 := by
    refine h.invariant (P := fun os s => Untorn (pushed os) s ∧
      ∀ r ∈ returned os, Whole (written (pushed os) s) r.1 r.2.1 r.2.2) ⟨.init hc, nofun⟩ ?_
    intro os t l u o ht hok hstep
    obtain ⟨huntorn, hwhole⟩ := ht
    obtain ⟨hu, ho⟩ := huntorn.step hok hstep
    rw [pushed_append, returned_append]
    refine ⟨hu, ?_⟩
    intro r hr
    have hold : Whole (written (pushed os) t) r.1 r.2.1 r.2.2 := by
      rcases List.mem_append.mp hr with hr | hr
      · exact hwhole r hr
      · exact ho r hr
    apply hold.imp_right
    rintro ⟨msg, hm, hrest⟩
    exact ⟨msg, written_mono hstep hm, hrest⟩
  intro r hr
  exact (hinv.2 r hr).returns (ne_zero_of_mem_returned hr)

theorem step_fixed {l : Label} (h : step s l = some (u, o)) :
    u.prod.capacity = s.prod.capacity ∧ u.prod.stride = s.prod.stride ∧
      u.prod.maxMsg = s.prod.maxMsg := by
  rcases step_moves h with ⟨a, hm, -⟩ | ⟨hm, -⟩
  all_goals
    cases hm
    all_goals exact ⟨rfl, rfl, rfl⟩

/-- On a bus whose stride fits its field, every message fits its slot. -/
theorem run_fitsSlot {c m : UInt32} {seg : Segment} (hc : create c m = some seg)
    (hfit : (computeSlotStride m).toNat < 2 ^ 32)
    (h : Lib.Machine.Run machine FewPushes (init seg) os s) :
    Lib.Machine.Run machine (fun s l => FewPushes s l ∧ FitsSlot s l) (init seg) os s := by
  have hmax : seg.cb.maxMsgSize = m := by rw [cb_of_create hc]
  refine h.imp (I := fun t => t.prod.capacity = seg.cb.capacity ∧
    t.prod.stride = seg.cb.slotStride ∧ t.prod.maxMsg = m) ⟨rfl, rfl, hmax⟩ ?_ ?_
  · intro t l u o ht hstep
    obtain ⟨hcap, hstride, hmsg⟩ := step_fixed hstep
    exact ⟨hcap.trans ht.1, hstride.trans ht.2.1, hmsg.trans ht.2.2⟩
  · intro t l ht hfew
    obtain ⟨hcap, hstride, hmsg⟩ := ht
    refine ⟨hfew, ?_⟩
    cases l with
    | push msg =>
      rw [FitsSlot, hcap, hstride, hmsg]
      exact apart_of_create hc hfit
    | _ => trivial

/-- A message is overwritten while the consumer copies it, so the call fails;
the next one gets the message that has taken its place. -/
theorem no_torn_read_rewritten :
    ∃ s os, Lib.Machine.Run machine (fun s l => FewPushes s l ∧ FitsSlot s l)
        (init twoSlots) os s ∧
      returned os = [(8, 1, [3])] ∧
      ∀ r ∈ returned os, ∃ i, Returns (written (pushed os) s) r i := by
  obtain ⟨ls, hok, hshown⟩ : ∃ ls, machine.ExecOk FewPushes (init twoSlots) ls ∧
      (machine.exec (init twoSlots) ls).map Prod.snd =
        some [.pushed [0], .pushed [1], .pushed [2], .popped 8 0 [] true none,
          .popped 8 0 [3] true none,
          .pushed [3], .popped 8 1 [3] false (some 3)] := by
    let overwriting : List Label := [.push [3], .producer, .producer, .producer, .producer,
      .consumer, .consumer, .consumer, .consumer, .producer, .producer]
    refine ⟨pushByte 0 ++ pushByte 1 ++ pushByte 2 ++ popIn 2 ++ popIn 2 ++ overwriting ++
      popIn 5, ?_, ?_⟩
    · decide +kernel
    · decide +kernel
  obtain ⟨⟨s, os⟩, hexec, rfl⟩ := Option.map_eq_some_iff.mp hshown
  have hrun := run_fitsSlot (c := 2) (m := 8) rfl (by decide) (Lib.Machine.run_of_exec hok hexec)
  exact ⟨s, _, hrun, rfl, no_torn_read (c := 2) (m := 8) rfl hrun⟩

/-! ### Slots that overlap -/

/-- `create 2 (2 ^ 32 - 1)`: of the stride of `2 ^ 32 + 64` bytes, 64 are stored. -/
def cutStride : Segment := ⟨⟨2, 64, 0xFFFFFFFF, 0, 0⟩, fun _ => 0, fun _ => 0, fun _ => 0⟩

/-- 65 bytes.  Those from 56 on lie where the next slot begins: on the header of
a message of two bytes, as it is, and on its first byte. -/
def overlong : List UInt8 := List.replicate 56 0 ++ [2, 0, 0, 0, 2, 0, 0, 0] ++ [9]

def pushBytes (msg : List UInt8) : List Label :=
  .push msg :: List.replicate (5 + msg.length) .producer

/-- A call gets one byte of message 2 and one of message 1. -/
theorem torn_read :
    ∃ s os, create 2 0xFFFFFFFF = some cutStride ∧
      Lib.Machine.Run machine FewPushes (init cutStride) os s ∧
      ¬ ∀ r ∈ returned os, ∃ i, Returns (written (pushed os) s) r i := by
  obtain ⟨ls, hok, hshown⟩ : ∃ ls, machine.ExecOk FewPushes (init cutStride) ls ∧
      (machine.exec (init cutStride) ls).map (fun p => (p.1.push.message, p.2)) =
        some (none, [.pushed [1], .popped 8 1 [1] false (some 0), .pushed [5, 6], .pushed overlong,
          .popped 8 2 [9, 6] false (some 1)]) := by
    refine ⟨pushByte 1 ++ popIn 6 ++ pushBytes [5, 6] ++ pushBytes overlong ++ popIn 7, ?_, ?_⟩
    · decide +kernel
    · decide +kernel
  obtain ⟨⟨s, os⟩, hexec, hlast⟩ := Option.map_eq_some_iff.mp hshown
  obtain ⟨hpush, rfl⟩ := Prod.mk.inj hlast
  refine ⟨s, _, rfl, Lib.Machine.run_of_exec hok hexec, ?_⟩
  intro hall
  obtain ⟨i, msg, hget, hlen, hout⟩ := hall (8, 2, [9, 6]) (by decide)
  rw [written_of_message_none hpush] at hget
  match i with
  | 0 =>
    obtain rfl := Option.some.inj hget
    exact absurd hlen (by decide)
  | 1 =>
    obtain rfl := Option.some.inj hget
    exact absurd hout (by decide)
  | 2 =>
    obtain rfl := Option.some.inj hget
    exact absurd hlen (by decide)
  | i + 3 => simp [pushed] at hget

end Lossy

end HftComponents.Spsc
