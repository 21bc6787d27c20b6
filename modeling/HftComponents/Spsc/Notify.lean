import HftComponents.Lib.Words
import HftComponents.Spsc.Fifo
import HftComponents.Spsc.Torn

/-!
# Waking the consumer

A producer that calls `push` and then `notify`, and a consumer that calls `wait`
and then `try_pop` until it returns 0, with the counter of an `eventfd` between
them: `notify` adds 1, `wait` blocks at 0 and otherwise resets it.

Here the slots are bytes, header and all: what matters is that `try_pop` does
not return 0 for a message, and a payload that runs into the next slot can make
it do so.

A wake-up is a token.  As long as a message is unread, either the counter is
positive, or the producer is about to make it so, or the consumer is not
waiting (`Awake.wake`): a consumer that goes back to `wait` has just seen all
there is.  `no_lost_wakeup` is for the runs whose messages fit their slots, and
`wakeup_lost` is one where they do not.
-/

namespace HftComponents.Spsc.Notify

open Lib.Ring
open Lib.Words (load32 store32)
open Bus (full empty wslot rslot Event)

/-- Where the producer is; the loop of `push` returns to `tryPush`. -/
inductive Push
  | idle
  | tryPush (msg : List UInt8)
  | reload (msg : List UInt8)
  | setSize (msg : List UInt8)
  | copy (msg : List UInt8) (k : Nat)
  | notify
  deriving DecidableEq, Repr

/-- Where the consumer is: in `wait`, before or in a `try_pop`. -/
inductive Pop
  | wait
  | tryPop
  | reload (bufSize : UInt32)
  | getSize (bufSize : UInt32)
  | copy (msgSz copySz : UInt32) (out : List UInt8)
  deriving DecidableEq, Repr

structure State where
  cb : ControlBlock
  mem : Nat → UInt8 := fun _ => 0
  prod : Producer
  push : Push := .idle
  cons : Consumer
  pop : Pop := .wait
  counter : Nat := 0

/-- `interrupt` is a `read` that fails with `EINTR`. -/
inductive Label
  | push (msg : List UInt8)
  | producer
  | tryPop (bufSize : UInt32)
  | consumer
  | interrupt

/-- The field `size` of a slot's header, behind its `generation`. -/
def sizePtr (slot : Nat) : Nat := slot + 4

def bytePtr (slot k : Nat) : Nat := slot + sizeofSlotHeader.toNat + k

def stepPush (s : State) : Option (State × List Event) :=
  match s.push with
  | .idle => none
  | .tryPush msg =>
    if s.prod.maxMsg.toNat < msg.length then some (s, [.refused])
    else if full s.prod then some ({ s with push := .reload msg }, [])
    else some ({ s with push := .setSize msg }, [])
  | .reload msg =>
    let prod := { s.prod with readCache := s.cb.readPos }
    if full prod then some ({ s with prod := prod, push := .tryPush msg }, [.full])
    else some ({ s with prod := prod, push := .setSize msg }, [])
  | .setSize msg =>
    some ({ s with
      mem := store32 s.mem (sizePtr (wslot s.prod)) (u32 msg.length), push := .copy msg 0 }, [])
  | .copy msg k =>
    match msg[k]? with
    | some b =>
      some ({ s with
        mem := Function.update s.mem (bytePtr (wslot s.prod) k) b, push := .copy msg (k + 1) }, [])
    | none =>
      some ({ s with
        cb := { s.cb with writePos := s.prod.writePos + 1 }
        prod := { s.prod with writePos := s.prod.writePos + 1 }
        push := .notify }, [.pushed msg])
  | .notify => some ({ s with counter := s.counter + 1, push := .idle }, [])

def stepPop (s : State) : Option (State × List Event) :=
  match s.pop with
  | .wait => if s.counter = 0 then none else some ({ s with counter := 0, pop := .tryPop }, [])
  | .tryPop => none
  | .reload bufSize =>
    let cons := { s.cons with writeCache := s.cb.writePos }
    if empty cons then some ({ s with cons := cons, pop := .wait }, [.empty])
    else some ({ s with cons := cons, pop := .getSize bufSize }, [])
  | .getSize bufSize =>
    let msgSz := load32 s.mem (sizePtr (rslot s.cons))
    let copySz := if msgSz < bufSize then msgSz else bufSize
    some ({ s with pop := .copy msgSz copySz [] }, [])
  | .copy msgSz copySz out =>
    if out.length < copySz.toNat then
      let b := s.mem (bytePtr (rslot s.cons) out.length)
      some ({ s with pop := .copy msgSz copySz (out ++ [b]) }, [])
    else
      some ({ s with
        cb := { s.cb with readPos := s.cons.readPos + 1 }
        cons := { s.cons with readPos := s.cons.readPos + 1 }
        pop := if msgSz = 0 then .wait else .tryPop }, [.popped msgSz out])

def step (s : State) : Label → Option (State × List Event)
  | .push msg =>
    match s.push with
    | .idle => some ({ s with push := .tryPush msg }, [])
    | _ => none
  | .producer => stepPush s
  | .tryPop bufSize =>
    match s.pop with
    | .tryPop =>
      if empty s.cons then some ({ s with pop := .reload bufSize }, [])
      else some ({ s with pop := .getSize bufSize }, [])
    | _ => none
  | .consumer => stepPop s
  | .interrupt =>
    match s.pop with
    | .wait => some (s, [])
    | _ => none

def machine : Lib.Machine State Label Event := ⟨step⟩

def init (seg : Segment) : State :=
  { cb := seg.cb, prod := .attach seg, cons := .attach seg }

/-- The consumer sleeps, and nothing is under way that will wake it. -/
structure Lost (s : State) : Prop where
  blocked : s.pop = .wait ∧ s.counter = 0
  notified : s.push ≠ .notify
  unread : s.cb.readPos < s.cb.writePos

/-! ### The runs in question -/

def Nonempty (_ : State) : Label → Prop
  | .push msg => msg ≠ []
  | _ => True

instance decidableNonempty (s : State) : ∀ l, Decidable (Nonempty s l)
  | .push msg => inferInstanceAs (Decidable (msg ≠ []))
  | .producer | .tryPop _ | .consumer | .interrupt => isTrue trivial

/-- A message that is accepted fits its slot. -/
def FitsSlot (s : State) : Label → Prop
  | .push msg =>
    msg.length ≤ s.prod.maxMsg.toNat → Apart s.prod.capacity s.prod.stride msg.length
  | _ => True

/-! ### The invariant -/

/-- The word that `try_pop` returns for the slot of `p`. -/
def sizeWord (prod : Producer) (mem : Nat → UInt8) (p : Nat) : UInt32 :=
  load32 mem (sizePtr (slotPtr prod.capacity prod.stride p))

/-- A message that may be written. -/
def Fits (prod : Producer) (msg : List UInt8) : Prop :=
  msg ≠ [] ∧ msg.length ≤ prod.maxMsg.toNat ∧ Apart prod.capacity prod.stride msg.length

def PushOk (prod : Producer) (mem : Nat → UInt8) : Push → Prop
  | .idle | .notify => True
  | .tryPush msg =>
    msg ≠ [] ∧ (msg.length ≤ prod.maxMsg.toNat → Apart prod.capacity prod.stride msg.length)
  | .reload msg => Fits prod msg
  | .setSize msg => Fits prod msg ∧ prod.writePos < prod.readCache + prod.capacity.toNat
  | .copy msg _ =>
    Fits prod msg ∧ prod.writePos < prod.readCache + prod.capacity.toNat ∧
      sizeWord prod mem prod.writePos ≠ 0

def PopOk (cons : Consumer) : Pop → Prop
  | .wait | .tryPop | .reload _ => True
  | .getSize _ => cons.readPos < cons.writeCache
  | .copy msgSz _ _ => cons.readPos < cons.writeCache ∧ msgSz ≠ 0

structure Awake (s : State) : Prop where
  sameCapacity : s.cons.capacity = s.prod.capacity
  sameStride : s.cons.stride = s.prod.stride
  writePos : s.cb.writePos = s.prod.writePos
  readPos : s.cb.readPos = s.cons.readPos
  readCache : s.prod.readCache ≤ s.cons.readPos
  order : s.cons.readPos ≤ s.cons.writeCache
  writeCache : s.cons.writeCache ≤ s.prod.writePos
  room : s.prod.writePos ≤ s.prod.readCache + s.prod.capacity.toNat
  sizes : ∀ p, s.cons.readPos ≤ p → p < s.prod.writePos → sizeWord s.prod s.mem p ≠ 0
  push : PushOk s.prod s.mem s.push
  pop : PopOk s.cons s.pop
  wake : s.pop = .wait → s.cons.readPos < s.prod.writePos → 0 < s.counter ∨ s.push = .notify

variable {s u : State} {o os : List Event} {l : Label} {msg : List UInt8} {k : Nat}

theorem u32_length_ne_zero {prod : Producer} (h : Fits prod msg) : u32 msg.length ≠ 0 := by
  obtain ⟨hne, hle, -⟩ := h
  have hpos := List.length_pos_iff.mpr hne
  have hlt := prod.maxMsg.toNat_lt
  intro hzero
  have hnat : (u32 msg.length).toNat = 0 := by rw [hzero]; rfl
  rw [toNat_u32] at hnat
  omega

theorem sizeWord_store {prod : Producer} {mem : Nat → UInt8} {p : Nat} (h : Fits prod msg)
    (hp : sizeWord prod mem p ≠ 0 ∨ p = prod.writePos) :
    sizeWord prod (store32 mem (sizePtr (wslot prod)) (u32 msg.length)) p ≠ 0 := by
  have hapart := h.2.2
  rcases Nat.lt_trichotomy (slotPtr prod.capacity prod.stride p) (wslot prod) with hlt | heq | hgt
  · have hroom := hapart _ _ hlt
    rw [sizeWord, Lib.Words.load32_store32_of_apart (by simp only [sizePtr, wslot]; omega)]
    exact hp.resolve_right fun heq => hlt.ne (by rw [heq, wslot])
  · rw [sizeWord, heq, Lib.Words.load32_store32_self]
    exact u32_length_ne_zero h
  · have hroom := hapart _ _ hgt
    rw [sizeWord, Lib.Words.load32_store32_of_apart (by simp only [sizePtr, wslot]; omega)]
    exact hp.resolve_right fun heq => hgt.ne' (by rw [heq, wslot])

theorem sizeWord_update {prod : Producer} {mem : Nat → UInt8} {p : Nat} {b : UInt8}
    (h : Fits prod msg) (hk : k < msg.length) :
    sizeWord prod (Function.update mem (bytePtr (wslot prod) k) b) p = sizeWord prod mem p := by
  obtain ⟨-, -, hapart⟩ := h
  have h8 : sizeofSlotHeader.toNat = 8 := rfl
  apply Lib.Words.load32_update_of_apart
  simp only [bytePtr, sizePtr, h8]
  rcases Nat.lt_or_ge (wslot prod) (slotPtr prod.capacity prod.stride p) with hlt | hge
  · have hroom := hapart _ _ hlt
    simp only [wslot]
    omega
  · omega

namespace Awake

theorem setPush (h : Awake s) {push : Push} (hpush : PushOk s.prod s.mem push)
    (hnotify : s.push ≠ .notify) : Awake { s with push := push } := by
  refine { h with push := hpush, wake := ?_ }
  intro hwait hunread
  exact Or.inl ((h.wake hwait hunread).resolve_right hnotify)

theorem loadRead (h : Awake s) {push : Push} (hpush : PushOk { s.prod with
    readCache := s.cb.readPos } s.mem push) (hnotify : s.push ≠ .notify) :
    Awake { s with prod := { s.prod with readCache := s.cb.readPos }, push := push } := by
  have hroom := h.room
  have hcache := h.readCache
  have hread := h.readPos
  refine { h with readCache := hread.le, room := ?_, push := hpush, wake := ?_ }
  · show s.prod.writePos ≤ s.cb.readPos + s.prod.capacity.toNat
    omega
  · intro hwait hunread
    exact Or.inl ((h.wake hwait hunread).resolve_right hnotify)

theorem store (h : Awake s) {mem : Nat → UInt8} {push : Push}
    (hsizes : ∀ p, sizeWord s.prod s.mem p ≠ 0 → sizeWord s.prod mem p ≠ 0)
    (hpush : PushOk s.prod mem push) (hnotify : s.push ≠ .notify) :
    Awake { s with mem := mem, push := push } := by
  refine { h with sizes := ?_, push := hpush, wake := ?_ }
  · intro p hle hlt
    exact hsizes p (h.sizes p hle hlt)
  · intro hwait hunread
    exact Or.inl ((h.wake hwait hunread).resolve_right hnotify)

theorem publish (h : Awake s) (hp : s.push = .copy msg k) :
    Awake { s with
      cb := { s.cb with writePos := s.prod.writePos + 1 }
      prod := { s.prod with writePos := s.prod.writePos + 1 }
      push := .notify } := by
  have hpush := h.push
  rw [hp] at hpush
  obtain ⟨-, hfree, hsize⟩ := hpush
  refine { h with
    writePos := rfl
    writeCache := h.writeCache.trans (Nat.le_succ _)
    room := hfree
    sizes := ?_
    push := trivial
    wake := fun _ _ => Or.inr rfl }
  intro p hle hlt
  rcases Nat.lt_succ_iff_lt_or_eq.mp hlt with hlt | rfl
  · exact h.sizes p hle hlt
  · exact hsize

theorem notify (h : Awake s) : Awake { s with counter := s.counter + 1, push := .idle } :=
  { h with push := trivial, wake := fun _ _ => Or.inl (Nat.succ_pos _) }

/-- The consumer moves on; it goes to sleep only when it has seen everything. -/
theorem setPop (h : Awake s) {pop : Pop} (hpop : PopOk s.cons pop)
    (hwait : pop = .wait → s.prod.writePos ≤ s.cons.readPos) : Awake { s with pop := pop } := by
  refine { h with pop := hpop, wake := ?_ }
  intro hp hunread
  exact absurd hunread (Nat.not_lt_of_le (hwait hp))

theorem loadWrite (h : Awake s) {pop : Pop}
    (hpop : PopOk { s.cons with writeCache := s.cb.writePos } pop)
    (hwait : pop = .wait → s.prod.writePos ≤ s.cons.readPos) :
    Awake { s with cons := { s.cons with writeCache := s.cb.writePos }, pop := pop } := by
  have horder := h.order.trans h.writeCache
  refine { h with order := ?_, writeCache := h.writePos.le, pop := hpop, wake := ?_ }
  · show s.cons.readPos ≤ s.cb.writePos
    rw [h.writePos]
    exact horder
  · intro hp hunread
    exact absurd hunread (Nat.not_lt_of_le (hwait hp))

theorem woken (h : Awake s) : Awake { s with counter := 0, pop := .tryPop } :=
  { h with pop := trivial, wake := nofun }

theorem popped (h : Awake s) {msgSz copySz : UInt32} {out : List UInt8}
    (hp : s.pop = .copy msgSz copySz out) :
    Awake { s with
      cb := { s.cb with readPos := s.cons.readPos + 1 }
      cons := { s.cons with readPos := s.cons.readPos + 1 }
      pop := if msgSz = 0 then .wait else .tryPop } := by
  have hpop := h.pop
  rw [hp] at hpop
  obtain ⟨hlt, hne⟩ := hpop
  rw [if_neg hne]
  exact { h with
    readPos := rfl
    readCache := h.readCache.trans (Nat.le_succ _)
    order := hlt
    sizes := fun p hle => h.sizes p (Nat.le_of_succ_le hle)
    pop := trivial
    wake := nofun }

theorem window (h : Awake s) : s.prod.writePos ≤ s.cons.readPos + s.prod.capacity.toNat :=
  h.room.trans (Nat.add_le_add_right h.readCache _)

theorem free_of_full (h : Awake s) (hfull : full s.prod = false) :
    s.prod.writePos < s.prod.readCache + s.prod.capacity.toNat :=
  Bus.free_of_full_eq_false (h.readCache.trans (h.order.trans h.writeCache)) h.room hfull

theorem lt_of_empty (h : Awake s) (hempty : empty s.cons = false) :
    s.cons.readPos < s.cons.writeCache :=
  Bus.lt_of_empty_eq_false h.order (h.writeCache.trans h.window) hempty

theorem eq_of_empty (h : Awake s) (hempty : empty s.cons = true) :
    s.cons.writeCache = s.cons.readPos :=
  (Bus.empty_iff h.order (h.writeCache.trans h.window)).mp hempty

/-- **One step of the producer.** -/
theorem stepPush (h : Awake s) (hstep : stepPush s = some (u, o)) : Awake u := by
  have hpush := h.push
  unfold Notify.stepPush at hstep
  cases hp : s.push with
  | idle =>
    rw [hp] at hstep
    cases hstep
  | tryPush msg =>
    rw [hp] at hstep hpush
    dsimp only at hstep
    split at hstep
    · cases hstep
      exact h
    · rename_i hlen
      have hfits : Fits s.prod msg := by
        have hle := Nat.le_of_not_lt hlen
        exact ⟨hpush.1, hle, hpush.2 hle⟩
      split at hstep
      · cases hstep
        exact h.setPush hfits (by simp [hp])
      · rename_i hfull
        cases hstep
        exact h.setPush ⟨hfits, h.free_of_full (Bool.eq_false_iff.mpr hfull)⟩ (by simp [hp])
  | reload msg =>
    rw [hp] at hstep hpush
    dsimp only at hstep
    have hload := @loadRead s h .idle trivial (by simp [hp])
    split at hstep
    · cases hstep
      exact h.loadRead ⟨hpush.1, fun _ => hpush.2.2⟩ (by simp [hp])
    · rename_i hfull
      cases hstep
      exact h.loadRead ⟨hpush, hload.free_of_full (Bool.eq_false_iff.mpr hfull)⟩ (by simp [hp])
  | setSize msg =>
    rw [hp] at hstep hpush
    cases hstep
    obtain ⟨hfits, hfree⟩ := hpush
    refine h.store ?_ ⟨hfits, hfree, sizeWord_store hfits (Or.inr rfl)⟩ (by simp [hp])
    intro p hne
    exact sizeWord_store hfits (Or.inl hne)
  | copy msg k =>
    rw [hp] at hstep hpush
    dsimp only at hstep
    split at hstep
    · rename_i b hb
      cases hstep
      obtain ⟨hfits, hfree, hsize⟩ := hpush
      have hk := (List.getElem?_eq_some_iff.mp hb).1
      refine h.store ?_ ⟨hfits, hfree, ?_⟩ (by simp [hp])
      · intro p hne
        rwa [sizeWord_update hfits hk]
      · rwa [sizeWord_update hfits hk]
    · cases hstep
      exact h.publish hp
  | notify =>
    rw [hp] at hstep
    cases hstep
    exact h.notify

/-- **One step of the consumer.** -/
theorem stepPop (h : Awake s) (hstep : stepPop s = some (u, o)) : Awake u := by
  have hpop := h.pop
  unfold Notify.stepPop at hstep
  cases hp : s.pop with
  | wait =>
    rw [hp] at hstep
    dsimp only at hstep
    split at hstep
    · cases hstep
    · cases hstep
      exact h.woken
  | tryPop =>
    rw [hp] at hstep
    cases hstep
  | reload bufSize =>
    rw [hp] at hstep
    dsimp only at hstep
    have hload := @loadWrite s h .tryPop trivial nofun
    split at hstep
    · rename_i hempty
      cases hstep
      refine h.loadWrite trivial fun _ => ?_
      rw [← h.writePos]
      exact (hload.eq_of_empty hempty).le
    · rename_i hempty
      cases hstep
      exact h.loadWrite (hload.lt_of_empty (Bool.eq_false_iff.mpr hempty)) nofun
  | getSize bufSize =>
    rw [hp] at hstep hpop
    cases hstep
    refine h.setPop ⟨hpop, ?_⟩ nofun
    have hsize := h.sizes s.cons.readPos le_rfl (lt_of_lt_of_le hpop h.writeCache)
    rwa [sizeWord, ← h.sameCapacity, ← h.sameStride] at hsize
  | copy msgSz copySz out =>
    rw [hp] at hstep hpop
    dsimp only at hstep
    split at hstep
    · cases hstep
      exact h.setPop hpop nofun
    · cases hstep
      exact h.popped hp

theorem step (h : Awake s) (hok : Nonempty s l ∧ FitsSlot s l)
    (hstep : step s l = some (u, o)) : Awake u := by
  unfold Notify.step at hstep
  cases l with
  | push msg =>
    dsimp only at hstep
    split at hstep
    · rename_i hp
      cases hstep
      exact h.setPush hok (by simp [hp])
    · cases hstep
  | producer => exact h.stepPush hstep
  | tryPop bufSize =>
    dsimp only at hstep
    split at hstep
    · split at hstep
      · cases hstep
        exact h.setPop trivial nofun
      · rename_i hempty
        cases hstep
        exact h.setPop (h.lt_of_empty (Bool.eq_false_iff.mpr hempty)) nofun
    · cases hstep
  | consumer => exact h.stepPop hstep
  | interrupt =>
    dsimp only at hstep
    split at hstep
    · cases hstep
      exact h
    · cases hstep

end Awake

/-! ### Every interleaving -/

section Run

variable {c m : UInt32} {seg : Segment}

theorem awake_init (hc : create c m = some seg) : Awake (init seg) := by
  have hcb := cb_of_create hc
  have hw : seg.cb.writePos = 0 := by rw [hcb]
  have hr : seg.cb.readPos = 0 := by rw [hcb]
  refine ⟨rfl, rfl, rfl, rfl, le_rfl, ?_, le_rfl, ?_, ?_, trivial, trivial, ?_⟩
  · exact hr.le.trans (Nat.zero_le _)
  · exact hw.le.trans (Nat.zero_le _)
  · intro p _ hlt
    exact absurd hlt (by simp [init, Producer.attach, hw])
  · intro _ hlt
    exact absurd hlt (by simp [init, Producer.attach, Consumer.attach, hw, hr])

/-- **No wake-up is lost.**  In every run whose messages fit their slots. -/
theorem no_lost_wakeup (hc : create c m = some seg)
    (h : Lib.Machine.Run machine (fun s l => Nonempty s l ∧ FitsSlot s l) (init seg) os s) :
    ¬ Lost s := by
  have hs : Awake s := by
    refine h.keeps (awake_init hc) ?_
    intro t l u o ht hok hstep
    exact ht.step hok hstep
  rintro ⟨⟨hwait, hzero⟩, hnotify, hunread⟩
  rw [hs.readPos, hs.writePos] at hunread
  rcases hs.wake hwait hunread with hpos | hp
  · exact hpos.ne' hzero
  · exact hnotify hp

theorem stepPush_fixed (h : stepPush s = some (u, o)) :
    u.prod.capacity = s.prod.capacity ∧ u.prod.stride = s.prod.stride ∧
      u.prod.maxMsg = s.prod.maxMsg := by
  unfold stepPush at h
  dsimp only at h
  repeat' split at h
  all_goals cases h
  all_goals exact ⟨rfl, rfl, rfl⟩

theorem stepPop_prod (h : stepPop s = some (u, o)) : u.prod = s.prod := by
  unfold stepPop at h
  dsimp only at h
  repeat' split at h
  all_goals cases h
  all_goals rfl

theorem step_fixed (h : step s l = some (u, o)) :
    u.prod.capacity = s.prod.capacity ∧ u.prod.stride = s.prod.stride ∧
      u.prod.maxMsg = s.prod.maxMsg := by
  cases l with
  | producer => exact stepPush_fixed h
  | consumer =>
    rw [stepPop_prod h]
    exact ⟨rfl, rfl, rfl⟩
  | push msg | tryPop bufSize | interrupt =>
    unfold step at h
    dsimp only at h
    repeat' split at h
    all_goals cases h
    all_goals exact ⟨rfl, rfl, rfl⟩

/-- On a bus whose stride fits its field, every message fits its slot. -/
theorem run_fitsSlot (hc : create c m = some seg) (hfit : (computeSlotStride m).toNat < 2 ^ 32)
    (h : Lib.Machine.Run machine Nonempty (init seg) os s) :
    Lib.Machine.Run machine (fun s l => Nonempty s l ∧ FitsSlot s l) (init seg) os s := by
  have hmax : seg.cb.maxMsgSize = m := by rw [cb_of_create hc]
  refine h.imp (I := fun t => t.prod.capacity = seg.cb.capacity ∧
    t.prod.stride = seg.cb.slotStride ∧ t.prod.maxMsg = m) ⟨rfl, rfl, hmax⟩ ?_ ?_
  · intro t l u o ht hstep
    obtain ⟨hcap, hstride, hmsg⟩ := step_fixed hstep
    exact ⟨hcap.trans ht.1, hstride.trans ht.2.1, hmsg.trans ht.2.2⟩
  · intro t l ht hne
    obtain ⟨hcap, hstride, hmsg⟩ := ht
    refine ⟨hne, ?_⟩
    cases l with
    | push msg =>
      rw [FitsSlot, hcap, hstride, hmsg]
      exact apart_of_create hc hfit
    | _ => trivial

/-- `push` of a message of `n` bytes and `notify`. -/
def pushNotify (n : Nat) (b : UInt8) : List Label :=
  .push (List.replicate n b) :: List.replicate (n + 4) .producer

/-- A call of `try_pop` that takes `n` more steps. -/
def popIn (n : Nat) : List Label := .tryPop 8 :: List.replicate n .consumer

/-- Both notifications collapse into one wake-up, which drains both messages;
then the consumer sleeps. -/
theorem no_lost_wakeup_collapsed :
    ∃ s os, Lib.Machine.Run machine (fun s l => Nonempty s l ∧ FitsSlot s l)
        (init Lossy.twoSlots) os s ∧
      os = [.pushed [5], .pushed [6], .popped 1 [5], .popped 1 [6], .empty] ∧ s.pop = .wait ∧
      ¬ Lost s := by
  obtain ⟨ls, hok, hexec⟩ : ∃ ls, machine.ExecOk Nonempty (init Lossy.twoSlots) ls ∧
      (machine.exec (init Lossy.twoSlots) ls).map (fun q => (q.1.pop, q.2)) =
        some (.wait, [.pushed [5], .pushed [6], .popped 1 [5], .popped 1 [6], .empty]) := by
    refine ⟨pushNotify 1 5 ++ pushNotify 1 6 ++ [.consumer] ++ popIn 4 ++ popIn 3 ++ popIn 1,
      ?_, ?_⟩
    · decide +kernel
    · decide +kernel
  obtain ⟨s, hrun, hwait⟩ := Lib.Machine.exists_run_of_exec State.pop hok hexec
  have hrun := run_fitsSlot (c := 2) (m := 8) rfl (by decide) hrun
  exact ⟨s, _, hrun, rfl, hwait, no_lost_wakeup (c := 2) (m := 8) rfl hrun⟩

/-! ### Slots that overlap -/

/-- Message 2, of 64 zero bytes, goes to the slot of message 0 and over the header
of message 1, which is then popped as if there were none: the consumer sleeps,
with message 2 unread. -/
theorem wakeup_lost :
    ∃ s os, create 2 0xFFFFFFFF = some Lossy.cutStride ∧
      Lib.Machine.Run machine Nonempty (init Lossy.cutStride) os s ∧
      os = [.pushed [1], .popped 1 [1], .empty, .pushed [2], .pushed (List.replicate 64 0),
        .popped 0 []] ∧
      s.cb.readPos = 2 ∧ s.cb.writePos = 3 ∧ Lost s := by
  let shown (s : State) : Bool := decide ((s.pop = .wait ∧ s.counter = 0) ∧ s.push = .idle ∧
    s.cb.readPos = 2 ∧ s.cb.writePos = 3)
  obtain ⟨ls, hok, hexec⟩ : ∃ ls, machine.ExecOk Nonempty (init Lossy.cutStride) ls ∧
      (machine.exec (init Lossy.cutStride) ls).map (fun q => (shown q.1, q.2)) =
        some (true, [.pushed [1], .popped 1 [1], .empty, .pushed [2],
          .pushed (List.replicate 64 0), .popped 0 []]) := by
    refine ⟨List.flatten [pushNotify 1 1, [.consumer], popIn 4, popIn 1, pushNotify 1 2,
      pushNotify 64 0, [.producer, .consumer], popIn 3], ?_, ?_⟩
    · decide +kernel
    · decide +kernel
  obtain ⟨s, hrun, hshown⟩ := Lib.Machine.exists_run_of_exec shown hok hexec
  obtain ⟨hblocked, hidle, hr, hw⟩ := of_decide_eq_true hshown
  refine ⟨s, _, rfl, hrun, rfl, hr, hw, hblocked, ?_, ?_⟩
  · rw [hidle]
    nofun
  · rw [hr, hw]
    decide

end Run

end HftComponents.Spsc.Notify
