import HftComponents.Lib.Potential
import HftComponents.Spsc.Lossy

/-!
# No call waits for the other side

`try_push`, `try_pop`, the `push` of the overwriting producer and `try_pop_lossy` end
after a number of their own steps that the largest message bounds, wherever the other
side stands and whatever it does meanwhile: `try_wait_free` and `lossy_wait_free`.
`try_pop_lossy` does not try again when it has been overtaken.

A reader copies no more than the size that it finds in the slot, so the bounds rest on
the sizes in the segment (`Sized`).
-/

namespace HftComponents.Spsc

open Lib.Ring

theorem toNat_u32_le (n : Nat) : (u32 n).toNat ≤ n := by
  rw [u32, UInt32.toNat_ofNat']
  exact Nat.mod_le _ _

/-- No slot holds a size beyond the largest message. -/
def Segment.Sized (m : UInt32) (seg : Segment) : Prop := ∀ slot, seg.size slot ≤ m

theorem Segment.Sized.setSize {m : UInt32} {seg : Segment} (h : seg.Sized m) {slot n : Nat}
    (hn : n ≤ m.toNat) : (seg.setSize slot (u32 n)).Sized m := by
  intro a
  rw [Segment.setSize]
  dsimp only
  by_cases ha : a = slot
  · rw [ha, Function.update_self, UInt32.le_iff_toNat_le]
    exact (toNat_u32_le n).trans hn
  · rw [Function.update_of_ne ha]
    exact h a

theorem sized_create {n m : UInt32} {seg : Segment} (hc : create n m = some seg) :
    seg.Sized m ∧ seg.cb.maxMsgSize = m := by
  unfold create at hc
  split at hc
  · cases hc
  · split at hc
    · cases hc
    · cases hc
      refine ⟨fun slot => ?_, rfl⟩
      rw [UInt32.le_iff_toNat_le]
      exact Nat.zero_le _

theorem min_le_of_sized {m msgSz : UInt32} (bufSize : UInt32) (h : msgSz ≤ m) :
    (if msgSz < bufSize then msgSz else bufSize) ≤ m := by
  split
  · exact h
  · rename_i hge
    rw [UInt32.lt_iff_toNat_lt] at hge
    rw [UInt32.le_iff_toNat_le] at h ⊢
    omega

namespace Bus

variable {m : UInt32} {s u : State} {a : Option (List UInt8)} {b : Option UInt32} {l : Label}
  {o : List Event}

def Label.byProducer : Label → Bool
  | .tryPush _ | .producer => true
  | _ => false

def Label.byConsumer (l : Label) : Bool := !l.byProducer

/-- A `try_push` returns. -/
def Event.ofPush : Event → Bool
  | .pushed _ | .full | .refused => true
  | _ => false

/-- A `try_pop` returns. -/
def Event.ofPop (e : Event) : Bool := !e.ofPush

def Push.Fits (m : UInt32) : Push → Prop
  | .idle => True
  | .reload msg | .setSize msg | .copy msg _ => msg.length ≤ m.toNat

def Pop.Fits (m : UInt32) : Pop → Prop
  | .copy _ copySz _ => copySz ≤ m
  | _ => True

/-- Nothing is longer than the largest message. -/
structure Within (m : UInt32) (s : State) : Prop where
  seg : s.seg.Sized m
  maxMsg : s.prod.maxMsg = m
  push : s.push.Fits m
  pop : s.pop.Fits m

/-- The steps that are left of a call of `try_push`. -/
def Push.left (m : UInt32) : Push → Nat
  | .idle => m.toNat + 4
  | .reload msg => msg.length + 3
  | .setSize msg => msg.length + 2
  | .copy msg k => msg.length - k + 1

/-- ... and of one of `try_pop`. -/
def Pop.left (m : UInt32) : Pop → Nat
  | .idle => m.toNat + 4
  | .reload _ => m.toNat + 3
  | .getSize _ => m.toNat + 2
  | .copy _ copySz out => copySz.toNat - out.length + 1

theorem PushMoves.spends (h : Within m s) (hm : PushMoves s a u o) :
    Within m u ∧ 1 + u.push.left m ≤ s.push.left m + (m.toNat + 4) * o.countP Event.ofPush ∧
      u.pop = s.pop ∧ o.countP Event.ofPop = 0 := by
  obtain ⟨hseg, hmax, hpush, hpop⟩ := h
  cases hm with
  | refused hp hlen =>
    refine ⟨⟨hseg, hmax, hpush, hpop⟩, ?_, rfl, rfl⟩
    rw [hp]
    simp [Push.left, Event.ofPush]
  | look hp hlen hfull | start hp hlen hfull =>
    rw [hmax] at hlen
    refine ⟨⟨hseg, hmax, hlen, hpop⟩, ?_, rfl, rfl⟩
    rw [hp]
    simp only [Push.left, List.countP_nil]
    omega
  | full hp hfull =>
    refine ⟨⟨hseg, hmax, trivial, hpop⟩, ?_, rfl, rfl⟩
    rw [hp]
    simp [Push.left, Event.ofPush]
  | reload hp hfull =>
    rw [hp] at hpush
    refine ⟨⟨hseg, hmax, hpush, hpop⟩, ?_, rfl, rfl⟩
    rw [hp]
    simp only [Push.left, List.countP_nil]
    omega
  | setSize hp =>
    rw [hp] at hpush
    refine ⟨⟨hseg.setSize hpush, hmax, hpush, hpop⟩, ?_, rfl, rfl⟩
    rw [hp]
    simp only [Push.left, List.countP_nil]
    omega
  | setByte hp hb =>
    have hk := (List.getElem?_eq_some_iff.mp hb).1
    rw [hp] at hpush
    refine ⟨⟨hseg, hmax, hpush, hpop⟩, ?_, rfl, rfl⟩
    rw [hp]
    simp only [Push.left, List.countP_nil]
    omega
  | pushed hp hk =>
    refine ⟨⟨hseg, hmax, trivial, hpop⟩, ?_, rfl, rfl⟩
    rw [hp]
    simp [Push.left, Event.ofPush]

theorem PopMoves.spends (h : Within m s) (hm : PopMoves s b u o) :
    Within m u ∧ 1 + u.pop.left m ≤ s.pop.left m + (m.toNat + 4) * o.countP Event.ofPop ∧
      u.push = s.push ∧ o.countP Event.ofPush = 0 := by
  obtain ⟨hseg, hmax, hpush, hpop⟩ := h
  cases hm with
  | look hp hempty | start hp hempty | reload hp hempty =>
    refine ⟨⟨hseg, hmax, hpush, trivial⟩, ?_, rfl, rfl⟩
    rw [hp]
    simp only [Pop.left, List.countP_nil]
    omega
  | empty hp hempty =>
    refine ⟨⟨hseg, hmax, hpush, trivial⟩, ?_, rfl, rfl⟩
    rw [hp]
    simp [Pop.left, Event.ofPop, Event.ofPush]
  | @getSize bufSize hp =>
    have hcopy := min_le_of_sized bufSize (hseg (rslot s.cons))
    refine ⟨⟨hseg, hmax, hpush, hcopy⟩, ?_, rfl, rfl⟩
    rw [UInt32.le_iff_toNat_le] at hcopy
    rw [hp]
    simp only [Pop.left, List.countP_nil, List.length_nil]
    omega
  | getByte hp hlt =>
    rw [hp] at hpop
    refine ⟨⟨hseg, hmax, hpush, hpop⟩, ?_, rfl, rfl⟩
    rw [hp]
    simp only [Pop.left, List.countP_nil, List.length_append, List.length_singleton]
    omega
  | popped hp hle =>
    refine ⟨⟨hseg, hmax, hpush, trivial⟩, ?_, rfl, rfl⟩
    rw [hp]
    simp [Pop.left, Event.ofPop, Event.ofPush]

theorem step_party (h : step s l = some (u, o)) :
    l.byProducer = true ∧ (∃ a, PushMoves s a u o) ∨
      l.byProducer = false ∧ ∃ b, PopMoves s b u o := by
  cases l with
  | tryPush msg => exact .inl ⟨rfl, _, step_tryPush_moves h⟩
  | producer => exact .inl ⟨rfl, _, stepPush_moves h⟩
  | tryPop bufSize => exact .inr ⟨rfl, _, step_tryPop_moves h⟩
  | consumer => exact .inr ⟨rfl, _, stepPop_moves h⟩

theorem Within.producer_spends (h : Within m s) (hs : step s l = some (u, o)) :
    Within m u ∧ l.byProducer.toNat + u.push.left m ≤
      s.push.left m + (m.toNat + 4) * o.countP Event.ofPush := by
  rcases step_party hs with ⟨hl, a, hm⟩ | ⟨hl, b, hm⟩
  · obtain ⟨hu, hle, -, -⟩ := hm.spends h
    rw [hl]
    exact ⟨hu, hle⟩
  · obtain ⟨hu, -, hpush, -⟩ := hm.spends h
    rw [hl, hpush, Bool.toNat_false, Nat.zero_add]
    exact ⟨hu, Nat.le_add_right _ _⟩

theorem Within.consumer_spends (h : Within m s) (hs : step s l = some (u, o)) :
    Within m u ∧ l.byConsumer.toNat + u.pop.left m ≤
      s.pop.left m + (m.toNat + 4) * o.countP Event.ofPop := by
  rcases step_party hs with ⟨hl, a, hm⟩ | ⟨hl, b, hm⟩
  · obtain ⟨hu, -, hpop, -⟩ := hm.spends h
    rw [Label.byConsumer, hl, hpop, Bool.not_true, Bool.toNat_false, Nat.zero_add]
    exact ⟨hu, Nat.le_add_right _ _⟩
  · obtain ⟨hu, hle, -, -⟩ := hm.spends h
    rw [Label.byConsumer, hl]
    exact ⟨hu, hle⟩

theorem Within.left_le (h : Within m s) :
    s.push.left m ≤ m.toNat + 4 ∧ s.pop.left m ≤ m.toNat + 4 := by
  obtain ⟨-, -, hpush, hpop⟩ := h
  constructor
  · revert hpush
    cases s.push <;> simp only [Push.Fits, Push.left] <;> omega
  · revert hpop
    cases s.pop <;> simp only [Pop.Fits, Pop.left, UInt32.le_iff_toNat_le] <;> omega

theorem enabled_producer (h : s.push ≠ .idle) : (step s .producer).isSome := by
  cases hp : s.push with
  | idle => exact absurd hp h
  | setSize => simp [step, stepPush, hp]
  | reload | copy =>
    simp only [step, stepPush, hp]
    split <;> rfl

theorem enabled_consumer (h : s.pop ≠ .idle) : (step s .consumer).isSome := by
  cases hp : s.pop with
  | idle => exact absurd hp h
  | getSize => simp [step, stepPop, hp]
  | reload | copy =>
    simp only [step, stepPop, hp]
    split <;> rfl

/-- **`try_push` and `try_pop` are wait-free**, for messages of up to `m` bytes. -/
theorem try_wait_free {n m : UInt32} {seg : Segment} {os : List Event}
    (hc : create n m = some seg) (h : machine.Run Lib.Machine.anyStep (init seg) os s) :
    machine.WaitFree Label.byProducer Event.ofPush (fun s => s.push = .idle) (m.toNat + 4) s ∧
      machine.WaitFree Label.byConsumer Event.ofPop (fun s => s.pop = .idle) (m.toNat + 4) s := by
  have hsized : Within m s := by
    obtain ⟨hseg, hmax⟩ := sized_create hc
    have h0 : Within m (init seg) := ⟨hseg, hmax, trivial, trivial⟩
    exact h.keeps h0 fun _ _ _ _ hs _ hst => (hs.producer_spends hst).1
  obtain ⟨hpush, hpop⟩ := hsized.left_le
  refine ⟨⟨fun ls t os hexec => ?_, fun hbusy => ⟨.producer, rfl, enabled_producer hbusy⟩⟩,
    ⟨fun ls t os hexec => ?_, fun hbusy => ⟨.consumer, rfl, enabled_consumer hbusy⟩⟩⟩
  · exact Lib.Machine.bounded_of_rank (fun _ _ _ _ hs hst => hs.producer_spends hst) hsized hpush
      hexec
  · exact Lib.Machine.bounded_of_rank (fun _ _ _ _ hs hst => hs.consumer_spends hst) hsized hpop
      hexec

/-- In the middle of a `try_push` of two bytes. -/
theorem try_wait_free_copying :
    ∃ seg s os, create 4 8 = some seg ∧ machine.Run Lib.Machine.anyStep (init seg) os s ∧
      s.push = .copy [1, 2] 1 ∧
      machine.WaitFree Label.byProducer Event.ofPush (fun s => s.push = .idle) 12 s := by
  obtain ⟨seg, hc⟩ : ∃ seg, create 4 8 = some seg := ⟨_, rfl⟩
  have hexec : (machine.exec (init seg) [.tryPush [1, 2], .producer, .producer]).map
      (fun q => (q.1.push, q.2)) = some (.copy [1, 2] 1, []) := by
    cases hc
    decide
  obtain ⟨s, hrun, hs⟩ := Lib.Machine.exists_run_of_exec State.push
    (Lib.Machine.execOk_of_forall (fun _ _ _ => trivial) _) hexec
  exact ⟨seg, s, _, hc, hrun, hs, (try_wait_free hc hrun).1⟩

end Bus

namespace Lossy

open Bus (rslot)

variable {m : UInt32} {s u : State} {a : Option (List UInt8)} {l : Label} {o : List Event}

def Label.byProducer : Label → Bool
  | .push _ | .producer => true
  | _ => false

def Label.byConsumer (l : Label) : Bool := !l.byProducer

/-- A `push` returns. -/
def Event.ofPush : Event → Bool
  | .pushed _ | .refused => true
  | .popped .. => false

/-- A `try_pop_lossy` returns. -/
def Event.ofPop (e : Event) : Bool := !e.ofPush

def Push.Fits (m : UInt32) : Push → Prop
  | .idle => True
  | .loadGen msg | .storeOdd msg _ | .setSize msg _ | .copy msg _ _ | .publish msg =>
    msg.length ≤ m.toNat

def Pop.Fits (m : UInt32) : Pop → Prop
  | .copy _ _ _ copySz _ => copySz ≤ m
  | _ => True

structure Within (m : UInt32) (s : State) : Prop where
  seg : s.seg.Sized m
  maxMsg : s.prod.maxMsg = m
  push : s.push.Fits m
  pop : s.pop.Fits m

/-- The steps that are left of a `push`. -/
def Push.left (m : UInt32) : Push → Nat
  | .idle => m.toNat + 6
  | .loadGen msg => msg.length + 5
  | .storeOdd msg _ => msg.length + 4
  | .setSize msg _ => msg.length + 3
  | .copy msg _ k => msg.length - k + 2
  | .publish _ => 1

/-- ... and of a `try_pop_lossy`, if it finds its message overwritten at the end. -/
def Pop.left (m : UInt32) : Pop → Nat
  | .idle => m.toNat + 7
  | .reload _ => m.toNat + 6
  | .loadGen _ => m.toNat + 5
  | .getSize _ _ => m.toNat + 4
  | .copy _ _ _ copySz out => copySz.toNat - out.length + 3
  | .relocate _ _ => 2
  | .fastForward _ _ | .store _ _ _ _ | .storeLost _ _ _ => 1

theorem left_look (s : State) (bufSize : UInt32) (m : UInt32) :
    (look s bufSize).Fits m ∧ (look s bufSize).left m ≤ m.toNat + 5 := by
  unfold look
  split
  · refine ⟨trivial, ?_⟩
    simp only [Pop.left]
    omega
  · exact ⟨trivial, le_rfl⟩

theorem PushMoves.spends (h : Within m s) (hm : PushMoves s a u o) :
    Within m u ∧ 1 + u.push.left m ≤ s.push.left m + (m.toNat + 6) * o.countP Event.ofPush := by
  obtain ⟨hseg, hmax, hpush, hpop⟩ := h
  cases hm with
  | refused hp hlen =>
    refine ⟨⟨hseg, hmax, hpush, hpop⟩, ?_⟩
    rw [hp]
    simp [Push.left, Event.ofPush]
  | start hp hlen =>
    rw [hmax] at hlen
    refine ⟨⟨hseg, hmax, hlen, hpop⟩, ?_⟩
    rw [hp]
    simp only [Push.left, List.countP_nil]
    omega
  | loadGen hp | storeOdd hp | storeEven hp =>
    rw [hp] at hpush
    refine ⟨⟨hseg, hmax, hpush, hpop⟩, ?_⟩
    rw [hp]
    simp only [Push.left, List.countP_nil]
    omega
  | setSize hp =>
    rw [hp] at hpush
    refine ⟨⟨hseg.setSize hpush, hmax, hpush, hpop⟩, ?_⟩
    rw [hp]
    simp only [Push.left, List.countP_nil]
    omega
  | setByte hp hb =>
    have hk := (List.getElem?_eq_some_iff.mp hb).1
    rw [hp] at hpush
    refine ⟨⟨hseg, hmax, hpush, hpop⟩, ?_⟩
    rw [hp]
    simp only [Push.left, List.countP_nil]
    omega
  | publish hp =>
    refine ⟨⟨hseg, hmax, trivial, hpop⟩, ?_⟩
    rw [hp]
    simp [Push.left, Event.ofPush]

theorem PopMoves.spends (h : Within m s) (hm : PopMoves s u o) :
    Within m u ∧ 1 + u.pop.left m ≤ s.pop.left m + (m.toNat + 7) * o.countP Event.ofPop ∧
      u.push = s.push := by
  obtain ⟨hseg, hmax, hpush, hpop⟩ := h
  cases hm with
  | reload hp hempty | loadGen hp heven | relocate hp =>
    refine ⟨⟨hseg, hmax, hpush, trivial⟩, ?_, rfl⟩
    rw [hp]
    simp only [Pop.left, List.countP_nil]
    omega
  | look hp hempty | relook hp hempty =>
    obtain ⟨hfits, hleft⟩ := left_look _ _ m
    refine ⟨⟨hseg, hmax, hpush, hfits⟩, ?_, rfl⟩
    have hnow : m.toNat + 6 ≤ s.pop.left m := by simp [hp, Pop.left]
    exact (Nat.add_le_add_left hleft 1).trans (by simp only [List.countP_nil]; omega)
  | empty hp _ | retry hp _ | fastForward hp | store hp | storeLost hp =>
    refine ⟨⟨hseg, hmax, hpush, trivial⟩, ?_, rfl⟩
    rw [hp]
    simp [setRead, Pop.left, Event.ofPop, Event.ofPush]
  | @getSize bufSize gen1 hp =>
    have hcopy := min_le_of_sized bufSize (hseg (rslot s.cons))
    refine ⟨⟨hseg, hmax, hpush, hcopy⟩, ?_, rfl⟩
    rw [UInt32.le_iff_toNat_le] at hcopy
    rw [hp]
    simp only [Pop.left, List.countP_nil, List.length_nil]
    omega
  | getByte hp hlt =>
    rw [hp] at hpop
    refine ⟨⟨hseg, hmax, hpush, hpop⟩, ?_, rfl⟩
    rw [hp]
    simp only [Pop.left, List.countP_nil, List.length_append, List.length_singleton]
    omega
  | torn hp hle hgen | whole hp hle hgen =>
    refine ⟨⟨hseg, hmax, hpush, trivial⟩, ?_, rfl⟩
    rw [hp]
    simp only [Pop.left, List.countP_nil]
    omega

theorem step_party (h : step s l = some (u, o)) :
    l.byProducer = true ∧ (∃ a, PushMoves s a u o) ∨ l.byProducer = false ∧ PopMoves s u o := by
  cases l with
  | push msg => exact .inl ⟨rfl, _, step_push_moves h⟩
  | producer => exact .inl ⟨rfl, _, stepPush_moves h⟩
  | tryPopLossy bufSize => exact .inr ⟨rfl, (step_tryPopLossy_moves h).2⟩
  | consumer => exact .inr ⟨rfl, stepPop_moves h⟩

theorem Within.producer_spends (h : Within m s) (hs : step s l = some (u, o)) :
    Within m u ∧ l.byProducer.toNat + u.push.left m ≤
      s.push.left m + (m.toNat + 6) * o.countP Event.ofPush := by
  rcases step_party hs with ⟨hl, a, hm⟩ | ⟨hl, hm⟩
  · rw [hl]
    exact hm.spends h
  · obtain ⟨hu, -, hpush⟩ := hm.spends h
    rw [hl, hpush, Bool.toNat_false, Nat.zero_add]
    exact ⟨hu, Nat.le_add_right _ _⟩

theorem Within.consumer_spends (h : Within m s) (hs : step s l = some (u, o)) :
    Within m u ∧ l.byConsumer.toNat + u.pop.left m ≤
      s.pop.left m + (m.toNat + 7) * o.countP Event.ofPop := by
  rcases step_party hs with ⟨hl, a, hm⟩ | ⟨hl, hm⟩
  · rw [Label.byConsumer, hl, hm.pop_eq, Bool.not_true, Bool.toNat_false, Nat.zero_add]
    exact ⟨(hm.spends h).1, Nat.le_add_right _ _⟩
  · obtain ⟨hu, hle, -⟩ := hm.spends h
    rw [Label.byConsumer, hl]
    exact ⟨hu, hle⟩

theorem Within.left_le (h : Within m s) :
    s.push.left m ≤ m.toNat + 6 ∧ s.pop.left m ≤ m.toNat + 7 := by
  obtain ⟨-, -, hpush, hpop⟩ := h
  constructor
  · revert hpush
    cases s.push <;> simp only [Push.Fits, Push.left] <;> omega
  · revert hpop
    cases s.pop <;> simp only [Pop.Fits, Pop.left, UInt32.le_iff_toNat_le] <;> omega

theorem enabled_producer (h : s.push ≠ .idle) : (step s .producer).isSome := by
  cases hp : s.push with
  | idle => exact absurd hp h
  | copy =>
    simp only [step, stepPush, hp]
    split <;> rfl
  | _ => simp [step, stepPush, hp]

theorem enabled_consumer (h : s.pop ≠ .idle) : (step s .consumer).isSome := by
  cases hp : s.pop with
  | idle => exact absurd hp h
  | reload | loadGen =>
    simp only [step, stepPop, hp]
    split <;> rfl
  | copy =>
    simp only [step, stepPop, hp]
    repeat' split
    all_goals rfl
  | _ => simp [step, stepPop, hp]

/-- **`push` and `try_pop_lossy` are wait-free**, for messages of up to `m` bytes. -/
theorem lossy_wait_free {n m : UInt32} {seg : Segment} {os : List Event}
    (hc : create n m = some seg) (h : machine.Run Lib.Machine.anyStep (init seg) os s) :
    machine.WaitFree Label.byProducer Event.ofPush (fun s => s.push = .idle) (m.toNat + 6) s ∧
      machine.WaitFree Label.byConsumer Event.ofPop (fun s => s.pop = .idle) (m.toNat + 7) s := by
  have hsized : Within m s := by
    obtain ⟨hseg, hmax⟩ := sized_create hc
    have h0 : Within m (init seg) := ⟨hseg, hmax, trivial, trivial⟩
    exact h.keeps h0 fun _ _ _ _ hs _ hst => (hs.producer_spends hst).1
  obtain ⟨hpush, hpop⟩ := hsized.left_le
  refine ⟨⟨fun ls t os hexec => ?_, fun hbusy => ⟨.producer, rfl, enabled_producer hbusy⟩⟩,
    ⟨fun ls t os hexec => ?_, fun hbusy => ⟨.consumer, rfl, enabled_consumer hbusy⟩⟩⟩
  · exact Lib.Machine.bounded_of_rank (fun _ _ _ _ hs hst => hs.producer_spends hst) hsized hpush
      hexec
  · exact Lib.Machine.bounded_of_rank (fun _ _ _ _ hs hst => hs.consumer_spends hst) hsized hpop
      hexec

/-- A message of one byte is overwritten while it is read from the only slot; the call
will return after two more steps. -/
theorem lossy_wait_free_overtaken :
    ∃ seg s os, create 1 8 = some seg ∧ machine.Run Lib.Machine.anyStep (init seg) os s ∧
      s.pop = .relocate 8 [7] ∧
      machine.WaitFree Label.byConsumer Event.ofPop (fun s => s.pop = .idle) 15 s := by
  obtain ⟨seg, hc⟩ : ∃ seg, create 1 8 = some seg := ⟨_, rfl⟩
  have hexec : (machine.exec (init seg) ([.push [7]] ++ List.replicate 6 .producer ++
      [.tryPopLossy 8] ++ List.replicate 4 .consumer ++ [.push [9], .producer, .producer,
        .consumer])).map (fun q => (q.1.pop, q.2)) = some (.relocate 8 [7], [.pushed [7]]) := by
    cases hc
    decide
  obtain ⟨s, hrun, hs⟩ := Lib.Machine.exists_run_of_exec State.pop
    (Lib.Machine.execOk_of_forall (fun _ _ _ => trivial) _) hexec
  exact ⟨seg, s, _, hc, hrun, hs, (lossy_wait_free hc hrun).2⟩

end Lossy

end HftComponents.Spsc
