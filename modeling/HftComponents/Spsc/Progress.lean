import HftComponents.Spsc.Blocking
import HftComponents.Spsc.Layout

/-!
# When a blocking push ends

`push` and `push_checked` go on while `try_push` returns false, and `try_push`
returns false for two reasons: the ring is full, or the message is too long for
any slot.  The first passes when the consumer takes a message, the second never.

Once there is room, it stays until this producer uses it, and a call with a
message that fits ends in its next attempt, after a number of its own steps that
`rank` bounds.  `push_ends_iff` is about the messages for which that is so.
-/

namespace HftComponents.Spsc.Blocking

open Lib.Ring
open PopChecked (pushing)

/-! ### The positions -/

/-- The positions, and what the two parties know of them. -/
structure Positions (c m : UInt32) (b : Bus.State) : Prop where
  capacity : b.prod.capacity = c
  maxMsg : b.prod.maxMsg = m
  writePos : b.seg.cb.writePos = b.prod.writePos
  readPos : b.seg.cb.readPos = b.cons.readPos
  readCache : b.prod.readCache ≤ b.cons.readPos
  order : b.cons.readPos ≤ b.cons.writeCache
  writeCache : b.cons.writeCache ≤ b.prod.writePos
  room : b.prod.writePos ≤ b.prod.readCache + c.toNat
  writing : b.push.Writing → b.prod.writePos < b.prod.readCache + c.toNat
  reading : b.pop.Reading → b.cons.readPos < b.cons.writeCache

/-- The ring has a free slot. -/
def Room (c : UInt32) (b : Bus.State) : Prop := b.seg.cb.writePos < b.seg.cb.readPos + c.toNat

instance (c : UInt32) (b : Bus.State) : Decidable (Room c b) := inferInstanceAs (Decidable (_ < _))

variable {c m : UInt32} {b v : Bus.State} {a : Option (List UInt8)} {x : Option UInt32}
  {o' : List Bus.Event}

namespace Positions

/-- A look at the ring that finds it not full. -/
theorem lt_of_not_full (h : Positions c m b) {r : Nat} (hle : r ≤ b.cons.readPos)
    (hroom : b.prod.writePos ≤ r + c.toNat)
    (hfull : Bus.full { b.prod with readCache := r } = false) :
    b.prod.writePos < r + c.toNat := by
  have hcap := h.capacity
  subst hcap
  exact Bus.free_of_full_eq_false (hle.trans (h.order.trans h.writeCache)) hroom hfull

theorem pushMoves (h : Positions c m b) (hm : Bus.PushMoves b a v o') : Positions c m v := by
  have hread := h.readPos
  have hroom := h.room
  have hcache := h.readCache
  cases hm with
  | refused _ _ => exact h
  | look _ _ _ => exact { h with writing := nofun }
  | start _ _ hfull =>
    exact { h with writing := fun _ => h.lt_of_not_full h.readCache h.room hfull }
  | full _ hfull =>
    exact { h with
      readCache := hread.le
      room := by
        show b.prod.writePos ≤ b.seg.cb.readPos + c.toNat
        omega
      writing := nofun }
  | reload _ hfull =>
    have hlt := h.lt_of_not_full hread.le (by omega) hfull
    exact { h with readCache := hread.le, room := hlt.le, writing := fun _ => hlt }
  | setSize hp | setByte hp _ =>
    have hlt := h.writing (by rw [hp]; trivial)
    exact { h with writing := fun _ => hlt }
  | pushed hp _ =>
    have hlt := h.writing (by rw [hp]; trivial)
    exact { h with
      writePos := rfl
      writeCache := h.writeCache.trans (Nat.le_succ _)
      room := hlt
      writing := nofun }

theorem popMoves (h : Positions c m b) (hm : Bus.PopMoves b x v o') : Positions c m v := by
  have hwrite := h.writePos
  have horder := h.order
  have hcache := h.writeCache
  have hroom := h.room
  have hread := h.readCache
  cases hm with
  | look _ _ => exact { h with reading := nofun }
  | start _ hempty =>
    have hlt := Bus.lt_of_empty_eq_false (n := c) h.order (by omega) hempty
    exact { h with reading := fun _ => hlt }
  | empty _ _ =>
    exact { h with
      order := by
        show b.cons.readPos ≤ b.seg.cb.writePos
        omega
      writeCache := hwrite.le
      reading := nofun }
  | reload _ hempty =>
    have hle : b.cons.readPos ≤ b.seg.cb.writePos := by omega
    have hlt := Bus.lt_of_empty_eq_false (n := c)
      (c := { b.cons with writeCache := b.seg.cb.writePos }) hle
      (by show b.seg.cb.writePos ≤ b.cons.readPos + c.toNat; omega) hempty
    exact { h with order := hle, writeCache := hwrite.le, reading := fun _ => hlt }
  | getSize hp | getByte hp _ =>
    have hlt := h.reading (by rw [hp]; trivial)
    exact { h with reading := fun _ => hlt }
  | popped hp _ =>
    have hlt := h.reading (by rw [hp]; trivial)
    exact { h with
      readPos := rfl
      readCache := h.readCache.trans (Nat.le_succ _)
      order := hlt
      reading := nofun }

/-- With room and a message that fits, an attempt does not fail. -/
theorem succeeds (h : Positions c m b) (hroom : Room c b)
    (hfit : ∀ msg, a = some msg → msg.length ≤ m.toNat) (hm : Bus.PushMoves b a v o') :
    o' = [] ∨ ∃ msg, o' = [.pushed msg] := by
  have hwrite := h.writePos
  have hread := h.readPos
  have hmax := h.maxMsg
  have hcap := h.capacity
  have hcache := h.readCache
  unfold Room at hroom
  cases hm with
  | refused _ hlen =>
    have := hfit _ rfl
    rw [hmax] at hlen
    omega
  | full _ hfull =>
    subst hcap
    have hle : b.seg.cb.readPos ≤ b.prod.writePos :=
      hread.le.trans (h.order.trans h.writeCache)
    have hupper : b.prod.writePos ≤ b.seg.cb.readPos + b.prod.capacity.toNat := by omega
    have heq : b.prod.writePos = b.seg.cb.readPos + b.prod.capacity.toNat :=
      (Bus.full_iff (p := { b.prod with readCache := b.seg.cb.readPos }) hle hupper).mp hfull
    omega
  | pushed _ _ => exact Or.inr ⟨_, rfl⟩
  | _ => exact Or.inl rfl

end Positions

/-! ### A call in progress -/

def Push.call : Push → Option Pushing
  | .idle => none
  | .attempt p | .trying p | .status p => some p

/-- The bus is in a `try_push` if and only if the call is. -/
def Aligned (s : State) : Prop :=
  match s.push with
  | .trying p => pushing s.bus.push = some p.msg
  | _ => s.bus.push = .idle

/-- The event ends the call of the producer. -/
def Event.Ends : Event → Prop
  | .accepted _ | .gaveUp => True
  | _ => False

def Label.byProducer : Label → Bool
  | .producer | .consumerStatus _ => true
  | _ => false

/-- A call of `push` or `push_checked` with `msg` is in progress. -/
def Called (msg : List UInt8) (s : State) : Prop :=
  ∃ p, s.push.call = some p ∧ p.kind ≠ .tryPush ∧ p.msg = msg

structure Waiting (c m : UInt32) (msg : List UInt8) (s : State) : Prop where
  positions : Positions c m s.bus
  aligned : Aligned s
  pending : Called msg s

/-- How many steps of its own the call has left at most, if no attempt fails. -/
def rank (s : State) : Nat :=
  match s.push with
  | .idle => 0
  | .status p => p.msg.length + 5
  | .attempt p => p.msg.length + 4
  | .trying _ =>
    match s.bus.push with
    | .idle => 0
    | .reload msg => msg.length + 3
    | .setSize msg => msg.length + 2
    | .copy msg k => msg.length - k + 1

variable {s u : State} {l : Label} {o os : List Event} {msg : List UInt8} {p : Pushing}

theorem failed_cases (hkind : p.kind ≠ .tryPush) :
    p.failed.2 = [.failed] ∧ ∃ q, (p.failed.1 = .attempt q ∨ p.failed.1 = .status q) ∧
      q.kind = p.kind ∧ q.msg = p.msg := by
  unfold Pushing.failed
  cases hk : p.kind with
  | tryPush => exact absurd hk hkind
  | push => exact ⟨rfl, p, Or.inl rfl, hk, rfl⟩
  | pushChecked checkEvery =>
    dsimp only
    split
    · exact ⟨rfl, _, Or.inr rfl, rfl, rfl⟩
    · exact ⟨rfl, _, Or.inl rfl, rfl, rfl⟩

theorem pushing_eq (hm : Bus.PushMoves b a v []) (hnext : a = none → pushing b.push = some msg)
    (hstart : ∀ m, a = some m → m = msg) : pushing v.push = some msg := by
  cases hm with
  | look _ _ _ | start _ _ _ => exact congrArg some (hstart _ rfl)
  | reload hp _ | setSize hp | setByte hp _ =>
    have := hnext rfl
    rw [hp] at this
    exact this

theorem push_cases (hm : Bus.PushMoves b a v o') :
    o' = [] ∨ (v.push = .idle ∨ v = b ∧ b.push = .idle) ∧
      ((∃ msg, o' = [.pushed msg]) ∨ o' = [.full] ∨ o' = [.refused]) := by
  cases hm with
  | refused hp _ => exact Or.inr ⟨Or.inr ⟨rfl, hp⟩, Or.inr (Or.inr rfl)⟩
  | full _ _ => exact Or.inr ⟨Or.inl rfl, Or.inr (Or.inl rfl)⟩
  | pushed _ _ => exact Or.inr ⟨Or.inl rfl, Or.inl ⟨_, rfl⟩⟩
  | _ => exact Or.inl rfl

theorem writePos_eq (hm : Bus.PushMoves b a v o') (hnone : ∀ msg, o' ≠ [.pushed msg]) :
    v.seg.cb.writePos = b.seg.cb.writePos := by
  cases hm with
  | pushed _ _ => exact absurd rfl (hnone _)
  | _ => rfl

theorem NextPush.eq_or {x : Push} (h : NextPush x p a) :
    x = .attempt p ∧ a = some p.msg ∨ x = .trying p ∧ a = none := by
  cases h
  · exact Or.inl ⟨rfl, rfl⟩
  · exact Or.inr ⟨rfl, rfl⟩

theorem NextPush.call {x : Push} (h : NextPush x p a) : x.call = some p := by
  cases h <;> rfl

/-- The message is the call's, whether `try_push` is starting or under way. -/
theorem NextPush.pushing (h : NextPush s.push p a) (haligned : Aligned s)
    (hm : Bus.PushMoves s.bus a v []) : pushing v.push = some p.msg := by
  unfold Aligned at haligned
  rcases h.eq_or with ⟨hs, rfl⟩ | ⟨hs, rfl⟩
  · exact pushing_eq hm nofun fun _ heq => (Option.some.inj heq).symm
  · rw [hs] at haligned
    exact pushing_eq hm (fun _ => haligned) nofun

theorem aligned_failed {q : Pop} (p : Pushing) (h : v.push = .idle) :
    Aligned ⟨v, p.failed.1, q⟩ := by
  unfold Aligned Pushing.failed
  cases p.kind with
  | pushChecked checkEvery =>
    dsimp only
    split
    · rename_i heq
      split at heq <;> cases heq
    · exact h
  | _ => exact h

theorem Aligned.step (h : Aligned s) (hm : Moves s l u o) : Aligned u := by
  have haligned := h
  unfold Aligned at haligned
  cases hm with
  | push hp =>
    rw [hp] at haligned
    exact haligned
  | @producer p a v o' hp hm =>
    rcases push_cases hm with rfl | ⟨hidle, ho⟩
    · exact hp.pushing h hm
    · have hv : v.push = .idle := by
        rcases hidle with hv | ⟨rfl, hb⟩
        · exact hv
        · exact hb
      rcases ho with ⟨msg', rfl⟩ | rfl | rfl
      · exact hv
      · exact aligned_failed p hv
      · exact aligned_failed p hv
  | gaveUp hp | pushAgain hp _ =>
    rw [hp] at haligned
    exact haligned
  | consumer hp hm =>
    unfold Aligned
    rw [(PopChecked.quiet_popMoves hm).1]
    exact haligned
  | _ => exact haligned

theorem Positions.moves (h : Positions c m s.bus) (hm : Moves s l u o) :
    Positions c m u.bus := by
  cases hm with
  | producer _ hm => exact h.pushMoves hm
  | consumer _ hm => exact h.popMoves hm
  | _ => exact h

theorem Positions.consumed (h : Positions c m b) (hm : Bus.PopMoves b x v o') :
    v.seg.cb.writePos = b.seg.cb.writePos ∧ b.seg.cb.readPos ≤ v.seg.cb.readPos := by
  cases hm with
  | popped _ _ => exact ⟨rfl, h.readPos.le.trans (Nat.le_succ _)⟩
  | _ => exact ⟨rfl, le_rfl⟩

theorem readPos_eq (hm : Bus.PushMoves b a v o') : v.seg.cb.readPos = b.seg.cb.readPos := by
  cases hm <;> rfl

namespace Waiting

/-- **One step.**  The call ends, or goes on with the ring as full as before or
less so. -/
theorem step (h : Waiting c m msg s) (hm : Moves s l u o) :
    (∃ e ∈ o, e.Ends) ∨ Waiting c m msg u ∧ u.bus.seg.cb.writePos = s.bus.seg.cb.writePos ∧
      s.bus.seg.cb.readPos ≤ u.bus.seg.cb.readPos := by
  have hpos := h.positions.moves hm
  have haligned := h.aligned.step hm
  obtain ⟨p, hcall, hkind, hmsg⟩ := h.pending
  cases hm with
  | push hp =>
    rw [hp] at hcall
    cases hcall
  | @producer q a v o' hp hm =>
    obtain rfl : q = p := Option.some.inj (hp.call.symm.trans hcall)
    rcases push_cases hm with rfl | ⟨-, ⟨msg', rfl⟩ | hfail⟩
    · exact Or.inr ⟨⟨hpos, haligned, q, rfl, hkind, hmsg⟩, writePos_eq hm (by simp),
        (readPos_eq hm).ge⟩
    · exact Or.inl ⟨.accepted msg', List.mem_cons_self, trivial⟩
    · have hafter : q.after o' = q.failed := by
        rcases hfail with rfl | rfl <;> rfl
      have hne : ∀ msg, o' ≠ [.pushed msg] := by
        rcases hfail with rfl | rfl <;> simp
      obtain ⟨-, r, hr, hrkind, hrmsg⟩ := failed_cases hkind
      refine Or.inr ⟨⟨hpos, haligned, r, ?_, hrkind ▸ hkind, hrmsg.trans hmsg⟩,
        writePos_eq hm hne, (readPos_eq hm).ge⟩
      rw [hafter]
      rcases hr with hr | hr
      · rw [hr]
        rfl
      · rw [hr]
        rfl
  | gaveUp _ => exact Or.inl ⟨.gaveUp, List.mem_cons_self, trivial⟩
  | @pushAgain q st hp hst =>
    rw [hp] at hcall
    obtain rfl := Option.some.inj hcall
    exact Or.inr ⟨⟨hpos, haligned, q, rfl, hkind, hmsg⟩, rfl, le_rfl⟩
  | consumer hp hm =>
    exact Or.inr ⟨⟨hpos, haligned, p, hcall, hkind, hmsg⟩, h.positions.consumed hm⟩
  | _ => exact Or.inr ⟨⟨hpos, haligned, p, hcall, hkind, hmsg⟩, rfl, le_rfl⟩

theorem enabled (h : Waiting c m msg s) :
    ∃ l : Label, l.byProducer ∧ (Blocking.step s l).isSome := by
  obtain ⟨-, haligned, p, hcall, -⟩ := h
  unfold Aligned at haligned
  cases hs : s.push with
  | idle =>
    rw [hs] at hcall
    cases hcall
  | attempt q =>
    rw [hs] at haligned
    obtain ⟨b, hb⟩ : ∃ b, Bus.step s.bus (.tryPush q.msg) = some b := by
      simp only [Bus.step, haligned]
      split
      · exact ⟨_, rfl⟩
      · split <;> exact ⟨_, rfl⟩
    exact ⟨.producer, rfl, by simp [Blocking.step, hs, onPush, hb]⟩
  | trying q =>
    rw [hs] at haligned
    obtain ⟨b, hb⟩ : ∃ b, Bus.step s.bus .producer = some b := by
      simp only [Bus.step, Bus.stepPush]
      cases hpush : s.bus.push with
      | idle =>
        rw [hpush] at haligned
        cases haligned
      | reload msg =>
        dsimp only
        split <;> exact ⟨_, rfl⟩
      | setSize msg => exact ⟨_, rfl⟩
      | copy msg k =>
        dsimp only
        split <;> exact ⟨_, rfl⟩
    exact ⟨.producer, rfl, by simp [Blocking.step, hs, onPush, hb]⟩
  | status q =>
    exact ⟨.consumerStatus .alive, rfl, by simp [Blocking.step, hs]⟩

end Waiting

/-! ### A call with room -/

/-- The ring has room, and the message fits. -/
structure Ready (c m : UInt32) (msg : List UInt8) (s : State) : Prop where
  waiting : Waiting c m msg s
  room : Room c s.bus
  fits : msg.length ≤ m.toNat

namespace Ready

theorem not_failed (h : Ready c m msg s) (hm : Moves s l u o) : .failed ∉ o := by
  obtain ⟨⟨hpos, haligned, p, hcall, -, hmsg⟩, hroom, hfits⟩ := h
  cases hm with
  | @producer q a v o' hp hm =>
    obtain rfl : q = p := Option.some.inj (hp.call.symm.trans hcall)
    have hfit : ∀ m', a = some m' → m'.length ≤ m.toNat := by
      rintro m' rfl
      rcases hp.eq_or with ⟨-, heq⟩ | ⟨-, heq⟩
      · rw [Option.some.inj heq, hmsg]
        exact hfits
      · cases heq
    rcases hpos.succeeds hroom hfit hm with rfl | ⟨msg', rfl⟩
    · simp [Pushing.after]
    · simp [Pushing.after]
  | consumer _ _ => exact fun hfailed => not_pushes_of_after hfailed trivial
  | _ => simp

/-- **One step with room.**  The call ends, or is nearer to its end. -/
theorem step (h : Ready c m msg s) (hm : Moves s l u o) :
    (∃ e ∈ o, e.Ends) ∨
      Ready c m msg u ∧ rank u + (if l.byProducer then 1 else 0) ≤ rank s := by
  have hnone := h.not_failed hm
  rcases h.waiting.step hm with hends | ⟨hwait, hwrite, hread⟩
  · exact Or.inl hends
  have hready : Ready c m msg u := by
    refine ⟨hwait, ?_, h.fits⟩
    have hroom := h.room
    unfold Room at hroom ⊢
    omega
  obtain ⟨-, haligned, p, hcall, -, -⟩ := h.waiting
  unfold Aligned at haligned
  cases hm with
  | @producer q a v o' hp hm =>
    rcases push_cases hm with rfl | ⟨-, ⟨msg', rfl⟩ | hfail⟩
    · refine Or.inr ⟨hready, ?_⟩
      rcases hp.eq_or with ⟨hs, rfl⟩ | ⟨hs, rfl⟩
      · cases hm <;> simp [rank, hs, Pushing.after, Label.byProducer]
      · rw [hs] at haligned
        cases hm with
        | setByte hb hget =>
          have hlt := (List.getElem?_eq_some_iff.mp hget).1
          simp [rank, hs, hb, Pushing.after, Label.byProducer]
          omega
        | reload hb _ | setSize hb => simp [rank, hs, hb, Pushing.after, Label.byProducer]
    · exact Or.inl ⟨.accepted msg', List.mem_cons_self, trivial⟩
    · refine absurd ?_ hnone
      obtain ⟨-, -, r, hr, hkind, -⟩ := h.waiting
      obtain rfl : q = r := Option.some.inj (hp.call.symm.trans hr)
      have hafter : q.after o' = q.failed := by
        rcases hfail with rfl | rfl <;> rfl
      rw [hafter, (failed_cases hkind).1]
      exact List.mem_cons_self
  | consumer hp hm =>
    have hpush := (PopChecked.quiet_popMoves hm).1
    refine Or.inr ⟨hready, ?_⟩
    simp [rank, hpush, Label.byProducer]
  | gaveUp _ => exact Or.inl ⟨.gaveUp, List.mem_cons_self, trivial⟩
  | pushAgain hp _ => exact Or.inr ⟨hready, by simp [rank, hp, Label.byProducer]⟩
  | push hp =>
    rw [hp] at hcall
    cases hcall
  | _ => exact Or.inr ⟨hready, by simp [rank, Label.byProducer]⟩

end Ready

/-! ### Runs -/

/-- Whatever the other party does, the next attempt ends the call, within a
number of steps of the producer. -/
structure EndsNext (msg : List UInt8) (s : State) : Prop where
  next : ∀ os t, Lib.Machine.Run machine Lib.Machine.anyStep s os t → (∀ e ∈ os, ¬e.Ends) →
    .failed ∉ os ∧ ∃ l : Label, l.byProducer ∧ (step t l).isSome
  bounded : ∀ ls t os, machine.exec s ls = some (t, os) →
    msg.length + 5 ≤ ls.countP Label.byProducer → ∃ e ∈ os, e.Ends

/-- A ring that is not empty is read from again. -/
def KeepsConsuming (σ : Nat → State) : Prop :=
  ∀ k, (σ k).bus.seg.cb.readPos < (σ k).bus.seg.cb.writePos →
    ∃ j ≥ k, (σ k).bus.seg.cb.readPos < (σ j).bus.seg.cb.readPos

/-- No infinite run goes on with failing attempts of the call. -/
def FinitelyMany (s : State) : Prop :=
  ∀ σ ls os, σ 0 = s → machine.Forever σ ls os → KeepsConsuming σ →
    ∃ N, ∀ j ≥ N, .failed ∈ os j → ∃ k < j, ∃ e ∈ os k, e.Ends

theorem rank_bounds (h : Waiting c m msg s) : 0 < rank s ∧ rank s ≤ msg.length + 5 := by
  obtain ⟨-, haligned, p, hcall, -, rfl⟩ := h
  unfold Aligned at haligned
  unfold rank
  cases hs : s.push with
  | trying q =>
    rw [hs] at hcall haligned
    obtain rfl := Option.some.inj hcall
    cases hb : s.bus.push with
    | idle =>
      rw [hb] at haligned
      cases haligned
    | reload msg | setSize msg | copy msg k =>
      rw [hb] at haligned
      obtain rfl := Option.some.inj haligned
      dsimp only
      omega
  | idle =>
    rw [hs] at hcall
    cases hcall
  | attempt q | status q =>
    rw [hs] at hcall
    obtain rfl := Option.some.inj hcall
    dsimp only
    omega

namespace Ready

/-- Until the call ends, it stays ready and no attempt fails. -/
theorem run (h : Ready c m msg s) {t : State}
    (hrun : Lib.Machine.Run machine Lib.Machine.anyStep s os t) (hnone : ∀ e ∈ os, ¬e.Ends) :
    Ready c m msg t ∧ .failed ∉ os := by
  refine hrun.invariant_of (P := fun os t => Ready c m msg t ∧ .failed ∉ os)
    (Q := fun os => ∀ e ∈ os, ¬e.Ends) ?_ ⟨h, by simp⟩ ?_ hnone
  · intro os o hall e he
    exact hall e (List.mem_append_left _ he)
  · intro os t l u o ht _ hall hstep
    obtain ⟨hready, hold⟩ := ht
    have hm := step_moves hstep
    refine ⟨?_, ?_⟩
    · rcases hready.step hm with ⟨e, he, hends⟩ | ⟨hnext, -⟩
      · exact absurd hends (hall e (List.mem_append_right _ he))
      · exact hnext
    · rw [List.mem_append, not_or]
      exact ⟨hold, hready.not_failed hm⟩

theorem bounded (h : Ready c m msg s) {ls : List Label} {t : State}
    (hexec : machine.exec s ls = some (t, os)) (hcount : rank s ≤ ls.countP Label.byProducer) :
    ∃ e ∈ os, e.Ends := by
  induction ls generalizing s os with
  | nil => exact absurd (rank_bounds h.waiting).1 (Nat.not_lt.mpr hcount)
  | cons l ls ih =>
    cases hl : machine.step s l with
    | none => simp [Lib.Machine.exec, hl] at hexec
    | some p =>
      obtain ⟨u, o⟩ := p
      rw [Lib.Machine.exec_cons hl] at hexec
      obtain ⟨⟨t', os'⟩, hrest, heq⟩ := Option.map_eq_some_iff.mp hexec
      obtain ⟨rfl, rfl⟩ := Prod.mk.inj heq
      rcases h.step (step_moves hl) with ⟨e, he, hends⟩ | ⟨hnext, hrank⟩
      · exact ⟨e, List.mem_append_left _ he, hends⟩
      · rw [List.countP_cons] at hcount
        obtain ⟨e, he, hends⟩ := ih hnext hrest (by omega)
        exact ⟨e, List.mem_append_right _ he, hends⟩

end Ready

theorem endsNext (h : Ready c m msg s) : EndsNext msg s where
  next os t hrun hnone := by
    obtain ⟨hready, hfailed⟩ := h.run hrun hnone
    exact ⟨hfailed, hready.waiting.enabled⟩
  bounded ls t os hexec hcount := h.bounded hexec ((rank_bounds h.waiting).2.trans hcount)

/-- As long as the call goes on, the ring does not fill. -/
theorem waiting_until (h : Waiting c m msg s) {σ : Nat → State} {ls : Nat → Label}
    {os : Nat → List Event} (h0 : σ 0 = s) (hσ : machine.Forever σ ls os) {j : Nat}
    (hnone : ∀ k, 0 ≤ k → k < j → ∀ e ∈ os k, ¬e.Ends) :
    Waiting c m msg (σ j) ∧ (σ j).bus.seg.cb.writePos = s.bus.seg.cb.writePos := by
  subst h0
  refine hσ.keeps_until (E := Event.Ends) (I := fun t => Waiting c m msg t ∧
    t.bus.seg.cb.writePos = (σ 0).bus.seg.cb.writePos) ⟨h, rfl⟩ ?_ (Nat.zero_le j) hnone
  intro t l u o ht hstep hquiet
  rcases ht.1.step (step_moves hstep) with ⟨e, he, hends⟩ | ⟨hwait, hwrite, -⟩
  · exact absurd hends (hquiet e he)
  · exact ⟨hwait, hwrite.trans ht.2⟩

/-- Where the ring has room once. -/
theorem room_later (h : Waiting c m msg s) (hc : 0 < c.toNat) {σ : Nat → State}
    {ls : Nat → Label} {os : Nat → List Event} (h0 : σ 0 = s) (hσ : machine.Forever σ ls os)
    (hkeeps : KeepsConsuming σ) :
    ∃ i, (∃ k < i, ∃ e ∈ os k, e.Ends) ∨ Waiting c m msg (σ i) ∧ Room c (σ i).bus := by
  by_cases hroom : Room c s.bus
  · exact ⟨0, Or.inr ⟨h0 ▸ h, h0 ▸ hroom⟩⟩
  · have hpos := h.positions
    have hwrite := hpos.writePos
    have hread := hpos.readPos
    have hcache := hpos.readCache
    have hle := hpos.room
    unfold Room at hroom
    obtain ⟨i, -, hi⟩ := hkeeps 0 (by rw [h0]; omega)
    rw [h0] at hi
    by_cases hends : ∃ k < i, ∃ e ∈ os k, e.Ends
    · exact ⟨i, Or.inl hends⟩
    · obtain ⟨hwait, hsame⟩ := waiting_until h h0 hσ fun k _ hk e he hE =>
        hends ⟨k, hk, e, he, hE⟩
      refine ⟨i, Or.inr ⟨hwait, ?_⟩⟩
      unfold Room
      omega

theorem finitelyMany (h : Waiting c m msg s) (hc : 0 < c.toNat) (hfits : msg.length ≤ m.toNat) :
    FinitelyMany s := by
  intro σ ls os h0 hσ hkeeps
  obtain ⟨i, hi⟩ := room_later h hc h0 hσ hkeeps
  refine ⟨i, fun j hij hfailed => ?_⟩
  rcases hi with ⟨k, hk, hends⟩ | ⟨hwait, hroom⟩
  · exact ⟨k, hk.trans_le hij, hends⟩
  · by_contra hnone
    have hready : Ready c m msg (σ j) := by
      refine hσ.keeps_until (E := Event.Ends) ⟨hwait, hroom, hfits⟩ ?_ hij ?_
      · intro t l u o ht hstep hquiet
        rcases ht.step (step_moves hstep) with ⟨e, he, hends⟩ | ⟨hnext, -⟩
        · exact absurd hends (hquiet e he)
        · exact hnext
      · intro k _ hk e he hE
        exact hnone ⟨k, hk, e, he, hE⟩
    exact hready.not_failed (step_moves (hσ j)) hfailed

theorem positions_init {n m : UInt32} {seg : Segment} (hc : create n m = some seg) :
    Positions n m (Bus.init seg) where
  capacity := congrArg ControlBlock.capacity (cb_of_create hc)
  maxMsg := congrArg ControlBlock.maxMsgSize (cb_of_create hc)
  writePos := rfl
  readPos := rfl
  readCache := le_rfl
  order := by simp [Bus.init, Consumer.attach, cb_of_create hc]
  writeCache := le_rfl
  room := by simp [Bus.init, Producer.attach, cb_of_create hc]
  writing := nofun
  reading := nofun

theorem run_positions {n m : UInt32} {seg : Segment} (hc : create n m = some seg)
    (h : Lib.Machine.Run machine Lib.Machine.anyStep (init seg) os s) :
    Positions n m s.bus ∧ Aligned s := by
  have haligned : Aligned (init seg) := by
    show (Bus.init seg).push = .idle
    rfl
  refine h.keeps (I := fun s => Positions n m s.bus ∧ Aligned s) ⟨positions_init hc, haligned⟩ ?_
  intro t l u o ht _ hstep
  exact ⟨ht.1.moves (step_moves hstep), ht.2.step (step_moves hstep)⟩

/-- `push` has been called on a fresh bus. -/
def pushCalled (seg : Segment) (msg : List UInt8) : State :=
  { bus := Bus.init seg, push := .attempt ⟨.push, msg, 0⟩ }

theorem run_pushCalled (seg : Segment) (msg : List UInt8) :
    Lib.Machine.Run machine Lib.Machine.anyStep (init seg) [] (pushCalled seg msg) ∧
      Called msg (pushCalled seg msg) := by
  refine ⟨.single (l := Label.push .push msg) trivial rfl, _, rfl, ?_, rfl⟩
  exact PushKind.noConfusion

theorem step_pushCalled {n m : UInt32} {seg : Segment} (hc : create n m = some seg)
    (hlong : m.toNat < msg.length) :
    machine.step (pushCalled seg msg) .producer = some (pushCalled seg msg, [.failed]) := by
  have hmax : (Bus.init seg).prod.maxMsg = m := (positions_init hc).maxMsg
  have hbus : Bus.step (Bus.init seg) (.tryPush msg) = some (Bus.init seg, [.refused]) := by
    unfold Bus.step
    rw [show (Bus.init seg).push = .idle from rfl]
    dsimp only
    rw [if_pos (by rw [hmax]; exact hlong)]
  show onPush (pushCalled seg msg) (.tryPush msg) ⟨.push, msg, 0⟩ = _
  unfold onPush
  rw [show (pushCalled seg msg).bus = Bus.init seg from rfl, hbus]
  rfl

/-- **When a blocking push ends.**  From every state that a call with `msg` can
be in: once the ring has room the next attempt ends the call, and in no run in
which the consumer keeps consuming are there infinitely many; if and only if
`msg` is not longer than `max_msg_size`. -/
theorem push_ends_iff {n m : UInt32} {seg : Segment} (hc : create n m = some seg)
    (msg : List UInt8) :
    (∀ os s, Lib.Machine.Run machine Lib.Machine.anyStep (init seg) os s → Called msg s →
      (Room n s.bus → EndsNext msg s) ∧ FinitelyMany s) ↔ msg.length ≤ m.toNat := by
  have hn : 0 < n.toNat := by
    obtain ⟨k, -, hk⟩ := pow_of_create hc
    rw [hk]
    exact Nat.two_pow_pos k
  constructor
  · intro h
    by_contra hlong
    have hlong : m.toNat < msg.length := Nat.lt_of_not_le hlong
    obtain ⟨hrun, hcalled⟩ := run_pushCalled seg msg
    have hroom : Room n (pushCalled seg msg).bus := by
      show seg.cb.writePos < seg.cb.readPos + n.toNat
      rw [cb_of_create hc]
      simpa using hn
    have hends := (h _ _ hrun hcalled).1 hroom
    have hfailed := (hends.next _ _ (.single trivial (step_pushCalled hc hlong))
      (List.forall_mem_singleton.mpr id)).1
    exact hfailed List.mem_cons_self
  · intro hfits os s hrun hcalled
    obtain ⟨hpos, haligned⟩ := run_positions hc hrun
    have hwait : Waiting n m msg s := ⟨hpos, haligned, hcalled⟩
    exact ⟨fun hroom => endsNext ⟨hwait, hroom, hfits⟩, finitelyMany hwait hn hfits⟩

/-- Four slots for messages of up to eight bytes. -/
def fourSlots : Segment := ⟨⟨4, 64, 8, 0, 0⟩, fun _ => 0, fun _ => 0, fun _ => 0⟩

/-- `push` waits on a full ring of two slots, and the consumer makes room.  With nine
bytes there are states of the call for which it is otherwise. -/
theorem push_ends_iff_full :
    ∃ seg os s os' t, create 2 8 = some seg ∧
      Lib.Machine.Run machine Lib.Machine.anyStep (init seg) os s ∧
      Lib.Machine.Run machine Lib.Machine.anyStep s os' t ∧
      (.failed ∈ os ∧ Called [3] s ∧ ¬Room 2 s.bus ∧ FinitelyMany s) ∧
      (Called [3] t ∧ Room 2 t.bus ∧ EndsNext [3] t) ∧
      ¬∀ os s, Lib.Machine.Run machine Lib.Machine.anyStep (init seg) os s →
        Called (List.replicate 9 7) s →
          (Room 2 s.bus → EndsNext (List.replicate 9 7) s) ∧ FinitelyMany s := by
  obtain ⟨s, t, hs, ht, hcs, hct, hfull, hroom⟩ : ∃ s t,
      machine.exec (init ⟨⟨2, 64, 8, 0, 0⟩, fun _ => 0, fun _ => 0, fun _ => 0⟩)
        [.push .push [1], .producer, .producer, .producer, .producer,
          .push .push [2], .producer, .producer, .producer, .producer,
          .push .push [3], .producer, .producer] =
        some (s, [.accepted [1], .accepted [2], .failed]) ∧
      machine.exec s [.pop .pop 8, .consumer, .consumer, .consumer, .consumer, .consumer] =
        some (t, [.returned .pop 8 1 [1]]) ∧
      s.push = .attempt ⟨.push, [3], 0⟩ ∧ t.push = .attempt ⟨.push, [3], 0⟩ ∧
      ¬Room 2 s.bus ∧ Room 2 t.bus :=
    ⟨_, _, rfl, rfl, rfl, rfl, by decide, by decide⟩
  have hruns := Lib.Machine.run_of_exec_any hs
  have hrunt := Lib.Machine.run_of_exec_any ht
  have hcalls : Called [3] s := ⟨_, congrArg Push.call hcs, PushKind.noConfusion, rfl⟩
  have hcallt : Called [3] t := ⟨_, congrArg Push.call hct, PushKind.noConfusion, rfl⟩
  have hfits := (push_ends_iff (n := 2) (m := 8) rfl [3]).mpr (by decide)
  refine ⟨_, _, s, _, t, rfl, hruns, hrunt, ⟨by simp, hcalls, hfull, (hfits _ _ hruns hcalls).2⟩,
    ⟨hcallt, hroom, (hfits _ _ (hruns.trans hrunt) hcallt).1 hroom⟩, fun hall => ?_⟩
  have hlong := (push_ends_iff (n := 2) (m := 8) rfl (List.replicate 9 7)).mp hall
  exact absurd hlong (by decide)

/-- **A push that spins on an empty ring**: nine bytes, where eight are the most. -/
theorem push_spins :
    ∃ s, create 4 8 = some fourSlots ∧
      Lib.Machine.Run machine Lib.Machine.anyStep (init fourSlots) [] s ∧
      Called (List.replicate 9 7) s ∧ Room 4 s.bus ∧
      machine.Forever (fun _ => s) (fun _ => .producer) (fun _ => [.failed]) ∧
      KeepsConsuming fun _ => s := by
  obtain ⟨hrun, hcalled⟩ := run_pushCalled fourSlots (List.replicate 9 7)
  refine ⟨_, rfl, hrun, hcalled, by decide, ?_, ?_⟩
  · exact fun _ => step_pushCalled (n := 4) (m := 8) rfl (by decide)
  · exact fun _ hlt => absurd hlt (Nat.lt_irrefl 0)

end HftComponents.Spsc.Blocking
