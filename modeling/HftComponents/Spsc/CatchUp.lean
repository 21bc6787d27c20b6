import HftComponents.Spsc.Loss

/-!
# Catching up with a silent producer

While the overwriting producer is between two pushes, what the calls of `try_pop_lossy`
return is settled by the messages pushed and the read position: the first call reports
the loss, if there is one, the next ones return the last `capacity` messages, whole and
in order, and those after them nothing.  `Takes` is that queue, and `catch_up` says that
the calls follow it from every state of every run, laps included, in which the consumer
has not been overtaken behind its copy of `write_pos`.

The producer never reads what the consumer writes, so what it has stored satisfies the
invariant of `Seqlock` in every run, with the consumer put back to the start (`parked`).
-/

namespace HftComponents.Spsc.Lossy

open Lib.Ring
open Bus (empty rslot)

/-! ### What the segment holds, in any run -/

/-- The consumer before its first call. -/
def parked (s : State) : State :=
  { s with cons := { s.cons with readPos := 0, writeCache := 0 }, pop := .idle }

/-- What is about to be stored or read is not ahead of what is written. -/
def Pop.Behind (c : Consumer) : Pop → Prop
  | .idle | .reload _ | .relocate _ _ => True
  | .fastForward _ p | .storeLost _ _ p => p ≤ c.writeCache
  | .loadGen _ | .getSize _ _ | .copy _ _ _ _ _ | .store _ _ _ _ => c.readPos < c.writeCache

/-- `ms` are the messages pushed so far. -/
structure Stored (ms : List (List UInt8)) (s : State) : Prop where
  seqlock : Seqlock ms (parked s)
  order : s.cons.readPos ≤ s.cons.writeCache
  writeCache : s.cons.writeCache ≤ s.prod.writePos
  pop : s.pop.Behind s.cons

variable {s u : State} {o os : List Event} {a : Option (List UInt8)} {ms : List (List UInt8)}
  {msg : List UInt8} {l : Label}

theorem PushMoves.parked (hm : PushMoves s a u o) : PushMoves (parked s) a (parked u) o := by
  cases hm with
  | refused hp hlen => exact .refused hp hlen
  | start hp hlen => exact .start hp hlen
  | loadGen hp => exact .loadGen hp
  | storeOdd hp => exact .storeOdd hp
  | setSize hp => exact .setSize hp
  | setByte hp hb => exact .setByte hp hb
  | storeEven hp hk => exact .storeEven hp hk
  | publish hp => exact .publish hp

theorem lt_of_not_empty {c : Consumer} (hle : c.readPos ≤ c.writeCache)
    (hempty : empty c = false) : c.readPos < c.writeCache := by
  refine lt_of_le_of_ne hle ?_
  intro heq
  rw [empty, decide_eq_false_iff_not, heq] at hempty
  exact hempty rfl

theorem behind_look (hlt : s.cons.readPos < s.cons.writeCache) (b : UInt32) :
    (look s b).Behind s.cons := by
  unfold look
  split
  · exact Nat.sub_le _ _
  · exact hlt

theorem relocated_le (c : Consumer) : relocated c ≤ c.writeCache := by
  unfold relocated
  split
  · exact Nat.sub_le _ _
  · exact le_rfl

namespace Stored

theorem pushMoves (h : Stored ms s) (hm : PushMoves s a u o) : Stored (ms ++ pushed o) u := by
  refine ⟨h.seqlock.pushMoves hm.parked, ?_, ?_, ?_⟩
  · rw [hm.cons_eq]
    exact h.order
  · rw [hm.cons_eq]
    refine h.writeCache.trans ?_
    cases hm with
    | publish hp => exact Nat.le_succ _
    | _ => exact Nat.le_refl _
  · rw [hm.cons_eq, hm.pop_eq]
    exact h.pop

theorem setPop (h : Stored ms s) {pop : Pop} (hpop : pop.Behind s.cons) :
    Stored ms { s with pop := pop } :=
  ⟨h.seqlock, h.order, h.writeCache, hpop⟩

theorem setRead (h : Stored ms s) {p : Nat} (hle : p ≤ s.cons.writeCache) :
    Stored ms (setRead s p) where
  seqlock := { h.seqlock with push := h.seqlock.push, pop := trivial }
  order := hle
  writeCache := h.writeCache
  pop := trivial

theorem segment_writePos (h : Stored ms s) : s.seg.cb.writePos = s.prod.writePos :=
  h.seqlock.writePos

theorem refresh (h : Stored ms s) :
    Stored ms { s with
      cons := { s.cons with writeCache := s.seg.cb.writePos }, pop := .idle } := by
  refine ⟨h.seqlock, ?_, h.segment_writePos.le, trivial⟩
  rw [h.segment_writePos]
  exact h.order.trans h.writeCache

theorem popMoves (h : Stored ms s) (hm : PopMoves s u o) : Stored ms u := by
  have hpop := h.pop
  cases hm with
  | reload hp hempty => exact h.setPop trivial
  | look hp hempty => exact h.setPop (behind_look (lt_of_not_empty h.order hempty) _)
  | empty hp hempty => exact h.refresh
  | relook hp hempty =>
    exact h.refresh.setPop (behind_look (lt_of_not_empty h.refresh.order hempty) _)
  | fastForward hp | storeLost hp =>
    rw [hp] at hpop
    exact h.setRead hpop
  | store hp =>
    rw [hp] at hpop
    exact h.setRead hpop
  | retry hp hodd | torn hp hle hgen => exact h.setPop trivial
  | relocate hp => exact h.refresh.setPop (relocated_le _)
  | loadGen hp | getSize hp | getByte hp | whole hp =>
    rw [hp] at hpop
    exact h.setPop hpop

theorem step (h : Stored ms s) (hs : step s l = some (u, o)) : Stored (ms ++ pushed o) u := by
  rcases step_moves hs with ⟨a, hm, -⟩ | ⟨hm, -⟩
  · exact h.pushMoves hm
  · rw [hm.pushed_eq, List.append_nil]
    exact h.popMoves hm

theorem init {n m : UInt32} {seg : Segment} (hc : create n m = some seg)
    (hfit : (computeSlotStride m).toNat < 2 ^ 32) : Stored [] (init seg) where
  seqlock :=
    { seqlock_init hc hfit with
      order := le_rfl, writeCache := Nat.zero_le _, push := trivial, pop := trivial }
  order := (seqlock_init hc hfit).order
  writeCache := le_rfl
  pop := trivial

theorem run {n m : UInt32} {seg : Segment} (hc : create n m = some seg)
    (hfit : (computeSlotStride m).toNat < 2 ^ 32)
    (h : machine.Run Lib.Machine.anyStep (Lossy.init seg) os s) : Stored (pushed os) s := by
  refine h.invariant (P := fun os s => Stored (pushed os) s) (Stored.init hc hfit) ?_
  intro os t l u o ht _ hs
  rw [pushed_append]
  exact ht.step hs

end Stored
/-! ### What is left for the consumer -/

/-- The messages that the consumer has still to get, and whether it has still to be told
of a loss before them. -/
structure Backlog where
  lost : Bool
  kept : List (List UInt8)

/-- The last `capacity` messages, or those from `read_pos` on if these are fewer. -/
def backlog (ms : List (List UInt8)) (s : State) : Backlog where
  lost := s.cons.readPos + s.prod.capacity.toNat < ms.length
  kept := ms.drop (max s.cons.readPos (ms.length - s.prod.capacity.toNat))

/-- What a call returns, and what it leaves. -/
inductive Takes : Backlog → Event → Backlog → Prop
  | loss (bufSize : UInt32) (kept : List (List UInt8)) :
    Takes ⟨true, kept⟩ (.popped bufSize 0 [] true none) ⟨false, kept⟩
  | message (bufSize : UInt32) (msg : List UInt8) (index : Nat) (kept : List (List UInt8)) :
    Takes ⟨false, msg :: kept⟩
      (.popped bufSize (u32 msg.length) (msg.take bufSize.toNat) false (some index))
      ⟨false, kept⟩
  | nothing (bufSize : UInt32) : Takes ⟨false, []⟩ (.popped bufSize 0 [] false none) ⟨false, []⟩

/-- Where the consumer will take a message, it has not been overtaken; its copy of
`write_pos` will tell. -/
def Sighted (s : State) : Prop :=
  s.cons.readPos = s.cons.writeCache ∨ s.cons.writeCache = s.prod.writePos ∨
    s.prod.writePos ≤ s.cons.readPos + s.prod.capacity.toNat

/-- A call under way is about to take the head of the backlog. -/
def Answers (ms : List (List UInt8)) (s : State) : Pop → Prop
  | .idle => Sighted s
  | .reload _ => s.cons.readPos = s.cons.writeCache
  | .fastForward _ p =>
    s.cons.writeCache = s.prod.writePos ∧ p = s.prod.writePos - s.prod.capacity.toNat ∧
      s.cons.readPos + s.prod.capacity.toNat < s.prod.writePos
  | .loadGen _ => s.prod.writePos ≤ s.cons.readPos + s.prod.capacity.toNat
  | .getSize _ gen1 =>
    s.prod.writePos ≤ s.cons.readPos + s.prod.capacity.toNat ∧
      gen1 = s.seg.generation (rslot s.cons)
  | .copy bufSize gen1 msgSz copySz out =>
    s.prod.writePos ≤ s.cons.readPos + s.prod.capacity.toNat ∧
      gen1 = s.seg.generation (rslot s.cons) ∧ out.length ≤ copySz.toNat ∧
      ∃ msg, ms[s.cons.readPos]? = some msg ∧ msgSz = u32 msg.length ∧
        copySz.toNat = min msg.length bufSize.toNat ∧ out = msg.take out.length
  | .store bufSize msgSz out _ =>
    s.prod.writePos ≤ s.cons.readPos + s.prod.capacity.toNat ∧
      Returns ms (bufSize, msgSz, out) s.cons.readPos
  | .relocate _ _ | .storeLost _ _ _ => False

/-- The producer is silent, and not 64 bits ahead. -/
structure Catching (ms : List (List UInt8)) (s : State) : Prop where
  stored : Stored ms s
  silent : s.push = .idle
  near : s.prod.writePos < s.cons.readPos + 2 ^ 64
  pop : Answers ms s s.pop

theorem lapped_iff {c : Consumer} (hle : c.readPos ≤ c.writeCache)
    (hnear : c.writeCache < c.readPos + 2 ^ 64) :
    lapped c = true ↔ c.readPos + c.capacity.toNat < c.writeCache := by
  rw [lapped, decide_eq_true_iff, UInt64.lt_iff_toNat_lt, toNat_u64_sub hle,
    UInt32.toNat_toUInt64, Nat.mod_eq_of_lt (by omega)]
  omega

theorem backlog_of_near (h : ms.length ≤ s.cons.readPos + s.prod.capacity.toNat) :
    backlog ms s = ⟨false, ms.drop s.cons.readPos⟩ := by
  rw [backlog, decide_eq_false (by omega), max_eq_left (by omega)]

theorem toNat_min {n : Nat} {m : UInt32} (hm : m.toNat = n) (bufSize : UInt32) :
    (if m < bufSize then m else bufSize).toNat = min n bufSize.toNat := by
  split
  · rename_i hlt
    rw [UInt32.lt_iff_toNat_lt] at hlt
    omega
  · rename_i hge
    rw [UInt32.lt_iff_toNat_lt] at hge
    omega

namespace Catching

theorem count (h : Catching ms s) : ms.length = s.prod.writePos := h.stored.seqlock.count

theorem capacity_eq (h : Catching ms s) : s.cons.capacity = s.prod.capacity :=
  h.stored.seqlock.sameCapacity

theorem rslot_eq (h : Catching ms s) :
    rslot s.cons = slotPtr s.prod.capacity s.prod.stride s.cons.readPos := by
  have hstride : s.cons.stride = s.prod.stride := h.stored.seqlock.sameStride
  rw [rslot, h.capacity_eq, hstride]

theorem holds (h : Catching ms s) (hlt : s.cons.readPos < s.cons.writeCache)
    (hle : s.prod.writePos ≤ s.cons.readPos + s.prod.capacity.toNat) :
    ∃ msg, ms[s.cons.readPos]? = some msg ∧ Holds s.seg (rslot s.cons) msg msg.length := by
  have hin : s.cons.readPos < ms.length := by
    rw [h.count]
    exact hlt.trans_le h.stored.writeCache
  have hget := List.getElem?_eq_getElem hin
  have hstart : started (parked s) = s.prod.writePos := by
    have hidle : (parked s).push = .idle := h.silent
    rw [started, hidle]
    rfl
  refine ⟨_, hget, ?_⟩
  rw [h.rslot_eq]
  exact h.stored.seqlock.stored _ _ hget (hstart.trans_le hle)

theorem even (h : Catching ms s) : odd (s.seg.generation (rslot s.cons)) = false := by
  have hnot : ¬(parked s).push.Writing := by
    have hidle : (parked s).push = .idle := h.silent
    rw [hidle]
    exact id
  have heven := h.stored.seqlock.even_of_not_writing hnot s.cons.readPos
  rw [Bool.eq_false_iff]
  intro hodd
  have hone := (odd_iff _).mp hodd
  rw [h.rslot_eq] at hone
  exact absurd (heven.symm.trans hone) (by decide)

theorem look (h : Catching ms s) (hsight : Sighted s)
    (hlt : s.cons.readPos < s.cons.writeCache) (b : UInt32) : Answers ms s (look s b) := by
  have hwc := h.stored.writeCache
  have hlap := lapped_iff hlt.le (hwc.trans_lt h.near)
  rw [h.capacity_eq] at hlap
  unfold Lossy.look
  split
  · have hfar := hlap.mp ‹_›
    have heq : s.cons.writeCache = s.prod.writePos := by
      rcases hsight with heq | heq | hle <;> omega
    exact ⟨heq, by rw [heq, h.capacity_eq], by omega⟩
  · have hnear : ¬s.cons.readPos + s.prod.capacity.toNat < s.cons.writeCache := by
      rwa [← hlap]
    show s.prod.writePos ≤ s.cons.readPos + s.prod.capacity.toNat
    rcases hsight with heq | heq | hle <;> omega

theorem eq_of_empty (h : Catching ms s) {w : Nat} (hle : s.cons.readPos ≤ w)
    (hw : w ≤ s.prod.writePos) (hempty : empty { s.cons with writeCache := w } = true) :
    s.cons.readPos = w := by
  have hnear := h.near
  rw [empty, decide_eq_true_iff] at hempty
  exact ((u64_inj_of_lt hle (by omega)).mp hempty.symm).symm

theorem setPop (h : Catching ms s) {pop : Pop} (hbehind : pop.Behind s.cons)
    (hpop : Answers ms s pop) : Catching ms { s with pop := pop } :=
  ⟨h.stored.setPop hbehind, h.silent, h.near, by cases pop <;> exact hpop⟩

theorem setRead (h : Catching ms s) {p : Nat} (hle : s.cons.readPos ≤ p)
    (hwc : p ≤ s.cons.writeCache) (hnear : s.prod.writePos ≤ p + s.prod.capacity.toNat) :
    Catching ms (setRead s p) ∧ backlog ms (Lossy.setRead s p) = ⟨false, ms.drop p⟩ := by
  have hp := h.near
  refine ⟨⟨h.stored.setRead hwc, h.silent, ?_, Or.inr (Or.inr hnear)⟩, ?_⟩
  · show s.prod.writePos < p + 2 ^ 64
    omega
  · exact backlog_of_near (h.count.trans_le hnear)

theorem popMoves (h : Catching ms s) (hm : PopMoves s u o) :
    Catching ms u ∧ Lib.Machine.Accepts Takes (backlog ms s) o (backlog ms u) := by
  have hpop := h.pop
  have hbehind := h.stored.pop
  have hstored := h.stored.popMoves hm
  cases hm with
  | reload hp hempty =>
    exact ⟨h.setPop trivial (h.eq_of_empty h.stored.order h.stored.writeCache hempty), .nil _⟩
  | look hp hempty =>
    rw [hp] at hpop
    have hlt := lt_of_not_empty h.stored.order hempty
    exact ⟨h.setPop (behind_look hlt _) (h.look hpop hlt _), .nil _⟩
  | @empty b hp hempty =>
    have hwp := h.stored.segment_writePos
    have hend : s.cons.readPos = s.seg.cb.writePos :=
      h.eq_of_empty h.stored.refresh.order hwp.le hempty
    have hnone : backlog ms s = ⟨false, []⟩ := by
      have hcount := h.count
      rw [backlog_of_near (by omega), List.drop_eq_nil_of_le (by omega)]
    refine ⟨⟨hstored, h.silent, h.near, Or.inl hend⟩, .single ?_⟩
    show Takes (backlog ms s) _ (backlog ms s)
    rw [hnone]
    exact .nothing b
  | @relook b hp hempty =>
    have hlt := lt_of_not_empty h.stored.refresh.order hempty
    have hsight : Catching ms { s with
        cons := { s.cons with writeCache := s.seg.cb.writePos }, pop := .idle } :=
      ⟨h.stored.refresh, h.silent, h.near, Or.inr (Or.inl h.stored.segment_writePos)⟩
    exact ⟨hsight.setPop (behind_look hlt b) (hsight.look hsight.pop hlt b), .nil _⟩
  | @fastForward b p hp =>
    rw [hp] at hpop hbehind
    obtain ⟨hwc, rfl, hfar⟩ := hpop
    obtain ⟨hu, hleft⟩ := h.setRead (by omega) hbehind (by omega)
    refine ⟨hu, .single ?_⟩
    rw [hleft, backlog, h.count, decide_eq_true hfar, max_eq_right (by omega)]
    exact .loss b _
  | retry hp hodd => exact absurd (h.even.symm.trans hodd) (by decide)
  | loadGen hp heven =>
    rw [hp] at hpop hbehind
    exact ⟨h.setPop hbehind ⟨hpop, rfl⟩, .nil _⟩
  | getSize hp =>
    rw [hp] at hpop hbehind
    obtain ⟨hnear, hgen⟩ := hpop
    obtain ⟨msg, hget, hholds⟩ := h.holds hbehind hnear
    have hlen := h.stored.seqlock.toNat_size hget
    refine ⟨h.setPop hbehind ⟨hnear, hgen, Nat.zero_le _, msg, hget, hholds.1, ?_, rfl⟩, .nil _⟩
    rw [hholds.1]
    exact toNat_min hlen _
  | getByte hp hlt =>
    rw [hp] at hpop hbehind
    obtain ⟨hnear, hgen, hle, msg, hget, hsize, hcopy, hout⟩ := hpop
    obtain ⟨msg', hget', hholds⟩ := h.holds hbehind hnear
    obtain rfl := Option.some.inj (hget.symm.trans hget')
    refine ⟨h.setPop hbehind ⟨hnear, hgen, ?_, msg, hget, hsize, hcopy, ?_⟩, .nil _⟩
    · rw [List.length_append, List.length_singleton]
      exact hlt
    · rw [List.length_append, List.length_singleton, ← hholds.take (by omega), ← hout]
  | torn hp hle hgen =>
    rw [hp] at hpop
    exact absurd (congrArg u32 hpop.2.1).symm hgen
  | @whole b msgSz copySz gen1 out hp hle hgen =>
    rw [hp] at hpop hbehind
    obtain ⟨hnear, -, hle', msg, hget, hsize, hcopy, hout⟩ := hpop
    refine ⟨h.setPop hbehind ⟨hnear, msg, hget, hsize, hout.trans ?_⟩, .nil _⟩
    show msg.take out.length = msg.take b.toNat
    rw [List.take_eq_take_iff]
    omega
  | @store b msgSz out index hp =>
    rw [hp] at hpop hbehind
    obtain ⟨hnear, msg, hget, hsize, hout⟩ := hpop
    obtain ⟨hu, hleft⟩ := h.setRead (Nat.le_succ _) hbehind (by omega)
    obtain ⟨hin, hmsg⟩ := List.getElem?_eq_some_iff.mp hget
    refine ⟨hu, .single ?_⟩
    rw [hleft, backlog_of_near (h.count.trans_le hnear), List.drop_eq_getElem_cons hin, hmsg]
    obtain rfl : msgSz = u32 msg.length := hsize
    obtain rfl : out = msg.take b.toNat := hout
    exact .message b msg index _
  | relocate hp | storeLost hp =>
    rw [hp] at hpop
    exact hpop.elim

end Catching

/-- Only the consumer runs. -/
def ConsumerOnly (_ : State) : Label → Prop
  | .tryPopLossy _ | .consumer => True
  | .push _ | .producer => False

theorem Catching.step (h : Catching ms s) (hok : ConsumerOnly s l)
    (hs : step s l = some (u, o)) :
    Catching ms u ∧ Lib.Machine.Accepts Takes (backlog ms s) o (backlog ms u) := by
  cases l with
  | tryPopLossy b => exact h.popMoves (step_tryPopLossy_moves hs).2
  | consumer => exact h.popMoves (stepPop_moves hs)
  | push msg | producer => exact hok.elim

/-- **The calls follow the backlog**, once the producer is silent. -/
theorem catch_up {n m : UInt32} {seg : Segment} (hc : create n m = some seg)
    (hfit : (computeSlotStride m).toNat < 2 ^ 32)
    (h : machine.Run Lib.Machine.anyStep (init seg) os s) (hpush : s.push = .idle)
    (hpop : s.pop = .idle) (hsight : Sighted s)
    (hnear : s.prod.writePos < s.cons.readPos + 2 ^ 64) {os' : List Event}
    (hdrain : machine.Run ConsumerOnly s os' u) :
    Lib.Machine.Accepts Takes (backlog (pushed os) s) os' (backlog (pushed os) u) := by
  have hs : Catching (pushed os) s :=
    ⟨.run hc hfit h, hpush, hnear, by rw [hpop]; exact hsight⟩
  obtain ⟨-, hall⟩ := hdrain.invariant
    (P := fun os' u => Catching (pushed os) u ∧
      Lib.Machine.Accepts Takes (backlog (pushed os) s) os' (backlog (pushed os) u))
    ⟨hs, .nil _⟩ fun os' t l v o ht hok hst =>
      ⟨(ht.1.step hok hst).1, ht.2.trans (ht.1.step hok hst).2⟩
  exact hall

/-- Three messages in a ring of two slots, before the first call. -/
theorem catch_up_lapped :
    ∃ s u, machine.Run Lib.Machine.anyStep (init twoSlots)
        [.pushed [0], .pushed [1], .pushed [2]] s ∧
      Lib.Machine.Accepts Takes (backlog [[0], [1], [2]] s)
        [.popped 8 0 [] true none, .popped 8 1 [1] false (some 1), .popped 8 1 [2] false (some 2),
          .popped 8 0 [] false none] (backlog [[0], [1], [2]] u) := by
  obtain ⟨s, u, hpush, hpop, hidle, hcalls, hread, hwritten⟩ :
      ∃ s u, machine.exec (init twoSlots) (pushByte 0 ++ pushByte 1 ++ pushByte 2) =
          some (s, [.pushed [0], .pushed [1], .pushed [2]]) ∧
        machine.exec s (popIn 2 ++ popIn 5 ++ popIn 5 ++ popIn 1) =
          some (u, [.popped 8 0 [] true none, .popped 8 1 [1] false (some 1),
            .popped 8 1 [2] false (some 2), .popped 8 0 [] false none]) ∧
        s.push = .idle ∧ s.pop = .idle ∧ s.cons.readPos = s.cons.writeCache ∧
        s.prod.writePos = 3 := ⟨_, _, rfl, rfl, rfl, rfl, rfl, rfl⟩
  have hconsumer : ∀ s, ∀ l ∈ popIn 2 ++ popIn 5 ++ popIn 5 ++ popIn 1, ConsumerOnly s l := by
    intro s l hl
    cases l with
    | push msg | producer => simp [popIn] at hl
    | _ => trivial
  have hrun := Lib.Machine.run_of_exec_any hpush
  refine ⟨s, u, hrun, ?_⟩
  exact catch_up (n := 2) (m := 8) rfl (by decide) hrun hidle hcalls (Or.inl hread)
    (by rw [hwritten]; omega)
    (Lib.Machine.run_of_exec (Lib.Machine.execOk_of_forall hconsumer s) hpop)

end HftComponents.Spsc.Lossy
