import HftComponents.Spsc.PopResults
import HftComponents.Spsc.Progress

/-!
# What the blocking pops deliver

The messages that `push` accepts and those that the pops return, in runs with
large enough buffers and a live producer.  `try_pop` reports an empty ring and
an empty message alike, so `pop` skips over an empty message: it is consumed and
never returned (`empty_message_lost`).  Without empty messages every 0 is an
empty ring, and the `k`-th return is the `k`-th message (`pops_deliver`).

As for the bus itself (`Bus.bus_fifo`), the slot stride has to fit its field.
-/

namespace HftComponents.Spsc.Blocking

open Lib.Ring
open PopChecked (pushing)

/-! ### The runs in question -/

/-- No empty message is pushed. -/
def Nonempty (_ : State) : Label → Prop
  | .push _ msg => msg ≠ []
  | _ => True

/-- The buffers take every message, and the producer is alive. -/
def Served (m : UInt32) (_ : State) : Label → Prop
  | .pop _ bufSize => m ≤ bufSize
  | .producerStatus st => st ≠ .dead
  | _ => True

/-- Each message returned is the next one accepted, and none is consumed that is
not returned. -/
structure Delivered (os : List Event) (s : State) : Prop where
  inOrder : returns os = ((accepted os).take (returns os).length).map Bus.delivered
  consumed : s.bus.seg.cb.readPos = (returns os).length

/-! ### The invariant -/

def Pop.call : Pop → Option Popping
  | .idle => none
  | .attempt p | .trying p | .status p => some p

structure Delivering (m : UInt32) (os : List Event) (s : State) : Prop where
  fifo : Bus.Fifo (accepted os) (returns os) s.bus
  maxMsg : s.bus.prod.maxMsg = m
  aligned : Aligned s
  nonempty : ∀ msg ∈ accepted os, msg ≠ []
  pushes : ∀ p, s.push.call = some p → p.msg ≠ []
  pops : ∀ p, s.pop.call = some p → m ≤ p.bufSize ∧ p.wrote = []

variable {m : UInt32} {s u : State} {l : Label} {o os : List Event} {b v : Bus.State}
  {a : Option (List UInt8)} {x : Option UInt32} {o' : List Bus.Event} {p : Pushing} {q : Popping}

theorem NextPop.call {y : Pop} (h : NextPop y q x) : y.call = some q := by
  cases h <;> rfl

theorem msg_of_failed {r : Pushing} (h : p.failed.1.call = some r) : r.msg = p.msg := by
  unfold Pushing.failed at h
  cases hk : p.kind with
  | tryPush =>
    rw [hk] at h
    cases h
  | push =>
    rw [hk] at h
    rw [Option.some.inj h]
  | pushChecked checkEvery =>
    rw [hk] at h
    dsimp only at h
    split at h <;> rw [← Option.some.inj h]

theorem call_of_failed {r : Popping} (h : q.failed.1.call = some r) :
    r.bufSize = q.bufSize ∧ r.wrote = q.wrote := by
  unfold Popping.failed at h
  cases hk : q.kind with
  | tryPop =>
    rw [hk] at h
    cases h
  | pop =>
    rw [hk] at h
    rw [Option.some.inj h]
    exact ⟨rfl, rfl⟩
  | popChecked checkEvery =>
    rw [hk] at h
    dsimp only at h
    split at h <;> rw [← Option.some.inj h] <;> exact ⟨rfl, rfl⟩

theorem accepted_after (hm : Bus.PushMoves b a v o') :
    accepted (p.after o').2 = Bus.pushed o' ∧ returns (p.after o').2 = Bus.popped o' := by
  have hreturns : returns (p.after o').2 = [] := by
    rw [returns, List.filterMap_eq_nil_iff]
    intro e he
    have := pushes_of_after he
    cases e <;> first | rfl | exact absurd this id
  have hfailed : accepted p.failed.2 = [] := by
    unfold Pushing.failed
    cases p.kind with
    | pushChecked checkEvery =>
      dsimp only
      split <;> rfl
    | _ => rfl
  rcases push_cases hm with rfl | ⟨-, ⟨msg, rfl⟩ | rfl | rfl⟩
  · exact ⟨rfl, hreturns⟩
  · exact ⟨rfl, hreturns⟩
  · exact ⟨hfailed, hreturns⟩
  · exact ⟨hfailed, hreturns⟩

theorem accepted_popping (q : Popping) (o' : List Bus.Event) : accepted (q.after o').2 = [] := by
  rw [accepted, List.filterMap_eq_nil_iff]
  intro e he
  have := not_pushes_of_after he
  cases e <;> first | rfl | exact absurd trivial this

/-- A 0 that is no message is no return. -/
theorem returns_failed (q : Popping) : returns q.failed.2 = [] := by
  unfold Popping.failed
  cases hk : q.kind with
  | tryPop => simp [returns]
  | pop => rfl
  | popChecked checkEvery =>
    dsimp only
    split <;> rfl

namespace Delivering

/-- A size that is read is that of a message. -/
theorem ne_zero (h : Delivering m os s) {msgSz copySz : UInt32} {out : List UInt8}
    (hp : s.bus.pop = .copy msgSz copySz out) : msgSz ≠ 0 := by
  have hpop := h.fifo.pop
  rw [hp] at hpop
  obtain ⟨-, msg, hget, rfl, -⟩ := hpop
  have hmem := List.mem_of_getElem? hget
  exact PopChecked.ne_zero_of_size (h.nonempty msg hmem) (h.fifo.toNat_size hmem)

/-- What a step of the consumer's call shows: the message that was consumed, or
a 0 with `read_pos` as it was. -/
theorem consumer_shows (h : Delivering m os s) (hq : q.wrote = [])
    (hm : Bus.PopMoves s.bus x v o') :
    returns (q.after o').2 = Bus.popped o' ∧
      (.zero ∈ (q.after o').2 → v.seg.cb.readPos = s.bus.seg.cb.readPos) ∧
      ∀ r, (q.after o').1.call = some r → r.bufSize = q.bufSize ∧ r.wrote = [] := by
  have hnothing : ∀ o, q.after o = q.failed → Bus.popped o = [] →
      returns (q.after o).2 = Bus.popped o ∧
        ∀ r, (q.after o).1.call = some r → r.bufSize = q.bufSize ∧ r.wrote = [] := by
    intro o hafter hnone
    rw [hafter, hnone]
    refine ⟨returns_failed q, fun r hr => ?_⟩
    rw [← hq]
    exact call_of_failed hr
  cases hm with
  | empty _ _ =>
    obtain ⟨hreturns, hcall⟩ := hnothing [.empty] rfl rfl
    exact ⟨hreturns, fun _ => rfl, hcall⟩
  | popped hp _ =>
    have hne := h.ne_zero hp
    refine ⟨?_, ?_, ?_⟩
    · simp [Popping.after, hne, returns, write_nil hq, Bus.popped]
    · simp [Popping.after, hne]
    · simp [Popping.after, hne, Pop.call]
  | _ =>
    refine ⟨rfl, by rintro ⟨⟩, fun r hr => ?_⟩
    rw [← Option.some.inj hr]
    exact ⟨rfl, hq⟩

theorem producer (h : Delivering m os s) (hp : NextPush s.push p a)
    (hm : Bus.PushMoves s.bus a b o') :
    Delivering m (os ++ (p.after o').2) { s with bus := b, push := (p.after o').1 } := by
  obtain ⟨haccepted, hreturns⟩ := accepted_after (p := p) hm
  have hne := h.pushes p hp.call
  refine {
    fifo := ?_
    maxMsg := hm.fixed.2.trans h.maxMsg
    aligned := h.aligned.step (.producer hp hm)
    nonempty := ?_
    pushes := ?_
    pops := h.pops }
  · rw [accepted_append, returns_append, haccepted, hreturns]
    exact h.fifo.pushMoves hm
  · intro msg hmsg
    rw [accepted_append, haccepted] at hmsg
    rcases List.mem_append.mp hmsg with hold | hnew
    · exact h.nonempty msg hold
    · -- the message published is the call's
      have hpushed : .pushed msg ∈ o' := by
        rcases push_cases hm with rfl | ⟨-, ⟨msg', rfl⟩ | rfl | rfl⟩
        · cases hnew
        · rw [List.mem_singleton.mp hnew]
          exact List.mem_cons_self
        · cases hnew
        · cases hnew
      have hbus := (PopChecked.pushing_pushMoves hm).2 msg hpushed
      have haligned := h.aligned
      unfold Aligned at haligned
      rcases hp.eq_or with ⟨hs, -⟩ | ⟨hs, -⟩
      · rw [hs] at haligned
        rw [show s.bus.push = .idle from haligned] at hbus
        cases hbus
      · rw [hs] at haligned
        rw [← Option.some.inj (haligned.symm.trans hbus)]
        exact hne
  · intro r hr
    unfold Pushing.after at hr
    split at hr
    · rw [← Option.some.inj hr]
      exact hne
    · cases hr
    · rw [msg_of_failed hr]
      exact hne

theorem consumer (h : Delivering m os s) (hq : NextPop s.pop q x)
    (hm : Bus.PopMoves s.bus x b o') :
    Delivering m (os ++ (q.after o').2) { s with bus := b, pop := (q.after o').1 } := by
  obtain ⟨hbuf, hwrote⟩ := h.pops q hq.call
  obtain ⟨hreturns, -, hpops⟩ := h.consumer_shows hwrote hm
  have hpushed : Bus.pushed o' = [] := by
    cases hm <;> rfl
  refine {
    fifo := ?_
    maxMsg := hm.prod_eq ▸ h.maxMsg
    aligned := h.aligned.step (.consumer hq hm)
    nonempty := ?_
    pushes := h.pushes
    pops := ?_ }
  · rw [accepted_append, returns_append, accepted_popping, hreturns, ← hpushed]
    apply h.fifo.popMoves hm
    rintro n rfl
    rcases hq.eq_or with ⟨-, hn⟩ | ⟨-, hn⟩
    · rw [Option.some.inj hn, h.maxMsg]
      exact hbuf
    · cases hn
  · rw [accepted_append, accepted_popping, List.append_nil]
    exact h.nonempty
  · intro r hr
    obtain ⟨hsize, hr⟩ := hpops r hr
    exact ⟨hsize ▸ hbuf, hr⟩

theorem step (h : Delivering m os s) (hne : Nonempty s l) (hok : Served m s l)
    (hm : Moves s l u o) : Delivering m (os ++ o) u := by
  have haligned := h.aligned.step hm
  have hquiet : accepted (os ++ []) = accepted os ∧ returns (os ++ []) = returns os := by
    simp
  cases hm with
  | producer hp hm => exact h.producer hp hm
  | consumer hq hm => exact h.consumer hq hm
  | push hp =>
    rw [List.append_nil]
    refine { h with aligned := haligned, pushes := ?_ }
    intro r hr
    rw [← Option.some.inj hr]
    exact hne
  | pop hp =>
    rw [List.append_nil]
    refine { h with pops := ?_ }
    intro r hr
    rw [← Option.some.inj hr]
    exact ⟨hok, rfl⟩
  | gaveUp hp =>
    refine { h with fifo := ?_, aligned := haligned, nonempty := ?_, pushes := nofun }
    · rw [accepted_append, returns_append]
      simpa [accepted, returns] using h.fifo
    · rw [accepted_append]
      simpa [accepted] using h.nonempty
  | pushAgain hp _ =>
    rw [List.append_nil]
    refine { h with aligned := haligned, pushes := ?_ }
    intro r hr
    apply h.pushes r
    rw [hp]
    exact hr
  | peerDead _ => exact absurd rfl hok
  | popAgain hp _ =>
    rw [List.append_nil]
    refine { h with pops := ?_ }
    intro r hr
    apply h.pops r
    rw [hp]
    exact hr

end Delivering

/-! ### Runs -/

theorem run_delivering {n : UInt32} {seg : Segment} (hc : create n m = some seg)
    (hfit : (computeSlotStride m).toNat < 2 ^ 32)
    (h : Lib.Machine.Run machine (fun s l => Nonempty s l ∧ Served m s l) (init seg) os s) :
    Delivering m os s := by
  refine h.invariant (P := fun os s => Delivering m os s) ?_ ?_
  · exact {
      fifo := Bus.fifo_init hc hfit
      maxMsg := (positions_init hc).maxMsg
      aligned := show (Bus.init seg).push = .idle from rfl
      nonempty := nofun
      pushes := nofun
      pops := nofun }
  · intro os t l u o ht hok hstep
    exact ht.step hok.1 hok.2 (step_moves hstep)

/-- **Blocking pops deliver every message**, in runs without empty ones. -/
theorem pops_deliver {n : UInt32} {seg : Segment} (hc : create n m = some seg)
    (hfit : (computeSlotStride m).toNat < 2 ^ 32)
    (h : Lib.Machine.Run machine (fun s l => Nonempty s l ∧ Served m s l) (init seg) os s) :
    Delivered os s ∧ ∀ l u o, step s l = some (u, o) → .zero ∈ o →
      u.bus.seg.cb.readPos = s.bus.seg.cb.readPos := by
  have hs := run_delivering hc hfit h
  have hlen : (returns os).length = s.bus.cons.readPos := by
    have horder := hs.fifo.order
    rw [hs.fifo.delivery, List.length_map, List.length_take, hs.fifo.count]
    omega
  refine ⟨⟨?_, ?_⟩, ?_⟩
  · rw [hlen]
    exact hs.fifo.delivery
  · rw [hlen]
    exact hs.fifo.readPos
  · intro l u o hstep hzero
    cases step_moves hstep with
    | producer _ _ => exact absurd (pushes_of_after hzero) id
    | consumer hq hm => exact (hs.consumer_shows (hs.pops _ hq.call).2 hm).2.1 hzero
    | _ => simp at hzero

instance decidableNonempty (s : State) : ∀ l, Decidable (Nonempty s l)
  | .push _ msg => inferInstanceAs (Decidable (msg ≠ []))
  | .producer | .consumerStatus _ | .pop _ _ | .consumer | .producerStatus _ => isTrue trivial

instance decidableServed (m : UInt32) (s : State) : ∀ l, Decidable (Served m s l)
  | .pop _ bufSize => inferInstanceAs (Decidable (m ≤ bufSize))
  | .producerStatus st => inferInstanceAs (Decidable (st ≠ .dead))
  | .push _ _ | .producer | .consumerStatus _ | .consumer => isTrue trivial

/-- `pop` waits for the first of two messages, `pop_checked` takes the second. -/
theorem pops_deliver_two :
    ∃ s os, Lib.Machine.Run machine (fun s l => Nonempty s l ∧ Served 8 s l) (init twoSlots) os s ∧
      returns os = [(1, [5]), (2, [6, 7])] ∧ Delivered os s := by
  obtain ⟨s, hrun, -⟩ := Lib.Machine.exists_run_of_exec (m := machine) (fun _ => ())
    (by decide +kernel : machine.ExecOk (fun s l => Nonempty s l ∧ Served 8 s l) (init twoSlots)
      (.pop .pop 8 :: List.replicate 2 .consumer ++ .push .push [5] ::
        List.replicate 4 .producer ++ List.replicate 5 .consumer ++ .push .tryPush [6, 7] ::
        List.replicate 5 .producer ++ .pop (.popChecked 1) 8 :: List.replicate 6 .consumer))
    (show _ = some ((), [.zero, .accepted [5], .returned .pop 8 1 [5], .accepted [6, 7],
      .returned (.popChecked 1) 8 2 [6, 7]]) by decide +kernel)
  exact ⟨s, _, hrun, rfl, (pops_deliver (n := 2) (m := 8) rfl (by decide) hrun).1⟩

/-- **An empty message is lost**: `try_push` accepts it, `try_pop` moves
`read_pos` past it and returns 0, and the first return of `pop` is the second
message. -/
theorem empty_message_lost :
    ∃ s t u os, create 2 8 = some twoSlots ∧
      Lib.Machine.Run machine (Served 8) (init twoSlots) [.accepted []] s ∧
      step s .consumer = some (t, [.zero]) ∧
      t.bus.seg.cb.readPos = s.bus.seg.cb.readPos + 1 ∧
      Lib.Machine.Run machine (Served 8) (init twoSlots) os u ∧
      accepted os = [[], [9]] ∧ returns os = [(1, [9])] ∧ ¬Delivered os u := by
  have hrun : Lib.Machine.Run machine (Served 8) (init twoSlots) [.accepted []] _ :=
    Lib.Machine.run_of_exec (by decide +kernel : machine.ExecOk (Served 8) (init twoSlots)
      (.push .push [] :: List.replicate 3 .producer ++ .pop .pop 8 :: List.replicate 3 .consumer))
      rfl
  obtain ⟨u, hlost, -⟩ := Lib.Machine.exists_run_of_exec (m := machine) (fun _ => ())
    (by decide +kernel : machine.ExecOk (Served 8) (init twoSlots)
      (.push .push [] :: List.replicate 3 .producer ++ .pop .pop 8 :: List.replicate 4 .consumer ++
        .push .push [9] :: List.replicate 4 .producer ++ List.replicate 5 .consumer))
    (show _ = some ((), [.accepted [], .zero, .accepted [9], .returned .pop 8 1 [9]])
      by decide +kernel)
  refine ⟨_, _, u, _, rfl, hrun, rfl, rfl, hlost, rfl, rfl, ?_⟩
  intro h
  exact absurd h.inOrder (by decide)

end HftComponents.Spsc.Blocking
