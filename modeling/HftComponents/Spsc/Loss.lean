import HftComponents.Spsc.Seqlock
import Mathlib.Data.List.Forall2

/-!
# Order and loss

Two properties of what `try_pop_lossy` returns.  The push indices of the
messages returned increase (`InOrder`), and a message is skipped between two
returns exactly when a call in between has set `*overwritten` (`Reports`).  Both
are about the index that a return shows, and the message of that index is the
one returned.

Both hold of every run that is never lapped in silence (`NotLapped`), by
`lossy_in_order` and `lossy_reported`.  Neither holds of the code as it is: it
compares `read_pos` with a copy of `write_pos` that it reloads only when it has
caught up with it, so a producer that laps the consumer behind that copy is not
noticed, and the slots it has rewritten are read as the old ones.
`lossy_out_of_order` and `lossy_unreported` are such runs.
-/

namespace HftComponents.Spsc.Lossy

open Lib.Ring
open Bus (empty rslot)

variable {s u : State} {os o : List Event} {a : Option (List UInt8)} {ms : List (List UInt8)}

theorem pushed_append (a b : List Event) : pushed (a ++ b) = pushed a ++ pushed b :=
  List.filterMap_append

theorem returned_append (a b : List Event) : returned (a ++ b) = returned a ++ returned b :=
  List.filterMap_append

theorem indices_append (a b : List Event) : indices (a ++ b) = indices a ++ indices b :=
  List.filterMap_append

theorem notLapped_of_idle (h : s.pop = .idle) : NotLapped s .consumer := by
  unfold NotLapped
  rw [h]
  trivial

theorem seqlock_init {c m : UInt32} {seg : Segment} (hc : create c m = some seg)
    (hfit : (computeSlotStride m).toNat < 2 ^ 32) : Seqlock [] (init seg) := by
  have hw : seg.cb.writePos = 0 := by rw [cb_of_create hc]
  have hr : seg.cb.readPos = 0 := by rw [cb_of_create hc]
  have hg : seg.generation = fun _ => 0 := generation_of_create hc
  exact {
    geometry := geometry_of_create hc hfit
    sameCapacity := rfl
    sameStride := rfl
    writePos := rfl
    count := hw.symm
    order := by simp [init, Consumer.attach, hw, hr]
    writeCache := le_rfl
    fits := nofun
    stored := nofun
    parity := by simp [init, hg]
    push := trivial
    pop := trivial }

theorem Seqlock.step {l : Label} (h : Seqlock ms s) (hok : NotLapped s l)
    (hstep : step s l = some (u, o)) : Seqlock (ms ++ pushed o) u := by
  rcases step_moves hstep with ⟨a, hm, -⟩ | ⟨hm, rfl | hidle⟩
  · exact h.pushMoves hm
  · exact h.popMoves hm hok
  · exact h.popMoves hm (notLapped_of_idle hidle)

/-! ### A ring of two slots -/

def twoSlots : Segment := ⟨⟨2, 64, 8, 0, 0⟩, fun _ => 0, fun _ => 0, fun _ => 0⟩

def pushByte (b : UInt8) : List Label := .push [b] :: List.replicate 6 .producer

/-- A call that makes `n` steps. -/
def popIn (n : Nat) : List Label := .tryPopLossy 8 :: List.replicate n .consumer

/-! ### Order -/

/-- The push indices of the messages returned form a strictly increasing
sequence. -/
structure InOrder (os : List Event) : Prop where
  increasing : (indices os).Pairwise (· < ·)
  messages : List.Forall₂ (Returns (pushed os)) (returned os) (indices os)

/-- The same, with the read position above them all. -/
structure InOrderBelow (os : List Event) (n : Nat) : Prop extends InOrder os where
  below : ∀ i ∈ indices os, i < n

theorem InOrderBelow.mono {n p : Nat} (h : InOrderBelow os n) (hle : n ≤ p)
    (hret : returned o = []) (hnone : indices o = []) : InOrderBelow (os ++ o) p := by
  have hindices : indices (os ++ o) = indices os := by
    rw [indices_append, hnone, List.append_nil]
  refine ⟨⟨hindices ▸ h.increasing, ?_⟩, ?_⟩
  · rw [pushed_append, returned_append, hret, hindices, List.append_nil]
    apply h.messages.imp
    intro r i hr
    exact hr.append _
  · rw [hindices]
    exact fun i hi => (h.below i hi).trans_le hle

theorem InOrderBelow.returned {n : Nat} {b msgSz : UInt32} {out : List UInt8}
    (h : InOrderBelow os n) (hret : Returns (pushed os) (b, msgSz, out) n) :
    InOrderBelow (os ++ [.popped b msgSz out false (some n)]) (n + 1) := by
  by_cases hsize : msgSz = 0
  · exact h.mono (Nat.le_succ n) (by simp [Lossy.returned, hsize]) (by simp [indices, hsize])
  · have hpushed : pushed (os ++ [.popped b msgSz out false (some n)]) = pushed os := by
      rw [pushed_append, show pushed [.popped b msgSz out false (some n)] = [] from rfl,
        List.append_nil]
    have hreturned : Lossy.returned (os ++ [.popped b msgSz out false (some n)]) =
        Lossy.returned os ++ [(b, msgSz, out)] := by
      simp [Lossy.returned, hsize]
    have hindices : indices (os ++ [.popped b msgSz out false (some n)]) = indices os ++ [n] := by
      simp [indices, hsize]
    refine ⟨⟨?_, ?_⟩, ?_⟩
    · rw [hindices, List.pairwise_append]
      exact ⟨h.increasing, List.pairwise_singleton _ _, by simpa using h.below⟩
    · rw [hpushed, hreturned, hindices]
      exact List.rel_append h.messages (.cons hret .nil)
    · intro i hi
      rw [hindices, List.mem_append, List.mem_singleton] at hi
      rcases hi with hi | rfl
      · exact (h.below i hi).trans (Nat.lt_succ_self n)
      · exact Nat.lt_succ_self i

theorem InOrderBelow.popMoves (h : InOrderBelow os s.cons.readPos)
    (hs : Seqlock (pushed os) s) (hm : PopMoves s u o) : InOrderBelow (os ++ o) u.cons.readPos := by
  have hpop := hs.pop
  cases hm with
  | fastForward hp =>
    rw [hp] at hpop
    exact h.mono hpop.1.le rfl rfl
  | store hp =>
    rw [hp] at hpop
    obtain ⟨-, rfl, hret⟩ := hpop
    exact h.returned hret
  | storeLost hp =>
    rw [hp] at hpop
    exact h.mono hpop.1 rfl rfl
  | _ => exact h.mono le_rfl rfl rfl

/-- **Lossy delivery is in order**, in runs that are never lapped in silence. -/
theorem lossy_in_order {c m : UInt32} {seg : Segment} (hc : create c m = some seg)
    (hfit : (computeSlotStride m).toNat < 2 ^ 32)
    (h : Lib.Machine.Run machine NotLapped (init seg) os s) : InOrder os := by
  have hinv : Seqlock (pushed os) s ∧ InOrderBelow os s.cons.readPos := by
    refine h.invariant (P := fun os s => Seqlock (pushed os) s ∧ InOrderBelow os s.cons.readPos)
      ⟨seqlock_init hc hfit, ⟨.nil, .nil⟩, nofun⟩ ?_
    intro os t l u o ht hok hstep
    obtain ⟨hs, hord⟩ := ht
    rw [pushed_append]
    refine ⟨hs.step hok hstep, ?_⟩
    rcases step_moves hstep with ⟨a, hm, -⟩ | ⟨hm, -⟩
    · rw [hm.cons_eq]
      exact hord.mono le_rfl hm.returned_eq hm.indices_eq
    · exact hord.popMoves hs hm
  exact hinv.2.toInOrder

/-- Message 0 is returned; then three are pushed, and the next call notices the lap.
Message 1 is gone, and the calls after it return 2 and 3. -/
theorem lapped_run :
    ∃ s, Lib.Machine.Run machine NotLapped (init twoSlots)
      [.pushed [7], .popped 8 1 [7] false (some 0), .pushed [7], .pushed [7], .pushed [7],
        .popped 8 0 [] true none, .popped 8 1 [7] false (some 2),
        .popped 8 1 [7] false (some 3)] s := by
  have hexec : ∃ ls, machine.ExecOk NotLapped (init twoSlots) ls ∧
      (machine.exec (init twoSlots) ls).map (fun q => ((), q.2)) =
        some ((), [.pushed [7], .popped 8 1 [7] false (some 0), .pushed [7], .pushed [7],
          .pushed [7], .popped 8 0 [] true none, .popped 8 1 [7] false (some 2),
          .popped 8 1 [7] false (some 3)]) := by
    refine ⟨List.flatten [pushByte 7, popIn 6, pushByte 7, pushByte 7, pushByte 7, popIn 2,
      popIn 5, popIn 5], ?_, ?_⟩
    · decide +kernel
    · decide +kernel
  obtain ⟨ls, hok, hexec⟩ := hexec
  exact (Lib.Machine.exists_run_of_exec (fun _ => ()) hok hexec).imp fun _ => And.left

/-- A loss between the first return and the second, of messages that look alike. -/
theorem lossy_in_order_alike :
    ∃ s os, Lib.Machine.Run machine NotLapped (init twoSlots) os s ∧
      returned os = List.replicate 3 (8, 1, [7]) ∧ indices os = [0, 2, 3] ∧ InOrder os := by
  obtain ⟨s, hrun⟩ := lapped_run
  exact ⟨s, _, hrun, rfl, rfl, lossy_in_order (c := 2) (m := 8) rfl (by decide) hrun⟩

/-- The consumer takes message 0, the producer overwrites both slots, and the
consumer, one behind its copy of `write_pos`, takes message 3 and then 2. -/
theorem lossy_out_of_order :
    ∃ s os, create 2 8 = some twoSlots ∧
      Lib.Machine.Run machine Lib.Machine.anyStep (init twoSlots) os s ∧
      returned os = [(8, 1, [0]), (8, 1, [3]), (8, 1, [2])] ∧ ¬InOrder os := by
  obtain ⟨s, hexec⟩ : ∃ s, machine.exec (init twoSlots)
      (pushByte 0 ++ pushByte 1 ++ popIn 6 ++ pushByte 2 ++ pushByte 3 ++ popIn 5 ++ popIn 6) =
      some (s, [.pushed [0], .pushed [1], .popped 8 1 [0] false (some 0), .pushed [2], .pushed [3],
        .popped 8 1 [3] false (some 3), .popped 8 1 [2] false (some 2)]) := ⟨_, rfl⟩
  refine ⟨s, _, rfl, Lib.Machine.run_of_exec_any hexec, rfl, ?_⟩
  intro hord
  have hlt : [0, 3, 2].Pairwise (· < ·) := hord.increasing
  exact absurd hlt (by decide)

/-! ### Loss -/

/-- What an observer has seen since the last return: the messages pushed, the
index of the next one due, and whether a loss was reported. -/
structure Account where
  pushed : List (List UInt8) := []
  next : Nat := 0
  lost : Bool := false

/-- Of the messages from `next` on, one is skipped exactly if a loss was
reported. -/
inductive Reports : Account → Event → Account → Prop
  | pushed {l : Account} {msg : List UInt8} :
      Reports l (.pushed msg) { l with pushed := l.pushed ++ [msg] }
  | refused {l : Account} : Reports l .refused l
  | nothing {l : Account} {b : UInt32} {out : List UInt8} {overwritten : Bool} :
      Reports l (.popped b 0 out overwritten none) { l with lost := l.lost || overwritten }
  | returned {l : Account} {b msgSz : UInt32} {out : List UInt8} {i : Nat} (hsize : msgSz ≠ 0)
      (hret : Returns l.pushed (b, msgSz, out) i) (hle : l.next ≤ i)
      (hlost : l.lost = true ↔ l.next < i) :
      Reports l (.popped b msgSz out false (some i)) { l with next := i + 1, lost := false }

/-- Between the machine and the account: what is due is at the read position,
or a loss was reported and it is behind it or being overwritten. -/
structure Accounts (l : Account) (s : State) : Prop where
  le : l.next ≤ s.cons.readPos
  due : l.lost = false → l.next = s.cons.readPos
  gone : l.lost = true →
    l.next < s.cons.readPos ∨ l.next + s.prod.capacity.toNat < started s
  store : ∀ b msgSz out i, s.pop = .store b msgSz out i → l.lost = true →
    l.next < s.cons.readPos

theorem started_mono (hm : PushMoves s a u o) : started s ≤ started u := by
  cases hm with
  | storeOdd hp =>
    rw [started, started, hp]
    exact Nat.le_succ _
  | refused hp hlen => exact le_rfl
  | _ => simp only [started, ‹s.push = _›, le_refl]

theorem Accounts.pushMoves {l : Account} (h : Accounts l s) (hm : PushMoves s a u o) :
    ∃ l', Lib.Machine.Accepts Reports l o l' ∧ l'.pushed = l.pushed ++ pushed o ∧
      Accounts l' u := by
  have hkeep : ∀ l' : Account, l'.next = l.next → l'.lost = l.lost → Accounts l' u := by
    intro l' hnext hlost
    have hstart := started_mono hm
    constructor
    · rw [hnext, hm.cons_eq]
      exact h.le
    · rw [hnext, hlost, hm.cons_eq]
      exact h.due
    · rw [hnext, hlost, hm.cons_eq, hm.capacity_eq]
      intro hl
      apply (h.gone hl).imp_right
      intro hlap
      exact hlap.trans_le hstart
    · rw [hnext, hlost, hm.cons_eq, hm.pop_eq]
      exact h.store
  cases hm with
  | refused hp hlen =>
    exact ⟨l, .single .refused, (List.append_nil _).symm, hkeep l rfl rfl⟩
  | publish hp => exact ⟨_, .single .pushed, rfl, hkeep _ rfl rfl⟩
  | _ => exact ⟨l, .nil l, (List.append_nil _).symm, hkeep l rfl rfl⟩

/-- A step of the consumer that shows nothing and leaves the read position. -/
theorem Accounts.silent {l : Account} (h : Accounts l s) (hread : u.cons.readPos = s.cons.readPos)
    (hprod : u.prod = s.prod) (hpush : u.push = s.push)
    (hstore : ∀ b msgSz out i, u.pop = .store b msgSz out i → l.lost = true →
      l.next < s.cons.readPos) : Accounts l u := by
  have hstart : started u = started s := by
    rw [started, started, hpush, hprod]
  constructor
  · rw [hread]
    exact h.le
  · rw [hread]
    exact h.due
  · rw [hread, hprod, hstart]
    exact h.gone
  · rw [hread]
    exact hstore

theorem Accounts.nothing {l : Account} (h : Accounts l s) (b : UInt32) (out : List UInt8)
    {f : Bool} {p : Nat} (hle : s.cons.readPos ≤ p)
    (hkept : f = false → p = s.cons.readPos)
    (hlost : f = true → s.cons.readPos < p ∨
      s.cons.readPos + s.prod.capacity.toNat < started s)
    (hread : u.cons.readPos = p) (hprod : u.prod = s.prod) (hpush : u.push = s.push)
    (hidle : u.pop = .idle) :
    ∃ l', Lib.Machine.Accepts Reports l [.popped b 0 out f none] l' ∧ l'.pushed = l.pushed ∧
      Accounts l' u := by
  refine ⟨_, .single .nothing, rfl, ?_⟩
  have hstart : started u = started s := by
    rw [started, started, hpush, hprod]
  constructor
  · rw [hread]
    exact h.le.trans hle
  · intro hl
    obtain ⟨hold, rfl⟩ := Bool.or_eq_false_iff.mp hl
    rw [hread, hkept rfl]
    exact h.due hold
  · intro hl
    rw [hread, hprod, hstart]
    show l.next < p ∨ l.next + s.prod.capacity.toNat < started s
    cases hold : l.lost with
    | true =>
      apply (h.gone hold).imp_left
      intro hlt
      exact hlt.trans_le hle
    | false =>
      rw [hold] at hl
      rw [h.due hold]
      exact hlost hl
  · intro b' n out' i hp
    rw [hidle] at hp
    cases hp

theorem Accounts.returned {l : Account} (h : Accounts l s) {b msgSz : UInt32}
    {out : List UInt8} (hp : s.pop = .store b msgSz out s.cons.readPos) (hsize : msgSz ≠ 0)
    (hret : Returns l.pushed (b, msgSz, out) s.cons.readPos) :
    ∃ l', Lib.Machine.Accepts Reports l [.popped b msgSz out false (some s.cons.readPos)] l' ∧
      l'.pushed = l.pushed ∧
      Accounts l' (setRead s (s.cons.readPos + 1)) := by
  have hlost : l.lost = true ↔ l.next < s.cons.readPos := by
    refine ⟨?_, ?_⟩
    · intro hl
      exact h.store b msgSz out _ hp hl
    · intro hlt
      cases hold : l.lost with
      | true => rfl
      | false => exact absurd (h.due hold) hlt.ne
  exact ⟨_, .single (.returned hsize hret h.le hlost), rfl, le_rfl, fun _ => rfl, nofun, nofun⟩

theorem look_ne_store (s : State) (bufSize b msgSz : UInt32) (out : List UInt8) (i : Nat) :
    look s bufSize ≠ .store b msgSz out i := by
  unfold look
  split <;> nofun

theorem Accounts.popMoves {l : Account} (h : Accounts l s) (hs : Seqlock (pushed os) s)
    (hl : l.pushed = pushed os) (hsizes : ∀ msg ∈ pushed os, msg ≠ [])
    (hm : PopMoves s u o) (hok : NotLapped s .consumer) :
    ∃ l', Lib.Machine.Accepts Reports l o l' ∧ l'.pushed = l.pushed ∧ Accounts l' u := by
  have hpop := hs.pop
  cases hm with
  | empty hp hempty =>
    exact h.nothing _ _ le_rfl (fun _ => rfl) nofun rfl rfl rfl rfl
  | retry hp hodd =>
    exact h.nothing _ _ le_rfl (fun _ => rfl) nofun rfl rfl rfl rfl
  | fastForward hp =>
    rw [hp] at hpop
    exact h.nothing _ _ hpop.1.le nofun (fun _ => Or.inl hpop.1) rfl rfl rfl rfl
  | storeLost hp =>
    rw [hp] at hpop
    exact h.nothing _ _ hpop.1 nofun (fun _ => hpop.2.2) rfl rfl rfl rfl
  | @store b msgSz out index hp =>
    rw [hp] at hpop
    obtain ⟨-, rfl, hret⟩ := hpop
    refine h.returned hp ?_ (hl ▸ hret)
    obtain ⟨msg, hget, hsize, -⟩ := hret
    intro hzero
    have hlen := hs.toNat_size hget
    rw [← hsize, show (b, msgSz, out).2.1 = 0 from hzero] at hlen
    exact hsizes msg (List.mem_of_getElem? hget) (List.length_eq_zero_iff.mp hlen.symm)
  | @whole b msgSz copySz gen1 out hp hle hgen =>
    refine ⟨l, .nil l, rfl, h.silent rfl rfl rfl ?_⟩
    intro _ _ _ _ _ hlost
    have hstart := (hs.returns_whole hp hle hgen (hok.recent hp hle)).1
    rcases h.gone hlost with hlt | hlt
    · exact hlt
    · omega
  | look hp hempty | relook hp hempty =>
    refine ⟨l, .nil l, rfl, h.silent rfl rfl rfl ?_⟩
    intro b n out i hst
    exact absurd hst (look_ne_store _ _ b n out i)
  | _ => exact ⟨l, .nil l, rfl, h.silent rfl rfl rfl nofun⟩

/-- **Every loss is reported**, and no other, in runs that are never lapped in
silence. -/
theorem lossy_reported {c m : UInt32} {seg : Segment} (hc : create c m = some seg)
    (hfit : (computeSlotStride m).toNat < 2 ^ 32)
    (h : Lib.Machine.Run machine NotLapped (init seg) os s)
    (hsizes : ∀ msg ∈ pushed os, msg ≠ []) : ∃ l, Lib.Machine.Accepts Reports {} os l := by
  have hr : seg.cb.readPos = 0 := by rw [cb_of_create hc]
  refine Exists.imp (fun _ hl => hl.1) (h.accepted
    (R := fun os s l => Seqlock (pushed os) s ∧ l.pushed = pushed os ∧ Accounts l s)
    (Q := fun os => ∀ msg ∈ pushed os, msg ≠ [])
    (fun os o hq msg hmsg => hq msg (by rw [pushed_append]; exact List.mem_append_left _ hmsg))
    (a := {}) ⟨seqlock_init hc hfit, rfl, hr.ge, fun _ => hr.symm, nofun, nofun⟩ ?_ hsizes)
  intro os t b k u o hR hok hq hstep
  obtain ⟨hs, hpushed, hacc⟩ := hR
  have hs' := hs.step hok hstep
  rw [← pushed_append] at hs'
  rcases step_moves hstep with ⟨a, hm, -⟩ | ⟨hm, hlab⟩
  · obtain ⟨b', hb', hpush', hacc'⟩ := hacc.pushMoves hm
    refine ⟨b', hb', hs', ?_, hacc'⟩
    rw [hpush', hpushed, pushed_append]
  · have hok' : NotLapped t .consumer := by
      rcases hlab with rfl | hidle
      · exact hok
      · exact notLapped_of_idle hidle
    rw [pushed_append, hm.pushed_eq, List.append_nil] at hq
    obtain ⟨b', hb', hpush', hacc'⟩ := hacc.popMoves hs hpushed hq hm hok'
    refine ⟨b', hb', hs', ?_, hacc'⟩
    rw [hpush', hpushed, pushed_append, hm.pushed_eq, List.append_nil]

/-- Message 1, which is gone, is accounted for by the call that noticed. -/
theorem lossy_reported_alike :
    ∃ s os, Lib.Machine.Run machine NotLapped (init twoSlots) os s ∧
      returned os = List.replicate 3 (8, 1, [7]) ∧ indices os = [0, 2, 3] ∧
      ∃ l, Lib.Machine.Accepts Reports {} os l := by
  obtain ⟨s, hrun⟩ := lapped_run
  exact ⟨s, _, hrun, rfl, rfl,
    lossy_reported (c := 2) (m := 8) rfl (by decide) hrun (by decide)⟩

/-- Message 3 is returned after message 0: 1 and 2 are gone, and nothing was
reported. -/
theorem lossy_unreported :
    ∃ s os, create 2 8 = some twoSlots ∧
      Lib.Machine.Run machine Lib.Machine.anyStep (init twoSlots) os s ∧
      (∀ msg ∈ pushed os, msg ≠ []) ∧ ¬ ∃ l, Lib.Machine.Accepts Reports {} os l := by
  obtain ⟨s, hexec⟩ : ∃ s, machine.exec (init twoSlots)
      (pushByte 0 ++ pushByte 1 ++ popIn 6 ++ pushByte 2 ++ pushByte 3 ++ popIn 5) =
      some (s, [.pushed [0], .pushed [1], .popped 8 1 [0] false (some 0), .pushed [2], .pushed [3],
        .popped 8 1 [3] false (some 3)]) := ⟨_, rfl⟩
  refine ⟨s, _, rfl, Lib.Machine.run_of_exec_any hexec, by decide, ?_⟩
  intro hacc
  obtain ⟨l, hacc⟩ := hacc
  obtain ⟨l₁, h₁, hacc⟩ := hacc.of_cons
  obtain ⟨l₂, h₂, hacc⟩ := hacc.of_cons
  obtain ⟨l₃, h₃, hacc⟩ := hacc.of_cons
  obtain ⟨l₄, h₄, hacc⟩ := hacc.of_cons
  obtain ⟨l₅, h₅, hacc⟩ := hacc.of_cons
  obtain ⟨l₆, h₆, hacc⟩ := hacc.of_cons
  cases h₁
  cases h₂
  cases h₃ with
  | returned _ _ _ _ =>
    cases h₄
    cases h₅
    cases h₆ with
    | returned _ _ _ hlost => exact absurd (hlost.mpr (by decide)) Bool.false_ne_true

end HftComponents.Spsc.Lossy
