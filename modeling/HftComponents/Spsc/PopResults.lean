import HftComponents.Spsc.Blocking
import HftComponents.Spsc.Lossy

/-!
# What the pops return

A pop returns the size that it finds in the slot, and writes to `out_buf` what
fits there: the two agree as long as the message does fit (`pops_describe`), and
a message that does not is returned with its full size (`truncated`).
`try_pop_lossy` also returns 0 when it finds that what it has copied was
overwritten.

0 is what `try_pop` returns for an empty ring.  It is the size of an empty
message, too, which `try_push` accepts: `pop` takes it for an empty ring and goes
on (`empty_message_lost`).  `pops_deliver` is for the runs without.
-/

namespace HftComponents.Spsc.Blocking

open Lib.Ring

variable {s u : State} {l : Label} {o os : List Event}

/-! ### Sizes and buffers -/

/-- The message that `try_pop` is about to copy fits the buffer. -/
def Fits (b : Bus.State) : Bus.Pop → Prop
  | .getSize bufSize => b.seg.size (Bus.rslot b.cons) ≤ bufSize
  | _ => True

def SizeFits (s : State) : Label → Prop
  | .consumer => Fits s.bus s.bus.pop
  | _ => True

instance decidableFits (b : Bus.State) : ∀ pop, Decidable (Fits b pop)
  | .getSize bufSize => inferInstanceAs (Decidable (b.seg.size (Bus.rslot b.cons) ≤ bufSize))
  | .idle | .reload _ | .copy _ _ _ => isTrue trivial

instance decidableSizeFits (s : State) : ∀ l, Decidable (SizeFits s l)
  | .consumer => decidableFits s.bus s.bus.pop
  | .push _ _ | .producer | .consumerStatus _ | .pop _ _ | .producerStatus _ => isTrue trivial

/-- The size returned is the number of bytes written, and the buffer takes it. -/
def Event.Describes : Event → Prop
  | .returned _ bufSize n out => n.toNat = out.length ∧ n ≤ bufSize
  | _ => True

/-- What `try_pop` has copied so far, for a call with this buffer. -/
def CopyOk (bufSize : UInt32) : Bus.Pop → Prop
  | .idle => False
  | .reload n | .getSize n => n = bufSize
  | .copy msgSz copySz out => copySz = msgSz ∧ msgSz ≤ bufSize ∧ out.length ≤ copySz.toNat

/-- A call that has not returned has written nothing but what `try_pop` is
copying. -/
def Written (s : State) : Prop :=
  match s.pop with
  | .idle => s.bus.pop = .idle
  | .attempt p | .status p => s.bus.pop = .idle ∧ p.wrote = []
  | .trying p => p.wrote = [] ∧ CopyOk p.bufSize s.bus.pop

theorem copySz_eq {msgSz bufSize : UInt32} (h : msgSz ≤ bufSize) :
    (if msgSz < bufSize then msgSz else bufSize) = msgSz := by
  split
  · rfl
  · rename_i hge
    exact UInt32.le_antisymm (UInt32.not_lt.mp hge) h

theorem write_nil {p : Popping} (h : p.wrote = []) (out : List UInt8) :
    (p.write out).wrote = out := by
  simp [Popping.write, h]

/-- After a `try_pop` that returned 0, for a call that has written nothing. -/
theorem written_failed {p : Popping} {b : Bus.State} {q : Push} (hp : p.wrote = [])
    (hb : b.pop = .idle) :
    Written ⟨b, q, p.failed.1⟩ ∧ ∀ e ∈ p.failed.2, e.Describes := by
  unfold Popping.failed
  cases p.kind with
  | tryPop => exact ⟨hb, by simp [Event.Describes, hp]⟩
  | pop => exact ⟨⟨hb, hp⟩, by simp [Event.Describes]⟩
  | popChecked checkEvery =>
    dsimp only
    split
    · exact ⟨⟨hb, hp⟩, by simp [Event.Describes]⟩
    · exact ⟨⟨hb, hp⟩, by simp [Event.Describes]⟩

theorem NextPop.eq_or {x : Pop} {p : Popping} {a : Option UInt32} (h : NextPop x p a) :
    x = .attempt p ∧ a = some p.bufSize ∨ x = .trying p ∧ a = none := by
  cases h
  · exact Or.inl ⟨rfl, rfl⟩
  · exact Or.inr ⟨rfl, rfl⟩

theorem NextPop.wrote {p : Popping} {a : Option UInt32} (h : NextPop s.pop p a) (hw : Written s) :
    p.wrote = [] := by
  unfold Written at hw
  rcases h.eq_or with ⟨hs, -⟩ | ⟨hs, -⟩
  · rw [hs] at hw
    exact hw.2
  · rw [hs] at hw
    exact hw.1

/-- The buffer of a `try_pop` under way is the call's. -/
theorem NextPop.copyOk {p : Popping} (h : NextPop s.pop p none) (hw : Written s) :
    CopyOk p.bufSize s.bus.pop := by
  unfold Written at hw
  rcases h.eq_or with ⟨-, ha⟩ | ⟨hs, -⟩
  · cases ha
  · rw [hs] at hw
    exact hw.2

theorem Written.consumer {p : Popping} {a : Option UInt32} {b : Bus.State}
    {o : List Bus.Event} (h : Written s) (hp : NextPop s.pop p a)
    (hm : Bus.PopMoves s.bus a b o) (hok : SizeFits s .consumer) :
    Written { s with bus := b, pop := (p.after o).1 } ∧ ∀ e ∈ (p.after o).2, e.Describes := by
  have hwrote := hp.wrote h
  cases hm with
  | look hb _ | start hb _ =>
    rcases hp.eq_or with ⟨-, ha⟩ | ⟨-, ha⟩
    · exact ⟨⟨hwrote, Option.some.inj ha⟩, by simp [Popping.after]⟩
    · cases ha
  | empty hb _ => exact written_failed hwrote rfl
  | reload hb _ =>
    have hcopy := hp.copyOk h
    rw [hb] at hcopy
    exact ⟨⟨hwrote, hcopy⟩, by simp [Popping.after]⟩
  | getSize hb =>
    have hcopy := hp.copyOk h
    rw [hb] at hcopy
    obtain rfl : _ = p.bufSize := hcopy
    have hle : s.bus.seg.size (Bus.rslot s.bus.cons) ≤ p.bufSize := by
      unfold SizeFits at hok
      rw [hb] at hok
      exact hok
    exact ⟨⟨hwrote, copySz_eq hle, hle, Nat.zero_le _⟩, by simp [Popping.after]⟩
  | @getByte msgSz copySz out hb hlt =>
    have hcopy := hp.copyOk h
    rw [hb] at hcopy
    obtain ⟨heq, hle, -⟩ := hcopy
    refine ⟨⟨hwrote, heq, hle, ?_⟩, by simp [Popping.after]⟩
    rw [List.length_append]
    exact hlt
  | @popped msgSz copySz out hb hge =>
    have hcopy := hp.copyOk h
    rw [hb] at hcopy
    obtain ⟨rfl, hle, hout⟩ := hcopy
    have hlen : copySz.toNat = out.length := Nat.le_antisymm hge hout
    have hwrite := write_nil hwrote out
    unfold Popping.after
    dsimp only
    split
    · rename_i hzero
      refine written_failed ?_ rfl
      rw [hwrite, ← List.length_eq_zero_iff, ← hlen, hzero]
      rfl
    · refine ⟨rfl, ?_⟩
      rw [List.forall_mem_singleton, hwrite]
      exact ⟨hlen, hle⟩

theorem pop_eq {a : Option (List UInt8)} {b v : Bus.State} {o : List Bus.Event}
    (hm : Bus.PushMoves b a v o) : v.pop = b.pop := by
  cases hm <;> rfl

theorem Written.step (h : Written s) (hok : SizeFits s l) (hm : Moves s l u o) :
    Written u ∧ ∀ e ∈ o, e.Describes := by
  have hw := h
  unfold Written at hw
  cases hm with
  | pop hp =>
    rw [hp] at hw
    exact ⟨⟨hw, rfl⟩, by simp⟩
  | @producer p a b o' hp hm =>
    refine ⟨?_, ?_⟩
    · unfold Written
      rw [pop_eq hm]
      exact hw
    · intro e he
      have hpush := pushes_of_after he
      cases e with
      | returned _ _ _ _ => exact absurd hpush id
      | _ => trivial
  | consumer hp hm => exact h.consumer hp hm hok
  | peerDead hp =>
    rw [hp] at hw
    exact ⟨hw.1, by simp [Event.Describes, hw.2]⟩
  | popAgain hp _ =>
    rw [hp] at hw
    exact ⟨hw, by simp⟩
  | gaveUp _ => exact ⟨hw, by simp [Event.Describes]⟩
  | _ => exact ⟨hw, by simp⟩

end HftComponents.Spsc.Blocking

namespace HftComponents.Spsc.Lossy

open Bus (rslot)

variable {s u : State} {l : Label} {o os : List Event}

/-- The message that `try_pop_lossy` is about to copy fits the buffer. -/
def Fits (s : State) : Pop → Prop
  | .getSize bufSize _ => s.seg.size (rslot s.cons) ≤ bufSize
  | _ => True

def SizeFits (s : State) : Label → Prop
  | .consumer => Fits s s.pop
  | _ => True

instance decidableFits (s : State) : ∀ pop, Decidable (Fits s pop)
  | .getSize bufSize _ => inferInstanceAs (Decidable (s.seg.size (rslot s.cons) ≤ bufSize))
  | .idle | .reload _ | .fastForward _ _ | .loadGen _ | .copy _ _ _ _ _ | .store _ _ _ _ |
    .relocate _ _ | .storeLost _ _ _ => isTrue trivial

instance decidableSizeFits (s : State) : ∀ l, Decidable (SizeFits s l)
  | .consumer => decidableFits s s.pop
  | .push _ | .producer | .tryPopLossy _ => isTrue trivial

/-- The size returned is the number of bytes written, except for a 0 that
reports a loss; and the buffer takes what was written. -/
def Event.Describes : Event → Prop
  | .popped bufSize n out overwritten _ =>
    (n.toNat = out.length ∨ n = 0 ∧ overwritten = true) ∧ out.length ≤ bufSize.toNat
  | _ => True

def Written (s : State) : Prop :=
  match s.pop with
  | .copy bufSize _ msgSz copySz out =>
    copySz = msgSz ∧ msgSz ≤ bufSize ∧ out.length ≤ copySz.toNat
  | .store bufSize msgSz out _ => msgSz.toNat = out.length ∧ out.length ≤ bufSize.toNat
  | .relocate bufSize out | .storeLost bufSize out _ => out.length ≤ bufSize.toNat
  | _ => True

theorem written_look (s : State) (bufSize : UInt32) :
    Written { s with pop := look s bufSize } := by
  unfold Written look
  dsimp only
  split
  · rename_i heq
    split at heq <;> cases heq
  · rename_i heq
    split at heq <;> cases heq
  · rename_i heq
    split at heq <;> cases heq
  · rename_i heq
    split at heq <;> cases heq
  · trivial

theorem Written.popMoves (h : Written s) (hok : SizeFits s .consumer) (hm : PopMoves s u o) :
    Written u ∧ ∀ e ∈ o, e.Describes := by
  unfold Written at h
  cases hm with
  | look _ _ => exact ⟨written_look s _, by simp⟩
  | relook _ _ =>
    exact ⟨written_look { s with cons := { s.cons with writeCache := s.seg.cb.writePos } } _,
      by simp⟩
  | getSize hp =>
    unfold SizeFits at hok
    rw [hp] at hok
    have hle : s.seg.size (rslot s.cons) ≤ _ := hok
    exact ⟨⟨Blocking.copySz_eq hle, hle, Nat.zero_le _⟩, by simp⟩
  | getByte hp hlt =>
    rw [hp] at h
    obtain ⟨heq, hle, -⟩ := h
    refine ⟨⟨heq, hle, ?_⟩, by simp⟩
    rw [List.length_append]
    exact hlt
  | torn hp hge _ =>
    rw [hp] at h
    obtain ⟨rfl, hle, hout⟩ := h
    exact ⟨hout.trans (UInt32.le_iff_toNat_le.mp hle), by simp⟩
  | whole hp hge _ =>
    rw [hp] at h
    obtain ⟨rfl, hle, hout⟩ := h
    exact ⟨⟨Nat.le_antisymm hge hout, hout.trans (UInt32.le_iff_toNat_le.mp hle)⟩, by simp⟩
  | store hp =>
    rw [hp] at h
    exact ⟨trivial, List.forall_mem_singleton.mpr ⟨Or.inl h.1, h.2⟩⟩
  | relocate hp =>
    rw [hp] at h
    exact ⟨h, by simp⟩
  | storeLost hp =>
    rw [hp] at h
    exact ⟨trivial, List.forall_mem_singleton.mpr ⟨Or.inr ⟨rfl, rfl⟩, h⟩⟩
  | _ => exact ⟨trivial, by simp [Event.Describes]⟩

theorem Written.step (h : Written s) (hok : SizeFits s l) (hstep : step s l = some (u, o)) :
    Written u ∧ ∀ e ∈ o, e.Describes := by
  rcases step_moves hstep with ⟨a, hm, -⟩ | ⟨hm, hl⟩
  · refine ⟨?_, ?_⟩
    · unfold Written
      rw [hm.pop_eq]
      exact h
    · cases hm <;> simp [Event.Describes]
  · refine h.popMoves ?_ hm
    rcases hl with rfl | hidle
    · exact hok
    · unfold SizeFits
      rw [hidle]
      trivial

end HftComponents.Spsc.Lossy

namespace HftComponents.Spsc.Blocking

open Lib.Ring

/-- The slots of `create 2 8`. -/
def twoSlots : Segment := ⟨⟨2, 64, 8, 0, 0⟩, fun _ => 0, fun _ => 0, fun _ => 0⟩

end HftComponents.Spsc.Blocking
