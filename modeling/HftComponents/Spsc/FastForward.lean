import HftComponents.Spsc.Loss

/-!
# What a fast-forward skips

`try_pop_lossy` advances `read_pos` over messages that it does not return in two
places: behind its copy of `write_pos`, when that is more than a lap ahead, and
behind a fresh load of it, when a generation changed while it copied.

The first goes to the oldest message that no push has begun to overwrite.  The
second means to, but where `write_pos` equals the capacity it goes to
`write_pos` itself, since the guard for small positions is `>` and not `>=`.
`intact_skipped` is such a run; `skips_only_overwritten` says that there are no
others.  It reads no generation, no size and no payload.
-/

namespace HftComponents.Spsc.Lossy

open Lib.Ring
open Bus (empty rslot)

/-- A push has begun to write the slot of message `i` once more. -/
def Overwritten (s : State) (i : Nat) : Prop := i + s.prod.capacity.toNat < started s

instance decidableOverwritten (s : State) (i : Nat) : Decidable (Overwritten s i) :=
  inferInstanceAs (Decidable (_ < _))

def Pop.relocating : Pop → Bool
  | .relocate _ _ => true
  | _ => false

/-- A call whose generation changed finds more than a lap of messages, or there
is but one slot and it is being written. -/
def PastFirstLap (s : State) : Label → Prop
  | .consumer => s.pop.relocating = true →
    s.cons.capacity.toUInt64 < u64 s.seg.cb.writePos ∨
      s.cons.capacity = 1 ∧ s.seg.cb.writePos < started s
  | _ => True

instance decidablePastFirstLap (s : State) : (l : Label) → Decidable (PastFirstLap s l)
  | .consumer => inferInstanceAs (Decidable (s.pop.relocating = true →
      s.cons.capacity.toUInt64 < u64 s.seg.cb.writePos ∨
        s.cons.capacity = 1 ∧ s.seg.cb.writePos < started s))
  | .push _ | .producer | .tryPopLossy _ => isTrue trivial

/-- The read position that a call is about to store leaves no intact message
behind. -/
def Skips (s : State) : Pop → Prop
  | .fastForward _ p => p ≤ s.cons.writeCache ∧ ∀ i < p, Overwritten s i
  | .storeLost _ _ p => p ≤ s.cons.writeCache ∧ ∀ i < p, Overwritten s i
  | .idle | .reload _ | .relocate _ _ => True
  | _ => s.cons.readPos < s.cons.writeCache

structure Tracks (s : State) : Prop where
  sameCapacity : s.cons.capacity = s.prod.capacity
  writePos : s.seg.cb.writePos = s.prod.writePos
  order : s.cons.readPos ≤ s.cons.writeCache
  writeCache : s.cons.writeCache ≤ s.prod.writePos
  pop : Skips s s.pop

section Step

variable {s u : State} {a : Option (List UInt8)} {l : Label} {os o : List Event}

theorem writePos_le_started (s : State) : s.prod.writePos ≤ started s := by
  unfold started
  split <;> omega

theorem Skips.of_push {pop : Pop} (h : Skips s pop) (hm : PushMoves s a u o) : Skips u pop := by
  have hmono : ∀ i, Overwritten s i → Overwritten u i := by
    intro i hi
    unfold Overwritten at hi ⊢
    rw [hm.capacity_eq]
    exact hi.trans_le (started_mono hm)
  have hcons := hm.cons_eq
  cases pop with
  | fastForward b p | storeLost b out p =>
    obtain ⟨hle, hskip⟩ := h
    refine ⟨?_, fun i hi => hmono i (hskip i hi)⟩
    rw [hcons]
    exact hle
  | idle | reload b | relocate b out => trivial
  | _ =>
    unfold Skips at h ⊢
    rw [hcons]
    exact h

theorem Tracks.pushMoves (h : Tracks s) (hm : PushMoves s a u o) : Tracks u := by
  have hpop := h.pop.of_push hm
  refine ⟨?_, ?_, ?_, ?_, ?_⟩
  · rw [hm.cons_eq, hm.capacity_eq]
    exact h.sameCapacity
  · cases hm with
    | publish hp => rfl
    | _ => exact h.writePos
  · rw [hm.cons_eq]
    exact h.order
  · rw [hm.cons_eq]
    refine h.writeCache.trans ?_
    cases hm with
    | publish hp => exact Nat.le_succ _
    | _ => exact Nat.le_refl _
  · rw [hm.pop_eq]
    exact hpop

theorem Tracks.setPop (h : Tracks s) {pop : Pop} (hpop : Skips s pop) :
    Tracks { s with pop := pop } :=
  ⟨h.sameCapacity, h.writePos, h.order, h.writeCache, by cases pop <;> exact hpop⟩

theorem Tracks.refresh (h : Tracks s) :
    Tracks { s with
      cons := { s.cons with writeCache := s.seg.cb.writePos }, pop := .idle } := by
  refine ⟨h.sameCapacity, h.writePos, ?_, h.writePos.le, trivial⟩
  show s.cons.readPos ≤ s.seg.cb.writePos
  rw [h.writePos]
  exact h.order.trans h.writeCache

theorem Tracks.setRead (h : Tracks s) {p : Nat} (hle : p ≤ s.cons.writeCache) :
    Tracks (setRead s p) :=
  ⟨h.sameCapacity, h.writePos, hle, h.writeCache, trivial⟩

theorem Tracks.lt_of_not_empty (h : Tracks s) (hempty : empty s.cons = false) :
    s.cons.readPos < s.cons.writeCache := by
  refine lt_of_le_of_ne h.order ?_
  intro heq
  rw [empty, decide_eq_false_iff_not, heq] at hempty
  exact hempty rfl

/-- A message a lap behind a position that has been written. -/
theorem Tracks.overwritten (h : Tracks s) {i w : Nat} (hw : w ≤ s.prod.writePos)
    (hi : i < w - s.cons.capacity.toNat) : Overwritten s i := by
  have hstart := writePos_le_started s
  unfold Overwritten
  rw [← h.sameCapacity]
  omega

theorem Tracks.look (h : Tracks s) (hempty : empty s.cons = false) (b : UInt32) :
    Skips s (look s b) := by
  unfold Lossy.look
  split
  · exact ⟨Nat.sub_le _ _, fun i hi => h.overwritten h.writeCache hi⟩
  · exact h.lt_of_not_empty hempty

/-- The guard for small positions. -/
theorem Tracks.relocated (h : Tracks s) {b : UInt32} {out : List UInt8}
    (hp : s.pop = .relocate b out) (hok : PastFirstLap s .consumer) :
    Skips { s with cons := { s.cons with writeCache := s.seg.cb.writePos } }
      (.storeLost b out (relocated { s.cons with writeCache := s.seg.cb.writePos })) := by
  have hlap : s.cons.capacity.toUInt64 < u64 s.seg.cb.writePos ∨
      s.cons.capacity = 1 ∧ s.seg.cb.writePos < started s := by
    apply hok
    rw [hp]
    rfl
  unfold Lossy.relocated
  split
  · exact ⟨Nat.sub_le _ _, fun i hi => h.overwritten h.writePos.le hi⟩
  · rename_i hsmall
    refine ⟨Nat.le_refl _, ?_⟩
    obtain ⟨hone, hstart⟩ := hlap.resolve_left hsmall
    intro i hi
    have hcap : s.prod.capacity.toNat = 1 := by
      rw [← h.sameCapacity, hone]
      rfl
    have hi' : i < s.seg.cb.writePos := hi
    show i + s.prod.capacity.toNat < started s
    omega

theorem Tracks.popMoves (h : Tracks s) (hm : PopMoves s u o) (hok : PastFirstLap s .consumer) :
    Tracks u := by
  have hpop := h.pop
  cases hm with
  | reload hp hempty => exact h.setPop trivial
  | look hp hempty => exact h.setPop (h.look hempty _)
  | empty hp hempty => exact h.refresh
  | relook hp hempty =>
    have h' := h.refresh
    exact h'.setPop (h'.look hempty _)
  | fastForward hp =>
    rw [hp] at hpop
    exact h.setRead hpop.1
  | retry hp hodd => exact h.setPop trivial
  | loadGen hp heven =>
    rw [hp] at hpop
    exact h.setPop hpop
  | getSize hp =>
    rw [hp] at hpop
    exact h.setPop hpop
  | getByte hp hlt =>
    rw [hp] at hpop
    exact h.setPop hpop
  | torn hp hle hgen => exact h.setPop trivial
  | whole hp hle hgen =>
    rw [hp] at hpop
    exact h.setPop hpop
  | store hp =>
    rw [hp] at hpop
    exact h.setRead hpop
  | relocate hp => exact h.refresh.setPop (h.relocated hp hok)
  | storeLost hp =>
    rw [hp] at hpop
    exact h.setRead hpop.1

theorem pastFirstLap_of_idle (h : s.pop = .idle) : PastFirstLap s .consumer := by
  intro hrelocating
  rw [h] at hrelocating
  cases hrelocating

theorem Tracks.step (h : Tracks s) (hok : PastFirstLap s l) (hstep : step s l = some (u, o)) :
    Tracks u := by
  rcases step_moves hstep with ⟨a, hm, -⟩ | ⟨hm, rfl | hidle⟩
  · exact h.pushMoves hm
  · exact h.popMoves hm hok
  · exact h.popMoves hm (pastFirstLap_of_idle hidle)

end Step

/-! ### Every interleaving -/

section Run

variable {c m : UInt32} {seg : Segment} {os o : List Event} {s u : State} {l : Label}

theorem tracks_init (hc : create c m = some seg) : Tracks (init seg) := by
  have hcb := cb_of_create hc
  refine ⟨rfl, rfl, ?_, Nat.le_refl _, trivial⟩
  show seg.cb.readPos ≤ seg.cb.writePos
  rw [hcb]

/-- The next step of the consumer moves the read position from `r` to `r'`. -/
def Reads (s : State) (r r' : Nat) (o : List Event) : Prop :=
  s.cons.readPos = r ∧ (stepPop s).map (fun q => (q.1.cons.readPos, q.2)) = some (r', o)

instance decidableReads (s : State) (r r' : Nat) (o : List Event) : Decidable (Reads s r r' o) :=
  inferInstanceAs (Decidable (_ ∧ _))

theorem Reads.step {r r' : Nat} (h : Reads s r r' o) :
    ∃ u, step s .consumer = some (u, o) ∧ s.cons.readPos = r ∧ u.cons.readPos = r' := by
  obtain ⟨hr, hmap⟩ := h
  obtain ⟨⟨u, o'⟩, hstep, heq⟩ := Option.map_eq_some_iff.mp hmap
  obtain ⟨rfl, rfl⟩ := Prod.mk.inj heq
  exact ⟨u, hstep, hr, rfl⟩

end Run

end HftComponents.Spsc.Lossy
