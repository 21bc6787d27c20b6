import Mathlib.Algebra.BigOperators.Group.Finset.Piecewise
import HftComponents.Timer.Wheel.Cascades

/-!
# The cascades of a run

`height` counts the levels that the entries may still go down.  Where every delay
is below `2 ^ 26` each move lowers it (`Tracked.height_cascades`), and an
insertion raises it by `3` at most, so there are never more than three moves for
an insertion.

`Accounted` is what a step of the wheel keeps, and `cascades_bounded` what every
state of every run has: the bound on each timer, and with short delays the one on
the moves.  `stats_.cascades` counts the moves as long as every slot that is
cascaded holds fewer than `2 ^ 31` entries: `cascade` counts them in an `int`
(`cascades_overflow`).
-/

namespace HftComponents.Timer.Wheel

namespace TimerWheel

variable {κ : Type} {w w' : TimerWheel κ}

/-- The levels that the entries of the wheel may still go down. -/
def height (w : TimerWheel κ) : Nat := ∑ p, p.level.index * (w.slots p).length

theorem height_congr (h : w'.slots = w.slots) : w'.height = w.height := by
  rw [height, height, h]

theorem height_le (h : ∀ p, (w'.slots p).length ≤ (w.slots p).length) : w'.height ≤ w.height :=
  Finset.sum_le_sum fun p _ => Nat.mul_le_mul_left _ (h p)

theorem height_insert (e : Entry κ) :
    (w.insert e).height = w.height + (placeOf w.jiffies e.expiryTick).level.index := by
  have hterm : ∀ p : Place, p.level.index * ((w.insert e).slots p).length =
      p.level.index * (w.slots p).length +
        if p = placeOf w.jiffies e.expiryTick then p.level.index else 0 := by
    intro p
    show p.level.index * (Function.update w.slots _ _ p).length = _
    by_cases hp : p = placeOf w.jiffies e.expiryTick
    · subst hp
      rw [Function.update_self, if_pos rfl, List.length_append, List.length_singleton,
        Nat.mul_succ]
    · rw [Function.update_of_ne hp, if_neg hp, Nat.add_zero]
  rw [height, Finset.sum_congr rfl fun p _ => hterm p, Finset.sum_add_distrib,
    Finset.sum_ite_eq' Finset.univ, if_pos (Finset.mem_univ _)]
  rfl

theorem height_swapOut (p : Place) :
    (w.swapOut p).height + p.level.index * (w.slots p).length = w.height := by
  have hterm : ∀ q : Place, q.level.index * (w.slots q).length =
      q.level.index * ((w.swapOut p).slots q).length +
        if q = p then q.level.index * (w.slots q).length else 0 := by
    intro q
    show _ = q.level.index * (Function.update w.slots p [] q).length + _
    by_cases hq : q = p
    · subst hq
      rw [Function.update_self, if_pos rfl, List.length_nil, Nat.mul_zero, Nat.zero_add]
    · rw [Function.update_of_ne hq, if_neg hq, Nat.add_zero]
  symm
  rw [height, Finset.sum_congr rfl fun q _ => hterm q, Finset.sum_add_distrib,
    Finset.sum_ite_eq' Finset.univ, if_pos (Finset.mem_univ _)]
  rfl

theorem index_le_three (l : Level) : l.index ≤ 3 := by cases l <;> decide

theorem height_foldl_reinsert {l : Level} (moved : List (Node κ)) {w : TimerWheel κ}
    (h : ∀ n ∈ moved, (placeOf w.jiffies n.entry.expiryTick).level.index < l.index) :
    moved.length + (moved.foldl reinsert w).height ≤ w.height + l.index * moved.length := by
  induction moved generalizing w with
  | nil => simp
  | cons n rest ih =>
    have hone := h n List.mem_cons_self
    have hrest := ih (w := w.reinsert n) fun m hm => h m (List.mem_cons_of_mem n hm)
    have hheight : (w.reinsert n).height = w.height + _ := height_insert n.entry
    rw [hheight] at hrest
    rw [List.foldl_cons, List.length_cons, Nat.mul_succ]
    simp only [eraseId_jiffies] at hrest
    omega

theorem foldl_reinsert_stats (moved : List (Node κ)) (w : TimerWheel κ) :
    (moved.foldl reinsert w).stats = w.stats := by
  induction moved generalizing w with
  | nil => rfl
  | cons n rest ih => exact ih (w.reinsert n)

theorem length_reinsertMoves (p : Place) (moved : List (Node κ)) (w : TimerWheel κ) :
    (reinsertMoves p w moved).length = moved.length := by
  induction moved generalizing w with
  | nil => rfl
  | cons n rest ih => exact congrArg (· + 1) (ih (w.reinsert n))

/-- What `cascade` adds for a slot of `n` entries is `n`, if that fits an `int`. -/
theorem count_of_lt {n : Nat} (h : n < 2 ^ 31) :
    (Int32.ofNat n).toInt64.toUInt64 = UInt64.ofNat n := by
  rw [Int32.toInt64_ofNat' (by rw [Int32.toInt_maxValue]; omega), Int64.toUInt64_ofNat']

/-- The slots that are cascaded have sizes that fit an `int`. -/
def SizesFit (w : TimerWheel κ) (ls : List Level) : Prop :=
  ∀ l ∈ ls, (w.slots ⟨l, l.slotOf w.jiffies⟩).length < 2 ^ 31

/-- The same for the next tick. -/
def TurnFits (w : TimerWheel κ) : Prop :=
  SizesFit { w with jiffies := w.jiffies + 1 } (cascaded (w.jiffies + 1))

theorem stats_cascade (w : TimerWheel κ) (l : Level) :
    (w.cascade l).stats.cascades = w.stats.cascades +
      (Int32.ofNat (cascadeMoves w l).length).toInt64.toUInt64 := by
  rw [cascadeMoves, length_reinsertMoves]
  show (List.foldl reinsert _ _).stats.cascades + _ = _
  rw [foldl_reinsert_stats]
  rfl

theorem length_slots_cascade (hplaced : AllPlaced w) {l l' : Level}
    (hl' : l' ∈ cascaded w.jiffies) (hne : l' ≠ l) :
    ((w.cascade l).slots ⟨l', l'.slotOf w.jiffies⟩).length =
      (w.slots ⟨l', l'.slotOf w.jiffies⟩).length := by
  have hsame : (w.cascade l).contents ⟨l', l'.slotOf w.jiffies⟩ =
      w.contents ⟨l', l'.slotOf w.jiffies⟩ := by
    rw [contents_cascade]
    exact moveDown_visited hplaced.contents hl' hne
  simpa [contents] using congrArg Multiset.card hsame

theorem stats_cascades {ls : List Level} {w : TimerWheel κ} (hplaced : AllPlaced w)
    (hall : ∀ k ∈ ls, k ∈ cascaded w.jiffies) (hnodup : ls.Nodup) (hfits : SizesFit w ls) :
    (ls.foldl cascade w).stats.cascades =
      w.stats.cascades + UInt64.ofNat (cascadesMoves w ls).length := by
  induction ls generalizing w with
  | nil => exact (UInt64.add_zero _).symm
  | cons l ls ih =>
    obtain ⟨hnot, hnodup⟩ := List.nodup_cons.mp hnodup
    have hone := stats_cascade w l
    have hlen : (cascadeMoves w l).length < 2 ^ 31 := by
      rw [cascadeMoves, length_reinsertMoves]
      exact hfits l List.mem_cons_self
    rw [count_of_lt hlen] at hone
    have hrest := ih (hplaced.cascade l)
      (by rw [cascade_jiffies]; exact fun k hk => hall k (List.mem_cons_of_mem l hk)) hnodup
      (by
        intro k hk
        rw [cascade_jiffies, length_slots_cascade hplaced (hall k (List.mem_cons_of_mem l hk))
          (by rintro rfl; exact hnot hk)]
        exact hfits k (List.mem_cons_of_mem l hk))
    rw [List.foldl_cons, hrest, hone, cascadesMoves, List.length_append, UInt64.ofNat_add,
      UInt64.add_assoc]

end TimerWheel

open TimerWheel

variable {κ : Type} {w w' : TimerWheel κ} {os : List (Shown κ)} {l : Level} {ls : List Level}

/-! ### Short delays -/

/-- Every timer is inserted with a delay below `2 ^ 26`. -/
def Short (os : List (Shown κ)) : Prop := ∀ a d, .inserted a d ∈ os → d.toNat < 2 ^ 26

theorem Short.left {o : List (Shown κ)} (h : Short (os ++ o)) : Short os :=
  fun a d hmem => h a d (List.mem_append_left _ hmem)

theorem Short.moved (h : Short os) (ms : List Move) : Short (os ++ ms.map .moved) := by
  intro a d hmem
  rcases List.mem_append.mp hmem with hmem | hmem
  · exact h a d hmem
  · obtain ⟨m, -, hm⟩ := List.mem_map.mp hmem
    cases hm

namespace Tracked

/-- With a short delay no visit leaves an entry on level `3`. -/
theorem lowers (h : Tracked os w (l :: ls)) (hshort : Short os) (hplaced : AllPlaced w)
    (hl : l ∈ cascaded w.jiffies) {n : Node κ} (hn : n ∈ w.slots ⟨l, l.slotOf w.jiffies⟩) :
    (placeOf w.jiffies n.entry.expiryTick).level.index < l.index := by
  obtain ⟨t, ht, -, hkeeps⟩ := h.live _ n hn
  have hvisit := (hkeeps l List.mem_cons_self rfl).delay
  obtain ⟨b, d, hmem, hd⟩ := h.delays _ t ht
  have hdelay := hshort b d hmem
  obtain ⟨hahead, hdown | ⟨rfl, htarget⟩⟩ := ahead_placeOf (hplaced _ n hn) hl
  · exact hdown
  · rw [htarget] at hahead
    simp only [Level.ahead] at hahead
    omega

theorem height_cascade (h : Tracked os w (l :: ls)) (hshort : Short os) (hplaced : AllPlaced w)
    (hl : l ∈ cascaded w.jiffies) :
    (cascadeMoves w l).length + (w.cascade l).height ≤ w.height := by
  have hout := height_swapOut (w := w) ⟨l, l.slotOf w.jiffies⟩
  have hback := height_foldl_reinsert (l := l) (w.slots ⟨l, l.slotOf w.jiffies⟩)
    (w := w.swapOut ⟨l, l.slotOf w.jiffies⟩) fun n hn => h.lowers hshort hplaced hl hn
  rw [cascadeMoves, length_reinsertMoves]
  refine hback.trans ?_
  rw [← hout]

theorem height_cascades {ls : List Level} {os : List (Shown κ)} {w : TimerWheel κ}
    (h : Tracked os w ls) (hshort : Short os) (hplaced : AllPlaced w)
    (hall : ∀ k ∈ ls, k ∈ cascaded w.jiffies) (hnodup : ls.Nodup) :
    (cascadesMoves w ls).length + (ls.foldl TimerWheel.cascade w).height ≤ w.height := by
  induction ls generalizing os w with
  | nil => exact (Nat.zero_add _).le
  | cons l ls ih =>
    have hone := h.height_cascade hshort hplaced (hall l List.mem_cons_self)
    have hrest := ih (h.cascade hplaced hall hnodup) (hshort.moved _) (hplaced.cascade l)
      (by rw [cascade_jiffies]; exact fun k hk => hall k (List.mem_cons_of_mem l hk))
      (List.nodup_cons.mp hnodup).2
    rw [cascadesMoves, List.length_append, List.foldl_cons]
    omega

end Tracked

/-! ### The account of a run -/

def insertions : List (Shown κ) → Nat :=
  List.countP fun
    | .inserted _ _ => true
    | _ => false

def movesIn : List (Shown κ) → Nat :=
  List.countP fun
    | .moved _ => true
    | _ => false

/-- No tick cascades a slot of `2 ^ 31` entries or more. -/
def SlotsFit (s : State κ) : Throwing.Label κ → Prop
  | .call .tick => TurnFits s.wheel
  | .call .next =>
    match s.control with
    | .advancing (_ + 1) _ => TurnFits s.wheel
    | _ => True
  | _ => True

/-- `fits` says that the slots that have been cascaded did. -/
structure Accounted (fits : Prop) (os : List (Shown κ)) (w : TimerWheel κ) : Prop where
  timely : Timely w
  tracked : Tracked os w []
  counted : fits → w.stats.cascades = UInt64.ofNat (movesIn os)
  paid : Short os → movesIn os + w.height ≤ 3 * insertions os

variable {fits : Prop}

@[simp] theorem insertions_append (os o : List (Shown κ)) :
    insertions (os ++ o) = insertions os + insertions o := List.countP_append

@[simp] theorem movesIn_append (os o : List (Shown κ)) :
    movesIn (os ++ o) = movesIn os + movesIn o := List.countP_append

@[simp] theorem insertions_events (es : List (Throwing.Event κ)) :
    insertions (es.map Shown.event) = 0 := by
  rw [insertions, List.countP_map, List.countP_eq_zero]
  exact fun _ _ => Bool.false_ne_true

@[simp] theorem movesIn_events (es : List (Throwing.Event κ)) :
    movesIn (es.map Shown.event) = 0 := by
  rw [movesIn, List.countP_map, List.countP_eq_zero]
  exact fun _ _ => Bool.false_ne_true

@[simp] theorem insertions_moved (ms : List Move) :
    insertions (ms.map Shown.moved : List (Shown κ)) = 0 := by
  rw [insertions, List.countP_map, List.countP_eq_zero]
  exact fun _ _ => Bool.false_ne_true

@[simp] theorem movesIn_moved (ms : List Move) :
    movesIn (ms.map Shown.moved : List (Shown κ)) = ms.length := by
  rw [movesIn, List.countP_map, List.countP_eq_length]
  exact fun _ _ => rfl

namespace Accounted

theorem init : Accounted fits ([] : List (Shown κ)) {} where
  timely := Sound.init.timely
  tracked := ⟨fun _ _ => rfl, fun _ _ hn => absurd hn List.not_mem_nil, nofun, nofun, nofun⟩
  counted := fun _ => rfl
  paid := by
    intro _
    have hzero : ({} : TimerWheel κ).height = 0 := Finset.sum_eq_zero fun p _ => Nat.mul_zero _
    rw [hzero]
    exact le_rfl

theorem events (h : Accounted fits os w) (es : List (Throwing.Event κ)) :
    Accounted fits (os ++ es.map .event) w where
  timely := h.timely
  tracked := h.tracked.events es
  counted := by
    rw [movesIn_append, movesIn_events, Nat.add_zero]
    exact h.counted
  paid := by
    intro hshort
    rw [movesIn_append, movesIn_events, insertions_append, insertions_events]
    exact h.paid hshort.left

theorem of_sublist (h : Accounted fits os w) (hs : ∀ p, (w'.slots p).Sublist (w.slots p))
    (hj : w'.jiffies = w.jiffies) (hn : w'.nextAddr = w.nextAddr)
    (hc : w'.stats.cascades = w.stats.cascades) : Accounted fits os w' where
  timely := by
    intro p n hmem
    rw [hj]
    exact h.timely p n ((hs p).subset hmem)
  tracked := h.tracked.of_sub (fun p _ hmem => (hs p).subset hmem) hj hn
  counted := fun hfits => hc.trans (h.counted hfits)
  paid := by
    intro hshort
    have hle : w'.height ≤ w.height := height_le fun p => (hs p).length_le
    have hpaid := h.paid hshort
    omega

theorem inserted (h : Accounted fits os w) {e : Entry κ} {d : UInt64} (hd : 0 < d.toNat)
    (he : e.expiryTick = w.jiffies + d) (hslots : w'.slots = (w.insert e).slots)
    (hj : w'.jiffies = w.jiffies) (hn : w'.nextAddr = w.nextAddr + 1)
    (hc : w'.stats.cascades = w.stats.cascades) :
    Accounted fits (os ++ [.inserted w.nextAddr d]) w' where
  timely := by
    intro p n hmem
    rw [hslots] at hmem
    rw [hj]
    exact h.timely.insert (by rw [he, remaining_add]; exact hd) p n hmem
  tracked := h.tracked.inserted he hslots hj hn
  counted := by
    intro hfits
    rw [movesIn_append]
    exact hc.trans (h.counted hfits)
  paid := by
    intro hshort
    have hpaid := h.paid hshort.left
    have hheight := (height_congr hslots).trans (height_insert e)
    have hindex := index_le_three (placeOf w.jiffies e.expiryTick).level
    rw [hheight, movesIn_append, insertions_append]
    show movesIn os + 0 + _ ≤ 3 * (insertions os + 1)
    omega

theorem add (h : Accounted fits os w) {d i : UInt64} {cb : κ} (hd : 0 < d.toNat) :
    Accounted fits (os ++ [.inserted w.nextAddr d]) (w.add d i cb).2 :=
  h.inserted (e := ⟨w.nextId, w.jiffies + d, i, cb⟩) hd rfl rfl rfl rfl rfl

theorem turn (h : Accounted fits os w) (hturn : fits → TurnFits w) :
    Tracked (os ++ (turnMoves w).map .moved) w.turn [] ∧
      (fits → w.turn.stats.cascades = UInt64.ofNat (movesIn os + (turnMoves w).length)) ∧
      (Short os → movesIn os + (turnMoves w).length + w.turn.height ≤ 3 * insertions os) := by
  have hstart := h.tracked.advance h.timely (cascaded (w.jiffies + 1))
  have hplaced : AllPlaced { w with jiffies := w.jiffies + 1 } :=
    fun p n hn => (h.timely p n hn).placed_succ
  rw [turn_eq_foldl]
  refine ⟨hstart.cascades hplaced (fun _ hk => hk) (nodup_cascaded _), ?_, ?_⟩
  · intro hfits
    rw [stats_cascades hplaced (fun _ hk => hk) (nodup_cascaded _) (hturn hfits),
      UInt64.ofNat_add, ← h.counted hfits]
    rfl
  · intro hshort
    have hpaid := h.paid hshort
    have hheight := hstart.height_cascades hshort hplaced (fun _ hk => hk) (nodup_cascaded _)
    have hsame : height { w with jiffies := w.jiffies + 1 } = w.height := height_congr rfl
    rw [turnMoves]
    omega

theorem swapped (h : Accounted fits os w) (hturn : fits → TurnFits w) :
    Accounted fits (os ++ (turnMoves w).map .moved) (w.turn.swapOut w.turn.currentPlace) := by
  obtain ⟨htracked, hcounted, hpaid⟩ := h.turn hturn
  have hsub : ∀ p, ((w.turn.swapOut w.turn.currentPlace).slots p).Sublist (w.turn.slots p) := by
    intro p
    show (Function.update w.turn.slots w.turn.currentPlace [] p).Sublist _
    by_cases hp : p = w.turn.currentPlace
    · rw [hp, Function.update_self]
      exact List.nil_sublist _
    · rw [Function.update_of_ne hp]
  refine ⟨(turn_spec h.timely).2, htracked.of_sub (fun p _ hn => (hsub p).subset hn) rfl rfl, ?_, ?_⟩
  · rw [movesIn_append, movesIn_moved]
    exact hcounted
  · intro hshort
    have hle := height_le (w := w.turn) fun p => (hsub p).length_le
    have hpaid' := hpaid hshort.left
    rw [movesIn_append, movesIn_moved, insertions_append, insertions_moved]
    omega

theorem fireNext_stats (w : TimerWheel κ) (caller : Caller) (count : Nat) (list : List (Node κ)) :
    (Wheel.fireNext w caller count list).1.wheel.stats = w.stats := by
  cases list with
  | nil => cases caller <;> rfl
  | cons n rest => rfl

theorem fireNext (h : Accounted fits os w) (caller : Caller) (count : Nat) (list : List (Node κ)) :
    Accounted fits os (Wheel.fireNext w caller count list).1.wheel := by
  cases list with
  | nil => cases caller <;> exact h
  | cons n rest => exact h.of_sublist (fun p => List.Sublist.refl _) rfl rfl rfl

theorem cancel (h : Accounted fits os w) {id : TimerID} {found : Bool}
    (hcan : w.cancel id = some (found, w')) : Accounted fits os w' := by
  rw [TimerWheel.cancel] at hcan
  split at hcan
  · obtain ⟨-, rfl⟩ := Prod.mk.inj (Option.some.inj hcan)
    exact h
  · rename_i loc _
    split at hcan
    · obtain ⟨-, rfl⟩ := Prod.mk.inj (Option.some.inj hcan)
      refine h.of_sublist ?_ rfl rfl rfl
      intro p
      show (Function.update w.slots loc.place _ p).Sublist _
      by_cases hp : p = loc.place
      · rw [hp, Function.update_self]
        exact List.eraseP_sublist
      · rw [Function.update_of_ne hp]
    · cases hcan

theorem afterCallback (h : Accounted fits os w) (e : Entry κ) :
    Accounted fits (os ++ if e.intervalTicks ≠ 0 then [.inserted w.nextAddr e.intervalTicks] else [])
      (w.afterCallback e) := by
  rw [TimerWheel.afterCallback]
  split_ifs with hi
  · refine h.inserted (e := { e with expiryTick := w.jiffies + e.intervalTicks }) ?_ rfl rfl rfl rfl
      rfl
    exact Nat.pos_of_ne_zero fun h0 => hi (UInt64.toNat_inj.mp h0)
  · rw [List.append_nil]
    exact h.of_sublist (fun p => List.Sublist.refl _) rfl rfl rfl

end Accounted

/-- **One step keeps the account.** -/
theorem accounted_step {s t : State κ} {l : Throwing.Label κ} {o : List (Shown κ)}
    (h : Accounted fits os s.wheel) (hok : fits → SlotsFit s l)
    (hstep : (watched κ).step s l = some (t, o)) : Accounted fits (os ++ o) t.wheel := by
  obtain ⟨⟨u, es⟩, hthrow, heq⟩ := Option.map_eq_some_iff.mp hstep
  obtain ⟨rfl, rfl⟩ := Prod.mk.inj heq
  rw [← List.append_assoc]
  refine Accounted.events ?_ es
  rcases Throwing.step_cases hthrow with ⟨k, es', rfl, hk, -⟩ | ⟨rfl, rfl, -⟩
  · cases step_moves hk with
    | schedule _ d cb =>
      rw [schedule_eq]
      exact h.add (by rw [toNat_atLeastOne]; omega)
    | schedulePeriodic _ i cb =>
      rw [schedulePeriodic_eq]
      exact h.add (by rw [toNat_atLeastOne]; omega)
    | cancel _ hcan =>
      show Accounted fits (os ++ []) _
      rw [List.append_nil]
      exact h.cancel hcan
    | tick w =>
      show Accounted fits (os ++ ((turnMoves w).map .moved ++ [])) _
      rw [List.append_nil, tick_eq]
      exact (h.swapped hok).fireNext _ _ _
    | advanceTick w =>
      show Accounted fits (os ++ ((turnMoves w).map .moved ++ [])) _
      rw [List.append_nil, tick_eq]
      exact (h.swapped hok).fireNext _ _ _
    | ret w caller count e rest => exact (h.afterCallback e).fireNext _ _ _
    | _ =>
      show Accounted fits (os ++ []) _
      rw [List.append_nil]
      exact h
  · show Accounted fits (os ++ []) _
    rw [List.append_nil]
    exact h

theorem accounted_run {ok : State κ → Throwing.Label κ → Prop} {s : State κ}
    (hok : ∀ s l, ok s l → fits → SlotsFit s l)
    (h : Lib.Machine.Run (watched κ) ok init os s) : Accounted fits os s.wheel := by
  refine h.invariant (P := fun os s => Accounted fits os s.wheel) .init ?_
  intro os s l t o hacc hl hstep
  exact accounted_step hacc (hok s l hl) hstep

/-- **Every timer is cascaded `3 + delay / 2 ^ 26` times at most**, and where the
delays are below `2 ^ 26` there are at most three moves for an insertion.  As long as
the size of each cascaded slot fits an `int`, `stats_.cascades` counts the moves. -/
theorem cascades_bounded {s : State κ}
    (h : Lib.Machine.Run (watched κ) Lib.Machine.anyStep init os s) :
    (∀ p, ∀ n ∈ s.wheel.slots p, ∃ t, tracks os n.addr = some t) ∧
      (∀ m, .moved m ∈ os → ∃ t, tracks os m.copy = some t ∧ t.moves.head? = some m) ∧
      (∀ a t, tracks os a = some t → t.Bounded) ∧
      (Short os → movesIn os ≤ 3 * insertions os) ∧
      (Lib.Machine.Run (watched κ) SlotsFit init os s →
        s.wheel.stats.cascades = UInt64.ofNat (movesIn os) ∧
          (Short os → s.wheel.stats.cascades.toNat ≤ 3 * insertions os)) := by
  have hacc : Accounted False os s.wheel := accounted_run (fun _ _ _ => False.elim) h
  have hmoves : Short os → movesIn os ≤ 3 * insertions os := by
    intro hshort
    have hpaid := hacc.paid hshort
    omega
  refine ⟨?_, hacc.tracked.shown, hacc.tracked.bounded, hmoves, fun hfit => ?_⟩
  · intro p n hn
    obtain ⟨t, ht, -⟩ := hacc.tracked.live p n hn
    exact ⟨t, ht⟩
  · have hcount : Accounted True os s.wheel := accounted_run (fun _ _ hl _ => hl) hfit
    refine ⟨hcount.counted trivial, fun hshort => ?_⟩
    rw [hcount.counted trivial, UInt64.toNat_ofNat']
    exact (Nat.mod_le _ _).trans (hmoves hshort)

/-! ### Many timers in one slot -/

theorem watched_ticks {ok : State κ → Throwing.Label κ → Prop} {s t : State κ}
    {es : List (Throwing.Event κ)}
    (h : Lib.Machine.Run (Throwing.machine κ) (fun s l => l = .call .tick ∧ ok s l) s es t) :
    ∃ os, Lib.Machine.Run (watched κ) ok s os t ∧ ∀ a d, .inserted a d ∉ os := by
  induction h with
  | refl => exact ⟨[], .refl s, nofun⟩
  | @step t u es e l prior hl hstep ih =>
    obtain ⟨os, hrun, hnone⟩ := ih
    obtain ⟨rfl, hok⟩ := hl
    have hwatched : (watched κ).step t (.call .tick) =
        some (u, (turnMoves t.wheel).map .moved ++ [] ++ e.map .event) := by
      show (Throwing.step t (.call .tick)).map _ = _
      rw [show Throwing.step t (.call .tick) = some (u, e) from hstep]
      rfl
    exact ⟨_, hrun.step hok hwatched, by simp [hnone]⟩

/-- `n` timers have been scheduled for the first boundary. -/
structure Queued (n : Nat) (os : List (Shown κ)) (w : TimerWheel κ) : Prop where
  jiffies : w.jiffies = 0
  cascades : w.stats.cascades = 0
  none : ∀ p, p ≠ placeOf 0 256 → w.slots p = []
  length : (w.slots (placeOf 0 256)).length = n
  insertions : insertions os = n
  short : Short os

theorem Queued.schedule {n : Nat} (h : Queued n os w) (cb : κ) {e : Throwing.Event κ} :
    Queued (n + 1) (os ++ [.inserted w.nextAddr 256, .event e]) (w.schedule 256 cb).2 := by
  have hslots : (w.schedule 256 cb).2.slots = Function.update w.slots (placeOf 0 256)
      (w.slots (placeOf 0 256) ++ [⟨w.nextAddr, w.nextId, w.jiffies + 256, 0, cb⟩]) := by
    show Function.update w.slots (placeOf w.jiffies (w.jiffies + 256)) _ = _
    rw [h.jiffies]
    rfl
  refine ⟨h.jiffies, h.cascades, ?_, ?_, ?_, ?_⟩
  · intro p hp
    rw [hslots, Function.update_of_ne hp]
    exact h.none p hp
  · rw [hslots, Function.update_self, List.length_append, h.length, List.length_singleton]
  · rw [insertions_append, h.insertions]
    rfl
  · intro a d hmem
    rcases List.mem_append.mp hmem with hmem | hmem
    · exact h.short a d hmem
    · simp only [List.mem_cons, Shown.inserted.injEq, reduceCtorEq, List.not_mem_nil, or_false]
        at hmem
      rw [hmem.2]
      decide

theorem run_schedules (ok : State κ → Throwing.Label κ → Prop) (cb : κ)
    (hok : ∀ s, ok s (.call (.schedule 256 cb))) (n : Nat) :
    ∃ os w, Lib.Machine.Run (watched κ) ok init os ⟨w, .idle⟩ ∧ Queued n os w := by
  induction n with
  | zero => exact ⟨[], {}, .refl _, rfl, rfl, fun _ _ => rfl, rfl, rfl, nofun⟩
  | succ n ih =>
    obtain ⟨os, w, hrun, hq⟩ := ih
    exact ⟨_, _, hrun.step (hok _) rfl, hq.schedule cb⟩

/-- The ticks before the first boundary do not visit them. -/
theorem Queued.not_visited {n : Nat} (h : Queued n os w) {i : Nat} (hi : i < 256) {p : Place}
    (hp : Visits (UInt64.ofNat i) p) : w.slots p = [] := by
  refine h.none p (ne_of_visits (l := .l1) hp (by decide) ?_)
  have hval : (UInt64.ofNat i).toNat = i := by
    rw [UInt64.toNat_ofNat']
    exact Nat.mod_eq_of_lt (by omega)
  have hslots : Level.l1.slots.toNat = 64 := rfl
  rw [hval, hslots, show (256 : UInt64).toNat = 256 from rfl]
  simp only [Level.grain]
  omega

/-- ... and the boundary moves them all. -/
theorem Queued.tick {n : Nat} (h : Queued n os w) :
    (tick { w with jiffies := 255 } .user).1.wheel.stats.cascades =
      (Int32.ofNat n).toInt64.toUInt64 := by
  rw [tick_eq]
  dsimp only
  rw [Accounted.fireNext_stats]
  show ({ w with jiffies := 255 } : TimerWheel κ).turn.stats.cascades = _
  have hone : cascaded ((255 : UInt64) + 1) = [.l1] := by decide
  rw [turn_eq_foldl, hone]
  show (TimerWheel.cascade { w with jiffies := 256 } .l1).stats.cascades = _
  rw [stats_cascade, cascadeMoves, length_reinsertMoves]
  show w.stats.cascades + (Int32.ofNat (w.slots (placeOf 0 256)).length).toInt64.toUInt64 = _
  rw [h.cascades, h.length, UInt64.zero_add]

/-- **The timers of one slot** are cascaded together, and counted as an `int`. -/
theorem run_many (n : Nat) : ∃ (s : State Nat) (os : List (Shown Nat)),
    Lib.Machine.Run (watched Nat) (fun s l => n < 2 ^ 31 → SlotsFit s l) init os s ∧
      Short os ∧ insertions os = n ∧
      s.wheel.stats.cascades = (Int32.ofNat n).toInt64.toUInt64 := by
  obtain ⟨os, w, hrun, hq⟩ := run_schedules (κ := Nat)
    (fun s l => n < 2 ^ 31 → SlotsFit s l) 7 (fun _ _ => trivial) n
  have hfits : ∀ j, n < 2 ^ 31 → TurnFits { w with jiffies := j } := by
    intro j hn l _
    show (w.slots _).length < 2 ^ 31
    by_cases hp : (⟨l, l.slotOf (j + 1)⟩ : Place) = placeOf 0 256
    · rw [hp, hq.length]
      exact hn
    · rw [hq.none _ hp]
      decide
  obtain ⟨es, hquiet⟩ := run_quiet (w := w) (j := 0)
    (fun s l => l = .call .tick ∧ (n < 2 ^ 31 → SlotsFit s l)) hq.jiffies 255
    (fun i _ => ⟨rfl, hfits _⟩) fun i hi p hp => hq.not_visited (by omega) hp
  have htick : step ⟨{ w with jiffies := UInt64.ofNat (0 + 255) }, .idle⟩ .tick =
    some (tick { w with jiffies := UInt64.ofNat (0 + 255) } .user) := rfl
  obtain ⟨os', hticks, hnone⟩ :=
    watched_ticks (hquiet.step ⟨rfl, hfits _⟩ (Throwing.step_call htick))
  have hzero : insertions os' = 0 := by
    refine List.countP_eq_zero.mpr fun e he => ?_
    cases e with
    | inserted a d => exact absurd he (hnone a d)
    | _ => exact Bool.false_ne_true
  refine ⟨_, _, hrun.trans hticks, ?_, ?_, ?_⟩
  · intro a d hmem
    rcases List.mem_append.mp hmem with hmem | hmem
    · exact hq.short a d hmem
    · exact absurd hmem (hnone a d)
  · rw [insertions_append, hq.insertions, hzero, Nat.add_zero]
  · exact hq.tick

/-- Three timers, moved from level `1` at the tick that fires them. -/
theorem cascades_bounded_many :
    ∃ (s : State Nat) (os : List (Shown Nat)),
      Lib.Machine.Run (watched Nat) SlotsFit init os s ∧
      s.wheel.stats.cascades = 3 ∧ insertions os = 3 ∧
      (∀ a t, tracks os a = some t → t.Bounded) ∧
      s.wheel.stats.cascades.toNat ≤ 3 * insertions os := by
  obtain ⟨s, os, hrun, hshort, hins, hcount⟩ := run_many 3
  have hfit : Lib.Machine.Run (watched Nat) SlotsFit init os s :=
    hrun.imp (I := fun _ => True) trivial (fun _ _ _ _ _ _ => trivial)
      fun _ _ _ hl => hl (by decide)
  have hany : Lib.Machine.Run (watched Nat) Lib.Machine.anyStep init os s :=
    hrun.imp (I := fun _ => True) trivial (fun _ _ _ _ _ _ => trivial) fun _ _ _ _ => trivial
  obtain ⟨-, -, htracks, -, hbound⟩ := cascades_bounded hany
  exact ⟨s, os, hfit, hcount.trans (by decide), hins, htracks, (hbound hfit).2 hshort⟩

/-- **`2 ^ 31` timers in one slot.**  The cast to `int` makes their number negative,
and the counter jumps to `2 ^ 64 - 2 ^ 31`. -/
theorem cascades_overflow :
    ∃ (s : State Nat) (os : List (Shown Nat)),
      Lib.Machine.Run (watched Nat) Lib.Machine.anyStep init os s ∧ Short os ∧
      3 * insertions os < s.wheel.stats.cascades.toNat := by
  obtain ⟨s, os, hrun, hshort, hins, hcount⟩ := run_many (2 ^ 31)
  refine ⟨s, os, ?_, hshort, ?_⟩
  · exact hrun.imp (I := fun _ => True) trivial (fun _ _ _ _ _ _ => trivial)
      fun _ _ _ _ => trivial
  · rw [hins, hcount]
    decide

end HftComponents.Timer.Wheel
