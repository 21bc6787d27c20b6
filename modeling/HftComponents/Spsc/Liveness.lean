import HftComponents.Spsc.Blocking

/-!
# Asking after the peer in a long wait

`push_checked` and `pop_checked` count their failed attempts in an `int`.
`machine` is `Blocking` with this counter: the attempt that would take it past
`INT_MAX` is undefined.

As long as a wait has had fewer than `2 ^ 31` failed attempts, the other process
is asked after at each `check_every`-th of them and at no other, and its death is
noticed after `check_every` more at the latest (`Watched`).  `watched_iff` says
that the bound is exact, and `run_waits` that a wait for a peer that is alive and
does nothing gets there.
-/

namespace HftComponents.Spsc.Liveness

open Blocking PopChecked

/-- `INT_MAX`. -/
def kIntMax : Nat := 2147483647

/-! ### The counter -/

/-- A call as its loop sees it: the `check_every` of a checked one, the counter,
and whether the peer is asked after next. -/
inductive Loop
  | idle
  | on (checkEvery : Option Nat) (spins : Nat) (due : Bool)

def pushEvery : PushKind → Option Nat
  | .pushChecked checkEvery => some checkEvery
  | _ => none

def popEvery : PopKind → Option Nat
  | .popChecked checkEvery => some checkEvery
  | _ => none

def pushLoop : Push → Loop
  | .idle => .idle
  | .attempt p | .trying p => .on (pushEvery p.kind) p.spins false
  | .status p => .on (pushEvery p.kind) p.spins true

def popLoop : Pop → Loop
  | .idle => .idle
  | .attempt p | .trying p => .on (popEvery p.kind) p.spins false
  | .status p => .on (popEvery p.kind) p.spins true

def Loop.spins : Loop → Nat
  | .idle => 0
  | .on _ spins _ => spins

def Loop.due : Loop → Bool
  | .idle => false
  | .on _ _ due => due

inductive State
  | defined (s : Blocking.State)
  | undefined

/-- The counters are values of an `int`. -/
def Fits (s : Blocking.State) : Prop :=
  (pushLoop s.push).spins ≤ kIntMax ∧ (popLoop s.pop).spins ≤ kIntMax

instance (s : Blocking.State) : Decidable (Fits s) := inferInstanceAs (Decidable (_ ∧ _))

/-- A step, and what it has shown. -/
abbrev Shown := Blocking.Label × List Blocking.Event

def step : State → Blocking.Label → Option (State × List Shown)
  | .defined s, l => (Blocking.step s l).map fun p =>
      (if Fits p.1 then .defined p.1 else .undefined, [(l, p.2)])
  | .undefined, _ => none

def machine : Lib.Machine State Blocking.Label Shown := ⟨step⟩

def init (seg : Segment) : State := .defined (Blocking.init seg)

/-! ### The last wait of a run -/

/-- What the last call of one side has done: its failed attempts, and the checks
by the number of failed attempts before them. -/
structure Wait where
  checkEvery : Option Nat := none
  failed : Nat := 0
  checks : List (Nat × PeerStatus) := []

inductive Note
  | began (checkEvery : Option Nat)
  | failed
  | checked (st : PeerStatus)

def Wait.note (w : Wait) : Note → Wait
  | .began checkEvery => { checkEvery := checkEvery }
  | .failed => { w with failed := w.failed + 1 }
  | .checked st => { w with checks := (w.failed, st) :: w.checks }

def pushNotes : Shown → List Note
  | (.push kind _, _) => [.began (pushEvery kind)]
  | (.producer, o) => o.filterMap fun
      | .failed => some .failed
      | _ => none
  | (.consumerStatus st, _) => [.checked st]
  | _ => []

def popNotes : Shown → List Note
  | (.pop kind _, _) => [.began (popEvery kind)]
  | (.consumer, o) => o.filterMap fun
      | .zero => some .failed
      | _ => none
  | (.producerStatus st, _) => [.checked st]
  | _ => []

def pushWait (os : List Shown) : Wait := (os.flatMap pushNotes).foldl Wait.note {}

def popWait (os : List Shown) : Wait := (os.flatMap popNotes).foldl Wait.note {}

/-- The checks of a wait are right, one of them being `due`. -/
structure Polls (checkEvery : Nat) (w : Wait) (due : Bool) : Prop where
  every : ∀ k, 0 < k → k ≤ w.failed → checkEvery ∣ k →
    (∃ st, (k, st) ∈ w.checks) ∨ k = w.failed ∧ due = true
  only : ∀ k st, (k, st) ∈ w.checks → 0 < k ∧ k ≤ w.failed ∧ checkEvery ∣ k
  last : ∀ k, (k, .dead) ∈ w.checks → k = w.failed ∧ due = false

/-- A peer that is dead from the failed attempt `j` on ends the wait. -/
def Wait.Notices (w : Wait) (checkEvery : Nat) : Prop :=
  ∀ j, (∀ k st, (k, st) ∈ w.checks → j < k → st = .dead) → w.failed ≤ j + checkEvery

/-- What is asked of a call with liveness checks. -/
def Wait.Watched (w : Wait) (due : Bool) : Prop :=
  ∀ c, w.checkEvery = some c → Polls c w due ∧ w.Notices c

/-- A call with liveness checks has had fewer than `2 ^ 31` failed attempts. -/
def Wait.Short (w : Wait) : Prop := w.checkEvery ≠ none → w.failed < 2 ^ 31

/-! ### One step of a loop -/

variable {w : Wait} {v v' : Loop} {c : Nat} {due : Bool} {ns : List Note}

theorem Polls.notices (h : Polls c w due) (hc : 0 < c) : w.Notices c := by
  intro j hdead
  by_contra hlate
  -- the first multiple of `check_every` past `j`
  have hmod := Nat.div_add_mod j c
  have hlt := Nat.mod_lt j hc
  have hk : j < c * (j / c + 1) ∧ c * (j / c + 1) ≤ j + c := by
    rw [Nat.mul_succ]
    omega
  obtain ⟨hjk, hkj⟩ := hk
  rcases h.every (c * (j / c + 1)) (by omega) (by omega) (Nat.dvd_mul_right _ _) with
    ⟨st, hst⟩ | ⟨heq, -⟩
  · obtain rfl := hdead _ st hst hjk
    obtain ⟨heq, -⟩ := h.last _ hst
    omega
  · omega

/-- The steps of a loop, with what is noted of them. -/
inductive Turns : Loop → List Note → Loop → Prop
  | stay (v : Loop) : Turns v [] v
  | began {k : Option Nat} (hk : k ≠ some 0) : Turns .idle [.began k] (.on k 0 false)
  | failed (c n : Nat) : Turns (.on (some c) n false) [.failed]
      (.on (some c) (n + 1) (decide ((n + 1) % c = 0)))
  | uncounted (n : Nat) : Turns (.on none n false) [.failed] (.on none n false)
  | ended (n : Nat) (ns : List Note) (hns : ns = [] ∨ ns = [.failed]) :
      Turns (.on none n false) ns .idle
  | succeeded (c n : Nat) : Turns (.on (some c) n false) [] .idle
  | dead (k : Option Nat) (n : Nat) : Turns (.on k n true) [.checked .dead] .idle
  | alive (k : Option Nat) (n : Nat) {st : PeerStatus} (hst : st ≠ .dead) :
      Turns (.on k n true) [.checked st] (.on k n false)

/-- The notes agree with the loop. -/
def Follows (w : Wait) : Loop → Prop
  | .idle => ∀ c, w.checkEvery = some c → 0 < c ∧ Polls c w false ∧ w.failed ≤ kIntMax
  | .on checkEvery spins due => w.checkEvery = checkEvery ∧
      (checkEvery = none → spins = 0 ∧ due = false) ∧
      ∀ c, checkEvery = some c → 0 < c ∧ spins = w.failed ∧ Polls c w due ∧
        (∀ k, (k, .dead) ∉ w.checks) ∧ (due = true → 0 < w.failed ∧ c ∣ w.failed)

theorem polls_new (c : Nat) : Polls c { checkEvery := some c } false where
  every := by
    intro k hpos hle
    exact absurd hle (not_le.mpr hpos)
  only := nofun
  last := nofun

theorem Polls.failed (h : Polls c w false) (halive : ∀ k, (k, .dead) ∉ w.checks) :
    Polls c (w.note .failed) (decide ((w.failed + 1) % c = 0)) where
  every := by
    intro k hpos hle hdvd
    rcases Nat.lt_or_eq_of_le hle with hlt | rfl
    · rcases h.every k hpos (Nat.lt_succ_iff.mp hlt) hdvd with hst | ⟨-, hdue⟩
      · exact .inl hst
      · cases hdue
    · exact .inr ⟨rfl, decide_eq_true (Nat.mod_eq_zero_of_dvd hdvd)⟩
  only := by
    intro k st hmem
    obtain ⟨hpos, hle, hdvd⟩ := h.only k st hmem
    exact ⟨hpos, Nat.le_succ_of_le hle, hdvd⟩
  last := fun k hmem => absurd hmem (halive k)

theorem Polls.checked (h : Polls c w true) (hdue : 0 < w.failed ∧ c ∣ w.failed)
    (st : PeerStatus) (halive : ∀ k, (k, .dead) ∉ w.checks) :
    Polls c (w.note (.checked st)) false where
  every := by
    intro k hpos hle hdvd
    rcases h.every k hpos hle hdvd with ⟨st', hst'⟩ | ⟨rfl, -⟩
    · exact .inl ⟨st', List.mem_cons_of_mem _ hst'⟩
    · exact .inl ⟨st, List.mem_cons_self⟩
  only := by
    intro k st' hmem
    rcases List.mem_cons.mp hmem with heq | hmem
    · obtain ⟨rfl, -⟩ := Prod.mk.inj heq
      exact ⟨hdue.1, le_rfl, hdue.2⟩
    · exact h.only k st' hmem
  last := by
    intro k hmem
    rcases List.mem_cons.mp hmem with heq | hmem
    · exact ⟨(Prod.mk.inj heq).1, rfl⟩
    · exact absurd hmem (halive k)

theorem Follows.turns (h : Follows w v) (hfits : v.spins ≤ kIntMax) (ht : Turns v ns v') :
    Follows (ns.foldl Wait.note w) v' := by
  cases ht with
  | stay => exact h
  | @began k hk =>
    refine ⟨rfl, fun _ => ⟨rfl, rfl⟩, ?_⟩
    rintro c rfl
    exact ⟨Nat.pos_of_ne_zero fun h0 => hk (congrArg some h0), rfl, polls_new c, nofun, nofun⟩
  | failed c n =>
    obtain ⟨hevery, -, hall⟩ := h
    obtain ⟨hpos, rfl, hpolls, halive, -⟩ := hall c rfl
    refine ⟨hevery, nofun, ?_⟩
    intro k hk
    obtain rfl := Option.some.inj hk
    refine ⟨hpos, rfl, hpolls.failed halive, halive, fun hdue => ⟨Nat.succ_pos _, ?_⟩⟩
    exact Nat.dvd_of_mod_eq_zero (of_decide_eq_true hdue)
  | uncounted n =>
    obtain ⟨hevery, hnone, -⟩ := h
    exact ⟨hevery, hnone, nofun⟩
  | ended n ns hns =>
    obtain ⟨hevery, -, -⟩ := h
    intro c hc
    have hkeep : (ns.foldl Wait.note w).checkEvery = w.checkEvery := by
      rcases hns with rfl | rfl <;> rfl
    rw [hkeep, hevery] at hc
    cases hc
  | succeeded c n =>
    obtain ⟨hevery, -, hall⟩ := h
    intro c' hc'
    obtain rfl := Option.some.inj (hevery.symm.trans hc')
    obtain ⟨hpos, rfl, hpolls, -, -⟩ := hall c rfl
    exact ⟨hpos, hpolls, hfits⟩
  | dead k n =>
    obtain ⟨hevery, -, hall⟩ := h
    intro c hc
    obtain ⟨hpos, rfl, hpolls, halive, hdue⟩ := hall c (hevery.symm.trans hc)
    exact ⟨hpos, hpolls.checked (hdue rfl) .dead halive, hfits⟩
  | @alive k n st hst =>
    obtain ⟨hevery, hnone, hall⟩ := h
    refine ⟨hevery, fun hk => ⟨(hnone hk).1, rfl⟩, ?_⟩
    intro c hc
    obtain ⟨hpos, hspins, hpolls, halive, hdue⟩ := hall c hc
    refine ⟨hpos, hspins, hpolls.checked (hdue rfl) st halive, ?_, nofun⟩
    intro k' hmem
    rcases List.mem_cons.mp hmem with heq | hmem
    · exact hst (Prod.mk.inj heq).2.symm
    · exact halive k' hmem

theorem Follows.watched (h : Follows w v) : w.Watched v.due := by
  intro c hc
  cases v with
  | idle =>
    obtain ⟨hpos, hpolls, -⟩ := h c hc
    exact ⟨hpolls, hpolls.notices hpos⟩
  | on k n due =>
    obtain ⟨hevery, -, hall⟩ := h
    obtain ⟨hpos, -, hpolls, -, -⟩ := hall c (hevery.symm.trans hc)
    exact ⟨hpolls, hpolls.notices hpos⟩

/-- The counter of a checked call is the number of its failed attempts. -/
theorem Follows.short (h : Follows w v) (hfits : v.spins ≤ kIntMax) : w.Short := by
  intro hchecked
  obtain ⟨c, hc⟩ := Option.ne_none_iff_exists'.mp hchecked
  refine Nat.lt_succ_of_le (n := w.failed) (m := kIntMax) ?_
  cases v with
  | idle => exact (h c hc).2.2
  | on k n due =>
    obtain ⟨hevery, -, hall⟩ := h
    obtain ⟨-, rfl, -⟩ := hall c (hevery.symm.trans hc)
    exact hfits

theorem Follows.not_short (h : Follows w v) (hover : kIntMax < v.spins) : ¬w.Short := by
  intro hshort
  cases v with
  | idle => cases hover
  | on k n due =>
    obtain ⟨hevery, hnone, hall⟩ := h
    cases k with
    | none =>
      obtain ⟨rfl, -⟩ := hnone rfl
      cases hover
    | some c =>
      obtain ⟨-, rfl, -⟩ := hall c rfl
      have hlt := hshort (by rw [hevery]; exact Option.some_ne_none c)
      exact absurd hover (not_lt.mpr (Nat.lt_succ_iff.mp hlt))

/-! ### The two sides -/

variable {s t : Blocking.State} {l : Blocking.Label} {o : List Blocking.Event}

theorem turns_pushing (p : Pushing) (o : List Bus.Event) :
    Turns (.on (pushEvery p.kind) p.spins false) (pushNotes (.producer, (p.after o).2))
      (pushLoop (p.after o).1) := by
  have hfailed : Turns (.on (pushEvery p.kind) p.spins false) (pushNotes (.producer, p.failed.2))
      (pushLoop p.failed.1) := by
    obtain ⟨kind, msg, spins⟩ := p
    cases kind with
    | tryPush => exact .ended _ _ (.inr rfl)
    | push => exact .uncounted _
    | pushChecked c =>
      have hturn := Turns.failed c spins
      by_cases hdue : (spins + 1) % c = 0
      · rw [decide_eq_true hdue] at hturn
        simpa [Pushing.failed, hdue, pushNotes, pushLoop, pushEvery] using hturn
      · rw [decide_eq_false hdue] at hturn
        simpa [Pushing.failed, hdue, pushNotes, pushLoop, pushEvery] using hturn
  unfold Pushing.after
  split
  · exact .stay _
  · obtain ⟨kind, msg, spins⟩ := p
    cases kind with
    | pushChecked c => exact .succeeded _ _
    | tryPush | push => exact .ended _ _ (.inl rfl)
  · exact hfailed

theorem turns_popping (p : Popping) (o : List Bus.Event) :
    Turns (.on (popEvery p.kind) p.spins false) (popNotes (.consumer, (p.after o).2))
      (popLoop (p.after o).1) := by
  have hfailed : ∀ p : Popping, Turns (.on (popEvery p.kind) p.spins false)
      (popNotes (.consumer, p.failed.2)) (popLoop p.failed.1) := by
    rintro ⟨kind, bufSize, wrote, spins⟩
    cases kind with
    | tryPop => exact .ended _ _ (.inr rfl)
    | pop => exact .uncounted _
    | popChecked c =>
      have hturn := Turns.failed c spins
      by_cases hdue : (spins + 1) % c = 0
      · rw [decide_eq_true hdue] at hturn
        simpa [Popping.failed, hdue, popNotes, popLoop, popEvery] using hturn
      · rw [decide_eq_false hdue] at hturn
        simpa [Popping.failed, hdue, popNotes, popLoop, popEvery] using hturn
  unfold Popping.after
  split
  · exact .stay _
  · dsimp only
    split
    · exact hfailed (p.write _)
    · obtain ⟨kind, bufSize, wrote, spins⟩ := p
      cases kind with
      | popChecked c => exact .succeeded _ _
      | tryPop | pop => exact .ended _ _ (.inl rfl)
  · exact hfailed p

/-- **A step turns the loop of the producer.** -/
theorem turns_push (h : Blocking.step s l = some (t, o)) :
    Turns (pushLoop s.push) (pushNotes (l, o)) (pushLoop t.push) := by
  cases Blocking.step_moves h with
  | @push kind msg hp =>
    have hkind : kind ≠ .pushChecked 0 := by
      rintro rfl
      simp [Blocking.step, hp] at h
    rw [hp]
    refine .began ?_
    cases kind with
    | pushChecked c =>
      intro hc
      exact hkind (congrArg PushKind.pushChecked (Option.some.inj hc))
    | _ => exact nofun
  | @producer p a b o' hp hm =>
    have hloop : pushLoop s.push = .on (pushEvery p.kind) p.spins false := by
      generalize s.push = q at hp
      cases hp <;> rfl
    rw [hloop]
    exact turns_pushing p o'
  | gaveUp hp =>
    rw [hp]
    exact .dead _ _
  | pushAgain hp hst =>
    rw [hp]
    exact .alive _ _ hst
  | _ => exact .stay _

/-- **A step turns the loop of the consumer.** -/
theorem turns_pop (h : Blocking.step s l = some (t, o)) :
    Turns (popLoop s.pop) (popNotes (l, o)) (popLoop t.pop) := by
  cases Blocking.step_moves h with
  | @pop kind bufSize hp =>
    have hkind : kind ≠ .popChecked 0 := by
      rintro rfl
      simp [Blocking.step, hp] at h
    rw [hp]
    refine .began ?_
    cases kind with
    | popChecked c =>
      intro hc
      exact hkind (congrArg PopKind.popChecked (Option.some.inj hc))
    | _ => exact nofun
  | @consumer p a b o' hp hm =>
    have hloop : popLoop s.pop = .on (popEvery p.kind) p.spins false := by
      generalize s.pop = q at hp
      cases hp <;> rfl
    rw [hloop]
    exact turns_popping p o'
  | peerDead hp =>
    rw [hp]
    exact .dead _ _
  | popAgain hp hst =>
    rw [hp]
    exact .alive _ _ hst
  | _ => exact .stay _

/-! ### The runs -/

variable {os : List Shown} {x : State} {seg : Segment}

/-- What a run keeps: the counters follow the waits, up to the overflow. -/
def Kept (os : List Shown) : State → Prop
  | .defined s =>
    Follows (pushWait os) (pushLoop s.push) ∧ Follows (popWait os) (popLoop s.pop) ∧ Fits s
  | .undefined => ¬((pushWait os).Short ∧ (popWait os).Short)

theorem pushWait_concat (os : List Shown) (e : Shown) :
    pushWait (os ++ [e]) = (pushNotes e).foldl Wait.note (pushWait os) := by
  simp [pushWait]

theorem popWait_concat (os : List Shown) (e : Shown) :
    popWait (os ++ [e]) = (popNotes e).foldl Wait.note (popWait os) := by
  simp [popWait]

theorem Kept.step {y : State} {es : List Shown} (h : Kept os x)
    (hstep : machine.step x l = some (y, es)) : Kept (os ++ es) y := by
  cases x with
  | undefined => cases hstep
  | defined s =>
    obtain ⟨⟨t, o⟩, hs, heq⟩ := Option.map_eq_some_iff.mp hstep
    obtain ⟨rfl, rfl⟩ := Prod.mk.inj heq
    obtain ⟨hpush, hpop, hfits⟩ := h
    have hpush' := hpush.turns hfits.1 (turns_push hs)
    have hpop' := hpop.turns hfits.2 (turns_pop hs)
    rw [← pushWait_concat] at hpush'
    rw [← popWait_concat] at hpop'
    by_cases ht : Fits t
    · rw [if_pos ht]
      exact ⟨hpush', hpop', ht⟩
    · rw [if_neg ht]
      rintro ⟨hshort, hshort'⟩
      refine ht ⟨?_, ?_⟩
      · by_contra hover
        exact hpush'.not_short (not_le.mp hover) hshort
      · by_contra hover
        exact hpop'.not_short (not_le.mp hover) hshort'

theorem kept_run (h : Lib.Machine.Run machine Lib.Machine.anyStep (init seg) os x) :
    Kept os x := by
  refine h.invariant (P := Kept) ?_ fun os t l u o hkept _ hstep => hkept.step hstep
  exact ⟨nofun, nofun, Nat.zero_le _, Nat.zero_le _⟩

/-- **The liveness checks of a wait are right exactly as long as it has had fewer
than `2 ^ 31` failed attempts.** -/
theorem watched_iff (h : Lib.Machine.Run machine Lib.Machine.anyStep (init seg) os x) :
    (∃ s, x = .defined s ∧ (pushWait os).Watched (pushLoop s.push).due ∧
        (popWait os).Watched (popLoop s.pop).due) ↔
      (pushWait os).Short ∧ (popWait os).Short := by
  have hkept := kept_run h
  cases x with
  | defined s =>
    obtain ⟨hpush, hpop, hfits⟩ := hkept
    exact iff_of_true ⟨s, rfl, hpush.watched, hpop.watched⟩
      ⟨hpush.short hfits.1, hpop.short hfits.2⟩
  | undefined =>
    refine iff_of_false ?_ hkept
    rintro ⟨s, hs, -⟩
    cases hs

/-! ### A wait that is too long -/

/-- The consumer waits at an empty ring, with `n` failed attempts behind it. -/
def waiting (seg : Segment) (c n : Nat) : Blocking.State :=
  { Blocking.init seg with pop := .attempt ⟨.popChecked c, 8, [], n⟩ }

/-- The same in `try_pop`, about to load `write_pos`. -/
def loading (seg : Segment) (c n : Nat) : Blocking.State where
  bus := { Bus.init seg with pop := .reload 8 }
  pop := .trying ⟨.popChecked c, 8, [], n⟩

def asking (seg : Segment) (c n : Nat) : Blocking.State :=
  { Blocking.init seg with pop := .status ⟨.popChecked c, 8, [], n⟩ }

/-- The consumer is alone, and is told that the producer is alive. -/
def Alone (c : Nat) (e : Shown) : Prop :=
  e.1 = .pop (.popChecked c) 8 ∨ e.1 = .consumer ∨ e.1 = .producerStatus .alive

theorem run_one (hs : Blocking.step s l = some (t, o)) (hfits : Fits t) :
    Lib.Machine.Run machine Lib.Machine.anyStep (.defined s) [(l, o)] (.defined t) := by
  refine .single (l := l) trivial ?_
  show (Blocking.step s l).map _ = _
  rw [hs, Option.map_some, if_pos hfits]

theorem empty_init (hempty : seg.cb.readPos = seg.cb.writePos) :
    Bus.empty (Bus.init seg).cons = true :=
  decide_eq_true (congrArg Lib.Ring.u64 hempty)

theorem step_waiting (hempty : seg.cb.readPos = seg.cb.writePos) (c n : Nat) :
    Blocking.step (waiting seg c n) .consumer = some (loading seg c n, []) := by
  show onPop _ (.tryPop 8) _ = _
  rw [onPop, show Bus.step (waiting seg c n).bus (.tryPop 8) =
    some ({ Bus.init seg with pop := .reload 8 }, []) by
      show (if Bus.empty (Bus.init seg).cons = true then _ else _) = _
      rw [if_pos (empty_init hempty)]
      rfl]
  rfl

theorem step_loading (hempty : seg.cb.readPos = seg.cb.writePos) (c n : Nat) :
    Blocking.step (loading seg c n) .consumer =
      some (if (n + 1) % c = 0 then asking seg c (n + 1) else waiting seg c (n + 1), [.zero]) := by
  show onPop _ .consumer _ = _
  rw [onPop, show Bus.step (loading seg c n).bus .consumer = some (Bus.init seg, [.empty]) by
      show (if Bus.empty (Bus.init seg).cons = true then _ else _) = _
      rw [if_pos (empty_init hempty)]
      rfl]
  by_cases hdue : (n + 1) % c = 0
  · simp [loading, asking, Popping.after, Popping.failed, hdue, Blocking.init]
  · simp [loading, waiting, Popping.after, Popping.failed, hdue, Blocking.init]

theorem run_attempt (hempty : seg.cb.readPos = seg.cb.writePos) {c n : Nat} (hn : n < kIntMax) :
    ∃ os, Lib.Machine.Run machine Lib.Machine.anyStep (.defined (waiting seg c n)) os
      (.defined (waiting seg c (n + 1))) ∧ ∀ e ∈ os, Alone c e := by
  have hload := run_one (step_waiting hempty c n) ⟨Nat.zero_le _, hn.le⟩
  have hzero := step_loading hempty c n
  by_cases hdue : (n + 1) % c = 0
  · rw [if_pos hdue] at hzero
    have hask : Blocking.step (asking seg c (n + 1)) (.producerStatus .alive) =
      some (waiting seg c (n + 1), []) := rfl
    refine ⟨_, (hload.trans (run_one hzero ⟨Nat.zero_le _, hn⟩)).trans
      (run_one hask ⟨Nat.zero_le _, hn⟩), ?_⟩
    simp [Alone]
  · rw [if_neg hdue] at hzero
    refine ⟨_, hload.trans (run_one hzero ⟨Nat.zero_le _, hn⟩), ?_⟩
    simp [Alone]

theorem run_waits (hempty : seg.cb.readPos = seg.cb.writePos) {c n : Nat} (hc : c ≠ 0)
    (hn : n ≤ kIntMax) :
    ∃ os, Lib.Machine.Run machine Lib.Machine.anyStep (init seg) os
      (.defined (waiting seg c n)) ∧ ∀ e ∈ os, Alone c e := by
  induction n with
  | zero =>
    have hcall : Blocking.step (Blocking.init seg) (.pop (.popChecked c) 8) =
        some (waiting seg c 0, []) := by
      show (if PopKind.popChecked c = .popChecked 0 then none else _) = _
      rw [if_neg fun heq => hc (PopKind.popChecked.inj heq)]
      rfl
    exact ⟨_, run_one hcall ⟨Nat.zero_le _, Nat.zero_le _⟩, by simp [Alone]⟩
  | succ n ih =>
    obtain ⟨os, hrun, halone⟩ := ih (Nat.le_of_succ_le hn)
    obtain ⟨os', hrun', halone'⟩ := run_attempt (c := c) hempty hn
    refine ⟨os ++ os', hrun.trans hrun', fun e he => ?_⟩
    rcases List.mem_append.mp he with he | he
    · exact halone e he
    · exact halone' e he

/-- **The counter overflows**, for every `check_every`. -/
theorem run_overflows (hempty : seg.cb.readPos = seg.cb.writePos) {c : Nat} (hc : c ≠ 0) :
    ∃ os, Lib.Machine.Run machine Lib.Machine.anyStep (init seg) os .undefined ∧
      ∀ e ∈ os, Alone c e := by
  obtain ⟨os, hrun, halone⟩ := run_waits hempty hc le_rfl
  have hload := run_one (step_waiting hempty c kIntMax) ⟨Nat.zero_le _, le_rfl⟩
  have hlast : machine.step (.defined (loading seg c kIntMax)) .consumer =
      some (.undefined, [(.consumer, [.zero])]) := by
    show (Blocking.step (loading seg c kIntMax) .consumer).map _ = _
    rw [step_loading hempty, Option.map_some, if_neg]
    rintro ⟨-, hfits⟩
    revert hfits
    dsimp only
    split_ifs <;> exact Nat.not_succ_le_self _
  refine ⟨_, (hrun.trans hload).step trivial hlast, fun e he => ?_⟩
  rcases List.mem_append.mp he with he | he
  · rcases List.mem_append.mp he with he | he
    · exact halone e he
    · rw [List.mem_singleton.mp he]
      exact .inr (.inl rfl)
  · rw [List.mem_singleton.mp he]
    exact .inr (.inl rfl)

/-- The ring of one slot, an attempt that fails and a check that finds the
producer alive. -/
theorem watched_iff_one :
    ∃ (seg : Segment) (os : List Shown) (s : Blocking.State), create 1 8 = some seg ∧
      Lib.Machine.Run machine Lib.Machine.anyStep (init seg) os (.defined s) ∧
      (popWait os).checks = [(1, .alive)] ∧ (popWait os).Watched (popLoop s.pop).due := by
  obtain ⟨seg, hseg, hempty⟩ : ∃ seg, create 1 8 = some seg ∧ seg.cb.readPos = seg.cb.writePos :=
    ⟨_, rfl, rfl⟩
  have hcall : Blocking.step (Blocking.init seg) (.pop (.popChecked 1) 8) =
    some (waiting seg 1 0, []) := rfl
  have hask : Blocking.step (asking seg 1 1) (.producerStatus .alive) =
    some (waiting seg 1 1, []) := rfl
  have hone : 1 ≤ kIntMax := by decide
  have hrun := (((run_one hcall ⟨Nat.zero_le _, Nat.zero_le _⟩).trans
    (run_one (step_waiting hempty 1 0) ⟨Nat.zero_le _, Nat.zero_le _⟩)).trans
    (run_one (step_loading hempty 1 0) ⟨Nat.zero_le _, hone⟩)).trans
    (run_one hask ⟨Nat.zero_le _, hone⟩)
  obtain ⟨s, hs, -, hpop⟩ := (watched_iff hrun).mpr ⟨fun _ => by decide, fun _ => by decide⟩
  exact ⟨seg, _, s, hseg, hs ▸ hrun, rfl, hpop⟩

/-- `pop_checked` with the default `check_every`, at the empty ring of a producer
that is alive. -/
theorem overflow_of_long_wait :
    ∃ (seg : Segment) (os : List Shown), create 1 8 = some seg ∧
      Lib.Machine.Run machine Lib.Machine.anyStep (init seg) os .undefined ∧
      ∀ e ∈ os, Alone 1024 e := by
  obtain ⟨seg, hseg, hempty⟩ : ∃ seg, create 1 8 = some seg ∧ seg.cb.readPos = seg.cb.writePos :=
    ⟨_, rfl, rfl⟩
  obtain ⟨os, hrun, halone⟩ := run_overflows (c := 1024) hempty (by decide)
  exact ⟨seg, os, hseg, hrun, halone⟩

end HftComponents.Spsc.Liveness
