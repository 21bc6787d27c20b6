import HftComponents.Lib.Machine
import Mathlib.Data.Rat.Defs

/-!
# The clock and its recalibration

`TscClock` converts a stamp by a pair of a tick count and a wall time that were
read together.  `recalibrate` publishes a new pair by two stores, the wall time
first; `to_wall_ns` reads the pair by two loads, the ticks first.

The order does not help the reader: `mixed_pair` is a run in which one stamp is
converted with the ticks of one calibration and the wall time of the next, and
is wrong by the five seconds between them.  `converts_with_snapped_pair` says
which runs are right: those in which no load of `tsc_base_` falls between the
two stores, and no store of `wall_base_ns_` between the two loads.

`double` is an exact rational, and a wall time an integer without bound.
-/

namespace HftComponents.Common

structure Timespec where
  tvSec : Int
  tvNsec : Int

def Timespec.ns (t : Timespec) : Int := t.tvSec * 1000000000 + t.tvNsec

structure Correlation where
  tsc : UInt64
  wallNs : Int
  deriving DecidableEq, Repr

/-- `t0` and `t1` are the clock before and after the ticks are read. -/
def snapCorrelation (t0 : Timespec) (tsc : UInt64) (t1 : Timespec) : Correlation :=
  ⟨tsc, (t0.ns + t1.ns).tdiv 2⟩

/-- The conversion of a `double` to an integer. -/
def truncate (q : ℚ) : Int := q.num.tdiv q.den

structure TscClock where
  ghz : ℚ
  tscBase : UInt64 := 0
  wallBaseNs : Int := 0

namespace TscClock

def create (ghz : ℚ) (c : Correlation) : TscClock :=
  { ghz := ghz, tscBase := c.tsc, wallBaseNs := c.wallNs }

/-- The arithmetic of `to_wall_ns`, on what it has loaded. -/
def convert (ghz : ℚ) (base : Correlation) (tsc : UInt64) : Int :=
  base.wallNs + truncate ((tsc - base.tsc).toNat / ghz)

end TscClock

/-! ### The two threads -/

/-- Where the background thread is in `recalibrate`. -/
inductive Recalibrate
  | idle
  | storeWall (c : Correlation)
  | storeTsc (c : Correlation)
  deriving DecidableEq

/-- Where the reader is in `to_wall_ns`. -/
inductive ToWallNs
  | idle
  | loadTsc (tsc : UInt64)
  | loadWall (tsc baseTsc : UInt64)
  deriving DecidableEq

structure State where
  clock : TscClock
  writer : Recalibrate := .idle
  reader : ToWallNs := .idle

inductive Label
  | recalibrate (t0 : Timespec) (tsc : UInt64) (t1 : Timespec)
  | writer
  | toWallNs (tsc : UInt64)
  | reader

inductive Event
  | snapped (c : Correlation)
  | converted (tsc : UInt64) (ns : Int)
  deriving DecidableEq

def step (s : State) : Label → Option (State × List Event)
  | .recalibrate t0 tsc t1 =>
    match s.writer with
    | .idle =>
      let c := snapCorrelation t0 tsc t1
      some ({ s with writer := .storeWall c }, [.snapped c])
    | _ => none
  | .writer =>
    match s.writer with
    | .idle => none
    | .storeWall c =>
      some ({ s with clock := { s.clock with wallBaseNs := c.wallNs }, writer := .storeTsc c }, [])
    | .storeTsc c =>
      some ({ s with clock := { s.clock with tscBase := c.tsc }, writer := .idle }, [])
  | .toWallNs tsc =>
    match s.reader with
    | .idle => some ({ s with reader := .loadTsc tsc }, [])
    | _ => none
  | .reader =>
    match s.reader with
    | .idle => none
    | .loadTsc tsc => some ({ s with reader := .loadWall tsc s.clock.tscBase }, [])
    | .loadWall tsc baseTsc =>
      some ({ s with reader := .idle },
        [.converted tsc (TscClock.convert s.clock.ghz ⟨baseTsc, s.clock.wallBaseNs⟩ tsc)])

def machine : Lib.Machine State Label Event := ⟨step⟩

/-- The constructor has returned before the clock is shared. -/
def init (ghz : ℚ) (c : Correlation) : State := { clock := .create ghz c }

inductive Moves : State → Label → State → List Event → Prop
  | snap {s : State} {t0 t1 : Timespec} {tsc : UInt64} (hw : s.writer = .idle) :
      Moves s (.recalibrate t0 tsc t1) { s with writer := .storeWall (snapCorrelation t0 tsc t1) }
        [.snapped (snapCorrelation t0 tsc t1)]
  | storeWall {s : State} {c : Correlation} (hw : s.writer = .storeWall c) :
      Moves s .writer
        { s with clock := { s.clock with wallBaseNs := c.wallNs }, writer := .storeTsc c } []
  | storeTsc {s : State} {c : Correlation} (hw : s.writer = .storeTsc c) :
      Moves s .writer { s with clock := { s.clock with tscBase := c.tsc }, writer := .idle } []
  | start {s : State} {tsc : UInt64} (hr : s.reader = .idle) :
      Moves s (.toWallNs tsc) { s with reader := .loadTsc tsc } []
  | loadTsc {s : State} {tsc : UInt64} (hr : s.reader = .loadTsc tsc) :
      Moves s .reader { s with reader := .loadWall tsc s.clock.tscBase } []
  | loadWall {s : State} {tsc baseTsc : UInt64} (hr : s.reader = .loadWall tsc baseTsc) :
      Moves s .reader { s with reader := .idle }
        [.converted tsc (TscClock.convert s.clock.ghz ⟨baseTsc, s.clock.wallBaseNs⟩ tsc)]

theorem step_moves {s u : State} {l : Label} {o : List Event} (h : step s l = some (u, o)) :
    Moves s l u o := by
  cases l with
  | recalibrate t0 tsc t1 =>
    unfold step at h
    cases hw : s.writer with
    | idle =>
      rw [hw] at h
      obtain ⟨rfl, rfl⟩ := Prod.mk.inj (Option.some.inj h)
      exact .snap hw
    | _ =>
      rw [hw] at h
      cases h
  | writer =>
    unfold step at h
    cases hw : s.writer with
    | idle =>
      rw [hw] at h
      cases h
    | storeWall c =>
      rw [hw] at h
      obtain ⟨rfl, rfl⟩ := Prod.mk.inj (Option.some.inj h)
      exact .storeWall hw
    | storeTsc c =>
      rw [hw] at h
      obtain ⟨rfl, rfl⟩ := Prod.mk.inj (Option.some.inj h)
      exact .storeTsc hw
  | toWallNs tsc =>
    unfold step at h
    cases hr : s.reader with
    | idle =>
      rw [hr] at h
      obtain ⟨rfl, rfl⟩ := Prod.mk.inj (Option.some.inj h)
      exact .start hr
    | _ =>
      rw [hr] at h
      cases h
  | reader =>
    unfold step at h
    cases hr : s.reader with
    | idle =>
      rw [hr] at h
      cases h
    | loadTsc tsc =>
      rw [hr] at h
      obtain ⟨rfl, rfl⟩ := Prod.mk.inj (Option.some.inj h)
      exact .loadTsc hr
    | loadWall tsc baseTsc =>
      rw [hr] at h
      obtain ⟨rfl, rfl⟩ := Prod.mk.inj (Option.some.inj h)
      exact .loadWall hr

/-! ### Which pair a result comes from -/

def Event.pair : Event → Option Correlation
  | .snapped c => some c
  | .converted _ _ => none

/-- The pairs snapped so far, `c` by the constructor. -/
def pairs (c : Correlation) (os : List Event) : List Correlation := c :: os.filterMap Event.pair

/-- No `to_wall_ns` loads `tsc_base_` between the two stores of a `recalibrate`,
and none has its two loads on either side of a store of `wall_base_ns_`. -/
def Undisturbed (s : State) : Label → Prop
  | .reader => ∀ tsc c, s.reader = .loadTsc tsc → s.writer ≠ .storeTsc c
  | .writer => ∀ tsc baseTsc c, s.writer = .storeWall c → s.reader ≠ .loadWall tsc baseTsc
  | _ => True

/-- What a run keeps; `ps` are the pairs snapped so far. -/
structure Calibrated (ghz : ℚ) (ps : List Correlation) (s : State) : Prop where
  ghz : s.clock.ghz = ghz
  /-- Between the two stores only the wall time is the new pair's. -/
  clock : (∃ c ∈ ps, s.writer = .storeTsc c ∧ s.clock.wallBaseNs = c.wallNs) ∨
    (∀ c, s.writer ≠ .storeTsc c) ∧ ⟨s.clock.tscBase, s.clock.wallBaseNs⟩ ∈ ps
  writer : ∀ c, s.writer = .storeWall c → c ∈ ps
  reader : ∀ tsc baseTsc, s.reader = .loadWall tsc baseTsc → ⟨baseTsc, s.clock.wallBaseNs⟩ ∈ ps

section Run

variable {ghz : ℚ} {c0 : Correlation} {os : List Event} {s u : State} {l : Label} {o : List Event}

theorem pairs_append (c : Correlation) (os o : List Event) :
    pairs c (os ++ o) = pairs c os ++ o.filterMap Event.pair := by
  simp [pairs]

theorem calibrated_init (ghz : ℚ) (c : Correlation) : Calibrated ghz (pairs c []) (init ghz c) where
  ghz := rfl
  clock := Or.inr ⟨fun _ h => Recalibrate.noConfusion h, List.mem_cons_self⟩
  writer := fun _ h => Recalibrate.noConfusion h
  reader := fun _ _ h => ToWallNs.noConfusion h

theorem Calibrated.mono {ps qs : List Correlation} (h : Calibrated ghz ps s) (hsub : ps ⊆ qs) :
    Calibrated ghz qs s where
  ghz := h.ghz
  clock := by
    rcases h.clock with ⟨c, hc, hw⟩ | ⟨hw, hmem⟩
    · exact Or.inl ⟨c, hsub hc, hw⟩
    · exact Or.inr ⟨hw, hsub hmem⟩
  writer := fun c hw => hsub (h.writer c hw)
  reader := fun tsc baseTsc hr => hsub (h.reader tsc baseTsc hr)

theorem Calibrated.step {ps : List Correlation} (h : Calibrated ghz ps s) (hok : Undisturbed s l)
    (hm : Moves s l u o) : Calibrated ghz (ps ++ o.filterMap Event.pair) u := by
  cases hm with
  | @snap t0 t1 tsc hw =>
    have h' := h.mono (List.subset_append_left ps [snapCorrelation t0 tsc t1])
    refine { h' with clock := ?_, writer := ?_ }
    · rcases h'.clock with ⟨c, -, hc, -⟩ | ⟨-, hmem⟩
      · rw [hw] at hc
        cases hc
      · exact Or.inr ⟨fun _ hc => Recalibrate.noConfusion hc, hmem⟩
    · intro c hc
      obtain rfl := Recalibrate.storeWall.inj hc
      exact List.mem_append_right _ List.mem_cons_self
  | @storeWall c hw =>
    rw [List.filterMap_nil, List.append_nil]
    refine { h with clock := ?_, writer := ?_, reader := ?_ }
    · exact Or.inl ⟨c, h.writer c hw, rfl, rfl⟩
    · intro _ hc
      cases hc
    · intro tsc baseTsc hr
      exact absurd hr (hok tsc baseTsc c hw)
  | @storeTsc c hw =>
    rw [List.filterMap_nil, List.append_nil]
    refine { h with clock := ?_, writer := ?_ }
    · rcases h.clock with ⟨d, hd, hdw, hwall⟩ | ⟨hne, -⟩
      · rw [hw] at hdw
        obtain rfl := Recalibrate.storeTsc.inj hdw
        refine Or.inr ⟨fun _ hc => Recalibrate.noConfusion hc, ?_⟩
        show ⟨c.tsc, s.clock.wallBaseNs⟩ ∈ ps
        rw [hwall]
        exact hd
      · exact absurd hw (hne c)
    · intro _ hc
      cases hc
  | start hr =>
    rw [List.filterMap_nil, List.append_nil]
    refine { h with reader := ?_ }
    intro _ _ hr'
    cases hr'
  | @loadTsc tsc hr =>
    rw [List.filterMap_nil, List.append_nil]
    refine { h with reader := ?_ }
    intro tsc' baseTsc hr'
    obtain ⟨-, rfl⟩ := ToWallNs.loadWall.inj hr'
    rcases h.clock with ⟨c, -, hc, -⟩ | ⟨-, hmem⟩
    · exact absurd hc (hok tsc c hr)
    · exact hmem
  | loadWall hr =>
    refine { h.mono (List.subset_append_left ps _) with reader := ?_ }
    intro _ _ hr'
    cases hr'

theorem run_calibrated (h : Lib.Machine.Run machine Undisturbed (init ghz c0) os s) :
    Calibrated ghz (pairs c0 os) s := by
  refine h.invariant (P := fun os s => Calibrated ghz (pairs c0 os) s) (calibrated_init ghz c0) ?_
  intro os t l u o ht hok hstep
  rw [pairs_append]
  exact ht.step hok (step_moves hstep)

/-- **A conversion uses one pair.**  In every run that meets the condition, what
`to_wall_ns` returns is the conversion with a pair that was snapped before. -/
theorem converts_with_snapped_pair
    (h : Lib.Machine.Run machine Undisturbed (init ghz c0) os s) {tsc : UInt64} {ns : Int}
    (hstep : step s l = some (u, o)) (ho : .converted tsc ns ∈ o) :
    ∃ c ∈ pairs c0 os, ns = TscClock.convert ghz c tsc := by
  have hs := run_calibrated h
  cases step_moves hstep with
  | loadWall hr =>
    obtain ⟨rfl, rfl⟩ := Event.converted.inj (List.mem_singleton.mp ho)
    exact ⟨_, hs.reader _ _ hr, by rw [hs.ghz]⟩
  | snap hw => simp at ho
  | _ => simp at ho

end Run

/-- A run with one recalibration before the conversion. -/
theorem converts_with_snapped_pair_once :
    ∃ os s u, Lib.Machine.Run machine Undisturbed (init 2 ⟨0, 0⟩) os s ∧
      step s .reader = some (u, [.converted 1200 1100]) ∧
      ∃ c ∈ pairs ⟨0, 0⟩ os, 1100 = TscClock.convert 2 c 1200 := by
  have hrun : Lib.Machine.Run machine Undisturbed (init 2 ⟨0, 0⟩)
      [.snapped ⟨1000, 1000⟩]
      { clock := ⟨2, 1000, 1000⟩, reader := .loadWall 1200 1000 } := by
    have hexec : machine.exec (init 2 ⟨0, 0⟩)
        [.recalibrate ⟨0, 999⟩ 1000 ⟨0, 1001⟩, .writer, .writer, .toWallNs 1200, .reader] =
        some ({ clock := ⟨2, 1000, 1000⟩, reader := .loadWall 1200 1000 },
          [.snapped ⟨1000, 1000⟩]) := rfl
    refine Lib.Machine.run_of_exec ?_ hexec
    refine Lib.Machine.execOk_cons trivial rfl ?_
    refine Lib.Machine.execOk_cons (fun _ _ _ _ => ToWallNs.noConfusion) rfl ?_
    refine Lib.Machine.execOk_cons (fun _ _ _ _ => ToWallNs.noConfusion) rfl ?_
    refine Lib.Machine.execOk_cons trivial rfl ?_
    exact Lib.Machine.execOk_cons (fun _ _ _ => Recalibrate.noConfusion) rfl trivial
  have hstep : step { clock := ⟨2, 1000, 1000⟩, reader := .loadWall 1200 1000 } .reader =
      some ({ clock := ⟨2, 1000, 1000⟩ }, [.converted 1200 1100]) := by
    have hns : TscClock.convert 2 ⟨1000, 1000⟩ 1200 = 1100 := by decide +kernel
    rw [← hns]
    rfl
  exact ⟨_, _, _, hrun, hstep, converts_with_snapped_pair hrun hstep List.mem_cons_self⟩

/-- **The order of the stores does not protect the reader.**  Five seconds after
the constructor, `recalibrate` stores its wall time between the two loads: the
result is five seconds late, and neither of the two pairs gives it. -/
theorem mixed_pair :
    ∃ os s u, Lib.Machine.Run machine Lib.Machine.anyStep (init 1 ⟨0, 0⟩) os s ∧
      step s .reader = some (u, [.converted 5000000000 10000000000]) ∧
      pairs ⟨0, 0⟩ os = [⟨0, 0⟩, ⟨5000000000, 5000000000⟩] ∧
      ∀ c ∈ pairs ⟨0, 0⟩ os, TscClock.convert 1 c 5000000000 = 5000000000 := by
  have hrun : Lib.Machine.Run machine Lib.Machine.anyStep (init 1 ⟨0, 0⟩)
      [.snapped ⟨5000000000, 5000000000⟩]
      { clock := ⟨1, 0, 5000000000⟩
        writer := .storeTsc ⟨5000000000, 5000000000⟩
        reader := .loadWall 5000000000 0 } := by
    have hexec : machine.exec (init 1 ⟨0, 0⟩)
        [.toWallNs 5000000000, .reader, .recalibrate ⟨5, 0⟩ 5000000000 ⟨5, 0⟩, .writer] =
        some ({ clock := ⟨1, 0, 5000000000⟩
                writer := .storeTsc ⟨5000000000, 5000000000⟩
                reader := .loadWall 5000000000 0 }, [.snapped ⟨5000000000, 5000000000⟩]) := rfl
    exact Lib.Machine.run_of_exec_any hexec
  have hstep : step
      { clock := ⟨1, 0, 5000000000⟩
        writer := .storeTsc ⟨5000000000, 5000000000⟩
        reader := .loadWall 5000000000 0 } .reader =
      some ({ clock := ⟨1, 0, 5000000000⟩, writer := .storeTsc ⟨5000000000, 5000000000⟩ },
        [.converted 5000000000 10000000000]) := by
    have hns : TscClock.convert 1 ⟨0, 5000000000⟩ 5000000000 = 10000000000 := by decide +kernel
    rw [← hns]
    rfl
  exact ⟨_, _, _, hrun, hstep, rfl, by decide +kernel⟩

end HftComponents.Common
