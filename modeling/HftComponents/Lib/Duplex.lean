import HftComponents.Lib.Machine
import HftComponents.Lib.Transfer

/-!
# Two processes and two pipes

A connection between two processes: a bounded pipe in each direction, from which
one reads what the other has written.  What a process does next is its `Intent`.
A transfer moves what the environment lets it (`Reply`): a read waits for the
pipe to hold something, unless it times out, and a write waits for room.  When a
process has halted, the transfers of the other may fail, and one that fails to
read loses what is left in the pipe.

Two processes that can go no further have both halted, or both wait for what the
other should write, or both wait for the other to read (`Link.stuck_cases`).
-/

namespace HftComponents.Lib.Duplex

open Transfer

variable {P Q α O : Type*}

/-- What a process does next, and what it becomes.  A transfer asks for `n`
elements or offers `part`; `then_` gets what was moved, or `none` if it fails. -/
inductive Intent (P α O : Type*)
  | read (n : Nat) (then_ : Option (List α) → P)
  | write (part : List α) (then_ : Option Nat → P)
  | turn (next : P) (shown : List O)
  | halt

def Intent.halted : Intent P α O → Bool
  | .halt => true
  | _ => false

/-- A process after a step, and its two pipes. -/
structure Moved (P α O : Type*) where
  next : P
  input : List α
  output : List α
  shown : List O := []

/-- One step of a process; `cap` is the capacity of its output, `timeout` says
that its reads may time out, and `closed` that the other process has halted. -/
def act (cap : Nat) (timeout closed : Bool) (input output : List α) (reply : Reply) :
    Intent P α O → Option (Moved P α O)
  | .read n then_ =>
    match reply with
    | .error =>
      if closed ∨ (timeout ∧ input = []) then some { next := then_ none, input := [], output }
      else none
    | .upTo k =>
      if input = [] then none
      else
        let m := portion k n
        some { next := then_ (some (input.take m)), input := input.drop m, output }
  | .write part then_ =>
    match reply with
    | .error => if closed then some { next := then_ none, input, output } else none
    | .upTo k =>
      if cap ≤ output.length then none
      else
        let m := portion k (min part.length (cap - output.length))
        some { next := then_ (some m), input, output := output ++ part.take m }
  | .turn next shown => some { next, input, output, shown }
  | .halt => none

/-- What a step of a process may be. -/
inductive Acts (cap : Nat) (timeout closed : Bool) (input output : List α) :
    Intent P α O → Moved P α O → Prop
  | delivered {n : Nat} {then_ : Option (List α) → P} {xs rest : List α} (hin : input = xs ++ rest)
      (hne : xs ≠ []) (hlen : 0 < n → xs.length ≤ n) :
      Acts cap timeout closed input output (.read n then_) ⟨then_ (some xs), rest, output, []⟩
  | ended {n : Nat} {then_ : Option (List α) → P} (hend : closed = true ∨ timeout = true) :
      Acts cap timeout closed input output (.read n then_) ⟨then_ none, [], output, []⟩
  | accepted {part : List α} {then_ : Option Nat → P} {m : Nat} (hpos : 0 < m)
      (hle : part ≠ [] → m ≤ part.length) (hcap : output.length + (part.take m).length ≤ cap) :
      Acts cap timeout closed input output (.write part then_)
        ⟨then_ (some m), input, output ++ part.take m, []⟩
  | refused {part : List α} {then_ : Option Nat → P} (hclosed : closed = true) :
      Acts cap timeout closed input output (.write part then_) ⟨then_ none, input, output, []⟩
  | turned {next : P} {shown : List O} :
      Acts cap timeout closed input output (.turn next shown) ⟨next, input, output, shown⟩

theorem acts_of_act {cap : Nat} {timeout closed : Bool} {input output : List α} {reply : Reply}
    {i : Intent P α O} {m : Moved P α O}
    (h : act cap timeout closed input output reply i = some m) :
    Acts cap timeout closed input output i m := by
  cases i with
  | halt => cases h
  | turn next shown =>
    cases h
    exact .turned
  | read n then_ =>
    cases reply with
    | error =>
      simp only [act, Option.ite_none_right_eq_some, Option.some.injEq] at h
      obtain ⟨hend, rfl⟩ := h
      exact .ended (hend.imp_right And.left)
    | upTo k =>
      simp only [act, Option.ite_none_left_eq_some, Option.some.injEq] at h
      obtain ⟨hne, rfl⟩ := h
      refine .delivered (List.take_append_drop _ _).symm ?_ ?_
      · obtain ⟨x, xs, rfl⟩ := List.exists_cons_of_ne_nil hne
        obtain ⟨j, hj⟩ := Nat.exists_eq_succ_of_ne_zero (portion_pos k n).ne'
        rw [hj]
        exact List.cons_ne_nil _ _
      · intro hn
        exact (List.length_take_le _ _).trans (portion_le hn)
  | write part then_ =>
    cases reply with
    | error =>
      simp only [act, Option.ite_none_right_eq_some, Option.some.injEq] at h
      obtain ⟨hclosed, rfl⟩ := h
      exact .refused hclosed
    | upTo k =>
      simp only [act, Option.ite_none_left_eq_some, Option.some.injEq] at h
      obtain ⟨hroom, rfl⟩ := h
      have hle : part ≠ [] → portion k (min part.length (cap - output.length)) ≤
          min part.length (cap - output.length) := by
        intro hne
        have hpos := List.length_pos_iff.mpr hne
        exact portion_le (by omega)
      refine .accepted (portion_pos _ _) (fun hne => (hle hne).trans (min_le_left _ _)) ?_
      rw [List.length_take]
      by_cases hne : part = []
      · subst hne
        simp only [List.length_nil, Nat.min_zero]
        omega
      · have hmin := hle hne
        omega

section Acts

variable {cap : Nat} {timeout closed : Bool} {input output : List α} {i : Intent P α O}
  {m : Moved P α O}

theorem Acts.input_le (h : Acts cap timeout closed input output i m) :
    m.input.length ≤ input.length := by
  cases h with
  | delivered hin hne hlen =>
    rw [hin, List.length_append]
    exact Nat.le_add_left _ _
  | ended hend => exact Nat.zero_le _
  | _ => exact le_rfl

theorem Acts.output_le (h : Acts cap timeout closed input output i m) (hcap : output.length ≤ cap) :
    m.output.length ≤ cap := by
  cases h with
  | accepted hpos hle hroom =>
    rw [List.length_append]
    exact hroom
  | _ => exact hcap

end Acts

/-! ### The connection -/

/-- Both programs, the capacities of the pipe from left to right and of the pipe
back, and whether the reads of an end may time out. -/
structure Link (P Q α O : Type*) where
  left : P → Intent P α O
  right : Q → Intent Q α O
  upCap : Nat
  downCap : Nat
  leftTimeout : Bool := false
  rightTimeout : Bool := false

structure State (P Q α : Type*) where
  left : P
  right : Q
  up : List α := []
  down : List α := []

/-- Whose turn it is, and what the environment answers. -/
inductive Label
  | left (reply : Reply)
  | right (reply : Reply)
  deriving DecidableEq, Repr

namespace Link

variable (d : Link P Q α O) {s t : State P Q α} {l : Label} {os : List O}

def step (s : State P Q α) : Label → Option (State P Q α × List O)
  | .left reply =>
    (act d.upCap d.leftTimeout (d.right s.right).halted s.down s.up reply (d.left s.left)).map
      fun m => (⟨m.next, s.right, m.output, m.input⟩, m.shown)
  | .right reply =>
    (act d.downCap d.rightTimeout (d.left s.left).halted s.up s.down reply (d.right s.right)).map
      fun m => (⟨s.left, m.next, m.input, m.output⟩, m.shown)

def machine : Machine (State P Q α) Label O := ⟨d.step⟩

/-- What a step may be. -/
inductive Moves (d : Link P Q α O) (s : State P Q α) : State P Q α → List O → Prop
  | left {m : Moved P α O}
      (h : Acts d.upCap d.leftTimeout (d.right s.right).halted s.down s.up (d.left s.left) m) :
      Moves d s ⟨m.next, s.right, m.output, m.input⟩ m.shown
  | right {m : Moved Q α O}
      (h : Acts d.downCap d.rightTimeout (d.left s.left).halted s.up s.down (d.right s.right) m) :
      Moves d s ⟨s.left, m.next, m.input, m.output⟩ m.shown

variable {d}

theorem step_moves (h : d.machine.step s l = some (t, os)) : Moves d s t os := by
  cases l with
  | left reply =>
    obtain ⟨m, hm, heq⟩ := Option.map_eq_some_iff.mp h
    cases heq
    exact .left (acts_of_act hm)
  | right reply =>
    obtain ⟨m, hm, heq⟩ := Option.map_eq_some_iff.mp h
    cases heq
    exact .right (acts_of_act hm)

/-- What the pipes hold is bounded. -/
structure Bounded (d : Link P Q α O) (s : State P Q α) : Prop where
  up : s.up.length ≤ d.upCap
  down : s.down.length ≤ d.downCap

theorem Bounded.step (hb : Bounded d s) (h : d.machine.step s l = some (t, os)) :
    Bounded d t := by
  cases step_moves h with
  | left ha => exact ⟨ha.output_le hb.up, ha.input_le.trans hb.down⟩
  | right ha => exact ⟨ha.input_le.trans hb.up, ha.output_le hb.down⟩

/-! ### Where two processes can go no further -/

/-- What a process waits for that can take no step. -/
inductive Waits (cap : Nat) (closed : Bool) (input output : List α) : Intent P α O → Prop
  | read {n : Nat} {then_ : Option (List α) → P} (hopen : closed = false) (hempty : input = []) :
      Waits cap closed input output (.read n then_)
  | write {part : List α} {then_ : Option Nat → P} (hopen : closed = false)
      (hfull : cap ≤ output.length) : Waits cap closed input output (.write part then_)
  | halt : Waits cap closed input output .halt

theorem waits_of_stuck {cap : Nat} {timeout closed : Bool} {input output : List α}
    {i : Intent P α O} (h : ∀ reply, act cap timeout closed input output reply i = none) :
    Waits cap closed input output i := by
  cases i with
  | halt => exact .halt
  | turn next shown => cases h .error
  | read n then_ =>
    have herr := h .error
    have hget := h (.upTo 0)
    simp only [act, ite_eq_right_iff, reduceCtorEq, imp_false, not_or, Bool.not_eq_true] at herr
    simp only [act, ite_eq_left_iff, reduceCtorEq, imp_false, not_not] at hget
    exact .read herr.1 hget
  | write part then_ =>
    have herr := h .error
    have hput := h (.upTo 0)
    simp only [act, ite_eq_right_iff, reduceCtorEq, imp_false, Bool.not_eq_true] at herr
    simp only [act, ite_eq_left_iff, reduceCtorEq, imp_false, not_not] at hput
    exact .write herr hput

/-- Where a connection may come to rest. -/
inductive AtRest (d : Link P Q α O) (s : State P Q α) : Prop
  | halted (hleft : (d.left s.left).halted = true) (hright : (d.right s.right).halted = true)
  | reading {n k : Nat} {f : Option (List α) → P} {g : Option (List α) → Q}
      (hleft : d.left s.left = .read n f) (hright : d.right s.right = .read k g) (hup : s.up = [])
      (hdown : s.down = [])
  | writing {xs ys : List α} {f : Option Nat → P} {g : Option Nat → Q}
      (hleft : d.left s.left = .write xs f) (hright : d.right s.right = .write ys g)
      (hup : d.upCap ≤ s.up.length) (hdown : d.downCap ≤ s.down.length)

/-- **A connection at rest** is over, or its ends wait for each other. -/
theorem stuck_cases (hup : 0 < d.upCap) (hdown : 0 < d.downCap) (h : d.machine.Stuck s) :
    AtRest d s := by
  have hleft : Waits d.upCap (d.right s.right).halted s.down s.up (d.left s.left) := by
    apply waits_of_stuck
    intro reply
    exact Option.map_eq_none_iff.mp (h (.left reply))
  have hright : Waits d.downCap (d.left s.left).halted s.up s.down (d.right s.right) := by
    apply waits_of_stuck
    intro reply
    exact Option.map_eq_none_iff.mp (h (.right reply))
  generalize hi : d.left s.left = i at hleft hright
  generalize hj : d.right s.right = j at hleft hright
  cases hleft with
  | halt =>
    cases hright with
    | halt => exact .halted (by rw [hi]; rfl) (by rw [hj]; rfl)
    | read hopen => cases hopen
    | write hopen => cases hopen
  | read hopen hempty =>
    cases hright with
    | halt => cases hopen
    | read _ hempty' => exact .reading hi hj hempty' hempty
    | write _ hfull =>
      rw [hempty] at hfull
      exact absurd hdown (Nat.not_lt.mpr hfull)
  | write hopen hfull =>
    cases hright with
    | halt => cases hopen
    | read _ hempty =>
      rw [hempty] at hfull
      exact absurd hup (Nat.not_lt.mpr hfull)
    | write _ hfull' => exact .writing hi hj hfull hfull'

end Link

end HftComponents.Lib.Duplex
