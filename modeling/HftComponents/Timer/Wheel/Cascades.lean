import HftComponents.Timer.Wheel.Boundary

/-!
# How often a timer is cascaded

`watched` is the wheel with its insertions and moves shown.  A move copies the
entry to a new node, so a timer is followed by the addresses of its nodes
(`tracks`), and not by its id.

A slot is visited when the block of its entries is reached, or a whole number of
turns of level `3` before that.  So a move out of level `1` or `2` lowers the
entry, and one out of level `3` does so unless `2 ^ 26` ticks or more remain
(`Keeps.move`).  `Level.ahead` bounds the moves that are still to come, and
`Tracked.cascades` is the result for the cascades of a tick.
-/

namespace HftComponents.Timer.Wheel

open TimerWheel

variable {κ : Type}

/-! ### The moves of a tick -/

/-- The node at `addr` goes from its slot to the new node at `copy`, with `left`
ticks to go. -/
structure Move where
  addr : Nat
  source : Place
  target : Place
  copy : Nat
  left : Nat

/-- The move of a node that `cascade` has swapped out of `p`. -/
def moveOf (p : Place) (w : TimerWheel κ) (n : Node κ) : Move where
  addr := n.addr
  source := p
  target := placeOf w.jiffies n.entry.expiryTick
  copy := w.nextAddr
  left := remaining w.jiffies n.entry.expiryTick

def reinsertMoves (p : Place) (w : TimerWheel κ) : List (Node κ) → List Move
  | [] => []
  | n :: rest => moveOf p w n :: reinsertMoves p (w.reinsert n) rest

def cascadeMoves (w : TimerWheel κ) (l : Level) : List Move :=
  let p : Place := ⟨l, l.slotOf w.jiffies⟩
  reinsertMoves p (w.swapOut p) (w.slots p)

def cascadesMoves : TimerWheel κ → List Level → List Move
  | _, [] => []
  | w, l :: ls => cascadeMoves w l ++ cascadesMoves (w.cascade l) ls

def turnMoves (w : TimerWheel κ) : List Move :=
  cascadesMoves { w with jiffies := w.jiffies + 1 } (cascaded (w.jiffies + 1))

/-! ### The wheel with its moves shown -/

inductive Shown (κ : Type)
  | event (e : Throwing.Event κ)
  | inserted (addr : Nat) (delay : UInt64)
  | moved (m : Move)

/-- The node that a step makes, for a new timer or a periodic one that goes back. -/
def inserts (s : State κ) : Throwing.Label κ → List (Shown κ)
  | .call (.schedule d _) => [.inserted s.wheel.nextAddr (atLeastOne d)]
  | .call (.schedulePeriodic i _) => [.inserted s.wheel.nextAddr (atLeastOne i)]
  | .call .ret =>
    match s.control with
    | .callback _ _ e _ =>
      if e.intervalTicks ≠ 0 then [.inserted s.wheel.nextAddr e.intervalTicks] else []
    | _ => []
  | _ => []

def moves (s : State κ) : Throwing.Label κ → List Move
  | .call .tick => turnMoves s.wheel
  | .call .next =>
    match s.control with
    | .advancing (_ + 1) _ => turnMoves s.wheel
    | _ => []
  | _ => []

def watched (κ : Type) : Lib.Machine (State κ) (Throwing.Label κ) (Shown κ) where
  step s l := (Throwing.step s l).map fun p =>
    (p.1, (moves s l).map .moved ++ inserts s l ++ p.2.map .event)

/-! ### The track of a timer -/

/-- What has become of a timer since it was inserted: the moves, the last one
first. -/
structure Track where
  delay : Nat
  moves : List Move := []

def Track.push (t : Track) (m : Move) : Track := { t with moves := m :: t.moves }

def note (r : Nat → Option Track) : Shown κ → Nat → Option Track
  | .inserted a d => Function.update r a (some { delay := d.toNat })
  | .moved m => Function.update r m.copy ((r m.addr).map fun t => t.push m)
  | .event _ => r

/-- The tracks by the addresses of the nodes. -/
def tracks : List (Shown κ) → Nat → Option Track := List.foldl note fun _ => none

def Level.index : Level → Nat
  | .l0 => 0
  | .l1 => 1
  | .l2 => 2
  | .l3 => 3

def Move.Lowers (m : Move) : Prop := m.target.level.index < m.source.level.index

def Move.Stays (m : Move) : Prop := m.source.level = .l3 ∧ m.target.level = .l3

/-- The next move after `m'` is `m`.  One that has left the entry on level `3` is
followed by one that finds it `2 ^ 26` ticks nearer. -/
def Apart (m m' : Move) : Prop :=
  m.source.level = m'.target.level ∧ (m'.Stays → m.left + 2 ^ 26 ≤ m'.left)

structure Track.Bounded (t : Track) : Prop where
  length : t.moves.length ≤ 3 + t.delay / 2 ^ 26
  down : ∀ m ∈ t.moves, m.Lowers ∨ m.Stays
  apart : t.moves.IsChain Apart

/-! ### One move -/

/-- The moves that an entry may still make, where at most `r` ticks remain. -/
def Level.ahead (l : Level) (r : Nat) (x : UInt64) : Nat :=
  match l with
  | .l3 => 3 + (r - x.toNat % 2 ^ 20) / 2 ^ 26
  | _ => l.index

/-- A track of an entry on level `l` that is visited with fewer than `r` ticks
to go. -/
structure Track.Keeps (t : Track) (r : Nat) (x : UInt64) (l : Level) : Prop where
  room : t.moves.length + l.ahead (r - 1) x ≤ 3 + t.delay / 2 ^ 26
  delay : r ≤ t.delay
  last : ∀ m ∈ t.moves.head?, m.target.level = l ∧
    (m.Stays → m.left % 2 ^ 26 = x.toNat % 2 ^ 20 ∧ r ≤ m.left)

variable {t : Track} {r r' : Nat} {j x : UInt64} {l : Level}

theorem Level.ahead_mono (l : Level) (x : UInt64) (h : r ≤ r') : l.ahead r x ≤ l.ahead r' x := by
  cases l with
  | l3 => exact Nat.add_le_add_left (Nat.div_le_div_right (Nat.sub_le_sub_right h _)) 3
  | _ => exact le_rfl

theorem Track.Keeps.mono (h : t.Keeps r' x l) (hr : r ≤ r') : t.Keeps r x l where
  room := by
    have hahead := l.ahead_mono x (Nat.sub_le_sub_right hr 1)
    have hroom := h.room
    omega
  delay := hr.trans h.delay
  last := by
    intro m hm
    obtain ⟨hlevel, hstays⟩ := h.last m hm
    exact ⟨hlevel, fun hst => ⟨(hstays hst).1, hr.trans (hstays hst).2⟩⟩

theorem keeps_new {d : Nat} (l : Level) (x : UInt64) :
    ({ delay := d } : Track).Keeps d x l where
  room := by
    show 0 + l.ahead (d - 1) x ≤ 3 + d / 2 ^ 26
    cases l with
    | l3 =>
      have := Nat.div_le_div_right (c := 2 ^ 26) (show d - 1 - x.toNat % 2 ^ 20 ≤ d by omega)
      simp only [Level.ahead]
      omega
    | _ =>
      simp only [Level.ahead, Level.index]
      omega
  delay := le_rfl
  last := by
    intro m hm
    cases hm

/-- **A visited entry goes down**, or stays on level `3` with a turn less to go. -/
theorem ahead_placeOf (hp : Placed j x ⟨l, l.slotOf j⟩) (hl : l ∈ cascaded j) :
    (placeOf j x).level.ahead (remaining j x - 1) x + 1 ≤ l.ahead (remaining j x) x ∧
      ((placeOf j x).level.index < l.index ∨ l = .l3 ∧ (placeOf j x).level = .l3) := by
  obtain ⟨hl0, hj⟩ := mem_cascaded.mp hl
  have hmod := remaining_of_visited hj hp.slot.symm
  have hrange := hp.range
  cases l with
  | l0 => exact absurd rfl hl0
  | l1 =>
    have hr := hrange (by simp)
    simp only [Level.grain, Level.span] at hmod hr
    rcases placeOf_cases j x with ⟨_, e⟩ | ⟨_, _, e⟩ | ⟨_, _, e⟩ | ⟨_, e⟩
    · rw [e]
      exact ⟨le_rfl, .inl (by simp [Level.index])⟩
    all_goals omega
  | l2 =>
    have hr := hrange (by simp)
    simp only [Level.grain, Level.span] at hmod hr
    rcases placeOf_cases j x with ⟨_, e⟩ | ⟨_, _, e⟩ | ⟨_, _, e⟩ | ⟨_, e⟩
    · rw [e]
      exact ⟨by simp only [Level.ahead, Level.index]; omega, .inl (by simp [Level.index])⟩
    · rw [e]
      exact ⟨by simp only [Level.ahead, Level.index]; omega, .inl (by simp [Level.index])⟩
    all_goals omega
  | l3 =>
    simp only [Level.grain, Level.span] at hmod
    rcases placeOf_cases j x with ⟨_, e⟩ | ⟨_, _, e⟩ | ⟨_, _, e⟩ | ⟨_, e⟩
    · rw [e]
      exact ⟨by simp only [Level.ahead, Level.index]; omega, .inl (by simp [Level.index])⟩
    · rw [e]
      exact ⟨by simp only [Level.ahead, Level.index]; omega, .inl (by simp [Level.index])⟩
    · rw [e]
      exact ⟨by simp only [Level.ahead, Level.index]; omega, .inl (by simp [Level.index])⟩
    · rw [e]
      refine ⟨?_, .inr ⟨rfl, rfl⟩⟩
      -- a whole number of turns remains, and one of them is over
      simp only [Level.ahead]
      omega

theorem Track.Keeps.move (h : t.Keeps (remaining j x + 1) x l)
    (hp : Placed j x ⟨l, l.slotOf j⟩) (hl : l ∈ cascaded j) {m : Move}
    (hsource : m.source = ⟨l, l.slotOf j⟩) (htarget : m.target = placeOf j x)
    (hleft : m.left = remaining j x) :
    (t.push m).Keeps (remaining j x) x (placeOf j x).level ∧ (m.Lowers ∨ m.Stays) ∧
      ∀ m' ∈ t.moves.head?, Apart m m' := by
  obtain ⟨hahead, hdown⟩ := ahead_placeOf hp hl
  have hmod : l = .l3 → remaining j x % 2 ^ 26 = x.toNat % 2 ^ 20 := by
    rintro rfl
    exact remaining_of_visited (mem_cascaded.mp hl).2 hp.slot.symm
  refine ⟨⟨?_, (Nat.le_succ _).trans h.delay, ?_⟩, ?_, ?_⟩
  · have hroom := h.room
    rw [Nat.add_sub_cancel] at hroom
    show t.moves.length + 1 + _ ≤ 3 + t.delay / 2 ^ 26
    omega
  · intro m' hm'
    obtain rfl := Option.some.inj hm'
    refine ⟨by rw [htarget], fun hst => ?_⟩
    have hl3 := hst.1
    rw [hsource] at hl3
    rw [hleft]
    exact ⟨hmod hl3, le_rfl⟩
  · rw [Move.Lowers, Move.Stays, hsource, htarget]
    exact hdown
  · intro m' hm'
    obtain ⟨hlevel, hlast⟩ := h.last m' hm'
    refine ⟨by rw [hsource, hlevel], fun hst => ?_⟩
    obtain ⟨hmod', hle⟩ := hlast hst
    have := hmod (hlevel.symm.trans hst.2)
    rw [hleft]
    omega

/-! ### The tracks of a wheel -/

/-- Every entry has a track; those that the levels `ls` are still to visit have
had no move at this tick. -/
structure Tracked (os : List (Shown κ)) (w : TimerWheel κ) (ls : List Level) : Prop where
  fresh : ∀ a, w.nextAddr ≤ a → tracks os a = none
  live : ∀ p, ∀ n ∈ w.slots p, ∃ t, tracks os n.addr = some t ∧
    t.Keeps (remaining w.jiffies n.entry.expiryTick) n.entry.expiryTick p.level ∧
    ∀ l ∈ ls, p = ⟨l, l.slotOf w.jiffies⟩ →
      t.Keeps (remaining w.jiffies n.entry.expiryTick + 1) n.entry.expiryTick l
  bounded : ∀ a t, tracks os a = some t → t.Bounded
  shown : ∀ m, .moved m ∈ os → ∃ t, tracks os m.copy = some t ∧ t.moves.head? = some m
  delays : ∀ a t, tracks os a = some t → ∃ b d, .inserted b d ∈ os ∧ t.delay = d.toNat

variable {w w' : TimerWheel κ} {os : List (Shown κ)} {ls : List Level}

theorem tracks_concat (os : List (Shown κ)) (o : Shown κ) :
    tracks (os ++ [o]) = note (tracks os) o := by
  rw [tracks, List.foldl_append]
  rfl

namespace Tracked

theorem addr_lt (h : Tracked os w ls) {a : Nat} (ha : tracks os a = some t) : a < w.nextAddr := by
  by_contra hge
  rw [h.fresh a (not_lt.mp hge)] at ha
  cases ha

theorem of_sub (h : Tracked os w ls) (hs : ∀ p, ∀ n ∈ w'.slots p, n ∈ w.slots p)
    (hj : w'.jiffies = w.jiffies) (hn : w'.nextAddr = w.nextAddr) : Tracked os w' ls where
  fresh := by rw [hn]; exact h.fresh
  live := by
    rw [hj]
    exact fun p n hmem => h.live p n (hs p n hmem)
  bounded := h.bounded
  shown := h.shown
  delays := h.delays

theorem event (h : Tracked os w ls) (e : Throwing.Event κ) :
    Tracked (os ++ [.event e]) w ls := by
  have htracks : tracks (os ++ [.event e]) = tracks os := tracks_concat os _
  refine ⟨?_, ?_, ?_, ?_, ?_⟩
  · rw [htracks]
    exact h.fresh
  · rw [htracks]
    exact h.live
  · rw [htracks]
    exact h.bounded
  · rw [htracks]
    intro m hm
    rcases List.mem_append.mp hm with hm | hm
    · exact h.shown m hm
    · cases List.mem_singleton.mp hm
  · rw [htracks]
    intro a t ht
    obtain ⟨b, d, hmem, hd⟩ := h.delays a t ht
    exact ⟨b, d, List.mem_append_left _ hmem, hd⟩

theorem events (h : Tracked os w ls) (es : List (Throwing.Event κ)) :
    Tracked (os ++ es.map .event) w ls := by
  induction es generalizing os with
  | nil =>
    rw [List.map_nil, List.append_nil]
    exact h
  | cons e es ih =>
    have hrest := ih (h.event e)
    rwa [List.append_assoc] at hrest

theorem put (h : Tracked os w ls) {e : Entry κ} {o : Shown κ}
    (ho : note (tracks os) o = Function.update (tracks os) w.nextAddr (some t))
    (hslots : w'.slots = (w.insert e).slots) (hj : w'.jiffies = w.jiffies)
    (hn : w'.nextAddr = w.nextAddr + 1)
    (hkeeps : t.Keeps (remaining w.jiffies e.expiryTick) e.expiryTick
      (placeOf w.jiffies e.expiryTick).level)
    (hls : ∀ l ∈ ls, placeOf w.jiffies e.expiryTick ≠ ⟨l, l.slotOf w.jiffies⟩) (hb : t.Bounded)
    (hm : ∀ m, o = .moved m → m.copy = w.nextAddr ∧ t.moves.head? = some m)
    (hd : ∃ b d, .inserted b d ∈ os ++ [o] ∧ t.delay = d.toNat) : Tracked (os ++ [o]) w' ls := by
  have htracks : tracks (os ++ [o]) = Function.update (tracks os) w.nextAddr (some t) :=
    (tracks_concat os o).trans ho
  have hold : ∀ a t', tracks os a = some t' → tracks (os ++ [o]) a = some t' := by
    intro a t' ha
    rw [htracks, Function.update_of_ne (h.addr_lt ha).ne]
    exact ha
  have hnew : tracks (os ++ [o]) w.nextAddr = some t := by rw [htracks, Function.update_self]
  refine ⟨?_, ?_, ?_, ?_, ?_⟩
  · intro a ha
    rw [hn] at ha
    rw [htracks, Function.update_of_ne (by omega)]
    exact h.fresh a (by omega)
  · rw [hj]
    intro p n hmem
    rw [hslots] at hmem
    rcases mem_insert_slots.mp hmem with hmem | ⟨rfl, rfl⟩
    · obtain ⟨t', ht', hk⟩ := h.live p n hmem
      exact ⟨t', hold _ _ ht', hk⟩
    · exact ⟨t, hnew, hkeeps, fun l hl hp => absurd hp (hls l hl)⟩
  · intro a t' ha
    rw [htracks] at ha
    by_cases hcopy : a = w.nextAddr
    · subst hcopy
      rw [Function.update_self] at ha
      obtain rfl := Option.some.inj ha
      exact hb
    · rw [Function.update_of_ne hcopy] at ha
      exact h.bounded a t' ha
  · intro m hmem
    rcases List.mem_append.mp hmem with hmem | hmem
    · obtain ⟨t', ht', hhead⟩ := h.shown m hmem
      exact ⟨t', hold _ _ ht', hhead⟩
    · obtain ⟨hcopy, hhead⟩ := hm m (List.mem_singleton.mp hmem).symm
      rw [hcopy]
      exact ⟨t, hnew, hhead⟩
  · intro a t' ha
    rw [htracks] at ha
    by_cases hcopy : a = w.nextAddr
    · subst hcopy
      rw [Function.update_self] at ha
      obtain rfl := Option.some.inj ha
      exact hd
    · rw [Function.update_of_ne hcopy] at ha
      obtain ⟨b, d, hmem, heq⟩ := h.delays a t' ha
      exact ⟨b, d, List.mem_append_left _ hmem, heq⟩

theorem inserted (h : Tracked os w []) {e : Entry κ} {d : UInt64}
    (he : e.expiryTick = w.jiffies + d) (hslots : w'.slots = (w.insert e).slots)
    (hj : w'.jiffies = w.jiffies) (hn : w'.nextAddr = w.nextAddr + 1) :
    Tracked (os ++ [.inserted w.nextAddr d]) w' [] := by
  refine h.put (t := { delay := d.toNat }) rfl hslots hj hn ?_ nofun ?_ nofun ?_
  · rw [he, remaining_add]
    exact keeps_new _ _
  · exact ⟨Nat.zero_le _, nofun, .nil⟩
  · exact ⟨_, d, List.mem_append_right os List.mem_cons_self, rfl⟩

theorem advance (h : Tracked os w []) (htimely : Timely w) (ls : List Level) :
    Tracked os { w with jiffies := w.jiffies + 1 } ls := by
  refine ⟨h.fresh, ?_, h.bounded, h.shown, h.delays⟩
  intro p n hn
  have hpos := (htimely p n hn).pos
  obtain ⟨t, ht, hkeeps, -⟩ := h.live p n hn
  have hsucc : remaining (w.jiffies + 1) n.entry.expiryTick + 1 =
      remaining w.jiffies n.entry.expiryTick := by
    rw [remaining_succ hpos]
    omega
  refine ⟨t, ht, hkeeps.mono (by rw [← hsucc]; exact Nat.le_succ _), ?_⟩
  rintro l - rfl
  show t.Keeps (remaining (w.jiffies + 1) n.entry.expiryTick + 1) _ l
  rw [hsucc]
  exact hkeeps

/-- What a list that has been swapped out of a visited slot is like. -/
def Visited (os : List (Shown κ)) (w : TimerWheel κ) (l : Level) (moved : List (Node κ)) : Prop :=
  ∀ n ∈ moved, Placed w.jiffies n.entry.expiryTick ⟨l, l.slotOf w.jiffies⟩ ∧
    ∃ t, tracks os n.addr = some t ∧
      t.Keeps (remaining w.jiffies n.entry.expiryTick + 1) n.entry.expiryTick l

/-- **One turn of the loop of `cascade`.** -/
theorem reinsert (h : Tracked os w ls) (hl : l ∈ cascaded w.jiffies)
    (hls : ∀ k ∈ ls, k ∈ cascaded w.jiffies ∧ k ≠ l) {n : Node κ} {rest : List (Node κ)}
    (hv : Visited os w l (n :: rest)) :
    Tracked (os ++ [.moved (moveOf ⟨l, l.slotOf w.jiffies⟩ w n)]) (w.reinsert n) ls ∧
      Visited (os ++ [.moved (moveOf ⟨l, l.slotOf w.jiffies⟩ w n)]) (w.reinsert n) l rest := by
  obtain ⟨hplaced, t, ht, hkeeps⟩ := hv n List.mem_cons_self
  let m := moveOf ⟨l, l.slotOf w.jiffies⟩ w n
  obtain ⟨hkeeps', hdown, hapart⟩ := hkeeps.move (m := m) hplaced hl rfl rfl rfl
  have hb := h.bounded _ t ht
  have hnote : note (tracks os) (Shown.moved m : Shown κ) =
      Function.update (tracks os) w.nextAddr (some (t.push m)) := by
    show Function.update (tracks os) w.nextAddr ((tracks os n.addr).map fun t => t.push m) = _
    rw [ht]
    rfl
  refine ⟨h.put hnote rfl rfl rfl hkeeps' ?_ ?_ ?_ ?_, ?_⟩
  · intro k hk
    exact placeOf_ne_visited (hls k hk).1 (hls k hk).2 hplaced
  · refine ⟨(Nat.le_add_right _ _).trans hkeeps'.room, ?_, hb.apart.cons hapart⟩
    intro m' hm'
    rcases List.mem_cons.mp hm' with rfl | hm'
    · exact hdown
    · exact hb.down m' hm'
  · intro m' hm'
    obtain rfl := Shown.moved.inj hm'
    exact ⟨rfl, rfl⟩
  · obtain ⟨b, d, hmem, hd⟩ := h.delays _ t ht
    exact ⟨b, d, List.mem_append_left _ hmem, hd⟩
  · intro k hk
    obtain ⟨hplaced', t', ht', hkeeps''⟩ := hv k (List.mem_cons_of_mem n hk)
    refine ⟨hplaced', t', ?_, hkeeps''⟩
    rw [tracks_concat, hnote, Function.update_of_ne (h.addr_lt ht').ne]
    exact ht'

theorem foldl_reinsert (moved : List (Node κ)) {os : List (Shown κ)} {w : TimerWheel κ}
    (h : Tracked os w ls) (hl : l ∈ cascaded w.jiffies)
    (hls : ∀ k ∈ ls, k ∈ cascaded w.jiffies ∧ k ≠ l) (hv : Visited os w l moved) :
    Tracked (os ++ (reinsertMoves ⟨l, l.slotOf w.jiffies⟩ w moved).map .moved)
      (moved.foldl TimerWheel.reinsert w) ls := by
  induction moved generalizing os w with
  | nil =>
    rw [reinsertMoves, List.map_nil, List.append_nil]
    exact h
  | cons n rest ih =>
    obtain ⟨hone, hrest⟩ := h.reinsert hl hls hv
    have hall := ih hone hl hls hrest
    rwa [List.append_assoc] at hall

theorem cascade (h : Tracked os w (l :: ls)) (hplaced : AllPlaced w)
    (hall : ∀ k ∈ l :: ls, k ∈ cascaded w.jiffies) (hnodup : (l :: ls).Nodup) :
    Tracked (os ++ (cascadeMoves w l).map .moved) (w.cascade l) ls := by
  obtain ⟨hnot, -⟩ := List.nodup_cons.mp hnodup
  have hl := hall l List.mem_cons_self
  have hls : ∀ k ∈ ls, k ∈ cascaded w.jiffies ∧ k ≠ l := by
    intro k hk
    refine ⟨hall k (List.mem_cons_of_mem l hk), ?_⟩
    rintro rfl
    exact hnot hk
  have hv : Visited os w l (w.slots ⟨l, l.slotOf w.jiffies⟩) := by
    intro n hn
    obtain ⟨t, ht, -, hkeeps⟩ := h.live _ n hn
    exact ⟨hplaced _ n hn, t, ht, hkeeps l List.mem_cons_self rfl⟩
  have hswapped : Tracked os (w.swapOut ⟨l, l.slotOf w.jiffies⟩) ls := by
    refine Tracked.of_sub (w := w) ⟨h.fresh, ?_, h.bounded, h.shown, h.delays⟩ ?_ rfl rfl
    · intro p n hn
      obtain ⟨t, ht, hkeeps, hvisit⟩ := h.live p n hn
      exact ⟨t, ht, hkeeps, fun k hk => hvisit k (List.mem_cons_of_mem l hk)⟩
    · intro p n hn
      rcases mem_update.mp hn with ⟨-, hn⟩ | ⟨-, hn⟩
      · exact absurd hn List.not_mem_nil
      · exact hn
  exact (hswapped.foldl_reinsert _ hl hls hv).of_sub (fun _ _ hn => hn) rfl rfl

/-- **The cascades of a tick.** -/
theorem cascades {ls : List Level} {os : List (Shown κ)} {w : TimerWheel κ} (h : Tracked os w ls)
    (hplaced : AllPlaced w) (hall : ∀ k ∈ ls, k ∈ cascaded w.jiffies) (hnodup : ls.Nodup) :
    Tracked (os ++ (cascadesMoves w ls).map .moved) (ls.foldl TimerWheel.cascade w) [] := by
  induction ls generalizing os w with
  | nil =>
    rw [cascadesMoves, List.map_nil, List.append_nil]
    exact h
  | cons l ls ih =>
    have hrest := ih (h.cascade hplaced hall hnodup) (hplaced.cascade l)
      (by rw [cascade_jiffies]; exact fun k hk => hall k (List.mem_cons_of_mem l hk))
      (List.nodup_cons.mp hnodup).2
    rwa [List.append_assoc, ← List.map_append] at hrest

end Tracked

end HftComponents.Timer.Wheel
