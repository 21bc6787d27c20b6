import HftComponents.Spsc.Lossy

/-!
# The seqlock invariant

`started` counts the pushes that have marked their slot, `committed` those that
have made its generation even again.  A message is intact as long as no push a
lap later has started (`Seqlock.stored`), and a generation is odd only in the
slot being written (`Seqlock.parity`).

The consumer compares two loads of one generation, but never the generation
with the lap it belongs to.  So its first load proves nothing by itself, and
what holds from there on (`Guard`) holds under `NotLapped`: at the first load
no later push has committed to the slot, and at the second the 32 bits of the
generation have not come round.  Then an unchanged generation means an intact
message, and a changed one a push that has started a lap later.
-/

namespace HftComponents.Spsc.Lossy

open Lib.Ring
open Bus (empty rslot)

/-- The pushes that have begun to write their slot. -/
def started (s : State) : Nat :=
  match s.push with
  | .setSize _ _ | .copy _ _ _ | .publish _ => s.prod.writePos + 1
  | _ => s.prod.writePos

/-- The slot is being written. -/
def Push.Writing : Push → Prop
  | .setSize _ _ | .copy _ _ _ => True
  | _ => False

/-- No push a lap later has committed when the consumer takes an even
generation, and none has brought its 32 bits back when it compares. -/
def NotLapped (s : State) : Label → Prop
  | .consumer =>
    match s.pop with
    | .loadGen _ =>
      odd (s.seg.generation (rslot s.cons)) = false →
        committed s ≤ s.cons.readPos + s.prod.capacity.toNat
    | .copy _ gen1 _ copySz out =>
      copySz.toNat ≤ out.length → s.seg.generation (rslot s.cons) < gen1 + 2 ^ 32
    | _ => True
  | _ => True

instance decidableNotLapped (s : State) : (l : Label) → Decidable (NotLapped s l)
  | .consumer =>
    match hp : s.pop with
    | .loadGen _ =>
      decidable_of_iff (odd (s.seg.generation (rslot s.cons)) = false →
        committed s ≤ s.cons.readPos + s.prod.capacity.toNat) (by unfold NotLapped; rw [hp])
    | .copy _ gen1 _ copySz out =>
      decidable_of_iff (copySz.toNat ≤ out.length →
        s.seg.generation (rslot s.cons) < gen1 + 2 ^ 32) (by unfold NotLapped; rw [hp])
    | .idle | .reload _ | .fastForward _ _ | .getSize _ _ | .store _ _ _ _ | .relocate _ _
    | .storeLost _ _ _ => isTrue (by unfold NotLapped; rw [hp]; trivial)
  | .push _ | .producer | .tryPopLossy _ => isTrue trivial

/-- The call with buffer size `r.1` returned message `i` of `ms`. -/
def Returns (ms : List (List UInt8)) (r : UInt32 × UInt32 × List UInt8) (i : Nat) : Prop :=
  ∃ msg, ms[i]? = some msg ∧ r.2.1 = u32 msg.length ∧ r.2.2 = msg.take r.1.toNat

/-- What the generation `gen1` of the consumer's slot stands for. -/
def Guard (s : State) (gen1 : Nat) : Prop :=
  gen1 % 2 = 0 ∧
    (s.seg.generation (rslot s.cons) = gen1 ∧
        started s ≤ s.cons.readPos + s.prod.capacity.toNat ∨
      gen1 < s.seg.generation (rslot s.cons) ∧
        s.cons.readPos + s.prod.capacity.toNat < started s)

def PushOk (s : State) : Push → Prop
  | .idle => True
  | .loadGen msg => msg.length ≤ s.prod.maxMsg.toNat
  | .storeOdd msg g =>
    msg.length ≤ s.prod.maxMsg.toNat ∧ g % 2 = 0 ∧ s.seg.generation (wslot s.prod) = g
  | .setSize msg g =>
    msg.length ≤ s.prod.maxMsg.toNat ∧ g % 2 = 0 ∧ s.seg.generation (wslot s.prod) = g + 1
  | .copy msg g k =>
    msg.length ≤ s.prod.maxMsg.toNat ∧ g % 2 = 0 ∧ s.seg.generation (wslot s.prod) = g + 1 ∧
      k ≤ msg.length ∧ Holds s.seg (wslot s.prod) msg k
  | .publish msg =>
    msg.length ≤ s.prod.maxMsg.toNat ∧ Holds s.seg (wslot s.prod) msg msg.length

def PopOk (ms : List (List UInt8)) (s : State) : Pop → Prop
  | .idle => True
  | .reload _ => True
  | .fastForward _ p => s.cons.readPos < p ∧ p ≤ s.cons.writeCache
  | .loadGen _ => s.cons.readPos < s.cons.writeCache
  | .getSize _ gen1 => s.cons.readPos < s.cons.writeCache ∧ Guard s gen1
  | .copy bufSize gen1 msgSz copySz out =>
    s.cons.readPos < s.cons.writeCache ∧ Guard s gen1 ∧ out.length ≤ copySz.toNat ∧
      (s.seg.generation (rslot s.cons) = gen1 →
        ∃ msg, ms[s.cons.readPos]? = some msg ∧ msgSz = u32 msg.length ∧
          copySz.toNat = min msg.length bufSize.toNat ∧ out = msg.take out.length)
  | .store bufSize msgSz out index =>
    s.cons.readPos < s.cons.writeCache ∧ index = s.cons.readPos ∧
      Returns ms (bufSize, msgSz, out) index
  | .relocate _ _ => s.cons.readPos + s.prod.capacity.toNat < started s
  | .storeLost _ _ p =>
    s.cons.readPos ≤ p ∧ p ≤ s.cons.writeCache ∧
      (s.cons.readPos < p ∨ s.cons.readPos + s.prod.capacity.toNat < started s)

/-- `ms` are the messages pushed so far. -/
structure Seqlock (ms : List (List UInt8)) (s : State) : Prop where
  geometry : Geometry s.prod.capacity s.prod.stride s.prod.maxMsg
  sameCapacity : s.cons.capacity = s.prod.capacity
  sameStride : s.cons.stride = s.prod.stride
  writePos : s.seg.cb.writePos = s.prod.writePos
  count : ms.length = s.prod.writePos
  order : s.cons.readPos ≤ s.cons.writeCache
  writeCache : s.cons.writeCache ≤ s.prod.writePos
  fits : ∀ msg ∈ ms, msg.length ≤ s.prod.maxMsg.toNat
  stored : ∀ i msg, ms[i]? = some msg → started s ≤ i + s.prod.capacity.toNat →
    Holds s.seg (slotPtr s.prod.capacity s.prod.stride i) msg msg.length
  parity : ∀ p, s.seg.generation (slotPtr s.prod.capacity s.prod.stride p) % 2 = 1 →
    s.push.Writing ∧ p % s.prod.capacity.toNat = s.prod.writePos % s.prod.capacity.toNat
  push : PushOk s s.push
  pop : PopOk ms s s.pop

variable {s u : State} {o : List Event} {a : Option (List UInt8)} {ms : List (List UInt8)}
  {r : UInt32 × UInt32 × List UInt8} {msg : List UInt8} {g i : Nat}

theorem NotLapped.recent {b msgSz copySz : UInt32} {gen1 : Nat} {out : List UInt8}
    (h : NotLapped s .consumer) (hp : s.pop = .copy b gen1 msgSz copySz out)
    (hle : copySz.toNat ≤ out.length) : s.seg.generation (rslot s.cons) < gen1 + 2 ^ 32 := by
  unfold NotLapped at h
  rw [hp] at h
  exact h hle

theorem odd_iff (g : Nat) : odd g = true ↔ g % 2 = 1 := by
  have hand : (u32 g &&& 1).toNat = g % 2 := by
    rw [UInt32.toNat_and, toNat_u32]
    show g % 2 ^ 32 &&& 1 = g % 2
    rw [Nat.and_one_is_mod]
    omega
  rw [odd, decide_eq_true_iff, ← UInt32.toNat_inj, hand]
  rfl

theorem mod_two_of_even (h : odd g = false) : g % 2 = 0 := by
  have hne : g % 2 ≠ 1 := by
    intro hg
    rw [(odd_iff g).mpr hg] at h
    cases h
  omega

theorem started_le (s : State) : started s ≤ s.prod.writePos + 1 := by
  unfold started
  split <;> omega

theorem le_committed (s : State) : s.prod.writePos ≤ committed s := by
  unfold committed
  split <;> omega

theorem committed_le_started (s : State) : committed s ≤ started s := by
  unfold committed started
  cases s.push with
  | setSize _ _ | copy _ _ _ => exact Nat.le_succ _
  | _ => exact le_rfl

/-- The push that has started and not committed is writing. -/
theorem started_eq_committed (h : ¬ s.push.Writing) : started s = committed s := by
  unfold started committed
  cases hp : s.push with
  | setSize _ _ => exact absurd (by rw [hp]; trivial) h
  | copy _ _ _ => exact absurd (by rw [hp]; trivial) h
  | _ => rfl

theorem Returns.append (h : Returns ms r i) (more : List (List UInt8)) :
    Returns (ms ++ more) r i := by
  obtain ⟨msg, hget, hrest⟩ := h
  refine ⟨msg, ?_, hrest⟩
  rw [List.getElem?_append_left (List.getElem?_eq_some_iff.mp hget).1, hget]

/-! ### What a step of the producer leaves of the consumer's view -/

theorem Guard.congr {s u : State} {gen1 : Nat} (h : Guard s gen1) (hcons : u.cons = s.cons)
    (hcap : u.prod.capacity = s.prod.capacity)
    (hgen : u.seg.generation (rslot s.cons) = s.seg.generation (rslot s.cons))
    (hstart : started u = started s) : Guard u gen1 := by
  unfold Guard
  rw [hcons, hcap, hgen, hstart]
  exact h

theorem Guard.le_generation {gen1 : Nat} (h : Guard s gen1) :
    gen1 ≤ s.seg.generation (rslot s.cons) := by
  rcases h.2 with hsame | hlater
  · exact hsame.1.ge
  · exact hlater.1.le

/-- As long as it is the same, no push a lap later has started. -/
theorem Guard.started_le {gen1 : Nat} (h : Guard s gen1)
    (heq : s.seg.generation (rslot s.cons) = gen1) :
    started s ≤ s.cons.readPos + s.prod.capacity.toNat := by
  rcases h.2 with hsame | hlater
  · exact hsame.2
  · exact absurd heq hlater.1.ne'

/-- A step of the producer that does not lower the generation. -/
theorem PopOk.of_push {s u : State} {pop : Pop} (h : PopOk ms s pop) (more : List (List UInt8))
    (hcons : u.cons = s.cons) (hcap : u.prod.capacity = s.prod.capacity)
    (hgen : s.seg.generation (rslot s.cons) ≤ u.seg.generation (rslot s.cons))
    (hstart : started s ≤ started u)
    (hguard : s.cons.readPos < s.cons.writeCache → ∀ gen1, Guard s gen1 → Guard u gen1) :
    PopOk (ms ++ more) u pop := by
  cases pop with
  | idle => trivial
  | reload b => trivial
  | fastForward b p =>
    unfold PopOk at h ⊢
    rw [hcons]
    exact h
  | loadGen b =>
    unfold PopOk at h ⊢
    rw [hcons]
    exact h
  | getSize b gen1 =>
    obtain ⟨hlt, hg⟩ := h
    refine ⟨?_, hguard hlt gen1 hg⟩
    rw [hcons]
    exact hlt
  | copy b gen1 msgSz copySz out =>
    obtain ⟨hlt, hg, hlen, hout⟩ := h
    unfold PopOk
    rw [hcons]
    refine ⟨hlt, hguard hlt gen1 hg, hlen, ?_⟩
    intro heq
    have hle := hg.le_generation
    obtain ⟨msg, hget, hrest⟩ := hout (le_antisymm (hgen.trans heq.le) hle)
    refine ⟨msg, ?_, hrest⟩
    rw [List.getElem?_append_left (List.getElem?_eq_some_iff.mp hget).1, hget]
  | store b msgSz out index =>
    unfold PopOk at h ⊢
    rw [hcons]
    exact ⟨h.1, h.2.1, h.2.2.append more⟩
  | relocate b out =>
    unfold PopOk at h ⊢
    rw [hcons, hcap]
    exact h.trans_le hstart
  | storeLost b out p =>
    unfold PopOk at h ⊢
    rw [hcons, hcap]
    refine ⟨h.1, h.2.1, ?_⟩
    apply h.2.2.imp_right
    intro hlap
    exact hlap.trans_le hstart

/-- A step of the producer that changes no generation. -/
theorem PopOk.of_quiet {s u : State} {pop : Pop} (h : PopOk ms s pop) (more : List (List UInt8))
    (hcons : u.cons = s.cons) (hcap : u.prod.capacity = s.prod.capacity)
    (hgen : u.seg.generation = s.seg.generation) (hstart : started u = started s) :
    PopOk (ms ++ more) u pop := by
  refine h.of_push more hcons hcap (by rw [hgen]) hstart.ge ?_
  intro _ gen1 hguard
  exact hguard.congr hcons hcap (by rw [hgen]) hstart

namespace Seqlock

theorem quiet (h : Seqlock ms s) (hpush : pushed o = []) : Seqlock (ms ++ pushed o) s := by
  rw [hpush, List.append_nil]
  exact h

theorem rslot_eq (h : Seqlock ms s) :
    rslot s.cons = slotPtr s.prod.capacity s.prod.stride s.cons.readPos := by
  unfold rslot
  rw [h.sameCapacity, h.sameStride]

theorem lt_of_getElem? (h : Seqlock ms s) (hi : ms[i]? = some msg) : i < s.prod.writePos := by
  rw [← h.count]
  exact (List.getElem?_eq_some_iff.mp hi).1

theorem even_of_not_writing (h : Seqlock ms s) (hw : ¬ s.push.Writing) (p : Nat) :
    s.seg.generation (slotPtr s.prod.capacity s.prod.stride p) % 2 = 0 := by
  have hne : s.seg.generation (slotPtr s.prod.capacity s.prod.stride p) % 2 ≠ 1 := by
    intro hodd
    exact hw (h.parity p hodd).1
  omega

/-- The generation of the consumer's slot, after a store to the producer's. -/
theorem generation_rslot (h : Seqlock ms s) (n : Nat) :
    s.cons.readPos % s.prod.capacity.toNat = s.prod.writePos % s.prod.capacity.toNat ∧
        rslot s.cons = wslot s.prod ∧
        (s.seg.setGeneration (wslot s.prod) n).generation (rslot s.cons) = n ∨
      s.cons.readPos % s.prod.capacity.toNat ≠ s.prod.writePos % s.prod.capacity.toNat ∧
        (s.seg.setGeneration (wslot s.prod) n).generation (rslot s.cons) =
          s.seg.generation (rslot s.cons) := by
  rw [h.rslot_eq]
  by_cases hmod : s.cons.readPos % s.prod.capacity.toNat = s.prod.writePos % s.prod.capacity.toNat
  · refine Or.inl ⟨hmod, h.geometry.slot_congr hmod, ?_⟩
    rw [h.geometry.slot_congr hmod]
    exact Function.update_self ..
  · exact Or.inr ⟨hmod, Function.update_of_ne (h.geometry.slotPtr_ne hmod) _ _⟩

theorem setPush (h : Seqlock ms s) {push : Push} (hw : push.Writing ↔ s.push.Writing)
    (hstart : started { s with push := push } = started s) (hok : PushOk s push) :
    Seqlock ms { s with push := push } := by
  refine { h with
    stored := ?_
    parity := ?_
    push := hok
    pop := ?_ }
  · intro i msg hget hle
    exact h.stored i msg hget (hstart ▸ hle)
  · intro p hodd
    obtain ⟨hwriting, hmod⟩ := h.parity p hodd
    exact ⟨hw.mpr hwriting, hmod⟩
  have hpop := h.pop.of_quiet (u := { s with push := push }) [] rfl rfl rfl hstart
  rwa [List.append_nil] at hpop

theorem slot_ne (h : Seqlock ms s) (hi : ms[i]? = some msg)
    (hle : s.prod.writePos + 1 ≤ i + s.prod.capacity.toNat) :
    i % s.prod.capacity.toNat ≠ s.prod.writePos % s.prod.capacity.toNat := by
  apply mod_ne_of_window (h.lt_of_getElem? hi)
  omega

theorem write (h : Seqlock ms s) (hs : started s = s.prod.writePos + 1) {seg : Segment}
    {push : Push} (hwrite : push.Writing)
    (hstart : started { s with seg := seg, push := push } = s.prod.writePos + 1)
    (hcb : seg.cb = s.seg.cb) (hgen : seg.generation = s.seg.generation)
    (hholds : ∀ i msg, i % s.prod.capacity.toNat ≠ s.prod.writePos % s.prod.capacity.toNat →
      msg.length ≤ s.prod.maxMsg.toNat →
      Holds s.seg (slotPtr s.prod.capacity s.prod.stride i) msg msg.length →
      Holds seg (slotPtr s.prod.capacity s.prod.stride i) msg msg.length)
    (hok : PushOk { s with seg := seg } push) :
    Seqlock ms { s with seg := seg, push := push } := by
  refine { h with
    writePos := by
      show seg.cb.writePos = _
      rw [hcb, h.writePos]
    stored := ?_
    parity := ?_
    push := hok
    pop := ?_ }
  · intro i msg hget hle
    rw [hstart] at hle
    exact hholds i msg (h.slot_ne hget hle) (h.fits msg (List.mem_of_getElem? hget))
      (h.stored i msg hget (hs ▸ hle))
  · intro p hodd
    have hodd' : s.seg.generation (slotPtr s.prod.capacity s.prod.stride p) % 2 = 1 := hgen ▸ hodd
    exact ⟨hwrite, (h.parity p hodd').2⟩
  · have hpop := h.pop.of_quiet (u := { s with seg := seg, push := push }) [] rfl rfl hgen
      (hstart.trans hs.symm)
    rwa [List.append_nil] at hpop

/-- The mark on the slot of `write_pos`. -/
theorem guard_storeOdd (h : Seqlock ms s) (hp : s.push = .storeOdd msg g) {gen1 : Nat}
    (hlt : s.cons.readPos < s.cons.writeCache) (hguard : Guard s gen1) :
    Guard { s with
      seg := s.seg.setGeneration (wslot s.prod) (g + 1), push := .setSize msg g } gen1 := by
  have hpush := h.push
  rw [hp] at hpush
  have hgen := hpush.2.2
  have hs : started s = s.prod.writePos := by rw [started, hp]
  have hwc := h.writeCache
  obtain ⟨heven, hor⟩ := hguard
  rw [hs] at hor
  refine ⟨heven, ?_⟩
  show (s.seg.setGeneration (wslot s.prod) (g + 1)).generation (rslot s.cons) = gen1 ∧
      s.prod.writePos + 1 ≤ s.cons.readPos + s.prod.capacity.toNat ∨
    gen1 < (s.seg.setGeneration (wslot s.prod) (g + 1)).generation (rslot s.cons) ∧
      s.cons.readPos + s.prod.capacity.toNat < s.prod.writePos + 1
  rcases h.generation_rslot (g + 1) with ⟨hmod, hslot, hnew⟩ | ⟨hmod, hold⟩
  · -- the slot of the consumer: the producer starts a lap later
    have hlap := add_le_of_mod_eq (hlt.trans_le hwc) hmod
    rw [hnew]
    rw [hslot, hgen] at hor
    right
    omega
  · have hne : s.prod.writePos ≠ s.cons.readPos + s.prod.capacity.toNat := by
      intro heq
      rw [heq, Nat.add_mod_right] at hmod
      exact hmod rfl
    rw [hold]
    omega

theorem storeOdd (h : Seqlock ms s) (hp : s.push = .storeOdd msg g) :
    Seqlock ms { s with
      seg := s.seg.setGeneration (wslot s.prod) (g + 1), push := .setSize msg g } := by
  have hpush := h.push
  rw [hp] at hpush
  obtain ⟨hlen, heven, hgen⟩ := hpush
  have hs : started s = s.prod.writePos := by rw [started, hp]
  refine { h with
    stored := ?_
    parity := ?_
    push := ⟨hlen, heven, Function.update_self ..⟩
    pop := ?_ }
  · intro i msg' hget hle
    exact h.stored i msg' hget (by rw [hs]; exact Nat.le_of_succ_le hle)
  · intro p hodd
    by_cases hmod : p % s.prod.capacity.toNat = s.prod.writePos % s.prod.capacity.toNat
    · exact ⟨trivial, hmod⟩
    · rw [show (s.seg.setGeneration (wslot s.prod) (g + 1)).generation _ = _ from
        Function.update_of_ne (h.geometry.slotPtr_ne hmod) _ _] at hodd
      have := (h.parity p hodd).1
      rw [hp] at this
      exact this.elim
  · have hpop := h.pop.of_push (u := { s with
      seg := s.seg.setGeneration (wslot s.prod) (g + 1), push := .setSize msg g }) [] rfl rfl ?_
      (hs.le.trans (Nat.le_succ _)) fun hlt gen1 => h.guard_storeOdd hp hlt
    · rwa [List.append_nil] at hpop
    · rcases h.generation_rslot (g + 1) with ⟨-, hslot, hnew⟩ | ⟨-, hold⟩
      · refine le_trans ?_ hnew.ge
        rw [hslot, hgen]
        exact Nat.le_succ g
      · exact hold.ge

/-- The slot of `write_pos` is complete. -/
theorem guard_storeEven {k : Nat} (h : Seqlock ms s) (hp : s.push = .copy msg g k) {gen1 : Nat}
    (hguard : Guard s gen1) :
    Guard { s with
      seg := s.seg.setGeneration (wslot s.prod) (g + 2), push := .publish msg } gen1 := by
  have hpush := h.push
  rw [hp] at hpush
  obtain ⟨-, heven, hgen, -⟩ := hpush
  have hs : started s = s.prod.writePos + 1 := by rw [started, hp]
  obtain ⟨heven1, hor⟩ := hguard
  rw [hs] at hor
  refine ⟨heven1, ?_⟩
  show (s.seg.setGeneration (wslot s.prod) (g + 2)).generation (rslot s.cons) = gen1 ∧
      s.prod.writePos + 1 ≤ s.cons.readPos + s.prod.capacity.toNat ∨
    gen1 < (s.seg.setGeneration (wslot s.prod) (g + 2)).generation (rslot s.cons) ∧
      s.cons.readPos + s.prod.capacity.toNat < s.prod.writePos + 1
  rcases h.generation_rslot (g + 2) with ⟨-, hslot, hnew⟩ | ⟨-, hold⟩
  · -- the generation was odd, so it was not the consumer's any more
    rw [hnew]
    rw [hslot, hgen] at hor
    omega
  · rw [hold]
    exact hor

theorem storeEven {k : Nat} (h : Seqlock ms s) (hp : s.push = .copy msg g k)
    (hk : msg.length ≤ k) :
    Seqlock ms { s with
      seg := s.seg.setGeneration (wslot s.prod) (g + 2), push := .publish msg } := by
  have hpush := h.push
  rw [hp] at hpush
  obtain ⟨hlen, heven, hgen, hk', hholds⟩ := hpush
  obtain rfl : k = msg.length := le_antisymm hk' hk
  have hs : started s = s.prod.writePos + 1 := by rw [started, hp]
  refine { h with
    stored := ?_
    parity := ?_
    push := ⟨hlen, hholds⟩
    pop := ?_ }
  · intro i msg' hget hle
    exact h.stored i msg' hget (by rw [hs]; exact hle)
  · intro p hodd
    exfalso
    by_cases hmod : p % s.prod.capacity.toNat = s.prod.writePos % s.prod.capacity.toNat
    · rw [show slotPtr s.prod.capacity s.prod.stride p = wslot s.prod from
        h.geometry.slot_congr hmod, show (s.seg.setGeneration (wslot s.prod) (g + 2)).generation _
          = g + 2 from Function.update_self ..] at hodd
      omega
    · rw [show (s.seg.setGeneration (wslot s.prod) (g + 2)).generation _ = _ from
        Function.update_of_ne (h.geometry.slotPtr_ne hmod) _ _] at hodd
      exact hmod (h.parity p hodd).2
  · have hpop := h.pop.of_push (u := { s with
      seg := s.seg.setGeneration (wslot s.prod) (g + 2), push := .publish msg }) [] rfl rfl ?_
      hs.le fun _ gen1 => h.guard_storeEven hp
    · rwa [List.append_nil] at hpop
    · rcases h.generation_rslot (g + 2) with ⟨-, hslot, hnew⟩ | ⟨-, hold⟩
      · refine le_trans ?_ hnew.ge
        rw [hslot, hgen]
        exact Nat.le_succ _
      · exact hold.ge

theorem publish (h : Seqlock ms s) (hp : s.push = .publish msg) :
    Seqlock (ms ++ [msg]) { s with
      seg := s.seg.setWritePos (s.prod.writePos + 1)
      prod := { s.prod with writePos := s.prod.writePos + 1 }
      push := .idle } := by
  have hpush := h.push
  rw [hp] at hpush
  obtain ⟨hlen, hholds⟩ := hpush
  have hcount := h.count
  have hs : started s = s.prod.writePos + 1 := by rw [started, hp]
  have heven := h.even_of_not_writing (by rw [hp]; exact id)
  refine { h with
    writePos := rfl
    count := by simp [hcount]
    writeCache := h.writeCache.trans (Nat.le_succ _)
    fits := ?_
    stored := ?_
    parity := ?_
    push := trivial
    pop := h.pop.of_quiet [msg] rfl rfl rfl hs.symm }
  · intro m hm
    rcases List.mem_append.mp hm with hm | hm
    · exact h.fits m hm
    · rw [List.mem_singleton.mp hm]
      exact hlen
  · intro i m hget hle
    rcases Nat.lt_or_ge i ms.length with hlt | hge
    · rw [List.getElem?_append_left hlt] at hget
      exact h.stored i m hget (by rw [hs]; exact hle)
    · rw [List.getElem?_append_right hge] at hget
      obtain ⟨hi0, rfl⟩ := List.getElem?_eq_some_iff.mp hget
      obtain rfl : i = s.prod.writePos := by
        rw [List.length_singleton] at hi0
        omega
      rw [List.getElem_singleton]
      exact hholds
  · intro p hodd
    have : s.seg.generation (slotPtr s.prod.capacity s.prod.stride p) % 2 = 1 := hodd
    rw [heven p] at this
    cases this

theorem pushMoves (h : Seqlock ms s) (hm : PushMoves s a u o) : Seqlock (ms ++ pushed o) u := by
  have hpushOk := h.push
  cases hm with
  | refused hp hlen => exact h.quiet rfl
  | start hp hlen =>
    refine quiet ?_ rfl
    exact h.setPush (by rw [hp]; rfl) (by rw [started, started, hp]) hlen
  | loadGen hp =>
    refine quiet ?_ rfl
    rw [hp] at hpushOk
    have heven := h.even_of_not_writing (by rw [hp]; exact id) s.prod.writePos
    exact h.setPush (by rw [hp]; rfl) (by rw [started, started, hp]) ⟨hpushOk, heven, rfl⟩
  | storeOdd hp => exact quiet (h.storeOdd hp) rfl
  | @setSize msg g hp =>
    refine quiet ?_ rfl
    rw [hp] at hpushOk
    obtain ⟨hlen, heven, hgen⟩ := hpushOk
    exact h.write (by rw [started, hp]) trivial rfl rfl rfl
      (fun i msg' hne _ hh => hh.setSize h.geometry hne _)
      ⟨hlen, heven, hgen, Nat.zero_le _, holds_setSize _ _ _⟩
  | @setByte msg g k b hp hb =>
    refine quiet ?_ rfl
    rw [hp] at hpushOk
    obtain ⟨hlen, heven, hgen, hk, hholds⟩ := hpushOk
    have hkl : k < msg.length := (List.getElem?_eq_some_iff.mp hb).1
    exact h.write (by rw [started, hp]) trivial rfl rfl rfl
      (fun i msg' hne hlen' hh => hh.setByte h.geometry hne hlen' (hkl.trans_le hlen) _)
      ⟨hlen, heven, hgen, hkl, hholds.next hb⟩
  | storeEven hp hk => exact quiet (h.storeEven hp hk) rfl
  | publish hp => exact h.publish hp

/-! ### The consumer -/

theorem lapped_iff (h : Seqlock ms s) (hlap : lapped s.cons = true) :
    s.cons.readPos + s.cons.capacity.toNat < s.cons.writeCache := by
  rw [lapped, decide_eq_true_iff, UInt64.lt_iff_toNat_lt, toNat_u64_sub h.order,
    UInt32.toNat_toUInt64] at hlap
  have := Nat.mod_le (s.cons.writeCache - s.cons.readPos) (2 ^ 64)
  omega

theorem look_ok (h : Seqlock ms s) (hlt : s.cons.readPos < s.cons.writeCache) (b : UInt32) :
    PopOk ms s (look s b) := by
  unfold look
  split
  · have := h.lapped_iff ‹_›
    exact ⟨by omega, Nat.sub_le _ _⟩
  · exact hlt

theorem lt_of_empty_eq_false (h : Seqlock ms s) (hempty : empty s.cons = false) :
    s.cons.readPos < s.cons.writeCache := by
  apply lt_of_le_of_ne h.order
  intro heq
  rw [empty, decide_eq_false_iff_not, heq] at hempty
  exact hempty rfl

theorem refresh (h : Seqlock ms s) :
    Seqlock ms { s with
      cons := { s.cons with writeCache := s.seg.cb.writePos }, pop := .idle } := by
  rw [h.writePos]
  exact { h with
    order := h.order.trans h.writeCache
    writeCache := le_rfl
    push := h.push
    pop := trivial }

theorem setPop (h : Seqlock ms s) {pop : Pop} (hok : PopOk ms s pop) :
    Seqlock ms { s with pop := pop } :=
  { h with pop := hok }

theorem setRead (h : Seqlock ms s) {p : Nat} (hle : p ≤ s.cons.writeCache) :
    Seqlock ms (setRead s p) :=
  { h with order := hle, push := h.push, pop := trivial }

theorem writing (h : Seqlock ms s) (hw : s.push.Writing) :
    started s = s.prod.writePos + 1 ∧ committed s = s.prod.writePos ∧
      s.seg.generation (wslot s.prod) % 2 = 1 := by
  have hpush := h.push
  unfold started committed
  cases hp : s.push with
  | setSize msg g =>
    rw [hp] at hpush
    obtain ⟨-, heven, hgen⟩ := hpush
    exact ⟨rfl, rfl, by omega⟩
  | copy msg g k =>
    rw [hp] at hpush
    obtain ⟨-, heven, hgen, -⟩ := hpush
    exact ⟨rfl, rfl, by omega⟩
  | _ =>
    rw [hp] at hw
    exact hw.elim

theorem guard_loadGen (h : Seqlock ms s)
    (heven : odd (s.seg.generation (rslot s.cons)) = false)
    (hok : committed s ≤ s.cons.readPos + s.prod.capacity.toNat) :
    Guard s (s.seg.generation (rslot s.cons)) := by
  have heven' := mod_two_of_even heven
  refine ⟨heven', Or.inl ⟨rfl, ?_⟩⟩
  by_cases hw : s.push.Writing
  · -- the slot being written is odd, so it is not the consumer's
    obtain ⟨hs, hc, hodd⟩ := h.writing hw
    have hne : s.prod.writePos ≠ s.cons.readPos + s.prod.capacity.toNat := by
      intro heq
      have hmod : s.cons.readPos % s.prod.capacity.toNat =
          s.prod.writePos % s.prod.capacity.toNat := by rw [heq, Nat.add_mod_right]
      rw [h.rslot_eq, h.geometry.slot_congr hmod] at heven'
      exact absurd (heven'.symm.trans hodd) (by decide)
    omega
  · rw [started_eq_committed hw]
    exact hok

/-- An unchanged generation stands for the message. -/
theorem intact (h : Seqlock ms s) (hlt : s.cons.readPos < s.cons.writeCache) {gen1 : Nat}
    (hguard : Guard s gen1) (heq : s.seg.generation (rslot s.cons) = gen1) :
    ∃ msg, ms[s.cons.readPos]? = some msg ∧ Holds s.seg (rslot s.cons) msg msg.length := by
  have hle := hguard.started_le heq
  have hin : s.cons.readPos < ms.length := h.count ▸ hlt.trans_le h.writeCache
  have hget := List.getElem?_eq_getElem hin
  refine ⟨_, hget, ?_⟩
  rw [h.rslot_eq]
  exact h.stored _ _ hget hle

theorem toNat_size (h : Seqlock ms s) (hi : ms[i]? = some msg) :
    (u32 msg.length).toNat = msg.length := by
  rw [toNat_u32]
  exact Nat.mod_eq_of_lt
    ((h.fits msg (List.mem_of_getElem? hi)).trans_lt s.prod.maxMsg.toNat_lt)

/-- As long as no push a lap later has written it, the slot is the message's. -/
theorem occupant_eq (h : Seqlock ms s) (hlt : s.cons.readPos < committed s)
    (hle : committed s ≤ s.cons.readPos + s.prod.capacity.toNat) :
    occupant s = s.cons.readPos := by
  unfold occupant
  rw [h.rslot_eq, Nat.findGreatest_eq_iff]
  refine ⟨by omega, fun _ => rfl, fun i hgt hi => h.geometry.slotPtr_ne ?_⟩
  exact (mod_ne_of_window hgt (by omega)).symm

theorem returns_whole (h : Seqlock ms s) {b msgSz copySz : UInt32} {gen1 : Nat}
    {out : List UInt8} (hp : s.pop = .copy b gen1 msgSz copySz out)
    (hle : copySz.toNat ≤ out.length)
    (hgen : u32 (s.seg.generation (rslot s.cons)) = u32 gen1)
    (hok : s.seg.generation (rslot s.cons) < gen1 + 2 ^ 32) :
    started s ≤ s.cons.readPos + s.prod.capacity.toNat ∧
      Returns ms (b, msgSz, out) s.cons.readPos := by
  have hpop := h.pop
  rw [hp] at hpop
  obtain ⟨hlt, hguard, hle', hout⟩ := hpop
  have hge := hguard.le_generation
  have heq : s.seg.generation (rslot s.cons) = gen1 := (u32_inj_of_lt hge (by omega)).mp hgen
  obtain ⟨msg, hget, hsize, hcopy, htake⟩ := hout heq
  refine ⟨hguard.started_le heq, msg, hget, hsize, ?_⟩
  have hlen : out.length = min msg.length b.toNat := (le_antisymm hle' hle).trans hcopy
  show out = msg.take b.toNat
  rw [htake, hlen, List.take_eq_take_iff]
  omega

/-- A lapped consumer moves forward, and not past what is written. -/
theorem relocated_ok (h : Seqlock ms s)
    (hlap : s.cons.readPos + s.prod.capacity.toNat < started s) :
    s.cons.readPos ≤ relocated { s.cons with writeCache := s.seg.cb.writePos } ∧
      relocated { s.cons with writeCache := s.seg.cb.writePos } ≤ s.seg.cb.writePos := by
  have hW := started_le s
  have hcap := h.sameCapacity
  unfold relocated
  split
  · refine ⟨?_, Nat.sub_le _ _⟩
    show s.cons.readPos ≤ s.seg.cb.writePos - s.cons.capacity.toNat
    rw [h.writePos, hcap]
    omega
  · refine ⟨?_, le_rfl⟩
    show s.cons.readPos ≤ s.seg.cb.writePos
    rw [h.writePos]
    omega

theorem popMoves (h : Seqlock ms s) (hm : PopMoves s u o) (hok : NotLapped s .consumer) :
    Seqlock (ms ++ pushed o) u := by
  have hpopOk := h.pop
  cases hm with
  | reload hp hempty => exact quiet (h.setPop trivial) rfl
  | @look b hp hempty => exact quiet (h.setPop (h.look_ok (h.lt_of_empty_eq_false hempty) b)) rfl
  | empty hp hempty => exact quiet h.refresh rfl
  | @relook b hp hempty =>
    have h' := h.refresh
    exact quiet (h'.setPop (h'.look_ok (h'.lt_of_empty_eq_false hempty) b)) rfl
  | fastForward hp =>
    rw [hp] at hpopOk
    exact quiet (h.setRead hpopOk.2) rfl
  | retry hp hodd => exact quiet (h.setPop trivial) rfl
  | @loadGen b hp heven =>
    rw [hp] at hpopOk
    have hlap : committed s ≤ s.cons.readPos + s.prod.capacity.toNat := by
      unfold NotLapped at hok
      rw [hp] at hok
      exact hok heven
    exact quiet (h.setPop ⟨hpopOk, h.guard_loadGen heven hlap⟩) rfl
  | @getSize b gen1 hp =>
    rw [hp] at hpopOk
    obtain ⟨hlt, hguard⟩ := hpopOk
    refine quiet (h.setPop ⟨hlt, hguard, Nat.zero_le _, ?_⟩) rfl
    intro heq
    obtain ⟨msg, hget, hsize, -⟩ := h.intact hlt hguard heq
    refine ⟨msg, hget, hsize, ?_, rfl⟩
    have hlen := h.toNat_size hget
    rw [hsize]
    split
    · rename_i hcmp
      rw [UInt32.lt_iff_toNat_lt, hlen] at hcmp
      omega
    · rename_i hcmp
      rw [UInt32.lt_iff_toNat_lt, hlen] at hcmp
      omega
  | @getByte b msgSz copySz gen1 out hp hlen =>
    rw [hp] at hpopOk
    obtain ⟨hlt, hguard, hle, hout⟩ := hpopOk
    refine quiet (h.setPop ⟨hlt, hguard, ?_, ?_⟩) rfl
    · rw [List.length_append, List.length_singleton]
      exact hlen
    · intro heq
      obtain ⟨msg, hget, hsize, hcopy, htake⟩ := hout heq
      obtain ⟨msg', hget', hholds⟩ := h.intact hlt hguard heq
      obtain rfl := Option.some.inj (hget.symm.trans hget')
      refine ⟨msg, hget, hsize, hcopy, ?_⟩
      rw [List.length_append, List.length_singleton, ← hholds.take (by omega), ← htake]
  | @torn b msgSz copySz gen1 out hp hle hgen =>
    rw [hp] at hpopOk
    obtain ⟨-, hguard, -⟩ := hpopOk
    refine quiet (h.setPop ?_) rfl
    rcases hguard.2 with hsame | hlater
    · exact absurd (congrArg u32 hsame.1) hgen
    · exact hlater.2
  | @whole b msgSz copySz gen1 out hp hle hgen =>
    obtain ⟨hstart, hret⟩ := h.returns_whole hp hle hgen (hok.recent hp hle)
    rw [hp] at hpopOk
    have hindex := h.occupant_eq ((hpopOk.1.trans_le h.writeCache).trans_le (le_committed s))
      ((committed_le_started s).trans hstart)
    exact quiet (h.setPop ⟨hpopOk.1, hindex, hindex ▸ hret⟩) rfl
  | store hp =>
    rw [hp] at hpopOk
    exact quiet (h.setRead hpopOk.1) rfl
  | @relocate b out hp =>
    rw [hp] at hpopOk
    obtain ⟨hforward, hwritten⟩ := h.relocated_ok hpopOk
    exact quiet (h.refresh.setPop ⟨hforward, hwritten, Or.inr hpopOk⟩) rfl
  | storeLost hp =>
    rw [hp] at hpopOk
    exact quiet (h.setRead hpopOk.2.1) rfl

end Seqlock

end HftComponents.Spsc.Lossy
