import HftComponents.Spsc.Bus

/-!
# The bus is a bounded FIFO queue

`Fifo` is what holds at every point of every interleaving.  With `W` messages
pushed and `R` popped it says `R ≤ W ≤ R + capacity`, that each side's cached
copy of the other's position is behind the true one but close enough to decide
full and empty soundly, and that the slots of the positions `R` to `W - 1`
hold the messages pushed there.

The producer writes the slot of `W` only after it has seen room, so that
`W < R + capacity` holds until it publishes: the slots it must not touch are
those of other cells (`Fifo.slot_ne`).

`bus_fifo` reads the queue off.
-/

namespace HftComponents.Spsc.Bus

open Lib.Ring

variable {s u : State} {o : List Event} {a : Option (List UInt8)} {b : Option UInt32}
  {ms : List (List UInt8)} {rs : List (UInt32 × List UInt8)}

theorem pushed_append (a b : List Event) : pushed (a ++ b) = pushed a ++ pushed b :=
  List.filterMap_append

theorem popped_append (a b : List Event) : popped (a ++ b) = popped a ++ popped b :=
  List.filterMap_append

/-- What `try_pop` returns for a message: its size and all of its bytes. -/
def delivered (msg : List UInt8) : UInt32 × List UInt8 := (u32 msg.length, msg)

/-- The producer has written part of the next message, into a slot that is
free. -/
def PushOk (s : State) : Push → Prop
  | .idle => True
  | .reload msg => msg.length ≤ s.prod.maxMsg.toNat
  | .setSize msg =>
    msg.length ≤ s.prod.maxMsg.toNat ∧
      s.prod.writePos < s.prod.readCache + s.prod.capacity.toNat
  | .copy msg k =>
    msg.length ≤ s.prod.maxMsg.toNat ∧
      s.prod.writePos < s.prod.readCache + s.prod.capacity.toNat ∧
      k ≤ msg.length ∧ Holds s.seg (wslot s.prod) msg k

/-- The consumer has copied part of the oldest message. -/
def PopOk (ms : List (List UInt8)) (s : State) : Pop → Prop
  | .idle => True
  | .reload bufSize => s.prod.maxMsg ≤ bufSize
  | .getSize bufSize => s.prod.maxMsg ≤ bufSize ∧ s.cons.readPos < s.cons.writeCache
  | .copy msgSz copySz out =>
    s.cons.readPos < s.cons.writeCache ∧ ∃ msg, ms[s.cons.readPos]? = some msg ∧
      msgSz = u32 msg.length ∧ copySz = msgSz ∧ out = msg.take out.length ∧
      out.length ≤ msg.length

/-- `ms` are the messages pushed so far, and `rs` what the consumer was given. -/
structure Fifo (ms : List (List UInt8)) (rs : List (UInt32 × List UInt8)) (s : State) : Prop where
  geometry : Geometry s.prod.capacity s.prod.stride s.prod.maxMsg
  sameCapacity : s.cons.capacity = s.prod.capacity
  sameStride : s.cons.stride = s.prod.stride
  writePos : s.seg.cb.writePos = s.prod.writePos
  readPos : s.seg.cb.readPos = s.cons.readPos
  count : ms.length = s.prod.writePos
  order : s.cons.readPos ≤ s.prod.writePos
  room : s.prod.writePos ≤ s.cons.readPos + s.prod.capacity.toNat
  readCache : s.prod.readCache ≤ s.cons.readPos
  readCacheRoom : s.prod.writePos ≤ s.prod.readCache + s.prod.capacity.toNat
  writeCache : s.cons.writeCache ≤ s.prod.writePos
  writeCacheOrder : s.cons.readPos ≤ s.cons.writeCache
  fits : ∀ msg ∈ ms, msg.length ≤ s.prod.maxMsg.toNat
  stored : ∀ i msg, s.cons.readPos ≤ i → ms[i]? = some msg →
    Holds s.seg (slotPtr s.prod.capacity s.prod.stride i) msg msg.length
  delivery : rs = (ms.take s.cons.readPos).map delivered
  push : PushOk s s.push
  pop : PopOk ms s s.pop

theorem full_iff {p : Producer} (hle : p.readCache ≤ p.writePos)
    (hroom : p.writePos ≤ p.readCache + p.capacity.toNat) :
    full p = true ↔ p.writePos = p.readCache + p.capacity.toNat := by
  have hc := p.capacity.toNat_lt
  rw [full, decide_eq_true_iff, UInt64.le_iff_toNat_le, toNat_u64_sub_of_lt hle (by omega),
    UInt32.toNat_toUInt64]
  omega

theorem free_of_full_eq_false {p : Producer} (hle : p.readCache ≤ p.writePos)
    (hroom : p.writePos ≤ p.readCache + p.capacity.toNat) (hfull : full p = false) :
    p.writePos < p.readCache + p.capacity.toNat := by
  apply lt_of_le_of_ne hroom
  intro heq
  rw [(full_iff hle hroom).mpr heq] at hfull
  cases hfull

theorem empty_iff {c : Consumer} {n : UInt32} (hle : c.readPos ≤ c.writeCache)
    (hroom : c.writeCache ≤ c.readPos + n.toNat) : empty c = true ↔ c.writeCache = c.readPos := by
  have hn := n.toNat_lt
  rw [empty, decide_eq_true_iff, eq_comm, u64_inj_of_lt hle (by omega)]

theorem lt_of_empty_eq_false {c : Consumer} {n : UInt32} (hle : c.readPos ≤ c.writeCache)
    (hroom : c.writeCache ≤ c.readPos + n.toNat) (hempty : empty c = false) :
    c.readPos < c.writeCache := by
  apply lt_of_le_of_ne hle
  intro heq
  rw [(empty_iff hle hroom).mpr heq.symm] at hempty
  cases hempty

/-- The slots that hold messages are not the one the producer writes. -/
theorem slot_ne (hfree : s.prod.writePos < s.cons.readPos + s.prod.capacity.toNat)
    {i : Nat} (hi : s.cons.readPos ≤ i) (hlt : i < s.prod.writePos) :
    i % s.prod.capacity.toNat ≠ s.prod.writePos % s.prod.capacity.toNat := by
  apply mod_ne_of_window hlt
  omega

/-- What the consumer has copied stays copied while messages are added. -/
theorem PopOk.append {pop : Pop} (h : PopOk ms s pop) (more : List (List UInt8)) {u : State}
    (hcons : u.cons = s.cons) (hmax : u.prod.maxMsg = s.prod.maxMsg) :
    PopOk (ms ++ more) u pop := by
  unfold PopOk at h ⊢
  rw [hcons, hmax]
  cases pop with
  | copy msgSz copySz out =>
    obtain ⟨hlt, msg, hget, hrest⟩ := h
    refine ⟨hlt, msg, ?_, hrest⟩
    rw [List.getElem?_append_left (List.getElem?_eq_some_iff.mp hget).1, hget]
  | _ => exact h

namespace Fifo

theorem quiet (h : Fifo ms rs s) (hpush : pushed o = []) (hpop : popped o = []) :
    Fifo (ms ++ pushed o) (rs ++ popped o) s := by
  rw [hpush, hpop, List.append_nil, List.append_nil]
  exact h

theorem lt_of_getElem? (h : Fifo ms rs s) {i : Nat} {msg : List UInt8}
    (hi : ms[i]? = some msg) : i < s.prod.writePos := by
  rw [← h.count]
  exact (List.getElem?_eq_some_iff.mp hi).1

theorem free (h : Fifo ms rs s)
    (hfree : s.prod.writePos < s.prod.readCache + s.prod.capacity.toNat) :
    s.prod.writePos < s.cons.readPos + s.prod.capacity.toNat :=
  hfree.trans_le (Nat.add_le_add_right h.readCache _)

/-- A write to the free slot leaves the messages in the others. -/
theorem stored_of_write (h : Fifo ms rs s)
    (hfree : s.prod.writePos < s.prod.readCache + s.prod.capacity.toNat) {seg : Segment}
    (hw : ∀ i msg, i % s.prod.capacity.toNat ≠ s.prod.writePos % s.prod.capacity.toNat →
      msg.length ≤ s.prod.maxMsg.toNat →
      Holds s.seg (slotPtr s.prod.capacity s.prod.stride i) msg msg.length →
      Holds seg (slotPtr s.prod.capacity s.prod.stride i) msg msg.length) :
    ∀ i msg, s.cons.readPos ≤ i → ms[i]? = some msg →
      Holds seg (slotPtr s.prod.capacity s.prod.stride i) msg msg.length := by
  intro i msg hi hget
  exact hw i msg (slot_ne (h.free hfree) hi (h.lt_of_getElem? hget))
    (h.fits msg (List.mem_of_getElem? hget)) (h.stored i msg hi hget)

theorem publish (h : Fifo ms rs s) {msg : List UInt8} (hlen : msg.length ≤ s.prod.maxMsg.toNat)
    (hfree : s.prod.writePos < s.prod.readCache + s.prod.capacity.toNat)
    (hholds : Holds s.seg (wslot s.prod) msg msg.length) :
    Fifo (ms ++ [msg]) rs
      { s with
        seg := s.seg.setWritePos (s.prod.writePos + 1)
        prod := { s.prod with writePos := s.prod.writePos + 1 }
        push := .idle } := by
  have hcount := h.count
  exact { h with
    writePos := rfl
    count := by simp [hcount]
    order := h.order.trans (Nat.le_succ _)
    room := h.free hfree
    readCacheRoom := hfree
    writeCache := h.writeCache.trans (Nat.le_succ _)
    fits := by
      intro m hm
      rcases List.mem_append.mp hm with hm | hm
      · exact h.fits m hm
      · rw [List.mem_singleton.mp hm]
        exact hlen
    stored := by
      intro i m hi hget
      rcases Nat.lt_or_ge i ms.length with hlt | hge
      · rw [List.getElem?_append_left hlt] at hget
        exact h.stored i m hi hget
      · rw [List.getElem?_append_right hge] at hget
        obtain ⟨hi0, rfl⟩ := List.getElem?_eq_some_iff.mp hget
        obtain rfl : i = s.prod.writePos := by
          rw [List.length_singleton] at hi0
          omega
        rw [List.getElem_singleton]
        exact hholds
    delivery := by
      rw [h.delivery]
      exact (congrArg _ (List.take_append_of_le_length (h.order.trans h.count.ge))).symm
    push := trivial
    pop := h.pop.append _ rfl rfl }

theorem pushMoves (h : Fifo ms rs s) (hm : PushMoves s a u o) :
    Fifo (ms ++ pushed o) (rs ++ popped o) u := by
  have hpushOk := h.push
  cases hm with
  | refused hp hlen => exact h.quiet rfl rfl
  | look hp hlen hfull =>
    refine quiet ?_ rfl rfl
    exact { h with push := hlen }
  | start hp hlen hfull =>
    refine quiet ?_ rfl rfl
    have hfree := free_of_full_eq_false (h.readCache.trans h.order) h.readCacheRoom hfull
    exact { h with push := ⟨hlen, hfree⟩ }
  | full hp hfull =>
    refine quiet ?_ rfl rfl
    rw [h.readPos]
    exact { h with readCache := le_rfl, readCacheRoom := h.room, push := trivial, pop := h.pop }
  | reload hp hfull =>
    refine quiet ?_ rfl rfl
    rw [hp] at hpushOk
    rw [h.readPos] at hfull ⊢
    have hfree := free_of_full_eq_false h.order h.room hfull
    exact { h with
      readCache := le_rfl
      readCacheRoom := h.room
      push := ⟨hpushOk, hfree⟩
      pop := h.pop }
  | @setSize msg hp =>
    refine quiet ?_ rfl rfl
    rw [hp] at hpushOk
    obtain ⟨hlen, hfree⟩ := hpushOk
    exact { h with
      stored := by
        apply h.stored_of_write hfree
        intro i msg' hne _ hholds
        exact hholds.setSize h.geometry hne _
      push := ⟨hlen, hfree, Nat.zero_le _, holds_setSize _ _ _⟩
      pop := h.pop }
  | @setByte msg k b hp hb =>
    refine quiet ?_ rfl rfl
    rw [hp] at hpushOk
    obtain ⟨hlen, hfree, hk, hholds⟩ := hpushOk
    have hkl : k < msg.length := (List.getElem?_eq_some_iff.mp hb).1
    exact { h with
      stored := by
        apply h.stored_of_write hfree
        intro i msg' hne hlen' hholds'
        exact hholds'.setByte h.geometry hne hlen' (hkl.trans_le hlen) _
      push := ⟨hlen, hfree, hkl, hholds.next hb⟩
      pop := h.pop }
  | @pushed msg k hp hk =>
    rw [hp] at hpushOk
    obtain ⟨hlen, hfree, hk', hholds⟩ := hpushOk
    obtain rfl : k = msg.length := le_antisymm hk' hk
    have hpub := h.publish hlen hfree hholds
    rw [← List.append_nil rs] at hpub
    exact hpub

/-- What `read_pos` points at is stored in the consumer's slot. -/
theorem oldest (h : Fifo ms rs s) {msg : List UInt8} (hget : ms[s.cons.readPos]? = some msg) :
    Holds s.seg (rslot s.cons) msg msg.length := by
  unfold rslot
  rw [h.sameCapacity, h.sameStride]
  exact h.stored _ msg le_rfl hget

theorem toNat_size (h : Fifo ms rs s) {msg : List UInt8} (hmem : msg ∈ ms) :
    (u32 msg.length).toNat = msg.length := by
  rw [toNat_u32]
  exact Nat.mod_eq_of_lt ((h.fits msg hmem).trans_lt s.prod.maxMsg.toNat_lt)

/-- A buffer for the largest message is large enough. -/
theorem size_le (h : Fifo ms rs s) {msg : List UInt8} (hmem : msg ∈ ms) {bufSize : UInt32}
    (hbuf : s.prod.maxMsg ≤ bufSize) : u32 msg.length ≤ bufSize := by
  refine UInt32.le_trans ?_ hbuf
  rw [UInt32.le_iff_toNat_le, h.toNat_size hmem]
  exact h.fits msg hmem

theorem popMoves (h : Fifo ms rs s) (hm : PopMoves s b u o)
    (hbuf : ∀ n, b = some n → s.prod.maxMsg ≤ n) :
    Fifo (ms ++ pushed o) (rs ++ popped o) u := by
  have hpopOk := h.pop
  cases hm with
  | @look bufSize hp hempty =>
    refine quiet ?_ rfl rfl
    exact { h with pop := hbuf bufSize rfl }
  | @start bufSize hp hempty =>
    refine quiet ?_ rfl rfl
    have hlt := lt_of_empty_eq_false h.writeCacheOrder (h.writeCache.trans h.room) hempty
    exact { h with pop := ⟨hbuf bufSize rfl, hlt⟩ }
  | empty hp hempty =>
    refine quiet ?_ rfl rfl
    rw [h.writePos]
    exact { h with writeCache := le_rfl, writeCacheOrder := h.order, push := h.push, pop := trivial }
  | reload hp hempty =>
    refine quiet ?_ rfl rfl
    rw [hp] at hpopOk
    rw [h.writePos] at hempty ⊢
    have hlt := lt_of_empty_eq_false h.order h.room hempty
    exact { h with
      writeCache := le_rfl
      writeCacheOrder := h.order
      push := h.push
      pop := ⟨hpopOk, hlt⟩ }
  | @getSize bufSize hp =>
    refine quiet ?_ rfl rfl
    rw [hp] at hpopOk
    obtain ⟨hbufSize, hlt⟩ := hpopOk
    have hin : s.cons.readPos < ms.length := h.count ▸ hlt.trans_le h.writeCache
    have hget := List.getElem?_eq_getElem hin
    have hsize := (h.oldest hget).1
    have hle := h.size_le (List.mem_of_getElem? hget) hbufSize
    refine { h with pop := ⟨hlt, _, hget, hsize, ?_, rfl, Nat.zero_le _⟩ }
    rw [hsize]
    split
    · rfl
    · exact UInt32.le_antisymm (UInt32.not_lt.mp ‹_›) hle
  | @getByte msgSz copySz out hp hlen =>
    refine quiet ?_ rfl rfl
    rw [hp] at hpopOk
    obtain ⟨hlt, msg, hget, rfl, rfl, hout, hle⟩ := hpopOk
    rw [h.toNat_size (List.mem_of_getElem? hget)] at hlen
    refine { h with pop := ⟨hlt, msg, hget, rfl, rfl, ?_, ?_⟩ }
    · rw [List.length_append, List.length_singleton, ← (h.oldest hget).take hlen, ← hout]
    · rw [List.length_append, List.length_singleton]
      exact hlen
  | @popped msgSz copySz out hp hle =>
    rw [hp] at hpopOk
    obtain ⟨hlt, msg, hget, rfl, rfl, hout, hlen⟩ := hpopOk
    rw [h.toNat_size (List.mem_of_getElem? hget)] at hle
    obtain rfl : out = msg := by
      rw [hout, List.take_of_length_le hle]
    show Fifo (ms ++ []) (rs ++ [delivered out]) _
    rw [List.append_nil]
    exact { h with
      readPos := rfl
      order := hlt.trans_le h.writeCache
      room := by
        have := h.room
        show s.prod.writePos ≤ s.cons.readPos + 1 + s.prod.capacity.toNat
        omega
      readCache := h.readCache.trans (Nat.le_succ _)
      writeCacheOrder := hlt
      stored := by
        intro i m hi
        exact h.stored i m (Nat.le_of_succ_le hi)
      delivery := by
        show rs ++ [delivered out] = (ms.take (s.cons.readPos + 1)).map delivered
        rw [List.take_add_one, hget, List.map_append, ← h.delivery]
        rfl
      push := h.push
      pop := trivial }

end Fifo

theorem fifo_init {c m : UInt32} {seg : Segment} (hc : create c m = some seg)
    (hfit : (computeSlotStride m).toNat < 2 ^ 32) : Fifo [] [] (init seg) := by
  have hw : seg.cb.writePos = 0 := by rw [cb_of_create hc]
  have hr : seg.cb.readPos = 0 := by rw [cb_of_create hc]
  exact {
    geometry := geometry_of_create hc hfit
    sameCapacity := rfl
    sameStride := rfl
    writePos := rfl
    readPos := rfl
    count := hw.symm
    order := by simp [init, Producer.attach, Consumer.attach, hw, hr]
    room := by simp [init, Producer.attach, Consumer.attach, hw, hr]
    readCache := le_rfl
    readCacheRoom := by simp [init, Producer.attach, hw, hr]
    writeCache := le_rfl
    writeCacheOrder := by simp [init, Consumer.attach, hw, hr]
    fits := nofun
    stored := nofun
    delivery := by simp
    push := trivial
    pop := trivial }

/-! ### The queue -/

/-- The `i`-th message consumed is the `i`-th message accepted. -/
def InOrder (os : List Event) : Prop :=
  ∀ (i : Nat) (n : UInt32) (out : List UInt8), (popped os)[i]? = some (n, out) →
    ∃ msg, (pushed os)[i]? = some msg ∧ n.toNat = msg.length ∧ out = msg

/-- The positions, as the control block and the two parties hold them. -/
structure Bounded (capacity : UInt32) (s : State) : Prop where
  order : s.seg.cb.readPos ≤ s.seg.cb.writePos
  room : s.seg.cb.writePos - s.seg.cb.readPos ≤ capacity.toNat
  readCache : s.prod.readCache ≤ s.seg.cb.readPos
  writeCache : s.cons.writeCache ≤ s.seg.cb.writePos

/-- A slot being read is among the unconsumed ones, and none of these shares a
byte with the slot being written. -/
structure Exclusive (maxMsg : UInt32) (s : State) : Prop where
  reading : s.pop.Reading →
    s.seg.cb.readPos < s.seg.cb.writePos ∧
      rslot s.cons = slotPtr s.prod.capacity s.prod.stride s.seg.cb.readPos
  writing : s.push.Writing → ∀ i, s.seg.cb.readPos ≤ i → i < s.seg.cb.writePos →
    slotPtr s.prod.capacity s.prod.stride i + (8 + maxMsg.toNat) ≤ wslot s.prod ∨
      wslot s.prod + (8 + maxMsg.toNat) ≤ slotPtr s.prod.capacity s.prod.stride i

namespace Fifo

theorem inOrder {os : List Event} (h : Fifo (pushed os) (popped os) s) : InOrder os := by
  intro i n out hget
  rw [h.delivery, List.getElem?_map] at hget
  obtain ⟨msg, hmsg, heq⟩ := Option.map_eq_some_iff.mp hget
  obtain ⟨rfl, rfl⟩ := Prod.mk.inj heq
  have hpushed : (pushed os)[i]? = some msg := by
    rw [List.getElem?_take] at hmsg
    split at hmsg
    · exact hmsg
    · cases hmsg
  exact ⟨msg, hpushed, h.toNat_size (List.mem_of_getElem? hpushed), rfl⟩

theorem bounded (h : Fifo ms rs s) : Bounded s.prod.capacity s where
  order := by
    rw [h.readPos, h.writePos]
    exact h.order
  room := by
    have := h.room
    rw [h.readPos, h.writePos]
    omega
  readCache := h.readPos ▸ h.readCache
  writeCache := h.writePos ▸ h.writeCache

theorem reading (h : Fifo ms rs s) (hp : s.pop.Reading) : s.cons.readPos < s.prod.writePos := by
  have hpop := h.pop
  cases hc : s.pop with
  | getSize bufSize =>
    rw [hc] at hpop
    exact hpop.2.trans_le h.writeCache
  | copy msgSz copySz out =>
    rw [hc] at hpop
    exact hpop.1.trans_le h.writeCache
  | _ =>
    rw [hc] at hp
    exact hp.elim

theorem writing (h : Fifo ms rs s) (hp : s.push.Writing) :
    s.prod.writePos < s.cons.readPos + s.prod.capacity.toNat := by
  have hpush := h.push
  cases hc : s.push with
  | setSize msg =>
    rw [hc] at hpush
    exact h.free hpush.2
  | copy msg k =>
    rw [hc] at hpush
    exact h.free hpush.2.1
  | _ =>
    rw [hc] at hp
    exact hp.elim

theorem exclusive (h : Fifo ms rs s) : Exclusive s.prod.maxMsg s where
  reading hp := by
    rw [h.readPos, h.writePos]
    refine ⟨h.reading hp, ?_⟩
    unfold rslot
    rw [h.sameCapacity, h.sameStride]
  writing hp i hi hlt := by
    rw [h.readPos] at hi
    rw [h.writePos] at hlt
    exact h.geometry.slot_disjoint (slot_ne (h.writing hp) hi hlt)

theorem rejected (h : Fifo ms rs s) (hm : PushMoves s a u o) :
    (.refused ∈ o → ∃ msg, a = some msg ∧ s.prod.maxMsg.toNat < msg.length) ∧
      (.full ∈ o → s.seg.cb.writePos = s.seg.cb.readPos + s.prod.capacity.toNat) ∧
      .empty ∉ o := by
  cases hm with
  | @refused msg hp hlen =>
    refine ⟨?_, by simp, by simp⟩
    intro _
    exact ⟨msg, rfl, hlen⟩
  | full hp hfull =>
    rw [h.readPos] at hfull ⊢
    rw [h.writePos]
    refine ⟨by simp, ?_, by simp⟩
    intro _
    exact (full_iff h.order h.room).mp hfull
  | _ => simp

theorem drained (h : Fifo ms rs s) (hm : PopMoves s b u o) :
    .refused ∉ o ∧ .full ∉ o ∧ (.empty ∈ o → s.seg.cb.readPos = s.seg.cb.writePos) := by
  cases hm with
  | empty hp hempty =>
    rw [h.writePos] at hempty ⊢
    rw [h.readPos]
    refine ⟨by simp, by simp, ?_⟩
    intro _
    exact ((empty_iff h.order h.room).mp hempty).symm
  | _ => simp

end Fifo

/-- **The invariant of a run.** -/
theorem fifo_of_run {c m : UInt32} {seg : Segment} {os : List Event} (hc : create c m = some seg)
    (hfit : (computeSlotStride m).toNat < 2 ^ 32)
    (h : Lib.Machine.Run machine (BufferFits m) (init seg) os s) :
    Fifo (pushed os) (popped os) s ∧ s.prod.capacity = c ∧ s.prod.maxMsg = m := by
  refine h.invariant (P := fun os s => Fifo (pushed os) (popped os) s ∧ s.prod.capacity = c ∧
    s.prod.maxMsg = m) ⟨fifo_init hc hfit, ?_, ?_⟩ ?_
  · exact congrArg ControlBlock.capacity (cb_of_create hc)
  · exact congrArg ControlBlock.maxMsgSize (cb_of_create hc)
  intro os t l u o ht hok hstep
  obtain ⟨hf, hcap, hmax⟩ := ht
  rw [pushed_append, popped_append]
  rcases step_moves hstep with ⟨a, hm, -⟩ | ⟨b, hm, hb⟩
  · exact ⟨hf.pushMoves hm, hm.fixed.1.trans hcap, hm.fixed.2.trans hmax⟩
  · have hbuf : ∀ n, b = some n → t.prod.maxMsg ≤ n := by
      intro n hn
      rw [hb n hn] at hok
      rw [hmax]
      exact hok
    exact ⟨hf.popMoves hm hbuf, by rw [hm.prod_eq, hcap], by rw [hm.prod_eq, hmax]⟩

/-- **The bus is an exact bounded FIFO queue.**  At every point of every
interleaving: what was consumed is what was accepted, in order; the positions
and their cached copies are bounded; the producer writes to no slot that is
unconsumed or being read.  A call returns without effect only for cause. -/
theorem bus_fifo {c m : UInt32} {seg : Segment} {os : List Event} (hc : create c m = some seg)
    (hfit : (computeSlotStride m).toNat < 2 ^ 32)
    (h : Lib.Machine.Run machine (BufferFits m) (init seg) os s) :
    InOrder os ∧ Bounded c s ∧ Exclusive m s ∧
      ∀ l u o, step s l = some (u, o) →
        (.refused ∈ o → ∃ msg, l = .tryPush msg ∧ m.toNat < msg.length) ∧
        (.full ∈ o → s.seg.cb.writePos = s.seg.cb.readPos + c.toNat) ∧
        (.empty ∈ o → s.seg.cb.readPos = s.seg.cb.writePos) := by
  obtain ⟨hf, rfl, rfl⟩ := fifo_of_run hc hfit h
  refine ⟨hf.inOrder, hf.bounded, hf.exclusive, ?_⟩
  intro l u o hstep
  rcases step_moves hstep with ⟨a, hm, ha⟩ | ⟨b, hm, -⟩
  · obtain ⟨hrefused, hfull, hempty⟩ := hf.rejected hm
    refine ⟨?_, hfull, ?_⟩
    · intro ho
      obtain ⟨msg, hmsg, hlen⟩ := hrefused ho
      exact ⟨msg, ha msg hmsg, hlen⟩
    · intro ho
      exact absurd ho hempty
  · obtain ⟨hrefused, hfull, hempty⟩ := hf.drained hm
    refine ⟨?_, ?_, hempty⟩
    · intro ho
      exact absurd ho hrefused
    · intro ho
      exact absurd ho hfull

/-- Three messages through a ring of two slots: `[4]` is turned away once, and then
goes into the slot that `[1, 2]` has left. -/
theorem bus_fifo_wrap :
    ∃ seg s os, create 2 8 = some seg ∧ Lib.Machine.Run machine (BufferFits 8) (init seg) os s ∧
      pushed os = [[1, 2], [3], [4]] ∧ popped os = [(2, [1, 2]), (1, [3])] ∧ .full ∈ os ∧
      s.seg.cb.writePos = 3 ∧ InOrder os ∧ Bounded 2 s ∧ Exclusive 8 s := by
  obtain ⟨s, hexec, hwrite⟩ : ∃ s, machine.exec
      (init ⟨⟨2, 64, 8, 0, 0⟩, fun _ => 0, fun _ => 0, fun _ => 0⟩)
      [.tryPush [1, 2], .producer, .producer, .producer, .producer,
        .tryPush [3], .producer, .producer, .producer, .tryPush [4], .producer,
        .tryPop 8, .consumer, .consumer, .consumer, .consumer, .consumer,
        .tryPush [4], .producer, .producer, .producer, .producer,
        .tryPop 8, .consumer, .consumer, .consumer, .tryPop 8, .consumer, .consumer] =
      some (s, [.pushed [1, 2], .pushed [3], .full, .popped 2 [1, 2], .pushed [4], .popped 1 [3]]) ∧
      s.seg.cb.writePos = 3 := ⟨_, rfl, rfl⟩
  have hrun : Lib.Machine.Run machine (BufferFits 8) _ _ s := Lib.Machine.run_of_exec
    (Lib.Machine.execOk_of_forall (by simp [BufferFits]) _) hexec
  have h := bus_fifo (c := 2) (m := 8) rfl (by decide) hrun
  exact ⟨_, _, _, rfl, hrun, rfl, rfl, by simp, hwrite, h.1, h.2.1, h.2.2.1⟩

end HftComponents.Spsc.Bus
