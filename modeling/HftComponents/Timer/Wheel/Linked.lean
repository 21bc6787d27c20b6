import Mathlib.Algebra.BigOperators.Group.Finset.Sigma
import HftComponents.Timer.Wheel.Basic

/-!
# Locations and list nodes

`Linked w` says that `entries_` and the slots describe each other: every node
is located where it lies, every location designates a node of the list it
names, ids do not repeat in a list, and nodes have addresses of their own.

`fire_slot` and `cascade` both swap a slot out and work through the old list.
While they do, the list `rest` that is left and the wheel `w` belong together
as `w.unswap p rest`, the wheel with `rest` still in front of its slot, and
that is the wheel `Linked` speaks of: the head of `rest` can be taken off with
its location (`Linked.detach`), and inserting into `w` is inserting into the
unswapped wheel (`insert_unswap`).
-/

namespace HftComponents.Timer.Wheel

namespace TimerWheel

variable {κ : Type} {w : TimerWheel κ}

/-- `e` is in some slot. -/
def Holds (w : TimerWheel κ) (e : Entry κ) : Prop := ∃ p, ∃ n ∈ w.slots p, n.entry = e

/-- The wheel with `rest` put back in front of the slot `p`. -/
def unswap (w : TimerWheel κ) (p : Place) (rest : List (Node κ)) : TimerWheel κ :=
  { w with slots := Function.update w.slots p (rest ++ w.slots p) }

structure Linked (w : TimerWheel κ) : Prop where
  located : ∀ p, ∀ n ∈ w.slots p, w.entries.lookup n.entry.id = some ⟨p, n.addr⟩
  designates : ∀ id loc, w.entries.lookup id = some loc →
    ∃ n ∈ w.slots loc.place, n.addr = loc.iter ∧ n.entry.id = id
  nodup : ∀ p, ((w.slots p).map fun n => n.entry.id).Nodup
  addr_inj : ∀ p, ∀ n ∈ w.slots p, ∀ m ∈ w.slots p, n.addr = m.addr → n = m
  addr_lt : ∀ p, ∀ n ∈ w.slots p, n.addr < w.nextAddr

/-! ### What the updates do to the slots -/

theorem mem_update {f : Place → List (Node κ)} {p q : Place} {l : List (Node κ)} {n : Node κ} :
    n ∈ Function.update f p l q ↔ (q = p ∧ n ∈ l) ∨ (q ≠ p ∧ n ∈ f q) := by
  by_cases h : q = p
  · subst h
    simp
  · simp [h]

theorem mem_insert_slots {e : Entry κ} {q : Place} {n : Node κ} :
    n ∈ (w.insert e).slots q ↔
      n ∈ w.slots q ∨ (q = placeOf w.jiffies e.expiryTick ∧ n = ⟨w.nextAddr, e⟩) := by
  simp only [insert, mem_update, List.mem_append, List.mem_singleton]
  constructor
  · rintro (⟨rfl, h | h⟩ | ⟨_, h⟩)
    · exact Or.inl h
    · exact Or.inr ⟨rfl, h⟩
    · exact Or.inl h
  · rintro (h | ⟨rfl, h⟩)
    · by_cases hq : q = placeOf w.jiffies e.expiryTick
      · subst hq
        exact Or.inl ⟨rfl, Or.inl h⟩
      · exact Or.inr ⟨hq, h⟩
    · exact Or.inl ⟨rfl, Or.inr h⟩

theorem mem_unswap {p q : Place} {rest : List (Node κ)} {n : Node κ} :
    n ∈ (w.unswap p rest).slots q ↔ n ∈ w.slots q ∨ (q = p ∧ n ∈ rest) := by
  simp only [unswap, mem_update, List.mem_append]
  by_cases h : q = p
  · subst h
    simp [or_comm]
  · simp [h]

@[simp] theorem insert_jiffies (e : Entry κ) : (w.insert e).jiffies = w.jiffies := rfl
@[simp] theorem unswap_jiffies (p : Place) (rest : List (Node κ)) :
    (w.unswap p rest).jiffies = w.jiffies := rfl
@[simp] theorem eraseId_jiffies (id : TimerID) : (w.eraseId id).jiffies = w.jiffies := rfl
@[simp] theorem eraseId_slots (id : TimerID) : (w.eraseId id).slots = w.slots := rfl
@[simp] theorem unswap_entries (p : Place) (rest : List (Node κ)) :
    (w.unswap p rest).entries = w.entries := rfl

@[simp] theorem unswap_nil (p : Place) : w.unswap p [] = w := by
  simp [unswap, Function.update_eq_self]

theorem unswap_swapOut (p : Place) : (w.swapOut p).unswap p (w.slots p) = w := by
  simp [unswap, swapOut, Function.update_eq_self]

/-- `push_back` goes to the end, whatever stands in front of the slot. -/
theorem insert_unswap (p : Place) (rest : List (Node κ)) (e : Entry κ) :
    (w.insert e).unswap p rest = (w.unswap p rest).insert e := by
  have hslots : ((w.insert e).unswap p rest).slots = ((w.unswap p rest).insert e).slots := by
    funext q
    simp only [unswap, insert]
    by_cases h : p = placeOf w.jiffies e.expiryTick
    · subst h
      simp [List.append_assoc]
    · by_cases hq : q = p
      · subst hq
        simp [h]
      · by_cases hq' : q = placeOf w.jiffies e.expiryTick
        · subst hq'
          simp [hq]
        · simp [hq, hq']
  rw [show (w.unswap p rest).insert e = { (w.insert e).unswap p rest with
    slots := ((w.unswap p rest).insert e).slots } from rfl, ← hslots]

theorem mem_eraseP_of_unique {α : Type} {p : α → Bool} {l : List α} {n m : α} (hnd : l.Nodup)
    (hp : ∀ k ∈ l, p k = true ↔ k = n) : m ∈ l.eraseP p ↔ m ∈ l ∧ m ≠ n := by
  induction l with
  | nil => simp
  | cons a l ih =>
    rw [List.nodup_cons] at hnd
    have ha := hp a List.mem_cons_self
    by_cases h : p a = true
    · have han := ha.mp h
      subst han
      rw [List.eraseP_cons_of_pos h]
      have hne : m ∈ l → m ≠ a := fun hm heq => hnd.1 (heq ▸ hm)
      simp only [List.mem_cons]
      tauto
    · have hne : a ≠ n := fun heq => h (ha.mpr heq)
      rw [List.eraseP_cons_of_neg h, List.mem_cons, List.mem_cons,
        ih hnd.2 fun k hk => hp k (List.mem_cons_of_mem _ hk)]
      constructor
      · rintro (rfl | ⟨hm, hmn⟩)
        · exact ⟨Or.inl rfl, hne⟩
        · exact ⟨Or.inr hm, hmn⟩
      · rintro ⟨rfl | hm, hmn⟩
        · exact Or.inl rfl
        · exact Or.inr ⟨hm, hmn⟩

/-! ### Entries held -/

theorem holds_insert {e e' : Entry κ} : (w.insert e).Holds e' ↔ w.Holds e' ∨ e' = e := by
  constructor
  · rintro ⟨p, n, hn, rfl⟩
    rcases mem_insert_slots.mp hn with h | ⟨_, rfl⟩
    · exact Or.inl ⟨p, n, h, rfl⟩
    · exact Or.inr rfl
  · rintro (⟨p, n, hn, rfl⟩ | rfl)
    · exact ⟨p, n, mem_insert_slots.mpr (Or.inl hn), rfl⟩
    · exact ⟨_, _, mem_insert_slots.mpr (Or.inr ⟨rfl, rfl⟩), rfl⟩

theorem holds_unswap {p : Place} {rest : List (Node κ)} {e : Entry κ} :
    (w.unswap p rest).Holds e ↔ w.Holds e ∨ ∃ n ∈ rest, n.entry = e := by
  constructor
  · rintro ⟨q, n, hn, rfl⟩
    rcases mem_unswap.mp hn with h | ⟨_, h⟩
    · exact Or.inl ⟨q, n, h, rfl⟩
    · exact Or.inr ⟨n, h, rfl⟩
  · rintro (⟨q, n, hn, rfl⟩ | ⟨n, hn, rfl⟩)
    · exact ⟨q, n, mem_unswap.mpr (Or.inl hn), rfl⟩
    · exact ⟨p, n, mem_unswap.mpr (Or.inr ⟨rfl, hn⟩), rfl⟩

theorem mem_entries_of_lookup {id : TimerID} {loc : Location}
    (h : w.entries.lookup id = some loc) : id ∈ w.entries :=
  AList.lookup_isSome.mp (by rw [h]; rfl)

namespace Linked

theorem mem_entries (h : Linked w) {p : Place} {n : Node κ} (hn : n ∈ w.slots p) :
    n.entry.id ∈ w.entries := mem_entries_of_lookup (h.located p n hn)

theorem mem_entries_iff (h : Linked w) {id : TimerID} :
    id ∈ w.entries ↔ ∃ e, w.Holds e ∧ e.id = id := by
  constructor
  · intro hid
    obtain ⟨loc, hl⟩ := Option.isSome_iff_exists.mp (AList.lookup_isSome.mpr hid)
    obtain ⟨n, hn, _, he⟩ := h.designates id loc hl
    exact ⟨n.entry, ⟨_, n, hn, rfl⟩, he⟩
  · rintro ⟨_, ⟨p, n, hn, rfl⟩, rfl⟩
    exact h.mem_entries hn

/-- **An id is carried by one node of one list.** -/
theorem unique (h : Linked w) {p q : Place} {n m : Node κ} (hn : n ∈ w.slots p)
    (hm : m ∈ w.slots q) (he : n.entry.id = m.entry.id) : p = q ∧ n = m := by
  have hl := h.located p n hn
  rw [he, h.located q m hm] at hl
  obtain ⟨rfl, ha⟩ := Location.mk.inj (Option.some.inj hl)
  exact ⟨rfl, h.addr_inj q n hn m hm ha.symm⟩

theorem holds_inj (h : Linked w) {e e' : Entry κ} (he : w.Holds e) (he' : w.Holds e')
    (hid : e.id = e'.id) : e = e' := by
  obtain ⟨p, n, hn, rfl⟩ := he
  obtain ⟨q, m, hm, rfl⟩ := he'
  rw [(h.unique hn hm hid).2]

/-! ### The operations -/

theorem insert (h : Linked w) {e : Entry κ} (hid : e.id ∉ w.entries) : Linked (w.insert e) where
  located := by
    intro p n hn
    rcases mem_insert_slots.mp hn with hn | ⟨rfl, rfl⟩
    · have hne : n.entry.id ≠ e.id := fun heq => hid (heq ▸ h.mem_entries hn)
      exact (AList.lookup_insert_ne hne).trans (h.located p n hn)
    · exact AList.lookup_insert _
  designates := by
    intro id loc hl
    by_cases heq : id = e.id
    · subst heq
      obtain rfl := Option.some.inj ((AList.lookup_insert w.entries).symm.trans hl)
      exact ⟨_, mem_insert_slots.mpr (Or.inr ⟨rfl, rfl⟩), rfl, rfl⟩
    · obtain ⟨n, hn, ha, hi⟩ := h.designates id loc ((AList.lookup_insert_ne heq).symm.trans hl)
      exact ⟨n, mem_insert_slots.mpr (Or.inl hn), ha, hi⟩
  nodup := by
    intro p
    by_cases hp : p = placeOf w.jiffies e.expiryTick
    · subst hp
      simp only [TimerWheel.insert, Function.update_self, List.map_append, List.map_cons,
        List.map_nil]
      refine List.nodup_append.mpr ⟨h.nodup _, List.nodup_singleton _, ?_⟩
      intro a ha b hb
      obtain ⟨n, hn, rfl⟩ := List.mem_map.mp ha
      obtain rfl := List.mem_singleton.mp hb
      intro heq
      exact hid (heq ▸ h.mem_entries hn)
    · simpa [TimerWheel.insert, hp] using h.nodup p
  addr_inj := by
    intro p n hn m hm ha
    rcases mem_insert_slots.mp hn with hn | ⟨_, rfl⟩ <;>
      rcases mem_insert_slots.mp hm with hm | ⟨_, rfl⟩
    · exact h.addr_inj p n hn m hm ha
    · exact absurd ha (h.addr_lt p n hn).ne
    · exact absurd ha.symm (h.addr_lt p m hm).ne
    · rfl
  addr_lt := by
    intro p n hn
    show n.addr < w.nextAddr + 1
    rcases mem_insert_slots.mp hn with hn | ⟨_, rfl⟩
    · exact Nat.lt_succ_of_lt (h.addr_lt p n hn)
    · exact Nat.lt_succ_self _

theorem detach {p : Place} {n : Node κ} {rest : List (Node κ)}
    (h : Linked (w.unswap p (n :: rest))) : Linked ((w.eraseId n.entry.id).unswap p rest) := by
  have hn : n ∈ (w.unswap p (n :: rest)).slots p :=
    mem_unswap.mpr (Or.inr ⟨rfl, List.mem_cons_self⟩)
  have hsub : ∀ q, ∀ m ∈ ((w.eraseId n.entry.id).unswap p rest).slots q,
      m ∈ (w.unswap p (n :: rest)).slots q := by
    intro q m hm
    rcases mem_unswap.mp hm with hm | ⟨hq, hm⟩
    · exact mem_unswap.mpr (Or.inl hm)
    · exact mem_unswap.mpr (Or.inr ⟨hq, List.mem_cons_of_mem _ hm⟩)
  have hp := h.nodup p
  simp only [unswap, Function.update_self, List.cons_append, List.map_cons, List.nodup_cons] at hp
  have hne : ∀ q, ∀ m ∈ ((w.eraseId n.entry.id).unswap p rest).slots q,
      m.entry.id ≠ n.entry.id := by
    intro q m hm he
    obtain ⟨rfl, -⟩ := h.unique (hsub q m hm) hn he
    have hm' : m ∈ rest ++ w.slots q := by simpa [unswap] using hm
    exact hp.1 (List.mem_map.mpr ⟨m, hm', he⟩)
  refine ⟨?_, ?_, ?_, ?_, ?_⟩
  · intro q m hm
    exact (AList.lookup_erase_ne (hne q m hm)).trans (h.located q m (hsub q m hm))
  · intro id loc hl
    have hid : id ≠ n.entry.id := by
      rintro rfl
      exact absurd hl (by simp [eraseId])
    obtain ⟨m, hm, ha, hi⟩ := h.designates id loc ((AList.lookup_erase_ne hid).symm.trans hl)
    refine ⟨m, ?_, ha, hi⟩
    rcases mem_unswap.mp hm with hm | ⟨hq, hm⟩
    · exact mem_unswap.mpr (Or.inl hm)
    · rcases List.mem_cons.mp hm with rfl | hm
      · exact absurd hi.symm hid
      · exact mem_unswap.mpr (Or.inr ⟨hq, hm⟩)
  · intro q
    by_cases hq : q = p
    · subst hq
      simpa [unswap] using hp.2
    · simpa [unswap, hq] using h.nodup q
  · intro q m hm m' hm'
    exact h.addr_inj q m (hsub q m hm) m' (hsub q m' hm')
  · intro q m hm
    exact h.addr_lt q m (hsub q m hm)

theorem detach_notMem {p : Place} {n : Node κ} {rest : List (Node κ)}
    (_ : Linked (w.unswap p (n :: rest))) : n.entry.id ∉ ((w.eraseId n.entry.id).unswap p rest).entries := by
  simp [eraseId, AList.mem_erase]

theorem holds_detach {p : Place} {n : Node κ} {rest : List (Node κ)}
    (h : Linked (w.unswap p (n :: rest))) {e : Entry κ} :
    ((w.eraseId n.entry.id).unswap p rest).Holds e ↔
      (w.unswap p (n :: rest)).Holds e ∧ e.id ≠ n.entry.id := by
  constructor
  · intro he
    have hid : e.id ≠ n.entry.id := by
      intro hid
      exact h.detach_notMem (h.detach.mem_entries_iff.mpr ⟨e, he, hid⟩)
    refine ⟨?_, hid⟩
    rcases holds_unswap.mp he with he | ⟨m, hm, rfl⟩
    · exact holds_unswap.mpr (Or.inl he)
    · exact holds_unswap.mpr (Or.inr ⟨m, List.mem_cons_of_mem _ hm, rfl⟩)
  · rintro ⟨he, hid⟩
    rcases holds_unswap.mp he with he | ⟨m, hm, rfl⟩
    · exact holds_unswap.mpr (Or.inl he)
    · rcases List.mem_cons.mp hm with rfl | hm
      · exact absurd rfl hid
      · exact holds_unswap.mpr (Or.inr ⟨m, hm, rfl⟩)

theorem reinsert {p : Place} {n : Node κ} {rest : List (Node κ)}
    (h : Linked (w.unswap p (n :: rest))) :
    Linked ((w.reinsert n).unswap p rest) ∧
      ∀ e, ((w.reinsert n).unswap p rest).Holds e ↔ (w.unswap p (n :: rest)).Holds e := by
  rw [TimerWheel.reinsert, insert_unswap]
  refine ⟨h.detach.insert h.detach_notMem, fun e => ?_⟩
  have hn : (w.unswap p (n :: rest)).Holds n.entry :=
    holds_unswap.mpr (Or.inr ⟨n, List.mem_cons_self, rfl⟩)
  rw [holds_insert, h.holds_detach]
  constructor
  · rintro (⟨he, _⟩ | rfl)
    · exact he
    · exact hn
  · intro he
    by_cases hid : e.id = n.entry.id
    · exact Or.inr (h.holds_inj he hn hid)
    · exact Or.inl ⟨he, hid⟩

theorem foldl_reinsert {p : Place} (moved : List (Node κ)) {w : TimerWheel κ}
    (h : Linked (w.unswap p moved)) :
    Linked (moved.foldl TimerWheel.reinsert w) ∧
      ∀ e, (moved.foldl TimerWheel.reinsert w).Holds e ↔ (w.unswap p moved).Holds e := by
  induction moved generalizing w with
  | nil => simpa using h
  | cons n rest ih =>
    obtain ⟨hl, hh⟩ := h.reinsert
    obtain ⟨hl', hh'⟩ := ih hl
    refine ⟨hl', ?_⟩
    intro e
    exact (hh' e).trans (hh e)

/-- `stats_` and `next_id_` are no part of the links. -/
theorem of_eq {w' : TimerWheel κ} (h : Linked w) (hs : w'.slots = w.slots)
    (he : w'.entries = w.entries) (ha : w.nextAddr ≤ w'.nextAddr) : Linked w' where
  located := by rw [hs, he]; exact h.located
  designates := by rw [hs, he]; exact h.designates
  nodup := by rw [hs]; exact h.nodup
  addr_inj := by rw [hs]; exact h.addr_inj
  addr_lt := by
    rw [hs]
    intro p n hn
    exact (h.addr_lt p n hn).trans_le ha

/-- **`cascade` moves entries and loses none.** -/
theorem cascade (h : Linked w) (l : Level) :
    Linked (w.cascade l) ∧ ∀ e, (w.cascade l).Holds e ↔ w.Holds e := by
  let p : Place := ⟨l, l.slotOf w.jiffies⟩
  have h0 : Linked ((w.swapOut p).unswap p (w.slots p)) := by rw [unswap_swapOut]; exact h
  obtain ⟨hl, hh⟩ := foldl_reinsert _ h0
  rw [unswap_swapOut] at hh
  exact ⟨hl.of_eq rfl rfl le_rfl, hh⟩

theorem turn (h : Linked w) : Linked w.turn ∧ ∀ e, w.turn.Holds e ↔ w.Holds e := by
  have h0 : Linked { w with jiffies := w.jiffies + 1 } := h.of_eq rfl rfl le_rfl
  have e0 : ∀ e, TimerWheel.Holds { w with jiffies := w.jiffies + 1 } e ↔ w.Holds e :=
    fun _ => Iff.rfl
  have h1 := h0.cascade .l1
  have h2 := h1.1.cascade .l2
  have h3 := h2.1.cascade .l3
  unfold TimerWheel.turn
  dsimp only
  split
  · split
    · split
      · exact ⟨h3.1, fun e => by rw [h3.2, h2.2, h1.2, e0]⟩
      · exact ⟨h2.1, fun e => by rw [h2.2, h1.2, e0]⟩
    · exact ⟨h1.1, fun e => by rw [h1.2, e0]⟩
  · exact ⟨h0, e0⟩

/-- What erasing at a location leaves: every node but the one that carries the
id. -/
theorem mem_unlink (h : Linked w) {id : TimerID} {loc : Location}
    (hl : w.entries.lookup id = some loc) {q : Place} {m : Node κ} :
    m ∈ (w.unlink id loc).slots q ↔ m ∈ w.slots q ∧ m.entry.id ≠ id := by
  obtain ⟨n, hn, ha, rfl⟩ := h.designates id loc hl
  have hsame : ∀ k ∈ w.slots loc.place, decide (k.addr = loc.iter) = true ↔ k = n := by
    intro k hk
    rw [decide_eq_true_iff]
    refine ⟨?_, ?_⟩
    · intro hka
      exact h.addr_inj _ k hk n hn (hka.trans ha.symm)
    · rintro rfl
      exact ha
  have herase := mem_eraseP_of_unique (List.Nodup.of_map _ (h.nodup loc.place)) hsame (m := m)
  rw [unlink, mem_update, herase]
  refine ⟨?_, ?_⟩
  · rintro (⟨rfl, hm, hne⟩ | ⟨hq, hm⟩)
    · refine ⟨hm, ?_⟩
      intro heq
      exact hne (h.unique hm hn heq).2
    · refine ⟨hm, ?_⟩
      intro heq
      exact hq (h.unique hm hn heq).1
  · rintro ⟨hm, hne⟩
    by_cases hq : q = loc.place
    · exact Or.inl ⟨hq, hq ▸ hm, fun heq => hne (by rw [heq])⟩
    · exact Or.inr ⟨hq, hm⟩

theorem unlink (h : Linked w) {id : TimerID} {loc : Location}
    (hl : w.entries.lookup id = some loc) : Linked (w.unlink id loc) where
  located := by
    intro q m hm
    obtain ⟨hm, hne⟩ := (h.mem_unlink hl).mp hm
    exact (AList.lookup_erase_ne hne).trans (h.located q m hm)
  designates := by
    intro id' loc' hl'
    have hid : id' ≠ id := by
      rintro rfl
      exact absurd hl' (by simp [TimerWheel.unlink])
    obtain ⟨m, hm, hma, hmi⟩ := h.designates id' loc' ((AList.lookup_erase_ne hid).symm.trans hl')
    exact ⟨m, (h.mem_unlink hl).mpr ⟨hm, hmi ▸ hid⟩, hma, hmi⟩
  nodup := by
    intro q
    refine (h.nodup q).sublist (List.Sublist.map _ ?_)
    by_cases hq : q = loc.place
    · subst hq
      simpa [TimerWheel.unlink] using List.eraseP_sublist
    · simp [TimerWheel.unlink, hq]
  addr_inj := fun q m hm m' hm' =>
    h.addr_inj q m ((h.mem_unlink hl).mp hm).1 m' ((h.mem_unlink hl).mp hm').1
  addr_lt := fun q m hm => h.addr_lt q m ((h.mem_unlink hl).mp hm).1

theorem holds_unlink (h : Linked w) {id : TimerID} {loc : Location}
    (hl : w.entries.lookup id = some loc) {e : Entry κ} :
    (w.unlink id loc).Holds e ↔ w.Holds e ∧ e.id ≠ id := by
  constructor
  · rintro ⟨q, m, hm, rfl⟩
    obtain ⟨hm, hne⟩ := (h.mem_unlink hl).mp hm
    exact ⟨⟨q, m, hm, rfl⟩, hne⟩
  · rintro ⟨⟨q, m, hm, rfl⟩, hne⟩
    exact ⟨q, m, (h.mem_unlink hl).mpr ⟨hm, hne⟩, rfl⟩

theorem unlink_unswap {p : Place} {rest : List (Node κ)} (h : Linked (w.unswap p rest))
    {id : TimerID} (hrest : ∀ n ∈ rest, n.entry.id ≠ id) {loc : Location}
    (hl : w.entries.lookup id = some loc) :
    (w.unlink id loc).unswap p rest = (w.unswap p rest).unlink id loc := by
  obtain ⟨n, hn, ha, hid⟩ := h.designates id loc hl
  have hfront : loc.place = p → ∀ m ∈ rest, ¬ decide (m.addr = loc.iter) = true := by
    intro hp m hm hma
    have hm' : m ∈ (w.unswap p rest).slots loc.place := mem_unswap.mpr (Or.inr ⟨hp, hm⟩)
    have heq := h.addr_inj _ m hm' n hn ((of_decide_eq_true hma).trans ha.symm)
    exact hrest m hm (heq ▸ hid)
  have hslots : ((w.unlink id loc).unswap p rest).slots = ((w.unswap p rest).unlink id loc).slots := by
    funext q
    simp only [unswap, TimerWheel.unlink]
    by_cases hp : loc.place = p
    · subst hp
      rw [Function.update_self, Function.update_self, Function.update_idem, Function.update_idem,
        List.eraseP_append_right _ (hfront rfl)]
    · rw [Function.update_of_ne (Ne.symm hp), Function.update_of_ne hp,
        Function.update_comm (Ne.symm hp)]
  rw [show (w.unswap p rest).unlink id loc = { (w.unlink id loc).unswap p rest with
    slots := ((w.unswap p rest).unlink id loc).slots } from rfl, ← hslots]

/-- **`cancel` is defined**, for an id that is not in the list swapped out: the
node it erases is where the location says. -/
theorem cancel_cases_unswap {p : Place} {rest : List (Node κ)} (h : Linked (w.unswap p rest))
    {id : TimerID} (hrest : ∀ n ∈ rest, n.entry.id ≠ id) :
    (id ∉ w.entries ∧ w.cancel id = some (false, w)) ∨
    ∃ loc, w.entries.lookup id = some loc ∧ w.cancel id = some (true, w.unlink id loc) := by
  cases hl : w.entries.lookup id with
  | none => exact Or.inl ⟨AList.lookup_eq_none.mp hl, by simp [cancel, hl]⟩
  | some loc =>
    obtain ⟨n, hn, ha, hid⟩ := h.designates id loc hl
    have hn' : n ∈ w.slots loc.place := by
      rcases mem_unswap.mp hn with hn | ⟨-, hn⟩
      · exact hn
      · exact absurd hid (hrest n hn)
    have hany : (w.slots loc.place).any (fun m => m.addr = loc.iter) = true :=
      List.any_eq_true.mpr ⟨n, hn', by simpa using ha⟩
    exact Or.inr ⟨loc, rfl, by simp only [cancel, hl, hany, if_true]⟩

theorem cancel_cases (h : Linked w) (id : TimerID) :
    (id ∉ w.entries ∧ w.cancel id = some (false, w)) ∨
    ∃ loc, w.entries.lookup id = some loc ∧ w.cancel id = some (true, w.unlink id loc) := by
  have h' : Linked (w.unswap w.currentPlace []) := by rwa [unswap_nil]
  exact h'.cancel_cases_unswap (by simp)

end Linked

end TimerWheel

end HftComponents.Timer.Wheel
