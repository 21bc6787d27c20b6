import Mathlib.Order.OrderIsoNat
import HftComponents.Spsc.Attach

/-!
# What a failed create leaves behind

Each call of the system in `create` can fail after the ones before it took
effect.  When `ftruncate` fails the segment is unlinked, when `mmap` fails it
keeps its name, sized and never initialised (`clean_iff`).

An `open` that meets such a segment maps it and spins on its magic.  The waits
for the segment to appear and to have its size look at the deadline, the spin
does not: `open_ends_iff` says in which runs the call comes to an end.
-/

namespace HftComponents.Spsc.Attach

/-! ### The steps of the two processes -/

/-- `open` with this timeout finds no segment, or one that is too small. -/
def Missing (timeoutMs : Int) (s : State) : Prop :=
  s.opener = .lookup timeoutMs ∧ s.name = none ∨
    ∃ i, s.opener = .stat timeoutMs i ∧ (s.objects i).size.toNat < sizeofControlBlock

/-- What a step can do on the side of `create`, and of the names. -/
inductive CreatorMoves (s : State) : Label → State → List Event → Prop
  | called {p : Params} (hcr : s.creator = .idle) (hp : p.Valid) :
      CreatorMoves s (.create p) { s with creator := .truncate p } []
  | rejected {p : Params} (hcr : s.creator = .idle) (hp : ¬p.Valid) :
      CreatorMoves s (.create p) s [.createFailed]
  | truncated {p : Params} {i : Nat} (hcr : s.creator = .truncate p) (hn : s.name = some i) :
      CreatorMoves s .creator { s.setObject i {} with creator := .resize p i } []
  | named {p : Params} (hcr : s.creator = .truncate p) (hn : s.name = none) :
      CreatorMoves s .creator
        { s.setObject s.next {} with
          next := s.next + 1, name := some s.next, creator := .resize p s.next } []
  | resized {p : Params} {i : Nat} (hcr : s.creator = .resize p i) (o : Object) :
      CreatorMoves s .creator { s.setObject i o with creator := .map p i } []
  | mapped {p : Params} {i : Nat} (hcr : s.creator = .map p i) :
      CreatorMoves s .creator { s with creator := .store p i 0 } []
  | stored {p : Params} {i k : Nat} (hcr : s.creator = .store p i k) (o : Object) :
      CreatorMoves s .creator { s.setObject i o with creator := .store p i (k + 1) } []
  | completed {p : Params} {i k : Nat} (hcr : s.creator = .store p i k) (o : Object) :
      CreatorMoves s .creator { s.setObject i o with creator := .idle }
        [.created p.capacity p.maxMsgSize]
  | unlinks {p : Params} {i : Nat} {l : Label} (hcr : s.creator = .resize p i)
      (hl : l = .creator ∨ l = .creatorFails) :
      CreatorMoves s l { s with name := none, creator := .idle } [.createFailed]
  | notOpened {p : Params} (hcr : s.creator = .truncate p) :
      CreatorMoves s .creatorFails { s with creator := .idle } [.createFailed]
  | notMapped {p : Params} {i : Nat} (hcr : s.creator = .map p i) :
      CreatorMoves s .creatorFails { s with creator := .idle } [.createFailed]
  | died : CreatorMoves s .creatorDies { s with creator := .idle } []
  | unlinked : CreatorMoves s .unlink { s with name := none } []

/-- What a step of the opening process can do. -/
inductive OpenerMoves (s : State) : Label → State → List Event → Prop
  | called (hop : s.opener = .idle) (timeoutMs : Int) :
      OpenerMoves s (.open timeoutMs) { s with opener := .lookup timeoutMs } []
  | refused : OpenerMoves s .openerFails { s with opener := .idle } [.openFailed]
  | gaveUp {timeoutMs : Int} {expired : Bool} (hmissing : Missing timeoutMs s)
      (ht : timeoutMs = 0 ∨ 0 < timeoutMs ∧ expired) (pid : UInt64) :
      OpenerMoves s (.opener expired pid) { s with opener := .idle } [.openFailed]
  | waited {timeoutMs : Int} {expired : Bool} (hmissing : Missing timeoutMs s)
      (ht : ¬(timeoutMs = 0 ∨ 0 < timeoutMs ∧ expired)) (pid : UInt64) :
      OpenerMoves s (.opener expired pid) { s with opener := .lookup timeoutMs } []
  | found {timeoutMs : Int} {i : Nat} (hop : s.opener = .lookup timeoutMs) (expired : Bool)
      (pid : UInt64) :
      OpenerMoves s (.opener expired pid) { s with opener := .stat timeoutMs i } []
  | sized {timeoutMs : Int} {i : Nat} (hop : s.opener = .stat timeoutMs i) (sz : UInt64)
      (expired : Bool) (pid : UInt64) :
      OpenerMoves s (.opener expired pid) { s with opener := .map i sz } []
  | mapped {i : Nat} {sz : UInt64} (hop : s.opener = .map i sz) (expired : Bool) (pid : UInt64) :
      OpenerMoves s (.opener expired pid) { s with opener := .spin i sz } []
  | faulted (expired : Bool) (pid : UInt64) :
      OpenerMoves s (.opener expired pid) { s with opener := .idle } [.sigbus]
  | spun {i : Nat} {sz : UInt64} (hop : s.opener = .spin i sz)
      (hmagic : (s.objects i).word .magic ≠ kMagic) (expired : Bool) (pid : UInt64) :
      OpenerMoves s (.opener expired pid) s []
  | seen {i : Nat} {sz : UInt64} (hop : s.opener = .spin i sz) (expired : Bool) (pid : UInt64) :
      OpenerMoves s (.opener expired pid) { s with opener := .load i sz [] } []
  | loaded {i : Nat} {sz : UInt64} {got : List UInt64} (hop : s.opener = .load i sz got)
      (hlen : got.length < loads.length) (w : UInt64) (expired : Bool) (pid : UInt64) :
      OpenerMoves s (.opener expired pid) { s with opener := .load i sz (got ++ [w]) } []
  | attached {i : Nat} {sz : UInt64} {got : List UInt64} (hop : s.opener = .load i sz got)
      (o : Object) (expired : Bool) (pid : UInt64) :
      OpenerMoves s (.opener expired pid) { s.setObject i o with opener := .idle }
        [.attached sz got]

variable {s t u v : State} {os o : List Event} {l : Label} {p : Params} {i : Nat} {sz : UInt64}
  {timeoutMs : Int} {expired : Bool} {pid : UInt64}

theorem creatorMoves (h : stepCreator s = some (u, os)) : CreatorMoves s .creator u os := by
  unfold stepCreator at h
  cases hcr : s.creator with
  | idle => simp only [hcr, reduceCtorEq] at h
  | truncate p =>
    cases hn : s.name with
    | none =>
      simp only [hcr, hn, Option.some.injEq, Prod.mk.injEq] at h
      obtain ⟨rfl, rfl⟩ := h
      exact .named hcr hn
    | some i =>
      simp only [hcr, hn, Option.some.injEq, Prod.mk.injEq] at h
      obtain ⟨rfl, rfl⟩ := h
      exact .truncated hcr hn
  | resize p i =>
    simp only [hcr] at h
    split_ifs at h
    · obtain ⟨rfl, rfl⟩ := Prod.mk.inj (Option.some.inj h)
      exact .resized hcr _
    · obtain ⟨rfl, rfl⟩ := Prod.mk.inj (Option.some.inj h)
      exact .unlinks hcr (.inl rfl)
  | map p i =>
    simp only [hcr, Option.some.injEq, Prod.mk.injEq] at h
    obtain ⟨rfl, rfl⟩ := h
    exact .mapped hcr
  | store p i k =>
    cases hk : p.stores[k]? with
    | none => simp only [hcr, hk, reduceCtorEq] at h
    | some fv =>
      simp only [hcr, hk] at h
      split_ifs at h
      · obtain ⟨rfl, rfl⟩ := Prod.mk.inj (Option.some.inj h)
        exact .stored hcr _
      · obtain ⟨rfl, rfl⟩ := Prod.mk.inj (Option.some.inj h)
        exact .completed hcr _

theorem failMoves (h : failCreator s = some (u, os)) : CreatorMoves s .creatorFails u os := by
  unfold failCreator at h
  cases hcr : s.creator with
  | idle | store _ _ _ => simp only [hcr, reduceCtorEq] at h
  | resize p i =>
    simp only [hcr, Option.some.injEq, Prod.mk.injEq] at h
    obtain ⟨rfl, rfl⟩ := h
    exact .unlinks hcr (.inr rfl)
  | truncate p =>
    simp only [hcr, Option.some.injEq, Prod.mk.injEq] at h
    obtain ⟨rfl, rfl⟩ := h
    exact .notOpened hcr
  | map p i =>
    simp only [hcr, Option.some.injEq, Prod.mk.injEq] at h
    obtain ⟨rfl, rfl⟩ := h
    exact .notMapped hcr

theorem againMoves (hmissing : Missing timeoutMs s)
    (h : again s timeoutMs expired = (u, os)) : OpenerMoves s (.opener expired pid) u os := by
  unfold again at h
  split_ifs at h with ht
  · obtain ⟨rfl, rfl⟩ := Prod.mk.inj h
    exact .gaveUp hmissing ht pid
  · obtain ⟨rfl, rfl⟩ := Prod.mk.inj h
    exact .waited hmissing ht pid

theorem accessMoves {next : State × List Event}
    (hnext : OpenerMoves s (.opener expired pid) next.1 next.2)
    (h : access s i next = (u, os)) : OpenerMoves s (.opener expired pid) u os := by
  unfold access at h
  split_ifs at h
  · obtain ⟨rfl, rfl⟩ := Prod.mk.inj h
    exact .faulted expired pid
  · rw [h] at hnext
    exact hnext

theorem openerMoves (h : stepOpener s expired pid = some (u, os)) :
    OpenerMoves s (.opener expired pid) u os := by
  unfold stepOpener at h
  cases hop : s.opener with
  | idle => simp only [hop, reduceCtorEq] at h
  | lookup timeoutMs =>
    cases hn : s.name with
    | none =>
      simp only [hop, hn, Option.some.injEq] at h
      exact againMoves (.inl ⟨hop, hn⟩) h
    | some i =>
      simp only [hop, hn, Option.some.injEq, Prod.mk.injEq] at h
      obtain ⟨rfl, rfl⟩ := h
      have hm : OpenerMoves s (.opener expired pid) _ _ := .found (i := i) hop expired pid
      rw [← hn]
      exact hm
  | stat timeoutMs i =>
    simp only [hop] at h
    split_ifs at h with hsz
    · exact againMoves (.inr ⟨i, hop, hsz⟩) (Option.some.inj h)
    · obtain ⟨rfl, rfl⟩ := Prod.mk.inj (Option.some.inj h)
      exact .sized hop _ expired pid
  | map i sz =>
    simp only [hop, Option.some.injEq, Prod.mk.injEq] at h
    obtain ⟨rfl, rfl⟩ := h
    exact .mapped hop expired pid
  | spin i sz =>
    simp only [hop, Option.some.injEq] at h
    refine accessMoves ?_ h
    split_ifs with hmagic
    · exact .spun hop hmagic expired pid
    · exact .seen hop expired pid
  | load i sz got =>
    cases hf : loads[got.length]? with
    | some f =>
      simp only [hop, hf, Option.some.injEq] at h
      exact accessMoves (.loaded hop (List.getElem?_eq_some_iff.mp hf).1 _ expired pid) h
    | none =>
      simp only [hop, hf, Option.some.injEq] at h
      exact accessMoves (.attached hop _ expired pid) h

theorem step_moves (h : machine.step s l = some (u, os)) :
    CreatorMoves s l u os ∨ OpenerMoves s l u os := by
  cases l with
  | create p =>
    simp only [machine, step] at h
    split at h
    · split_ifs at h with hp
      · obtain ⟨rfl, rfl⟩ := Prod.mk.inj (Option.some.inj h)
        exact .inl (.called ‹_› hp)
      · obtain ⟨rfl, rfl⟩ := Prod.mk.inj (Option.some.inj h)
        exact .inl (.rejected ‹_› hp)
    · cases h
  | creator => exact .inl (creatorMoves h)
  | creatorFails => exact .inl (failMoves h)
  | creatorDies =>
    obtain ⟨rfl, rfl⟩ := Prod.mk.inj (Option.some.inj h)
    exact .inl .died
  | unlink =>
    obtain ⟨rfl, rfl⟩ := Prod.mk.inj (Option.some.inj h)
    exact .inl .unlinked
  | «open» timeoutMs =>
    simp only [machine, step] at h
    split at h
    · obtain ⟨rfl, rfl⟩ := Prod.mk.inj (Option.some.inj h)
      exact .inr (.called ‹_› timeoutMs)
    · cases h
  | opener expired pid => exact .inr (openerMoves h)
  | openerFails =>
    simp only [machine, step] at h
    split at h
    · obtain ⟨rfl, rfl⟩ := Prod.mk.inj (Option.some.inj h)
      exact .inr .refused
    · obtain ⟨rfl, rfl⟩ := Prod.mk.inj (Option.some.inj h)
      exact .inr .refused
    · cases h

/-! ### A call of create that fails -/

/-- No other call of `create` begins. -/
def OneCreate (_ : State) : Label → Prop
  | .create _ => False
  | _ => True

/-- A call of `create` that has opened the object `i`, or is over. -/
structure Calling (p : Params) (i : Nat) (s : State) : Prop where
  creator : s.creator = .idle ∨ s.creator.making = some (p, i)
  name : s.name = none ∨ s.name = some i
  used : i < s.next

/-- The object `i` has lost its name. -/
structure Forgotten (i : Nat) (s : State) : Prop where
  name : s.name ≠ some i
  used : i < s.next

/-- There is no segment, and the name will never refer to this object again. -/
def Clean (object : Option Nat) (s : State) : Prop :=
  s.name = none ∧
    ∀ os u, Lib.Machine.Run machine Lib.Machine.anyStep s os u → u.name ≠ object

theorem OpenerMoves.frame (h : OpenerMoves s l u os) :
    u.name = s.name ∧ u.next = s.next ∧ u.creator = s.creator := by
  cases h <;> exact ⟨rfl, rfl, rfl⟩

theorem CreatorMoves.frame (h : CreatorMoves s l u os) : u.opener = s.opener := by
  cases h <;> rfl

theorem Calling.step (hs : Calling p i s) (hl : OneCreate s l)
    (h : machine.step s l = some (u, os)) : Calling p i u := by
  obtain ⟨hcreator, hname, hused⟩ := hs
  rcases step_moves h with hm | hm
  · cases hm with
    | called _ _ | rejected _ _ => exact absurd hl id
    | truncated hcr _ | named hcr _ | notOpened hcr =>
      rw [hcr] at hcreator
      rcases hcreator with hidle | hmaking
      · cases hidle
      · cases hmaking
    | resized hcr _ | mapped hcr | stored hcr _ =>
      rw [hcr] at hcreator
      rcases hcreator with hidle | hmaking
      · cases hidle
      · exact ⟨.inr hmaking, hname, hused⟩
    | unlinks _ _ => exact ⟨.inl rfl, .inl rfl, hused⟩
    | completed _ _ | notMapped _ | died => exact ⟨.inl rfl, hname, hused⟩
    | unlinked => exact ⟨hcreator, .inl rfl, hused⟩
  · obtain ⟨hn, hnext, hcr⟩ := hm.frame
    exact ⟨by rw [hcr]; exact hcreator, by rw [hn]; exact hname, by rw [hnext]; exact hused⟩

theorem Forgotten.step (hs : Forgotten i s) (h : machine.step s l = some (u, os)) :
    Forgotten i u := by
  obtain ⟨hname, hused⟩ := hs
  rcases step_moves h with hm | hm
  · cases hm with
    | called _ _ | rejected _ _ | truncated _ _ | resized _ _ | mapped _ | stored _ _
    | completed _ _ | notOpened _ | notMapped _ | died => exact ⟨hname, hused⟩
    | named _ _ =>
      -- the new object is not an old one
      refine ⟨?_, Nat.lt_succ_of_lt hused⟩
      intro heq
      exact Nat.lt_irrefl i (hused.trans_eq (Option.some.inj heq))
    | unlinks _ _ | unlinked => exact ⟨nofun, hused⟩
  · obtain ⟨hn, hnext, -⟩ := hm.frame
    exact ⟨by rw [hn]; exact hname, by rw [hnext]; exact hused⟩

/-- An object without a name never gets one. -/
theorem clean_of_none (hname : s.name = none) (hused : i < s.next) : Clean (some i) s := by
  refine ⟨hname, ?_⟩
  intro os u hrun
  have hs : Forgotten i s := ⟨by rw [hname]; nofun, hused⟩
  exact (hrun.keeps hs fun t l u o ht _ hstep => ht.step hstep).name

/-- `shm_open` gives an object that the name refers to. -/
theorem calling_of_open (hused : ∀ j, s.name = some j → j < s.next)
    (hcr : s.creator = .truncate p) (h : machine.step s .creator = some (t, o)) :
    ∃ i, t.name = some i ∧ Calling p i t := by
  have hm : CreatorMoves s .creator t o := creatorMoves h
  cases hm with
  | truncated hcr' hn =>
    obtain rfl := Creator.truncate.inj (hcr.symm.trans hcr')
    exact ⟨_, hn, .inr rfl, .inr hn, hused _ hn⟩
  | named hcr' _ =>
    obtain rfl := Creator.truncate.inj (hcr.symm.trans hcr')
    exact ⟨_, rfl, .inr rfl, .inr rfl, Nat.lt_succ_self _⟩
  | resized hcr' _ | mapped hcr' | stored hcr' _ | completed hcr' _ | unlinks hcr' _ =>
    rw [hcr] at hcr'
    cases hcr'

/-- **A failed create, and the segment it has opened.**  Whatever other
processes do meanwhile, no segment is left if and only if it was not `mmap` that
failed, or another process has unlinked the segment before. -/
theorem clean_iff (hused : ∀ j, s.name = some j → j < s.next) (hcr : s.creator = .truncate p)
    (hopen : machine.step s .creator = some (t, o))
    (hrun : Lib.Machine.Run machine OneCreate t os u) (hl : OneCreate u l)
    (hfails : machine.step u l = some (v, [.createFailed])) :
    Clean t.name v ↔ ((∃ i, u.creator = .map p i) → u.name = none) := by
  obtain ⟨i, hname, hcalling⟩ := calling_of_open hused hcr hopen
  have hu : Calling p i u := hrun.keeps hcalling fun _ _ _ _ hs hok hstep => hs.step hok hstep
  have hv : Calling p i v := hu.step hl hfails
  rw [hname]
  have hclean : Clean (some i) v ↔ v.name = none :=
    ⟨And.left, fun hnone => clean_of_none hnone hv.used⟩
  rw [hclean]
  rcases step_moves hfails with hm | hm
  · generalize hos : ([.createFailed] : List Event) = shown at hm
    cases hm with
    | called _ _ | truncated _ _ | named _ _ | resized _ _ | mapped _ | stored _ _ | died
    | unlinked => cases hos
    | completed _ _ => cases hos
    | rejected _ _ => exact absurd hl id
    | unlinks hcr' _ =>
      refine iff_of_true rfl ?_
      rintro ⟨j, hmap⟩
      rw [hcr'] at hmap
      cases hmap
    | notOpened hcr' =>
      have hmaking := hu.creator
      rw [hcr'] at hmaking
      rcases hmaking with hidle | hmaking
      · cases hidle
      · cases hmaking
    | notMapped hcr' =>
      have hmaking := hu.creator
      rw [hcr'] at hmaking
      rcases hmaking with hidle | hmaking
      · cases hidle
      · obtain ⟨rfl, rfl⟩ := Prod.mk.inj (Option.some.inj hmaking)
        exact ⟨fun hnone _ => hnone, fun h => h ⟨_, hcr'⟩⟩
  · generalize hos : ([.createFailed] : List Event) = shown at hm
    cases hm <;> cases hos

/-- `ftruncate` fails, and the segment is gone. -/
theorem clean_iff_unlinked :
    ∃ t u v, machine.exec init [.create ⟨2, 8, 1⟩, .creator] = some (t, []) ∧
      Lib.Machine.Run machine OneCreate t [] u ∧
      machine.step u .creatorFails = some (v, [.createFailed]) ∧ Clean t.name v := by
  refine ⟨_, _, _, rfl, .refl _, rfl, ?_⟩
  refine (clean_iff (s := { creator := .truncate ⟨2, 8, 1⟩ }) (l := .creatorFails) nofun rfl rfl
    (.refl _) trivial rfl).mpr ?_
  rintro ⟨i, hmap⟩
  cases hmap

/-- The states of an `open` that meets the object `i`, while no other process acts. -/
def spinning (s : State) (timeoutMs : Int) (i : Nat) : Nat → State
  | 0 => { s with opener := .lookup timeoutMs }
  | 1 => { s with opener := .stat timeoutMs i }
  | 2 => { s with opener := .map i (s.objects i).size }
  | _ => { s with opener := .spin i (s.objects i).size }

/-- A segment of the right size without a magic holds an `open` up for ever. -/
theorem forever_spinning (hname : s.name = some i)
    (hsz : ¬(s.objects i).size.toNat < sizeofControlBlock)
    (hmagic : (s.objects i).word .magic ≠ kMagic) (timeoutMs : Int) (expired : Bool)
    (pid : UInt64) :
    machine.Forever (spinning s timeoutMs i) (fun _ => .opener expired pid) fun _ => [] := by
  have hsize : (s.objects i).size ≠ 0 := by
    intro hzero
    rw [hzero] at hsz
    exact hsz (by decide)
  intro k
  match k with
  | 0 => simp only [machine, step, stepOpener, spinning, hname]
  | 1 => simp only [machine, step, stepOpener, spinning, if_neg hsz]
  | 2 => rfl
  | k + 3 =>
    have hsize' : ((spinning s timeoutMs i (k + 3)).objects i).size ≠ 0 := hsize
    have hmagic' : ((spinning s timeoutMs i (k + 3)).objects i).word .magic ≠ kMagic := hmagic
    show some (access _ i _) = _
    unfold access
    rw [if_neg hsize', if_pos hmagic']
    rfl

/-- `create(2, 8)` up to `ftruncate`, and then `mmap` fails. -/
theorem exec_notMapped :
    ∃ t v, machine.exec init [.create ⟨2, 8, 1⟩, .creator] = some (t, []) ∧
      machine.exec t [.creator, .creatorFails] = some (v, [.createFailed]) ∧
      t.name = some 0 ∧ v.name = some 0 ∧ v.opener = .idle ∧ v.objects 0 = { size := 384 } :=
  ⟨_, _, rfl, rfl, rfl, rfl, rfl, rfl⟩

theorem forever_notMapped (hname : s.name = some 0) (hobj : s.objects 0 = { size := 384 })
    (timeoutMs : Int) :
    machine.Forever (spinning s timeoutMs 0) (fun _ => .opener true 7) fun _ => [] := by
  apply forever_spinning hname
  · rw [hobj]
    decide
  · rw [hobj]
    decide

/-- **A segment left behind.**  `mmap` fails, for instance with huge pages, and
the segment keeps its name; every later `open` of it spins for ever. -/
theorem segment_left :
    ∃ t v, machine.exec init [.create ⟨2, 8, 1⟩, .creator] = some (t, []) ∧
      machine.exec t [.creator, .creatorFails] = some (v, [.createFailed]) ∧
      ¬Clean t.name v ∧ v.name = some 0 ∧
      ∀ timeoutMs, machine.Forever (spinning v timeoutMs 0) (fun _ => .opener true 7)
        fun _ => [] := by
  obtain ⟨t, v, ht, hv, -, hname, -, hobj⟩ := exec_notMapped
  refine ⟨t, v, ht, hv, ?_, hname, fun timeoutMs => ?_⟩
  · rintro ⟨hnone, -⟩
    rw [hname] at hnone
    cases hnone
  · exact forever_notMapped hname hobj timeoutMs

/-! ### A call of open -/

/-- A call of `open` is over. -/
def Event.EndsOpen : Event → Prop
  | .attached _ _ | .openFailed | .sigbus => True
  | .created _ _ | .createFailed => False

/-- In a call of `open` with this timeout. -/
def Opener.InCall (timeoutMs : Int) : Opener → Prop
  | .idle => False
  | .lookup t | .stat t _ => t = timeoutMs
  | .map _ _ | .spin _ _ | .load _ _ _ => True

/-- How far the call is from its end. -/
def Opener.rank : Opener → Nat
  | .idle => 0
  | .load _ _ got => loads.length - got.length + 1
  | .spin _ _ => loads.length + 2
  | .map _ _ => loads.length + 3
  | .stat _ _ => loads.length + 4
  | .lookup _ => loads.length + 5

/-- The opening process takes its turn. -/
def Label.IsTurn : Label → Prop
  | .opener _ _ => True
  | _ => False

/-- The clock passes the deadline of the call. -/
def Passes (ls : Nat → Label) : Prop :=
  ∃ n, ∀ k, n ≤ k → ∀ expired pid, ls k = .opener expired pid → expired = true

/-- A call that is not over at `n`, and from there on finds at every look that
the object it has mapped is not initialised. -/
def SpinsFrom (σ : Nat → State) (ls : Nat → Label) (shown : Nat → List Event) (n : Nat) : Prop :=
  (∀ k, k < n → ∀ e ∈ shown k, ¬e.EndsOpen) ∧
    ∃ i sz, ∀ k, n ≤ k → (σ k).opener = .spin i sz ∧
      ((ls k).IsTurn → ((σ k).objects i).word .magic ≠ kMagic)

/-- What a turn within a call does. -/
inductive Turn (timeoutMs : Int) (s : State) : Label → State → List Event → Prop
  | ends {l : Label} {u : State} {os : List Event} {e : Event} (he : e ∈ os) (hends : e.EndsOpen) :
      Turn timeoutMs s l u os
  | waits {u : State} {os : List Event} {expired : Bool} {pid : UInt64}
      (ht : ¬(timeoutMs = 0 ∨ 0 < timeoutMs ∧ expired)) (hin : u.opener.InCall timeoutMs) :
      Turn timeoutMs s (.opener expired pid) u os
  | spins {l : Label} {os : List Event} {i : Nat} {sz : UInt64} (hop : s.opener = .spin i sz)
      (hmagic : (s.objects i).word .magic ≠ kMagic) (hin : s.opener.InCall timeoutMs) :
      Turn timeoutMs s l s os
  | moves {l : Label} {u : State} {os : List Event} (hrank : u.opener.rank < s.opener.rank)
      (hin : u.opener.InCall timeoutMs) : Turn timeoutMs s l u os

theorem OpenerMoves.turn (hin : s.opener.InCall timeoutMs) (h : OpenerMoves s l u os) :
    Turn timeoutMs s l u os := by
  cases h with
  | called hop _ =>
    rw [hop] at hin
    exact absurd hin id
  | refused | gaveUp _ _ _ | faulted _ _ | attached _ _ _ _ =>
    exact .ends List.mem_cons_self trivial
  | waited hmissing ht pid =>
    obtain ⟨hop, -⟩ | ⟨i, hop, -⟩ := hmissing
    · rw [hop] at hin
      subst hin
      exact .waits ht rfl
    · rw [hop] at hin
      subst hin
      exact .waits ht rfl
  | found hop _ _ =>
    rw [hop] at hin
    refine .moves ?_ hin
    rw [hop]
    exact Nat.lt_succ_self _
  | sized hop _ _ _ | mapped hop _ _ | seen hop _ _ =>
    refine .moves ?_ trivial
    rw [hop]
    exact Nat.lt_succ_self _
  | spun hop hmagic _ _ => exact .spins hop hmagic hin
  | loaded hop hlen _ _ _ =>
    refine .moves ?_ trivial
    rw [hop]
    simp only [Opener.rank, List.length_append, List.length_singleton]
    omega

/-- A step within a call: a turn, or one of another process. -/
theorem turn_or_same (hin : s.opener.InCall timeoutMs) (h : machine.step s l = some (u, os)) :
    Turn timeoutMs s l u os ∨ u.opener = s.opener ∧ ¬l.IsTurn := by
  rcases step_moves h with hm | hm
  · refine .inr ⟨hm.frame, ?_⟩
    cases hm with
    | unlinks _ hl => rcases hl with rfl | rfl <;> exact id
    | _ => exact id
  · exact .inl (hm.turn hin)

theorem idle_of_ends (h : machine.step s l = some (u, os)) {e : Event} (he : e ∈ os)
    (hends : e.EndsOpen) : u.opener = .idle := by
  rcases step_moves h with hm | hm
  · cases hm with
    | rejected _ _ | completed _ _ | unlinks _ _ | notOpened _ | notMapped _ =>
      rw [List.mem_singleton.mp he] at hends
      exact absurd hends id
    | _ => cases he
  · cases hm with
    | refused | gaveUp _ _ _ | faulted _ _ | attached _ _ _ _ => rfl
    | _ => cases he

theorem inCall_step (hin : s.opener.InCall timeoutMs) (h : machine.step s l = some (u, os))
    (hnone : ∀ e ∈ os, ¬e.EndsOpen) : u.opener.InCall timeoutMs := by
  rcases turn_or_same hin h with hturn | ⟨hsame, -⟩
  · cases hturn with
    | ends he hends => exact absurd hends (hnone _ he)
    | waits _ hin' | spins _ _ hin' | moves _ hin' => exact hin'
  · rw [hsame]
    exact hin

section Infinite

variable {σ : Nat → State} {ls : Nat → Label} {shown : Nat → List Event} {n : Nat}

/-- Once the deadline has passed, a call that never ends comes to spin: its rank
falls at every turn but those of the spin. -/
theorem spinsFrom_of_not_ends (h : machine.Forever σ ls shown)
    (hin : ∀ k, (σ k).opener.InCall timeoutMs) (ht : 0 ≤ timeoutMs) (hclock : Passes ls)
    (hturns : ∀ n, ∃ k, n ≤ k ∧ (ls k).IsTurn) (hnone : ∀ k, ∀ e ∈ shown k, ¬e.EndsOpen) :
    ∃ n, SpinsFrom σ ls shown n := by
  obtain ⟨m, hm⟩ := hclock
  -- what a step can do from `m` on
  have hstep : ∀ k, m ≤ k → (σ (k + 1)).opener.rank < (σ k).opener.rank ∨
      (σ (k + 1)).opener = (σ k).opener ∧
        ((ls k).IsTurn → ∃ i sz, (σ k).opener = .spin i sz ∧
          ((σ k).objects i).word .magic ≠ kMagic) := by
    intro k hk
    rcases turn_or_same (hin k) (h k) with hturn | ⟨hsame, hother⟩
    · generalize hl : ls k = l at hturn
      generalize hu : σ (k + 1) = u at hturn ⊢
      generalize ho : shown k = o at hturn
      cases hturn with
      | ends he hends => exact absurd hends (hnone k _ (ho ▸ he))
      | waits hgoes _ =>
        rcases ht.eq_or_lt with hzero | hpos
        · exact absurd (.inl hzero.symm) hgoes
        · exact absurd (.inr ⟨hpos, hm k hk _ _ hl⟩) hgoes
      | spins hop hmagic _ => exact .inr ⟨rfl, fun _ => ⟨_, _, hop, hmagic⟩⟩
      | moves hrank _ => exact .inl hrank
    · exact .inr ⟨hsame, fun hturn => absurd hturn hother⟩
  have hanti : ∀ k, m ≤ k → (σ (k + 1)).opener.rank ≤ (σ k).opener.rank := by
    intro k hk
    rcases hstep k hk with hlt | ⟨hsame, -⟩
    · exact hlt.le
    · rw [hsame]
  have hchain : Antitone fun k => (σ (m + k)).opener.rank :=
    antitone_nat_of_succ_le fun k => hanti (m + k) (Nat.le_add_right m k)
  obtain ⟨n, hn⟩ := WellFoundedLT.antitone_chain_condition hchain
  have hsame : ∀ k, m + n ≤ k → (σ (k + 1)).opener = (σ k).opener ∧
      ((ls k).IsTurn → ∃ i sz, (σ k).opener = .spin i sz ∧
        ((σ k).objects i).word .magic ≠ kMagic) := by
    intro k hk
    rcases hstep k (by omega) with hlt | hsame
    · have heq := (hn (k - m) (by omega)).symm.trans (hn (k + 1 - m) (by omega))
      rw [Nat.add_sub_of_le (by omega), Nat.add_sub_of_le (by omega)] at heq
      exact absurd heq.symm hlt.ne
    · exact hsame
  obtain ⟨k, hk, hturn⟩ := hturns (m + n)
  obtain ⟨i, sz, hop, -⟩ := (hsame k hk).2 hturn
  have hspin : ∀ j, k ≤ j → (σ j).opener = .spin i sz := by
    intro j hj
    induction hj with
    | refl => exact hop
    | step hj ih => exact (hsame _ (hk.trans hj)).1.trans ih
  refine ⟨k, fun j _ => hnone j, i, sz, fun j hj => ⟨hspin j hj, fun hturn => ?_⟩⟩
  obtain ⟨i', sz', hop', hmagic⟩ := (hsame j (hk.trans hj)).2 hturn
  obtain ⟨rfl, -⟩ := Opener.spin.inj ((hspin j hj).symm.trans hop')
  exact hmagic

/-- A turn that finds no segment ends the call, unless there is time left. -/
theorem missing_ends (hmissing : Missing timeoutMs s) (ht : timeoutMs = 0 ∨ 0 < timeoutMs ∧ expired)
    (h : machine.step s (.opener expired pid) = some (u, os)) : os = [.openFailed] := by
  have hagain : again s timeoutMs expired = ({ s with opener := .idle }, [.openFailed]) := if_pos ht
  obtain ⟨hop, hn⟩ | ⟨i, hop, hsz⟩ := hmissing
  · simp only [machine, step, stepOpener, hop, hn, hagain, Option.some.injEq, Prod.mk.injEq] at h
    exact h.2.symm
  · simp only [machine, step, stepOpener, hop, if_pos hsz, hagain, Option.some.injEq,
      Prod.mk.injEq] at h
    exact h.2.symm

/-- **When a call of open ends.**  It makes no further wait once a reading past
the deadline is possible, and none with the timeout 0.  It ends if and only if
it does not come to spin for ever on a segment that is never initialised. -/
theorem open_ends_iff (h : machine.Forever σ ls shown) (h0 : (σ 0).opener = .lookup timeoutMs)
    (ht : 0 ≤ timeoutMs) (hclock : Passes ls) (hturns : ∀ n, ∃ k, n ≤ k ∧ (ls k).IsTurn) :
    (∀ k expired pid, ls k = .opener expired pid → Missing timeoutMs (σ k) →
      timeoutMs = 0 ∨ expired = true → shown k = [.openFailed]) ∧
    ((∃ k, ∃ e ∈ shown k, e.EndsOpen) ↔ ¬∃ n, SpinsFrom σ ls shown n) := by
  refine ⟨?_, ?_, ?_⟩
  · intro k expired pid hl hmissing hend
    have hk := h k
    rw [hl] at hk
    refine missing_ends hmissing ?_ hk
    rcases ht.eq_or_lt with hzero | hpos
    · exact .inl hzero.symm
    · exact hend.imp_right fun hexpired => ⟨hpos, hexpired⟩
  · rintro ⟨k, e, he, hends⟩ ⟨n, hnone, i, sz, hspin⟩
    rcases Nat.lt_or_ge k n with hlt | hge
    · exact hnone k hlt e he hends
    · have hidle := idle_of_ends (h k) he hends
      rw [(hspin (k + 1) (Nat.le_succ_of_le hge)).1] at hidle
      cases hidle
  · intro hspins
    by_contra hends
    have hnone : ∀ k, ∀ e ∈ shown k, ¬e.EndsOpen := fun k e he hE => hends ⟨k, e, he, hE⟩
    refine hspins (spinsFrom_of_not_ends h ?_ ht hclock hturns hnone)
    intro k
    refine h.keeps_until (I := fun s => s.opener.InCall timeoutMs) (E := Event.EndsOpen) ?_ ?_
      (Nat.zero_le k) fun j _ _ => hnone j
    · rw [h0]
      rfl
    · exact fun _ _ _ _ hin hstep hquiet => inCall_step hin hstep hquiet

end Infinite

/-- Calls of `open` with a timeout of 1 ms, one after the other, when there is no
segment and the clock is past each deadline. -/
theorem forever_absent :
    machine.Forever (fun k => if k % 2 = 0 then { opener := .lookup 1 } else init)
      (fun k => if k % 2 = 0 then .opener true 7 else .open 1)
      (fun k => if k % 2 = 0 then [.openFailed] else []) := by
  intro k
  rcases Nat.mod_two_eq_zero_or_one k with hk | hk
  · have hnext : (k + 1) % 2 = 1 := by omega
    simp only [hk, hnext]
    rfl
  · have hnext : (k + 1) % 2 = 0 := by omega
    simp only [hk, hnext]
    rfl

/-- The calls without a segment end, by the deadline; the one that meets the segment
of a `create` whose `mmap` has failed does not. -/
theorem open_ends_iff_left :
    (∃ (σ : Nat → State) (ls : Nat → Label) (shown : Nat → List Event),
      machine.Forever σ ls shown ∧ (σ 0).opener = .lookup 1 ∧ (¬∃ n, SpinsFrom σ ls shown n) ∧
        shown 0 = [.openFailed]) ∧
    ∃ (σ : Nat → State) (ls : Nat → Label) (shown : Nat → List Event),
      machine.Forever σ ls shown ∧ (σ 0).opener = .lookup 100 ∧ Passes ls ∧ SpinsFrom σ ls shown 3 ∧
        ¬∃ k, ∃ e ∈ shown k, e.EndsOpen := by
  constructor
  · have hpasses : Passes fun k => if k % 2 = 0 then .opener true 7 else .open 1 := by
      refine ⟨0, fun k _ expired pid hl => ?_⟩
      dsimp only at hl
      split_ifs at hl
      exact (Label.opener.inj hl).1.symm
    have hends := open_ends_iff forever_absent rfl (by decide) hpasses fun n =>
      ⟨2 * n, Nat.le_mul_of_pos_left n (by decide), by simp [Label.IsTurn]⟩
    have hfirst := hends.1 0 true 7 rfl (.inl ⟨rfl, rfl⟩) (.inr rfl)
    exact ⟨_, _, _, forever_absent, rfl, hends.2.mp ⟨0, .openFailed, List.mem_cons_self, trivial⟩,
      hfirst⟩
  · obtain ⟨t, v, -, -, -, hname, -, hobj⟩ := exec_notMapped
    have hforever := forever_notMapped hname hobj 100
    have hpasses : Passes fun _ => .opener true 7 :=
      ⟨0, fun k _ expired pid hl => (Label.opener.inj hl).1.symm⟩
    have hspins : SpinsFrom (spinning v 100 0) (fun _ => .opener true 7) (fun _ => []) 3 := by
      refine ⟨fun k _ e he => absurd he List.not_mem_nil, 0, 384, fun k hk => ?_⟩
      obtain ⟨j, rfl⟩ := Nat.exists_eq_add_of_le' hk
      have hspin : spinning v 100 0 (j + 3) = { v with opener := .spin 0 384 } := by
        simp only [spinning, hobj]
      rw [hspin]
      exact ⟨rfl, fun _ => by simp only [hobj]; decide⟩
    refine ⟨_, _, _, hforever, rfl, hpasses, hspins, fun hends => ?_⟩
    have hiff := (open_ends_iff hforever rfl (by decide) hpasses fun n => ⟨n, le_rfl, trivial⟩).2
    exact hiff.mp hends ⟨3, hspins⟩

/-- **A timeout that does not end the wait.**  `create(2, 8)` has failed in
`mmap`; an `open` with 100 ms maps the segment and spins for ever, with the
clock past its deadline all along. -/
theorem timeout_ignored :
    ∃ s, Lib.Machine.Run machine Lib.Machine.anyStep init [.createFailed] s ∧
      machine.step s (.open 100) = some (spinning s 100 0 0, []) ∧
      machine.Forever (spinning s 100 0) (fun _ => .opener true 7) fun _ => [] := by
  obtain ⟨t, v, ht, hv, -, hname, hop, hobj⟩ := exec_notMapped
  refine ⟨v, (Lib.Machine.run_of_exec_any ht).trans (Lib.Machine.run_of_exec_any hv), ?_, ?_⟩
  · simp only [machine, step, hop]
    rfl
  · exact forever_notMapped hname hobj 100

end HftComponents.Spsc.Attach
