import HftComponents.Lib.Machine
import HftComponents.Spsc.Segment

/-!
# Creating and opening a bus

`SharedBus::create` and `SharedBus::open` with the constructor of `Consumer`,
cut at every call of the system and every access to the control block.

The system keeps objects; a name refers to one of them, or to none.  A process
that has opened or mapped an object keeps it when the name goes.  `O_TRUNC`
takes the size and the contents of an object away under whoever has it mapped:
an access finds no page while the size is 0 (`sigbus`), and zeros after
`ftruncate`.

Processes create one after the other, each may fail or die at any step, and one
opens and attaches again and again.  So what an opener meets is no segment, the
one of a running or abandoned `create`, or a stale one of an earlier `create`.
-/

namespace HftComponents.Spsc.Attach

open Lib.Machine (Accepts)

/-! ### Objects -/

/-- The words of the control block, in the order of their addresses. -/
inductive Field
  | magic
  | capacity
  | slotStride
  | maxMsgSize
  | sessionId
  | writePos
  | readPos
  | producerPid
  | producerHeartbeatTs
  | consumerPid
  | consumerHeartbeatTs
  deriving DecidableEq, Repr

structure Object where
  size : UInt64 := 0
  word : Field → UInt64 := fun _ => 0

def Object.store (o : Object) (f : Field) (v : UInt64) : Object :=
  { o with word := Function.update o.word f v }

def kMagic : UInt64 := 0x53505343

/-- What `memset` clears of the control block. -/
def cleared : List (Field × UInt64) :=
  [(.magic, 0), (.capacity, 0), (.slotStride, 0), (.maxMsgSize, 0), (.sessionId, 0),
    (.writePos, 0), (.readPos, 0), (.producerPid, 0), (.producerHeartbeatTs, 0),
    (.consumerPid, 0), (.consumerHeartbeatTs, 0)]

/-- The arguments of `create`, with the session id that it makes. -/
structure Params where
  capacity : UInt32
  maxMsgSize : UInt32
  sessionId : UInt64

/-- The stores of `create`, in order. -/
def Params.stores (p : Params) : List (Field × UInt64) :=
  cleared ++ [(.capacity, p.capacity.toUInt64),
    (.slotStride, (computeSlotStride p.maxMsgSize).toUInt32.toUInt64),
    (.maxMsgSize, p.maxMsgSize.toUInt64), (.sessionId, p.sessionId), (.writePos, 0),
    (.readPos, 0), (.producerPid, 0), (.producerHeartbeatTs, 0), (.consumerPid, 0),
    (.consumerHeartbeatTs, 0), (.magic, kMagic)]

/-- The loads of the constructor of `Consumer`, in order. -/
def loads : List Field := [.capacity, .slotStride, .maxMsgSize, .readPos, .writePos]

/-! ### The machine -/

/-- Where the creating process is; in `store`, `k` stores have been made. -/
inductive Creator
  | idle
  | truncate (p : Params)
  | resize (p : Params) (i : Nat)
  | map (p : Params) (i : Nat)
  | store (p : Params) (i k : Nat)

/-- Where the opening process is; `got` is what the constructor has loaded. -/
inductive Opener
  | idle
  | lookup (timeoutMs : Int)
  | stat (timeoutMs : Int) (i : Nat)
  | map (i : Nat) (sz : UInt64)
  | spin (i : Nat) (sz : UInt64)
  | load (i : Nat) (sz : UInt64) (got : List UInt64)

/-- `objects` from `next` on are not in use. -/
structure State where
  objects : Nat → Object := fun _ => {}
  next : Nat := 0
  name : Option Nat := none
  creator : Creator := .idle
  opener : Opener := .idle

/-- `expired` is what the clock says of the deadline of `open`, and `pid` the
process id that `Consumer` registers. -/
inductive Label
  | create (p : Params)
  | creator
  | creatorFails
  | creatorDies
  | unlink
  | open (timeoutMs : Int)
  | opener (expired : Bool) (pid : UInt64)
  | openerFails

/-- `attached` shows what the constructor has loaded, and the size mapped. -/
inductive Event
  | created (capacity maxMsgSize : UInt32)
  | createFailed
  | attached (sz : UInt64) (got : List UInt64)
  | openFailed
  | sigbus
  deriving DecidableEq, Repr

def State.setObject (s : State) (i : Nat) (o : Object) : State :=
  { s with objects := Function.update s.objects i o }

/-- `create` reaches the system with these arguments. -/
def Params.Valid (p : Params) : Prop :=
  p.capacity ≠ 0 ∧ p.capacity &&& (p.capacity - 1) = 0 ∧ p.maxMsgSize ≠ 0

instance (p : Params) : Decidable p.Valid :=
  inferInstanceAs (Decidable (_ ∧ _ ∧ _))

def stepCreator (s : State) : Option (State × List Event) :=
  match s.creator with
  | .idle => none
  | .truncate p =>
    match s.name with
    | some i => some ({ s.setObject i {} with creator := .resize p i }, [])
    | none =>
      some ({ s.setObject s.next {} with
        next := s.next + 1, name := some s.next, creator := .resize p s.next }, [])
  | .resize p i =>
    let sz := computeShmSize p.capacity p.maxMsgSize
    -- `off_t` is signed
    if sz.toNat < 2 ^ 63 then
      some ({ s.setObject i { s.objects i with size := sz } with creator := .map p i }, [])
    else some ({ s with name := none, creator := .idle }, [.createFailed])
  | .map p i => some ({ s with creator := .store p i 0 }, [])
  | .store p i k =>
    match p.stores[k]? with
    | none => none
    | some (f, v) =>
      let s := s.setObject i ((s.objects i).store f v)
      if k + 1 < p.stores.length then some ({ s with creator := .store p i (k + 1) }, [])
      else some ({ s with creator := .idle }, [.created p.capacity p.maxMsgSize])

/-- A call of the system fails, or `mmap` after `ftruncate`. -/
def failCreator (s : State) : Option (State × List Event) :=
  match s.creator with
  | .idle | .store _ _ _ => none
  | .resize _ _ => some ({ s with name := none, creator := .idle }, [.createFailed])
  | .truncate _ | .map _ _ => some ({ s with creator := .idle }, [.createFailed])

/-- The segment is not there yet: sleep and try again, or throw. -/
def again (s : State) (timeoutMs : Int) (expired : Bool) : State × List Event :=
  if timeoutMs = 0 ∨ 0 < timeoutMs ∧ expired then ({ s with opener := .idle }, [.openFailed])
  else ({ s with opener := .lookup timeoutMs }, [])

/-- An access to the first page of the mapping. -/
def access (s : State) (i : Nat) (next : State × List Event) : State × List Event :=
  if (s.objects i).size = 0 then ({ s with opener := .idle }, [.sigbus]) else next

def stepOpener (s : State) (expired : Bool) (pid : UInt64) : Option (State × List Event) :=
  match s.opener with
  | .idle => none
  | .lookup t =>
    match s.name with
    | none => some (again s t expired)
    | some i => some ({ s with opener := .stat t i }, [])
  | .stat t i =>
    let sz := (s.objects i).size
    if sz.toNat < sizeofControlBlock then some (again s t expired)
    else some ({ s with opener := .map i sz }, [])
  | .map i sz => some ({ s with opener := .spin i sz }, [])
  | .spin i sz =>
    some (access s i
      (if (s.objects i).word .magic ≠ kMagic then (s, [])
      else ({ s with opener := .load i sz [] }, [])))
  | .load i sz got =>
    match loads[got.length]? with
    | some f =>
      some (access s i ({ s with opener := .load i sz (got ++ [(s.objects i).word f]) }, []))
    | none =>
      some (access s i
        ({ s.setObject i ((s.objects i).store .consumerPid pid) with opener := .idle },
          [.attached sz got]))

def step (s : State) : Label → Option (State × List Event)
  | .create p =>
    match s.creator with
    | .idle =>
      if p.Valid then some ({ s with creator := .truncate p }, [])
      else some (s, [.createFailed])
    | _ => none
  | .creator => stepCreator s
  | .creatorFails => failCreator s
  | .creatorDies => some ({ s with creator := .idle }, [])
  | .unlink => some ({ s with name := none }, [])
  | .open timeoutMs =>
    match s.opener with
    | .idle => some ({ s with opener := .lookup timeoutMs }, [])
    | _ => none
  | .opener expired pid => stepOpener s expired pid
  | .openerFails =>
    match s.opener with
    | .lookup _ | .map _ _ => some ({ s with opener := .idle }, [.openFailed])
    | _ => none

def machine : Lib.Machine State Label Event := ⟨step⟩

/-- No segment at all. -/
def init : State := {}

/-! ### The runs in question -/

/-- The object that the opener has taken the size of, when `create` with `p`
must not truncate it now.  It may while the opener has yet to see the magic and
the size will be the same again, and once the three words are loaded. -/
def Opener.exposed (p : Params) : Opener → Option Nat
  | .map i sz | .spin i sz =>
    if sz = computeShmSize p.capacity p.maxMsgSize then none else some i
  | .load i _ got => if got.length < 3 then some i else none
  | _ => none

def Creator.Spares (name : Option Nat) (op : Opener) : Creator → Prop
  | .truncate p => op.exposed p = none ∨ op.exposed p ≠ name
  | _ => True

instance decidableSpares (name : Option Nat) (op : Opener) :
    ∀ cr : Creator, Decidable (cr.Spares name op)
  | .truncate p => inferInstanceAs (Decidable (op.exposed p = none ∨ op.exposed p ≠ name))
  | .idle | .resize _ _ | .map _ _ | .store _ _ _ => isTrue trivial

/-- No `create` truncates a segment between an opener's `fstat` and its loads. -/
def Undisturbed (s : State) : Label → Prop
  | .creator => s.creator.Spares s.name s.opener
  | _ => True

instance decidableUndisturbed (s : State) : ∀ l, Decidable (Undisturbed s l)
  | .creator => inferInstanceAs (Decidable (s.creator.Spares s.name s.opener))
  | .create _ | .creatorFails | .creatorDies | .unlink | .open _ | .opener _ _
  | .openerFails => isTrue trivial

/-! ### The specification -/

/-- The words `got` and the size `sz` are those of one of the calls `cs`. -/
def Whole (cs : List (UInt32 × UInt32)) (sz : UInt64) (got : List UInt64) : Prop :=
  ∃ c m, (c, m) ∈ cs ∧
    got.take 3 = [c.toUInt64, (computeSlotStride m).toUInt32.toUInt64, m.toUInt64] ∧
    sz = computeShmSize c m

/-- An observer knows the completed calls of `create`, and expects a consumer to
have read the words of one of them, and mapped its size. -/
inductive Attaches :
    List (UInt32 × UInt32) → Event → List (UInt32 × UInt32) → Prop
  | created {cs : List (UInt32 × UInt32)} {c m : UInt32} :
      Attaches cs (.created c m) (cs ++ [(c, m)])
  | attached {cs : List (UInt32 × UInt32)} {sz : UInt64} {got : List UInt64}
      (h : Whole cs sz got) : Attaches cs (.attached sz got) cs
  | createFailed {cs : List (UInt32 × UInt32)} : Attaches cs .createFailed cs
  | openFailed {cs : List (UInt32 × UInt32)} : Attaches cs .openFailed cs
  | sigbus {cs : List (UInt32 × UInt32)} : Attaches cs .sigbus cs

/-! ### The invariant -/

/-- The object that `create` is making, and for which arguments. -/
def Creator.making : Creator → Option (Params × Nat)
  | .resize p i | .map p i | .store p i _ => some (p, i)
  | _ => none

def Opener.object : Opener → Option Nat
  | .stat _ i | .map i _ | .spin i _ | .load i _ _ => some i
  | _ => none

/-- The words of the control block after the first `k` stores. -/
def Params.contents (p : Params) (k : Nat) : Field → UInt64 :=
  (p.stores.take k).foldl (fun w fv => Function.update w fv.1 fv.2) fun _ => 0

/-- After `k` stores; a late consumer may have registered meanwhile. -/
def Holds (p : Params) (k : Nat) (o : Object) : Prop :=
  ∀ f, f ≠ .consumerPid → o.word f = p.contents k f

/-- A completed `create` has made the object. -/
def Complete (cs : List (UInt32 × UInt32)) (o : Object) : Prop :=
  Whole cs o.size ((loads.take 3).map o.word)

def Creating (objects : Nat → Object) : Creator → Prop
  | .resize p i => Holds p 0 (objects i) ∧ (objects i).size = 0
  | .map p i =>
    Holds p 0 (objects i) ∧ (objects i).size = computeShmSize p.capacity p.maxMsgSize
  | .store p i k =>
    Holds p k (objects i) ∧ k < p.stores.length ∧
      (objects i).size = computeShmSize p.capacity p.maxMsgSize
  | _ => True

/-- Before the magic is seen, the size taken is the one that the object has when
its magic is valid; then the object stays until the three words are loaded. -/
def Opening (cs : List (UInt32 × UInt32)) (objects : Nat → Object) (cr : Creator) :
    Opener → Prop
  | .map i sz | .spin i sz =>
    ((objects i).word .magic = kMagic → (objects i).size = sz) ∧
      ∀ p, cr.making = some (p, i) → sz = computeShmSize p.capacity p.maxMsgSize
  | .load i sz got =>
    if got.length < 3 then
      (objects i).word .magic = kMagic ∧ (objects i).size = sz ∧
        got = (loads.take got.length).map (objects i).word
    else Whole cs sz got
  | _ => True

structure Sound (cs : List (UInt32 × UInt32)) (s : State) : Prop where
  complete : ∀ i, (s.objects i).word .magic = kMagic → Complete cs (s.objects i)
  name : ∀ i, s.name = some i → i < s.next
  creator : ∀ p i, s.creator.making = some (p, i) → i < s.next
  opener : ∀ i, s.opener.object = some i → i < s.next
  creating : Creating s.objects s.creator
  opening : Opening cs s.objects s.creator s.opener

variable {cs ds : List (UInt32 × UInt32)} {s u : State} {os : List Event}
  {objects : Nat → Object} {o : Object} {i : Nat} {p : Params} {cr cr' : Creator} {op : Opener}
  {l : Label} {sz : UInt64} {got : List UInt64}

/-! ### The words of the control block -/

theorem foldl_magic : ∀ (fvs : List (Field × UInt64)) (w : Field → UInt64),
    (∀ fv ∈ fvs, fv.1 = .magic → fv.2 = 0) → w .magic = 0 →
    fvs.foldl (fun w fv => Function.update w fv.1 fv.2) w .magic = 0 := by
  intro fvs
  induction fvs with
  | nil => exact fun _ _ hw => hw
  | cons fv fvs ih =>
    intro w hall hw
    refine ih _ (fun x hx => hall x (List.mem_cons_of_mem _ hx)) ?_
    show Function.update w fv.1 fv.2 .magic = 0
    by_cases hf : fv.1 = .magic
    · rw [hf, Function.update_self]
      exact hall fv List.mem_cons_self hf
    · rw [Function.update_of_ne (Ne.symm hf)]
      exact hw

/-- Only the last store makes the magic valid. -/
theorem contents_magic {k : Nat} (hk : k < p.stores.length) : p.contents k .magic = 0 := by
  have hall : ∀ fv ∈ p.stores.take 21, fv.1 = .magic → fv.2 = 0 := by
    simp [Params.stores, cleared]
  apply foldl_magic
  · intro fv hfv
    apply hall fv
    have hmin : min k 21 = k := Nat.min_eq_left (Nat.le_of_lt_succ hk)
    rw [← hmin, ← List.take_take] at hfv
    exact List.mem_of_mem_take hfv
  · rfl

theorem contents_succ {k : Nat} {f : Field} {v : UInt64} (hk : p.stores[k]? = some (f, v)) :
    p.contents (k + 1) = Function.update (p.contents k) f v := by
  rw [Params.contents, List.take_add_one, hk, List.foldl_append]
  rfl

theorem Holds.store {k : Nat} {f : Field} {v : UInt64} (h : Holds p k o)
    (hk : p.stores[k]? = some (f, v)) : Holds p (k + 1) (o.store f v) := by
  intro g hg
  rw [contents_succ hk]
  show Function.update o.word f v g = _
  by_cases hfg : g = f
  · rw [hfg, Function.update_self, Function.update_self]
  · rw [Function.update_of_ne hfg, Function.update_of_ne hfg]
    exact h g hg

theorem Holds.magic {k : Nat} (h : Holds p k o) (hk : k < p.stores.length) :
    o.word .magic ≠ kMagic := by
  rw [h .magic (by decide), contents_magic hk]
  decide

/-- With its last store, `create` is complete. -/
theorem Holds.complete (h : Holds p p.stores.length o)
    (hsz : o.size = computeShmSize p.capacity p.maxMsgSize)
    (hcs : (p.capacity, p.maxMsgSize) ∈ cs) : Complete cs o := by
  refine ⟨p.capacity, p.maxMsgSize, hcs, ?_, hsz⟩
  have hc := h .capacity (by decide)
  have hs := h .slotStride (by decide)
  have hm := h .maxMsgSize (by decide)
  show [o.word .capacity, o.word .slotStride, o.word .maxMsgSize] = _
  rw [hc, hs, hm]
  rfl

theorem Whole.mono (hsub : cs ⊆ ds) (h : Whole cs sz got) : Whole ds sz got := by
  obtain ⟨c, m, hmem, hrest⟩ := h
  exact ⟨c, m, hsub hmem, hrest⟩

theorem Whole.append {v : UInt64} (h3 : ¬ got.length < 3) (h : Whole cs sz got) :
    Whole cs sz (got ++ [v]) := by
  obtain ⟨c, m, hmem, hgot, hsz⟩ := h
  refine ⟨c, m, hmem, ?_, hsz⟩
  rw [List.take_append_of_le_length (Nat.le_of_not_lt h3)]
  exact hgot

theorem Complete.mono (hsub : cs ⊆ ds) (h : Complete cs o) : Complete ds o :=
  Whole.mono hsub h

/-! ### Steps that leave the invariant's parts alone -/

/-- What the opener needs of the objects, when its own is the same and no
`create` has started to make one. -/
theorem Opening.frame {objects' : Nat → Object} (h : Opening cs objects cr op)
    (hobj : ∀ i, op.object = some i → objects' i = objects i)
    (hcr : ∀ p i, cr'.making = some (p, i) → op.object = some i → cr.making = some (p, i))
    (hsub : cs ⊆ ds) : Opening ds objects' cr' op := by
  cases op with
  | idle | lookup _ | stat _ _ => trivial
  | map i sz | spin i sz =>
    obtain ⟨hmagic, hsz⟩ := h
    refine ⟨?_, fun p hp => hsz p (hcr p i hp rfl)⟩
    rw [hobj i rfl]
    exact hmagic
  | load i sz got =>
    simp only [Opening] at h ⊢
    split_ifs at h ⊢ with h3
    · rw [hobj i rfl]
      exact h
    · exact h.mono hsub

/-- `create` truncates an object that no opener is exposed on. -/
theorem Opening.truncate (h : Opening cs objects cr op) (hspares : op.exposed p ≠ some i) :
    Opening cs (Function.update objects i {}) (.resize p i) op := by
  cases op with
  | idle | lookup _ | stat _ _ => trivial
  | map j sz | spin j sz =>
    by_cases hj : j = i
    · subst hj
      have hsz : sz = computeShmSize p.capacity p.maxMsgSize := by
        by_contra hne
        exact hspares (if_neg hne)
      refine ⟨?_, ?_⟩
      · intro hmagic
        rw [Function.update_self] at hmagic
        exact absurd hmagic (by decide)
      · intro q hq
        obtain ⟨rfl, -⟩ := Prod.mk.inj (Option.some.inj hq)
        exact hsz
    · obtain ⟨hmagic, -⟩ := h
      refine ⟨?_, ?_⟩
      · rw [Function.update_of_ne hj]
        exact hmagic
      · intro q hq
        exact absurd (Prod.mk.inj (Option.some.inj hq)).2.symm hj
  | load j sz got =>
    simp only [Opening] at h ⊢
    split_ifs at h ⊢ with h3
    · have hj : j ≠ i := by
        intro hj
        refine hspares ?_
        rw [← hj]
        exact if_pos h3
      rw [Function.update_of_ne hj]
      exact h
    · exact h

/-- `create` resizes or stores, while the magic is not valid. -/
theorem Opening.make (h : Opening cs objects cr op) (hmaking : cr.making = some (p, i))
    (hmagic : (objects i).word .magic ≠ kMagic)
    (ho : o.size = computeShmSize p.capacity p.maxMsgSize)
    (hcr : ∀ q j, cr'.making = some (q, j) → cr.making = some (q, j)) (hsub : cs ⊆ ds) :
    Opening ds (Function.update objects i o) cr' op := by
  cases op with
  | idle | lookup _ | stat _ _ => trivial
  | map j sz | spin j sz =>
    obtain ⟨hvalid, hsz⟩ := h
    refine ⟨?_, fun q hq => hsz q (hcr q j hq)⟩
    by_cases hj : j = i
    · subst hj
      intro _
      rw [Function.update_self, ho, hsz p hmaking]
    · rw [Function.update_of_ne hj]
      exact hvalid
  | load j sz got =>
    simp only [Opening] at h ⊢
    split_ifs at h ⊢ with h3
    · have hj : j ≠ i := by
        intro hj
        exact hmagic (hj ▸ h.1)
      rw [Function.update_of_ne hj]
      exact h
    · exact h.mono hsub

/-- A consumer registers, perhaps in a segment that is being made anew. -/
theorem Creating.register {pid : UInt64} (h : Creating objects cr) :
    Creating (Function.update objects i ((objects i).store .consumerPid pid)) cr := by
  have hsize : ∀ j, (Function.update objects i ((objects i).store .consumerPid pid) j).size =
      (objects j).size := by
    intro j
    by_cases hj : j = i
    · rw [hj, Function.update_self]
      rfl
    · rw [Function.update_of_ne hj]
  have hholds : ∀ q k j, Holds q k (objects j) →
      Holds q k (Function.update objects i ((objects i).store .consumerPid pid) j) := by
    intro q k j hq f hf
    rw [← hq f hf]
    by_cases hj : j = i
    · rw [hj, Function.update_self]
      exact Function.update_of_ne hf _ _
    · rw [Function.update_of_ne hj]
  cases cr with
  | idle | truncate _ => trivial
  | resize q j | map q j => exact ⟨hholds q 0 j h.1, (hsize j).trans h.2⟩
  | store q j k => exact ⟨hholds q k j h.1, h.2.1, (hsize j).trans h.2.2⟩

theorem Sound.quit (hs : Sound cs s) (cr : Creator) (hcr : ∀ p i, cr.making ≠ some (p, i))
    (hcreating : Creating s.objects cr) {name : Option Nat}
    (hname : ∀ i, name = some i → s.name = some i) :
    Sound cs { s with name := name, creator := cr } where
  complete := hs.complete
  name i hi := hs.name i (hname i hi)
  creator p i hi := absurd hi (hcr p i)
  opener := hs.opener
  creating := hcreating
  opening := hs.opening.frame (fun _ _ => rfl) (fun p i hi => absurd hi (hcr p i)) (.refl _)

theorem Sound.seek (hs : Sound cs s) (op : Opener) (hobj : ∀ i, op.object = some i → i < s.next)
    (hop : Opening cs s.objects s.creator op) : Sound cs { s with opener := op } where
  complete := hs.complete
  name := hs.name
  creator := hs.creator
  opener := hobj
  creating := hs.creating
  opening := hop

/-! ### The steps of `create` -/

theorem object_of_exposed (h : op.exposed p = some i) : op.object = some i := by
  cases op with
  | idle | lookup _ | stat _ _ => cases h
  | map j sz | spin j sz =>
    by_cases hsz : sz = computeShmSize p.capacity p.maxMsgSize
    · rw [Opener.exposed, if_pos hsz] at h
      cases h
    · rwa [Opener.exposed, if_neg hsz] at h
  | load j sz got =>
    by_cases h3 : got.length < 3
    · rwa [Opener.exposed, if_pos h3] at h
    · rw [Opener.exposed, if_neg h3] at h
      cases h

theorem Sound.truncate (hs : Sound cs s) {n : Nat} (hi : i < n) (hn : s.next ≤ n)
    (hspares : s.opener.exposed p ≠ some i) :
    Sound cs { s.setObject i {} with next := n, name := some i, creator := .resize p i } where
  complete j hj := by
    by_cases hji : j = i
    · simp only [State.setObject, hji, Function.update_self] at hj
      exact absurd hj (by decide)
    · simp only [State.setObject, Function.update_of_ne hji] at hj ⊢
      exact hs.complete j hj
  name j hj := Option.some.inj hj ▸ hi
  creator q j hj := (Prod.mk.inj (Option.some.inj hj)).2 ▸ hi
  opener j hj := Nat.lt_of_lt_of_le (hs.opener j hj) hn
  creating := by
    simp only [State.setObject, Creating, Function.update_self]
    exact ⟨fun _ _ => rfl, trivial⟩
  opening := hs.opening.truncate hspares

theorem Sound.make (hs : Sound cs s) (hmaking : s.creator.making = some (p, i))
    (hmagic : (s.objects i).word .magic ≠ kMagic)
    (hsz : o.size = computeShmSize p.capacity p.maxMsgSize) (hsub : cs ⊆ ds)
    (hcomplete : o.word .magic = kMagic → Complete ds o)
    (hcr : ∀ q j, cr.making = some (q, j) → s.creator.making = some (q, j))
    (hcreating : Creating (Function.update s.objects i o) cr) :
    Sound ds { s.setObject i o with creator := cr } where
  complete j hj := by
    by_cases hji : j = i
    · simp only [State.setObject, hji, Function.update_self] at hj ⊢
      exact hcomplete hj
    · simp only [State.setObject, Function.update_of_ne hji] at hj ⊢
      exact (hs.complete j hj).mono hsub
  name := hs.name
  creator q j hj := hs.creator q j (hcr q j hj)
  opener := hs.opener
  creating := hcreating
  opening := hs.opening.make hmaking hmagic hsz hcr hsub

theorem Sound.resize (hs : Sound cs s) (hcr : s.creator = .resize p i) :
    Sound cs { s.setObject i { s.objects i with
      size := computeShmSize p.capacity p.maxMsgSize } with creator := .map p i } := by
  have hcreating := hs.creating
  rw [hcr] at hcreating
  obtain ⟨hholds, -⟩ := hcreating
  have hmagic : (s.objects i).word .magic ≠ kMagic := hholds.magic (Nat.succ_pos 21)
  have hmaking : s.creator.making = some (p, i) := by rw [hcr]; rfl
  refine hs.make hmaking hmagic rfl (List.Subset.refl _) (fun hvalid => absurd hvalid hmagic)
    ?_ ?_
  · intro q j hq
    rw [hmaking]
    exact hq
  · simp only [Creating, Function.update_self]
    exact ⟨hholds, trivial⟩

theorem Sound.map (hs : Sound cs s) (hcr : s.creator = .map p i) :
    Sound cs { s with creator := .store p i 0 } := by
  have hcreating := hs.creating
  rw [hcr] at hcreating
  obtain ⟨hholds, hsz⟩ := hcreating
  have hmaking : s.creator.making = some (p, i) := by rw [hcr]; rfl
  exact
    { complete := hs.complete
      name := hs.name
      creator := fun q j hq => hs.creator q j (hmaking.trans hq)
      opener := hs.opener
      creating := ⟨hholds, Nat.succ_pos 21, hsz⟩
      opening := hs.opening.frame (fun _ _ => rfl) (fun q j hq _ => hmaking.trans hq)
        (List.Subset.refl _) }

theorem Sound.store {k : Nat} {f : Field} {v : UInt64} (hs : Sound cs s)
    (hcr : s.creator = .store p i k) (hk : p.stores[k]? = some (f, v)) :
    (k + 1 < p.stores.length →
      Sound cs { s.setObject i ((s.objects i).store f v) with creator := .store p i (k + 1) }) ∧
    (¬ k + 1 < p.stores.length →
      Sound (cs ++ [(p.capacity, p.maxMsgSize)])
        { s.setObject i ((s.objects i).store f v) with creator := .idle }) := by
  have hcreating := hs.creating
  rw [hcr] at hcreating
  obtain ⟨hholds, hlt, hsz⟩ := hcreating
  have hmaking : s.creator.making = some (p, i) := by rw [hcr]; rfl
  have hnext : Holds p (k + 1) ((s.objects i).store f v) := hholds.store hk
  refine ⟨fun hmore => ?_, fun hlast => ?_⟩
  · refine hs.make hmaking (hholds.magic hlt) hsz (List.Subset.refl _)
      (fun hvalid => absurd hvalid (hnext.magic hmore)) ?_ ?_
    · intro q j hq
      rw [hmaking]
      exact hq
    · simp only [Creating, Function.update_self]
      exact ⟨hnext, hmore, hsz⟩
  · have hlen : k + 1 = p.stores.length := by omega
    rw [hlen] at hnext
    refine hs.make hmaking (hholds.magic hlt) hsz (List.subset_append_left _ _)
      (fun _ => hnext.complete hsz (by simp)) ?_ trivial
    intro q j hq
    cases hq

theorem sound_stepCreator (hs : Sound cs s) (hok : s.creator.Spares s.name s.opener)
    (h : stepCreator s = some (u, os)) : ∃ ds, Accepts Attaches cs os ds ∧ Sound ds u := by
  cases hcr : s.creator with
  | idle =>
    rw [stepCreator, hcr] at h
    cases h
  | truncate p =>
    rw [hcr] at hok
    cases hn : s.name with
    | none =>
      simp only [stepCreator, hcr, hn, Option.some.injEq, Prod.mk.injEq] at h
      obtain ⟨rfl, rfl⟩ := h
      refine ⟨cs, .nil _, hs.truncate (Nat.lt_succ_self _) (Nat.le_succ _) ?_⟩
      -- no opener has the new object
      intro hexposed
      exact absurd (hs.opener _ (object_of_exposed hexposed)) (Nat.lt_irrefl _)
    | some i =>
      simp only [stepCreator, hcr, hn, Option.some.injEq, Prod.mk.injEq] at h
      obtain ⟨rfl, rfl⟩ := h
      have hspares : s.opener.exposed p ≠ some i := by
        intro hexposed
        obtain hnone | hne := hok
        · rw [hnone] at hexposed
          cases hexposed
        · exact hne (hexposed.trans hn.symm)
      have hsound := hs.truncate (hs.name i hn) (Nat.le_refl _) hspares
      rw [← hn] at hsound
      exact ⟨cs, .nil _, hsound⟩
  | resize p i =>
    simp only [stepCreator, hcr] at h
    split_ifs at h with hfits
    · obtain ⟨rfl, rfl⟩ := Prod.mk.inj (Option.some.inj h)
      exact ⟨cs, .nil _, hs.resize hcr⟩
    · obtain ⟨rfl, rfl⟩ := Prod.mk.inj (Option.some.inj h)
      exact ⟨cs, .single .createFailed, hs.quit .idle nofun trivial nofun⟩
  | map p i =>
    simp only [stepCreator, hcr, Option.some.injEq, Prod.mk.injEq] at h
    obtain ⟨rfl, rfl⟩ := h
    exact ⟨cs, .nil _, hs.map hcr⟩
  | store p i k =>
    cases hk : p.stores[k]? with
    | none =>
      simp only [stepCreator, hcr, hk] at h
      cases h
    | some fv =>
      obtain ⟨f, v⟩ := fv
      obtain ⟨hmore, hlast⟩ := hs.store hcr hk
      simp only [stepCreator, hcr, hk] at h
      split_ifs at h with hlt
      · obtain ⟨rfl, rfl⟩ := Prod.mk.inj (Option.some.inj h)
        exact ⟨cs, .nil _, hmore hlt⟩
      · obtain ⟨rfl, rfl⟩ := Prod.mk.inj (Option.some.inj h)
        exact ⟨_, .single .created, hlast hlt⟩

theorem sound_failCreator (hs : Sound cs s) (h : failCreator s = some (u, os)) :
    Accepts Attaches cs os cs ∧ Sound cs u := by
  cases hcr : s.creator with
  | idle | store _ _ _ =>
    simp only [failCreator, hcr] at h
    cases h
  | resize _ _ =>
    simp only [failCreator, hcr, Option.some.injEq, Prod.mk.injEq] at h
    obtain ⟨rfl, rfl⟩ := h
    exact ⟨.single .createFailed, hs.quit .idle nofun trivial nofun⟩
  | truncate _ | map _ _ =>
    simp only [failCreator, hcr, Option.some.injEq, Prod.mk.injEq] at h
    obtain ⟨rfl, rfl⟩ := h
    exact ⟨.single .createFailed, hs.quit .idle nofun trivial fun _ hi => hi⟩

/-! ### The steps of `open` and of the constructor of `Consumer` -/

/-- The outcome of a step of the opener. -/
def Keeps (cs : List (UInt32 × UInt32)) (r : State × List Event) : Prop :=
  Accepts Attaches cs r.2 cs ∧ Sound cs r.1

theorem Sound.again {t : Int} {expired : Bool} (hs : Sound cs s) :
    Keeps cs (again s t expired) := by
  unfold Attach.again
  split_ifs
  · exact ⟨.single .openFailed, hs.seek .idle nofun trivial⟩
  · exact ⟨.nil _, hs.seek (.lookup t) nofun trivial⟩

theorem Sound.access {next : State × List Event} (hs : Sound cs s) (hnext : Keeps cs next) :
    Keeps cs (access s i next) := by
  unfold Attach.access
  split_ifs
  · exact ⟨.single .sigbus, hs.seek .idle nofun trivial⟩
  · exact hnext

/-- `fstat` gives the size of a segment that `create` has resized. -/
theorem Sound.stat {t : Int} (hs : Sound cs s) (hop : s.opener = .stat t i)
    (hsz : ¬ (s.objects i).size.toNat < sizeofControlBlock) :
    Sound cs { s with opener := .map i (s.objects i).size } := by
  refine hs.seek _ (fun j hj => hs.opener j (by rw [hop]; exact hj)) ⟨fun _ => rfl, ?_⟩
  intro p hp
  have hcreating := hs.creating
  cases hcr : s.creator with
  | idle | truncate _ =>
    rw [hcr] at hp
    cases hp
  | resize q j =>
    rw [hcr] at hp hcreating
    obtain ⟨rfl, rfl⟩ := Prod.mk.inj (Option.some.inj hp)
    rw [hcreating.2] at hsz
    exact absurd (by decide) hsz
  | map q j =>
    rw [hcr] at hp hcreating
    obtain ⟨rfl, rfl⟩ := Prod.mk.inj (Option.some.inj hp)
    exact hcreating.2
  | store q j k =>
    rw [hcr] at hp hcreating
    obtain ⟨rfl, rfl⟩ := Prod.mk.inj (Option.some.inj hp)
    exact hcreating.2.2

/-- The third load has the words of a completed `create`. -/
theorem Sound.load {f : Field} (hs : Sound cs s) (hop : s.opener = .load i sz got)
    (hf : loads[got.length]? = some f) :
    Sound cs { s with opener := .load i sz (got ++ [(s.objects i).word f]) } := by
  have hopening := hs.opening
  rw [hop] at hopening
  refine hs.seek _ (fun j hj => hs.opener j (by rw [hop]; exact hj)) ?_
  simp only [Opening, List.length_append, List.length_singleton] at hopening ⊢
  by_cases h3 : got.length < 3
  · rw [if_pos h3] at hopening
    obtain ⟨hmagic, hsize, hgot⟩ := hopening
    have hread : got ++ [(s.objects i).word f] =
        (loads.take (got.length + 1)).map (s.objects i).word := by
      rw [List.take_add_one, hf, List.map_append, ← hgot]
      rfl
    split_ifs with hlt
    · exact ⟨hmagic, hsize, hread⟩
    · have hlen : got.length + 1 = 3 := by omega
      rw [hread, hlen, ← hsize]
      exact hs.complete i hmagic
  · rw [if_neg h3] at hopening
    rw [if_neg (by omega)]
    exact hopening.append h3

theorem Sound.attach {pid : UInt64} (hs : Sound cs s) :
    Sound cs { s.setObject i ((s.objects i).store .consumerPid pid) with opener := .idle } where
  complete j hj := by
    by_cases hji : j = i
    · simp only [State.setObject, hji, Function.update_self] at hj ⊢
      exact hs.complete i hj
    · simp only [State.setObject, Function.update_of_ne hji] at hj ⊢
      exact hs.complete j hj
  name := hs.name
  creator := hs.creator
  opener := nofun
  creating := hs.creating.register
  opening := trivial

theorem sound_stepOpener {expired : Bool} {pid : UInt64} (hs : Sound cs s)
    (h : stepOpener s expired pid = some (u, os)) :
    Keeps cs (u, os) := by
  have hopening := hs.opening
  have hobj := hs.opener
  cases hop : s.opener with
  | idle =>
    rw [stepOpener, hop] at h
    cases h
  | lookup t =>
    cases hn : s.name with
    | none =>
      simp only [stepOpener, hop, hn, Option.some.injEq] at h
      exact h ▸ hs.again
    | some i =>
      simp only [stepOpener, hop, hn, Option.some.injEq, Prod.mk.injEq] at h
      obtain ⟨rfl, rfl⟩ := h
      have hsound : Sound cs { s with opener := .stat t i } := by
        refine hs.seek _ (fun j hj => ?_) trivial
        obtain rfl := Option.some.inj hj
        exact hs.name i hn
      rw [← hn]
      exact ⟨.nil _, hsound⟩
  | stat t i =>
    simp only [stepOpener, hop] at h
    split_ifs at h with hsz
    · exact Option.some.inj h ▸ hs.again
    · obtain ⟨rfl, rfl⟩ := Prod.mk.inj (Option.some.inj h)
      exact ⟨.nil _, hs.stat hop hsz⟩
  | map i sz =>
    rw [hop] at hopening hobj
    simp only [stepOpener, hop, Option.some.injEq, Prod.mk.injEq] at h
    obtain ⟨rfl, rfl⟩ := h
    exact ⟨.nil _, hs.seek (.spin i sz) hobj hopening⟩
  | spin i sz =>
    rw [hop] at hopening hobj
    simp only [stepOpener, hop, Option.some.injEq] at h
    refine h ▸ hs.access ?_
    split_ifs with hmagic
    · exact ⟨.nil _, hs⟩
    · have hvalid := not_not.mp hmagic
      exact ⟨.nil _, hs.seek (.load i sz []) hobj ⟨hvalid, hopening.1 hvalid, rfl⟩⟩
  | load i sz got =>
    cases hf : loads[got.length]? with
    | some f =>
      simp only [stepOpener, hop, hf, Option.some.injEq] at h
      exact h ▸ hs.access ⟨.nil _, hs.load hop hf⟩
    | none =>
      have h3 : ¬ got.length < 3 := by
        intro h3
        have hlen : loads.length ≤ got.length := List.getElem?_eq_none_iff.mp hf
        exact absurd (Nat.lt_of_lt_of_le (by decide : 3 < loads.length) hlen) (by omega)
      simp only [stepOpener, hop, hf, Option.some.injEq] at h
      rw [hop] at hopening
      simp only [Opening, if_neg h3] at hopening
      exact h ▸ hs.access ⟨.single (.attached hopening), hs.attach⟩

/-! ### All steps -/

theorem sound_init : Sound [] init where
  complete _ hi := absurd (show (0 : UInt64) = kMagic from hi) (by decide)
  name := nofun
  creator := nofun
  opener := nofun
  creating := trivial
  opening := trivial

theorem Sound.step (hs : Sound cs s) (hok : Undisturbed s l)
    (h : machine.step s l = some (u, os)) : ∃ ds, Accepts Attaches cs os ds ∧ Sound ds u := by
  cases l with
  | create p =>
    simp only [machine, Attach.step] at h
    split at h
    · split_ifs at h
      · obtain ⟨rfl, rfl⟩ := Prod.mk.inj (Option.some.inj h)
        exact ⟨cs, .nil _, hs.quit (.truncate p) nofun trivial fun _ hi => hi⟩
      · obtain ⟨rfl, rfl⟩ := Prod.mk.inj (Option.some.inj h)
        exact ⟨cs, .single .createFailed, hs⟩
    · cases h
  | creator => exact sound_stepCreator hs hok h
  | creatorFails => exact ⟨cs, sound_failCreator hs h⟩
  | creatorDies =>
    obtain ⟨rfl, rfl⟩ := Prod.mk.inj (Option.some.inj h)
    exact ⟨cs, .nil _, hs.quit .idle nofun trivial fun _ hi => hi⟩
  | unlink =>
    obtain ⟨rfl, rfl⟩ := Prod.mk.inj (Option.some.inj h)
    exact ⟨cs, .nil _, { hs with name := nofun }⟩
  | «open» t =>
    simp only [machine, Attach.step] at h
    split at h
    · obtain ⟨rfl, rfl⟩ := Prod.mk.inj (Option.some.inj h)
      exact ⟨cs, .nil _, hs.seek (.lookup t) nofun trivial⟩
    · cases h
  | opener expired pid => exact ⟨cs, sound_stepOpener hs h⟩
  | openerFails =>
    simp only [machine, Attach.step] at h
    split at h
    · obtain ⟨rfl, rfl⟩ := Prod.mk.inj (Option.some.inj h)
      exact ⟨cs, .single .openFailed, hs.seek .idle nofun trivial⟩
    · obtain ⟨rfl, rfl⟩ := Prod.mk.inj (Option.some.inj h)
      exact ⟨cs, .single .openFailed, hs.seek .idle nofun trivial⟩
    · cases h

/-- **A consumer attaches to a whole segment.**  In every run that spares the
openers, each consumer reads the words of one completed `create`, and has mapped
the size that this call gave its segment. -/
theorem attached_whole (h : Lib.Machine.Run machine Undisturbed init os s) :
    ∃ cs, Accepts Attaches [] os cs := by
  obtain ⟨cs, haccepts, -⟩ := h.accepted (A := Attaches) (R := fun _ t cs => Sound cs t)
    (Q := fun _ => True) (fun _ _ _ => trivial) sound_init
    (fun _ _ _ _ _ _ hs hok _ hstep => hs.step hok hstep) trivial
  exact ⟨cs, haccepts⟩

/-- The first `n` steps of a call of `create`; a whole call makes 25. -/
def createIn (p : Params) (n : Nat) : List Label := .create p :: List.replicate n .creator

def openerIn (n : Nat) : List Label := List.replicate n (.opener false 7)

/-- An opener meets a stale segment while `create` makes it anew, and waits for
the new one. -/
theorem attached_whole_anew :
    ∃ s os, Lib.Machine.Run machine Undisturbed init os s ∧
      os = [.created 2 8, .created 4 100, .attached 768 [4, 128, 100, 0, 0]] ∧
      ∃ cs, Accepts Attaches [] os cs := by
  obtain ⟨ls, hok, hshown⟩ : ∃ ls, machine.ExecOk Undisturbed init ls ∧
      (machine.exec init ls).map Prod.snd =
        some [.created 2 8, .created 4 100, .attached 768 [4, 128, 100, 0, 0]] := by
    let found : List Label := .open (-1) :: openerIn 1
    let anew : List Label := createIn ⟨4, 100, 2⟩ 1 ++ openerIn 2
    let waited : List Label := .creator :: openerIn 3
    let completed : List Label := List.replicate 23 .creator
    refine ⟨createIn ⟨2, 8, 1⟩ 25 ++ found ++ anew ++ waited ++ completed ++ openerIn 7, ?_, ?_⟩
    · decide +kernel
    · decide +kernel
  obtain ⟨⟨s, os⟩, hexec, rfl⟩ := Option.map_eq_some_iff.mp hshown
  have hrun := Lib.Machine.run_of_exec hok hexec
  exact ⟨s, _, hrun, rfl, attached_whole hrun⟩

/-- An opener sees the magic of a stale segment, and `create` truncates it
before the constructor of `Consumer` loads.  It reads the new capacity with a
stride of 0, and has mapped the old size. -/
theorem attached_torn :
    ∃ s os, Lib.Machine.Run machine Lib.Machine.anyStep init os s ∧
      ¬ ∃ cs, Accepts Attaches [] os cs := by
  obtain ⟨ls, hshown⟩ : ∃ ls, (machine.exec init ls).map Prod.snd =
      some [.created 2 8, .attached 384 [4, 0, 0, 0, 0]] := by
    let found : List Label := .open 0 :: openerIn 4
    refine ⟨createIn ⟨2, 8, 1⟩ 25 ++ found ++ createIn ⟨4, 100, 2⟩ 15 ++ openerIn 6, ?_⟩
    decide +kernel
  obtain ⟨⟨s, os⟩, hexec, hos⟩ := Option.map_eq_some_iff.mp hshown
  refine ⟨s, os, Lib.Machine.run_of_exec_any hexec, ?_⟩
  intro haccepts
  obtain ⟨cs, haccepts⟩ := haccepts
  dsimp only at hos
  rw [hos] at haccepts
  obtain ⟨ds, hcreated, haccepts⟩ := haccepts.of_cons
  obtain ⟨_, hattached, -⟩ := haccepts.of_cons
  cases hcreated with
  | created =>
    cases hattached with
    | attached hwhole =>
      obtain ⟨c, m, hmem, hgot, -⟩ := hwhole
      obtain ⟨rfl, rfl⟩ := Prod.mk.inj (List.mem_singleton.mp hmem)
      revert hgot
      decide

end HftComponents.Spsc.Attach
