import HftComponents.Lib.Machine
import Mathlib.Data.Multiset.AddSub
import Mathlib.Algebra.BigOperators.Group.Multiset.Basic

/-!
# Programs that acquire and release

A program asks the system for resources of several kinds, uses them and gives them back,
and then returns, throws or starts again (`Prog`).  `Safe` says of it that it uses and
releases only what it holds, that it holds nothing when it throws, and what it holds when
it returns; it is computed along the program (`safe_bind`), also where an exception
runs destructors on its way (`Safe.onThrow`).

Any number of calls run side by side (`World`).  A call takes objects, which own
resources, and its body returns others.  If the body of every call is safe, then in every
run only what is open is used or released, and what is open is what the objects own and
the calls under way hold (`balanced`).
-/

namespace HftComponents.Lib.Resources

open Lib.Machine

variable {K α β : Type}

/-- A resource of some kind, by its number. -/
abbrev Resource (K : Type) := K × Nat

/-- The answers of the system are numbers; `none` is a failure.  `poll` is a loop that
does nothing but look until the answer is `some`, and after `terminate` nothing comes. -/
inductive Prog (K α : Type)
  | ret (a : α)
  | throw
  | again
  | terminate
  | poll (next : Prog K α)
  | ask (next : Option Nat → Prog K α)
  | acquire (kind : K) (next : Option Nat → Prog K α)
  | use (r : Resource K) (next : Option Nat → Prog K α)
  | release (r : Resource K) (next : Prog K α)

namespace Prog

def bind : Prog K α → (α → Prog K β) → Prog K β
  | .ret a, f => f a
  | .throw, _ => .throw
  | .again, _ => .again
  | .terminate, _ => .terminate
  | .poll next, f => .poll (next.bind f)
  | .ask next, f => .ask fun n => (next n).bind f
  | .acquire kind next, f => .acquire kind fun n => (next n).bind f
  | .use r next, f => .use r fun n => (next n).bind f
  | .release r next, f => .release r (next.bind f)

instance instMonad : Monad (Prog K) where
  pure := .ret
  bind := .bind

/-- An exception that leaves the program runs `cleanup` on its way. -/
def onThrow (cleanup : Prog K Unit) : Prog K α → Prog K α
  | .ret a => .ret a
  | .throw => cleanup.bind fun _ => .throw
  | .again => .again
  | .terminate => .terminate
  | .poll next => .poll (onThrow cleanup next)
  | .ask next => .ask fun n => onThrow cleanup (next n)
  | .acquire kind next => .acquire kind fun n => onThrow cleanup (next n)
  | .use r next => .use r fun n => onThrow cleanup (next n)
  | .release r next => .release r (onThrow cleanup next)

end Prog

def ask : Prog K (Option Nat) := .ask .ret
def acquire (kind : K) : Prog K (Option Nat) := .acquire kind .ret
def use (r : Resource K) : Prog K (Option Nat) := .use r .ret
def release (r : Resource K) : Prog K Unit := .release r (.ret ())
def poll : Prog K Unit := .poll (.ret ())

def releaseAll (rs : List (Resource K)) : Prog K Unit := rs.forM release

/-! ### What a program holds -/

section Safe

variable [DecidableEq K]

/-- A program, which holds `held`, returns with `post` and starts again with `restart`. -/
def Safe (restart : Multiset (Resource K) → Prop) (post : α → Multiset (Resource K) → Prop) :
    Prog K α → Multiset (Resource K) → Prop
  | .ret a, held => post a held
  | .throw, held => held = 0
  | .again, held => restart held
  | .terminate, _ => True
  | .poll next, held => Safe restart post next held
  | .ask next, held => ∀ n, Safe restart post (next n) held
  | .acquire kind next, held =>
    Safe restart post (next none) held ∧
      ∀ n, Safe restart post (next (some n)) ((kind, n) ::ₘ held)
  | .use r next, held => r ∈ held ∧ ∀ n, Safe restart post (next n) held
  | .release r next, held => r ∈ held ∧ Safe restart post next (held.erase r)

variable {restart : Multiset (Resource K) → Prop} {held : Multiset (Resource K)}
  {post : α → Multiset (Resource K) → Prop} {p : Prog K α}

@[simp]
theorem safe_pure {a : α} : Safe restart post (pure a) held ↔ post a held := Iff.rfl

@[simp]
theorem safe_bind {f : α → Prog K β} {post : β → Multiset (Resource K) → Prop} :
    Safe restart post (p >>= f) held ↔ Safe restart (fun a => Safe restart post (f a)) p held := by
  change Safe restart post (p.bind f) held ↔ _
  induction p generalizing held with
  | ret | throw | again | terminate => rfl
  | poll next ih => exact ih
  | ask next ih => exact forall_congr' fun n => ih n
  | acquire kind next ih => exact and_congr (ih none) (forall_congr' fun n => ih (some n))
  | use r next ih => exact and_congr_right' (forall_congr' fun n => ih n)
  | release r next ih => exact and_congr_right' ih

@[simp]
theorem safe_throw : Safe restart post .throw held ↔ held = 0 := Iff.rfl

@[simp]
theorem safe_again : Safe restart post .again held ↔ restart held := Iff.rfl

@[simp]
theorem safe_terminate : Safe restart post .terminate held := trivial

@[simp]
theorem safe_ask {post : Option Nat → Multiset (Resource K) → Prop} :
    Safe restart post ask held ↔ ∀ n, post n held := Iff.rfl

@[simp]
theorem safe_acquire {post : Option Nat → Multiset (Resource K) → Prop} {kind : K} :
    Safe restart post (acquire kind) held ↔
      post none held ∧ ∀ n, post (some n) ((kind, n) ::ₘ held) := Iff.rfl

@[simp]
theorem safe_use {post : Option Nat → Multiset (Resource K) → Prop} {r : Resource K} :
    Safe restart post (use r) held ↔ r ∈ held ∧ ∀ n, post n held := Iff.rfl

@[simp]
theorem safe_release {post : Unit → Multiset (Resource K) → Prop} {r : Resource K} :
    Safe restart post (release r) held ↔ r ∈ held ∧ post () (held.erase r) := Iff.rfl

@[simp]
theorem safe_poll {post : Unit → Multiset (Resource K) → Prop} :
    Safe restart post poll held ↔ post () held := Iff.rfl

@[simp]
theorem safe_releaseAll {post : Unit → Multiset (Resource K) → Prop} {rs : List (Resource K)} :
    Safe restart post (releaseAll rs) (↑rs + held) ↔ post () held := by
  induction rs with
  | nil => rw [Multiset.coe_nil, zero_add]; rfl
  | cons r rs ih =>
    rw [← ih, ← Multiset.cons_coe, Multiset.cons_add]
    refine Iff.trans (safe_bind (p := release r)) ?_
    rw [safe_release, Multiset.erase_cons_head]
    exact and_iff_right (Multiset.mem_cons_self r _)

@[simp]
theorem safe_ite {c : Prop} [Decidable c] {q : Prog K α} :
    Safe restart post (if c then p else q) held ↔
      (c → Safe restart post p held) ∧ (¬c → Safe restart post q held) := by
  split <;> simp [*]

theorem Safe.mono {post' : α → Multiset (Resource K) → Prop} (h : Safe restart post p held)
    (hpost : ∀ a held, post a held → post' a held) : Safe restart post' p held := by
  induction p generalizing held with
  | ret a => exact hpost a held h
  | throw | again | terminate => exact h
  | poll next ih => exact ih h
  | ask next ih => exact fun n => ih n (h n)
  | acquire kind next ih => exact ⟨ih none h.1, fun n => ih (some n) (h.2 n)⟩
  | use r next ih => exact ⟨h.1, fun n => ih n (h.2 n)⟩
  | release r next ih => exact ⟨h.1, ih h.2⟩

/-- `extra` is in scope, and `cleanup` releases it; the program does not start again. -/
theorem Safe.onThrow {extra : Multiset (Resource K)} {cleanup : Prog K Unit}
    {post' : α → Multiset (Resource K) → Prop} (h : Safe (fun _ => False) post p held)
    (hclean : Safe restart (fun _ held => held = 0) cleanup extra)
    (hpost : ∀ a held, post a held → post' a (extra + held)) :
    Safe restart post' (Prog.onThrow cleanup p) (extra + held) := by
  induction p generalizing held with
  | ret a => exact hpost a held h
  | throw =>
    obtain rfl : held = 0 := h
    rw [add_zero]
    exact safe_bind.mpr hclean
  | again => exact False.elim h
  | terminate => trivial
  | poll next ih => exact ih h
  | ask next ih => exact fun n => ih n (h n)
  | acquire kind next ih =>
    refine ⟨ih none h.1, fun n => ?_⟩
    rw [← Multiset.add_cons]
    exact ih (some n) (h.2 n)
  | use r next ih => exact ⟨Multiset.mem_add.mpr (.inr h.1), fun n => ih n (h.2 n)⟩
  | release r next ih =>
    refine ⟨Multiset.mem_add.mpr (.inr h.1), ?_⟩
    rw [Multiset.erase_add_right_pos _ h.1]
    exact ih h.2

end Safe

/-! ### Calls side by side -/

inductive Event (K : Type)
  | acquired (r : Resource K)
  | used (r : Resource K)
  | released (r : Resource K)
  deriving DecidableEq, Repr

/-- What is open, from one event to the next. -/
inductive Ledger [DecidableEq K] :
    Multiset (Resource K) → Event K → Multiset (Resource K) → Prop
  | acquired {m : Multiset (Resource K)} {r : Resource K} (h : r ∉ m) :
      Ledger m (.acquired r) (r ::ₘ m)
  | used {m : Multiset (Resource K)} {r : Resource K} (h : r ∈ m) : Ledger m (.used r) m
  | released {m : Multiset (Resource K)} {r : Resource K} (h : r ∈ m) :
      Ledger m (.released r) (m.erase r)

/-- `held` is what the call has taken or acquired, and not released. -/
structure Task (K X : Type) where
  origin : Prog K (Multiset X)
  rest : Prog K (Multiset X)
  held : Multiset (Resource K)

structure World (K X : Type) where
  opened : Multiset (Resource K) := 0
  objects : Multiset X := 0
  tasks : List (Task K X) := []

inductive Label (C : Type)
  | call (c : C)
  | step (i : Nat) (answer : Option Nat)
  deriving DecidableEq, Repr

/-- The calls that there are, the objects that each takes, what it does and what it
returns, and what an object owns. -/
structure Api (C K X : Type) where
  takes : C → Multiset X
  body : C → Prog K (Multiset X)
  owns : X → Multiset (Resource K)

variable {C X : Type}

theorem exists_others {ts : List (Task K X)} {i : Nat} {t : Task K X} (h : ts[i]? = some t) :
    ∃ others, (ts.map Task.held).sum = t.held + others ∧
      (∀ u, ((ts.set i u).map Task.held).sum = u.held + others) ∧
      ((ts.eraseIdx i).map Task.held).sum = others := by
  induction ts generalizing i with
  | nil => cases h
  | cons a ts ih =>
    cases i with
    | zero =>
      obtain rfl : a = t := Option.some.inj h
      exact ⟨_, List.sum_cons, fun u => List.sum_cons, rfl⟩
    | succ i =>
      obtain ⟨others, hsum, hset, herase⟩ := ih h
      refine ⟨a.held + others, ?_, fun u => ?_, ?_⟩
      · rw [List.map_cons, List.sum_cons, hsum, add_left_comm]
      · rw [List.set_cons_succ, List.map_cons, List.sum_cons, hset, add_left_comm]
      · rw [List.eraseIdx_cons_succ, List.map_cons, List.sum_cons, herase]

namespace Api

def owned (api : Api C K X) (xs : Multiset X) : Multiset (Resource K) := (xs.map api.owns).sum

theorem owned_add (api : Api C K X) (xs ys : Multiset X) :
    api.owned (xs + ys) = api.owned xs + api.owned ys := by
  rw [owned, Multiset.map_add, Multiset.sum_add]
  rfl

end Api

variable [DecidableEq K]

def record (m : Multiset (Resource K)) : Event K → Multiset (Resource K)
  | .acquired r => r ::ₘ m
  | .used _ => m
  | .released r => m.erase r

/-- A number that is in use is not given out. -/
def Prog.turn (opened : Multiset (Resource K)) :
    Prog K α → Option Nat → Option (Prog K α × List (Event K))
  | .poll next, n => some (if n.isSome then next else .poll next, [])
  | .ask next, n => some (next n, [])
  | .acquire _ next, none => some (next none, [])
  | .acquire kind next, some n =>
    if (kind, n) ∈ opened then none else some (next (some n), [.acquired (kind, n)])
  | .use r next, n => some (next n, [.used r])
  | .release r next, _ => some (next, [.released r])
  | .ret _, _ | .throw, _ | .again, _ | .terminate, _ => none

namespace Api

variable [DecidableEq X] (api : Api C K X)

def step (s : World K X) : Label C → Option (World K X × List (Event K))
  | .call c =>
    if api.takes c ≤ s.objects then
      some ({ s with
        objects := s.objects - api.takes c
        tasks := s.tasks ++ [⟨api.body c, api.body c, api.owned (api.takes c)⟩] }, [])
    else none
  | .step i answer =>
    match s.tasks[i]? with
    | none => none
    | some t =>
      match t.rest with
      | .ret xs =>
        some ({ s with objects := s.objects + xs, tasks := s.tasks.eraseIdx i }, [])
      | .throw => some ({ s with tasks := s.tasks.eraseIdx i }, [])
      | .again => some ({ s with tasks := s.tasks.set i { t with rest := t.origin } }, [])
      | p =>
        (p.turn s.opened answer).map fun q =>
          ({ s with
            opened := q.2.foldl record s.opened
            tasks := s.tasks.set i { t with rest := q.1, held := q.2.foldl record t.held } }, q.2)

def machine : Machine (World K X) (Label C) (Event K) := ⟨api.step⟩

end Api

/-! ### What a step can do -/

theorem Ledger.nodup {m n : Multiset (Resource K)} {e : Event K} (h : Ledger m e n)
    (hm : m.Nodup) : n.Nodup := by
  cases h with
  | acquired hr => exact Multiset.nodup_cons.mpr ⟨hr, hm⟩
  | used hr => exact hm
  | released hr => exact hm.erase _

theorem nodup_of_accepts {m n : Multiset (Resource K)} {os : List (Event K)}
    (h : Accepts Ledger m os n) (hm : m.Nodup) : n.Nodup := by
  induction h with
  | nil => exact hm
  | snoc prior hstep ih => exact hstep.nodup ih

/-- One step of a safe program; `others` is what it does not know of. -/
theorem Safe.turn {restart : Multiset (Resource K) → Prop} {held others : Multiset (Resource K)}
    {post : α → Multiset (Resource K) → Prop} {p q : Prog K α} {n : Option Nat}
    {o : List (Event K)} (h : Safe restart post p held)
    (hturn : p.turn (held + others) n = some (q, o)) :
    Safe restart post q (o.foldl record held) ∧
      o.foldl record (held + others) = o.foldl record held + others ∧
      Accepts Ledger (held + others) o (o.foldl record held + others) := by
  cases p with
  | ret | throw | again | terminate => cases hturn
  | poll next =>
    obtain ⟨rfl, rfl⟩ := Prod.mk.inj (Option.some.inj hturn)
    refine ⟨?_, rfl, .nil _⟩
    split <;> exact h
  | ask next =>
    obtain ⟨rfl, rfl⟩ := Prod.mk.inj (Option.some.inj hturn)
    exact ⟨h n, rfl, .nil _⟩
  | acquire kind next =>
    cases n with
    | none =>
      obtain ⟨rfl, rfl⟩ := Prod.mk.inj (Option.some.inj hturn)
      exact ⟨h.1, rfl, .nil _⟩
    | some n =>
      rw [Prog.turn] at hturn
      split at hturn
      · cases hturn
      · rename_i hnew
        obtain ⟨rfl, rfl⟩ := Prod.mk.inj (Option.some.inj hturn)
        have hcons := Multiset.cons_add (kind, n) held others
        refine ⟨h.2 n, hcons.symm, .single ?_⟩
        change Ledger _ _ ((kind, n) ::ₘ held + others)
        rw [hcons]
        exact .acquired hnew
  | use r next =>
    obtain ⟨rfl, rfl⟩ := Prod.mk.inj (Option.some.inj hturn)
    exact ⟨h.2 n, rfl, .single (.used (Multiset.mem_add.mpr (.inl h.1)))⟩
  | release r next =>
    obtain ⟨rfl, rfl⟩ := Prod.mk.inj (Option.some.inj hturn)
    have herase : (held + others).erase r = held.erase r + others :=
      Multiset.erase_add_left_pos _ h.1
    refine ⟨h.2, herase, .single ?_⟩
    change Ledger _ _ (held.erase r + others)
    rw [← herase]
    exact .released (Multiset.mem_add.mpr (.inl h.1))

/-! ### All runs -/

namespace Api

/-- What a call returns are objects that own what it holds. -/
def Returns (api : Api C K X) (xs : Multiset X) (held : Multiset (Resource K)) : Prop :=
  held = api.owned xs

def SafeCall (api : Api C K X) (c : C) : Prop :=
  Safe (· = api.owned (api.takes c)) api.Returns (api.body c) (api.owned (api.takes c))

/-- A call under way will go on as its body says. -/
def Going (api : Api C K X) (t : Task K X) : Prop :=
  ∃ start, Safe (· = start) api.Returns t.origin start ∧
    Safe (· = start) api.Returns t.rest t.held

structure Kept (api : Api C K X) (s : World K X) : Prop where
  going : ∀ t ∈ s.tasks, api.Going t
  opened : s.opened = api.owned s.objects + (s.tasks.map Task.held).sum

/-- What is open, and whose it is. -/
structure Balanced (api : Api C K X) (os : List (Event K)) (s : World K X) : Prop where
  ledger : Accepts Ledger 0 os s.opened
  nodup : s.opened.Nodup
  opened : s.opened = api.owned s.objects + (s.tasks.map Task.held).sum

variable {api : Api C K X} {s u : World K X} {l : Label C} {o os : List (Event K)}

theorem Kept.set {i : Nat} {t : Task K X} {others : Multiset (Resource K)} (h : api.Kept s)
    (ht : api.Going t) (opened : Multiset (Resource K))
    (hset : ((s.tasks.set i t).map Task.held).sum = t.held + others)
    (hopened : opened = t.held + (api.owned s.objects + others)) :
    api.Kept { s with opened, tasks := s.tasks.set i t } := by
  refine ⟨fun u hu => ?_, ?_⟩
  · rcases List.mem_or_eq_of_mem_set hu with hu | rfl
    · exact h.going u hu
    · exact ht
  · change opened = api.owned s.objects + ((s.tasks.set i t).map Task.held).sum
    rw [hset, hopened, add_left_comm]

theorem Kept.ends {i : Nat} {t : Task K X} {others : Multiset (Resource K)} {xs : Multiset X}
    (h : api.Kept s) (hsum : (s.tasks.map Task.held).sum = t.held + others)
    (herase : ((s.tasks.eraseIdx i).map Task.held).sum = others)
    (hheld : t.held = api.owned xs) :
    api.Kept { s with objects := s.objects + xs, tasks := s.tasks.eraseIdx i } := by
  refine ⟨fun u hu => h.going u (List.mem_of_mem_eraseIdx hu), ?_⟩
  change s.opened = api.owned (s.objects + xs) + ((s.tasks.eraseIdx i).map Task.held).sum
  rw [herase, owned_add, h.opened, hsum, hheld, add_assoc]

variable [DecidableEq X]

theorem Kept.call {c : C} (h : api.Kept s) (hsafe : api.SafeCall c)
    (hle : api.takes c ≤ s.objects) :
    api.Kept { s with
      objects := s.objects - api.takes c
      tasks := s.tasks ++ [⟨api.body c, api.body c, api.owned (api.takes c)⟩] } := by
  refine ⟨?_, ?_⟩
  · intro t ht
    rcases List.mem_append.mp ht with ht | ht
    · exact h.going t ht
    · obtain rfl := List.mem_singleton.mp ht
      exact ⟨_, hsafe, hsafe⟩
  · have hobj := owned_add api (s.objects - api.takes c) (api.takes c)
    rw [tsub_add_cancel_of_le hle] at hobj
    simp only [List.map_append, List.map_cons, List.map_nil, List.sum_append, List.sum_singleton]
    rw [h.opened, hobj, add_assoc, add_comm (api.owned (api.takes c))]

theorem Kept.step (h : api.Kept s) (hsafe : ∀ c, api.SafeCall c)
    (hs : api.step s l = some (u, o)) :
    api.Kept u ∧ Accepts Ledger s.opened o u.opened := by
  cases l with
  | call c =>
    simp only [Api.step] at hs
    split at hs
    · rename_i hle
      obtain ⟨rfl, rfl⟩ := Prod.mk.inj (Option.some.inj hs)
      exact ⟨h.call (hsafe c) hle, .nil _⟩
    · cases hs
  | step i answer =>
    simp only [Api.step] at hs
    split at hs
    · cases hs
    · rename_i t ht
      obtain ⟨others, hsum, hset, herase⟩ := exists_others ht
      obtain ⟨start, horigin, hrest⟩ := h.going t (List.mem_of_getElem? ht)
      have hopened : s.opened = t.held + (api.owned s.objects + others) := by
        rw [h.opened, hsum, add_left_comm]
      split at hs
      · rename_i xs hret
        rw [hret] at hrest
        obtain ⟨rfl, rfl⟩ := Prod.mk.inj (Option.some.inj hs)
        exact ⟨h.ends hsum herase hrest, .nil _⟩
      · rename_i hthrow
        rw [hthrow] at hrest
        obtain ⟨rfl, rfl⟩ := Prod.mk.inj (Option.some.inj hs)
        have hends := h.ends hsum herase (show t.held = api.owned 0 from hrest)
        rw [add_zero] at hends
        exact ⟨hends, .nil _⟩
      · rename_i hagain
        rw [hagain] at hrest
        obtain rfl : t.held = start := hrest
        obtain ⟨rfl, rfl⟩ := Prod.mk.inj (Option.some.inj hs)
        have hgoing : api.Going { t with rest := t.origin } := ⟨_, horigin, horigin⟩
        exact ⟨h.set hgoing _ (hset _) hopened, .nil _⟩
      · obtain ⟨⟨q, o'⟩, hturn, heq⟩ := Option.map_eq_some_iff.mp hs
        obtain ⟨rfl, rfl⟩ := Prod.mk.inj heq
        rw [hopened] at hturn
        obtain ⟨hq, hfold, hacc⟩ := hrest.turn hturn
        rw [← hfold, ← hopened] at hacc
        have hgoing : api.Going { t with rest := q, held := o'.foldl record t.held } :=
          ⟨start, horigin, hq⟩
        refine ⟨h.set hgoing _ (hset _) ?_, hacc⟩
        rw [hopened, hfold]

/-- **Nothing is released twice, and nothing is lost.** -/
theorem balanced (hsafe : ∀ c, api.SafeCall c) (h : api.machine.Run anyStep {} os s) :
    api.Balanced os s := by
  have h0 : api.Kept ({} : World K X) := ⟨by simp, by simp [owned]⟩
  obtain ⟨hkept, hacc⟩ := h.invariant
    (P := fun os s => api.Kept s ∧ Accepts Ledger 0 os s.opened) ⟨h0, .nil _⟩
    fun os t l u o ht _ hs =>
      have hstep := ht.1.step hsafe hs
      ⟨hstep.1, ht.2.trans hstep.2⟩
  exact ⟨hacc, nodup_of_accepts hacc Multiset.nodup_zero, hkept.opened⟩

end Api

end HftComponents.Lib.Resources
