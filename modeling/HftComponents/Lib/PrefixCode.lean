import Mathlib.Data.List.Basic
import Mathlib.Tactic.Common

/-!
# Prefix codes

A code whose words can be told from what follows them (`PrefixFree`) cuts every
stream in one way: into the words of its longest prefix that is a concatenation
of words, and a rest (`Maximal`).  A decoder that takes one word after another
finds exactly these (`Maximal.nil`, `Maximal.cons`).
-/

namespace HftComponents.Lib.PrefixCode

variable {F A : Type*} {encode : F → List A} {Valid : F → Prop}

/-- A valid word at the front of a stream is determined. -/
def PrefixFree (encode : F → List A) (Valid : F → Prop) : Prop :=
  ∀ f g a b, Valid f → Valid g → encode f ++ a = encode g ++ b → f = g ∧ a = b

/-- `fs` are the words of the longest prefix of `stream` made of valid words,
and `rest` is what follows it. -/
structure Maximal (encode : F → List A) (Valid : F → Prop) (stream : List A) (fs : List F)
    (rest : List A) : Prop where
  eq : stream = fs.flatMap encode ++ rest
  valid : ∀ f ∈ fs, Valid f
  longest : ∀ gs : List F, (∀ g ∈ gs, Valid g) → gs.flatMap encode <+: stream → gs <+: fs

theorem Maximal.nil {rest : List A} (h : ∀ f, Valid f → ¬ encode f <+: rest) :
    Maximal encode Valid rest [] rest where
  eq := rfl
  valid := nofun
  longest := by
    intro gs hgs hpre
    cases gs with
    | nil => exact List.prefix_refl _
    | cons g gs =>
      have hg := (List.prefix_append (encode g) (gs.flatMap encode)).trans hpre
      exact absurd hg (h g (hgs g List.mem_cons_self))

theorem Maximal.cons (hfree : PrefixFree encode Valid) {f : F} {fs : List F} {stream rest : List A}
    (hf : Valid f) (h : Maximal encode Valid stream fs rest) :
    Maximal encode Valid (encode f ++ stream) (f :: fs) rest where
  eq := by rw [List.flatMap_cons, List.append_assoc, ← h.eq]
  valid := List.forall_mem_cons.mpr ⟨hf, h.valid⟩
  longest := by
    intro gs hgs hpre
    cases gs with
    | nil => exact List.nil_prefix
    | cons g gs =>
      obtain ⟨tail, htail⟩ := hpre
      rw [List.flatMap_cons, List.append_assoc] at htail
      obtain ⟨rfl, rfl⟩ := hfree g f _ _ (hgs g List.mem_cons_self) hf htail
      have hgs' := h.longest gs (fun g hg => hgs g (List.mem_cons_of_mem _ hg))
        (List.prefix_append _ _)
      exact (List.prefix_cons_inj g).mpr hgs'

end HftComponents.Lib.PrefixCode
