import Mathlib.Data.List.Basic
import Mathlib.Tactic.Common

/-!
# Words through a channel

A writer puts words on a channel letter by letter, a reader takes them off.  The
reader knows from the letters that it has how many more it may ask for, and
when it has a word (`Progress`, `Delimits`): it never reads past the end of one.

`Flow` is what holds at every moment between the words that have been begun, the
words that have been read and the letters in between.  Each of the four things
that may happen keeps it: a word is begun (`Flow.make`), letters are written
(`Flow.write`) and read (`Flow.read`), and a word is complete (`Flow.take`).
-/

namespace HftComponents.Lib.Framed

variable {F A : Type*} {encode : F → List A} {Valid : F → Prop}

/-- What a reader does after the letters of a word that it has. -/
inductive Progress (F : Type*)
  | more (n : Nat)
  | reject
  | whole (f : F)
  deriving DecidableEq, Repr

def Progress.map {F G : Type*} (g : F → G) : Progress F → Progress G
  | .more n => .more n
  | .reject => .reject
  | .whole f => .whole (g f)

/-- The reader recognises each valid word when it ends, and asks for no letter
after it. -/
structure Delimits (encode : F → List A) (Valid : F → Prop) (progress : List A → Progress F) :
    Prop where
  start : ∃ n, 0 < n ∧ progress [] = .more n
  inside : ∀ f got, Valid f → got <+: encode f → (got = encode f ∧ progress got = .whole f) ∨
    ∃ n, 0 < n ∧ progress got = .more n ∧ got.length + n ≤ (encode f).length

/-- What the words stand for. -/
theorem Delimits.map {G : Type*} {progress : List A → Progress F}
    (hd : Delimits encode Valid progress) {g : F → G} {h : G → F} (hgh : ∀ x, g (h x) = x) :
    Delimits (fun x => encode (h x)) (fun x => Valid (h x)) (fun got => (progress got).map g) where
  start := by
    obtain ⟨n, hn, hstart⟩ := hd.start
    exact ⟨n, hn, by rw [hstart]; rfl⟩
  inside := by
    intro x got hx hpre
    rcases hd.inside (h x) got hx hpre with ⟨hgot, hw⟩ | ⟨n, hn, hmore, hle⟩
    · exact .inl ⟨hgot, by rw [hw, Progress.map, hgh]⟩
    · exact .inr ⟨n, hn, by rw [hmore]; rfl, hle⟩

/-- The words `made` have been begun and `taken` have been read; `got` are the
letters of the next one that the reader has, `pipe` those on the channel and
`rest` those of the last one that are yet to be written. -/
structure Flow (encode : F → List A) (made taken : List F) (got pipe rest : List A) : Prop where
  order : taken <+: made
  stream : made.flatMap encode = taken.flatMap encode ++ (got ++ (pipe ++ rest))
  inside : got = [] ∨ ∃ f, taken ++ [f] <+: made ∧ got <+: encode f
  last : rest = [] ∨ ∃ begun f, made = begun ++ [f] ∧ rest <:+ encode f

namespace Flow

variable {made taken : List F} {got pipe rest xs : List A} {f : F}
  {progress : List A → Progress F} {n : Nat}

theorem start : Flow encode [] [] [] [] [] := ⟨List.prefix_refl _, rfl, .inl rfl, .inl rfl⟩

/-- The letters of the words. -/
theorem length (h : Flow encode made taken got pipe rest) :
    (made.flatMap encode).length =
      (taken.flatMap encode).length + got.length + pipe.length + rest.length := by
  rw [h.stream]
  simp only [List.length_append]
  omega

theorem make (h : Flow encode made taken got pipe []) :
    Flow encode (made ++ [f]) taken got pipe (encode f) where
  order := h.order.trans (List.prefix_append _ _)
  stream := by
    rw [List.flatMap_append, h.stream]
    simp
  inside := by
    refine h.inside.imp_right ?_
    rintro ⟨g, hg, hpre⟩
    exact ⟨g, hg.trans (List.prefix_append _ _), hpre⟩
  last := .inr ⟨made, f, rfl, List.suffix_refl _⟩

theorem write (h : Flow encode made taken got pipe (xs ++ rest)) :
    Flow encode made taken got (pipe ++ xs) rest where
  order := h.order
  stream := by
    rw [h.stream]
    simp only [List.append_assoc]
  inside := h.inside
  last := by
    rcases h.last with hnil | ⟨begun, f, hmade, hsuf⟩
    · exact .inl (List.append_eq_nil_iff.mp hnil).2
    · exact .inr ⟨begun, f, hmade, (List.suffix_append _ _).trans hsuf⟩

/-- Where there is something to read there is a next word, and the reader is in
it. -/
theorem next (h : Flow encode made taken got pipe rest) (hne : got ++ pipe ≠ []) :
    ∃ f, taken ++ [f] <+: made ∧ got <+: encode f ∧ encode f <+: got ++ (pipe ++ rest) := by
  obtain ⟨pending, rfl⟩ := h.order
  have hstream := h.stream
  rw [List.flatMap_append] at hstream
  have hpending := List.append_cancel_left hstream
  cases pending with
  | nil =>
    have hnil := List.append_eq_nil_iff.mp hpending.symm
    have hpipe := (List.append_eq_nil_iff.mp hnil.2).1
    rw [hnil.1, hpipe] at hne
    exact absurd rfl hne
  | cons f more =>
    refine ⟨f, ⟨more, by simp⟩, ?_, more.flatMap encode, hpending⟩
    rcases h.inside with rfl | ⟨g, hg, hpre⟩
    · exact List.nil_prefix
    · have heq : g = f := by
        have hfirst := (List.prefix_append_right_inj taken).mp hg
        exact (List.cons_prefix_cons.mp hfirst).1
      exact heq ▸ hpre

theorem read (hd : Delimits encode Valid progress) (hv : ∀ f ∈ made, Valid f)
    (h : Flow encode made taken got (xs ++ pipe) rest) (hp : progress got = .more n)
    (hne : xs ≠ []) (hlen : 0 < n → xs.length ≤ n) :
    Flow encode made taken (got ++ xs) pipe rest where
  order := h.order
  stream := by
    rw [h.stream]
    simp only [List.append_assoc]
  inside := by
    obtain ⟨f, hf, hpre, hword⟩ := h.next (by simp [hne])
    refine .inr ⟨f, hf, ?_⟩
    rcases hd.inside f got (hv f (hf.subset (by simp))) hpre with ⟨-, hw⟩ | ⟨k, hk, hmore, hle⟩
    · rw [hp] at hw
      cases hw
    · obtain rfl := Progress.more.inj (hp.symm.trans hmore)
      -- both begin the same stream, and the word is the longer one
      have hgot : got ++ xs <+: got ++ (xs ++ pipe ++ rest) := ⟨pipe ++ rest, by simp⟩
      refine List.prefix_of_prefix_length_le hgot hword ?_
      rw [List.length_append]
      have hx := hlen hk
      omega
  last := h.last

/-- What is read is the next word. -/
theorem take (hd : Delimits encode Valid progress) (hv : ∀ f ∈ made, Valid f)
    (h : Flow encode made taken got pipe rest) (hp : progress got = .whole f) :
    Flow encode made (taken ++ [f]) [] pipe rest := by
  have hgot : got ≠ [] := by
    rintro rfl
    obtain ⟨n, -, hstart⟩ := hd.start
    cases hp.symm.trans hstart
  obtain ⟨g, hg, hpre, -⟩ := h.next (by simp [hgot])
  rcases hd.inside g got (hv g (hg.subset (by simp))) hpre with ⟨rfl, hw⟩ | ⟨k, -, hmore, -⟩
  · obtain rfl := Progress.whole.inj (hp.symm.trans hw)
    refine ⟨hg, ?_, .inl rfl, h.last⟩
    rw [h.stream]
    simp
  · cases hp.symm.trans hmore

theorem not_reject (hd : Delimits encode Valid progress) (hv : ∀ f ∈ made, Valid f)
    (h : Flow encode made taken got pipe rest) : progress got ≠ .reject := by
  intro hp
  by_cases hgot : got = []
  · obtain ⟨n, -, hstart⟩ := hd.start
    rw [hgot] at hp
    cases hp.symm.trans hstart
  · obtain ⟨g, hg, hpre, -⟩ := h.next (by simp [hgot])
    rcases hd.inside g got (hv g (hg.subset (by simp))) hpre with ⟨-, hw⟩ | ⟨k, -, hmore, -⟩
    · cases hp.symm.trans hw
    · cases hp.symm.trans hmore

/-- A reader that waits at an empty channel with nothing to come has read all. -/
theorem all_taken (hd : Delimits encode Valid progress) (hv : ∀ f ∈ made, Valid f)
    (h : Flow encode made taken got [] []) (hp : progress got = .more n) : made = taken := by
  by_cases hgot : got = []
  · subst hgot
    obtain ⟨pending, rfl⟩ := h.order
    have hstream := h.stream
    rw [List.flatMap_append] at hstream
    have hpending := List.append_cancel_left hstream
    cases pending with
    | nil => exact List.append_nil _
    | cons g more =>
      have hnil := (List.append_eq_nil_iff.mp hpending).1
      rcases hd.inside g [] (hv g (by simp)) List.nil_prefix with ⟨-, hw⟩ | ⟨k, hk, -, hle⟩
      · cases hp.symm.trans hw
      · rw [hnil] at hle
        simp only [List.length_nil] at hle
        omega
  · obtain ⟨g, hg, hpre, hword⟩ := h.next (by simp [hgot])
    have hlen := hword.length_le
    rcases hd.inside g got (hv g (hg.subset (by simp))) hpre with ⟨-, hw⟩ | ⟨k, hk, -, hle⟩
    · cases hp.symm.trans hw
    · simp only [List.append_nil] at hlen
      omega

/-- Of the word after the last one taken, the reader has at most the whole. -/
theorem length_read_le (h : Flow encode made taken got pipe rest) {k : Nat}
    (hk : taken.length < k) :
    (taken.flatMap encode).length + got.length ≤ ((made.take k).flatMap encode).length := by
  have hword : ∃ fs, taken ++ fs <+: made ∧ (taken ++ fs).length ≤ k ∧
      (taken.flatMap encode).length + got.length ≤ ((taken ++ fs).flatMap encode).length := by
    rcases h.inside with rfl | ⟨f, hf, hpre⟩
    · refine ⟨[], by simpa using h.order, by simpa using Nat.le_of_lt hk, by simp⟩
    · refine ⟨[f], hf, by simpa using Nat.succ_le_of_lt hk, ?_⟩
      have hle := hpre.length_le
      simpa using hle
  obtain ⟨fs, hfs, hshort, hle⟩ := hword
  have hpre : taken ++ fs <+: made.take k := List.prefix_take_iff.mpr ⟨hfs, hshort⟩
  obtain ⟨more, hmore⟩ := hpre
  rw [← hmore, List.flatMap_append, List.length_append]
  omega

/-- All words but the last one begun have been written. -/
theorem length_written_ge (h : Flow encode made taken got pipe rest) {k : Nat}
    (hk : k < made.length) :
    ((made.take k).flatMap encode).length ≤
      (taken.flatMap encode).length + got.length + pipe.length := by
  have hall := h.length
  rcases h.last with rfl | ⟨begun, f, rfl, hsuf⟩
  · have hsplit := congrArg (fun l => (l.flatMap encode).length) (List.take_append_drop k made)
    simp only [List.flatMap_append, List.length_append] at hsplit
    simp only [List.length_nil] at hall
    omega
  · rw [List.length_append, List.length_singleton] at hk
    rw [List.take_append_of_le_length (by omega)]
    have hsplit := congrArg (fun l => (l.flatMap encode).length) (List.take_append_drop k begun)
    simp only [List.flatMap_append, List.length_append] at hsplit
    simp only [List.flatMap_append, List.length_append, List.flatMap_singleton] at hall
    have hle := hsuf.length_le
    omega

end Flow

end HftComponents.Lib.Framed
