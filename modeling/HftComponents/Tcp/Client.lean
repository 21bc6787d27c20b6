import HftComponents.Lib.Machine
import HftComponents.Tcp.Connection
import HftComponents.Tcp.Grammar

/-!
# A client and its responses

`TcpClient::recv` over a stream of responses, call after call, with any answers
of the system calls it makes: parts of any size, and failures after which the
stream goes on.

`recv_exact` gives up on a failure and forgets what it has read, and the client
stays connected.  A failure before the first byte of a frame does no harm.
After it, the next call takes the middle of the frame for its start
(`recv_from_middle`).  `recv_faithful_iff` says that a sequence of calls is
faithful exactly if no call but the last fails there.
-/

namespace HftComponents.Tcp

open Lib.Transfer

/-- `fd_`, and what is left of the stream behind it. -/
structure TcpClient where
  fd : Int
  unread : List UInt8
  ending : Ending := .eof
  deriving DecidableEq, Repr

namespace TcpClient

def connected (c : TcpClient) : Bool := 0 ≤ c.fd

/-- One call of `recv`: what the stream held when it began, and the response, or
`none` for `false`. -/
structure Call where
  start : List UInt8
  out : Option Response
  deriving DecidableEq, Repr

/-- `answers` are those of the system calls of this call, all of them; after
them, every call moves as much as it can. -/
def recv (c : TcpClient) (answers : List Reply) : Option (TcpClient × List Call) :=
  let (out, s) := recvResponse ⟨c.unread, answers, c.ending⟩
  if s.replies = [] then some ({ c with unread := s.unread }, [⟨c.unread, out⟩]) else none

def machine : Lib.Machine TcpClient (List Reply) Call := ⟨recv⟩

def stream (rs : List Response) : List UInt8 := rs.flatMap Response.encode

/-- What is returned was sent, in this order, and every call starts at a frame. -/
structure Faithful (rs : List Response) (calls : List Call) : Prop where
  sent : (calls.filterMap Call.out).Sublist rs
  framed : ∀ call ∈ calls, ∃ k, call.start = stream (rs.drop k)

/-! ### Failures in the middle -/

variable {s t : Source UInt8} {f : Frame} {bs rest : List UInt8} {n : Nat}

theorem clean_of_recvExact (h : recvExact s n = (some bs, t)) (hc : t.Clean) : s.Clean := by
  induction n using Nat.strong_induction_on generalizing s bs with
  | _ n ih =>
    rw [recvExact] at h
    split at h
    · cases h
      exact hc
    · rename_i hn
      split at h
      · rename_i xs t' hread
        obtain ⟨-, hne, -, -⟩ := Source.read_ok hread (Nat.pos_of_ne_zero hn)
        have hpos := List.length_pos_iff.mpr hne
        obtain ⟨hbs, rfl⟩ := Prod.mk.inj h
        obtain ⟨ys, hys, -⟩ := Option.map_eq_some_iff.mp hbs
        have hclean := ih (n - xs.length) (by omega) (Prod.ext hys rfl)
        have hhead := Source.head_of_read_ok hread
        have htail := Source.replies_of_read hread
        rw [Source.Clean, htail] at hclean
        rw [Source.Clean]
        cases hr : s.replies with
        | nil => exact List.not_mem_nil
        | cons r rs =>
          rw [hr] at hhead hclean
          intro hmem
          rcases List.mem_cons.mp hmem with rfl | hmem
          · exact hhead rfl
          · exact hclean hmem
      · cases h

/-- A transfer that fails has moved less than it should have. -/
theorem length_lt_of_recvExact (h : recvExact s n = (none, t)) :
    s.unread.length < t.unread.length + n := by
  induction n using Nat.strong_induction_on generalizing s with
  | _ n ih =>
    rw [recvExact] at h
    split at h
    · cases h
    · rename_i hn
      split at h
      · rename_i xs t' hread
        obtain ⟨heq, hne, hlen, -⟩ := Source.read_ok hread (Nat.pos_of_ne_zero hn)
        have hpos := List.length_pos_iff.mpr hne
        obtain ⟨hbs, rfl⟩ := Prod.mk.inj h
        have hys := Option.map_eq_none_iff.mp hbs
        have hlt := ih (n - xs.length) (by omega) (Prod.ext hys rfl)
        rw [heq, List.length_append]
        omega
      · rename_i e t' hread
        obtain ⟨-, rfl⟩ := Prod.mk.inj h
        rw [Source.unread_of_read_error hread]
        omega

theorem clean_of_recvFrame (h : recvFrame s = (some f, t)) (hc : t.Clean) : s.Clean := by
  cases recvFrame_cases h with
  | whole h₁ hok h₂ h₃ h₄ =>
    have hc₃ := clean_of_recvExact h₄ hc
    have hc₂ := clean_of_recvExact h₃ hc₃
    exact clean_of_recvExact h₁ (clean_of_recvExact h₂ hc₂)

/-- The length field of a frame. -/
theorem recvExact_bodyLen {netLen : List UInt8} {s₁ : Source UInt8}
    (h₁ : recvExact s 4 = (some netLen, s₁)) (hu : s.unread = f.encode ++ rest) :
    ntohl netLen = 5 + UInt32.ofNat f.payload.length := by
  obtain ⟨hl, hu₁, -⟩ := recvExact_some h₁
  rw [hu, Frame.encode, List.append_assoc] at hu₁
  obtain ⟨rfl, -⟩ := List.append_inj hu₁ hl.symm
  exact ntohl_htonl _

/-- A transfer that succeeds takes so many bytes. -/
theorem length_of_recvExact (h : recvExact s n = (some bs, t)) :
    s.unread.length = n + t.unread.length := by
  obtain ⟨hl, hu, -⟩ := recvExact_some h
  rw [hu, List.length_append, hl]

theorem length_lt_of_recvFrame (h : recvFrame s = (none, t)) (hfits : f.Fits)
    (hu : s.unread = f.encode ++ rest) : rest.length < t.unread.length := by
  have hbody := toNat_bodyLen hfits
  have hok : ¬ (5 + UInt32.ofNat f.payload.length < 5 ∨
      kMaxPayloadBytes < (5 + UInt32.ofNat f.payload.length - 5).toNat) := by
    have hmax : f.payload.length ≤ kMaxPayloadBytes := hfits
    rw [bodyLen_rejected_iff, hbody]
    omega
  have hpay : (5 + UInt32.ofNat f.payload.length - 5).toNat = f.payload.length := by
    rw [(toNat_payloadLen hok).1, hbody]
    omega
  have hlen := length_encode f
  have hsum := congrArg List.length hu
  rw [List.length_append] at hsum
  cases recvFrame_cases h with
  | noLen h₁ =>
    have hlt := length_lt_of_recvExact h₁
    omega
  | badLen h₁ hbad =>
    rw [recvExact_bodyLen h₁ hu] at hbad
    exact absurd hbad hok
  | noId h₁ _ h₂ =>
    have hsum₁ := length_of_recvExact h₁
    have hlt := length_lt_of_recvExact h₂
    omega
  | noKind h₁ _ h₂ h₃ =>
    have hsum₁ := length_of_recvExact h₁
    have hsum₂ := length_of_recvExact h₂
    have hlt := length_lt_of_recvExact h₃
    omega
  | noPayload h₁ _ h₂ h₃ h₄ =>
    rw [recvExact_bodyLen h₁ hu, hpay] at h₄
    have hsum₁ := length_of_recvExact h₁
    have hsum₂ := length_of_recvExact h₂
    have hsum₃ := length_of_recvExact h₃
    have hlt := length_lt_of_recvExact h₄
    omega

/-- A first answer that is a failure ends the call. -/
theorem recvFrame_of_read_error {e : Ending} (h : s.read 4 = (.error e, t)) :
    recvFrame s = (none, t) := by
  rw [recvFrame, recvExact_error (by decide) h]

theorem length_recvExact_le (s : Source UInt8) (n : Nat) :
    (recvExact s n).2.unread.length ≤ s.unread.length := by
  induction n using Nat.strong_induction_on generalizing s with
  | _ n ih =>
    rw [recvExact]
    split
    · exact le_rfl
    · rename_i hn
      split
      · rename_i xs t hread
        obtain ⟨heq, hne, -, -⟩ := Source.read_ok hread (Nat.pos_of_ne_zero hn)
        have hpos := List.length_pos_iff.mpr hne
        have hle := ih (n - xs.length) (by omega) t
        rw [heq, List.length_append]
        exact hle.trans (Nat.le_add_left _ _)
      · rename_i e t hread
        exact (congrArg List.length (Source.unread_of_read_error hread)).le

theorem length_recvFrame_le (h : recvFrame s = (none, t)) :
    t.unread.length ≤ (recvExact s 4).2.unread.length := by
  have hle : ∀ {s n r} {t : Source UInt8}, recvExact s n = (r, t) →
      t.unread.length ≤ s.unread.length := by
    intro s n r t h
    have hle := length_recvExact_le s n
    rwa [h] at hle
  cases recvFrame_cases h with
  | noLen h₁ => rw [h₁]
  | badLen h₁ hbad => rw [h₁]
  | noId h₁ hok h₂ =>
    rw [h₁]
    exact hle h₂
  | noKind h₁ hok h₂ h₃ =>
    rw [h₁]
    exact (hle h₃).trans (hle h₂)
  | noPayload h₁ hok h₂ h₃ h₄ =>
    rw [h₁]
    exact (hle h₄).trans ((hle h₃).trans (hle h₂))

/-- A first answer that delivers takes something off the stream. -/
theorem length_recvFrame_lt (h : recvFrame s = (none, t)) {s₁ : Source UInt8}
    (hread : s.read 4 = (.ok bs, s₁)) : t.unread.length < s.unread.length := by
  obtain ⟨heq, hne, -, -⟩ := Source.read_ok hread (by decide)
  have hpos := List.length_pos_iff.mpr hne
  have hle := length_recvFrame_le h
  rw [recvExact_ok (by decide) hread] at hle
  have hrest := hle.trans (length_recvExact_le s₁ (4 - bs.length))
  rw [heq, List.length_append]
  omega

/-! ### One call -/

section Call

variable {c d : TcpClient} {answers : List Reply} {calls : List Call} {rs : List Response}
  {r : Response} {k : Nat}

theorem recv_some (h : c.recv answers = some (d, calls)) :
    ∃ f s, recvFrame ⟨c.unread, answers, c.ending⟩ = (f, s) ∧ s.replies = [] ∧
      d.unread = s.unread ∧ d.ending = c.ending ∧
      calls = [⟨c.unread, f.map Frame.response⟩] := by
  unfold recv at h
  dsimp only at h
  split at h
  · rename_i hused
    cases h
    exact ⟨_, _, rfl, hused, rfl, rfl, rfl⟩
  · cases h

/-- The answers of a call that fails after the first byte of a frame. -/
def Struck (answers : List Reply) : Prop := Reply.error ∈ answers.tail

instance decidableStruck (answers : List Reply) : Decidable (Struck answers) :=
  inferInstanceAs (Decidable (_ ∈ _))

/-- A call that is not struck returns the next response, or nothing and takes
nothing. -/
theorem recv_of_not_struck (h : c.recv answers = some (d, calls))
    (hfits : ∀ r ∈ rs, r.frame.Fits) (hu : c.unread = stream rs) (hok : ¬ Struck answers) :
    (calls = [⟨c.unread, none⟩] ∧ d.unread = c.unread) ∨
      ∃ r rs', rs = r :: rs' ∧ calls = [⟨c.unread, some r⟩] ∧ d.unread = stream rs' := by
  obtain ⟨f, s, hrecv, hused, hd, -, hcalls⟩ := recv_some h
  rw [hd, hcalls]
  by_cases hfirst : answers.head? = some .error
  · obtain ⟨as, rfl⟩ := List.head?_eq_some_iff.mp hfirst
    have hread : Source.read ⟨c.unread, .error :: as, c.ending⟩ 4 =
        (.error .error, ⟨c.unread, as, c.ending⟩) := rfl
    obtain ⟨rfl, rfl⟩ := Prod.mk.inj (hrecv.symm.trans (recvFrame_of_read_error hread))
    exact Or.inl ⟨rfl, rfl⟩
  · have hclean : Source.Clean ⟨c.unread, answers, c.ending⟩ := by
      intro hmem
      cases answers with
      | nil => cases hmem
      | cons a as =>
        rcases List.mem_cons.mp hmem with rfl | hmem
        · exact hfirst rfl
        · exact hok hmem
    cases rs with
    | nil =>
      cases f with
      | none =>
        left
        have hle := length_recvFrame_le hrecv
        have hle' := hle.trans (length_recvExact_le _ _)
        rw [hu] at hle' ⊢
        exact ⟨rfl, List.eq_nil_of_length_eq_zero (Nat.le_zero.mp hle')⟩
      | some f =>
        have heq := (recvFrame_some hrecv).2.1
        have hpos := length_encode_pos f
        have hlen := congrArg List.length (hu.symm.trans heq)
        rw [List.length_append] at hlen
        simp only [stream, List.flatMap_nil, List.length_nil] at hlen
        omega
    | cons r rs =>
      right
      obtain ⟨t, ht, hrest, -⟩ := recvFrame_append hclean (hfits r List.mem_cons_self) hu
      obtain ⟨rfl, rfl⟩ := Prod.mk.inj (hrecv.symm.trans ht)
      exact ⟨r, rs, rfl, rfl, hrest⟩

/-- A call that is struck returns nothing and leaves the stream in the middle of
the next response. -/
theorem recv_of_struck (h : c.recv answers = some (d, calls))
    (hfits : ∀ r ∈ rs, r.frame.Fits) (hu : c.unread = stream rs) (hstruck : Struck answers) :
    calls = [⟨c.unread, none⟩] ∧ d.unread.length < c.unread.length ∧
      (stream rs.tail).length < d.unread.length := by
  obtain ⟨f, s, hrecv, hused, hd, -, hcalls⟩ := recv_some h
  rw [hd, hcalls]
  have hclean : s.Clean := by
    rw [Source.Clean, hused]
    exact List.not_mem_nil
  cases f with
  | some f => exact absurd (List.mem_of_mem_tail hstruck) (clean_of_recvFrame hrecv hclean)
  | none =>
    refine ⟨rfl, ?_⟩
    rcases hread : Source.read ⟨c.unread, answers, c.ending⟩ 4 with ⟨_ | xs, s₁⟩
    · -- then the other answers would be left over
      obtain ⟨-, rfl⟩ := Prod.mk.inj (hrecv.symm.trans (recvFrame_of_read_error hread))
      rw [Source.replies_of_read hread] at hused
      rw [Struck, hused] at hstruck
      cases hstruck
    · refine ⟨length_recvFrame_lt hrecv hread, ?_⟩
      cases rs with
      | nil =>
        obtain ⟨heq, hne, -, -⟩ := Source.read_ok hread (by decide)
        rw [hu] at heq
        exact absurd (List.append_eq_nil_iff.mp heq.symm).1 hne
      | cons r rs => exact length_lt_of_recvFrame hrecv (hfits r List.mem_cons_self) hu

end Call

/-! ### Every sequence of calls -/

section Run

variable {c d : TcpClient} {calls : List Call} {rs : List Response} {ls : List (List Reply)}

theorem length_stream_drop_le (rs : List Response) {j k : Nat} (h : j ≤ k) :
    (stream (rs.drop k)).length ≤ (stream (rs.drop j)).length := by
  have hsplit : rs.drop j = (rs.drop j).take (k - j) ++ rs.drop k := by
    conv_lhs => rw [← List.take_append_drop (k - j) (rs.drop j)]
    rw [List.drop_drop, Nat.add_sub_cancel' h]
  rw [hsplit, stream, stream, List.flatMap_append, List.length_append]
  exact Nat.le_add_left _ _

/-- The middle of a response is not the start of one. -/
theorem ne_stream_drop {u : List UInt8} {j : Nat} (hlt : u.length < (stream (rs.drop j)).length)
    (hgt : (stream (rs.drop j).tail).length < u.length) (k : Nat) : u ≠ stream (rs.drop k) := by
  rintro rfl
  rw [List.tail_drop] at hgt
  rcases Nat.lt_or_ge j k with hjk | hkj
  · exact Nat.not_lt_of_le (length_stream_drop_le rs hjk) hgt
  · exact Nat.not_lt_of_le (length_stream_drop_le rs hkj) hlt

theorem exec_cons_some {answers : List Reply}
    (h : machine.exec c (answers :: ls) = some (d, calls)) :
    ∃ e o os, c.recv answers = some (e, o) ∧ machine.exec e ls = some (d, os) ∧
      calls = o ++ os := by
  rw [Lib.Machine.exec] at h
  split at h
  · cases h
  · rename_i e o hstep
    split at h
    · cases h
    · rename_i os hrest
      cases h
      exact ⟨e, o, os, hstep, hrest, rfl⟩

theorem exec_start {answers : List Reply}
    (h : machine.exec c (answers :: ls) = some (d, calls)) :
    ∃ call ∈ calls, call.start = c.unread := by
  obtain ⟨e, o, os, hstep, -, rfl⟩ := exec_cons_some h
  obtain ⟨f, s, -, -, -, -, rfl⟩ := recv_some hstep
  exact ⟨⟨c.unread, f.map Frame.response⟩, by simp, rfl⟩

/-- Every call starts at a frame if and only if none before it has been struck. -/
theorem framed_iff {j : Nat} (hfits : ∀ r ∈ rs, r.frame.Fits)
    (hu : c.unread = stream (rs.drop j)) (h : machine.exec c ls = some (d, calls)) :
    (∀ call ∈ calls, ∃ k, call.start = stream (rs.drop k)) ↔
      ∀ answers ∈ ls.dropLast, ¬ Struck answers := by
  induction ls generalizing c calls j with
  | nil =>
    cases h
    simp
  | cons answers ls ih =>
    obtain ⟨e, o, os, hstep, hrest, rfl⟩ := exec_cons_some h
    have hfits' : ∀ r ∈ rs.drop j, r.frame.Fits := fun r hr => hfits r (List.mem_of_mem_drop hr)
    by_cases hstruck : Struck answers
    · obtain ⟨rfl, hlt, hgt⟩ := recv_of_struck hstep hfits' hu hstruck
      cases ls with
      | nil =>
        cases hrest
        simpa using ⟨j, hu⟩
      | cons a ls =>
        rw [hu] at hlt
        refine iff_of_false ?_ ?_
        · intro hall
          obtain ⟨call, hmem, hstart⟩ := exec_start hrest
          obtain ⟨k, hk⟩ := hall call (List.mem_append_right _ hmem)
          exact ne_stream_drop hlt hgt k (hstart.symm.trans hk)
        · intro hall
          exact hall answers (by simp) hstruck
    · have hnext : (∀ call ∈ o, ∃ k, call.start = stream (rs.drop k)) ∧
          ∃ i, e.unread = stream (rs.drop i) := by
        rcases recv_of_not_struck hstep hfits' hu hstruck with ⟨rfl, he⟩ | ⟨r, rs', heq, rfl, he⟩
        · exact ⟨by simpa using ⟨j, hu⟩, j, he.trans hu⟩
        · refine ⟨by simpa using ⟨j, hu⟩, j + 1, ?_⟩
          rw [he, ← List.tail_drop, heq, List.tail_cons]
      obtain ⟨ho, i, he⟩ := hnext
      have hiff := ih he hrest
      cases ls with
      | nil =>
        cases hrest
        simpa using ho
      | cons a ls =>
        rw [List.dropLast_cons_cons, List.forall_mem_cons, List.forall_mem_append, hiff]
        exact ⟨fun hall => ⟨hstruck, hall.2⟩, fun hall => ⟨ho, hall.2⟩⟩

theorem sent_of_not_struck (hfits : ∀ r ∈ rs, r.frame.Fits) (hu : c.unread = stream rs)
    (h : machine.exec c ls = some (d, calls)) (hok : ∀ answers ∈ ls.dropLast, ¬ Struck answers) :
    (calls.filterMap Call.out).Sublist rs := by
  induction ls generalizing c calls rs with
  | nil =>
    cases h
    exact List.nil_sublist rs
  | cons answers ls ih =>
    obtain ⟨e, o, os, hstep, hrest, rfl⟩ := exec_cons_some h
    rw [List.filterMap_append]
    have hok' : ∀ answers ∈ ls.dropLast, ¬ Struck answers := by
      intro a ha
      cases ls with
      | nil => cases ha
      | cons b ls => exact hok a (List.mem_cons_of_mem _ ha)
    by_cases hstruck : Struck answers
    · obtain ⟨rfl, -, -⟩ := recv_of_struck hstep hfits hu hstruck
      cases ls with
      | nil =>
        cases hrest
        exact List.nil_sublist rs
      | cons a ls => exact absurd hstruck (hok answers (by simp))
    · rcases recv_of_not_struck hstep hfits hu hstruck with ⟨rfl, he⟩ | ⟨r, rs', rfl, rfl, he⟩
      · exact ih hfits (he.trans hu) hrest hok'
      · have hrs' := ih (fun r hr => hfits r (List.mem_cons_of_mem _ hr)) he hrest hok'
        simpa using hrs'

/-- **What a client returns was sent, in order,** exactly if no call but the last
fails after the first byte of a frame. -/
theorem recv_faithful_iff (hfits : ∀ r ∈ rs, r.payload.length ≤ kMaxPayloadBytes)
    (hu : c.unread = stream rs) (h : machine.exec c ls = some (d, calls)) :
    Faithful rs calls ↔ ∀ answers ∈ ls.dropLast, ¬ Struck answers := by
  have hframed := framed_iff (j := 0) hfits hu h
  refine ⟨fun hf => hframed.mp hf.framed, fun hok => ⟨?_, hframed.mpr hok⟩⟩
  exact sent_of_not_struck hfits hu h hok

def two : List Response := [⟨5, ⟨0⟩, [1, 2, 3, 4]⟩, ⟨6, ⟨1⟩, []⟩]

/-- Both responses come in parts, with a failure between them. -/
theorem recv_faithful_iff_interrupted :
    ∃ d calls, machine.exec ⟨3, stream two, .eof⟩
        [[.upTo 1, .upTo 2, .upTo 9], [.error], [.upTo 2]] = some (d, calls) ∧
      calls.map Call.out = [some ⟨5, ⟨0⟩, [1, 2, 3, 4]⟩, none, some ⟨6, ⟨1⟩, []⟩] ∧
      Faithful two calls := by
  obtain ⟨⟨d, calls⟩, hexec, hout⟩ := Option.map_eq_some_iff.mp
    (show (machine.exec ⟨3, stream two, .eof⟩ [[.upTo 1, .upTo 2, .upTo 9], [.error],
        [.upTo 2]]).map (fun q => q.2.map Call.out) =
      some [some ⟨5, ⟨0⟩, [1, 2, 3, 4]⟩, none, some ⟨6, ⟨1⟩, []⟩] by decide +kernel)
  refine ⟨d, calls, hexec, hout, (recv_faithful_iff (by decide) rfl hexec).mpr ?_⟩
  decide

/-- The failure strikes after the length of the first response.  The client stays
connected, takes its id for a length, and returns what follows. -/
theorem recv_from_middle :
    ∃ d calls, machine.exec ⟨3, stream two, .eof⟩ [[.upTo 4, .error], []] = some (d, calls) ∧
      d.connected = true ∧ calls.map Call.out = [none, some ⟨66051, ⟨4⟩, []⟩] ∧
      ¬ Faithful two calls := by
  obtain ⟨⟨d, calls⟩, hexec, hshown⟩ := Option.map_eq_some_iff.mp
    (show (machine.exec ⟨3, stream two, .eof⟩ [[.upTo 4, .error], []]).map
        (fun q => (q.1.connected, q.2.map Call.out)) =
      some (true, [none, some ⟨66051, ⟨4⟩, []⟩]) by decide +kernel)
  obtain ⟨hconn, hout⟩ := Prod.mk.inj hshown
  refine ⟨d, calls, hexec, hconn, hout, ?_⟩
  intro hf
  have hsent := hf.sent
  have hid : (calls.map Call.out).filterMap id = calls.filterMap Call.out := by
    rw [List.filterMap_map, Function.id_comp]
  rw [← hid, hout] at hsent
  exact absurd (hsent.subset (a := ⟨66051, ⟨4⟩, []⟩) (by simp)) (by decide)

end Run

end TcpClient

end HftComponents.Tcp
