import HftComponents.Tcp.Connection

/-!
# A connection whose system calls fail

`recv` and `send` may fail at any call.  A transfer has then moved a part of what it
was to move (`Writes`), and the connection is closed.  So what it has written are the
responses to the requests it has handled, the last of them perhaps in part, or not at
all if it does not fit in a frame; the client can tell, since what it decodes are the
whole ones and nothing else (`connection_output`).
-/

namespace HftComponents.Tcp

open Lib.Transfer Lib.PrefixCode

variable {u v w : Sink UInt8} {ok : Bool} {bs cs : List UInt8} {f : Frame}

/-- A writer of `bs` has written a part of it: all, if and only if it says so. -/
def Writes (u v : Sink UInt8) (ok : Bool) (bs : List UInt8) : Prop :=
  ∃ part, v.sent = u.sent ++ part ∧ part <+: bs ∧ (ok = true ↔ part = bs)

namespace Writes

theorem nil (u : Sink UInt8) : Writes u u true [] :=
  ⟨[], (List.append_nil _).symm, List.prefix_refl _, by simp⟩

theorem none (hbs : bs ≠ []) (hsent : v.sent = u.sent) : Writes u v false bs := by
  refine ⟨[], by rw [hsent, List.append_nil], List.nil_prefix, ?_⟩
  simp [hbs.symm]

/-- The second of two writers goes on where the first has ended. -/
theorem append (h : Writes u v true bs) (g : Writes v w ok cs) : Writes u w ok (bs ++ cs) := by
  obtain ⟨part, hpart, -, hall⟩ := h
  obtain ⟨part', hpart', hpre, hok⟩ := g
  obtain rfl := hall.mp rfl
  refine ⟨part ++ part', ?_, (List.prefix_append_right_inj part).mpr hpre, ?_⟩
  · rw [hpart', hpart, List.append_assoc]
  · rw [hok, List.append_cancel_left_eq]

/-- ... or does not begin. -/
theorem stop (h : Writes u v false bs) (cs : List UInt8) : Writes u v false (bs ++ cs) := by
  obtain ⟨part, hpart, hpre, hok⟩ := h
  refine ⟨part, hpart, hpre.trans (List.prefix_append _ _), ?_⟩
  refine iff_of_false Bool.false_ne_true ?_
  rintro rfl
  have hlen := hpre.length_le
  rw [List.length_append] at hlen
  have hcs : cs = [] := List.length_eq_zero_iff.mp (by omega)
  rw [hcs, List.append_nil] at hok
  exact absurd (hok.mpr rfl) Bool.false_ne_true

end Writes

theorem writes_sendExact (h : sendExact u bs = (ok, v)) : Writes u v ok bs := by
  induction hn : bs.length using Nat.strong_induction_on generalizing u bs with
  | _ n ih =>
    rw [sendExact] at h
    split at h
    · rename_i hbs
      subst hbs
      cases h
      exact .nil _
    · rename_i hbs
      split at h
      · rename_i m t hwrite
        obtain ⟨hpos, hle, hsent, -⟩ := Sink.write_some hwrite hbs
        have hlen : (bs.drop m).length < n := by
          rw [List.length_drop]
          omega
        have hfirst : Writes u t true (bs.take m) :=
          ⟨bs.take m, hsent, List.prefix_refl _, by simp⟩
        have hall := hfirst.append (ih _ hlen h rfl)
        rwa [List.take_append_drop] at hall
      · rename_i t hwrite
        cases h
        exact .none hbs (Sink.sent_of_write_none hwrite)

theorem writes_sendFrame (hfits : f.Fits) (h : sendFrame u f = (ok, v)) :
    Writes u v ok f.encode := by
  rw [sendFrame, if_neg (Nat.not_lt.mpr hfits)] at h
  rcases h₁ : sendExact u (htonl (5 + UInt32.ofNat f.payload.length)) with ⟨ok₁, u₁⟩
  have hlen := writes_sendExact h₁
  simp only [h₁] at h
  rw [Frame.encode]
  cases ok₁ with
  | false =>
    cases h
    exact hlen.stop _
  | true =>
    refine hlen.append ?_
    rcases h₂ : sendExact u₁ (htonl f.id) with ⟨ok₂, u₂⟩
    have hid := writes_sendExact h₂
    simp only [h₂, Bool.not_true, Bool.false_eq_true, if_false] at h
    cases ok₂ with
    | false =>
      cases h
      exact hid.stop _
    | true =>
      refine hid.append ?_
      rcases h₃ : sendExact u₂ [f.kind] with ⟨ok₃, u₃⟩
      have hkind := writes_sendExact h₃
      simp only [h₃, Bool.not_true, Bool.false_eq_true, if_false] at h
      cases ok₃ with
      | false =>
        cases h
        exact hkind.stop _
      | true =>
        refine hkind.append ?_
        simp only [Bool.not_true, Bool.false_eq_true, if_false] at h
        split at h
        · exact writes_sendExact h
        · rename_i hempty
          cases h
          rw [not_not.mp hempty]
          exact .nil _

/-! ### What a connection writes -/

/-- The responses `resps` have gone out as `whole` and `part`: all of them, or all
but the last, of which `part` has. -/
inductive Answered (resps whole : List Response) (part : List UInt8) : Prop
  | all (hresps : resps = whole) (hpart : part = [])
  | last {resp : Response} (hresps : resps = whole ++ [resp]) (hpre : part <+: resp.encode)
      (hne : part ≠ resp.encode) (hlarge : ¬ resp.frame.Fits → part = [])

/-- What the connection `d` has done that `c` was to do, whatever the system calls
have answered. -/
structure Conducts {σ : Type} (handler : σ → Request → σ × Response) (c d : Connection σ)
    (rs : List Request) (whole : List Response) (part : List UInt8) : Prop where
  read : rs.flatMap Request.encode <+: c.source.unread
  fits : ∀ r ∈ rs, r.Fits
  trace : d.trace = c.trace ++ rs.map Action.called ++ [.closed]
  state : d.state = (respond handler c.state rs).1
  sent : d.sink.sent = c.sink.sent ++ (whole.flatMap Response.encode ++ part)
  answered : Answered (respond handler c.state rs).2 whole part
  decoded : Maximal Response.encode (fun r => r.frame.Fits)
    (whole.flatMap Response.encode ++ part) whole part

variable {σ : Type} {handler : σ → Request → σ × Response} {c d : Connection σ}

theorem prefixFree_response : PrefixFree Response.encode fun r => r.frame.Fits := by
  intro r r' a b hr hr' heq
  obtain ⟨hframe, hab⟩ := prefixFree_encode r.frame r'.frame a b hr hr' heq
  exact ⟨congrArg Frame.response hframe, hab⟩

theorem maximal_nil : Maximal Response.encode (fun r => r.frame.Fits) [] [] [] := by
  refine .nil fun g hg hpre => ?_
  have hpos := length_encode_pos g.frame
  rw [show g.frame.encode = [] from List.prefix_nil.mp hpre] at hpos
  exact absurd hpos (lt_irrefl 0)

/-- Nothing is decoded from a proper part of a response. -/
theorem maximal_part {resp : Response} {part : List UInt8} (hpre : part <+: resp.encode)
    (hne : part ≠ resp.encode) (hlarge : ¬ resp.frame.Fits → part = []) :
    Maximal Response.encode (fun r => r.frame.Fits) part [] part := by
  by_cases hfits : resp.frame.Fits
  · refine .nil fun g hg hgpart => ?_
    obtain ⟨rest, hrest⟩ := hgpart.trans hpre
    obtain ⟨rfl, rfl⟩ :=
      prefixFree_response g resp rest [] hg hfits (by rw [hrest, List.append_nil])
    exact hne (hpre.eq_of_length_le hgpart.length_le)
  · rw [hlarge hfits]
    exact maximal_nil

namespace Conducts

variable {req : Request} {rs : List Request} {s : Source UInt8} {v : Sink UInt8} {state : σ}
  {resp : Response} {whole : List Response} {part : List UInt8}

theorem nil (s : Source UInt8) :
    Conducts handler c ({ c with source := s } : Connection σ).close [] [] [] where
  read := List.nil_prefix
  fits := by simp
  trace := by simp [Connection.close]
  state := rfl
  sent := by simp [Connection.close]
  answered := .all rfl rfl
  decoded := maximal_nil

theorem failed (hfits : req.Fits) (hread : c.source.unread = req.encode ++ s.unread)
    (hcall : handler c.state req = (state, resp)) (hsent : v.sent = c.sink.sent ++ part)
    (hpre : part <+: resp.encode) (hne : part ≠ resp.encode)
    (hlarge : ¬ resp.frame.Fits → part = []) :
    Conducts handler c
      (⟨state, s, v, c.trace ++ [.called req]⟩ : Connection σ).close [req] [] part where
  read := by
    rw [hread, List.flatMap_singleton]
    exact List.prefix_append _ _
  fits := by simpa using hfits
  trace := rfl
  state := by
    rw [respond, hcall]
    rfl
  sent := hsent
  answered := .last (by rw [respond, hcall]; rfl) hpre hne hlarge
  decoded := maximal_part hpre hne hlarge

theorem cons (h : Conducts handler ⟨state, s, v, c.trace ++ [.called req]⟩ d rs whole part)
    (hfits : req.Fits) (hread : c.source.unread = req.encode ++ s.unread)
    (hcall : handler c.state req = (state, resp)) (hresp : resp.frame.Fits)
    (hsent : v.sent = c.sink.sent ++ resp.encode) :
    Conducts handler c d (req :: rs) (resp :: whole) part where
  read := by
    rw [hread, List.flatMap_cons]
    exact (List.prefix_append_right_inj _).mpr h.read
  fits := List.forall_mem_cons.mpr ⟨hfits, h.fits⟩
  trace := by
    rw [h.trace, List.map_cons]
    simp only [List.append_assoc, List.cons_append, List.nil_append]
  state := by rw [h.state, respond, hcall]
  sent := by
    rw [h.sent, List.flatMap_cons]
    show v.sent ++ _ = _
    rw [hsent]
    simp only [List.append_assoc]
  answered := by
    rw [respond, hcall]
    cases h.answered with
    | all hresps hpart => exact .all (congrArg (resp :: ·) hresps) hpart
    | last hresps hpre hne hlarge => exact .last (congrArg (resp :: ·) hresps) hpre hne hlarge
  decoded := by
    rw [List.flatMap_cons, List.append_assoc]
    exact h.decoded.cons prefixFree_response hresp

end Conducts

/-- **What a connection writes is answers to what it has read,** whatever the handler
returns and wherever its system calls fail. -/
theorem connection_output (handler : σ → Request → σ × Response) (c : Connection σ) :
    ∃ rs whole part, Conducts handler c (handleConnection handler c) rs whole part := by
  induction hn : c.source.unread.length using Nat.strong_induction_on generalizing c with
  | _ n ih =>
    rw [handleConnection]
    split
    · rename_i s hrecv
      exact ⟨[], [], [], .nil s⟩
    · rename_i req s hrecv
      obtain ⟨hfits, hread, -⟩ := recvFrame_some (recvRequest_some hrecv)
      rcases hcall : handler c.state req with ⟨state, resp⟩
      have hshort : s.unread.length < n := by
        have hpos := length_encode_pos req.frame
        rw [← hn, hread, List.length_append]
        omega
      dsimp only
      by_cases hlarge : resp.frame.Fits
      · rcases hsend : sendFrame c.sink resp.frame with ⟨ok, v⟩
        obtain ⟨part, hsent, hpre, hok⟩ := writes_sendFrame hlarge hsend
        rw [show sendResponse c.sink resp = (ok, v) from hsend]
        cases ok with
        | false =>
          have hne : part ≠ resp.encode := fun heq => Bool.false_ne_true (hok.mpr heq)
          exact ⟨[req], [], part, .failed hfits hread hcall hsent hpre hne (absurd hlarge)⟩
        | true =>
          obtain rfl := hok.mp rfl
          obtain ⟨rs, whole, part, h⟩ := ih _ hshort ⟨state, s, v, c.trace ++ [.called req]⟩ rfl
          exact ⟨req :: rs, resp :: whole, part, h.cons hfits hread hcall hlarge hsent⟩
      · have hsend : sendResponse c.sink resp = (false, c.sink) := sendFrame_of_not_fits hlarge
        rw [hsend]
        have hne : [] ≠ resp.encode := (List.ne_nil_of_length_pos (length_encode_pos _)).symm
        exact ⟨[req], [], [], .failed hfits hread hcall (List.append_nil _).symm List.nil_prefix hne
          fun _ => rfl⟩

end HftComponents.Tcp
