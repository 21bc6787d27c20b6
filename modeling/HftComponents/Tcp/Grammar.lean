import Mathlib.Data.List.TakeDrop
import HftComponents.Tcp.Framing

/-!
# The frames that the decoders accept

`recv_request` and `recv_response` with their out parameter: the buffers that
`recv_exact` fills, and the payload vector that is sized by the length field
before its bytes are read.  What they return is what `recvFrame` does
(`recvFrameInto_eq`), and a payload is sized to `kMaxPayloadBytes` at most.

`StartsFrame` is the grammar, a big-endian length with as many bytes behind it.
A stream starts with a frame in this sense if and only if it starts with the
code of one (`startsFrame_iff`), so `decoders_exact` follows from the lemmas on
`encode`.
-/

namespace HftComponents.Tcp

open Lib.Transfer

/-! ### The decoders with their buffers -/

/-- `recv_exact` into a buffer that holds `done` and then `left`, the part that
is still to be overwritten. -/
def recvInto (s : Source UInt8) (done left : List UInt8) : Bool × List UInt8 × Source UInt8 :=
  if hleft : left = [] then (true, done, s)
  else
    match h : s.read left.length with
    | (.ok bs, t) => recvInto t (done ++ bs) (left.drop bs.length)
    | (.error _, t) => (false, done ++ left, t)
termination_by left.length
decreasing_by
  have hpos := List.length_pos_iff.mpr hleft
  have hlen := List.length_pos_iff.mpr (Source.read_ok h hpos).2.1
  rw [List.length_drop]
  omega

/-- `out` is what the caller passes.  `vector::resize` is `List.takeD`. -/
def recvFrameInto (s : Source UInt8) (out : Frame) : Bool × Frame × Source UInt8 :=
  match recvInto s [] [0, 0, 0, 0] with
  | (false, _, s) => (false, out, s)
  | (true, netLen, s) =>
    let bodyLen := ntohl netLen
    if bodyLen < 5 ∨ kMaxPayloadBytes < (bodyLen - 5).toNat then (false, out, s)
    else
      match recvInto s [] [0, 0, 0, 0] with
      | (false, _, s) => (false, out, s)
      | (true, netId, s) =>
        let out := { out with id := ntohl netId }
        match recvInto s [] [out.kind] with
        | (false, _, s) => (false, out, s)
        | (true, kind, s) =>
          let payloadLen := (bodyLen - 5).toNat
          let out := { out with kind := kind.headD 0, payload := out.payload.takeD payloadLen 0 }
          if 0 < payloadLen then
            let (ok, payload, s) := recvInto s [] out.payload
            (ok, { out with payload := payload }, s)
          else (true, out, s)

def recvRequestInto (s : Source UInt8) (out : Request) : Bool × Request × Source UInt8 :=
  let (ok, f, s) := recvFrameInto s out.frame
  (ok, f.request, s)

def recvResponseInto (s : Source UInt8) (out : Response) : Bool × Response × Source UInt8 :=
  let (ok, f, s) := recvFrameInto s out.frame
  (ok, f.response, s)

variable {s t : Source UInt8} {u : Sink UInt8} {f out : Frame} {bs done left rest : List UInt8}
  {n : Nat}

theorem recvExact_ok (hn : 0 < n) (h : s.read n = (.ok bs, t)) :
    recvExact s n =
      ((recvExact t (n - bs.length)).1.map (bs ++ ·), (recvExact t (n - bs.length)).2) := by
  rw [recvExact, dif_neg hn.ne']
  split
  · rename_i hread
    obtain ⟨hbs, rfl⟩ := Prod.mk.inj (h.symm.trans hread)
    obtain rfl := Except.ok.inj hbs
    rfl
  · rename_i hread
    exact absurd (h.symm.trans hread) (by simp)

theorem recvExact_error {e : Ending} (hn : 0 < n) (h : s.read n = (.error e, t)) :
    recvExact s n = (none, t) := by
  rw [recvExact, dif_neg hn.ne']
  split
  · rename_i hread
    exact absurd (h.symm.trans hread) (by simp)
  · rename_i hread
    obtain ⟨-, rfl⟩ := Prod.mk.inj (h.symm.trans hread)
    rfl

theorem recvInto_ok (hleft : left ≠ []) (h : s.read left.length = (.ok bs, t)) :
    recvInto s done left = recvInto t (done ++ bs) (left.drop bs.length) := by
  rw [recvInto, dif_neg hleft]
  split
  · rename_i hread
    obtain ⟨hbs, rfl⟩ := Prod.mk.inj (h.symm.trans hread)
    obtain rfl := Except.ok.inj hbs
    rfl
  · rename_i hread
    exact absurd (h.symm.trans hread) (by simp)

theorem recvInto_error {e : Ending} (hleft : left ≠ [])
    (h : s.read left.length = (.error e, t)) :
    recvInto s done left = (false, done ++ left, t) := by
  rw [recvInto, dif_neg hleft]
  split
  · rename_i hread
    exact absurd (h.symm.trans hread) (by simp)
  · rename_i hread
    obtain ⟨-, rfl⟩ := Prod.mk.inj (h.symm.trans hread)
    rfl

/-- Filling a buffer is reading as many bytes. -/
theorem recvInto_eq (s : Source UInt8) (done left : List UInt8) :
    (recvInto s done left).1 = (recvExact s left.length).1.isSome ∧
      (recvInto s done left).2.2 = (recvExact s left.length).2 ∧
      (∀ bs, (recvExact s left.length).1 = some bs → (recvInto s done left).2.1 = done ++ bs) ∧
      (recvInto s done left).2.1.length = done.length + left.length := by
  induction hn : left.length using Nat.strong_induction_on generalizing s done left with
  | _ n ih =>
    subst hn
    by_cases hleft : left = []
    · subst hleft
      rw [recvInto, dif_pos rfl, List.length_nil, recvExact, dif_pos rfl]
      refine ⟨rfl, rfl, ?_, rfl⟩
      intro bs hbs
      rw [← Option.some.inj hbs, List.append_nil]
    · have hpos := List.length_pos_iff.mpr hleft
      cases hread : s.read left.length with
      | mk r t =>
        cases r with
        | ok bs =>
          obtain ⟨-, hne, hlen, -⟩ := Source.read_ok hread hpos
          have hbs := List.length_pos_iff.mpr hne
          have hrest : (left.drop bs.length).length = left.length - bs.length := List.length_drop
          obtain ⟨hok, hsrc, hbuf, hsize⟩ :=
            ih (left.drop bs.length).length (by omega) t (done ++ bs) (left.drop bs.length) rfl
          rw [hrest] at hok hsrc hbuf
          rw [recvInto_ok hleft hread, recvExact_ok hpos hread]
          refine ⟨by simpa using hok, hsrc, ?_, ?_⟩
          · intro ys hys
            obtain ⟨zs, hzs, rfl⟩ := Option.map_eq_some_iff.mp hys
            rw [hbuf zs hzs, List.append_assoc]
          · rw [hsize, List.length_append, hrest]
            omega
        | error e =>
          rw [recvInto_error hleft hread, recvExact_error hpos hread]
          refine ⟨rfl, rfl, ?_, List.length_append⟩
          intro bs hbs
          cases hbs

theorem recvInto_some (left : List UInt8) (h : recvExact s left.length = (some bs, t)) :
    recvInto s [] left = (true, bs, t) := by
  obtain ⟨hok, hsrc, hbuf, -⟩ := recvInto_eq s [] left
  rw [h] at hok hsrc hbuf
  exact Prod.ext hok (Prod.ext (hbuf bs rfl) hsrc)

theorem recvInto_none (left : List UInt8) (h : recvExact s left.length = (none, t)) :
    ∃ buf, recvInto s [] left = (false, buf, t) ∧ buf.length = left.length := by
  obtain ⟨hok, hsrc, -, hlen⟩ := recvInto_eq s [] left
  rw [h] at hok hsrc
  refine ⟨(recvInto s [] left).2.1, Prod.ext hok (Prod.ext rfl hsrc), ?_⟩
  rw [hlen, List.length_nil, Nat.zero_add]

/-- **The out parameter** of a receiver that succeeds is the frame received;
and the payload vector is never sized above the maximum. -/
theorem recvFrameInto_eq (s : Source UInt8) (out : Frame) :
    ∃ out', recvFrameInto s out = ((recvFrame s).1.isSome, out', (recvFrame s).2) ∧
      (∀ f, (recvFrame s).1 = some f → out' = f) ∧
      (out'.payload = out.payload ∨ out'.payload.length ≤ kMaxPayloadBytes) := by
  unfold recvFrameInto recvFrame
  rcases h₁ : recvExact s 4 with ⟨_ | netLen, s₁⟩
  · obtain ⟨_, hbuf, -⟩ := recvInto_none [0, 0, 0, 0] h₁
    rw [hbuf]
    exact ⟨out, rfl, by simp, Or.inl rfl⟩
  rw [recvInto_some [0, 0, 0, 0] h₁]
  dsimp only
  split
  · exact ⟨out, rfl, by simp, Or.inl rfl⟩
  rename_i hok
  obtain ⟨hpay, -, hle⟩ := toNat_payloadLen hok
  rcases h₂ : recvExact s₁ 4 with ⟨_ | netId, s₂⟩
  · obtain ⟨_, hbuf, -⟩ := recvInto_none [0, 0, 0, 0] h₂
    rw [hbuf]
    exact ⟨out, rfl, by simp, Or.inl rfl⟩
  rw [recvInto_some [0, 0, 0, 0] h₂]
  dsimp only
  rcases h₃ : recvExact s₂ 1 with ⟨_ | kind, s₃⟩
  · obtain ⟨_, hbuf, -⟩ := recvInto_none [out.kind] h₃
    rw [hbuf]
    exact ⟨{ out with id := ntohl netId }, rfl, by simp, Or.inl rfl⟩
  rw [recvInto_some [out.kind] h₃]
  dsimp only
  -- the vector has its size before its bytes are read
  have hsize : (out.payload.takeD (ntohl netLen - 5).toNat 0).length = (ntohl netLen - 5).toNat :=
    List.takeD_length _ _ _
  split
  · rcases h₄ : recvExact s₃ (ntohl netLen - 5).toNat with ⟨_ | payload, s₄⟩
    · obtain ⟨buf, hbuf, hlen⟩ := recvInto_none
        (out.payload.takeD (ntohl netLen - 5).toNat 0) (by rw [hsize]; exact h₄)
      rw [hbuf]
      refine ⟨⟨ntohl netId, kind.headD 0, buf⟩, rfl, by simp, Or.inr ?_⟩
      show buf.length ≤ kMaxPayloadBytes
      omega
    · rw [recvInto_some (out.payload.takeD (ntohl netLen - 5).toNat 0)
        (by rw [hsize]; exact h₄)]
      have hlen := (recvExact_some h₄).1
      refine ⟨⟨ntohl netId, kind.headD 0, payload⟩, rfl, by simp, Or.inr ?_⟩
      show payload.length ≤ kMaxPayloadBytes
      omega
  · rename_i hzero
    have hnil : out.payload.takeD (ntohl netLen - 5).toNat 0 = [] :=
      List.eq_nil_of_length_eq_zero (by omega)
    refine ⟨⟨ntohl netId, kind.headD 0, []⟩, ?_, by simp, Or.inr (Nat.zero_le _)⟩
    rw [hnil]
    rfl

/-! ### The grammar -/

/-- The number that bytes in network order stand for. -/
def bigEndian : List UInt8 → Nat := List.foldl (fun n b => n * 256 + b.toNat) 0

/-- A length of four bytes, for an id, a type and an admissible payload, and as
many bytes behind it. -/
def StartsFrame (bs : List UInt8) (l : Nat) : Prop :=
  4 + l ≤ bs.length ∧ bigEndian (bs.take 4) = l ∧ 5 ≤ l ∧ l ≤ 65540

theorem bigEndian_eq (h : bs.length = 4) : bigEndian bs = (ntohl bs).toNat := by
  match bs, h with
  | [a, b, c, d], _ =>
    have ha := a.toNat_lt
    have hb := b.toNat_lt
    have hc := c.toNat_lt
    have hd := d.toNat_lt
    rw [ntohl, UInt32.toNat_ofNat']
    simp only [bigEndian, List.foldl]
    omega

theorem length_encode (f : Frame) : f.encode.length = 4 + (5 + f.payload.length) := by
  simp only [Frame.encode, htonl, List.length_append, List.length_cons, List.length_nil]
  omega

/-- **A stream starts with a frame if and only if it starts with the code of
one.** -/
theorem startsFrame_iff (bs : List UInt8) (l : Nat) :
    StartsFrame bs l ↔
      ∃ f : Frame, f.Fits ∧ l = 5 + f.payload.length ∧ bs.take (4 + l) = f.encode := by
  constructor
  · rintro ⟨hlong, hval, hge, hle⟩
    have hl : (bs.take 4).length = 4 := by
      rw [List.length_take]
      omega
    have hi : ((bs.drop 4).take 4).length = 4 := by
      rw [List.length_take, List.length_drop]
      omega
    have hk : ((bs.drop 8).take 1).length = 1 := by
      rw [List.length_take, List.length_drop]
      omega
    have hp : ((bs.drop 9).take (l - 5)).length = l - 5 := by
      rw [List.length_take, List.length_drop]
      omega
    rw [bigEndian_eq hl] at hval
    have hok : ¬ (ntohl (bs.take 4) < 5 ∨ kMaxPayloadBytes < (ntohl (bs.take 4) - 5).toNat) := by
      rw [bodyLen_rejected_iff, hval, kMaxPayloadBytes]
      omega
    have hsize : (ntohl (bs.take 4) - 5).toNat = l - 5 := by
      rw [(toNat_payloadLen hok).1, hval]
    obtain ⟨hfits, hcode⟩ := encode_of_parts hl hi hk hok (hp.trans hsize.symm)
    refine ⟨_, hfits, ?_, ?_⟩
    · show l = 5 + ((bs.drop 9).take (l - 5)).length
      omega
    · rw [hcode, show 4 + l = 4 + (4 + (1 + (l - 5))) by omega, List.take_add, List.take_add,
        List.take_add, List.drop_drop, List.drop_drop]
  · rintro ⟨f, hfits, rfl, htake⟩
    have hmax : f.payload.length ≤ 65535 := hfits
    have hlen := congrArg List.length htake
    rw [List.length_take, length_encode] at hlen
    have hhead : bs.take 4 = htonl (5 + UInt32.ofNat f.payload.length) := by
      have htt := congrArg (List.take 4) htake
      rwa [List.take_take, Nat.min_eq_left (by omega)] at htt
    refine ⟨by omega, ?_, by omega, by omega⟩
    rw [hhead, bigEndian_eq rfl, ntohl_htonl, toNat_bodyLen hfits]

/-! ### Decoders and encoders -/

/-- What a decoder and an encoder of messages `M` have to do with frames on a
stream, however the transfers are cut. -/
structure Exact {M : Type} (recv : Source UInt8 → M → Bool × M × Source UInt8)
    (send : Sink UInt8 → M → Bool × Sink UInt8) (payload : M → List UInt8) : Prop where
  accepts : ∀ s out, s.Clean → ((recv s out).1 = true ↔ ∃ l, StartsFrame s.unread l)
  consumes : ∀ s out l, s.Clean → StartsFrame s.unread l →
    (recv s out).2.2.unread = s.unread.drop (4 + l)
  inverted : ∀ s out l u, s.Clean → StartsFrame s.unread l → u.Clean →
    ∃ v, send u (recv s out).2.1 = (true, v) ∧ v.sent = u.sent ++ s.unread.take (4 + l)
  /-- The vector is not resized, or not above the maximum. -/
  sized : ∀ s out,
    payload (recv s out).2.1 = payload out ∨ (payload (recv s out).2.1).length ≤ 65535

/-- A frame at the front of the stream is received, whatever `out` was. -/
theorem recvFrameInto_of_starts (hc : s.Clean) {l : Nat} (h : StartsFrame s.unread l)
    (out : Frame) :
    ∃ f t, recvFrameInto s out = (true, f, t) ∧ f.Fits ∧ s.unread.take (4 + l) = f.encode ∧
      t.unread = s.unread.drop (4 + l) := by
  obtain ⟨f, hfits, -, htake⟩ := (startsFrame_iff _ _).mp h
  have hu : s.unread = f.encode ++ s.unread.drop (4 + l) := by
    rw [← htake, List.take_append_drop]
  obtain ⟨t, ht, htu, -⟩ := recvFrame_append hc hfits hu
  obtain ⟨out', hinto, hout, -⟩ := recvFrameInto_eq s out
  rw [ht] at hinto hout
  obtain rfl := hout f rfl
  exact ⟨out', t, hinto, hfits, htake, htu⟩

theorem starts_of_recvFrameInto (h : (recvFrameInto s out).1 = true) :
    ∃ l, StartsFrame s.unread l := by
  obtain ⟨out', hinto, -⟩ := recvFrameInto_eq s out
  rw [hinto] at h
  obtain ⟨f, hf⟩ := Option.isSome_iff_exists.mp h
  obtain ⟨hfits, hu, -⟩ := recvFrame_some (Prod.ext hf rfl)
  refine ⟨5 + f.payload.length, (startsFrame_iff _ _).mpr ⟨f, hfits, rfl, ?_⟩⟩
  rw [hu, ← length_encode, List.take_left]

theorem exact_of_frame {M : Type} {recv : Source UInt8 → M → Bool × M × Source UInt8}
    {send : Sink UInt8 → M → Bool × Sink UInt8} (toFrame : M → Frame) (ofFrame : Frame → M)
    (hsend : ∀ u m, send u m = sendFrame u (toFrame m))
    (hrecv : ∀ s m, recv s m = ((recvFrameInto s (toFrame m)).1,
      ofFrame (recvFrameInto s (toFrame m)).2.1, (recvFrameInto s (toFrame m)).2.2))
    (hinv : ∀ f, toFrame (ofFrame f) = f) : Exact recv send fun m => (toFrame m).payload where
  accepts := by
    intro s out hc
    rw [hrecv]
    refine ⟨starts_of_recvFrameInto, ?_⟩
    rintro ⟨l, hl⟩
    obtain ⟨f, t, hinto, -⟩ := recvFrameInto_of_starts hc hl (toFrame out)
    rw [hinto]
  consumes := by
    intro s out l hc hl
    obtain ⟨f, t, hinto, -, -, htu⟩ := recvFrameInto_of_starts hc hl (toFrame out)
    rw [hrecv, hinto]
    exact htu
  inverted := by
    intro s out l u hc hl hu
    obtain ⟨f, t, hinto, hfits, htake, -⟩ := recvFrameInto_of_starts hc hl (toFrame out)
    obtain ⟨v, hv, hsent, -⟩ := sendFrame_of_fits hu hfits
    refine ⟨v, ?_, by rw [hsent, htake]⟩
    rw [hrecv, hinto, hsend, hinv, hv]
  sized := by
    intro s out
    obtain ⟨out', hinto, -, hsize⟩ := recvFrameInto_eq s (toFrame out)
    rw [hrecv, hinto, hinv]
    exact hsize

/-- **The decoders accept exactly the frames, and the encoders invert them**, on
every stream and for every fragmentation, status bytes without a name
included. -/
theorem decoders_exact :
    Exact recvRequestInto sendRequest Request.payload ∧
      Exact recvResponseInto sendResponse Response.payload :=
  ⟨exact_of_frame Request.frame Frame.request (fun _ _ => rfl) (fun _ _ => rfl) fun _ => rfl,
    exact_of_frame Response.frame Frame.response (fun _ _ => rfl) (fun _ _ => rfl) fun _ => rfl⟩

end HftComponents.Tcp
