import HftComponents.Tcp.Protocol

/-!
# Frames on a stream

`Frame.encode` is the byte string of a frame.  `sendFrame` appends it to the
stream, or nothing if the payload is too large (`sendFrame_of_fits`,
`sendFrame_of_not_fits`); `recvFrame` takes a frame off the stream if one of
admissible size is at its front, and only then (`recvFrame_append`,
`recvFrame_some`).  So frames are a prefix code (`prefixFree_encode`), and what
is sent is received (`framing_round_trip`).
-/

namespace HftComponents.Tcp

open Lib.Transfer Lib.PrefixCode

variable {s t : Source UInt8} {u : Sink UInt8} {f : Frame} {rest : List UInt8}

/-! ### Network byte order -/

theorem ntohl_htonl (x : UInt32) : ntohl (htonl x) = x := by
  have hx := x.toNat_lt
  apply UInt32.toNat_inj.mp
  simp only [ntohl, htonl, UInt32.toNat_ofNat', UInt8.toNat_ofNat']
  omega

theorem htonl_ntohl {bs : List UInt8} (h : bs.length = 4) : htonl (ntohl bs) = bs := by
  match bs, h with
  | [a, b, c, d], _ =>
    have ha := a.toNat_lt
    have hb := b.toNat_lt
    have hc := c.toNat_lt
    have hd := d.toNat_lt
    have hval : (ntohl [a, b, c, d]).toNat =
        a.toNat * 2 ^ 24 + b.toNat * 2 ^ 16 + c.toNat * 2 ^ 8 + d.toNat := by
      rw [ntohl, UInt32.toNat_ofNat']
      omega
    have hbyte : ∀ (n : Nat) (x : UInt8), n % 2 ^ 8 = x.toNat → UInt8.ofNat n = x := by
      intro n x hn
      exact UInt8.toNat_inj.mp (UInt8.toNat_ofNat'.trans hn)
    rw [htonl, hval, hbyte _ a (by omega), hbyte _ b (by omega), hbyte _ c (by omega),
      hbyte _ d (by omega)]

/-! ### The code of a frame -/

def Frame.encode (f : Frame) : List UInt8 :=
  htonl (5 + UInt32.ofNat f.payload.length) ++ (htonl f.id ++ ([f.kind] ++ f.payload))

def Frame.Fits (f : Frame) : Prop := f.payload.length ≤ kMaxPayloadBytes

instance (f : Frame) : Decidable f.Fits := inferInstanceAs (Decidable (_ ≤ _))

theorem toNat_bodyLen (h : f.Fits) :
    (5 + UInt32.ofNat f.payload.length).toNat = 5 + f.payload.length := by
  have hmax : f.payload.length ≤ 65535 := h
  have h5 : (5 : UInt32).toNat = 5 := rfl
  rw [UInt32.toNat_add, UInt32.toNat_ofNat', h5]
  omega

theorem sendFrame_of_not_fits (h : ¬ f.Fits) : sendFrame u f = (false, u) :=
  if_pos (Nat.lt_of_not_le h)

theorem sendFrame_of_fits (hc : u.Clean) (h : f.Fits) :
    ∃ v, sendFrame u f = (true, v) ∧ v.sent = u.sent ++ f.encode ∧ v.Clean := by
  obtain ⟨u₁, h₁, hs₁, hc₁⟩ :=
    sendExact_clean hc (htonl (5 + UInt32.ofNat f.payload.length))
  obtain ⟨u₂, h₂, hs₂, hc₂⟩ := sendExact_clean hc₁ (htonl f.id)
  obtain ⟨u₃, h₃, hs₃, hc₃⟩ := sendExact_clean hc₂ [f.kind]
  obtain ⟨u₄, h₄, hs₄, hc₄⟩ := sendExact_clean hc₃ f.payload
  have hsent : u₄.sent = u.sent ++ f.encode := by
    rw [hs₄, hs₃, hs₂, hs₁, Frame.encode, List.append_assoc, List.append_assoc, List.append_assoc]
  rw [sendFrame, if_neg (Nat.not_lt.mpr h)]
  simp only [h₁, h₂, h₃, Bool.not_true, Bool.false_eq_true, if_false]
  split
  · exact ⟨u₄, h₄, hsent, hc₄⟩
  · rename_i hempty
    refine ⟨u₃, rfl, ?_, hc₃⟩
    rw [← hsent, hs₄, not_not.mp hempty, List.append_nil]

/-- The test of the length field. -/
theorem bodyLen_rejected_iff (x : UInt32) :
    (x < 5 ∨ kMaxPayloadBytes < (x - 5).toNat) ↔
      x.toNat < 5 ∨ kMaxPayloadBytes + 5 < x.toNat := by
  have h5 : (5 : UInt32).toNat = 5 := rfl
  have hx := x.toNat_lt
  rw [UInt32.lt_iff_toNat_lt, h5, UInt32.toNat_sub, h5]
  omega

theorem toNat_payloadLen {x : UInt32} (h : ¬ (x < 5 ∨ kMaxPayloadBytes < (x - 5).toNat)) :
    (x - 5).toNat = x.toNat - 5 ∧ 5 ≤ x.toNat ∧ x.toNat ≤ kMaxPayloadBytes + 5 := by
  have hiff := bodyLen_rejected_iff x
  have h5 : (5 : UInt32).toNat = 5 := rfl
  have hx := x.toNat_lt
  rw [hiff] at h
  refine ⟨?_, by omega, by omega⟩
  rw [UInt32.toNat_sub, h5]
  omega

/-- What a receiver may do: fail in one of the fields, reject the length, or
receive them all.  An empty payload is none that is read. -/
inductive RecvFrame (s : Source UInt8) : Option Frame → Source UInt8 → Prop
  | noLen {t : Source UInt8} (h₁ : recvExact s 4 = (none, t)) : RecvFrame s none t
  | badLen {netLen : List UInt8} {t : Source UInt8} (h₁ : recvExact s 4 = (some netLen, t))
      (hbad : ntohl netLen < 5 ∨ kMaxPayloadBytes < (ntohl netLen - 5).toNat) : RecvFrame s none t
  | noId {netLen : List UInt8} {s₁ t : Source UInt8} (h₁ : recvExact s 4 = (some netLen, s₁))
      (hok : ¬ (ntohl netLen < 5 ∨ kMaxPayloadBytes < (ntohl netLen - 5).toNat))
      (h₂ : recvExact s₁ 4 = (none, t)) : RecvFrame s none t
  | noKind {netLen netId : List UInt8} {s₁ s₂ t : Source UInt8}
      (h₁ : recvExact s 4 = (some netLen, s₁))
      (hok : ¬ (ntohl netLen < 5 ∨ kMaxPayloadBytes < (ntohl netLen - 5).toNat))
      (h₂ : recvExact s₁ 4 = (some netId, s₂)) (h₃ : recvExact s₂ 1 = (none, t)) :
      RecvFrame s none t
  | noPayload {netLen netId kind : List UInt8} {s₁ s₂ s₃ t : Source UInt8}
      (h₁ : recvExact s 4 = (some netLen, s₁))
      (hok : ¬ (ntohl netLen < 5 ∨ kMaxPayloadBytes < (ntohl netLen - 5).toNat))
      (h₂ : recvExact s₁ 4 = (some netId, s₂)) (h₃ : recvExact s₂ 1 = (some kind, s₃))
      (h₄ : recvExact s₃ (ntohl netLen - 5).toNat = (none, t)) : RecvFrame s none t
  | whole {netLen netId kind payload : List UInt8} {s₁ s₂ s₃ t : Source UInt8}
      (h₁ : recvExact s 4 = (some netLen, s₁))
      (hok : ¬ (ntohl netLen < 5 ∨ kMaxPayloadBytes < (ntohl netLen - 5).toNat))
      (h₂ : recvExact s₁ 4 = (some netId, s₂)) (h₃ : recvExact s₂ 1 = (some kind, s₃))
      (h₄ : recvExact s₃ (ntohl netLen - 5).toNat = (some payload, t)) :
      RecvFrame s (some ⟨ntohl netId, kind.headD 0, payload⟩) t

theorem recvFrame_cases {r : Option Frame} (h : recvFrame s = (r, t)) : RecvFrame s r t := by
  unfold recvFrame at h
  split at h
  · rename_i s₁ h₁
    cases h
    exact .noLen h₁
  · rename_i netLen s₁ h₁
    dsimp only at h
    split at h
    · rename_i hbad
      cases h
      exact .badLen h₁ hbad
    · rename_i hok
      split at h
      · rename_i s₂ h₂
        cases h
        exact .noId h₁ hok h₂
      · rename_i netId s₂ h₂
        split at h
        · rename_i s₃ h₃
          cases h
          exact .noKind h₁ hok h₂ h₃
        · rename_i kind s₃ h₃
          split at h
          · split at h
            · rename_i s₄ h₄
              cases h
              exact .noPayload h₁ hok h₂ h₃ h₄
            · rename_i payload s₄ h₄
              cases h
              exact .whole h₁ hok h₂ h₃ h₄
          · rename_i hzero
            cases h
            refine .whole h₁ hok h₂ h₃ ?_
            rw [Nat.eq_zero_of_not_pos hzero, recvExact, dif_pos rfl]

/-- A frame at the front of the stream is received. -/
theorem recvFrame_append (hc : s.Clean) (h : f.Fits) (hu : s.unread = f.encode ++ rest) :
    ∃ t, recvFrame s = (some f, t) ∧ t.unread = rest ∧ t.Clean := by
  have hmax : f.payload.length ≤ kMaxPayloadBytes := h
  have hlen := toNat_bodyLen h
  rw [Frame.encode, List.append_assoc, List.append_assoc, List.append_assoc] at hu
  obtain ⟨s₁, h₁, hu₁, hc₁⟩ := recvExact_append hc hu
  obtain ⟨s₂, h₂, hu₂, hc₂⟩ := recvExact_append hc₁ hu₁
  obtain ⟨s₃, h₃, hu₃, hc₃⟩ := recvExact_append hc₂ hu₂
  obtain ⟨s₄, h₄, hu₄, hc₄⟩ := recvExact_append hc₃ hu₃
  have hok : ¬ (5 + UInt32.ofNat f.payload.length < 5 ∨
      kMaxPayloadBytes < (5 + UInt32.ofNat f.payload.length - 5).toNat) := by
    rw [bodyLen_rejected_iff, hlen]
    omega
  have hpay : (5 + UInt32.ofNat f.payload.length - 5).toNat = f.payload.length := by
    rw [(toNat_payloadLen hok).1, hlen]
    omega
  rw [show (htonl (5 + UInt32.ofNat f.payload.length)).length = 4 from rfl] at h₁
  rw [show (htonl f.id).length = 4 from rfl] at h₂
  rw [show [f.kind].length = 1 from rfl] at h₃
  rw [recvFrame, h₁]
  dsimp only
  rw [ntohl_htonl, if_neg hok, h₂]
  dsimp only
  rw [h₃]
  dsimp only
  rw [hpay, ntohl_htonl]
  split
  · rw [h₄]
    exact ⟨s₄, rfl, hu₄, hc₄⟩
  · have hnil : f.payload = [] := List.eq_nil_of_length_eq_zero (by omega)
    rw [hnil] at hu₃
    refine ⟨s₃, ?_, hu₃, hc₃⟩
    rw [← hnil]
    rfl

/-- The pieces that were read are the code of the frame they make. -/
theorem encode_of_parts {netLen netId kind payload : List UInt8} (hl : netLen.length = 4)
    (hi : netId.length = 4) (hk : kind.length = 1)
    (hok : ¬ (ntohl netLen < 5 ∨ kMaxPayloadBytes < (ntohl netLen - 5).toNat))
    (hp : payload.length = (ntohl netLen - 5).toNat) :
    (⟨ntohl netId, kind.headD 0, payload⟩ : Frame).Fits ∧
      (⟨ntohl netId, kind.headD 0, payload⟩ : Frame).encode =
        netLen ++ (netId ++ (kind ++ payload)) := by
  obtain ⟨hpay, hge, hle⟩ := toNat_payloadLen hok
  have hfits : (⟨ntohl netId, kind.headD 0, payload⟩ : Frame).Fits := by
    show payload.length ≤ kMaxPayloadBytes
    omega
  have hbody : 5 + UInt32.ofNat payload.length = ntohl netLen := by
    have hlen := toNat_bodyLen hfits
    dsimp only at hlen
    apply UInt32.toNat_inj.mp
    rw [hlen]
    omega
  obtain ⟨k, rfl⟩ := List.length_eq_one_iff.mp hk
  refine ⟨hfits, ?_⟩
  rw [Frame.encode]
  dsimp only
  rw [hbody, htonl_ntohl hl, htonl_ntohl hi]
  rfl

/-- What is received was at the front of the stream. -/
theorem recvFrame_some (h : recvFrame s = (some f, t)) :
    f.Fits ∧ s.unread = f.encode ++ t.unread ∧ (s.Clean → t.Clean) := by
  cases recvFrame_cases h with
  | whole h₁ hok h₂ h₃ h₄ =>
    obtain ⟨hl₁, hu₁, hc₁⟩ := recvExact_some h₁
    obtain ⟨hl₂, hu₂, hc₂⟩ := recvExact_some h₂
    obtain ⟨hl₃, hu₃, hc₃⟩ := recvExact_some h₃
    obtain ⟨hl₄, hu₄, hc₄⟩ := recvExact_some h₄
    obtain ⟨hfits, hcode⟩ := encode_of_parts hl₁ hl₂ hl₃ hok hl₄
    refine ⟨hfits, ?_, hc₄ ∘ hc₃ ∘ hc₂ ∘ hc₁⟩
    rw [hcode, hu₁, hu₂, hu₃, hu₄]
    simp only [List.append_assoc]

/-- The stream starts with a length that no frame has. -/
def InvalidLength (bs : List UInt8) : Prop :=
  4 ≤ bs.length ∧
    ((ntohl (bs.take 4)).toNat < 5 ∨ kMaxPayloadBytes + 5 < (ntohl (bs.take 4)).toNat)

/-- A length field that is read is invalid exactly when it is rejected. -/
theorem invalidLength_iff {netLen : List UInt8} (h₁ : recvExact s 4 = (some netLen, t)) :
    InvalidLength s.unread ↔
      ntohl netLen < 5 ∨ kMaxPayloadBytes < (ntohl netLen - 5).toNat := by
  obtain ⟨hl, hu, -⟩ := recvExact_some h₁
  have htake : s.unread.take 4 = netLen := by rw [hu, ← hl, List.take_left]
  have hlong : 4 ≤ s.unread.length := by
    rw [hu, List.length_append]
    omega
  rw [InvalidLength, htake, bodyLen_rejected_iff]
  exact and_iff_right hlong

/-- A receiver that fails has read an invalid length, or all there is. -/
theorem recvFrame_none (h : recvFrame s = (none, t)) (hc : s.Clean) :
    (InvalidLength s.unread → t.unread = s.unread.drop 4) ∧
      (¬ InvalidLength s.unread → t.unread = []) := by
  have hend : ∀ {bs s₁}, recvExact s 4 = (some bs, s₁) →
      ¬ (ntohl bs < 5 ∨ kMaxPayloadBytes < (ntohl bs - 5).toNat) → t.unread = [] →
      (InvalidLength s.unread → t.unread = s.unread.drop 4) ∧
        (¬ InvalidLength s.unread → t.unread = []) := by
    intro bs s₁ h₁ hok hnil
    rw [← invalidLength_iff h₁] at hok
    exact ⟨fun hinv => absurd hinv hok, fun _ => hnil⟩
  cases recvFrame_cases h with
  | noLen h₁ =>
    obtain ⟨hlt, hu, -⟩ := recvExact_none h₁ hc
    exact ⟨fun hinv => absurd hinv.1 (Nat.not_le.mpr hlt), fun _ => hu⟩
  | badLen h₁ hbad =>
    obtain ⟨hl, hu, -⟩ := recvExact_some h₁
    rw [← invalidLength_iff h₁] at hbad
    refine ⟨?_, fun hvalid => absurd hbad hvalid⟩
    intro _
    rw [hu, ← hl, List.drop_left]
  | noId h₁ hok h₂ =>
    obtain ⟨-, -, hc₁⟩ := recvExact_some h₁
    exact hend h₁ hok (recvExact_none h₂ (hc₁ hc)).2.1
  | noKind h₁ hok h₂ h₃ =>
    obtain ⟨-, -, hc₁⟩ := recvExact_some h₁
    obtain ⟨-, -, hc₂⟩ := recvExact_some h₂
    exact hend h₁ hok (recvExact_none h₃ (hc₂ (hc₁ hc))).2.1
  | noPayload h₁ hok h₂ h₃ h₄ =>
    obtain ⟨-, -, hc₁⟩ := recvExact_some h₁
    obtain ⟨-, -, hc₂⟩ := recvExact_some h₂
    obtain ⟨-, -, hc₃⟩ := recvExact_some h₃
    exact hend h₁ hok (recvExact_none h₄ (hc₃ (hc₂ (hc₁ hc)))).2.1

/-- **Frames are a prefix code.** -/
theorem prefixFree_encode : PrefixFree Frame.encode Frame.Fits := by
  intro f g a b hf hg heq
  have hclean : (⟨Frame.encode f ++ a, [], .eof⟩ : Source UInt8).Clean := List.not_mem_nil
  obtain ⟨s₁, h₁, hu₁, -⟩ := recvFrame_append hclean hf rfl
  obtain ⟨s₂, h₂, hu₂, -⟩ := recvFrame_append hclean hg heq
  obtain ⟨hfg, rfl⟩ := Prod.mk.inj (h₁.symm.trans h₂)
  exact ⟨Option.some.inj hfg, hu₁.symm.trans hu₂⟩

/-! ### Messages in turn -/

/-- Sends each message in turn. -/
def sendAll {M : Type} (send : Sink UInt8 → M → Bool × Sink UInt8) :
    Sink UInt8 → List M → List Bool × Sink UInt8
  | u, [] => ([], u)
  | u, m :: ms =>
    let (ok, u) := send u m
    let (oks, u) := sendAll send u ms
    (ok :: oks, u)

/-- Receives `n` times. -/
def recvAll {M : Type} (recv : Source UInt8 → Option M × Source UInt8) :
    Source UInt8 → Nat → List (Option M) × Source UInt8
  | s, 0 => ([], s)
  | s, n + 1 =>
    let (m, s) := recv s
    let (ms, s) := recvAll recv s n
    (m :: ms, s)

section Messages

variable {M : Type} {send : Sink UInt8 → M → Bool × Sink UInt8}
  {recv : Source UInt8 → Option M × Source UInt8} {toFrame : M → Frame} {ofFrame : Frame → M}

/-- The messages that are not too large. -/
def kept (toFrame : M → Frame) (ms : List M) : List M := ms.filter fun m => (toFrame m).Fits

theorem sendAll_eq (hsend : ∀ u m, send u m = sendFrame u (toFrame m)) (ms : List M)
    (hc : u.Clean) :
    ∃ v, sendAll send u ms = (ms.map fun m => decide (toFrame m).Fits, v) ∧
      v.sent = u.sent ++ (kept toFrame ms).flatMap (fun m => (toFrame m).encode) := by
  induction ms generalizing u with
  | nil => exact ⟨u, rfl, (List.append_nil _).symm⟩
  | cons m ms ih =>
    by_cases hfit : (toFrame m).Fits
    · obtain ⟨v, hv, hsent, hvc⟩ := sendFrame_of_fits hc hfit
      obtain ⟨w, hw, hwsent⟩ := ih hvc
      refine ⟨w, ?_, ?_⟩
      · simp only [sendAll, hsend, hv, hw, List.map_cons, hfit, decide_true]
      · rw [hwsent, hsent, kept, kept, List.filter_cons_of_pos (by simpa using hfit),
          List.flatMap_cons, List.append_assoc]
    · obtain ⟨w, hw, hwsent⟩ := ih hc
      refine ⟨w, ?_, ?_⟩
      · simp only [sendAll, hsend, sendFrame_of_not_fits hfit, hw, List.map_cons, hfit,
          decide_false]
      · rw [hwsent, kept, kept, List.filter_cons_of_neg (by simpa using hfit)]

theorem recvAll_eq (hrecv : ∀ s, recv s = ((recvFrame s).1.map ofFrame, (recvFrame s).2))
    (hinv : ∀ m, ofFrame (toFrame m) = m) (ms : List M) (hfits : ∀ m ∈ ms, (toFrame m).Fits)
    (hc : s.Clean) (hu : s.unread = ms.flatMap (fun m => (toFrame m).encode) ++ rest) :
    ∃ t, recvAll recv s ms.length = (ms.map some, t) ∧ t.unread = rest := by
  induction ms generalizing s with
  | nil => exact ⟨s, rfl, hu⟩
  | cons m ms ih =>
    rw [List.flatMap_cons, List.append_assoc] at hu
    obtain ⟨hm, hms⟩ := List.forall_mem_cons.mp hfits
    obtain ⟨t, ht, hut, htc⟩ := recvFrame_append hc hm hu
    obtain ⟨w, hw, hwu⟩ := ih hms htc hut
    refine ⟨w, ?_, hwu⟩
    simp only [List.length_cons, recvAll, hrecv, ht, hw, List.map_cons, Option.map_some, hinv]

end Messages

/-! ### Round trips -/

/-- Whatever way the writes and the reads are cut: each message is accepted
exactly if its payload is not too large, those accepted are received in order,
and nothing is left. -/
def RoundTrips {M : Type} (payload : M → List UInt8) (send : Sink UInt8 → M → Bool × Sink UInt8)
    (recv : Source UInt8 → Option M × Source UInt8) : Prop :=
  ∀ (ms : List M) (u : Sink UInt8) (s : Source UInt8), u.Clean → s.Clean → u.sent = [] →
    s.unread = (sendAll send u ms).2.sent →
    let accepted := ms.filter fun m => (payload m).length ≤ kMaxPayloadBytes
    (sendAll send u ms).1 = ms.map (fun m => decide ((payload m).length ≤ kMaxPayloadBytes)) ∧
      (recvAll recv s accepted.length).1 = accepted.map some ∧
      (recvAll recv s accepted.length).2.unread = []

theorem roundTrips {M : Type} {send : Sink UInt8 → M → Bool × Sink UInt8}
    {recv : Source UInt8 → Option M × Source UInt8} (toFrame : M → Frame) (ofFrame : Frame → M)
    (hsend : ∀ u m, send u m = sendFrame u (toFrame m))
    (hrecv : ∀ s, recv s = ((recvFrame s).1.map ofFrame, (recvFrame s).2))
    (hinv : ∀ m, ofFrame (toFrame m) = m) :
    RoundTrips (fun m => (toFrame m).payload) send recv := by
  intro ms u s hu hs hsent hwire
  obtain ⟨v, hv, hvsent⟩ := sendAll_eq hsend ms hu
  rw [hv, hvsent, hsent, List.nil_append, ← List.append_nil (List.flatMap _ _)] at hwire
  have hfits : ∀ m ∈ kept toFrame ms, (toFrame m).Fits := by
    intro m hm
    simpa using (List.mem_filter.mp hm).2
  obtain ⟨t, ht, htu⟩ := recvAll_eq hrecv hinv (kept toFrame ms) hfits hs hwire
  refine ⟨by rw [hv]; rfl, ?_⟩
  show (recvAll recv s (kept toFrame ms).length).1 = _ ∧
    (recvAll recv s (kept toFrame ms).length).2.unread = []
  rw [ht]
  exact ⟨rfl, htu⟩

/-- **What is sent is received**, and a message that is too large leaves no
trace on the stream. -/
theorem framing_round_trip :
    RoundTrips Request.payload sendRequest recvRequest ∧
      RoundTrips Response.payload sendResponse recvResponse ∧
      (∀ u (r : Request), kMaxPayloadBytes < r.payload.length → sendRequest u r = (false, u)) ∧
      ∀ u (r : Response), kMaxPayloadBytes < r.payload.length → sendResponse u r = (false, u) := by
  refine ⟨roundTrips Request.frame Frame.request (fun _ _ => rfl) (fun _ => rfl) (fun _ => rfl),
    roundTrips Response.frame Frame.response (fun _ _ => rfl) (fun _ => rfl) (fun _ => rfl), ?_, ?_⟩
  · intro u r hlen
    exact sendFrame_of_not_fits (f := r.frame) (Nat.not_le.mpr hlen)
  · intro u r hlen
    exact sendFrame_of_not_fits (f := r.frame) (Nat.not_le.mpr hlen)

/-- Two requests, written in pieces of at most 3 bytes and read in pieces of 1
and 7. -/
theorem framing_round_trip_cut :
    let u : Sink UInt8 := ⟨[], [.upTo 3, .upTo 3, .upTo 3]⟩
    let rs : List Request := [⟨7, 1, [10, 20]⟩, ⟨0xFFFFFFFF, 0, []⟩]
    let s : Source UInt8 := ⟨(sendAll sendRequest u rs).2.sent, [.upTo 1, .upTo 7, .upTo 1], .eof⟩
    (sendAll sendRequest u rs).1 = [true, true] ∧
      (recvAll recvRequest s 2).1 = rs.map some ∧ (recvAll recvRequest s 2).2.unread = [] :=
  framing_round_trip.1 _ _ _ (by decide : Reply.error ∉ _) (by decide : Reply.error ∉ _) rfl rfl

end HftComponents.Tcp
