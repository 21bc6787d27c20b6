import HftComponents.Lib.PrefixCode
import HftComponents.Lib.Transfer

/-!
# The wire protocol

`protocol.cpp`: the loops that make full transfers of partial ones, and the
frames `[4B length][4B id][1B type or status][payload]` built on them.

A request and a response differ on the wire only in what the fifth byte after
the length is called, and their functions are the same code; both are
`sendFrame` and `recvFrame` on the fields of the message.

How the stream is cut does not show: `sendExact` appends its bytes
(`sendExact_clean`), `recvExact` takes its bytes off the stream, or fails at its
end (`recvExact_append`, `recvExact_none`).
-/

namespace HftComponents.Tcp

open Lib.Transfer

def kMaxPayloadBytes : Nat := 65535

/-- `enum class StatusCode : uint8_t`, which holds any byte. -/
structure StatusCode where
  byte : UInt8
  deriving DecidableEq, Repr

structure Request where
  id : UInt32
  type : UInt8
  payload : List UInt8
  deriving DecidableEq, Repr

structure Response where
  id : UInt32
  status : StatusCode
  payload : List UInt8
  deriving DecidableEq, Repr

/-! ### Full transfers -/

/-- Reads `remaining` bytes, or `none` where the code returns `false`. -/
def recvExact (s : Source UInt8) (remaining : Nat) : Option (List UInt8) × Source UInt8 :=
  if hn : remaining = 0 then (some [], s)
  else
    match h : s.read remaining with
    | (.ok bs, t) =>
      let r := recvExact t (remaining - bs.length)
      (r.1.map (bs ++ ·), r.2)
    | (.error _, t) => (none, t)
termination_by remaining
decreasing_by
  have hlen := List.length_pos_iff.mpr (Source.read_ok h (Nat.pos_of_ne_zero hn)).2.1
  omega

/-- Writes all of `bs`, or returns `false`. -/
def sendExact (s : Sink UInt8) (bs : List UInt8) : Bool × Sink UInt8 :=
  if hbs : bs = [] then (true, s)
  else
    match h : s.write bs with
    | (some m, t) => sendExact t (bs.drop m)
    | (none, t) => (false, t)
termination_by bs.length
decreasing_by
  have hm := Sink.write_some h hbs
  have hlen := List.length_pos_iff.mpr hbs
  rw [List.length_drop]
  omega

/-! ### Frames -/

/-- A 32-bit word in network byte order. -/
def htonl (x : UInt32) : List UInt8 :=
  [UInt8.ofNat (x.toNat / 2 ^ 24), UInt8.ofNat (x.toNat / 2 ^ 16), UInt8.ofNat (x.toNat / 2 ^ 8),
    UInt8.ofNat x.toNat]

def ntohl : List UInt8 → UInt32
  | [a, b, c, d] =>
    UInt32.ofNat (a.toNat * 2 ^ 24 + b.toNat * 2 ^ 16 + c.toNat * 2 ^ 8 + d.toNat)
  | _ => 0

/-- What a request and a response put on the wire. -/
structure Frame where
  id : UInt32
  kind : UInt8
  payload : List UInt8
  deriving DecidableEq, Repr

def sendFrame (s : Sink UInt8) (f : Frame) : Bool × Sink UInt8 :=
  if kMaxPayloadBytes < f.payload.length then (false, s)
  else
    let bodyLen := 5 + UInt32.ofNat f.payload.length
    let (ok, s) := sendExact s (htonl bodyLen)
    if !ok then (false, s)
    else
      let (ok, s) := sendExact s (htonl f.id)
      if !ok then (false, s)
      else
        let (ok, s) := sendExact s [f.kind]
        if !ok then (false, s)
        else if f.payload ≠ [] then sendExact s f.payload
        else (true, s)

/-- What a receiver that fails leaves in `out` is not kept: its callers do not
look at it. -/
def recvFrame (s : Source UInt8) : Option Frame × Source UInt8 :=
  match recvExact s 4 with
  | (none, s) => (none, s)
  | (some netLen, s) =>
    let bodyLen := ntohl netLen
    if bodyLen < 5 ∨ kMaxPayloadBytes < (bodyLen - 5).toNat then (none, s)
    else
      match recvExact s 4 with
      | (none, s) => (none, s)
      | (some netId, s) =>
        match recvExact s 1 with
        | (none, s) => (none, s)
        | (some kind, s) =>
          let payloadLen := (bodyLen - 5).toNat
          if 0 < payloadLen then
            match recvExact s payloadLen with
            | (none, s) => (none, s)
            | (some payload, s) => (some ⟨ntohl netId, kind.headD 0, payload⟩, s)
          else (some ⟨ntohl netId, kind.headD 0, []⟩, s)

def Request.frame (r : Request) : Frame := ⟨r.id, r.type, r.payload⟩

def Frame.request (f : Frame) : Request := ⟨f.id, f.kind, f.payload⟩

def Response.frame (r : Response) : Frame := ⟨r.id, r.status.byte, r.payload⟩

def Frame.response (f : Frame) : Response := ⟨f.id, ⟨f.kind⟩, f.payload⟩

def sendRequest (s : Sink UInt8) (r : Request) : Bool × Sink UInt8 := sendFrame s r.frame

def sendResponse (s : Sink UInt8) (r : Response) : Bool × Sink UInt8 := sendFrame s r.frame

def recvRequest (s : Source UInt8) : Option Request × Source UInt8 :=
  let (f, s) := recvFrame s
  (f.map Frame.request, s)

def recvResponse (s : Source UInt8) : Option Response × Source UInt8 :=
  let (f, s) := recvFrame s
  (f.map Frame.response, s)

/-! ### What full transfers do -/

variable {s t : Source UInt8} {u v : Sink UInt8} {n : Nat} {bs rest : List UInt8}

theorem recvExact_some (h : recvExact s n = (some bs, t)) :
    bs.length = n ∧ s.unread = bs ++ t.unread ∧ (s.Clean → t.Clean) := by
  induction n using Nat.strong_induction_on generalizing s bs with
  | _ n ih =>
    rw [recvExact] at h
    split at h
    · rename_i hn
      obtain ⟨hbs, rfl⟩ := Prod.mk.inj h
      obtain rfl := Option.some.inj hbs
      exact ⟨hn.symm, rfl, id⟩
    · rename_i hn
      split at h
      · rename_i xs t' hread
        obtain ⟨heq, hne, hlen, hclean⟩ := Source.read_ok hread (Nat.pos_of_ne_zero hn)
        have hpos := List.length_pos_iff.mpr hne
        obtain ⟨hbs, rfl⟩ := Prod.mk.inj h
        obtain ⟨ys, hys, rfl⟩ := Option.map_eq_some_iff.mp hbs
        obtain ⟨hylen, hyeq, hyclean⟩ := ih (n - xs.length) (by omega) (Prod.ext hys rfl)
        refine ⟨?_, ?_, ?_⟩
        · rw [List.length_append, hylen]
          omega
        · rw [heq, hyeq, List.append_assoc]
        · intro hc
          exact hyclean (hclean hc)
      · cases h

/-- Only the end of the stream stops a reader. -/
theorem recvExact_none (h : recvExact s n = (none, t)) (hc : s.Clean) :
    s.unread.length < n ∧ t.unread = [] ∧ t.Clean := by
  induction n using Nat.strong_induction_on generalizing s with
  | _ n ih =>
    rw [recvExact] at h
    split at h
    · cases h
    · rename_i hn
      split at h
      · rename_i xs t' hread
        obtain ⟨heq, hne, hlen, hclean⟩ := Source.read_ok hread (Nat.pos_of_ne_zero hn)
        have hpos := List.length_pos_iff.mpr hne
        obtain ⟨hbs, rfl⟩ := Prod.mk.inj h
        have hys := Option.map_eq_none_iff.mp hbs
        obtain ⟨hlt, hrest⟩ := ih (n - xs.length) (by omega) (Prod.ext hys rfl) (hclean hc)
        refine ⟨?_, hrest⟩
        rw [heq, List.length_append]
        omega
      · rename_i e t' hread
        obtain ⟨-, rfl⟩ := Prod.mk.inj h
        obtain ⟨hu, hu', hc'⟩ := Source.read_error hread hc
        refine ⟨?_, hu', hc'⟩
        rw [hu]
        exact Nat.pos_of_ne_zero hn

theorem recvExact_append (hc : s.Clean) (hu : s.unread = bs ++ rest) :
    ∃ t, recvExact s bs.length = (some bs, t) ∧ t.unread = rest ∧ t.Clean := by
  rcases h : recvExact s bs.length with ⟨r, t⟩
  cases r with
  | none =>
    have hlt := (recvExact_none h hc).1
    rw [hu, List.length_append] at hlt
    omega
  | some xs =>
    obtain ⟨hlen, heq, hclean⟩ := recvExact_some h
    obtain ⟨rfl, rfl⟩ := List.append_inj (hu.symm.trans heq) hlen.symm
    exact ⟨t, rfl, rfl, hclean hc⟩

theorem sendExact_clean (hc : u.Clean) (bs : List UInt8) :
    ∃ v, sendExact u bs = (true, v) ∧ v.sent = u.sent ++ bs ∧ v.Clean := by
  induction hn : bs.length using Nat.strong_induction_on generalizing u bs with
  | _ n ih =>
    rw [sendExact]
    split
    · rename_i hbs
      subst hbs
      exact ⟨u, rfl, (List.append_nil _).symm, hc⟩
    · rename_i hbs
      split
      · rename_i m v hwrite
        obtain ⟨hpos, hle, hsent, hclean⟩ := Sink.write_some hwrite hbs
        have hlen : (bs.drop m).length < n := by
          rw [List.length_drop]
          omega
        obtain ⟨w, hw, hwsent, hwc⟩ := ih _ hlen (hclean hc) _ rfl
        refine ⟨w, hw, ?_, hwc⟩
        rw [hwsent, hsent, List.append_assoc, List.take_append_drop]
      · rename_i v hwrite
        exact absurd hc (Sink.write_ne_none hwrite)

end HftComponents.Tcp
