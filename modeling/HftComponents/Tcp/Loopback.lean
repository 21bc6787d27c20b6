import HftComponents.Lib.Duplex
import HftComponents.Lib.Framed
import HftComponents.Tcp.Connection

/-!
# A client and the connection that serves it

`TcpClient::send` and `TcpClient::recv` at one end, `TcpServer::handle_connection`
at the other, and the socket buffers between them.  Each `::send` and each
`::recv` is a step, which moves as much as it may.

A frame that is being sent is the list of what is left of its parts, one for
each call of `send_exact` (`parts_flatten`); one that is being received is the
bytes that have come, and these say what the next `::recv` asks for
(`delimits_progress`).  In every run an end makes of its bytes what `recvFrame` makes
of them (`receives_as_recvFrame`).

Whatever the client calls and however the steps interleave, the handler gets
the requests that were sent and the client the responses to them, in order and
from the first (`loopback_in_order`).
-/

namespace HftComponents.Tcp

open Lib.Transfer Lib.Framed Lib.Duplex

/-! ### Frames step by step -/

/-- What `send_request` and `send_response` pass to `send_exact`. -/
def parts (f : Frame) : List (List UInt8) :=
  [htonl (5 + UInt32.ofNat f.payload.length), htonl f.id, [f.kind]] ++
    if f.payload = [] then [] else [f.payload]

/-- The parts, when `m` bytes of the first have been written. -/
def advance (part : List UInt8) (m : Nat) (rest : List (List UInt8)) : List (List UInt8) :=
  if part.drop m = [] then rest else part.drop m :: rest

/-- What `recv_request` and `recv_response` do when the bytes `got` have come. -/
def progress (got : List UInt8) : Progress Frame :=
  if got.length < 4 then .more (4 - got.length)
  else
    let bodyLen := ntohl (got.take 4)
    if bodyLen < 5 ∨ kMaxPayloadBytes < (bodyLen - 5).toNat then .reject
    else
      let payloadLen := (bodyLen - 5).toNat
      if got.length < 8 then .more (8 - got.length)
      else if got.length < 9 then .more (9 - got.length)
      else if got.length < 9 + payloadLen then .more (9 + payloadLen - got.length)
      else .whole ⟨ntohl ((got.drop 4).take 4), (got.drop 8).headD 0, got.drop 9⟩

theorem parts_flatten (f : Frame) : (parts f).flatten = f.encode := by
  rw [parts, Frame.encode]
  split
  · rename_i h
    rw [h]
    rfl
  · simp

theorem ne_nil_of_mem_parts {f : Frame} : ∀ part ∈ parts f, part ≠ [] := by
  intro part hmem
  simp only [parts, List.mem_append, List.mem_cons, List.not_mem_nil, or_false] at hmem
  rcases hmem with (rfl | rfl | rfl) | hmem
  · exact List.cons_ne_nil _ _
  · exact List.cons_ne_nil _ _
  · exact List.cons_ne_nil _ _
  · split at hmem
    · cases hmem
    · rename_i h
      rw [List.mem_singleton.mp hmem]
      exact h

theorem advance_flatten (part : List UInt8) (m : Nat) (rest : List (List UInt8)) :
    (part :: rest).flatten = part.take m ++ (advance part m rest).flatten := by
  rw [advance, List.flatten_cons]
  conv_lhs => rw [← List.take_append_drop m part, List.append_assoc]
  split
  · rename_i h
    rw [h, List.nil_append]
  · rw [List.flatten_cons]

theorem ne_nil_of_mem_advance {part : List UInt8} {m : Nat} {rest : List (List UInt8)}
    (h : ∀ p ∈ part :: rest, p ≠ []) : ∀ p ∈ advance part m rest, p ≠ [] := by
  intro p hmem
  rw [advance] at hmem
  split at hmem
  · exact h p (List.mem_cons_of_mem _ hmem)
  · rename_i hne
    rcases List.mem_cons.mp hmem with rfl | hmem
    · exact hne
    · exact h p (List.mem_cons_of_mem _ hmem)

theorem length_encode_eq (f : Frame) : f.encode.length = 9 + f.payload.length := by
  simp only [Frame.encode, htonl, List.length_append, List.length_cons, List.length_nil]
  omega

theorem progress_of_isPrefix {f : Frame} {got : List UInt8} (hf : f.Fits) (h : got <+: f.encode) :
    (got = f.encode ∧ progress got = .whole f) ∨
      ∃ n, 0 < n ∧ progress got = .more n ∧ got.length + n ≤ f.encode.length := by
  have hmax : f.payload.length ≤ kMaxPayloadBytes := hf
  have hlen := toNat_bodyLen hf
  have hok : ¬ (5 + UInt32.ofNat f.payload.length < 5 ∨
      kMaxPayloadBytes < (5 + UInt32.ofNat f.payload.length - 5).toNat) := by
    rw [bodyLen_rejected_iff, hlen]
    omega
  have hpay : (5 + UInt32.ofNat f.payload.length - 5).toNat = f.payload.length := by
    rw [(toNat_payloadLen hok).1, hlen]
    omega
  have hle := h.length_le
  rw [length_encode_eq] at hle ⊢
  by_cases h4 : got.length < 4
  · right
    exact ⟨4 - got.length, by omega, by rw [progress, if_pos h4], by omega⟩
  have htake : got.take 4 = htonl (5 + UInt32.ofNat f.payload.length) := by
    have hfour := List.prefix_iff_eq_take.mp ((List.take_prefix 4 got).trans h)
    rw [List.length_take, Nat.min_eq_left (Nat.not_lt.mp h4)] at hfour
    rw [hfour]
    rfl
  rw [progress, if_neg h4]
  dsimp only
  rw [htake, ntohl_htonl, if_neg hok, hpay]
  by_cases h8 : got.length < 8
  · right
    exact ⟨8 - got.length, by omega, by rw [if_pos h8], by omega⟩
  rw [if_neg h8]
  by_cases h9 : got.length < 9
  · right
    exact ⟨9 - got.length, by omega, by rw [if_pos h9], by omega⟩
  rw [if_neg h9]
  by_cases hwhole : got.length < 9 + f.payload.length
  · right
    exact ⟨9 + f.payload.length - got.length, by omega, by rw [if_pos hwhole], by omega⟩
  · left
    rw [if_neg hwhole]
    obtain rfl : got = f.encode := by
      apply h.eq_of_length
      rw [length_encode_eq]
      omega
    refine ⟨rfl, ?_⟩
    have hid : (f.encode.drop 4).take 4 = htonl f.id := rfl
    rw [hid, ntohl_htonl]
    rfl

theorem delimits_progress : Delimits Frame.encode Frame.Fits progress where
  start := ⟨4, by decide, rfl⟩
  inside _ _ hf h := progress_of_isPrefix hf h

/-- The length of a payload, once the length field has come. -/
def payloadLen (got : List UInt8) : Nat := (ntohl (got.take 4) - 5).toNat

def LengthOk (got : List UInt8) : Prop :=
  ¬ (ntohl (got.take 4) < 5 ∨ kMaxPayloadBytes < payloadLen got)

/-- What the bytes say of a receiver. -/
inductive Receiver (got : List UInt8) : Progress Frame → Prop
  | length (h : got.length < 4) : Receiver got (.more (4 - got.length))
  | reject (hlen : 4 ≤ got.length) (hbad : ¬ LengthOk got) : Receiver got .reject
  | more {n : Nat} (hlen : 4 ≤ got.length) (hok : LengthOk got) (hpos : 0 < n)
      (hn : got.length + n ≤ 9 + payloadLen got) : Receiver got (.more n)
  | whole (hok : LengthOk got) (hlen : 9 + payloadLen got ≤ got.length) :
      Receiver got (.whole ⟨ntohl ((got.drop 4).take 4), (got.drop 8).headD 0, got.drop 9⟩)

theorem receiver (got : List UInt8) : Receiver got (progress got) := by
  rw [progress]
  split
  · rename_i h4
    exact .length h4
  · rename_i h4
    have hlen := Nat.not_lt.mp h4
    dsimp only
    split
    · rename_i hbad
      exact .reject hlen (not_not.mpr hbad)
    · rename_i hok
      split
      · exact .more hlen hok (by omega) (by omega)
      · split
        · exact .more hlen hok (by omega) (by omega)
        · split
          · exact .more hlen hok (by omega) (show _ ≤ 9 + (ntohl (got.take 4) - 5).toNat by omega)
          · rename_i hwhole
            exact .whole hok (Nat.not_lt.mp hwhole)

theorem pos_of_more {got : List UInt8} {n : Nat} (h : progress got = .more n) : 0 < n := by
  have hr := receiver got
  rw [h] at hr
  cases hr with
  | length h4 => omega
  | more hlen hok hpos hn => exact hpos

/-- The bytes that a receiver may have: it never reads more than it asks for. -/
inductive Reading : List UInt8 → Prop
  | nil : Reading []
  | append {got bs : List UInt8} {n : Nat} (prior : Reading got) (h : progress got = .more n)
      (hlen : bs.length ≤ n) : Reading (got ++ bs)

/-- They are at most the frame that the first four announce. -/
theorem Reading.bound {got : List UInt8} (h : Reading got) :
    got.length ≤ 4 ∨ (LengthOk got ∧ got.length ≤ 9 + payloadLen got) := by
  cases h with
  | nil => exact .inl (by decide)
  | @append got bs n prior h hlen =>
    have hr := receiver got
    rw [h] at hr
    cases hr with
    | length h4 =>
      left
      rw [List.length_append]
      omega
    | more h4 hok hpos hn =>
      right
      have htake : (got ++ bs).take 4 = got.take 4 := List.take_append_of_le_length h4
      rw [LengthOk, payloadLen, htake, List.length_append]
      exact ⟨hok, by rw [payloadLen] at hn; omega⟩

/-- A receiver that is done has the code of the frame. -/
theorem Reading.encode_of_whole {got : List UInt8} {f : Frame} (h : Reading got)
    (hp : progress got = .whole f) : f.Fits ∧ got = f.encode := by
  have hr := receiver got
  rw [hp] at hr
  cases hr with
  | whole hok hge =>
    have hlen : got.length = 9 + payloadLen got := by
      have hbound := h.bound
      omega
    obtain ⟨k, rest, hk⟩ := List.exists_cons_of_length_pos
      (show 0 < (got.drop 8).length by rw [List.length_drop]; omega)
    have hpayload : rest = got.drop 9 := by rw [← List.tail_drop, hk, List.tail_cons]
    obtain ⟨hfits, hcode⟩ := @encode_of_parts (got.take 4) ((got.drop 4).take 4) [k] (got.drop 9)
      (by rw [List.length_take]; omega) (by rw [List.length_take, List.length_drop]; omega) rfl hok
      (by rw [List.length_drop, ← payloadLen]; omega)
    rw [hk]
    refine ⟨hfits, ?_⟩
    rw [List.headD_cons] at hcode ⊢
    rw [hcode, ← hpayload, List.singleton_append, ← hk, ← List.drop_drop (i := 4) (j := 4),
      List.take_append_drop, List.take_append_drop]

/-- When a receiver is done with its bytes, `recvFrame` returns the same, and has read no
more than them. -/
def AsRecvFrame (got : List UInt8) : Prop :=
  ∀ (s : Source UInt8) (rest : List UInt8), s.Clean → s.unread = got ++ rest →
    (∀ f, progress got = .whole f → ∃ t, recvFrame s = (some f, t) ∧ t.unread = rest) ∧
      (progress got = .reject → ∃ t, recvFrame s = (none, t) ∧ t.unread = rest)

theorem Reading.asRecvFrame {got : List UInt8} (h : Reading got) : AsRecvFrame got := by
  intro s rest hc hu
  constructor
  · intro f hp
    obtain ⟨hfits, rfl⟩ := h.encode_of_whole hp
    obtain ⟨t, ht, htu, -⟩ := recvFrame_append hc hfits hu
    exact ⟨t, ht, htu⟩
  · intro hp
    have hr := receiver got
    rw [hp] at hr
    cases hr with
    | reject hge hbad =>
      have hlen : got.length = 4 := by
        rcases h.bound with hle | ⟨hok, -⟩
        · omega
        · exact absurd hok hbad
      obtain ⟨t, ht, htu, -⟩ := recvExact_append hc hu
      rw [hlen] at ht
      rw [LengthOk, payloadLen, not_not, ← hlen, List.take_length] at hbad
      exact ⟨t, by rw [recvFrame, ht]; exact if_pos hbad, htu⟩

namespace Loopback

/-! ### The two ends -/

/-- What the user of a `TcpClient` calls. -/
inductive Call
  | send (req : Request)
  | recv
  deriving DecidableEq, Repr

/-- What the client's calls return, when the handler is called, and the `close` of
each end. -/
inductive Event
  | sent (req : Request) (ok : Bool)
  | received (resp : Option Response)
  | disconnected
  | called (req : Request)
  | closed
  deriving DecidableEq, Repr

/-- Where the client is; in `refused` and `ended` a transfer has failed. -/
inductive Phase
  | ready
  | sending (req : Request) (parts : List (List UInt8))
  | refused (req : Request)
  | receiving (got : List UInt8)
  | ended
  | closed
  deriving DecidableEq, Repr

/-- `calls` are those after the one under way.  At the end of its scope the client
is destroyed. -/
structure Client where
  calls : List Call
  phase : Phase := .ready
  deriving DecidableEq, Repr

def Client.intent (c : Client) : Intent Client UInt8 Event :=
  match c.phase with
  | .ready =>
    match c.calls with
    | [] => .turn { c with phase := .closed } [.disconnected]
    | .send req :: calls =>
      if kMaxPayloadBytes < req.payload.length then .turn ⟨calls, .ready⟩ [.sent req false]
      else .turn ⟨calls, .sending req (parts req.frame)⟩ []
    | .recv :: calls => .turn ⟨calls, .receiving []⟩ []
  | .sending req [] => .turn { c with phase := .ready } [.sent req true]
  | .sending req (part :: rest) =>
    .write part fun
      | none => { c with phase := .refused req }
      | some m => { c with phase := .sending req (advance part m rest) }
  | .refused req => .turn { c with phase := .ready } [.sent req false]
  | .receiving got =>
    match progress got with
    | .more n =>
      .read n fun
        | none => { c with phase := .ended }
        | some bs => { c with phase := .receiving (got ++ bs) }
    | .reject => .turn { c with phase := .ready } [.received none]
    | .whole f => .turn { c with phase := .ready } [.received (some f.response)]
  | .ended => .turn { c with phase := .ready } [.received none]
  | .closed => .halt

/-- Where `handle_connection` is, with what the handler keeps between calls. -/
inductive Server (σ : Type)
  | reading (state : σ) (got : List UInt8)
  | sending (state : σ) (parts : List (List UInt8))
  | closing
  | closed
  deriving DecidableEq, Repr

variable {σ : Type}

def Server.intent (handler : σ → Request → σ × Response) :
    Server σ → Intent (Server σ) UInt8 Event
  | .reading state got =>
    match progress got with
    | .more n =>
      .read n fun
        | none => .closing
        | some bs => .reading state (got ++ bs)
    | .reject => .turn .closing []
    | .whole f =>
      let (state, resp) := handler state f.request
      .turn
        (if kMaxPayloadBytes < resp.payload.length then .closing
          else .sending state (parts resp.frame))
        [.called f.request]
  | .sending state [] => .turn (.reading state []) []
  | .sending state (part :: rest) =>
    .write part fun
      | none => .closing
      | some m => .sending state (advance part m rest)
  | .closing => .turn .closed [.closed]
  | .closed => .halt

/-- What is between the two ends: the sizes of the socket buffers, and whether the
server has set a timeout. -/
structure Network where
  upCap : Nat
  downCap : Nat
  timeout : Bool := false
  deriving DecidableEq, Repr

def link (net : Network) (handler : σ → Request → σ × Response) :
    Link Client (Server σ) UInt8 Event where
  left := Client.intent
  right := Server.intent handler
  upCap := net.upCap
  downCap := net.downCap
  rightTimeout := net.timeout

abbrev Conn (σ : Type) := Lib.Duplex.State Client (Server σ) UInt8

def machine (net : Network) (handler : σ → Request → σ × Response) :
    Lib.Machine (Conn σ) Label Event := (link net handler).machine

/-- A new connection. -/
def start (state : σ) (calls : List Call) : Conn σ :=
  { left := ⟨calls, .ready⟩, right := .reading state [] }

/-! ### What a step may be -/

/-- A step of the client; `closed` says that the server has closed. -/
inductive ClientStep (cap : Nat) (closed : Bool) (down up : List UInt8) :
    Client → Moved Client UInt8 Event → Prop
  | disconnect :
      ClientStep cap closed down up ⟨[], .ready⟩ ⟨⟨[], .closed⟩, down, up, [.disconnected]⟩
  | tooLarge {req : Request} {calls : List Call} (hlarge : ¬ req.frame.Fits) :
      ClientStep cap closed down up ⟨.send req :: calls, .ready⟩
        ⟨⟨calls, .ready⟩, down, up, [.sent req false]⟩
  | send {req : Request} {calls : List Call} (hfits : req.frame.Fits) :
      ClientStep cap closed down up ⟨.send req :: calls, .ready⟩
        ⟨⟨calls, .sending req (parts req.frame)⟩, down, up, []⟩
  | recv {calls : List Call} :
      ClientStep cap closed down up ⟨.recv :: calls, .ready⟩ ⟨⟨calls, .receiving []⟩, down, up, []⟩
  | sent {req : Request} {calls : List Call} :
      ClientStep cap closed down up ⟨calls, .sending req []⟩
        ⟨⟨calls, .ready⟩, down, up, [.sent req true]⟩
  | write {req : Request} {calls : List Call} {part : List UInt8} {rest : List (List UInt8)}
      {m : Nat} (hpos : 0 < m) (hle : part ≠ [] → m ≤ part.length)
      (hcap : up.length + (part.take m).length ≤ cap) :
      ClientStep cap closed down up ⟨calls, .sending req (part :: rest)⟩
        ⟨⟨calls, .sending req (advance part m rest)⟩, down, up ++ part.take m, []⟩
  | refused {req : Request} {calls : List Call} {part : List UInt8} {rest : List (List UInt8)}
      (hclosed : closed = true) :
      ClientStep cap closed down up ⟨calls, .sending req (part :: rest)⟩
        ⟨⟨calls, .refused req⟩, down, up, []⟩
  | returnRefused {req : Request} {calls : List Call} :
      ClientStep cap closed down up ⟨calls, .refused req⟩
        ⟨⟨calls, .ready⟩, down, up, [.sent req false]⟩
  | read {calls : List Call} {got bs rest : List UInt8} {n : Nat} (hp : progress got = .more n)
      (hdown : down = bs ++ rest) (hne : bs ≠ []) (hlen : 0 < n → bs.length ≤ n) :
      ClientStep cap closed down up ⟨calls, .receiving got⟩
        ⟨⟨calls, .receiving (got ++ bs)⟩, rest, up, []⟩
  | ended {calls : List Call} {got : List UInt8} (hclosed : closed = true) :
      ClientStep cap closed down up ⟨calls, .receiving got⟩
        ⟨⟨calls, .ended⟩, [], up, []⟩
  | returnEnded {calls : List Call} :
      ClientStep cap closed down up ⟨calls, .ended⟩ ⟨⟨calls, .ready⟩, down, up, [.received none]⟩
  | rejected {calls : List Call} {got : List UInt8} (hp : progress got = .reject) :
      ClientStep cap closed down up ⟨calls, .receiving got⟩
        ⟨⟨calls, .ready⟩, down, up, [.received none]⟩
  | received {calls : List Call} {got : List UInt8} {f : Frame} (hp : progress got = .whole f) :
      ClientStep cap closed down up ⟨calls, .receiving got⟩
        ⟨⟨calls, .ready⟩, down, up, [.received (some f.response)]⟩

theorem clientStep {cap : Nat} {closed : Bool} {down up : List UInt8} {c : Client}
    {m : Moved Client UInt8 Event} (h : Acts cap false closed down up c.intent m) :
    ClientStep cap closed down up c m := by
  obtain ⟨calls, phase⟩ := c
  cases phase with
  | ready =>
    cases calls with
    | nil =>
      cases h
      exact .disconnect
    | cons call calls =>
      cases call with
      | send req =>
        rw [Client.intent] at h
        dsimp only at h
        split at h
        · rename_i hlarge
          cases h
          exact .tooLarge (Nat.not_le.mpr hlarge)
        · rename_i hfits
          cases h
          exact .send (Nat.not_lt.mp hfits)
      | recv =>
        cases h
        exact .recv
  | sending req parts =>
    cases parts with
    | nil =>
      cases h
      exact .sent
    | cons part rest =>
      cases h with
      | accepted hpos hle hcap => exact .write hpos hle hcap
      | refused hclosed => exact .refused hclosed
  | receiving got =>
    rw [Client.intent] at h
    dsimp only at h
    split at h
    · rename_i n hp
      cases h with
      | delivered hdown hne hlen => exact .read hp hdown hne hlen
      | ended hend => exact .ended (hend.resolve_right Bool.false_ne_true)
    · rename_i hp
      cases h
      exact .rejected hp
    · rename_i f hp
      cases h
      exact .received hp
  | refused req =>
    cases h
    exact .returnRefused
  | ended =>
    cases h
    exact .returnEnded
  | closed => cases h

/-- A step of the server; `closed` says that the client has closed. -/
inductive ServerStep (handler : σ → Request → σ × Response) (cap : Nat) (timeout closed : Bool)
    (up down : List UInt8) : Server σ → Moved (Server σ) UInt8 Event → Prop
  | read {state : σ} {got bs rest : List UInt8} {n : Nat} (hp : progress got = .more n)
      (hup : up = bs ++ rest) (hne : bs ≠ []) (hlen : 0 < n → bs.length ≤ n) :
      ServerStep handler cap timeout closed up down (.reading state got)
        ⟨.reading state (got ++ bs), rest, down, []⟩
  | ended {state : σ} {got : List UInt8} (hend : closed = true ∨ timeout = true) :
      ServerStep handler cap timeout closed up down (.reading state got) ⟨.closing, [], down, []⟩
  | rejected {state : σ} {got : List UInt8} (hp : progress got = .reject) :
      ServerStep handler cap timeout closed up down (.reading state got) ⟨.closing, up, down, []⟩
  | tooLarge {state state' : σ} {got : List UInt8} {f : Frame} {resp : Response}
      (hp : progress got = .whole f) (hcall : handler state f.request = (state', resp))
      (hlarge : ¬ resp.frame.Fits) :
      ServerStep handler cap timeout closed up down (.reading state got)
        ⟨.closing, up, down, [.called f.request]⟩
  | call {state state' : σ} {got : List UInt8} {f : Frame} {resp : Response}
      (hp : progress got = .whole f) (hcall : handler state f.request = (state', resp))
      (hfits : resp.frame.Fits) :
      ServerStep handler cap timeout closed up down (.reading state got)
        ⟨.sending state' (parts resp.frame), up, down, [.called f.request]⟩
  | sent {state : σ} :
      ServerStep handler cap timeout closed up down (.sending state [])
        ⟨.reading state [], up, down, []⟩
  | write {state : σ} {part : List UInt8} {rest : List (List UInt8)} {m : Nat} (hpos : 0 < m)
      (hle : part ≠ [] → m ≤ part.length) (hcap : down.length + (part.take m).length ≤ cap) :
      ServerStep handler cap timeout closed up down (.sending state (part :: rest))
        ⟨.sending state (advance part m rest), up, down ++ part.take m, []⟩
  | refused {state : σ} {part : List UInt8} {rest : List (List UInt8)} (hclosed : closed = true) :
      ServerStep handler cap timeout closed up down (.sending state (part :: rest))
        ⟨.closing, up, down, []⟩
  | close : ServerStep handler cap timeout closed up down .closing ⟨.closed, up, down, [.closed]⟩

theorem serverStep {handler : σ → Request → σ × Response} {cap : Nat} {timeout closed : Bool}
    {up down : List UInt8} {srv : Server σ} {m : Moved (Server σ) UInt8 Event}
    (h : Acts cap timeout closed up down (srv.intent handler) m) :
    ServerStep handler cap timeout closed up down srv m := by
  cases srv with
  | reading state got =>
    rw [Server.intent] at h
    split at h
    · rename_i n hp
      cases h with
      | delivered hup hne hlen => exact .read hp hup hne hlen
      | ended hend => exact .ended hend
    · rename_i hp
      cases h
      exact .rejected hp
    · rename_i f hp
      rcases hcall : handler state f.request with ⟨state', resp⟩
      rw [hcall] at h
      cases h
      split
      · rename_i hlarge
        exact .tooLarge hp hcall (Nat.not_le.mpr hlarge)
      · rename_i hfits
        exact .call hp hcall (Nat.not_lt.mp hfits)
  | sending state parts =>
    cases parts with
    | nil =>
      cases h
      exact .sent
    | cons part rest =>
      cases h with
      | accepted hpos hle hcap => exact .write hpos hle hcap
      | refused hclosed => exact .refused hclosed
  | closing =>
    cases h
    exact .close
  | closed => cases h

/-! ### What is on the way -/

/-- The requests that the calls put on the wire. -/
def accepted (calls : List Call) : List Request :=
  calls.filterMap fun
    | .send req => if req.frame.Fits then some req else none
    | .recv => none

def sent (os : List Event) : List Request :=
  os.filterMap fun
    | .sent req true => some req
    | _ => none

def called (os : List Event) : List Request :=
  os.filterMap fun
    | .called req => some req
    | _ => none

def received (os : List Event) : List Response :=
  os.filterMap fun
    | .received resp => resp
    | _ => none

namespace Phase

/-- The request that is being sent. -/
@[simp] def current : Phase → List Request
  | .sending req _ => [req]
  | .ready | .refused _ | .receiving _ | .ended | .closed => []

@[simp] def unsent : Phase → List UInt8
  | .sending _ parts => parts.flatten
  | .ready | .refused _ | .receiving _ | .ended | .closed => []

@[simp] def got : Phase → List UInt8
  | .receiving got => got
  | .ready | .sending _ _ | .refused _ | .ended | .closed => []

end Phase

namespace Server

/-- It has not left the loop of `handle_connection`. -/
@[simp] def serving : Server σ → Bool
  | .reading _ _ | .sending _ _ => true
  | .closing | .closed => false

@[simp] def unsent : Server σ → List UInt8
  | .sending _ parts => parts.flatten
  | .reading _ _ | .closing | .closed => []

@[simp] def got : Server σ → List UInt8
  | .reading _ got => got
  | .sending _ _ | .closing | .closed => []

@[simp] def state : Server σ → Option σ
  | .reading state _ | .sending state _ => some state
  | .closing | .closed => none

theorem eq_closed_of_halted {handler : σ → Request → σ × Response} {srv : Server σ}
    (h : (srv.intent handler).halted = true) : srv = .closed := by
  cases srv with
  | closed => rfl
  | closing => cases h
  | sending state parts => cases parts <;> cases h
  | reading state got =>
    rw [Server.intent] at h
    split at h <;> cases h

theorem serving_of_halted (handler : σ → Request → σ × Response) {srv : Server σ}
    (h : (srv.intent handler).halted = true) : srv.serving = false := by
  rw [eq_closed_of_halted h]
  rfl

end Server

theorem delimits_request : Delimits Request.encode Request.Fits
    (fun got => (progress got).map Frame.request) :=
  delimits_progress.map fun _ => rfl

theorem delimits_response : Delimits Response.encode (fun r : Response => r.frame.Fits)
    (fun got => (progress got).map Frame.response) :=
  delimits_progress.map fun _ => rfl

theorem fits_of_mem_accepted {calls : List Call} : ∀ r ∈ accepted calls, r.Fits := by
  intro r hr
  obtain ⟨call, -, hcall⟩ := List.mem_filterMap.mp hr
  cases call with
  | recv => cases hcall
  | send req =>
    simp only [Option.ite_none_right_eq_some, Option.some.injEq] at hcall
    obtain ⟨hfits, rfl⟩ := hcall
    exact hfits

section Books

variable {handler : σ → Request → σ × Response} {calls : List Call} {os : List Event}

/-- On the way to the server: what was sent is what the handler was called with,
and what lies in between. -/
structure Upward (calls : List Call) (os : List Event) (c : Client) (srv : Server σ)
    (up : List UInt8) : Prop where
  plan : srv.serving = true → accepted calls = sent os ++ c.phase.current ++ accepted c.calls
  flow : srv.serving = true →
    Flow Request.encode (sent os ++ c.phase.current) (called os) srv.got up c.phase.unsent
  order : called os <+: accepted calls

/-- When the server has left its loop, only what it did counts. -/
theorem Upward.stopped {c : Client} {srv : Server σ} {up : List UInt8}
    (hs : srv.serving = false) (horder : called os <+: accepted calls) :
    Upward calls os c srv up where
  plan := by
    rw [hs]
    rintro ⟨⟩
  flow := by
    rw [hs]
    rintro ⟨⟩
  order := horder

theorem Upward.same {c d : Client} {srv : Server σ} {up : List UInt8} {os' : List Event}
    (hb : Upward calls os c srv up)
    (hsent : sent os' ++ d.phase.current = sent os ++ c.phase.current)
    (hcalls : accepted d.calls = accepted c.calls) (hunsent : d.phase.unsent = c.phase.unsent)
    (hcalled : called os' = called os) : Upward calls os' d srv up where
  plan := by
    rw [hsent, hcalls]
    exact hb.plan
  flow := by
    rw [hsent, hunsent, hcalled]
    exact hb.flow
  order := by
    rw [hcalled]
    exact hb.order

theorem Upward.client {c : Client} {srv : Server σ} {up down : List UInt8} {cap : Nat}
    {closed : Bool} {m : Moved Client UInt8 Event} (hb : Upward calls os c srv up)
    (hclosed : closed = true → srv.serving = false) (h : ClientStep cap closed down up c m) :
    Upward calls (os ++ m.shown) m.next srv m.output := by
  cases h with
  | disconnect => exact hb.same (by simp [sent]) rfl rfl (by simp [called])
  | tooLarge hlarge =>
    exact hb.same (by simp [sent]) (by simp [accepted, hlarge]) rfl (by simp [called])
  | @send req calls' hfits =>
    obtain ⟨hplan, hflow, horder⟩ := hb
    refine ⟨?_, ?_, by simpa using horder⟩
    · simpa [accepted, hfits] using hplan
    · intro hs
      have hmade := (hflow hs).make (f := req)
      rw [Request.encode, ← parts_flatten] at hmade
      simpa using hmade
  | recv => exact hb.same (by simp) rfl rfl (by simp)
  | sent => exact hb.same (by simp [sent]) rfl rfl (by simp [called])
  | @write req calls' part rest k hpos hle hcap =>
    obtain ⟨hplan, hflow, horder⟩ := hb
    refine ⟨by simpa using hplan, ?_, by simpa using horder⟩
    intro hs
    have hwritten := hflow hs
    rw [Phase.unsent, advance_flatten part k rest] at hwritten
    simpa using hwritten.write
  | refused hc => exact .stopped (hclosed hc) (by simpa using hb.order)
  | returnRefused => exact hb.same (by simp [sent]) rfl rfl (by simp [called])
  | read hp hdown hne hlen => exact hb.same (by simp) rfl rfl (by simp)
  | ended hc => exact hb.same (by simp) rfl rfl (by simp)
  | returnEnded => exact hb.same (by simp [sent]) rfl rfl (by simp [called])
  | rejected hp => exact hb.same (by simp [sent]) rfl rfl (by simp [called])
  | received hp => exact hb.same (by simp [sent]) rfl rfl (by simp [called])

theorem Upward.valid {c : Client} {srv : Server σ} {up : List UInt8}
    (hb : Upward calls os c srv up) (hs : srv.serving = true) :
    ∀ r ∈ sent os ++ c.phase.current, r.Fits := by
  intro r hr
  apply fits_of_mem_accepted r
  rw [hb.plan hs]
  exact List.mem_append_left _ hr

theorem Upward.take {c : Client} {srv : Server σ} {up : List UInt8} {f : Frame}
    (hb : Upward calls os c srv up) (hs : srv.serving = true) (hp : progress srv.got = .whole f) :
    Flow Request.encode (sent os ++ c.phase.current) (called os ++ [f.request]) [] up
        c.phase.unsent ∧
      called os ++ [f.request] <+: accepted calls := by
  have htaken := (hb.flow hs).take delimits_request (hb.valid hs) (f := f.request)
    (by rw [hp]; rfl)
  refine ⟨htaken, ?_⟩
  rw [hb.plan hs]
  exact htaken.order.trans (List.prefix_append _ _)

theorem Upward.server {c : Client} {srv : Server σ} {up down : List UInt8} {cap : Nat}
    {timeout closed : Bool} {m : Moved (Server σ) UInt8 Event} (hb : Upward calls os c srv up)
    (h : ServerStep handler cap timeout closed up down srv m) :
    Upward calls (os ++ m.shown) c m.next m.input := by
  cases h with
  | read hp hup hne hlen =>
    subst hup
    refine ⟨by simpa using hb.plan, ?_, by simpa using hb.order⟩
    intro hs
    have hread := (hb.flow rfl).read delimits_request (hb.valid rfl)
      (show (progress (Server.reading _ _).got).map _ = _ by rw [Server.got, hp]; rfl) hne hlen
    simpa using hread
  | ended hend => exact .stopped rfl (by simpa using hb.order)
  | rejected hp => exact .stopped rfl (by simpa using hb.order)
  | tooLarge hp hcall hlarge =>
    have htaken := (hb.take rfl hp).2
    exact .stopped rfl (by simpa [called] using htaken)
  | call hp hcall hfits =>
    obtain ⟨htaken, horder⟩ := hb.take rfl hp
    refine ⟨?_, ?_, by simpa [called] using horder⟩
    · simpa [sent] using hb.plan rfl
    · simpa [called, sent] using htaken
  | sent => exact ⟨by simpa using hb.plan, by simpa using hb.flow, by simpa using hb.order⟩
  | write hpos hle hcap =>
    exact ⟨by simpa using hb.plan, by simpa using hb.flow, by simpa using hb.order⟩
  | refused hc => exact .stopped rfl (by simpa using hb.order)
  | close => exact .stopped rfl (by simpa [called] using hb.order)

theorem respond_concat (handler : σ → Request → σ × Response) (state : σ) (rs : List Request)
    (r : Request) : respond handler state (rs ++ [r]) =
      ((handler (respond handler state rs).1 r).1,
        (respond handler state rs).2 ++ [(handler (respond handler state rs).1 r).2]) := by
  induction rs generalizing state with
  | nil => rfl
  | cons q rs ih => simp only [List.cons_append, respond, ih]

/-- On the way back, when the responses so far are `made`: those that were begun, and
what lies in between; or the server is gone and nothing is left. -/
inductive Returning (made : List Response) (os : List Event) (c : Client) (srv : Server σ)
    (down : List UInt8) : Prop
  | flow {begun : List Response} {rest : List UInt8} (hbegun : begun <+: made)
      (hfits : ∀ r ∈ begun, r.frame.Fits)
      (hflow : Flow Response.encode begun (received os) c.phase.got down rest)
      (hall : srv.serving = true → begun = made ∧ rest = srv.unsent) : Returning made os c srv down
  | drained (hs : srv.serving = false) (hdown : down = []) (hgot : c.phase.got = []) :
      Returning made os c srv down

/-- What the handler keeps is what it kept after the requests so far. -/
structure Downward (handler : σ → Request → σ × Response) (state : σ) (os : List Event) (c : Client)
    (srv : Server σ) (down : List UInt8) : Prop where
  kept : ∀ st, srv.state = some st → st = (respond handler state (called os)).1
  way : Returning (respond handler state (called os)).2 os c srv down
  order : received os <+: (respond handler state (called os)).2

theorem Returning.same {made : List Response} {c d : Client} {srv : Server σ} {down : List UInt8}
    {os' : List Event} (hw : Returning made os c srv down) (hgot : d.phase.got = c.phase.got)
    (hrecv : received os' = received os) : Returning made os' d srv down := by
  cases hw with
  | flow hbegun hfits hflow hall => exact .flow hbegun hfits (by rwa [hgot, hrecv]) hall
  | drained hs hdown hnone => exact .drained hs hdown (hgot.trans hnone)

theorem Returning.client {made : List Response} {c : Client} {srv : Server σ}
    {up down : List UInt8} {cap : Nat} {closed : Bool} {m : Moved Client UInt8 Event}
    (hw : Returning made os c srv down) (hclosed : closed = true → srv.serving = false)
    (h : ClientStep cap closed down up c m) :
    Returning made (os ++ m.shown) m.next srv m.input ∧
      (received (os ++ m.shown) = received os ∨ received (os ++ m.shown) <+: made) := by
  obtain ⟨n, -, hstart⟩ := delimits_progress.start
  cases h with
  | disconnect => exact ⟨hw.same rfl (by simp [received]), .inl (by simp [received])⟩
  | tooLarge hlarge => exact ⟨hw.same rfl (by simp [received]), .inl (by simp [received])⟩
  | send hfits => exact ⟨hw.same rfl (by simp), .inl (by simp)⟩
  | recv => exact ⟨hw.same rfl (by simp), .inl (by simp)⟩
  | sent => exact ⟨hw.same rfl (by simp [received]), .inl (by simp [received])⟩
  | write hpos hle hcap => exact ⟨hw.same rfl (by simp), .inl (by simp)⟩
  | refused hc => exact ⟨hw.same rfl (by simp), .inl (by simp)⟩
  | returnRefused => exact ⟨hw.same rfl (by simp [received]), .inl (by simp [received])⟩
  | read hp hdown hne hlen =>
    refine ⟨?_, .inl (by simp)⟩
    cases hw with
    | flow hbegun hfits hflow hall =>
      subst hdown
      refine .flow hbegun hfits ?_ hall
      have hread := hflow.read delimits_response hfits
        (show (progress (Phase.receiving _).got).map _ = _ by rw [Phase.got, hp]; rfl) hne hlen
      simpa using hread
    | drained hs hnone hgot =>
      rw [hnone] at hdown
      exact absurd (List.append_eq_nil_iff.mp hdown.symm).1 hne
  | ended hc => exact ⟨.drained (hclosed hc) rfl rfl, .inl (by simp)⟩
  | returnEnded => exact ⟨hw.same rfl (by simp [received]), .inl (by simp [received])⟩
  | @rejected calls' got hp =>
    exfalso
    cases hw with
    | flow hbegun hfits hflow hall =>
      refine hflow.not_reject delimits_response hfits ?_
      rw [Phase.got, hp]
      rfl
    | drained hs hdown hgot =>
      obtain rfl : got = [] := hgot
      cases hp.symm.trans hstart
  | @received calls' got f hp =>
    cases hw with
    | flow hbegun hfits hflow hall =>
      have htaken := hflow.take delimits_response hfits (f := f.response)
        (show (progress (Phase.receiving _).got).map _ = _ by rw [Phase.got, hp]; rfl)
      have hshown : received (os ++ [.received (some f.response)]) =
          received os ++ [f.response] := by simp [received]
      refine ⟨.flow hbegun hfits ?_ hall, .inr ?_⟩
      · rw [hshown]
        exact htaken
      · rw [hshown]
        exact htaken.order.trans hbegun
    | drained hs hdown hgot =>
      obtain rfl : got = [] := hgot
      cases hp.symm.trans hstart

theorem Returning.of_serving {made : List Response} {c : Client} {srv : Server σ}
    {down : List UInt8} (hw : Returning made os c srv down) (hs : srv.serving = true) :
    (∀ r ∈ made, r.frame.Fits) ∧
      Flow Response.encode made (received os) c.phase.got down srv.unsent := by
  cases hw with
  | flow hbegun hfits hflow hall =>
    obtain ⟨rfl, rfl⟩ := hall hs
    exact ⟨hfits, hflow⟩
  | drained hnot => exact absurd (hs.symm.trans hnot) (by decide)

theorem Returning.serves {made : List Response} {c : Client} {srv : Server σ} {down : List UInt8}
    (hfits : ∀ r ∈ made, r.frame.Fits)
    (hflow : Flow Response.encode made (received os) c.phase.got down srv.unsent) :
    Returning made os c srv down :=
  .flow (List.prefix_refl _) hfits hflow fun _ => ⟨rfl, rfl⟩

theorem Returning.stopped {made made' : List Response} {c : Client} {srv srv' : Server σ}
    {down : List UInt8} (hw : Returning made os c srv down) (hmade : made <+: made')
    (hs : srv'.serving = false) : Returning made' os c srv' down := by
  cases hw with
  | flow hbegun hfits hflow hall =>
    refine .flow (hbegun.trans hmade) hfits hflow ?_
    rw [hs]
    rintro ⟨⟩
  | drained _ hdown hgot => exact .drained hs hdown hgot

theorem Downward.server {state : σ} {c : Client} {srv : Server σ} {up down : List UInt8} {cap : Nat}
    {timeout closed : Bool} {m : Moved (Server σ) UInt8 Event}
    (hb : Downward handler state os c srv down)
    (h : ServerStep handler cap timeout closed up down srv m) :
    Downward handler state (os ++ m.shown) c m.next m.output := by
  obtain ⟨hkept, hway, horder⟩ := hb
  -- the handler is called, and its response follows the others
  have hcalled : ∀ {f : Frame} {st st' : σ} {resp : Response}, srv.state = some st →
      handler st f.request = (st', resp) →
      respond handler state (called (os ++ [.called f.request])) =
        (st', (respond handler state (called os)).2 ++ [resp]) := by
    intro f st st' resp hst hcall
    rw [show called (os ++ [.called f.request]) = called os ++ [f.request] by simp [called],
      respond_concat, ← hkept st hst, hcall]
  cases h with
  | read hp hup hne hlen =>
    obtain ⟨hfits, hflow⟩ := hway.of_serving rfl
    rw [List.append_nil]
    exact ⟨hkept, .serves hfits hflow, horder⟩
  | ended hend =>
    rw [List.append_nil]
    exact ⟨by simp, hway.stopped (List.prefix_refl _) rfl, horder⟩
  | rejected hp =>
    rw [List.append_nil]
    exact ⟨by simp, hway.stopped (List.prefix_refl _) rfl, horder⟩
  | @tooLarge st st' got f resp hp hcall hlarge =>
    have hresp := hcalled rfl hcall
    have hrecv : received (os ++ [.called f.request]) = received os := by simp [received]
    refine ⟨by simp, ?_, ?_⟩
    · rw [hresp]
      exact (hway.same rfl hrecv).stopped (List.prefix_append _ _) rfl
    · rw [hresp, hrecv]
      exact horder.trans (List.prefix_append _ _)
  | @call st st' got f resp hp hcall hfits =>
    have hresp := hcalled rfl hcall
    have hrecv : received (os ++ [.called f.request]) = received os := by simp [received]
    obtain ⟨hmade, hflow⟩ := hway.of_serving rfl
    refine ⟨?_, ?_, ?_⟩
    · rw [hresp]
      rintro _ ⟨⟩
      rfl
    · rw [hresp]
      refine .serves ?_ ?_
      · rintro r hr
        rcases List.mem_append.mp hr with hr | hr
        · exact hmade r hr
        · rw [List.mem_singleton.mp hr]
          exact hfits
      · rw [hrecv, Server.unsent, parts_flatten]
        exact hflow.make
    · rw [hresp, hrecv]
      exact horder.trans (List.prefix_append _ _)
  | sent =>
    obtain ⟨hfits, hflow⟩ := hway.of_serving rfl
    rw [List.append_nil]
    exact ⟨hkept, .serves hfits hflow, horder⟩
  | @write st part rest k hpos hle hcap =>
    obtain ⟨hfits, hflow⟩ := hway.of_serving rfl
    rw [Server.unsent, advance_flatten part k rest] at hflow
    rw [List.append_nil]
    exact ⟨hkept, .serves hfits hflow.write, horder⟩
  | refused hc =>
    rw [List.append_nil]
    exact ⟨by simp, hway.stopped (List.prefix_refl _) rfl, horder⟩
  | close =>
    have hsame : called (os ++ [.closed]) = called os := by simp [called]
    have hrecv : received (os ++ [.closed]) = received os := by simp [received]
    refine ⟨by simp, ?_, ?_⟩
    · rw [hsame]
      exact (hway.same rfl hrecv).stopped (List.prefix_refl _) rfl
    · rw [hsame, hrecv]
      exact horder

theorem called_of_clientStep (os : List Event) {c : Client} {up down : List UInt8} {cap : Nat}
    {closed : Bool} {m : Moved Client UInt8 Event} (h : ClientStep cap closed down up c m) :
    called (os ++ m.shown) = called os := by
  cases h <;> simp [called]

theorem Downward.client {state : σ} {c : Client} {srv : Server σ} {up down : List UInt8}
    {cap : Nat} {closed : Bool} {m : Moved Client UInt8 Event}
    (hb : Downward handler state os c srv down) (hclosed : closed = true → srv.serving = false)
    (h : ClientStep cap closed down up c m) :
    Downward handler state (os ++ m.shown) m.next srv m.input := by
  obtain ⟨hkept, hway, horder⟩ := hb
  obtain ⟨hway', horder'⟩ := hway.client hclosed h
  have hcalled := called_of_clientStep os h
  refine ⟨?_, ?_, ?_⟩
  · rw [hcalled]
    exact hkept
  · rw [hcalled]
    exact hway'
  · rw [hcalled]
    rcases horder' with heq | hpre
    · rw [heq]
      exact horder
    · exact hpre

/-- All that is between the two ends. -/
structure Books (handler : σ → Request → σ × Response) (state : σ) (calls : List Call)
    (os : List Event) (s : Conn σ) : Prop where
  up : Upward calls os s.left s.right s.up
  down : Downward handler state os s.left s.right s.down

variable {net : Network} {state : σ}

theorem Books.start : Books handler state calls [] (start state calls) where
  up := ⟨fun _ => rfl, fun _ => .start, List.nil_prefix⟩
  down := ⟨by rintro _ ⟨⟩; rfl, .serves (by simp [called, respond]) .start, List.nil_prefix⟩

theorem Books.step {s t : Conn σ} {l : Label} {o : List Event}
    (hb : Books handler state calls os s) (h : (machine net handler).step s l = some (t, o)) :
    Books handler state calls (os ++ o) t := by
  obtain ⟨c, srv, up, down⟩ := s
  cases Link.step_moves h with
  | left ha =>
    have hstep := clientStep ha
    have hclosed : (srv.intent handler).halted = true → srv.serving = false :=
      Server.serving_of_halted handler
    exact ⟨hb.up.client hclosed hstep, hb.down.client hclosed hstep⟩
  | right ha =>
    have hstep := serverStep ha
    exact ⟨hb.up.server hstep, hb.down.server hstep⟩

theorem Books.run {t : Conn σ} (h : (machine net handler).Run Lib.Machine.anyStep
    (Loopback.start state calls) os t) : Books handler state calls os t :=
  h.invariant (P := fun os t => Books handler state calls os t) .start
    fun _ _ _ _ _ hb _ hs => hb.step hs

theorem respond_mono (handler : σ → Request → σ × Response) {rs rs' : List Request}
    (h : rs <+: rs') (state : σ) :
    (respond handler state rs).2 <+: (respond handler state rs').2 := by
  obtain ⟨more, rfl⟩ := h
  induction more using List.reverseRecOn with
  | nil => simp
  | append_singleton more r ih =>
    rw [← List.append_assoc, respond_concat]
    exact ih.trans (List.prefix_append _ _)

theorem reading_of_run {t : Conn σ} (h : (machine net handler).Run Lib.Machine.anyStep
    (Loopback.start state calls) os t) : Reading t.left.phase.got ∧ Reading t.right.got := by
  refine h.keeps (I := fun t => Reading t.left.phase.got ∧ Reading t.right.got) ⟨.nil, .nil⟩ ?_
  rintro ⟨c, srv, up, down⟩ l u o ⟨hleft, hright⟩ - hstep
  cases Link.step_moves hstep with
  | left ha =>
    refine ⟨?_, hright⟩
    cases clientStep ha with
    | read hp hdown hne hlen => exact hleft.append hp (hlen (pos_of_more hp))
    | _ => first | exact hleft | exact .nil
  | right ha =>
    refine ⟨hleft, ?_⟩
    cases serverStep ha with
    | read hp hup hne hlen => exact hright.append hp (hlen (pos_of_more hp))
    | _ => first | exact hright | exact .nil

/-- **The two ends receive as the code does**, in every state of every run. -/
theorem receives_as_recvFrame {t : Conn σ} (h : (machine net handler).Run Lib.Machine.anyStep
    (Loopback.start state calls) os t) :
    AsRecvFrame t.left.phase.got ∧ AsRecvFrame t.right.got := by
  obtain ⟨hleft, hright⟩ := reading_of_run h
  exact ⟨hleft.asRecvFrame, hright.asRecvFrame⟩

/-- **Requests and responses arrive in order.**  Whatever the client calls and
however the steps of the two ends interleave, with buffers of any size and
whether or not the server times out: the handler has been called with the first
of the requests that the calls put on the wire, and the client has returned the
first of the responses to them. -/
theorem loopback_in_order {t : Conn σ} (h : (machine net handler).Run Lib.Machine.anyStep
    (Loopback.start state calls) os t) :
    called os <+: accepted calls ∧ received os <+: (respond handler state (called os)).2 ∧
      received os <+: (respond handler state (accepted calls)).2 := by
  obtain ⟨hup, hdown⟩ := Books.run h
  exact ⟨hup.order, hdown.order, hdown.order.trans (respond_mono handler hup.order state)⟩

/-- A handler that counts and echoes. -/
def echo : Nat → Request → Nat × Response := fun n r => (n + 1, ⟨r.id, ⟨0⟩, r.payload⟩)

def two : List Call := [.send ⟨7, 0, [1, 2]⟩, .send ⟨8, 0, []⟩, .recv]

/-- Two requests are sent in pieces of up to nine bytes, and the response to the first
is received. -/
theorem loopback_in_order_two : ∃ os, ∃ t : Conn Nat,
    (machine ⟨64, 64, false⟩ echo).Run Lib.Machine.anyStep (start 0 two) os t ∧
      called os = [⟨7, 0, [1, 2]⟩] ∧ received os = [⟨7, ⟨0⟩, [1, 2]⟩] ∧
      received os <+: (respond echo 0 (accepted two)).2 := by
  obtain ⟨⟨t, os⟩, hexec, hshown⟩ := Option.map_eq_some_iff.mp
    (show ((machine ⟨64, 64, false⟩ echo).exec (start 0 two) (List.replicate 11 (.left (.upTo 9)) ++
        List.replicate 10 (.right (.upTo 9)) ++ List.replicate 6 (.left (.upTo 9)))).map
          (fun p => (called p.2, received p.2)) =
        some ([⟨7, 0, [1, 2]⟩], [⟨7, ⟨0⟩, [1, 2]⟩]) by decide +kernel)
  obtain ⟨hcalled, hreceived⟩ := Prod.mk.inj hshown
  have hrun := Lib.Machine.run_of_exec_any hexec
  exact ⟨os, t, hrun, hcalled, hreceived, (loopback_in_order hrun).2.2⟩

end Books

end Loopback

end HftComponents.Tcp
