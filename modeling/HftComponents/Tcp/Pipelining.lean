import HftComponents.Tcp.Loopback
import Mathlib.Data.List.Infix

/-!
# Pipelining

A client may send several requests before it receives the responses.  The server
answers each request before it reads the next, so when the client does not read,
the responses fill the socket buffer towards it, then the server stops reading,
the requests fill the other buffer, and the client stops writing.  Both then wait
for ever.

`completes_iff` says when: never does the client ask for a response too many, and
at no call of it do the unread responses exceed one buffer and the requests
behind them the other.  If they do, every run ends in that deadlock (`Deadlocked`).
A client that waits for each response before it sends the next request always
completes, whatever the sizes of requests and buffers (`completes_of_one_outstanding`).
-/

namespace HftComponents.Tcp.Loopback

open Lib.Transfer Lib.Framed Lib.Duplex

variable {σ : Type} {handler : σ → Request → σ × Response} {net : Network} {state : σ}
  {calls : List Call} {os : List Event}

/-! ### Every connection comes to rest -/

/-- More than the response to a request costs. -/
def weight : Nat := 2 * (9 + kMaxPayloadBytes) + 8

def Call.cost : Call → Nat
  | .send req => (weight + 1) * req.encode.length + 7
  | .recv => 3

def Phase.rank : Phase → Nat
  | .ready => 1
  | .sending _ parts => (weight + 1) * parts.flatten.length + parts.length + 3
  | .refused _ | .ended => 2
  | .receiving _ => 3
  | .closed => 0

def Server.rank : Server σ → Nat
  | .reading _ got =>
    match progress got with
    | .whole _ => weight
    | _ => 2
  | .sending _ parts => 2 * parts.flatten.length + parts.length + 3
  | .closing => 1
  | .closed => 0

/-- What the two ends can still do. -/
def rank (s : Conn σ) : Nat :=
  (s.left.calls.map Call.cost).sum + s.left.phase.rank + s.right.rank + weight * s.up.length +
    s.down.length

theorem length_parts_le (f : Frame) : (parts f).length ≤ 4 := by
  rw [parts, List.length_append]
  split <;> simp

/-- A write moves a byte, or is done with an empty part. -/
theorem advance_length (part : List UInt8) {k : Nat} (hk : 0 < k) (rest : List (List UInt8)) :
    (part :: rest).flatten.length = (part.take k).length + (advance part k rest).flatten.length ∧
      (advance part k rest).length ≤ rest.length + 1 ∧
      ((part.take k).length = 0 → (advance part k rest).length ≤ rest.length) := by
  refine ⟨?_, ?_, ?_⟩
  · rw [advance_flatten part k rest, List.length_append]
  · rw [advance]
    split <;> simp
  · intro hzero
    rw [List.length_take] at hzero
    have hnil : part.drop k = [] := by
      apply List.eq_nil_of_length_eq_zero
      rw [List.length_drop]
      omega
    rw [advance, if_pos hnil]

theorem rank_client {c : Client} {up down : List UInt8} {cap : Nat} {closed : Bool}
    {m : Moved Client UInt8 Event} (h : ClientStep cap closed down up c m) (srv : Server σ) :
    rank ⟨m.next, srv, m.output, m.input⟩ < rank ⟨c, srv, up, down⟩ := by
  simp only [rank]
  cases h with
  | disconnect => simp only [Phase.rank]; omega
  | tooLarge hlarge => simp only [Phase.rank, List.map_cons, List.sum_cons, Call.cost]; omega
  | @send req calls' hfits =>
    have hlen := length_parts_le req.frame
    simp only [Phase.rank, List.map_cons, List.sum_cons, Call.cost, parts_flatten, Request.encode]
    omega
  | recv => simp only [Phase.rank, List.map_cons, List.sum_cons, Call.cost]; omega
  | sent => simp only [Phase.rank]; omega
  | @write req calls' part rest k hpos hle hcap =>
    obtain ⟨hflat, hlen, hzero⟩ := advance_length part hpos rest
    simp only [Phase.rank, hflat, List.length_append, List.length_cons,
      show weight = 131096 from rfl]
    omega
  | refused hc => simp only [Phase.rank]; omega
  | returnRefused => simp only [Phase.rank]; omega
  | read hp hdown hne hlen =>
    subst hdown
    have hpos := List.length_pos_iff.mpr hne
    simp only [Phase.rank, List.length_append]
    omega
  | ended hc => simp only [Phase.rank, List.length_nil]; omega
  | returnEnded => simp only [Phase.rank]; omega
  | rejected hp => simp only [Phase.rank]; omega
  | received hp => simp only [Phase.rank]; omega

theorem rank_reading (state : σ) (got : List UInt8) :
    2 ≤ (Server.reading state got).rank ∧ (Server.reading state got).rank ≤ weight := by
  rw [Server.rank]
  split <;> decide

theorem rank_server {srv : Server σ} {up down : List UInt8} {cap : Nat} {timeout closed : Bool}
    {m : Moved (Server σ) UInt8 Event} (h : ServerStep handler cap timeout closed up down srv m)
    (c : Client) : rank ⟨c, m.next, m.input, m.output⟩ < rank ⟨c, srv, up, down⟩ := by
  simp only [rank]
  cases h with
  | @read st got bs rest n hp hup hne hlen =>
    subst hup
    have hpos := List.length_pos_iff.mpr hne
    obtain ⟨-, hnext⟩ := rank_reading st (got ++ bs)
    have hnow : (Server.reading st got).rank = 2 := by simp only [Server.rank, hp]
    simp only [hnow, List.length_append, show weight = 131096 from rfl] at hnext ⊢
    omega
  | @ended st got hend =>
    have hge := (rank_reading st got).1
    simp only [List.length_nil, show (Server.closing : Server σ).rank = 1 from rfl]
    omega
  | @rejected st got hp =>
    have hge := (rank_reading st got).1
    simp only [show (Server.closing : Server σ).rank = 1 from rfl]
    omega
  | @tooLarge st st' got f resp hp hcall hlarge =>
    have hge := (rank_reading st got).1
    simp only [show (Server.closing : Server σ).rank = 1 from rfl]
    omega
  | @call st st' got f resp hp hcall hfits =>
    have hlen := length_parts_le resp.frame
    have hmax : resp.frame.payload.length ≤ 65535 := hfits
    have hnow : (Server.reading st got).rank = weight := by simp only [Server.rank, hp]
    have hnext : (Server.sending st' (parts resp.frame)).rank =
        2 * (9 + resp.frame.payload.length) + (parts resp.frame).length + 3 := by
      rw [Server.rank, parts_flatten, length_encode_eq]
    dsimp only
    rw [hnow, hnext, show weight = 131096 from rfl]
    omega
  | @sent st =>
    dsimp only
    rw [show (Server.sending st []).rank = 3 from rfl,
      show (Server.reading st []).rank = 2 from rfl]
    omega
  | @write st part rest k hpos hle hcap =>
    obtain ⟨hflat, hlen, hzero⟩ := advance_length part hpos rest
    simp only [Server.rank, hflat, List.length_append, List.length_cons]
    omega
  | refused hc => simp only [Server.rank]; omega
  | close => simp only [Server.rank]; omega

theorem rank_step (net : Network) (handler : σ → Request → σ × Response) (s : Conn σ)
    (l : Label) (t : Conn σ) (o : List Event)
    (h : (machine net handler).step s l = some (t, o)) : rank t < rank s := by
  obtain ⟨c, srv, up, down⟩ := s
  cases Link.step_moves h with
  | left ha => exact rank_client (clientStep ha) srv
  | right ha => exact rank_server (serverStep ha) c

/-! ### Runs in which nothing fails -/

/-- The calls that have not returned. -/
def Client.todo (c : Client) : List Call :=
  match c.phase with
  | .sending req _ | .refused req => .send req :: c.calls
  | .receiving _ | .ended => .recv :: c.calls
  | .ready | .closed => c.calls

/-- The number of responses that the calls ask for. -/
def receives (calls : List Call) : Nat := calls.countP (· = .recv)

/-- No part is empty. -/
def Full (parts : List (List UInt8)) : Prop := ∀ p ∈ parts, p ≠ []

/-- The calls `done` have returned, and none has failed; the server serves until
the client has closed. -/
structure Smooth (calls : List Call) (os : List Event) (done : List Call) (s : Conn σ) : Prop where
  plan : calls = done ++ s.left.todo
  sent : sent os = accepted done
  received : (received os).length = receives done
  serving : s.left.phase ≠ .closed → s.right.serving = true
  calm : s.left.phase ≠ .ended ∧ ∀ req, s.left.phase ≠ .refused req
  last : s.left.phase = .closed → s.left.calls = []
  up : ∀ req parts, s.left.phase = .sending req parts → Full parts
  down : ∀ st parts, s.right = .sending st parts → Full parts

theorem phase_of_halted {c : Client} (h : c.intent.halted = true) : c.phase = .closed := by
  unfold Client.intent at h
  repeat' split at h
  all_goals cases h
  assumption

theorem accepted_concat (calls : List Call) (call : Call) :
    accepted (calls ++ [call]) = accepted calls ++ accepted [call] := by
  rw [accepted, List.filterMap_append]
  rfl

theorem receives_concat (calls : List Call) (call : Call) :
    receives (calls ++ [call]) = receives calls + receives [call] := by
  rw [receives, List.countP_append]
  rfl

theorem Smooth.client {done : List Call} {c : Client} {srv : Server σ} {up down : List UInt8}
    {cap : Nat} {closed : Bool} {m : Moved Client UInt8 Event}
    (hb : Books handler state calls os ⟨c, srv, up, down⟩)
    (hs : Smooth calls os done ⟨c, srv, up, down⟩) (hclosed : closed = true → srv.serving = false)
    (h : ClientStep cap closed down up c m) :
    ∃ done', Smooth calls (os ++ m.shown) done' ⟨m.next, srv, m.output, m.input⟩ ∧
      (done' = done ∨ (∃ call, done' = done ++ [call]) ∧ m.next.phase = .ready) := by
  obtain ⟨hplan, hsent, hrecv, hserving, hcalm, hlast, hup, hdown⟩ := hs
  have hnot : c.phase ≠ .closed → closed ≠ true := by
    intro hphase hc
    exact absurd ((hserving hphase).symm.trans (hclosed hc)) (by decide)
  cases h with
  | disconnect =>
    refine ⟨done, ⟨hplan, ?_, ?_, by simp, by simp, by simp, by simp, hdown⟩, .inl rfl⟩
    · simpa [Loopback.sent] using hsent
    · simpa [Loopback.received] using hrecv
  | @tooLarge req calls' hlarge =>
    refine ⟨done ++ [.send req], ⟨?_, ?_, ?_, ?_, by simp, by simp, by simp, hdown⟩,
      .inr ⟨⟨_, rfl⟩, rfl⟩⟩
    · simpa [Client.todo] using hplan
    · rw [accepted_concat]
      simpa [Loopback.sent, accepted, hlarge] using hsent
    · rw [receives_concat]
      simpa [Loopback.received, receives] using hrecv
    · exact fun _ => hserving (by simp)
  | @send req calls' hfits =>
    refine ⟨done, ⟨hplan, by simpa using hsent, by simpa using hrecv, fun _ => hserving (by simp),
      by simp, by simp, ?_, hdown⟩, .inl rfl⟩
    rintro _ _ ⟨⟩
    exact ne_nil_of_mem_parts
  | recv =>
    exact ⟨done, ⟨hplan, by simpa using hsent, by simpa using hrecv, fun _ => hserving (by simp),
      by simp, by simp, by simp, hdown⟩, .inl rfl⟩
  | @sent req calls' =>
    have hfits : req.frame.Fits := hb.up.valid (hserving (by simp)) req (by simp)
    refine ⟨done ++ [.send req], ⟨?_, ?_, ?_, ?_, by simp, by simp, by simp, hdown⟩,
      .inr ⟨⟨_, rfl⟩, rfl⟩⟩
    · simpa [Client.todo] using hplan
    · rw [accepted_concat]
      simpa [Loopback.sent, accepted, hfits] using hsent
    · rw [receives_concat]
      simpa [Loopback.received, receives] using hrecv
    · exact fun _ => hserving (by simp)
  | @write req calls' part rest k hpos hle hcap =>
    refine ⟨done, ⟨hplan, by simpa using hsent, by simpa using hrecv, fun _ => hserving (by simp),
      by simp, by simp, ?_, hdown⟩, .inl rfl⟩
    rintro _ _ ⟨⟩
    exact ne_nil_of_mem_advance (hup _ _ rfl)
  | refused hc => exact absurd hc (hnot (by simp))
  | returnRefused => exact absurd rfl (hcalm.2 _)
  | read hp _ hne hlen =>
    exact ⟨done, ⟨hplan, by simpa using hsent, by simpa using hrecv, fun _ => hserving (by simp),
      by simp, by simp, by simp, hdown⟩, .inl rfl⟩
  | ended hc => exact absurd hc (hnot (by simp))
  | returnEnded => exact absurd rfl hcalm.1
  | rejected hp =>
    obtain ⟨hfits, hflow⟩ := hb.down.way.of_serving (hserving (by simp))
    refine absurd ?_ (hflow.not_reject delimits_response hfits)
    rw [Phase.got, hp]
    rfl
  | @received calls' got f hp =>
    refine ⟨done ++ [.recv], ⟨?_, ?_, ?_, ?_, by simp, by simp, by simp, hdown⟩,
      .inr ⟨⟨_, rfl⟩, rfl⟩⟩
    · simpa [Client.todo] using hplan
    · rw [accepted_concat]
      simpa [Loopback.sent, accepted] using hsent
    · rw [receives_concat, ← hrecv]
      simp [Loopback.received, receives]
    · exact fun _ => hserving (by simp)

theorem Smooth.server {done : List Call} {c : Client} {srv : Server σ} {up down : List UInt8}
    {cap : Nat} {closed : Bool} {m : Moved (Server σ) UInt8 Event}
    (hfits : ∀ r ∈ (respond handler state (accepted calls)).2, r.frame.Fits)
    (hb : Books handler state calls os ⟨c, srv, up, down⟩)
    (hs : Smooth calls os done ⟨c, srv, up, down⟩) (hclosed : closed = true → c.phase = .closed)
    (h : ServerStep handler cap false closed up down srv m) :
    Smooth calls (os ++ m.shown) done ⟨c, m.next, m.input, m.output⟩ := by
  obtain ⟨hplan, hsent, hrecv, hserving, hcalm, hlast, hup, hdown⟩ := hs
  cases h with
  | read hp _ hne hlen =>
    exact ⟨hplan, by simpa using hsent, by simpa using hrecv, fun _ => rfl, hcalm, hlast, hup,
      by simp⟩
  | ended hend =>
    have hphase := hclosed (hend.resolve_right Bool.false_ne_true)
    exact ⟨hplan, by simpa using hsent, by simpa using hrecv, absurd hphase, hcalm, hlast, hup,
      by simp⟩
  | rejected hp =>
    refine absurd ?_ ((hb.up.flow rfl).not_reject delimits_request (hb.up.valid rfl))
    show (progress (Server.reading _ _).got).map _ = _
    rw [Server.got, hp]
    rfl
  | @tooLarge st st' got f resp hp hcall hlarge =>
    -- the response is one of those to the requests of the client
    have horder := (hb.up.take rfl hp).2
    have hpre := respond_mono handler horder state
    rw [respond_concat, ← hb.down.kept st rfl, hcall] at hpre
    exact absurd (hfits resp (hpre.subset (by simp))) hlarge
  | call hp hcall hresp =>
    refine ⟨hplan, ?_, ?_, fun _ => rfl, hcalm, hlast, hup, ?_⟩
    · simpa [Loopback.sent] using hsent
    · simpa [Loopback.received] using hrecv
    · rintro _ _ ⟨⟩
      exact ne_nil_of_mem_parts
  | sent =>
    exact ⟨hplan, by simpa using hsent, by simpa using hrecv, fun _ => rfl, hcalm, hlast, hup,
      by simp⟩
  | write hpos hle hcap =>
    refine ⟨hplan, by simpa using hsent, by simpa using hrecv, fun _ => rfl, hcalm, hlast, hup, ?_⟩
    rintro _ _ ⟨⟩
    exact ne_nil_of_mem_advance (hdown _ _ rfl)
  | refused hc =>
    exact ⟨hplan, by simpa using hsent, by simpa using hrecv, absurd (hclosed hc), hcalm, hlast,
      hup, by simp⟩
  | close =>
    refine ⟨hplan, ?_, ?_, ?_, hcalm, hlast, hup, by simp⟩
    · simpa [Loopback.sent] using hsent
    · simpa [Loopback.received] using hrecv
    · intro hphase
      cases hserving hphase

theorem Smooth.step {done : List Call} {s t : Conn σ} {l : Label} {o : List Event}
    (htimeout : net.timeout = false)
    (hfits : ∀ r ∈ (respond handler state (accepted calls)).2, r.frame.Fits)
    (hb : Books handler state calls os s) (hs : Smooth calls os done s)
    (h : (machine net handler).step s l = some (t, o)) :
    ∃ done', Smooth calls (os ++ o) done' t ∧
      (done' = done ∨ (∃ call, done' = done ++ [call]) ∧ t.left.phase = .ready) := by
  obtain ⟨c, srv, up, down⟩ := s
  cases Link.step_moves h with
  | left ha => exact hs.client hb (Server.serving_of_halted handler) (clientStep ha)
  | right ha =>
    have hstep := serverStep ha
    rw [show (link net handler).rightTimeout = false from htimeout] at hstep
    exact ⟨done, hs.server hfits hb (fun hc => phase_of_halted hc) hstep, .inl rfl⟩

theorem Smooth.start : Smooth calls [] [] (Loopback.start state calls : Conn σ) where
  plan := rfl
  sent := rfl
  received := rfl
  serving _ := rfl
  calm := ⟨by rintro ⟨⟩, by rintro _ ⟨⟩⟩
  last := by rintro ⟨⟩
  up := by rintro _ _ ⟨⟩
  down := by rintro _ _ ⟨⟩

/-- What holds in a run in which nothing fails. -/
structure Runs (net : Network) (handler : σ → Request → σ × Response) (state : σ)
    (calls : List Call) (os : List Event) (done : List Call) (s : Conn σ) : Prop where
  bounded : Link.Bounded (link net handler) s
  books : Books handler state calls os s
  smooth : Smooth calls os done s

/-- As long as `n` calls cannot have returned, fewer have. -/
theorem Runs.of_run {t : Conn σ} (htimeout : net.timeout = false)
    (hfits : ∀ r ∈ (respond handler state (accepted calls)).2, r.frame.Fits) {n : Nat}
    (hn : 0 < n) (hblock : ∀ os done (t : Conn σ), Runs net handler state calls os done t →
      t.left.phase = .ready → done.length ≠ n)
    (h : (machine net handler).Run Lib.Machine.anyStep (Loopback.start state calls) os t) :
    ∃ done, Runs net handler state calls os done t ∧ done.length < n := by
  refine h.invariant (P := fun os t => ∃ done, Runs net handler state calls os done t ∧
    done.length < n) ⟨[], ⟨⟨Nat.zero_le _, Nat.zero_le _⟩, .start, .start⟩, hn⟩ ?_
  rintro os t l u o ⟨done, ⟨hbound, hb, hs⟩, hlt⟩ - hstep
  obtain ⟨done', hs', hdone⟩ := hs.step htimeout hfits hb hstep
  have hr' : Runs net handler state calls (os ++ o) done' u :=
    ⟨hbound.step hstep, hb.step hstep, hs'⟩
  refine ⟨done', hr', ?_⟩
  rcases hdone with rfl | ⟨⟨call, rfl⟩, hready⟩
  · exact hlt
  · have hne := hblock _ _ _ hr' hready
    rw [List.length_append, List.length_singleton] at hne ⊢
    omega

theorem Runs.exists_of_run {t : Conn σ} (htimeout : net.timeout = false)
    (hfits : ∀ r ∈ (respond handler state (accepted calls)).2, r.frame.Fits)
    (h : (machine net handler).Run Lib.Machine.anyStep (Loopback.start state calls) os t) :
    ∃ done, Runs net handler state calls os done t := by
  have hall : ∀ os done (t : Conn σ), Runs net handler state calls os done t →
      t.left.phase = .ready → done.length ≠ calls.length + 1 := by
    intro os done t hr _
    have hlen := congrArg List.length hr.smooth.plan
    rw [List.length_append] at hlen
    omega
  exact (Runs.of_run htimeout hfits (Nat.succ_pos _) hall h).imp fun _ => And.left

/-! ### Where the two ends can wait for each other -/

theorem phase_of_read {c : Client} {n : Nat} {f : Option (List UInt8) → Client}
    (h : c.intent = .read n f) : ∃ got, c.phase = .receiving got ∧ progress got = .more n := by
  unfold Client.intent at h
  repeat' split at h
  all_goals cases h
  exact ⟨_, ‹_›, ‹_›⟩

theorem phase_of_write {c : Client} {part : List UInt8} {f : Option Nat → Client}
    (h : c.intent = .write part f) : ∃ req rest, c.phase = .sending req (part :: rest) := by
  unfold Client.intent at h
  repeat' split at h
  all_goals cases h
  exact ⟨_, _, ‹_›⟩

theorem server_of_read {srv : Server σ} {n : Nat} {f : Option (List UInt8) → Server σ}
    (h : srv.intent handler = .read n f) :
    ∃ st got, srv = .reading st got ∧ progress got = .more n := by
  unfold Server.intent at h
  repeat' split at h
  all_goals cases h
  exact ⟨_, _, rfl, ‹_›⟩

theorem server_of_write {srv : Server σ} {part : List UInt8} {f : Option Nat → Server σ}
    (h : srv.intent handler = .write part f) : ∃ st rest, srv = .sending st (part :: rest) := by
  unfold Server.intent at h
  repeat' split at h
  all_goals cases h
  exact ⟨_, _, rfl⟩

/-- Before each call the client has sent as many requests as it asks for responses. -/
def Balanced (calls : List Call) : Prop :=
  ∀ pre, pre <+: calls → receives pre ≤ (accepted pre).length

instance decidableBalanced (calls : List Call) : Decidable (Balanced calls) :=
  decidable_of_iff (∀ pre ∈ calls.inits, receives pre ≤ (accepted pre).length)
    (by simp only [Balanced, List.mem_inits])

/-- The bytes of the first `n` requests. -/
def requestBytes (calls : List Call) (n : Nat) : Nat :=
  (((accepted calls).take n).flatMap Request.encode).length

/-- The bytes of the first `n` responses. -/
def responseBytes (handler : σ → Request → σ × Response) (state : σ) (calls : List Call)
    (n : Nat) : Nat :=
  (((respond handler state (accepted calls)).2.take n).flatMap Response.encode).length

/-- To get through some of its calls, the client would have to write more than the
buffer takes behind `m` requests, and to these the responses are more than the
other buffer takes. -/
def Overcommits (net : Network) (handler : σ → Request → σ × Response) (state : σ)
    (calls : List Call) : Prop :=
  ∃ pre m, pre <+: calls ∧
    responseBytes handler state calls (receives pre) + net.downCap <
      responseBytes handler state calls m ∧
    requestBytes calls m + net.upCap < requestBytes calls (accepted pre).length

/-- How a connection should end: every call has succeeded, and both ends are closed. -/
structure Done (handler : σ → Request → σ × Response) (state : σ) (calls : List Call)
    (os : List Event) (s : Conn σ) : Prop where
  left : s.left.phase = .closed
  right : s.right = .closed
  sent : sent os = accepted calls
  received : received os = (respond handler state (accepted calls)).2.take (receives calls)

/-- Both ends are in `send`, both buffers are full, and so neither end reads. -/
structure Deadlocked (net : Network) (s : Conn σ) : Prop where
  left : ∃ req part rest, s.left.phase = .sending req (part :: rest)
  right : ∃ st part rest, s.right = .sending st (part :: rest)
  up : net.upCap ≤ s.up.length
  down : net.downCap ≤ s.down.length

/-- Every run ends, and ends so. -/
structure Completes (net : Network) (handler : σ → Request → σ × Response) (state : σ)
    (calls : List Call) : Prop where
  bounded : ∃ n, ∀ ls t os,
    (machine net handler).exec (start state calls) ls = some (t, os) → ls.length ≤ n
  done : ∀ os t, (machine net handler).Run Lib.Machine.anyStep (start state calls) os t →
    (machine net handler).Stuck t → Done handler state calls os t

theorem length_respond (handler : σ → Request → σ × Response) (state : σ) (rs : List Request) :
    (respond handler state rs).2.length = rs.length := by
  induction rs generalizing state with
  | nil => rfl
  | cons r rs ih => simp only [respond, List.length_cons, ih]

theorem requestBytes_of_isPrefix {rs : List Request} (h : rs <+: accepted calls) :
    requestBytes calls rs.length = (rs.flatMap Request.encode).length := by
  rw [requestBytes, ← List.prefix_iff_eq_take.mp h]

theorem responseBytes_of_isPrefix {rs : List Response}
    (h : rs <+: (respond handler state (accepted calls)).2) :
    responseBytes handler state calls rs.length = (rs.flatMap Response.encode).length := by
  rw [responseBytes, ← List.prefix_iff_eq_take.mp h]

/-- When both ends wait for something to read, all that was sent has been answered
and the client has the answers. -/
theorem Books.length_received {cs : List Call} {st : σ} {got got' : List UInt8} {n k : Nat}
    (hb : Books handler state calls os ⟨⟨cs, .receiving got⟩, .reading st got', [], []⟩)
    (hp : progress got = .more n) (hp' : progress got' = .more k) :
    (received os).length = (sent os).length := by
  have hcalled := (hb.up.flow rfl).all_taken delimits_request (hb.up.valid rfl) (n := k)
    (by rw [Server.got, hp']; rfl)
  obtain ⟨hfits, hback⟩ := hb.down.way.of_serving rfl
  have hreceived := hback.all_taken delimits_response hfits (n := n) (by rw [Phase.got, hp]; rfl)
  calc (received os).length = (respond handler state (called os)).2.length := by rw [hreceived]
    _ = (called os).length := length_respond _ _ _
    _ = (sent os).length := by rw [← hcalled, Phase.current, List.append_nil]

/-- When both wait for room, the client has overcommitted. -/
theorem Books.overcommits {done cs : List Call} {req : Request} {st : σ} {part part' : List UInt8}
    {rest rest' : List (List UInt8)} {up down : List UInt8}
    (hb : Books handler state calls os
      ⟨⟨cs, .sending req (part :: rest)⟩, .sending st (part' :: rest'), up, down⟩)
    (hpart : part ≠ []) (hpart' : part' ≠ []) (hup : net.upCap ≤ up.length)
    (hdown : net.downCap ≤ down.length) (hplan : calls = done ++ .send req :: cs)
    (hsent : sent os = accepted done) (hrecv : (received os).length = receives done) :
    Overcommits net handler state calls := by
  have hpos := List.length_pos_iff.mpr hpart
  have hpos' := List.length_pos_iff.mpr hpart'
  obtain ⟨-, hback⟩ := hb.down.way.of_serving rfl
  have hlenUp := (hb.up.flow rfl).length
  have hlenDown := hback.length
  have hall : accepted (done ++ [.send req]) = sent os ++ [req] := by
    have hfits : req.frame.Fits := hb.up.valid rfl req (by simp)
    rw [accepted_concat, ← hsent]
    simp [accepted, hfits]
  have hpre : done ++ [.send req] <+: calls := ⟨cs, by rw [hplan]; simp⟩
  refine ⟨done ++ [.send req], (called os).length, hpre, ?_, ?_⟩
  · have hmade := respond_mono handler hb.up.order state
    have hbytes := responseBytes_of_isPrefix hmade
    rw [length_respond] at hbytes
    rw [receives_concat, ← hrecv, show receives [.send req] = 0 from rfl, Nat.add_zero,
      responseBytes_of_isPrefix (hb.down.order.trans hmade), hbytes, hlenDown]
    simp only [Phase.got, Server.unsent, List.flatten_cons, List.length_append, List.length_nil]
    omega
  · have hplan' := hb.up.plan rfl
    rw [requestBytes_of_isPrefix hb.up.order, hall,
      requestBytes_of_isPrefix (by rw [hplan']; exact List.prefix_append _ _)]
    simp only [Phase.current] at hlenUp
    rw [hlenUp]
    simp only [Server.got, Phase.unsent, List.flatten_cons, List.length_append, List.length_nil]
    omega

/-- At rest, a client that has sent enough has had all its calls return, or is in `send`
against a server that is. -/
theorem Smooth.done_or_deadlocked {done : List Call} {t : Conn σ} (hup : 0 < net.upCap)
    (hdown : 0 < net.downCap) (hbal : Balanced calls) (hb : Books handler state calls os t)
    (hs : Smooth calls os done t) (hstuck : (machine net handler).Stuck t) :
    calls = done ∧ Done handler state calls os t ∨ Deadlocked net t := by
  obtain ⟨⟨cs, phase⟩, srv, up, down⟩ := t
  obtain ⟨hplan, hsent, hrecv, -, -, hlast, -, -⟩ := hs
  cases Link.stuck_cases (d := link net handler) hup hdown hstuck with
  | halted hleft hright =>
    obtain rfl : phase = .closed := phase_of_halted hleft
    obtain rfl : cs = [] := hlast rfl
    obtain rfl : calls = done := hplan.trans (List.append_nil _)
    refine .inl ⟨rfl, rfl, Server.eq_closed_of_halted hright, hsent, ?_⟩
    rw [← hrecv]
    exact List.prefix_iff_eq_take.mp (hb.down.order.trans (respond_mono handler hb.up.order state))
  | reading hleft hright hupEmpty hdownEmpty =>
    exfalso
    obtain ⟨got, hphase, hp⟩ := phase_of_read hleft
    obtain ⟨st, got', hsrv, hp'⟩ := server_of_read hright
    dsimp only at hphase hsrv hupEmpty hdownEmpty
    subst hphase hsrv hupEmpty hdownEmpty
    have hlen := hb.length_received hp hp'
    have hbalanced := hbal (done ++ [.recv]) ⟨cs, by rw [hplan]; simp [Client.todo]⟩
    rw [receives_concat, accepted_concat, ← hrecv, ← hsent, show accepted [.recv] = [] from rfl,
      show receives [.recv] = 1 from rfl, List.append_nil] at hbalanced
    omega
  | writing hleft hright hupFull hdownFull =>
    obtain ⟨req, rest, hphase⟩ := phase_of_write hleft
    obtain ⟨st, rest', hsrv⟩ := server_of_write hright
    exact .inr ⟨⟨req, _, rest, hphase⟩, ⟨st, _, rest', hsrv⟩, hupFull, hdownFull⟩

theorem Smooth.overcommits {done : List Call} {t : Conn σ}
    (hb : Books handler state calls os t) (hs : Smooth calls os done t)
    (hdead : Deadlocked net t) : Overcommits net handler state calls := by
  obtain ⟨⟨cs, phase⟩, srv, up, down⟩ := t
  obtain ⟨⟨req, part, rest, hphase⟩, ⟨st, part', rest', hsrv⟩, hupFull, hdownFull⟩ := hdead
  dsimp only at hphase hsrv
  subst hphase hsrv
  exact hb.overcommits (hs.up _ _ rfl _ List.mem_cons_self) (hs.down _ _ rfl _ List.mem_cons_self)
    hupFull hdownFull hs.plan hs.sent hs.received

/-- A client that asks for a response too many waits for it. -/
theorem Runs.false_of_unbalanced {pre : List Call} {t : Conn σ}
    (hmore : (accepted pre).length < receives pre) (hr : Runs net handler state calls os pre t)
    (hready : t.left.phase = .ready) : False := by
  have hserving := hr.smooth.serving (by rw [hready]; rintro ⟨⟩)
  have hcalled := (hr.books.up.flow hserving).order.length_le
  have hreceived := hr.books.down.order.length_le
  rw [length_respond] at hreceived
  rw [hready, hr.smooth.sent, Phase.current, List.append_nil] at hcalled
  have hrecv := hr.smooth.received
  omega

/-- A client that has overcommitted does not get to the end of the call. -/
theorem Runs.false_of_overcommits {pre : List Call} {t : Conn σ} {m : Nat}
    (hdown : responseBytes handler state calls (receives pre) + net.downCap <
      responseBytes handler state calls m)
    (hup : requestBytes calls m + net.upCap < requestBytes calls (accepted pre).length)
    (hr : Runs net handler state calls os pre t) (hready : t.left.phase = .ready) : False := by
  obtain ⟨⟨cs, phase⟩, srv, up, down⟩ := t
  dsimp only at hready
  subst hready
  obtain ⟨⟨hroomUp, hroomDown⟩, hb, hs⟩ := hr
  have hserving : srv.serving = true := hs.serving (by rintro ⟨⟩)
  have hflow : Flow Request.encode (sent os) (called os) srv.got up [] := by
    simpa using hb.up.flow hserving
  have hback : Flow Response.encode (respond handler state (called os)).2 (received os) [] down
      srv.unsent := (hb.down.way.of_serving hserving).2
  have hlenUp := hflow.length
  have hlenDown := hback.length
  rw [List.length_nil] at hlenUp hlenDown
  have hplan : sent os <+: accepted calls := by
    rw [hb.up.plan hserving, List.append_assoc]
    exact List.prefix_append _ _
  have horder := respond_mono handler hb.up.order state
  rw [← hs.sent, requestBytes_of_isPrefix hplan] at hup
  rw [← hs.received, responseBytes_of_isPrefix (hb.down.order.trans horder)] at hdown
  dsimp only [link] at hroomUp hroomDown
  -- the server has read the first `m` requests, which leave no room for what is sent
  have hle : m ≤ (called os).length := by
    by_contra hlt
    have hmost := hflow.length_read_le (Nat.not_le.mp hlt)
    have htake : (((sent os).take m).flatMap Request.encode).length ≤ requestBytes calls m := by
      obtain ⟨more, hmore⟩ := hplan
      rw [requestBytes, ← hmore, List.take_append, List.flatMap_append, List.length_append]
      exact Nat.le_add_right _ _
    omega
  -- but there is no room for the responses to them
  have hmade : responseBytes handler state calls m =
      (((respond handler state (called os)).2.take m).flatMap Response.encode).length := by
    obtain ⟨more, hmore⟩ := horder
    rw [responseBytes, ← hmore, List.take_append_of_le_length (by rwa [length_respond])]
  rw [hmade] at hdown
  rcases Nat.lt_or_eq_of_le hle with hlt | rfl
  · have hwritten := hback.length_written_ge (k := m) (by rwa [length_respond])
    rw [List.length_nil] at hwritten
    omega
  · cases srv with
    | reading st got =>
      rw [List.take_of_length_le (length_respond _ _ _).le] at hdown
      rw [Server.unsent, List.length_nil] at hlenDown
      omega
    | sending st parts =>
      rw [requestBytes_of_isPrefix hb.up.order] at hup
      rw [Server.got, List.length_nil] at hlenUp
      omega
    | closing => cases hserving
    | closed => cases hserving

/-- As long as the client cannot get to the end of `pre`, it is not there. -/
theorem Runs.short_of_run {pre : List Call} {t : Conn σ} (htimeout : net.timeout = false)
    (hfits : ∀ r ∈ (respond handler state (accepted calls)).2, r.frame.Fits)
    (hpre : pre <+: calls) (hpos : 0 < pre.length)
    (hblock : ∀ os (t : Conn σ), Runs net handler state calls os pre t → t.left.phase = .ready →
      False)
    (h : (machine net handler).Run Lib.Machine.anyStep (start state calls) os t) :
    ∃ done, Runs net handler state calls os done t ∧ done.length < calls.length := by
  have hnever : ∀ os done (t : Conn σ), Runs net handler state calls os done t →
      t.left.phase = .ready → done.length ≠ pre.length := by
    intro os done t hr hready hlen
    have hdone : done <+: calls := ⟨t.left.todo, hr.smooth.plan.symm⟩
    obtain rfl : done = pre :=
      (List.prefix_of_prefix_length_le hdone hpre hlen.le).eq_of_length hlen
    exact hblock os t hr hready
  obtain ⟨done, hr, hlt⟩ := Runs.of_run htimeout hfits hpos hnever h
  exact ⟨done, hr, hlt.trans_le hpre.length_le⟩

theorem not_completes_of_blocked {pre : List Call} (htimeout : net.timeout = false)
    (hfits : ∀ r ∈ (respond handler state (accepted calls)).2, r.frame.Fits)
    (hpre : pre <+: calls) (hpos : 0 < pre.length)
    (hblock : ∀ os (t : Conn σ), Runs net handler state calls os pre t → t.left.phase = .ready →
      False) : ¬ Completes net handler state calls := by
  intro hcompletes
  obtain ⟨os, t, hrun, hstuck⟩ :=
    Lib.Machine.exists_stuck (rank_step net handler) (start state calls)
  obtain ⟨done, hr, hlt⟩ := Runs.short_of_run htimeout hfits hpre hpos hblock hrun
  have hclosed := (hcompletes.done os t hrun hstuck).left
  have htodo : t.left.todo = [] := by rw [Client.todo, hclosed, hr.smooth.last hclosed]
  have hlen := congrArg List.length hr.smooth.plan
  rw [htodo, List.append_nil] at hlen
  omega

theorem completes_of_balanced (hup : 0 < net.upCap) (hdown : 0 < net.downCap)
    (htimeout : net.timeout = false)
    (hfits : ∀ r ∈ (respond handler state (accepted calls)).2, r.frame.Fits)
    (hbal : Balanced calls) (hcommit : ¬ Overcommits net handler state calls) :
    Completes net handler state calls := by
  refine ⟨⟨rank (start state calls), ?_⟩, ?_⟩
  · intro ls t os hexec
    have hle := Lib.Machine.length_exec_le (rank_step net handler) hexec
    omega
  · intro os t hrun hstuck
    obtain ⟨done, hr⟩ := Runs.exists_of_run htimeout hfits hrun
    rcases hr.smooth.done_or_deadlocked hup hdown hbal hr.books hstuck with ⟨-, hdone⟩ | hdead
    · exact hdone
    · exact absurd (hr.smooth.overcommits hr.books hdead) hcommit

theorem pos_of_overcommits {pre : List Call} {m : Nat}
    (hup : requestBytes calls m + net.upCap < requestBytes calls (accepted pre).length) :
    0 < pre.length := by
  apply List.length_pos_iff.mpr
  rintro rfl
  simp [requestBytes, accepted] at hup

/-- **When a pipelined client completes.**  Nothing else decides it: neither how the
two ends interleave nor how much a system call moves.  A client that has sent enough
comes to rest in a deadlock if it has overcommitted, and only then. -/
theorem completes_iff (hup : 0 < net.upCap) (hdown : 0 < net.downCap)
    (htimeout : net.timeout = false)
    (hfits : ∀ r ∈ (respond handler state (accepted calls)).2,
      r.payload.length ≤ kMaxPayloadBytes) :
    (Completes net handler state calls ↔
      Balanced calls ∧ ¬ Overcommits net handler state calls) ∧
    (Balanced calls → ∀ os t,
      (machine net handler).Run Lib.Machine.anyStep (start state calls) os t →
        (machine net handler).Stuck t →
          (Deadlocked net t ↔ Overcommits net handler state calls)) := by
  refine ⟨⟨?_, ?_⟩, ?_⟩
  · intro hcompletes
    refine ⟨?_, ?_⟩
    · intro pre hpre
      by_contra hmore
      refine not_completes_of_blocked htimeout hfits hpre ?_ ?_ hcompletes
      · apply List.length_pos_iff.mpr
        rintro rfl
        exact hmore le_rfl
      · intro os t hr hready
        exact hr.false_of_unbalanced (Nat.not_le.mp hmore) hready
    · rintro ⟨pre, m, hpre, hd, hu⟩
      refine not_completes_of_blocked htimeout hfits hpre (pos_of_overcommits hu) ?_ hcompletes
      intro os t hr hready
      exact hr.false_of_overcommits hd hu hready
  · rintro ⟨hbal, hcommit⟩
    exact completes_of_balanced hup hdown htimeout hfits hbal hcommit
  · intro hbal os t hrun hstuck
    constructor
    · intro hdead
      obtain ⟨done, hr⟩ := Runs.exists_of_run htimeout hfits hrun
      exact hr.smooth.overcommits hr.books hdead
    · rintro ⟨pre, m, hpre, hd, hu⟩
      obtain ⟨done, hr, hlt⟩ := Runs.short_of_run htimeout hfits hpre (pos_of_overcommits hu)
        (fun os t hr hready => hr.false_of_overcommits hd hu hready) hrun
      refine (hr.smooth.done_or_deadlocked hup hdown hbal hr.books hstuck).resolve_left ?_
      rintro ⟨rfl, -⟩
      exact absurd hlt (Nat.lt_irrefl _)

/-- Two requests, sent before the response to the first is received. -/
def ahead : List Call := [.send ⟨7, 0, [1]⟩, .send ⟨8, 0, [2]⟩, .recv, .recv]

/-- With four bytes of buffer each way both ends come to wait for ever; with room for the
two responses all calls return. -/
theorem completes_iff_deadlock :
    ¬ Completes ⟨4, 4, false⟩ echo 0 ahead ∧
      (∃ os t, (machine ⟨4, 4, false⟩ echo).Run Lib.Machine.anyStep (start 0 ahead) os t ∧
        Deadlocked ⟨4, 4, false⟩ t) ∧
      Completes ⟨4, 20, false⟩ echo 0 ahead := by
  have hbal : Balanced ahead := by decide
  have hover : Overcommits ⟨4, 4, false⟩ echo 0 ahead :=
    ⟨[.send ⟨7, 0, [1]⟩, .send ⟨8, 0, [2]⟩], 1, by decide, by decide, by decide⟩
  obtain ⟨os, t, hrun, hstuck⟩ :=
    Lib.Machine.exists_stuck (rank_step ⟨4, 4, false⟩ echo) (start 0 ahead)
  have hdead : Deadlocked ⟨4, 4, false⟩ t :=
    ((completes_iff (by decide) (by decide) (by rfl) (by decide)).2 hbal os t hrun hstuck).mpr hover
  refine ⟨fun hcompletes => ?_, ⟨os, t, hrun, hdead⟩, ?_⟩
  · have hboth := (completes_iff (by decide) (by decide) (by rfl) (by decide)).1.mp hcompletes
    exact hboth.2 hover
  refine (completes_iff (by decide) (by decide) (by rfl) (by decide)).1.mpr ⟨hbal, ?_⟩
  rintro ⟨pre, m, -, hd, -⟩
  have hall : (((respond echo 0 (accepted ahead)).2).flatMap Response.encode).length = 20 := by
    decide
  have hmost : responseBytes echo 0 ahead m ≤ 20 :=
    (((List.take_prefix m _).flatMap _).length_le).trans hall.le
  dsimp only at hd
  omega

/-! ### One request at a time -/

theorem requestBytes_mono (calls : List Call) {m n : Nat} (h : m ≤ n) :
    requestBytes calls m ≤ requestBytes calls n :=
  ((List.take_prefix_take_left h).flatMap _).length_le

theorem responseBytes_mono (handler : σ → Request → σ × Response) (state : σ) (calls : List Call)
    {m n : Nat} (h : m ≤ n) :
    responseBytes handler state calls m ≤ responseBytes handler state calls n :=
  ((List.take_prefix_take_left h).flatMap _).length_le

/-- **A client with one request under way at a time completes**, whatever the sizes
of requests and buffers. -/
theorem completes_of_one_outstanding (hup : 0 < net.upCap) (hdown : 0 < net.downCap)
    (htimeout : net.timeout = false)
    (hfits : ∀ r ∈ (respond handler state (accepted calls)).2,
      r.payload.length ≤ kMaxPayloadBytes)
    (hone : ∀ pre, pre <+: calls →
      receives pre ≤ (accepted pre).length ∧ (accepted pre).length ≤ receives pre + 1) :
    Completes net handler state calls := by
  refine completes_of_balanced hup hdown htimeout hfits (fun pre hpre => (hone pre hpre).1) ?_
  rintro ⟨pre, m, hpre, hd, hu⟩
  have hm : receives pre < m := by
    by_contra hle
    have hmono := responseBytes_mono handler state calls (Nat.not_lt.mp hle)
    omega
  have hmore : m < (accepted pre).length := by
    by_contra hle
    have hmono := requestBytes_mono calls (Nat.not_lt.mp hle)
    omega
  have hwindow := (hone pre hpre).2
  omega

/-- Through buffers of one byte. -/
theorem completes_of_one_outstanding_one_byte :
    Completes ⟨1, 1, false⟩ echo 0 [.send ⟨7, 0, [1, 2, 3]⟩, .recv, .send ⟨8, 0, []⟩, .recv] := by
  refine completes_of_one_outstanding (by decide) (by decide) rfl (by decide) ?_
  intro pre hpre
  have hall : ∀ pre ∈ List.inits [.send ⟨7, 0, [1, 2, 3]⟩, .recv, .send ⟨8, 0, []⟩, .recv],
      receives pre ≤ (accepted pre).length ∧ (accepted pre).length ≤ receives pre + 1 := by
    decide
  exact hall pre ((List.mem_inits _ _).mpr hpre)

end HftComponents.Tcp.Loopback
