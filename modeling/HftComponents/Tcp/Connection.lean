import HftComponents.Tcp.Framing

/-!
# One connection

`TcpServer::handle_connection`: receive a request, call the handler, send the
response, until one of the two transfers fails; then close the descriptor.

Whatever the client sends, the requests handled are those of the longest prefix
of its bytes that is a concatenation of frames of admissible size, and the
bytes written are their responses (`connection_serves`).  Every request takes
at least nine bytes off the stream, so the loop ends.
-/

namespace HftComponents.Tcp

open Lib.Transfer Lib.PrefixCode

/-- What a connection does besides its transfers: it calls the handler, and it
closes the descriptor. -/
inductive Action
  | called (req : Request)
  | closed
  deriving DecidableEq, Repr

/-- A connection, with what the handler keeps between calls. -/
structure Connection (σ : Type) where
  state : σ
  source : Source UInt8
  sink : Sink UInt8
  trace : List Action := []

variable {σ : Type}

def Connection.close (c : Connection σ) : Connection σ := { c with trace := c.trace ++ [.closed] }

def Request.encode (r : Request) : List UInt8 := r.frame.encode

def Response.encode (r : Response) : List UInt8 := r.frame.encode

def Request.Fits (r : Request) : Prop := r.frame.Fits

theorem recvRequest_some {s t : Source UInt8} {r : Request} (h : recvRequest s = (some r, t)) :
    recvFrame s = (some r.frame, t) := by
  obtain ⟨hr, rfl⟩ := Prod.mk.inj h
  obtain ⟨f, hf, rfl⟩ := Option.map_eq_some_iff.mp hr
  exact Prod.ext hf rfl

theorem recvRequest_none {s t : Source UInt8} (h : recvRequest s = (none, t)) :
    recvFrame s = (none, t) := by
  obtain ⟨hr, rfl⟩ := Prod.mk.inj h
  exact Prod.ext (Option.map_eq_none_iff.mp hr) rfl

theorem length_encode_pos (f : Frame) : 0 < f.encode.length := by
  rw [Frame.encode, List.length_append]
  exact Nat.add_pos_left (by decide : 0 < 4) _

def handleConnection (handler : σ → Request → σ × Response) (c : Connection σ) : Connection σ :=
  match h : recvRequest c.source with
  | (none, s) => { c with source := s }.close
  | (some req, s) =>
    let (state, resp) := handler c.state req
    let c := { c with state := state, source := s, trace := c.trace ++ [Action.called req] }
    match sendResponse c.sink resp with
    | (false, u) => { c with sink := u }.close
    | (true, u) => handleConnection handler { c with sink := u }
termination_by c.source.unread.length
decreasing_by
  have hread := (recvFrame_some (recvRequest_some h)).2.1
  have hpos := length_encode_pos req.frame
  show s.unread.length < _
  rw [hread, List.length_append]
  omega

/-- The responses to a list of requests, and what the handler keeps. -/
def respond (handler : σ → Request → σ × Response) : σ → List Request → σ × List Response
  | state, [] => (state, [])
  | state, r :: rs =>
    let (state, resp) := handler state r
    let (state, resps) := respond handler state rs
    (state, resp :: resps)

theorem prefixFree_request : PrefixFree Request.encode Request.Fits := by
  intro r r' a b hr hr' heq
  obtain ⟨hframe, hab⟩ := prefixFree_encode r.frame r'.frame a b hr hr' heq
  exact ⟨congrArg Frame.request hframe, hab⟩

/-- What the connection `d` has done, that `c` is still to do. -/
structure Serves (handler : σ → Request → σ × Response) (c d : Connection σ) (rs : List Request)
    (rest : List UInt8) : Prop where
  maximal : Maximal Request.encode Request.Fits c.source.unread rs rest
  trace : d.trace = c.trace ++ rs.map Action.called ++ [.closed]
  sent : d.sink.sent = c.sink.sent ++ (respond handler c.state rs).2.flatMap Response.encode
  state : d.state = (respond handler c.state rs).1
  invalid : InvalidLength rest → d.source.unread = rest.drop 4
  truncated : ¬ InvalidLength rest → d.source.unread = []

theorem Serves.cons {handler : σ → Request → σ × Response} {c d : Connection σ}
    {req : Request} {rs : List Request} {rest : List UInt8} {s : Source UInt8} {v : Sink UInt8}
    {state : σ} {resp : Response}
    (h : Serves handler ⟨state, s, v, c.trace ++ [.called req]⟩ d rs rest) (hfits : req.Fits)
    (hread : c.source.unread = req.encode ++ s.unread) (hcall : handler c.state req = (state, resp))
    (hsent : v.sent = c.sink.sent ++ resp.encode) : Serves handler c d (req :: rs) rest where
  maximal := by
    rw [hread]
    exact h.maximal.cons prefixFree_request hfits
  trace := by
    rw [h.trace, List.map_cons]
    simp only [List.append_assoc, List.cons_append, List.nil_append]
  sent := by
    rw [h.sent, respond, hcall]
    show v.sent ++ _ = c.sink.sent ++ (resp.encode ++ _)
    rw [hsent, List.append_assoc]
    rfl
  state := by
    rw [h.state, respond, hcall]
  invalid := h.invalid
  truncated := h.truncated

/-- **The output of a connection is that of the longest well-formed prefix of
its input.** -/
theorem connection_serves {handler : σ → Request → σ × Response} {c : Connection σ}
    (hhandler : ∀ state r, (handler state r).2.payload.length ≤ kMaxPayloadBytes)
    (hsource : c.source.Clean) (hsink : c.sink.Clean) :
    ∃ rs rest, Serves handler c (handleConnection handler c) rs rest := by
  induction hn : c.source.unread.length using Nat.strong_induction_on generalizing c with
  | _ n ih =>
    rw [handleConnection]
    split
    · rename_i s hrecv
      have hnone := recvRequest_none hrecv
      obtain ⟨hinv, htrunc⟩ := recvFrame_none hnone hsource
      refine ⟨[], c.source.unread, ?_, ?_, ?_, rfl, hinv, htrunc⟩
      · apply Maximal.nil
        intro r hr hpre
        obtain ⟨tail, htail⟩ := hpre
        obtain ⟨t, ht, -⟩ := recvFrame_append hsource hr htail.symm
        rw [hnone] at ht
        cases ht
      · rw [List.map_nil, List.append_nil]
        rfl
      · exact (List.append_nil _).symm
    · rename_i req s hrecv
      obtain ⟨hfits, hread, hclean⟩ := recvFrame_some (recvRequest_some hrecv)
      rcases hcall : handler c.state req with ⟨state, resp⟩
      have hlen := hhandler c.state req
      rw [hcall] at hlen
      obtain ⟨v, hsend, hsent, hv⟩ := sendFrame_of_fits (f := resp.frame) hsink hlen
      dsimp only
      rw [show sendResponse c.sink resp = (true, v) from hsend]
      dsimp only
      have hshort : s.unread.length < n := by
        have hpos := length_encode_pos req.frame
        rw [← hn, hread, List.length_append]
        omega
      obtain ⟨rs, rest, h⟩ := ih _ hshort
        (c := ⟨state, s, v, c.trace ++ [.called req]⟩) (hclean hsource) hv rfl
      exact ⟨req :: rs, rest, h.cons hfits hread hcall hsent⟩

/-- A request, then a length of 3 and a stray byte, received in pieces and ended
by an error; the handler counts. -/
theorem connection_serves_malformed :
    let handler : Nat → Request → Nat × Response := fun n r => (n + 1, ⟨r.id, ⟨0⟩, []⟩)
    let c : Connection Nat :=
      { state := 0
        source := ⟨[0, 0, 0, 6, 0, 0, 0, 9, 1, 42] ++ [0, 0, 0, 3, 88], [.upTo 2, .upTo 5], .error⟩
        sink := ⟨[], [.upTo 1]⟩ }
    ∃ rs rest, Serves handler c (handleConnection handler c) rs rest :=
  connection_serves (fun _ _ => Nat.zero_le _) (by decide : Reply.error ∉ _)
    (by decide : Reply.error ∉ _)

end HftComponents.Tcp
