import HftComponents.Tcp.Connection
import HftComponents.Tcp.ThreadPool

/-!
# The server

`TcpServer`: the accept loop, the stop pipe, the thread pool whose tasks are
`handle_connection`, and the destructor, which shuts the pool down and joins its
workers.  A client is the bytes that it will ever send.

A call of `recv_request` or `send_response` is one step, with any answers of the
system calls it makes; nothing else in the server sees what it does before it
returns.
-/

namespace HftComponents.Tcp.TcpServer

open Lib.Transfer
open ThreadPool (Worker)

/-- Where `handle_connection` is. -/
inductive Handle
  | reading
  | handling (req : Request)
  | sending (resp : Response)
  | closed
  deriving DecidableEq, Repr

/-- A task of the pool: `id` counts the connections accepted, `unread` is what
the client has yet to send or the server to read. -/
structure Conn where
  id : Nat
  unread : List UInt8
  ending : Ending
  handle : Handle := .reading
  deriving DecidableEq, Repr

/-- What the accept loop has registered with `epoll`. -/
inductive Fd
  | server
  | stopPipe
  deriving DecidableEq, Repr

/-- Where `accept_loop` is; `fds` are the events that it has yet to look at, and
in `notify` it is in `submit`, about to notify. -/
inductive Loop
  | idle
  | wait
  | handle (fds : List Fd)
  | notify (fds : List Fd)
  | returned
  deriving DecidableEq, Repr

def Loop.active : Loop → Bool
  | .idle | .returned => false
  | _ => true

/-- `backlog` are the clients that wait to be accepted, `pipe` is the number of
bytes in the stop pipe.  The destructor has begun when `stop_` of the pool is
set. -/
structure State where
  pool : ThreadPool.State Conn
  backlog : List (List UInt8 × Ending) := []
  pipe : Nat := 0
  loop : Loop := .idle
  accepted : Nat := 0

/-- The answers in `recv` and `send` are those of the system calls. -/
inductive Label
  | connect (input : List UInt8) (ending : Ending)
  | run
  | stop
  | epollWait (swap : Bool)
  | epollFail (interrupted : Bool)
  | event (ok : Bool)
  | notify (w : Option Nat)
  | worker (i : Nat)
  | wakeUp (i : Nat)
  | recv (i : Nat) (answers : List Reply)
  | respond (i : Nat) (resp : Response)
  | send (i : Nat) (answers : List Reply)
  | destroy
  | notifyAll
  | join

/-- `worked` is any step of a worker. -/
inductive Event
  | stopped
  | accepted (id : Nat)
  | called (id : Nat) (req : Request)
  | closed (id : Nat)
  | destroying
  | worked
  deriving DecidableEq, Repr

def onPool (s : State) (l : ThreadPool.Label Conn) (os : List Event) :
    Option (State × List Event) :=
  (ThreadPool.step s.pool l).map fun p => ({ s with pool := p.1 }, os)

/-- The descriptors that are readable. -/
def ready (s : State) : List Fd :=
  (if s.backlog = [] then [] else [.server]) ++ (if s.pipe = 0 then [] else [.stopPipe])

/-- One event of the accept loop; `ok` is the outcome of `accept4`. -/
def event (s : State) (ok : Bool) : Option (State × List Event) :=
  match s.loop with
  | .handle [] => some ({ s with loop := .wait }, [])
  | .handle (.stopPipe :: _) => some ({ s with loop := .returned }, [])
  | .handle (.server :: fds) =>
    if !ok then some ({ s with loop := .handle fds }, [])
    else
      match s.backlog with
      | [] => none
      | (input, ending) :: backlog =>
        (ThreadPool.step s.pool (.submit ⟨s.accepted, input, ending, .reading⟩)).map fun p =>
          ({ s with
            pool := p.1
            backlog := backlog
            loop := .notify fds
            accepted := s.accepted + 1 }, [.accepted s.accepted])
  | _ => none

/-- A worker takes the mutex, or is done with a connection. -/
def worker (s : State) (i : Nat) : Option (State × List Event) :=
  match s.pool.workers[i]? with
  | some (.running c) => if c.handle = .closed then onPool s (.work i) [.worked] else none
  | _ => onPool s (.work i) [.worked]

namespace Conn

/-- `recv_request`, and the start of the handler or `close`. -/
def recv (c : Conn) (answers : List Reply) : Option (Conn × List Event) :=
  match c.handle with
  | .reading =>
    match recvRequest ⟨c.unread, answers, c.ending⟩ with
    | (some req, t) =>
      some ({ c with unread := t.unread, handle := .handling req }, [.called c.id req])
    | (none, t) => some ({ c with unread := t.unread, handle := .closed }, [.closed c.id])
  | _ => none

/-- The handler returns `resp`. -/
def respond (c : Conn) (resp : Response) : Option (Conn × List Event) :=
  match c.handle with
  | .handling _ => some ({ c with handle := .sending resp }, [])
  | _ => none

/-- `send_response`, and `close` if it fails. -/
def send (c : Conn) (answers : List Reply) : Option (Conn × List Event) :=
  match c.handle with
  | .sending resp =>
    if (sendResponse ⟨[], answers⟩ resp).1 then some ({ c with handle := .reading }, [])
    else some ({ c with handle := .closed }, [.closed c.id])
  | _ => none

end Conn

/-- A step of `handle_connection` in worker `i`. -/
def serve (s : State) (i : Nat) (f : Conn → Option (Conn × List Event)) :
    Option (State × List Event) :=
  match s.pool.workers[i]? with
  | some (.running c) =>
    (f c).map fun p =>
      ({ s with pool := { s.pool with workers := s.pool.workers.set i (.running p.1) } },
        .worked :: p.2)
  | _ => none

/-- A caller does not destroy the server while `run` has not returned, and calls
neither `run` nor `stop` on what is being destroyed. -/
def step (s : State) : Label → Option (State × List Event)
  | .connect input ending =>
    if s.pool.stop then none else some ({ s with backlog := s.backlog ++ [(input, ending)] }, [])
  | .run =>
    if s.pool.stop || s.loop.active then none else some ({ s with loop := .wait }, [])
  | .stop => if s.pool.stop then none else some ({ s with pipe := s.pipe + 1 }, [.stopped])
  | .epollWait swap =>
    match s.loop with
    | .wait =>
      if ready s = [] then none
      else some ({ s with loop := .handle (if swap then (ready s).reverse else ready s) }, [])
    | _ => none
  | .epollFail interrupted =>
    match s.loop with
    | .wait => some ({ s with loop := if interrupted then .wait else .returned }, [])
    | _ => none
  | .event ok => event s ok
  | .notify w =>
    match s.loop with
    | .notify fds => (onPool s (.notify w) []).map fun p => ({ p.1 with loop := .handle fds }, [])
    | _ => none
  | .worker i => worker s i
  | .wakeUp i => onPool s (.wakeUp i) [.worked]
  | .recv i answers => serve s i fun c => c.recv answers
  | .respond i resp => serve s i fun c => c.respond resp
  | .send i answers => serve s i fun c => c.send answers
  | .destroy => if s.loop.active then none else onPool s .stop [.destroying]
  | .notifyAll => onPool s .notifyAll []
  | .join => onPool s .join []

def machine : Lib.Machine State Label Event := ⟨step⟩

/-- The constructor. -/
def init (numWorkers : Nat) : State := { pool := ThreadPool.init numWorkers }

end HftComponents.Tcp.TcpServer
