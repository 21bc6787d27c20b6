import HftComponents.Lib.Resources
import HftComponents.Pool.Slab
import HftComponents.Spsc.Segment

/-!
# Descriptors, mappings and threads

The constructors and destructors of the classes, and the moves of `SharedBus`, by what
they ask of the system.  Every call of the system may fail.  A field that holds `-1` or
`nullptr` is `none`.

In every run of any number of such calls, in any number of threads, what is open is what
the objects own and what the calls under way hold, and nothing else is ever used, closed,
unmapped or joined (`resources_balanced`).
-/

namespace HftComponents.Common.Ownership

open Lib.Resources

/-- `addresses` is the list that `getaddrinfo` returns.  What is unmapped with another
length than that of the mapping would be another resource. -/
inductive Kind
  | descriptor
  | addresses
  | mapping (size : UInt64)
  | numa (size : UInt64)
  | thread
  deriving DecidableEq, Repr

/-- `if (fd >= 0) close(fd)`. -/
def closeFd : Option Nat → Prog Kind Unit
  | some fd => release (.descriptor, fd)
  | none => pure ()

/-! ### The server -/

/-- `emplace_back` of a thread, `n` times.  When the constructor of a thread throws, those
in `workers_` are destroyed while they are joinable. -/
def spawn : Nat → List Nat → Prog Kind (List Nat)
  | 0, workers => return workers
  | n + 1, workers => do
    let some w ← acquire .thread
      | if workers = [] then .throw else .terminate
    spawn n (workers ++ [w])

def shutdown (workers : List Nat) : Prog Kind Unit :=
  releaseAll (workers.map fun w => (.thread, w))

def makeServerSocket : Prog Kind Nat := do
  let some fd ← acquire .descriptor | .throw
  -- `setsockopt`
  let _ ← use (.descriptor, fd)
  -- `bind`
  unless (← use (.descriptor, fd)).isSome do
    release (.descriptor, fd)
    Prog.throw
  -- `listen`
  unless (← use (.descriptor, fd)).isSome do
    release (.descriptor, fd)
    Prog.throw
  return fd

/-- `pipe`: both ends, or none. -/
def pipe : Prog Kind (Option (Nat × Nat)) := do
  let some r ← acquire .descriptor | return none
  let some w ← acquire .descriptor
    | release (.descriptor, r)
      return none
  return some (r, w)

structure TcpServer where
  serverFd : Option Nat := none
  workers : List Nat := []
  stopPipe : Option Nat × Option Nat := (none, none)
  deriving DecidableEq, Repr

/-- When the body throws, `pool_` is destroyed. -/
def TcpServer.construct (numWorkers : Nat) : Prog Kind TcpServer := do
  let workers ← spawn numWorkers []
  Prog.onThrow (shutdown workers) do
    let fd ← makeServerSocket
    let some (r, w) ← pipe
      | release (.descriptor, fd)
        .throw
    return ⟨some fd, workers, some r, some w⟩

def TcpServer.destroy (s : TcpServer) : Prog Kind Unit := do
  closeFd s.serverFd
  closeFd s.stopPipe.1
  closeFd s.stopPipe.2
  shutdown s.workers

/-! ### The client -/

structure TcpClient where
  fd : Option Nat := none
  deriving DecidableEq, Repr

def TcpClient.construct : Prog Kind TcpClient := do
  let some res ← acquire .addresses | .throw
  -- `socket`
  let _ ← use (.addresses, res)
  let some fd ← acquire .descriptor
    | release (.addresses, res)
      .throw
  -- `setsockopt`
  let _ ← use (.descriptor, fd)
  -- `connect`
  let _ ← use (.addresses, res)
  unless (← use (.descriptor, fd)).isSome do
    release (.addresses, res)
    release (.descriptor, fd)
    Prog.throw
  release (.addresses, res)
  return ⟨some fd⟩

def TcpClient.destroy (c : TcpClient) : Prog Kind Unit := closeFd c.fd

/-! ### The timer -/

structure EpollTimer where
  epollFd : Option Nat := none
  timerFd : Option Nat := none
  deriving DecidableEq, Repr

def EpollTimer.construct : Prog Kind EpollTimer := do
  let some epollFd ← acquire .descriptor | .throw
  let some timerFd ← acquire .descriptor
    | release (.descriptor, epollFd)
      .throw
  -- `epoll_ctl`
  let _ ← use (.descriptor, timerFd)
  unless (← use (.descriptor, epollFd)).isSome do
    release (.descriptor, timerFd)
    release (.descriptor, epollFd)
    Prog.throw
  return ⟨some epollFd, some timerFd⟩

def EpollTimer.destroy (t : EpollTimer) : Prog Kind Unit := do
  closeFd t.timerFd
  closeFd t.epollFd

/-! ### The bus -/

structure Notifier where
  efd : Option Nat := none
  deriving DecidableEq, Repr

def Notifier.construct : Prog Kind Notifier := do
  let some efd ← acquire .descriptor | .throw
  return ⟨some efd⟩

def Notifier.destroy (n : Notifier) : Prog Kind Unit := closeFd n.efd

structure SharedBus where
  mem : Option Nat := none
  size : UInt64 := 0
  deriving DecidableEq, Repr

namespace SharedBus

def create (capacity maxMsgSize : UInt32) (lockMemory : Bool) : Prog Kind SharedBus := do
  if capacity = 0 ∨ capacity &&& (capacity - 1) ≠ 0 then Prog.throw
  if maxMsgSize = 0 then Prog.throw
  let sz := Spsc.computeShmSize capacity maxMsgSize
  let some fd ← acquire .descriptor | .throw
  -- `ftruncate`
  unless (← use (.descriptor, fd)).isSome do
    release (.descriptor, fd)
    Prog.throw
  -- `mmap`
  let _ ← use (.descriptor, fd)
  let mem ← acquire (.mapping sz)
  release (.descriptor, fd)
  let some mem := mem | .throw
  if lockMemory then
    let _ ← use (.mapping sz, mem)
  -- `memset` and the control block
  let _ ← use (.mapping sz, mem)
  return ⟨some mem, sz⟩

/-- The segment is not there yet: throw, or sleep and try again. -/
def retry (timeoutMs : Int) : Prog Kind SharedBus := do
  if timeoutMs = 0 then .throw
  else if 0 < timeoutMs ∧ (← ask).isSome then .throw
  else .again

/-- Every turn of the loop starts with nothing. -/
def openBus (timeoutMs : Int) (lockMemory : Bool) : Prog Kind SharedBus := do
  let some fd ← acquire .descriptor
    | -- `errno == ENOENT`
      if (← ask).isSome then retry timeoutMs else .throw
  -- `fstat`
  let sz := UInt64.ofNat ((← use (.descriptor, fd)).getD 0)
  if sz < Spsc.sizeofControlBlock.toUInt64 then
    release (.descriptor, fd)
    retry timeoutMs
  else
    -- `mmap`
    let _ ← use (.descriptor, fd)
    let mem ← acquire (.mapping sz)
    release (.descriptor, fd)
    let some mem := mem | .throw
    if lockMemory then
      let _ ← use (.mapping sz, mem)
    -- `while (cb->magic != kMagic)`
    poll
    let _ ← use (.mapping sz, mem)
    return ⟨some mem, sz⟩

def destroy (b : SharedBus) : Prog Kind Unit :=
  match b.mem with
  | some mem => release (.mapping b.size, mem)
  | none => pure ()

/-- What a move leaves behind. -/
def moved : SharedBus := {}

/-- The new value of `*this`; `o` is another object. -/
def moveAssign (b o : SharedBus) : Prog Kind SharedBus := do
  b.destroy
  return o

end SharedBus

/-! ### The pools -/

/-- Without `POOL_NUMA`, `numaLocal` is false. -/
structure PoolOptions where
  lockMemory : Bool := false
  numaLocal : Bool := false
  deriving DecidableEq, Repr

structure MemoryPool where
  backing : Option Nat := none
  backingSize : UInt64 := 0
  numaBacking : Bool := false
  deriving DecidableEq, Repr

/-- `map_backing`. -/
def MemoryPool.construct (blockSize numBlocks : UInt64) (opts : PoolOptions) :
    Prog Kind MemoryPool := do
  let blockSize := Pool.alignUp (max blockSize Pool.kCacheLine) Pool.kCacheLine
  let numBlocks := Pool.nextPow2 (max numBlocks 2)
  let size := blockSize * numBlocks
  -- `numa_available`
  if opts.numaLocal ∧ (← ask).isSome then
    let some mem ← acquire (.numa size) | .throw
    if opts.lockMemory then
      let _ ← use (.numa size, mem)
    return ⟨some mem, size, true⟩
  else
    let some mem ← acquire (.mapping size) | .throw
    if opts.lockMemory then
      let _ ← use (.mapping size, mem)
    return ⟨some mem, size, false⟩

def MemoryPool.destroy (p : MemoryPool) : Prog Kind Unit :=
  match p.backing with
  | none => pure ()
  | some mem =>
    if p.numaBacking then release (.numa p.backingSize, mem)
    else release (.mapping p.backingSize, mem)

/-- `pools_`, the last one first. -/
structure SlabPool where
  pools : List MemoryPool := []
  deriving DecidableEq, Repr

def SlabPool.destroy (s : SlabPool) : Prog Kind Unit := s.pools.forM MemoryPool.destroy

/-- When a pool cannot be made, those before it are destroyed. -/
def SlabPool.fill (blocksPerClass : UInt64) (opts : PoolOptions) :
    List UInt64 → SlabPool → Prog Kind SlabPool
  | [], s => return s
  | bytes :: rest, s => do
    let p ← Prog.onThrow s.destroy (MemoryPool.construct bytes blocksPerClass opts)
    fill blocksPerClass opts rest ⟨p :: s.pools⟩

def SlabPool.construct (blocksPerClass : UInt64) (opts : PoolOptions) : Prog Kind SlabPool :=
  fill blocksPerClass opts (List.ofFn Pool.Slab.kSizeClassBytes) {}

/-! ### Objects and calls -/

inductive Object
  | tcpServer (s : TcpServer)
  | tcpClient (c : TcpClient)
  | epollTimer (t : EpollTimer)
  | notifier (n : Notifier)
  | sharedBus (b : SharedBus)
  | memoryPool (p : MemoryPool)
  | slabPool (s : SlabPool)
  deriving DecidableEq, Repr

def Object.destroy : Object → Prog Kind Unit
  | .tcpServer s => s.destroy
  | .tcpClient c => c.destroy
  | .epollTimer t => t.destroy
  | .notifier n => n.destroy
  | .sharedBus b => b.destroy
  | .memoryPool p => p.destroy
  | .slabPool s => s.destroy

inductive Operation
  | newTcpServer (numWorkers : Nat)
  | newTcpClient
  | newEpollTimer
  | newNotifier
  | create (capacity maxMsgSize : UInt32) (lockMemory : Bool)
  | openBus (timeoutMs : Int) (lockMemory : Bool)
  | move (o : SharedBus)
  | moveAssign (b o : SharedBus)
  | selfAssign (b : SharedBus)
  | newMemoryPool (blockSize numBlocks : UInt64) (opts : PoolOptions)
  | newSlabPool (blocksPerClass : UInt64) (opts : PoolOptions)
  | destroy (x : Object)
  deriving DecidableEq, Repr

namespace Operation

def takes : Operation → Multiset Object
  | .move o => {.sharedBus o}
  | .moveAssign b o => {.sharedBus b, .sharedBus o}
  | .selfAssign b => {.sharedBus b}
  | .destroy x => {x}
  | _ => 0

def body : Operation → Prog Kind (Multiset Object)
  | .newTcpServer numWorkers => return {.tcpServer (← TcpServer.construct numWorkers)}
  | .newTcpClient => return {.tcpClient (← TcpClient.construct)}
  | .newEpollTimer => return {.epollTimer (← EpollTimer.construct)}
  | .newNotifier => return {.notifier (← Notifier.construct)}
  | .create capacity maxMsgSize lockMemory =>
    return {.sharedBus (← SharedBus.create capacity maxMsgSize lockMemory)}
  | .openBus timeoutMs lockMemory =>
    return {.sharedBus (← SharedBus.openBus timeoutMs lockMemory)}
  | .move o => return {.sharedBus o, .sharedBus .moved}
  | .moveAssign b o => return {.sharedBus (← b.moveAssign o), .sharedBus .moved}
  | .selfAssign b => return {.sharedBus b}
  | .newMemoryPool blockSize numBlocks opts =>
    return {.memoryPool (← MemoryPool.construct blockSize numBlocks opts)}
  | .newSlabPool blocksPerClass opts =>
    return {.slabPool (← SlabPool.construct blocksPerClass opts)}
  | .destroy x => do
    x.destroy
    return 0

end Operation

/-! ### What an object owns -/

def owned (kind : Kind) : Option Nat → Multiset (Resource Kind)
  | some n => {(kind, n)}
  | none => 0

def threads (workers : List Nat) : Multiset (Resource Kind) :=
  ↑(workers.map fun w => ((Kind.thread, w) : Resource Kind))

def MemoryPool.kind (p : MemoryPool) : Kind :=
  if p.numaBacking then .numa p.backingSize else .mapping p.backingSize

def MemoryPool.owns (p : MemoryPool) : Multiset (Resource Kind) := owned p.kind p.backing

def Object.owns : Object → Multiset (Resource Kind)
  | .tcpServer s =>
    owned .descriptor s.serverFd + (owned .descriptor s.stopPipe.1 +
      (owned .descriptor s.stopPipe.2 + threads s.workers))
  | .tcpClient c => owned .descriptor c.fd
  | .epollTimer t => owned .descriptor t.timerFd + owned .descriptor t.epollFd
  | .notifier n => owned .descriptor n.efd
  | .sharedBus b => owned (.mapping b.size) b.mem
  | .memoryPool p => p.owns
  | .slabPool s => (s.pools.map MemoryPool.owns).sum

def api : Api Operation Kind Object where
  takes := Operation.takes
  body := Operation.body
  owns := Object.owns

/-! ### Destructors -/

section

variable {restart : Multiset (Resource Kind) → Prop} {held : Multiset (Resource Kind)}
  {post : Unit → Multiset (Resource Kind) → Prop}

@[simp]
theorem safe_closeFd {fd : Option Nat} :
    Safe restart post (closeFd fd) (owned .descriptor fd + held) ↔ post () held := by
  cases fd with
  | none => simp [closeFd, owned]
  | some fd => simp [closeFd, owned]

@[simp]
theorem safe_shutdown {workers : List Nat} :
    Safe restart post (shutdown workers) (threads workers + held) ↔ post () held :=
  safe_releaseAll

@[simp]
theorem safe_destroyBus {b : SharedBus} :
    Safe restart post b.destroy (owned (.mapping b.size) b.mem + held) ↔ post () held := by
  obtain ⟨mem, size⟩ := b
  cases mem with
  | none => simp [SharedBus.destroy, owned]
  | some mem => simp [SharedBus.destroy, owned]

@[simp]
theorem safe_destroyPool {p : MemoryPool} :
    Safe restart post p.destroy (p.owns + held) ↔ post () held := by
  obtain ⟨backing, size, numa⟩ := p
  cases backing with
  | none => simp [MemoryPool.destroy, MemoryPool.owns, owned]
  | some mem =>
    cases numa with
    | false => simp [MemoryPool.destroy, MemoryPool.owns, MemoryPool.kind, owned]
    | true => simp [MemoryPool.destroy, MemoryPool.owns, MemoryPool.kind, owned]

@[simp]
theorem safe_destroySlab {s : SlabPool} :
    Safe restart post s.destroy ((s.pools.map MemoryPool.owns).sum + held) ↔ post () held := by
  obtain ⟨pools⟩ := s
  induction pools with
  | nil => simp [SlabPool.destroy]
  | cons p pools ih =>
    rw [← ih, List.map_cons, List.sum_cons, add_assoc]
    exact safe_bind.trans safe_destroyPool

theorem safe_destroy {x : Object} :
    Safe restart post x.destroy (x.owns + held) ↔ post () held := by
  cases x with
  | tcpServer s => simp [Object.destroy, TcpServer.destroy, Object.owns, add_assoc]
  | tcpClient c => simp [Object.destroy, TcpClient.destroy, Object.owns]
  | epollTimer t => simp [Object.destroy, EpollTimer.destroy, Object.owns, add_assoc]
  | notifier n => simp [Object.destroy, Notifier.destroy, Object.owns]
  | sharedBus b => simp [Object.destroy, Object.owns]
  | memoryPool p => simp [Object.destroy, Object.owns]
  | slabPool s => simp [Object.destroy, Object.owns]

end

/-! ### Constructors -/

variable {restart : Multiset (Resource Kind) → Prop}

theorem threads_concat (workers : List Nat) (w : Nat) :
    threads (workers ++ [w]) = (.thread, w) ::ₘ threads workers := by
  rw [threads, List.map_append, ← Multiset.coe_add, add_comm]
  rfl

theorem safe_spawn {n : Nat} {workers : List Nat} :
    Safe restart (fun ws held => held = threads ws) (spawn n workers) (threads workers) := by
  induction n generalizing workers with
  | zero => simp [spawn]
  | succ n ih =>
    rw [spawn, safe_bind, safe_acquire]
    constructor
    · rw [safe_ite]
      exact ⟨by rintro rfl; rfl, fun _ => trivial⟩
    · intro w
      rw [← threads_concat]
      exact ih

theorem safe_makeServerSocket : Safe restart (fun fd held => held = {(.descriptor, fd)})
    makeServerSocket 0 := by
  simp [makeServerSocket]

theorem safe_tcpServer {n : Nat} :
    Safe restart (fun s held => held = (Object.tcpServer s).owns) (TcpServer.construct n) 0 := by
  rw [TcpServer.construct, safe_bind]
  refine safe_spawn.mono fun workers held hheld => ?_
  rw [hheld, ← add_zero (threads workers)]
  refine Safe.onThrow (?_ : Safe (fun _ => False)
    (fun s held => threads workers + held = (Object.tcpServer s).owns) _ 0) ?_ fun _ _ hs => hs
  · rw [safe_bind]
    refine safe_makeServerSocket.mono fun fd held hheld => ?_
    rw [hheld]
    have hcons : threads workers + {(Kind.descriptor, fd)} =
        (Kind.descriptor, fd) ::ₘ threads workers := by
      rw [add_comm, Multiset.singleton_add]
    simpa [pipe, Object.owns, owned] using hcons
  · rw [← add_zero (threads workers)]
    exact safe_shutdown.mpr rfl

theorem safe_tcpClient :
    Safe restart (fun c held => held = (Object.tcpClient c).owns) TcpClient.construct 0 := by
  simp [TcpClient.construct, Object.owns, owned]

theorem safe_epollTimer :
    Safe restart (fun t held => held = (Object.epollTimer t).owns) EpollTimer.construct 0 := by
  simp [EpollTimer.construct, Object.owns, owned]

theorem safe_notifier :
    Safe restart (fun n held => held = (Object.notifier n).owns) Notifier.construct 0 := by
  simp [Notifier.construct, Object.owns, owned]

theorem safe_create {capacity maxMsgSize : UInt32} {lockMemory : Bool} :
    Safe restart (fun b held => held = (Object.sharedBus b).owns)
      (SharedBus.create capacity maxMsgSize lockMemory) 0 := by
  simp [SharedBus.create, Object.owns, owned]

theorem safe_openBus {timeoutMs : Int} {lockMemory : Bool} :
    Safe (· = 0) (fun b held => held = (Object.sharedBus b).owns)
      (SharedBus.openBus timeoutMs lockMemory) 0 := by
  simp [SharedBus.openBus, SharedBus.retry, Object.owns, owned]

theorem safe_memoryPool {blockSize numBlocks : UInt64} {opts : PoolOptions} :
    Safe restart (fun p held => held = p.owns)
      (MemoryPool.construct blockSize numBlocks opts) 0 := by
  simp [MemoryPool.construct, MemoryPool.owns, MemoryPool.kind, owned]

theorem safe_fill {blocksPerClass : UInt64} {opts : PoolOptions} {sizes : List UInt64}
    {s : SlabPool} :
    Safe restart (fun s held => held = (Object.slabPool s).owns)
      (SlabPool.fill blocksPerClass opts sizes s) (Object.slabPool s).owns := by
  induction sizes generalizing s with
  | nil => rfl
  | cons bytes sizes ih =>
    rw [SlabPool.fill, safe_bind, ← add_zero (Object.slabPool s).owns]
    refine Safe.onThrow safe_memoryPool ?_ ?_
    · rw [← add_zero (Object.slabPool s).owns]
      exact safe_destroySlab.mpr rfl
    · intro p held hheld
      rw [hheld, add_comm]
      exact ih

@[simp]
theorem owned_nil : api.owned 0 = 0 := rfl

@[simp]
theorem owned_singleton (x : Object) : api.owned {x} = x.owns := by
  simp [Api.owned, api]

theorem owned_pair (x y : Object) : api.owned {x, y} = x.owns + y.owns := by
  rw [Multiset.insert_eq_cons, ← Multiset.singleton_add, Api.owned_add, owned_singleton,
    owned_singleton]

theorem owns_moved : (Object.sharedBus .moved).owns = 0 := rfl

theorem safe_new {α : Type} {p : Prog Kind α} {mk : α → Object}
    (h : Safe (· = 0) (fun a held => held = (mk a).owns) p 0) :
    Safe (· = 0) api.Returns (do return {mk (← p)}) 0 :=
  safe_bind.mpr (h.mono fun _ _ hheld => hheld.trans (owned_singleton _).symm)

theorem safe_moveAssign {b o : SharedBus} :
    Safe restart (fun b' held => held = (Object.sharedBus b').owns) (b.moveAssign o)
      ((Object.sharedBus b).owns + (Object.sharedBus o).owns) :=
  safe_bind.trans safe_destroyBus |>.mpr rfl

theorem safeCall (c : Operation) : api.SafeCall c := by
  cases c with
  | newTcpServer n => exact safe_new safe_tcpServer
  | newTcpClient => exact safe_new safe_tcpClient
  | newEpollTimer => exact safe_new safe_epollTimer
  | newNotifier => exact safe_new safe_notifier
  | create capacity maxMsgSize lockMemory => exact safe_new safe_create
  | openBus timeoutMs lockMemory => exact safe_new safe_openBus
  | move o =>
    change api.owned {.sharedBus o} = api.owned {.sharedBus o, .sharedBus .moved}
    rw [owned_pair, owned_singleton, owns_moved, add_zero]
  | moveAssign b o =>
    change Safe _ _ (b.moveAssign o >>= fun b' =>
      pure {Object.sharedBus b', Object.sharedBus .moved}) (api.owned {.sharedBus b, .sharedBus o})
    rw [owned_pair, safe_bind]
    refine safe_moveAssign.mono fun b' held hheld => ?_
    rw [safe_pure, Api.Returns, owned_pair, owns_moved, add_zero, hheld]
  | selfAssign b => rfl
  | newMemoryPool blockSize numBlocks opts => exact safe_new safe_memoryPool
  | newSlabPool blocksPerClass opts => exact safe_new safe_fill
  | destroy x =>
    have hx : api.owned (Operation.destroy x).takes = x.owns + 0 := by
      rw [add_zero]
      exact owned_singleton x
    change Safe _ _ (x.destroy >>= fun _ => pure 0) (api.owned (Operation.destroy x).takes)
    rw [hx, safe_bind, safe_destroy]
    rfl

/-- **What is open is what the objects own** and what the calls under way hold, and only
that is used, closed, unmapped or joined. -/
theorem resources_balanced {os : List (Lib.Resources.Event Kind)} {s : World Kind Object}
    (h : api.machine.Run Lib.Machine.anyStep {} os s) : api.Balanced os s :=
  Api.balanced safeCall h

/-- A client is connected; then the constructor of a server with one worker throws, since
the second end of the pipe cannot be opened. -/
theorem resources_balanced_unwound : ∃ s os, api.machine.Run Lib.Machine.anyStep {} os s ∧
    s.objects = {.tcpClient ⟨some 7⟩} ∧ s.opened = {(.descriptor, 7)} ∧ api.Balanced os s := by
  have hexec : (api.machine.exec {}
      ([.call .newTcpClient] ++ [some 1, some 0, some 7, some 0, some 0, some 0, none, none].map
        (.step 0) ++ [.call (.newTcpServer 1)] ++ [some 2, some 3, some 0, some 0, some 0,
        some 4, none, none, none, none, none].map (.step 0))).map
      (fun p => ((p.1.objects, p.1.opened), p.2)) =
        some (({.tcpClient ⟨some 7⟩}, {(.descriptor, 7)}),
          [.acquired (.addresses, 1), .used (.addresses, 1), .acquired (.descriptor, 7),
            .used (.descriptor, 7), .used (.addresses, 1), .used (.descriptor, 7),
            .released (.addresses, 1), .acquired (.thread, 2), .acquired (.descriptor, 3),
            .used (.descriptor, 3), .used (.descriptor, 3), .used (.descriptor, 3),
            .acquired (.descriptor, 4), .released (.descriptor, 4), .released (.descriptor, 3),
            .released (.thread, 2)]) := by
    decide +kernel
  obtain ⟨s, hrun, hs⟩ := Lib.Machine.exists_run_of_exec
    (fun s : World Kind Object => (s.objects, s.opened))
    (Lib.Machine.execOk_of_forall (fun _ _ _ => trivial) _) hexec
  obtain ⟨hobjects, hopened⟩ := Prod.mk.inj hs
  exact ⟨s, _, hrun, hobjects, hopened, resources_balanced hrun⟩

end HftComponents.Common.Ownership
