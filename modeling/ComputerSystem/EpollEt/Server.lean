import ComputerSystem.EpollEt.Buffer
import ComputerSystem.Lib.Machine
import Mathlib.Logic.Function.Basic
/-!
# The edge-triggered echo server and its kernel

`Chapter12/12.2/experiments/epoll_et_echo_server.c:141-350`. The server is a step machine: `Pc` says
where `main` stands, `ConnPc` where the handling of one event stands. Every label is one outcome of
one system call or one move of a peer, so a run is one schedule of both.

| here         | there                                                                       |
|--------------|-----------------------------------------------------------------------------|
| `Sock`       | the kernel's socket: unread input, FIN, room in the send buffer, HUP, ERR    |
| `Live.mask`  | the interest last given to `epoll_ctl`                                       |
| `Live.queued`| the bits of the event on epoll's ready list, none when it is not on the list |
| `Ptr`        | the address `calloc` returned, which is `events[i].data.ptr`                 |

The kernel is edge-triggered: only `ADD`, `MOD` and a change of the socket put an event on the ready
list, and `epoll_wait` takes it off. Diagnostics on `stdout` and `stderr` are left out.
-/

namespace ComputerSystem.EpollEt

abbrev Ptr := Nat

instance : LawfulBEq (Option Ptr) := inferInstance

/-- The bits of `epoll_event.events`; `EPOLLET` is set in every registration. -/
structure Events where
  epollin    : Bool
  epollrdhup : Bool
  epollout   : Bool
  epollhup   : Bool
  epollerr   : Bool
deriving DecidableEq, Repr

namespace Events

def none : Events := ⟨false, false, false, false, false⟩

def union (a b : Events) : Events :=
  ⟨a.epollin || b.epollin, a.epollrdhup || b.epollrdhup, a.epollout || b.epollout,
    a.epollhup || b.epollhup, a.epollerr || b.epollerr⟩

def inter (a b : Events) : Events :=
  ⟨a.epollin && b.epollin, a.epollrdhup && b.epollrdhup, a.epollout && b.epollout,
    a.epollhup && b.epollhup, a.epollerr && b.epollerr⟩

def subset (a b : Events) : Prop := a.union b = b

instance (a b : Events) : Decidable (a.subset b) := inferInstanceAs (Decidable (_ = _))

end Events

/-- The kernel's side of a connection. `received`, `readBytes` and `written` record the whole
history of the socket and decide nothing. -/
structure Sock where
  inq       : Bytes
  fin       : Bool
  writable  : Bool
  hup       : Bool
  err       : Bool
  received  : Bytes
  readBytes : Bytes
  written   : Bytes
deriving DecidableEq, Repr

/-- The conditions that hold on the socket now. -/
def Sock.readiness (sock : Sock) : Events :=
  ⟨!sock.inq.isEmpty || sock.fin, sock.fin, sock.writable, sock.hup, sock.err⟩

/-- A connection that is open, with what epoll holds for it. -/
structure Live where
  conn   : Connection
  sock   : Sock
  mask   : Events
  queued : Events
deriving DecidableEq, Repr

/-- `connection_events` (`:56`). -/
def connectionEvents (conn : Connection) : Events :=
  ⟨!conn.peerEof, !conn.peerEof, decide (pendingOutput conn > 0), false, false⟩

/-- The bits epoll reports to a registration; HUP and ERR are always of interest. -/
def Live.interest (l : Live) : Events := { l.mask with epollhup := true, epollerr := true }

/-- The kernel's wake-up: the interesting ones among `bits` join the queued event. -/
def Live.wake (l : Live) (bits : Events) : Live :=
  { l with queued := l.queued.union (l.interest.inter bits) }

/-- `epoll_ctl` with `ADD` or `MOD` (`:75-89`): the interest is replaced and tested at once. -/
def Live.register (l : Live) : Live :=
  { l with mask := connectionEvents l.conn }.wake l.sock.readiness

/-! ## What happens to a socket by itself -/

inductive Env
  | arrive (data : Bytes)
  | peerFin
  | space
  | hangup
  | sockError
  | dropStale
deriving DecidableEq, Repr

/-- A move of the peer or of the kernel; `dropStale` is the ready list losing bits that no longer
hold. -/
def envStep (l : Live) : Env → Option Live
  | .arrive data =>
    if l.sock.fin then none
    else some <| { l with sock := { l.sock with inq := l.sock.inq ++ data, received := l.sock.received ++ data } }.wake
      { Events.none with epollin := true }
  | .peerFin =>
    some <| { l with sock := { l.sock with fin := true } }.wake
      { Events.none with epollin := true, epollrdhup := true }
  | .space => some <| { l with sock := { l.sock with writable := true } }.wake { Events.none with epollout := true }
  | .hangup => some <| { l with sock := { l.sock with hup := true } }.wake { Events.none with epollhup := true }
  | .sockError => some <| { l with sock := { l.sock with err := true } }.wake { Events.none with epollerr := true }
  | .dropStale => some { l with queued := l.queued.inter l.sock.readiness }

/-! ## The handling of one event -/

inductive Caller
  | drain
  | main
deriving DecidableEq, Repr

inductive CloseReason
  | errorEvent
  | failed
  | peerDone
  | modifyFailed
deriving DecidableEq, Repr

/-- Where the body of the event loop stands (`:322-348`), with the locals that are alive there. -/
inductive ConnPc
  /-- at the `read` of `drain_input` (`:170`) -/
  | drainLoop (ready : Events)
  /-- `drain_input` calls `append_output` on the bytes just read (`:173`) -/
  | appendCall (ready : Events) (data : Bytes)
  /-- `append_output` has returned -/
  | appendRet (ready : Events) (rc : Except Errno Unit)
  /-- at the loop head of `flush_output` (`:143`) -/
  | flushLoop (ready : Events) (caller : Caller)
  /-- `flush_output` has returned; `ok` is a return value of 0 -/
  | flushRet (ready : Events) (caller : Caller) (ok : Bool)
  /-- `drain_input` has returned (`:330`) -/
  | drainRet (ready : Events) (failed : Bool)
  /-- at the test of `failed` (`:339`) -/
  | decide (failed : Bool)
  /-- `close_connection` is called -/
  | close (reason : CloseReason)
  /-- `modify_connection` is called (`:345`) -/
  | modify
deriving DecidableEq, Repr

/-- The outcome of the program's next step: of a system call, of `realloc`, or `tau` where nothing is
called. -/
inductive Io
  | tau
  | read (r : Except Errno Nat)
  | append (reallocOk : Bool)
  | write (r : Except Errno Nat) (writable : Bool)
  | modify (ok : Bool)
deriving DecidableEq, Repr

/-- What a step makes of the connection in hand. -/
inductive Outcome
  | stay (pc : ConnPc) (l : Live)
  | done (l : Live)
  | closed
deriving DecidableEq, Repr

/-- Where the body goes when it does not call `drain_input`, or when that has returned (`:332`). -/
def afterDrain (ready : Events) (failed : Bool) : ConnPc :=
  if !failed && ready.epollout then .flushLoop ready .main else .decide failed

/-- The dispatch on a connection's event (`:322-331`). -/
def dispatch (ready : Events) : ConnPc :=
  if ready.epollerr then .close .errorEvent
  else if ready.epollin || ready.epollrdhup || ready.epollhup then .drainLoop ready
  else afterDrain ready false

/-- `read` moved `n` bytes out of the socket (`:170`). -/
def Live.consume (l : Live) (n : Nat) : Live :=
  { l with sock := { l.sock with inq := l.sock.inq.drop n, readBytes := l.sock.readBytes ++ l.sock.inq.take n } }

/-- `write` moved `n` bytes into the socket (`:144-147`). -/
def Live.emit (l : Live) (n : Nat) (writable : Bool) : Live :=
  { l with
    conn := advanceOutput l.conn n
    sock := { l.sock with written := l.sock.written ++ l.conn.pending.take n, writable := writable } }

/-- One step of the body of the event loop. The guards are what the kernel promises: `read` reports
EOF or EAGAIN only on an empty queue, `write` reports EAGAIN only without room, and a write does not
make a socket writable. -/
def connStep (l : Live) : ConnPc → Io → Option Outcome
  | .drainLoop ready, .read (.ok 0) =>
    if l.sock.inq = [] ∧ l.sock.fin then
      some (.stay (.drainRet ready false) { l with conn := { l.conn with peerEof := true } })
    else none
  | .drainLoop ready, .read (.ok (n + 1)) =>
    if n + 1 ≤ READ_BUFFER_SIZE ∧ n + 1 ≤ l.sock.inq.length then
      some (.stay (.appendCall ready (l.sock.inq.take (n + 1))) (l.consume (n + 1)))
    else none
  | .drainLoop ready, .read (.error .EINTR) => some (.stay (.drainLoop ready) l)
  | .drainLoop ready, .read (.error .EAGAIN) =>
    if l.sock.inq = [] ∧ l.sock.fin = false then some (.stay (.drainRet ready false) l) else none
  | .drainLoop ready, .read (.error _) => some (.stay (.drainRet ready true) l)
  | .appendCall ready data, .append reallocOk =>
    match appendOutput l.conn data reallocOk with
    | none => none
    | some (rc, conn) => some (.stay (.appendRet ready rc) { l with conn := conn })
  | .appendRet ready (.ok ()), .tau => some (.stay (.flushLoop ready .drain) l)
  | .appendRet ready (.error _), .tau => some (.stay (.drainRet ready true) l)
  | .flushLoop ready caller, .tau =>
    if pendingOutput l.conn > 0 then none
    else some (.stay (.flushRet ready caller true) { l with conn := resetOutput l.conn })
  | .flushLoop ready caller, .write (.ok 0) _ =>
    if pendingOutput l.conn > 0 then some (.stay (.flushRet ready caller false) l) else none
  | .flushLoop ready caller, .write (.ok (n + 1)) writable =>
    if n + 1 ≤ pendingOutput l.conn ∧ (writable → l.sock.writable) then
      some (.stay (.flushLoop ready caller) (l.emit (n + 1) writable))
    else none
  | .flushLoop ready caller, .write (.error .EINTR) _ =>
    if pendingOutput l.conn > 0 then some (.stay (.flushLoop ready caller) l) else none
  | .flushLoop ready caller, .write (.error .EAGAIN) _ =>
    if pendingOutput l.conn > 0 ∧ l.sock.writable = false then some (.stay (.flushRet ready caller true) l)
    else none
  | .flushLoop ready caller, .write (.error _) _ =>
    if pendingOutput l.conn > 0 then some (.stay (.flushRet ready caller false) l) else none
  | .flushRet ready .drain true, .tau => some (.stay (.drainLoop ready) l)
  | .flushRet ready .drain false, .tau => some (.stay (.drainRet ready true) l)
  | .flushRet _ .main ok, .tau => some (.stay (.decide (!ok)) l)
  | .drainRet ready failed, .tau => some (.stay (afterDrain ready failed) l)
  | .decide failed, .tau =>
    if failed then some (.stay (.close .failed) l)
    else if l.conn.peerEof ∧ pendingOutput l.conn = 0 then some (.stay (.close .peerDone) l)
    else some (.stay .modify l)
  | .modify, .modify ok => if ok then some (.done l.register) else some (.stay (.close .modifyFailed) l)
  | .close _, .tau => some .closed
  | _, _ => none

/-! ## The whole server -/

/-- Where `main` stands. -/
inductive Pc
  | epollWait
  | eventLoop
  | acceptLoop
  | conn (p : Ptr) (pc : ConnPc)
  | exited
deriving DecidableEq, Repr

/-- `batch` is `events[i .. nready)`; the key `none` is the listener's `data.ptr == NULL`. -/
structure Server where
  pc       : Pc
  batch    : List (Option Ptr × Events)
  conns    : Ptr → Option Live
  backlog  : Nat
  lnQueued : Bool

/-- At the first `epoll_wait`, with the clients that connected before (`:286-295`). -/
def Server.start (backlog : Nat) : Server :=
  ⟨.epollWait, [], fun _ => none, backlog, decide (0 < backlog)⟩

/-- What `accept4` hands out (`:219-234`): the new socket as the peer has it by then, the address
from `calloc` (`none` when it fails) and whether `EPOLL_CTL_ADD` succeeds. -/
structure Accepted where
  fd       : Nat
  ptr      : Option Ptr
  received : Bytes
  fin      : Bool
  writable : Bool
  hup      : Bool
  err      : Bool
  addOk    : Bool
deriving DecidableEq, Repr

/-- A fresh connection after `add_connection` (`:228-230`). -/
def Accepted.live (a : Accepted) : Live :=
  let sock := ⟨a.received, a.fin, a.writable, a.hup, a.err, a.received, [], []⟩
  Live.register ⟨Connection.new a.fd, sock, Events.none, Events.none⟩

inductive Label
  | env (p : Ptr) (e : Env)
  | connect
  | dropListener
  | epollWait (r : Except Errno (List (Option Ptr × Events)))
  | next
  | accept (r : Except Errno Accepted)
  | io (i : Io)
deriving DecidableEq, Repr

/-- Whether `epoll_wait` may report this event now: it is on the ready list, and the queued bits that
still hold are among those reported. Which other bits are merged in is left open. -/
def Server.reports (s : Server) : Option Ptr × Events → Bool
  | (none, ready) => s.lnQueued && (decide (s.backlog = 0) || ready.epollin)
  | (some p, ready) => match s.conns p with
    | some l => decide (l.queued ≠ Events.none) && decide ((l.queued.inter l.sock.readiness).subset ready)
    | none => false

/-- The ready list loses the events that were reported. -/
def Server.deliver (s : Server) (events : List (Option Ptr × Events)) : Server :=
  { s with
    pc := .eventLoop
    batch := events
    conns := fun p => (s.conns p).map fun l =>
      if some p ∈ events.map (·.1) then { l with queued := Events.none } else l
    lnQueued := s.lnQueued && !decide (none ∈ events.map (·.1)) }

/-- `drain_accept_queue` with a new client in hand (`:221-245`). -/
def Server.accepted (s : Server) (a : Accepted) : Option Server :=
  let s := { s with backlog := s.backlog - 1 }
  match a.ptr with
  | none => some s
  | some p =>
    if (s.conns p).isSome then none
    else if a.addOk then some { s with conns := Function.update s.conns p (some a.live) }
    else some s

def step (s : Server) : Label → Option Server
  | .env p e => match s.conns p with
    | none => none
    | some l => (envStep l e).map fun l' => { s with conns := Function.update s.conns p (some l') }
  | .connect => some { s with backlog := s.backlog + 1, lnQueued := true }
  | .dropListener => if s.backlog = 0 then some { s with lnQueued := false } else none
  | .epollWait r => match s.pc, r with
    | .epollWait, .ok events =>
      if events.length ≤ MAX_EVENTS ∧ (events.map (·.1)).Nodup ∧ events.all s.reports then some (s.deliver events)
      else none
    | .epollWait, .error .EINTR => some s
    | .epollWait, .error _ => some { s with pc := .exited }
    | _, _ => none
  | .next => match s.pc, s.batch with
    | .eventLoop, [] => some { s with pc := .epollWait }
    | .eventLoop, (none, ready) :: rest =>
      if ready.epollerr || ready.epollhup then some { s with pc := .exited, batch := rest }
      else if ready.epollin then some { s with pc := .acceptLoop, batch := rest }
      else some { s with batch := rest }
    | .eventLoop, (some p, ready) :: rest => some { s with pc := .conn p (dispatch ready), batch := rest }
    | _, _ => none
  | .accept r => match s.pc, r with
    | .acceptLoop, .ok a => if 0 < s.backlog then s.accepted a else none
    | .acceptLoop, .error .EINTR => some s
    | .acceptLoop, .error .EAGAIN => if s.backlog = 0 then some { s with pc := .eventLoop } else none
    | .acceptLoop, .error _ => some { s with pc := .exited }
    | _, _ => none
  | .io i => match s.pc with
    | .conn p pc => match s.conns p with
      | none => none
      | some l => match connStep l pc i with
        | none => none
        | some (.stay pc' l') => some { s with pc := .conn p pc', conns := Function.update s.conns p (some l') }
        | some (.done l') => some { s with pc := .eventLoop, conns := Function.update s.conns p (some l') }
        | some .closed => some { s with pc := .eventLoop, conns := Function.update s.conns p none }
    | _ => none

end ComputerSystem.EpollEt
