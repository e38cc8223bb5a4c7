import ComputerSystem.Rio.Basic
import ComputerSystem.Lib.Machine
/-!
# The echo client and the line-based echo server

`Chapter12/12.1/experiments/process_echo_client.c:24-43`, and `echo` of
`Chapter12/12.1/experiments/process_echo_server.c:49` and
`Chapter12/12.3/experiments/thread_echo_server.c:26`, which are the same loop. Client and server are two
processes with a connection between them: `c2s` and `s2c` are the bytes in flight. A step is one
system call of one side with its outcome; the code between two system calls runs with it, so each
side stands at a system call: inside `rio_writen` with the rest of its buffer, or inside
`rio_readlineb` with the bytes stored so far.

`echo` prints a line for each it receives and the client prints errors; both are left out.
-/

namespace ComputerSystem.Echo

open Rio

def MAXLINE : Nat := 1024

/-- `fgets` into a buffer with room for so many bytes: up to and including the first newline; what
is stored and what stays on `stdin`. -/
def fgetsLoop : Nat → Bytes → Bytes × Bytes
  | 0, stdin => ([], stdin)
  | _ + 1, [] => ([], [])
  | n + 1, b :: stdin =>
    if b = newline then ([b], stdin) else (b :: (fgetsLoop n stdin).1, (fgetsLoop n stdin).2)

/-- `fgets(buf, sizeof(buf), stdin)` on a `stdin` that is not at its end. -/
def fgets (stdin : Bytes) : Bytes × Bytes := fgetsLoop (MAXLINE - 1) stdin

/-! ## The two processes -/

inductive ClientPc
  /-- at `fgets` (`:28`) -/
  | fgets
  /-- in `rio_writen` (`:30`) with `left` to write -/
  | writing (seg left : Bytes)
  /-- in `rio_readlineb` (`:35`) with `usrbuf` stored -/
  | reading (seg usrbuf : Bytes)
  | closed
deriving DecidableEq, Repr

/-- `log` pairs each segment that was sent with the reply that `rio_readlineb` returned for it; it
decides nothing. -/
structure Client where
  pc     : ClientPc
  stdin  : Bytes
  rio    : RioT
  stdout : Bytes
  log    : List (Bytes × Bytes)

inductive ServerPc
  /-- in `rio_readlineb` with `usrbuf` stored -/
  | reading (usrbuf : Bytes)
  /-- in `rio_writen` of a line of `n` bytes with `left` to write -/
  | writing (n : Nat) (left : Bytes)
  | closed
deriving DecidableEq, Repr

structure Server where
  pc  : ServerPc
  rio : RioT

structure State where
  client : Client
  server : Server
  c2s    : Bytes
  s2c    : Bytes

/-- The client at its first `fgets`, the server in its first `rio_readlineb`; the `rio_t`s held
anything before `rio_initb`. -/
def start (stdin : Bytes) (rp rp' : RioT) : State where
  client := ⟨.fgets, stdin, rioInitb rp, [], []⟩
  server := ⟨.reading [], rioInitb rp'⟩
  c2s := []
  s2c := []

/-! ## The client -/

/-- `rio_readlineb` and what follows it (`:35-39`, `:42`), with these outcomes of `read(2)`. -/
def State.clientRead (s : State) (seg usrbuf : Bytes) (sched : List ReadOutcome) : State :=
  let call := rioReadlinebLoop (MAXLINE - 1 - usrbuf.length) (usrbuf.length + 1 : Nat) usrbuf s.client.rio
    ⟨s.s2c, sched⟩
  match call.ret with
  | none => { s with client := { s.client with pc := .reading seg call.usrbuf, rio := call.rio }, s2c := call.fd.unread }
  | some n =>
    if n ≤ 0 then { s with client := { s.client with pc := .closed, rio := call.rio }, s2c := call.fd.unread }
    else { s with
      client := { s.client with
        pc := .fgets
        rio := call.rio
        stdout := s.client.stdout ++ cstring call.usrbuf
        log := s.client.log ++ [(seg, call.usrbuf)] }
      s2c := call.fd.unread }

/-- `rio_writen` and what follows it (`:30-35`), with these outcomes of `write(2)`. -/
def State.clientWrite (s : State) (seg left : Bytes) (sched : List WriteOutcome) : State :=
  let w := rioWritenLoop (cstring seg).length sched left []
  let s := { s with c2s := s.c2s ++ w.sent }
  match w.ret with
  | none => { s with client := { s.client with pc := .writing seg (left.drop w.sent.length) } }
  | some r =>
    if r ≠ (cstring seg).length then { s with client := { s.client with pc := .closed } }
    else s.clientRead seg [] []

/-- `fgets` and what follows it (`:28-30`). -/
def State.clientFgets (s : State) : State :=
  if s.client.stdin = [] then { s with client := { s.client with pc := .closed } }
  else
    let (seg, stdin) := fgets s.client.stdin
    { s with client := { s.client with stdin := stdin } }.clientWrite seg (cstring seg) []

/-! ## The server -/

/-- `rio_readlineb` and what follows it in `echo`, with these outcomes of `read(2)`. -/
def State.serverRead (s : State) (usrbuf : Bytes) (sched : List ReadOutcome) : State :=
  let call := rioReadlinebLoop (MAXLINE - 1 - usrbuf.length) (usrbuf.length + 1 : Nat) usrbuf s.server.rio
    ⟨s.c2s, sched⟩
  match call.ret with
  | none => { s with server := ⟨.reading call.usrbuf, call.rio⟩, c2s := call.fd.unread }
  | some n =>
    if n > 0 then { s with server := ⟨.writing n.toNat call.usrbuf, call.rio⟩, c2s := call.fd.unread }
    else { s with server := ⟨.closed, call.rio⟩, c2s := call.fd.unread }

/-- `rio_writen` and what follows it in `echo`, with these outcomes of `write(2)`. -/
def State.serverWrite (s : State) (n : Nat) (left : Bytes) (sched : List WriteOutcome) : State :=
  let w := rioWritenLoop n sched left []
  let s := { s with s2c := s.s2c ++ w.sent }
  match w.ret with
  | none => { s with server := { s.server with pc := .writing n (left.drop w.sent.length) } }
  | some r =>
    if r ≠ n then { s with server := { s.server with pc := .closed } }
    else s.serverRead [] []

/-! ## Steps -/

inductive Label
  | fgets
  | clientWrite (o : WriteOutcome)
  | clientRead (o : ReadOutcome)
  | serverRead (o : ReadOutcome)
  | serverWrite (o : WriteOutcome)
deriving DecidableEq, Repr

/-- A `read(2)` on a connection returns bytes while there are some, end of file when the other side
has closed and there are none left, and blocks otherwise. -/
def readable (channel : Bytes) (peerClosed : Bool) : ReadOutcome → Bool
  | .count k => if channel = [] then peerClosed else decide (0 < k)
  | .eintr | .error => true

def step (s : State) : Label → Option State
  | .fgets => if s.client.pc = .fgets then some s.clientFgets else none
  | .clientWrite o => match s.client.pc with
    | .writing seg left => some (s.clientWrite seg left [o])
    | _ => none
  | .clientRead o => match s.client.pc with
    | .reading seg usrbuf =>
      if readable s.s2c (s.server.pc = .closed) o then some (s.clientRead seg usrbuf [o]) else none
    | _ => none
  | .serverRead o => match s.server.pc with
    | .reading usrbuf =>
      if readable s.c2s (s.client.pc = .closed) o then some (s.serverRead usrbuf [o]) else none
    | _ => none
  | .serverWrite o => match s.server.pc with
    | .writing n left => some (s.serverWrite n left [o])
    | _ => none

/-- No read and no write fails. -/
def NoFailure (_ : State) : Label → Prop
  | .clientRead .error | .serverRead .error => False
  | .clientWrite .error | .serverWrite .error => False
  | .clientWrite (.count 0) | .serverWrite (.count 0) => False
  | _ => True

instance : ∀ (s : State) (l : Label), Decidable (NoFailure s l)
  | _, .clientRead .error | _, .serverRead .error => isFalse nofun
  | _, .clientWrite .error | _, .serverWrite .error => isFalse nofun
  | _, .clientWrite (.count 0) | _, .serverWrite (.count 0) => isFalse nofun
  | _, .fgets => isTrue trivial
  | _, .clientRead (.count _) | _, .clientRead .eintr => isTrue trivial
  | _, .serverRead (.count _) | _, .serverRead .eintr => isTrue trivial
  | _, .clientWrite (.count (_ + 1)) | _, .clientWrite .eintr => isTrue trivial
  | _, .serverWrite (.count (_ + 1)) | _, .serverWrite .eintr => isTrue trivial

end ComputerSystem.Echo
