import Mathlib.Logic.Function.Basic
import Mathlib.Logic.Relation
import ComputerSystem.CTypes
import ComputerSystem.Lib.Machine
import ComputerSystem.Rio.Basic
/-!
# Clients, sockets and `echo_once`

What the select, poll and epoll echo servers of `Chapter12/12.2/experiments` share: the clients, the
kernel's sockets and descriptors, and `echo_once`, which is the same in all three files
(`select_echo_server.c:25-50`). The sockets are blocking, and readiness is level-triggered: a
descriptor is readable while bytes or an end of file can be read from it.

| here          | there                                                                      |
|---------------|----------------------------------------------------------------------------|
| `Conn`        | a connection: the socket's input, and the history of both directions         |
| `World.table` | the connections that have a descriptor                                       |
| `World.taken` | the other descriptors that are open, `listenfd` among them                    |
| `World.hand`  | inside of `rio_writen`: the descriptor and what is left to write              |
| `Echo`        | where `echo_once` stands after a system call                                  |

`View` is what concerns one connection, and `Serve` says what may happen to it: it is what an echo
server is for, without descriptors and without other clients.
-/

namespace ComputerSystem.MuxEcho

open Rio (ReadOutcome WriteOutcome)

def MAXLINE : Nat := 1024

/-! ## Connections -/

/-- `sent`, `got` and `written` are all that the client sent, the server read and the server wrote;
they decide nothing, and neither do `sawEof` and `closed`. -/
structure Conn where
  unread  : Bytes
  fin     : Bool
  sent    : Bytes
  got     : Bytes
  written : Bytes
  sawEof  : Bool
  closed  : Bool
deriving DecidableEq, Repr

def Conn.new : Conn := ⟨[], false, [], [], [], false, false⟩

/-- A `read(2)` would not block. -/
def Conn.readable (k : Conn) : Bool := k.unread ≠ [] ∨ k.fin = true

/-- Connections are numbered as they are made; `pending` is the backlog. -/
structure World where
  listenfd : Nat
  taken    : List Nat
  conns    : Nat → Conn
  count    : Nat
  pending  : List Nat
  table    : Nat → Option Nat
  hand     : Option (Nat × Bytes)

/-- A server that listens, and has these other descriptors. -/
def World.start (listenfd : Nat) (others : List Nat) : World :=
  ⟨listenfd, listenfd :: others, fun _ => Conn.new, 0, [], fun _ => none, none⟩

def World.update (w : World) (c : Nat) (f : Conn → Conn) : World :=
  { w with conns := Function.update w.conns c (f (w.conns c)) }

/-- Reported ready for reading. -/
def World.readable (w : World) (fd : Nat) : Bool :=
  if fd = w.listenfd then w.pending ≠ []
  else match w.table fd with
    | some c => (w.conns c).readable
    | none => false

/-- The client of `fd` has shut down its side. -/
def World.fin (w : World) (fd : Nat) : Bool :=
  match w.table fd with
  | some c => (w.conns c).fin
  | none => false

/-- `fd` is a descriptor of the process. -/
def World.isOpen (w : World) (fd : Nat) : Bool := fd ∈ w.taken ∨ w.table fd ≠ none

inductive ClientMove
  | connect
  | send (c : Nat) (bs : Bytes)
  | shutdown (c : Nat)

def World.client (w : World) : ClientMove → Option World
  | .connect => some { w with count := w.count + 1, pending := w.pending ++ [w.count] }
  | .send c bs =>
    if c < w.count ∧ (w.conns c).fin = false then
      some (w.update c fun k => { k with unread := k.unread ++ bs, sent := k.sent ++ bs })
    else none
  | .shutdown c => if c < w.count then some (w.update c fun k => { k with fin := true }) else none

/-- `accept` returns `fd`, a number that is not in use; without a connection it blocks. -/
def World.accept (w : World) (fd : Nat) : Option World :=
  match w.pending with
  | [] => none
  | c :: rest =>
    if w.isOpen fd then none
    else some { w with pending := rest, table := Function.update w.table fd (some c) }

/-- `close`. -/
def World.close (w : World) (fd : Nat) : World :=
  match w.table fd with
  | none => w
  | some c => { w.update c (fun k => { k with closed := true }) with table := Function.update w.table fd none }

/-! ## `echo_once` -/

inductive Echo
  /-- in `rio_writen` -/
  | writing
  /-- it returned 0, or -1 -/
  | returned (ok : Bool)
deriving DecidableEq

/-- `read(fd, buf, sizeof(buf))` and what follows it; `none` while it blocks. -/
def World.read (w : World) (fd : Nat) : ReadOutcome → Option (World × Echo)
  | .eintr => some (w, .returned true)
  | .error => some (w, .returned false)
  | .count k =>
    match w.table fd with
    | none => some (w, .returned false)
    | some c =>
      let n := min k MAXLINE
      if (w.conns c).unread = [] then
        if (w.conns c).fin then some (w.update c fun k => { k with sawEof := true }, .returned false) else none
      else if n = 0 then none
      else some ({ w.update c (fun k => { k with unread := k.unread.drop n, got := k.got ++ k.unread.take n }) with
        hand := some (fd, (w.conns c).unread.take n) }, .writing)

/-- One `write(2)` of `rio_writen`. -/
def World.write (w : World) (o : WriteOutcome) : Option (World × Echo) :=
  match w.hand with
  | none => none
  | some (fd, left) =>
    match o, w.table fd with
    | .eintr, _ => some (w, .writing)
    | .error, _ | .count _, none => some ({ w with hand := none }, .returned false)
    | .count k, some c =>
      if k = 0 then some ({ w with hand := none }, .returned false)
      else
        let w := w.update c fun conn => { conn with written := conn.written ++ left.take k }
        if left.drop k = [] then some ({ w with hand := none }, .returned true)
        else some ({ w with hand := some (fd, left.drop k) }, .writing)

/-! ## One connection -/

/-- A connection, and what was read from it and not yet written. -/
structure View where
  conn : Conn
  hand : Bytes

def World.view (w : World) (c : Nat) : View :=
  ⟨w.conns c, match w.hand with
    | some (fd, left) => if w.table fd = some c then left else []
    | none => []⟩

/-- What may happen to a connection. -/
inductive Serve : View → View → Prop
  | send {v : View} (bs : Bytes) : v.conn.fin = false →
      Serve v { v with conn := { v.conn with unread := v.conn.unread ++ bs, sent := v.conn.sent ++ bs } }
  | shutdown {v : View} : Serve v { v with conn := { v.conn with fin := true } }
  | read {v : View} (n : Nat) : v.hand = [] → v.conn.unread ≠ [] →
      Serve v ⟨{ v.conn with unread := v.conn.unread.drop n, got := v.conn.got ++ v.conn.unread.take n },
        v.conn.unread.take n⟩
  | write {v : View} (n : Nat) :
      Serve v ⟨{ v.conn with written := v.conn.written ++ v.hand.take n }, v.hand.drop n⟩
  | eof {v : View} : v.conn.unread = [] → v.conn.fin = true → v.hand = [] →
      Serve v { v with conn := { v.conn with sawEof := true } }
  | close {v : View} : v.conn.sawEof = true → v.hand = [] →
      Serve v { v with conn := { v.conn with closed := true } }

/-- A connection that is served so: everything is echoed in order, and it is closed after its end. -/
structure View.Ok (v : View) : Prop where
  sent    : v.conn.sent = v.conn.got ++ v.conn.unread
  got     : v.conn.got = v.conn.written ++ v.hand
  eof     : v.conn.sawEof = true → v.conn.fin = true ∧ v.conn.unread = [] ∧ v.hand = []
  closed  : v.conn.closed = true → v.conn.sawEof = true

theorem View.Ok.new : View.Ok ⟨Conn.new, []⟩ :=
  ⟨rfl, rfl, (fun h => by cases h), (fun h => by cases h)⟩

/-- **One step of a connection.** -/
theorem Serve.ok {v v' : View} (hs : Serve v v') (h : v.Ok) : v'.Ok := by
  cases hs with
  | send bs hfin =>
    refine ⟨by simp [h.sent], h.got, fun heof => ?_, h.closed⟩
    obtain ⟨hf, -, -⟩ := h.eof heof
    rw [hf] at hfin
    cases hfin
  | shutdown => exact ⟨h.sent, h.got, fun heof => ⟨rfl, (h.eof heof).2⟩, h.closed⟩
  | read n hhand hne =>
    refine ⟨?_, ?_, fun heof => ?_, h.closed⟩
    · simp only [List.append_assoc, List.take_append_drop]
      exact h.sent
    · have hgot := h.got
      rw [hhand, List.append_nil] at hgot
      simp only [hgot]
    · exact absurd (h.eof heof).2.1 hne
  | write n =>
    refine ⟨h.sent, ?_, fun heof => ?_, h.closed⟩
    · simp only [List.append_assoc, List.take_append_drop]
      exact h.got
    · obtain ⟨hf, hu, hh⟩ := h.eof heof
      exact ⟨hf, hu, by simp [hh]⟩
  | eof hu hf hh => exact ⟨h.sent, h.got, fun _ => ⟨hf, hu, hh⟩, fun _ => rfl⟩
  | close heof hh => exact ⟨h.sent, h.got, h.eof, fun _ => heof⟩

theorem serve_ok {v v' : View} (hs : Relation.ReflTransGen Serve v v') (h : v.Ok) : v'.Ok := by
  induction hs with
  | refl => exact h
  | tail _ hstep ih => exact hstep.ok ih

end ComputerSystem.MuxEcho
