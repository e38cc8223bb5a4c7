import ComputerSystem.CTypes
import ComputerSystem.Lib.Progress
/-!
# Three ways to talk to a child (`Chapter12/12.1/experiments/ipc_demo.c`)

`main` runs demos one after the other. Each forks a child that gets a message from its parent, through a
connection, through shared memory behind a semaphore, or as the counter of an `eventfd`, and prints it.
`demos_end` (`Ends.lean`) lists the ways in which a process is left waiting, and `demos_say` has what is printed.

| here                | there                                                             |
|---------------------|-------------------------------------------------------------------|
| `up`, `down`        | all that the child, the parent has written to the connection       |
| `connected`, `accepted` | `connect`, `accept` returned                                  |
| `serverEnd`         | the server's end of the connection is open                        |
| `clientEnd`         | the child has not ended                                           |
| `posts`, `waits`    | how often `sem_post`, `sem_wait` returned; the semaphore is the difference |
| `written`, `taken`  | what was written to, read from the `eventfd`; its counter is the difference |
| `Res`               | what a call returns                                                |

Until the parent accepts it, a connection is in the queue of the listening socket, which the child has
inherited and never closes: the end of the parent does not close that. Each side reads the connection once.
A line that cannot be written is missing, and the program goes on (`:103`, `:119`, `:150`, `:181`). A call that
a signal interrupts is made again, which is no step. What the calls before the `fork` do is one step, `main`.
-/

namespace ComputerSystem.Ipc

inductive Demo
  | uds
  | mmap
  | eventfd
deriving DecidableEq, Repr

/-- The argument of `main` (`:205-218`). -/
def demos (arg : Bytes) : Option (List Demo) :=
  if arg = ascii "uds" then some [.uds]
  else if arg = ascii "mmap" then some [.mmap]
  else if arg = ascii "eventfd" then some [.eventfd]
  else if arg = ascii "all" then some [.uds, .mmap, .eventfd]
  else none

def MSG_SIZE : Nat := 128

/-- What the child sends (`:95`) and the parent (`:120`). -/
def hello : Bytes := ascii "hello via UDS"
def answer : Bytes := ascii "reply from UDS server"

/-- What `snprintf` stores (`:155`), with its NUL. -/
def text : Bytes := ascii "hello via MAP_SHARED mmap"
def stored : Bytes := text ++ [0]

/-- What the parent adds (`:187`). -/
def value : Nat := 3

/-- The lines printed (`:119`, `:103`, `:150`, `:181`). -/
inductive Out
  | request (buf : Bytes)
  | reply (buf : Bytes)
  | shared (message : Bytes)
  | counter (value : Nat)
deriving DecidableEq, Repr

/-- The `status` of a process that was killed is `none`. -/
inductive ParentPc
  /-- `main`, at its next demo or its return -/
  | main
  | fork (d : Demo)
  /-- `:108`, `:114`, `:119`, and what is left to write (`:120`), `:122-123` -/
  | accept
  | read
  | print (buf : Bytes)
  | write (left : Bytes)
  | close
  /-- `snprintf` at the byte `i` (`:155`), and `sem_post` -/
  | store (i : Nat)
  | post
  /-- `write_all(efd, ...)` (`:188`) -/
  | add
  /-- `wait_child` -/
  | wait (d : Demo)
  | exited (status : Option Nat)
deriving DecidableEq, Repr

inductive ChildPc
  /-- `:91`, what is left to write (`:95`), `:98` -/
  | connect
  | write (left : Bytes)
  | read
  /-- `sem_wait` (`:144`), and `dprintf` with what it has read of `message` -/
  | semWait
  | load (got : Bytes)
  /-- `read(efd, ...)` (`:177`) -/
  | readCounter
  | print (o : Out)
  | exited (status : Option Nat)
deriving DecidableEq, Repr

structure State where
  todo      : List Demo
  parent    : ParentPc
  child     : Option ChildPc
  connected : Bool
  accepted  : Bool
  serverEnd : Bool
  clientEnd : Bool
  up        : Bytes
  down      : Bytes
  message   : Bytes
  posts     : Nat
  waits     : Nat
  written   : Nat
  taken     : Nat
  out       : List Out

def start (todo : List Demo) : State :=
  ⟨todo, .main, none, false, false, true, false, [], [], [], 0, 0, 0, 0, []⟩

inductive Res
  | ok
  | fail
  | count (n : Nat)
deriving DecidableEq, Repr

inductive Label
  | parent (r : Res)
  | child (r : Res)
  | killParent
  | killChild
deriving DecidableEq, Repr

/-- `exit`, `die`, a signal: `connfd` is closed, a connection in the queue is not. -/
def State.exit (s : State) (status : Option Nat) : State :=
  { s with parent := .exited status, serverEnd := s.serverEnd && !s.accepted }

def State.exitChild (s : State) (status : Option Nat) : State := { s with child := some (.exited status), clientEnd := false }

def Demo.parent : Demo → ParentPc
  | .uds => .accept
  | .mmap => .store 0
  | .eventfd => .add

def Demo.child : Demo → ChildPc
  | .uds => .connect
  | .mmap => .semWait
  | .eventfd => .readCounter

/-- Everything before the `fork` of `d` (`:62-81`, `:129-138`, `:166-170`). -/
def State.setUp (s : State) (d : Demo) (todo : List Demo) : State :=
  { s with
    todo := todo, parent := .fork d, connected := false, accepted := false, serverEnd := true, clientEnd := true
    up := [], down := [], message := List.replicate MSG_SIZE 0, posts := 0, waits := 0, written := 0, taken := 0 }

/-- `read` returns `n` of `bytes`, 0 only at the end of the stream. -/
def Reads (bytes : Bytes) (peer : Bool) (n : Nat) : Prop :=
  n ≤ MSG_SIZE - 1 ∧ n ≤ bytes.length ∧ (n = 0 → bytes = [] ∧ peer = false)

instance (bytes : Bytes) (peer : Bool) (n : Nat) : Decidable (Reads bytes peer n) :=
  inferInstanceAs (Decidable (_ ∧ _ ∧ (_ → _)))

/-- `write` takes `n` of `left`. -/
def Writes (left : Bytes) (peer : Bool) (n : Nat) : Prop := 0 < n ∧ n ≤ left.length ∧ peer = true

instance (left : Bytes) (peer : Bool) (n : Nat) : Decidable (Writes left peer n) :=
  inferInstanceAs (Decidable (_ ∧ _ ∧ _))

def State.parentStep (s : State) : ParentPc → Res → Option State
  | .main, r => match s.todo, r with
    | [], .ok => some (s.exit (some 0))
    | d :: ds, .ok => some (s.setUp d ds)
    | _ :: _, .fail => some (s.exit (some 1))
    | _, _ => none
  | .fork d, .ok => some { s with parent := d.parent, child := some d.child }
  | .accept, .ok => if s.connected then some { s with parent := .read, accepted := true } else none
  | .read, .count n => if Reads s.up s.clientEnd n then some { s with parent := .print (s.up.take n) } else none
  | .print buf, .ok => some { s with parent := .write answer, out := s.out ++ [.request buf] }
  | .print _, .fail => some { s with parent := .write answer }
  | .write left, .count n =>
    if Writes left s.clientEnd n then
      some { s with
        parent := if left.length ≤ n then .close else .write (left.drop n)
        down := s.down ++ left.take n }
    else none
  | .close, .ok => some { s with parent := .wait .uds, serverEnd := false }
  | .store i, .ok =>
    some { s with
      parent := if i + 1 < stored.length then .store (i + 1) else .post
      message := s.message.set i (stored.getD i 0) }
  | .post, .ok => some { s with parent := .wait .mmap, posts := s.posts + 1 }
  | .add, .ok => some { s with parent := .wait .eventfd, written := s.written + value }
  | .wait _, .ok => match s.child with
    | some (.exited status) =>
      if status = some 0 then some { s with parent := .main, child := none } else some { s.exit (some 1) with child := none }
    | _ => none
  | .fork _, .fail | .accept, .fail | .read, .fail | .write _, .fail | .post, .fail | .add, .fail | .wait _, .fail =>
    some (s.exit (some 1))
  | _, _ => none

def State.childStep (s : State) : ChildPc → Res → Option State
  | .connect, .ok => some { s with child := some (.write hello), connected := true }
  | .write left, .count n =>
    if Writes left s.serverEnd n then
      some { s with
        child := some (if left.length ≤ n then .read else .write (left.drop n))
        up := s.up ++ left.take n }
    else none
  | .read, .count n =>
    if Reads s.down s.serverEnd n then some { s with child := some (.print (.reply (s.down.take n))) } else none
  | .semWait, .ok => if s.waits < s.posts then some { s with child := some (.load []), waits := s.waits + 1 } else none
  | .load got, .ok => match s.message[got.length]? with
    | some b => some { s with child := some (if b = 0 then .print (.shared got) else .load (got ++ [b])) }
    | none => some (s.exitChild none)
  | .readCounter, .ok =>
    if s.taken < s.written then
      some { s with child := some (.print (.counter (s.written - s.taken))), taken := s.written }
    else none
  | .print o, .ok => some { s.exitChild (some 0) with out := s.out ++ [o] }
  | .print _, .fail => some (s.exitChild (some 0))
  | .connect, .fail | .write _, .fail | .read, .fail | .semWait, .fail | .readCounter, .fail => some (s.exitChild (some 1))
  | _, _ => none

def step (s : State) : Label → Option State
  | .parent r => s.parentStep s.parent r
  | .child r => match s.child with
    | some pc => s.childStep pc r
    | none => none
  | .killParent => match s.parent with
    | .exited _ => none
    | _ => some (s.exit none)
  | .killChild => match s.child with
    | none | some (.exited _) => none
    | _ => some (s.exitChild none)

end ComputerSystem.Ipc
