import ComputerSystem.CTypes
/-!
# The RIO package (`Chapter10/rio/rio.c`, `rio.h`)

| here | there |
| --- | --- |
| `ReadOutcome`, `Fd`   | the kernel side of `read(2)`: the bytes still to come and the outcomes of the coming calls |
| `RioT`, `RioBuf`      | `rio_t` (`rio.h:8-13`); `rioBufptr` is the offset of `rio_bufptr` in `rio_buf` |
| `Call`                | what a call has done so far: its return value and the bytes it stored through `usrbuf` |
| `rioInitb`            | `rio_initb` (`rio.c:56`) |
| `refill`, `copyOut`, `rioRead` | `rio_read` (`rio.c:70`): the refill loop, the copy, the whole function |
| `rioReadlinebLoop`, `rioReadlineb` | `rio_readlineb` (`rio.c:96`) |
| `rioReadnbLoop`, `rioReadnb`       | `rio_readnb` (`rio.c:123`) |
| `WriteOutcome`, `rioWritenLoop`, `rioWriten` | `rio_writen` (`rio.c:33`) |

`rio_fd` is not a field: every function takes the descriptor's state `Fd` beside the `rio_t`.
A schedule that ends inside a system call leaves the call blocked there (`ret = none`), so the
state a run has reached in the middle of a call is a result like any other.
-/

namespace ComputerSystem.Rio

/-- `rio.h:7`. -/
def RIO_BUFSIZE : Nat := 8192

/-! ## The kernel side -/

/-- What one `read(2)` does. `count k` moves at most `k` of the bytes that are there; moving none
is end of file. -/
inductive ReadOutcome
  | count (k : Nat)
  | eintr
  | error
deriving DecidableEq, Repr

/-- A descriptor: the bytes it has still to deliver and the outcomes of the coming reads. -/
structure Fd where
  unread : Bytes
  sched  : List ReadOutcome
deriving DecidableEq, Repr

/-! ## `rio_t` -/

/-- `char rio_buf[RIO_BUFSIZE]`. -/
structure RioBuf where
  bytes : Bytes
  size  : bytes.length = RIO_BUFSIZE

/-- The effect of `read(2)` on the buffer: its first bytes are replaced by `bs`. -/
def RioBuf.store (b : RioBuf) (bs : Bytes) : RioBuf where
  bytes := (bs ++ b.bytes.drop bs.length).take RIO_BUFSIZE
  size  := by
    have := b.size
    simp only [List.length_take, List.length_append, List.length_drop]
    omega

structure RioT where
  rioCnt    : Int
  rioBufptr : Nat
  rioBuf    : RioBuf

/-- A `rio_t` as `rio_initb` may find it. -/
def zeroRio : RioT := ⟨0, 0, ⟨List.replicate RIO_BUFSIZE 0, List.length_replicate⟩⟩

/-- The unread bytes: `rio_bufptr[0 .. max(rio_cnt, 0))`. -/
def RioT.window (rp : RioT) : Bytes := (rp.rioBuf.bytes.drop rp.rioBufptr).take rp.rioCnt.toNat

/-- `rio_initb` (`rio.c:56`). -/
def rioInitb (rp : RioT) : RioT := { rp with rioCnt := 0, rioBufptr := 0 }

/-- `ret = none` while the call is blocked in a system call; `usrbuf` holds the bytes stored so
far, without the terminating NUL. -/
structure Call where
  ret    : Option Int
  usrbuf : Bytes
  rio    : RioT
  fd     : Fd

/-! ## `rio_read` -/

/-- How the refill loop ends: blocked in `read(2)`, by an early `return n`, or with bytes. -/
inductive Refill
  | blocked
  | ret (n : Int)
  | filled
deriving DecidableEq, Repr

/-- The loop of `rio_read` (`rio.c:71-81`), entered with `rio_cnt <= 0`. -/
def refill (rp : RioT) (unread : Bytes) : List ReadOutcome → Refill × RioT × Fd
  | [] => (.blocked, rp, ⟨unread, []⟩)
  | .eintr :: os => refill { rp with rioCnt := -1 } unread os
  | .error :: os => (.ret (-1), { rp with rioCnt := -1 }, ⟨unread, os⟩)
  | .count k :: os =>
    let bs := unread.take (min k RIO_BUFSIZE)
    let fd : Fd := ⟨unread.drop (min k RIO_BUFSIZE), os⟩
    if bs = [] then (.ret 0, { rp with rioCnt := 0 }, fd)
    else (.filled, ⟨bs.length, 0, rp.rioBuf.store bs⟩, fd)

/-- The copy of `rio_read` (`rio.c:84-90`); `rio_cnt < n` compares in `size_t`. -/
def copyOut (rp : RioT) (fd : Fd) (n : Nat) : Call :=
  let cnt := if toSize rp.rioCnt < n then rp.rioCnt else toInt32 n
  { ret := some cnt
    usrbuf := (rp.rioBuf.bytes.drop rp.rioBufptr).take cnt.toNat
    rio := { rp with rioBufptr := rp.rioBufptr + cnt.toNat, rioCnt := rp.rioCnt - cnt }
    fd := fd }

/-- `rio_read` (`rio.c:70`). -/
def rioRead (rp : RioT) (fd : Fd) (n : Nat) : Call :=
  if rp.rioCnt ≤ 0 then
    match refill rp fd.unread fd.sched with
    | (.blocked, rp, fd) => ⟨none, [], rp, fd⟩
    | (.ret r, rp, fd)   => ⟨some r, [], rp, fd⟩
    | (.filled, rp, fd)  => copyOut rp fd n
  else copyOut rp fd n

/-! ## `rio_readlineb` and `rio_readnb` -/

def newline : UInt8 := 10

/-- The `for` loop of `rio_readlineb` (`rio.c:100-117`) at counter `n` with `usrbuf[0 .. n-1)`
filled; the first argument is the number of iterations left, `maxlen - n`. -/
def rioReadlinebLoop : Nat → Int → Bytes → RioT → Fd → Call
  | 0, n, usrbuf, rp, fd => ⟨some (n - 1), usrbuf, rp, fd⟩
  | left + 1, n, usrbuf, rp, fd =>
    match rioRead rp fd 1 with
    | ⟨none, _, rp, fd⟩ => ⟨none, usrbuf, rp, fd⟩
    | ⟨some rc, c, rp, fd⟩ =>
      if rc = 1 then
        if c = [newline] then ⟨some (n + 1 - 1), usrbuf ++ c, rp, fd⟩
        else rioReadlinebLoop left (n + 1) (usrbuf ++ c) rp fd
      else if rc = 0 then
        if n = 1 then ⟨some 0, usrbuf, rp, fd⟩ else ⟨some (n - 1), usrbuf, rp, fd⟩
      else ⟨some (-1), usrbuf, rp, fd⟩

/-- `rio_readlineb` (`rio.c:96`). -/
def rioReadlineb (rp : RioT) (fd : Fd) (maxlen : Nat) : Call :=
  rioReadlinebLoop (maxlen - 1) 1 [] rp fd

/-- The loop of `rio_readnb` (`rio.c:128-138`) with `nleft` bytes to go. Every round stores at
least one byte, so `n` rounds are enough. -/
def rioReadnbLoop (n : Nat) : Nat → Nat → Bytes → RioT → Fd → Call
  | 0, nleft, usrbuf, rp, fd => ⟨some (n - nleft), usrbuf, rp, fd⟩
  | rounds + 1, nleft, usrbuf, rp, fd =>
    if nleft = 0 then ⟨some (n - nleft), usrbuf, rp, fd⟩
    else match rioRead rp fd nleft with
    | ⟨none, _, rp, fd⟩ => ⟨none, usrbuf, rp, fd⟩
    | ⟨some nread, bs, rp, fd⟩ =>
      if nread < 0 then ⟨some (-1), usrbuf, rp, fd⟩
      else if nread = 0 then ⟨some (n - nleft), usrbuf, rp, fd⟩
      else rioReadnbLoop n rounds (nleft - nread.toNat) (usrbuf ++ bs) rp fd

/-- `rio_readnb` (`rio.c:123`). -/
def rioReadnb (rp : RioT) (fd : Fd) (n : Nat) : Call := rioReadnbLoop n n n [] rp fd

/-! ## `rio_writen` -/

/-- What one `write(2)` does: `count k` moves at most `k` of the bytes it is given. -/
inductive WriteOutcome
  | count (k : Nat)
  | eintr
  | error
deriving DecidableEq, Repr

/-- What a `rio_writen` has done so far: its return value (`none` while it is blocked in
`write(2)`), the bytes that reached the descriptor, and the outcomes not used yet. -/
structure Written where
  ret   : Option Int
  sent  : Bytes
  sched : List WriteOutcome
deriving DecidableEq, Repr

/-- The loop of `rio_writen` (`rio.c:38-50`): `bufp` is the rest of the buffer, `n` its size. A
`write` that moves nothing leaves `errno` alone: read as `EINTR` it is the outcome `eintr`, and
`count 0` is the other case, a failure. -/
def rioWritenLoop (n : Nat) : List WriteOutcome → Bytes → Bytes → Written
  | sched, [], sent => ⟨some n, sent, sched⟩
  | [], _ :: _, sent => ⟨none, sent, []⟩
  | .eintr :: os, b :: bufp, sent => rioWritenLoop n os (b :: bufp) sent
  | .error :: os, _ :: _, sent => ⟨some (-1), sent, os⟩
  | .count k :: os, b :: bufp, sent =>
    if k = 0 then ⟨some (-1), sent, os⟩
    else rioWritenLoop n os ((b :: bufp).drop k) (sent ++ (b :: bufp).take k)

/-- `rio_writen` (`rio.c:33`). -/
def rioWriten (sched : List WriteOutcome) (usrbuf : Bytes) : Written :=
  rioWritenLoop usrbuf.length sched usrbuf []

end ComputerSystem.Rio
