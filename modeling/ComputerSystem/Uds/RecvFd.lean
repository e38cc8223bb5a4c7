import ComputerSystem.Uds.Ownership
/-!
# `recv_fd` and the descriptors it is sent

`Chapter10/experiments/unix_socket.hpp:163` and `Chapter10/experiments/uds.h:93`. A peer may attach any
control data to a message. The kernel opens as many of the descriptors in it as there is room for in
the control buffer and in the process, and only then does `recv_fd` see the header.

| here             | there                                                                 |
|------------------|-----------------------------------------------------------------------|
| `Control`        | a control message as the peer sent it                                  |
| `Room.free`      | the numbers that the process has left, in the order they are given out |
| `recvmsg`        | the call: the descriptors it has opened, and the headers in the buffer |
| `rightsFd`       | the test of the header, and the descriptor behind it                   |

The buffer is `CMSG_SPACE(sizeof(int))` long, so the padding behind the one `int` has room for another:
two descriptors are opened, `cmsg_len` is not `CMSG_LEN(sizeof(int))`, and nobody closes them.
-/

namespace ComputerSystem.Uds

/-! ## Control messages -/

def SOL_SOCKET : Int := 1
def SCM_RIGHTS : Int := 1

def sizeofInt : Nat := 4
def sizeofCmsghdr : Nat := 16

def CMSG_ALIGN (n : Nat) : Nat := (n + 7) / 8 * 8
def CMSG_SPACE (n : Nat) : Nat := CMSG_ALIGN n + CMSG_ALIGN sizeofCmsghdr
def CMSG_LEN (n : Nat) : Nat := CMSG_ALIGN sizeofCmsghdr + n

inductive Control
  /-- `SCM_RIGHTS` with some descriptors -/
  | rights (sent : Nat) (pos : 0 < sent)
  /-- data of another level or type, of `size` bytes -/
  | other (level type : Int) (size : Nat) (ne : ¬ (level = SOL_SOCKET ∧ type = SCM_RIGHTS))
deriving DecidableEq, Repr

/-- What is there for `recvmsg`. -/
inductive Incoming
  | error
  | eof
  | message (control : List Control)
deriving DecidableEq, Repr

/-- A header in the buffer, and the descriptors behind it. -/
structure Cmsghdr where
  len   : Nat
  level : Int
  type  : Int
  data  : List Nat
deriving DecidableEq, Repr

/-- The numbers that are left to the process: those the kernel can give out in `w`. -/
structure Room (w : World) where
  free   : List Nat
  closed : ∀ n ∈ free, w.opened n = false
  nodup  : free.Nodup

/-- The kernel puts control messages into what is left of the buffer; what has been cut off is lost. -/
def deliver : List Nat → Nat → List Control → List Nat × List Cmsghdr
  | _, _, [] => ([], [])
  | free, left, .rights sent _ :: cs =>
    let n := min (min sent ((left - sizeofCmsghdr) / sizeofInt)) free.length
    if n = 0 then deliver free left cs
    else
      let (fds, headers) := deliver (free.drop n) (left - min (CMSG_SPACE (n * sizeofInt)) left) cs
      (free.take n ++ fds, ⟨CMSG_LEN (n * sizeofInt), SOL_SOCKET, SCM_RIGHTS, free.take n⟩ :: headers)
  | free, left, .other level type size _ :: cs =>
    if left < sizeofCmsghdr then deliver free left cs
    else
      let (fds, headers) := deliver free (left - min (CMSG_SPACE size) left) cs
      (fds, ⟨min (CMSG_LEN size) left, level, type, []⟩ :: headers)

/-- `none` for a failure. -/
def recvmsg (free : List Nat) (controllen : Nat) : Incoming → Option (List Nat × List Cmsghdr)
  | .error => none
  | .eof => some ([], [])
  | .message control => some (deliver free controllen control)

/-! ## The two functions -/

/-- `cmsg == nullptr || cmsg->cmsg_level != ...` (`unix_socket.hpp:184-187`, `uds.h:115-116`), and the `memcpy`
behind it. -/
def rightsFd : Option Cmsghdr → Option Nat
  | none => none
  | some cmsg =>
    if cmsg.level ≠ SOL_SOCKET ∨ cmsg.type ≠ SCM_RIGHTS ∨ cmsg.len ≠ CMSG_LEN sizeofInt then none
    else some (cmsg.data.headD 0)

namespace UnixSocket

/-- `UnixSocket::recv_fd` (`unix_socket.hpp:163`), its result at `ret`. -/
def recv_fd (free : List Nat) (inc : Incoming) (ret : Nat) : Script :=
  match recvmsg free (CMSG_SPACE sizeofInt) inc with
  | none => .throws
  | some (fds, control) => (Script.ok (fds.map .opens)).next <|
      match rightsFd control.head? with
      | none => .throws
      | some received => .ok [.construct ret received]

end UnixSocket

/-- `recv_fd` of `uds.h:93`: the descriptors that were opened, and what is returned; `none` where the
process exits. -/
def recv_fd (free : List Nat) (inc : Incoming) : List Nat × Option Nat :=
  match recvmsg free (CMSG_SPACE sizeofInt) inc with
  | none => ([], none)
  | some (fds, control) => (fds, rightsFd control.head?)

/-! ## What the kernel has done -/

/-- A buffer that is too short, or a process without numbers: no descriptor and no header of one. -/
theorem deliver_none (free : List Nat) (cs : List Control) : ∀ left : Nat,
    left < sizeofCmsghdr + sizeofInt ∨ free = [] →
    (deliver free left cs).1 = [] ∧ ∀ h ∈ (deliver free left cs).2, ¬ (h.level = SOL_SOCKET ∧ h.type = SCM_RIGHTS) := by
  induction cs with
  | nil => intro left _; exact ⟨rfl, fun h hh => by cases hh⟩
  | cons c cs ih =>
    intro left hleft
    cases c with
    | rights sent pos =>
      have hzero : min (min sent ((left - sizeofCmsghdr) / sizeofInt)) free.length = 0 := by
        rcases hleft with hleft | rfl
        · simp only [sizeofCmsghdr, sizeofInt] at hleft ⊢
          omega
        · exact Nat.min_zero _
      rw [deliver]
      simp only [hzero, if_true]
      exact ih left hleft
    | other level type size ne =>
      rw [deliver]
      split
      · exact ih left hleft
      · obtain ⟨hfds, hheaders⟩ := ih (left - min (CMSG_SPACE size) left)
          (hleft.imp (fun h => Nat.lt_of_le_of_lt (Nat.sub_le _ _) h) id)
        refine ⟨hfds, ?_⟩
        intro h hh
        rcases List.mem_cons.1 hh with rfl | hh
        · exact ne
        · exact hheaders h hh

theorem rightsFd_other {h : Option Cmsghdr} (hh : ∀ c ∈ h, ¬ (c.level = SOL_SOCKET ∧ c.type = SCM_RIGHTS)) :
    rightsFd h = none := by
  cases h with
  | none => rfl
  | some c =>
    have hc := hh c rfl
    rw [rightsFd, if_pos]
    rw [Decidable.not_and_iff_not_or_not] at hc
    rcases hc with hc | hc
    · exact .inl hc
    · exact .inr (.inl hc)

/-- The message begins with at least two descriptors, and the process has room for two. -/
def Doubled (free : List Nat) : Incoming → Prop
  | .message (.rights sent _ :: _) => 2 ≤ sent ∧ 2 ≤ free.length
  | _ => False

/-- What `recv_fd` finds: nothing, one descriptor with its header, or two. -/
theorem deliver_cases (free : List Nat) (cs : List Control) :
    ((deliver free (CMSG_SPACE sizeofInt) cs).1 = [] ∧ rightsFd (deliver free (CMSG_SPACE sizeofInt) cs).2.head? = none ∧
      ¬ Doubled free (.message cs)) ∨
    (∃ fd ∈ free, (deliver free (CMSG_SPACE sizeofInt) cs).1 = [fd] ∧
      rightsFd (deliver free (CMSG_SPACE sizeofInt) cs).2.head? = some fd ∧ ¬ Doubled free (.message cs)) ∨
    ∃ fd fd' rest, free = fd :: fd' :: rest ∧ (deliver free (CMSG_SPACE sizeofInt) cs).1 = [fd, fd'] ∧
      rightsFd (deliver free (CMSG_SPACE sizeofInt) cs).2.head? = none ∧ Doubled free (.message cs) := by
  have hspace : CMSG_SPACE sizeofInt = 24 := rfl
  cases cs with
  | nil => exact .inl ⟨rfl, rfl, fun h => h⟩
  | cons c cs =>
    cases c with
    | other level type size ne =>
      left
      have hrest : CMSG_SPACE sizeofInt - min (CMSG_SPACE size) (CMSG_SPACE sizeofInt) < sizeofCmsghdr + sizeofInt := by
        simp only [CMSG_SPACE, CMSG_ALIGN, sizeofCmsghdr, sizeofInt]
        omega
      obtain ⟨hfds, -⟩ := deliver_none free cs _ (.inl hrest)
      rw [deliver, if_neg (by decide)]
      refine ⟨hfds, rightsFd_other ?_, fun h => h⟩
      rintro c ⟨⟩
      exact ne
    | rights sent pos =>
      match free with
      | [] =>
        left
        obtain ⟨hfds, hheaders⟩ := deliver_none [] (.rights sent pos :: cs) (CMSG_SPACE sizeofInt) (.inr rfl)
        exact ⟨hfds, rightsFd_other fun c hc => hheaders c (List.mem_of_head? hc), fun h => absurd h.2 (by decide)⟩
      | fd :: free =>
        -- behind the first header nothing is left of the buffer
        have hrest : ∀ free' n, 0 < n → (deliver free' (24 - min (CMSG_SPACE (n * sizeofInt)) 24) cs).1 = [] := by
          intro free' n hn
          apply (deliver_none free' cs _ (.inl _)).1
          simp only [CMSG_SPACE, CMSG_ALIGN, sizeofCmsghdr, sizeofInt]
          omega
        by_cases hone : min (min sent ((24 - sizeofCmsghdr) / sizeofInt)) (fd :: free).length = 1
        · right
          left
          refine ⟨fd, List.mem_cons_self .., ?_, ?_, ?_⟩
          · rw [hspace, deliver]
            simp only [hone, Nat.one_ne_zero, if_false, hrest _ 1 Nat.one_pos]
            rfl
          · rw [hspace, deliver]
            simp only [hone, Nat.one_ne_zero, if_false]
            rfl
          · rintro ⟨hsent, hroom⟩
            simp only [sizeofCmsghdr, sizeofInt] at hone
            omega
        · right
          right
          cases free with
          | nil =>
            simp only [sizeofCmsghdr, sizeofInt, List.length_singleton] at hone
            omega
          | cons fd' free =>
            have htwo : min (min sent ((24 - sizeofCmsghdr) / sizeofInt)) (fd :: fd' :: free).length = 2 := by
              simp only [sizeofCmsghdr, sizeofInt, List.length_cons] at hone ⊢
              omega
            refine ⟨fd, fd', free, rfl, ?_, ?_, ?_, ?_⟩
            · rw [hspace, deliver]
              simp only [htwo, show (2 : Nat) ≠ 0 by decide, if_false, hrest _ 2 Nat.two_pos]
              rfl
            · rw [hspace, deliver]
              simp only [htwo, show (2 : Nat) ≠ 0 by decide, if_false]
              rfl
            · simp only [sizeofCmsghdr, sizeofInt, List.length_cons] at htwo
              omega
            · simp

/-! ## The descriptor table -/

/-- What `UnixSocket::recv_fd` comes to. -/
theorem recv_fd_cases {w : World} (room : Room w) (inc : Incoming) (ret : Nat) :
    (UnixSocket.recv_fd room.free inc ret = .throws ∧ ¬ Doubled room.free inc) ∨
    (∃ fd, w.opened fd = false ∧ UnixSocket.recv_fd room.free inc ret = .ok [.opens fd, .construct ret fd] ∧
      ¬ Doubled room.free inc) ∨
    ∃ fd fd', w.opened fd = false ∧ w.opened fd' = false ∧ fd ≠ fd' ∧
      UnixSocket.recv_fd room.free inc ret = ⟨[.opens fd, .opens fd'], true⟩ ∧ Doubled room.free inc := by
  cases inc with
  | error => exact .inl ⟨rfl, fun h => h⟩
  | eof => exact .inl ⟨rfl, fun h => h⟩
  | message control =>
    rcases deliver_cases room.free control with ⟨hfds, hfd, hno⟩ | ⟨fd, hmem, hfds, hfd, hno⟩ |
      ⟨fd, fd', rest, hfree, hfds, hfd, htwo⟩
    · left
      refine ⟨?_, hno⟩
      simp only [UnixSocket.recv_fd, recvmsg, hfds, hfd]
      rfl
    · right
      left
      refine ⟨fd, room.closed fd hmem, ?_, hno⟩
      simp only [UnixSocket.recv_fd, recvmsg, hfds, hfd]
      rfl
    · right
      right
      have hne : fd ≠ fd' := by
        have hnodup := room.nodup
        rw [hfree] at hnodup
        rintro rfl
        simp at hnodup
      refine ⟨fd, fd', room.closed fd (by simp [hfree]), room.closed fd' (by simp [hfree]), hne, ?_, htwo⟩
      simp only [UnixSocket.recv_fd, recvmsg, hfds, hfd]
      rfl

/-- What owns a descriptor still owns it behind the call, whatever has arrived. -/
theorem recv_fd_inv {w w' : World} (h : Inv w) (room : Room w) {inc : Incoming} {ret : Nat}
    (hrun : runFrom prim w (UnixSocket.recv_fd room.free inc ret).code = some w') : Inv w' := by
  rcases recv_fd_cases room inc ret with ⟨hcode, -⟩ | ⟨fd, -, hcode, -⟩ | ⟨fd, fd', -, -, -, hcode, -⟩
  · rw [hcode] at hrun
    cases hrun
    exact h
  · rw [hcode] at hrun
    exact (fresh_newFd (some fd) ret).inv h (List.prefix_refl _) hrun
  · rw [hcode] at hrun
    obtain ⟨v, hv, hrun⟩ := runFrom_cons hrun
    obtain ⟨v', hv', hrun⟩ := runFrom_cons hrun
    cases hrun
    have hone := prim_inv (p := .opens fd) h trivial hv
    exact prim_inv (p := .opens fd') hone trivial hv'

/-- The call returns an `Fd` that owns the only descriptor that was opened, or throws and leaves the
objects and the descriptors what they were. -/
def Accounted (w : World) (s : Script) (ret : Nat) : Prop :=
  ∃ w', runFrom prim w s.code = some w' ∧
    if s.threw then w'.objs = w.objs ∧ w'.opened = w.opened
    else ∃ fd : Nat, w.opened fd = false ∧ w'.opened = Function.update w.opened fd true ∧
      w'.objs = Function.update w.objs ret (some (fd : Int))

/-- Two descriptors behind an exception. -/
theorem opens_twice_not_accounted {w : World} {fd fd' : Nat} (ret : Nat) (hclosed : w.opened fd = false) :
    ¬ Accounted w ⟨[.opens fd, .opens fd'], true⟩ ret := by
  rintro ⟨w', hrun, -, hopened⟩
  obtain ⟨v, hv, hrun⟩ := runFrom_cons hrun
  obtain ⟨v', hv', hrun⟩ := runFrom_cons hrun
  cases hrun
  simp only [prim, hclosed, Bool.false_eq_true, if_false, Option.some.injEq] at hv
  subst hv
  simp only [prim] at hv'
  split at hv'
  · cases hv'
  · cases hv'
    have hopen := congrFun hopened fd
    rw [hclosed] at hopen
    simp [Function.update_apply] at hopen

/-- **`recv_fd`** of `uds.h` has the same test: when it returns, what it returns is all that was opened. -/
theorem recv_fd_returns {free : List Nat} {inc : Incoming} {fd : Nat} (h : (recv_fd free inc).2 = some fd) :
    (recv_fd free inc).1 = [fd] := by
  cases inc with
  | error => cases h
  | eof => cases h
  | message control =>
    simp only [recv_fd, recvmsg] at h ⊢
    rcases deliver_cases free control with ⟨-, hfd, -⟩ | ⟨fd', -, hfds, hfd, -⟩ | ⟨_, _, _, -, -, hfd, -⟩
    · rw [hfd] at h
      cases h
    · rw [hfd] at h
      cases h
      exact hfds
    · rw [hfd] at h
      cases h

end ComputerSystem.Uds
