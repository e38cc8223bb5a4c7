import ComputerSystem.CTypes
import ComputerSystem.Lib.Custody
/-!
# `open_clientfd` and `open_serverfd` (`Chapter11/socket/net.h`)

Each entry of the list carries what the system calls made for it come to. `socket` may depend on the
descriptors that are open, and gives out none of these. What is printed is left out, and so is `optval`:
nobody looks at what `setsockopt` returns.

| here                       | there                                                            |
|----------------------------|------------------------------------------------------------------|
| `World.opened`, `World.log` | the open descriptors; the calls of `socket` that succeed, and of `close` |
| `World.freed`              | how often `freeaddrinfo` has been called                          |
| `openLoop`                 | the loop over the list (`:27-40`, `:63-76`); `p`, and the descriptor |
| `openClientfd`, `openServerfd` | `open_clientfd` (`:13`), `open_serverfd` (`:50`)              |

`fd` is what the variable of the descriptor holds at first, and the list is `none` when `getaddrinfo` fails.
-/

namespace ComputerSystem.Net

open Custody

structure Addrinfo where
  socket  : List Nat → Option Nat
  fresh   : ∀ opened n, socket opened = some n → n ∉ opened
  connect : Bool
  bind    : Bool
  listen  : Bool

structure World where
  opened : List Nat
  log    : List (Event Nat)
  freed  : Nat

/-- What a system call without a result of its own returns. -/
def status (ok : Bool) : Int := if ok then 0 else -1

def World.socket (w : World) (p : Addrinfo) : Int × World :=
  match p.socket w.opened with
  | none => (-1, w)
  | some n => (n, { w with opened := n :: w.opened, log := w.log ++ [.acquired n] })

def World.close (w : World) (fd : Int) : World :=
  { w with opened := w.opened.erase fd.toNat, log := w.log ++ [.closed fd.toNat] }

def World.freeaddrinfo (w : World) : World := { w with freed := w.freed + 1 }

/-- `ready` is the test behind `socket`; the list is empty when `p` has become `NULL`. -/
def openLoop (ready : Addrinfo → Bool) : List Addrinfo → Int → World → List Addrinfo × Int × World
  | [], fd, w => ([], fd, w)
  | p :: next, _, w =>
    let (fd, w) := w.socket p
    if fd < 0 then openLoop ready next fd w
    else if ready p then (p :: next, fd, w)
    else openLoop ready next fd (w.close fd)

def connects (p : Addrinfo) : Bool := status p.connect ≠ -1

def binds (p : Addrinfo) : Bool := status p.bind = 0

def openClientfd (fd : Int) (plist : Option (List Addrinfo)) (w : World) : Int × World :=
  match plist with
  | none => (-1, w)
  | some plist =>
    let (p, clientfd, w) := openLoop connects plist fd w
    let w := w.freeaddrinfo
    match p with
    | [] => (-1, w)
    | _ :: _ => (clientfd, w)

def openServerfd (fd : Int) (plist : Option (List Addrinfo)) (w : World) : Int × World :=
  match plist with
  | none => (-1, w)
  | some plist =>
    let (p, listenfd, w) := openLoop binds plist fd w
    let w := w.freeaddrinfo
    match p with
    | [] => (-1, w)
    | p :: _ => if status p.listen < 0 then (-1, w.close listenfd) else (listenfd, w)

/-! ## What they are for -/

/-- The first entry for which `socket` and the call behind it succeed. -/
def chosen (ready : Addrinfo → Bool) (opened : List Nat) (plist : List Addrinfo) : Option Addrinfo :=
  plist.find? fun p => (p.socket opened).isSome && ready p

/-- The descriptor of an entry, or -1. -/
def descriptor (opened : List Nat) (p : Option Addrinfo) : Int :=
  match p.bind fun p => p.socket opened with
  | none => -1
  | some n => n

/-- What is left behind by a call that returned `ret`: of the descriptors opened since, `ret` is the only one that
is open still, and all others have been closed exactly once; the list is freed if there is one. -/
structure Accounted (plist : Option (List Addrinfo)) (w : World) (ret : Int) (w' : World) : Prop where
  opened : w'.opened = if 0 ≤ ret then ret.toNat :: w.opened else w.opened
  fresh  : 0 ≤ ret → ret.toNat ∉ w.opened
  log    : ∃ es, w'.log = w.log ++ es ∧ Disciplined es ∧
    ∀ (a : List (Event Nat)) (n : Nat) (b : List (Event Nat)), es = a ++ .acquired n :: b →
      ended n b = if ret = n ∧ .acquired n ∉ b then 0 else 1
  freed  : w'.freed = w.freed + if plist.isSome then 1 else 0

/-! ## The loop -/

/-- All that was opened has been closed. -/
structure Settled (es : List (Event Nat)) : Prop where
  disciplined : Disciplined es
  none_held   : ∀ n, held n es = false

theorem settled_nil : Settled [] := ⟨.nil, fun _ => rfl⟩

theorem Settled.acquired {es : List (Event Nat)} (h : Settled es) (n : Nat) : Disciplined (es ++ [.acquired n]) :=
  .snoc h.disciplined (h.none_held n)

theorem held_acquired {es : List (Event Nat)} (h : Settled es) (n m : Nat) :
    held m (es ++ [.acquired n]) = decide (n = m) := by
  rw [held_snoc, h.none_held]
  by_cases hm : n = m
  · rw [if_pos (show Event.key (.acquired n) = m from hm), decide_eq_true hm]
    rfl
  · rw [if_neg (show ¬ Event.key (.acquired n) = m from hm), decide_eq_false hm]

/-- A descriptor that is opened and closed. -/
theorem Settled.closed {es : List (Event Nat)} (h : Settled es) (n : Nat) : Settled (es ++ [.acquired n] ++ [.closed n]) := by
  constructor
  · refine .snoc (h.acquired n) ?_
    show held n (es ++ [.acquired n]) = true
    rw [held_acquired h, decide_eq_true rfl]
  · intro m
    rw [held_snoc, held_acquired h]
    by_cases hm : n = m
    · rw [if_pos (show Event.key (.closed n) = m from hm)]
      rfl
    · rw [if_neg (show ¬ Event.key (.closed n) = m from hm), decide_eq_false hm]

/-- **The loop** ends at the first entry that is ready, its descriptor the only one that is new, or behind
the list with nothing new. -/
theorem openLoop_spec (ready : Addrinfo → Bool) : ∀ (plist : List Addrinfo) (fd : Int) (opened : List Nat)
    (log es : List (Event Nat)) (freed : Nat), Settled es →
    ∃ es', Settled es' ∧
      match chosen ready opened plist with
      | none => ∃ fd', openLoop ready plist fd ⟨opened, log ++ es, freed⟩ = ([], fd', ⟨opened, log ++ es', freed⟩)
      | some p => ∃ (next : List Addrinfo) (n : Nat), p.socket opened = some n ∧
        openLoop ready plist fd ⟨opened, log ++ es, freed⟩ =
          (p :: next, (n : Int), ⟨n :: opened, log ++ (es' ++ [.acquired n]), freed⟩) := by
  intro plist
  induction plist with
  | nil =>
    intro fd opened log es freed hes
    exact ⟨es, hes, fd, rfl⟩
  | cons p next ih =>
    intro fd opened log es freed hes
    cases hsocket : p.socket opened with
    | none =>
      obtain ⟨es', hes', hcase⟩ := ih (-1) opened log es freed hes
      refine ⟨es', hes', ?_⟩
      have hchosen : chosen ready opened (p :: next) = chosen ready opened next := by
        rw [chosen, List.find?_cons_of_neg (by simp [hsocket])]
        rfl
      have hloop : openLoop ready (p :: next) fd ⟨opened, log ++ es, freed⟩ =
          openLoop ready next (-1) ⟨opened, log ++ es, freed⟩ := by
        simp [openLoop, World.socket, hsocket]
      rw [hchosen, hloop]
      exact hcase
    | some n =>
      have hnonneg : ¬ (n : Int) < 0 := by omega
      by_cases hready : ready p = true
      · refine ⟨es, hes, ?_⟩
        have hchosen : chosen ready opened (p :: next) = some p := by
          rw [chosen, List.find?_cons_of_pos (by simp [hsocket, hready])]
        rw [hchosen]
        refine ⟨next, n, hsocket, ?_⟩
        simp [openLoop, World.socket, hsocket, hnonneg, hready]
      · obtain ⟨es', hes', hcase⟩ := ih n opened log (es ++ [.acquired n] ++ [.closed n]) freed (hes.closed n)
        refine ⟨es', hes', ?_⟩
        have hchosen : chosen ready opened (p :: next) = chosen ready opened next := by
          rw [chosen, List.find?_cons_of_neg (by simp [hready])]
          rfl
        have hloop : openLoop ready (p :: next) fd ⟨opened, log ++ es, freed⟩ =
            openLoop ready next n ⟨opened, log ++ (es ++ [.acquired n] ++ [.closed n]), freed⟩ := by
          simp [openLoop, World.socket, World.close, hsocket, hnonneg, hready]
        rw [hchosen, hloop]
        exact hcase

/-! ## What a call leaves behind -/

/-- Everything has been closed, and -1 is returned. -/
theorem accounted_failed {plist : Option (List Addrinfo)} {w w' : World} {es : List (Event Nat)} (hes : Settled es)
    (hopened : w'.opened = w.opened) (hlog : w'.log = w.log ++ es)
    (hfreed : w'.freed = w.freed + if plist.isSome then 1 else 0) : Accounted plist w (-1) w' := by
  refine ⟨hopened, fun h => by omega, ⟨es, hlog, hes.disciplined, fun a n b hsplit => ?_⟩, hfreed⟩
  rw [hes.disciplined.ended_eq (hes.none_held n) hsplit, if_neg]
  rintro ⟨h, -⟩
  omega

/-- All but the last has been closed, and the last is returned. -/
theorem accounted_opened {plist : Option (List Addrinfo)} {w w' : World} {es : List (Event Nat)} {p : Addrinfo} {n : Nat}
    (hes : Settled es) (hp : p.socket w.opened = some n) (hopened : w'.opened = n :: w.opened)
    (hlog : w'.log = w.log ++ (es ++ [.acquired n])) (hfreed : w'.freed = w.freed + if plist.isSome then 1 else 0) :
    Accounted plist w n w' := by
  refine ⟨by rw [if_pos (by omega), Int.toNat_natCast]; exact hopened, fun _ => p.fresh w.opened n hp,
    ⟨es ++ [.acquired n], hlog, hes.acquired n, fun a m b hsplit => ?_⟩, hfreed⟩
  rw [(hes.acquired n).ended_cases hsplit, held_acquired hes]
  refine if_congr ?_ rfl rfl
  rw [decide_eq_true_eq, Int.natCast_inj, and_comm]

theorem connects_eq : connects = Addrinfo.connect := by
  funext p
  cases h : p.connect <;> simp [connects, status, h]

theorem binds_eq : binds = Addrinfo.bind := by
  funext p
  cases h : p.bind <;> simp [binds, status, h]

theorem openClientfd_accounted (fd : Int) (plist : Option (List Addrinfo)) (w : World) :
    (openClientfd fd plist w).1 = descriptor w.opened (plist.bind (chosen Addrinfo.connect w.opened)) ∧
      Accounted plist w (openClientfd fd plist w).1 (openClientfd fd plist w).2 := by
  cases plist with
  | none => exact ⟨rfl, accounted_failed settled_nil rfl (List.append_nil _).symm rfl⟩
  | some plist =>
    obtain ⟨es, hes, hcase⟩ := openLoop_spec connects plist fd w.opened w.log [] w.freed settled_nil
    rw [List.append_nil, connects_eq] at hcase
    rw [Option.bind_some]
    cases hp : chosen Addrinfo.connect w.opened plist with
    | none =>
      rw [hp] at hcase
      obtain ⟨fd', hloop⟩ := hcase
      simp only [openClientfd, connects_eq, hloop]
      exact ⟨rfl, accounted_failed hes rfl rfl rfl⟩
    | some p =>
      rw [hp] at hcase
      obtain ⟨next, n, hsocket, hloop⟩ := hcase
      simp only [openClientfd, connects_eq, hloop]
      exact ⟨by rw [descriptor, Option.bind_some, hsocket], accounted_opened hes hsocket rfl rfl rfl⟩

theorem openServerfd_accounted (fd : Int) (plist : Option (List Addrinfo)) (w : World) :
    (openServerfd fd plist w).1 =
        descriptor w.opened ((plist.bind (chosen Addrinfo.bind w.opened)).filter Addrinfo.listen) ∧
      Accounted plist w (openServerfd fd plist w).1 (openServerfd fd plist w).2 := by
  cases plist with
  | none => exact ⟨rfl, accounted_failed settled_nil rfl (List.append_nil _).symm rfl⟩
  | some plist =>
    obtain ⟨es, hes, hcase⟩ := openLoop_spec binds plist fd w.opened w.log [] w.freed settled_nil
    rw [List.append_nil, binds_eq] at hcase
    rw [Option.bind_some]
    cases hp : chosen Addrinfo.bind w.opened plist with
    | none =>
      rw [hp] at hcase
      obtain ⟨fd', hloop⟩ := hcase
      simp only [openServerfd, binds_eq, hloop]
      exact ⟨rfl, accounted_failed hes rfl rfl rfl⟩
    | some p =>
      rw [hp] at hcase
      obtain ⟨next, n, hsocket, hloop⟩ := hcase
      cases hlisten : p.listen with
      | true =>
        simp only [openServerfd, binds_eq, hloop, status, hlisten, if_true, Int.lt_irrefl, if_false]
        exact ⟨by simp [descriptor, Option.filter, hlisten, hsocket], accounted_opened hes hsocket rfl rfl rfl⟩
      | false =>
        -- it was bound, and is closed behind the list
        simp only [openServerfd, binds_eq, hloop, status, hlisten, Bool.false_eq_true, if_false]
        rw [if_pos (by decide)]
        refine ⟨by simp [descriptor, Option.filter, hlisten], accounted_failed (hes.closed n) ?_ ?_ rfl⟩
        · simp [World.close, World.freeaddrinfo]
        · simp [World.close, World.freeaddrinfo]

/-- **No descriptor leaks**, whatever the list is and whatever becomes of its entries. -/
theorem open_fd_accounted (fd : Int) (plist : Option (List Addrinfo)) (w : World) :
    ((openClientfd fd plist w).1 = descriptor w.opened (plist.bind (chosen Addrinfo.connect w.opened)) ∧
      Accounted plist w (openClientfd fd plist w).1 (openClientfd fd plist w).2) ∧
    (openServerfd fd plist w).1 =
        descriptor w.opened ((plist.bind (chosen Addrinfo.bind w.opened)).filter Addrinfo.listen) ∧
      Accounted plist w (openServerfd fd plist w).1 (openServerfd fd plist w).2 :=
  ⟨openClientfd_accounted fd plist w, openServerfd_accounted fd plist w⟩

end ComputerSystem.Net
