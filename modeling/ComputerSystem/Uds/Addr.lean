import ComputerSystem.Uds.Fd
/-!
# Addresses of Unix domain sockets

`fill_uds_addr` (`Chapter10/experiments/uds.h:39`), and `is_abstract` and `cleanup` of
`Chapter10/experiments/uds_server.c:28-35`. What the kernel makes of an address is `denoted`: a name in the
abstract namespace when `sun_path` begins with a NUL, and else a file. A string is without its NUL, and
`none` is the exit of `uds_die`.

`uds_addr_iff` says for which strings the two encodings are told apart: for all that are not empty. The
empty one is no name of the abstract namespace for the program, and one of 108 NULs for the kernel.
-/

namespace ComputerSystem.Uds

structure SockaddrUn where
  sunFamily : Nat
  sunPath   : Bytes
deriving DecidableEq, Repr

def AF_UNIX : Nat := 1

/-- `offsetof(struct sockaddr_un, sun_path)` -/
def offsetofPath : Nat := 2

/-- `sizeof(struct sockaddr_un)` -/
def sizeofSockaddrUn : Nat := offsetofPath + sunPath

/-- `memcpy(dst + off, src, strlen(src))` -/
def memcpy (dst : Bytes) (off : Nat) (src : Bytes) : Bytes := dst.take off ++ src ++ dst.drop (off + src.length)

def commercialAt : UInt8 := 64

/-- `fill_uds_addr` (`uds.h:39`): the address and its length. -/
def fillUdsAddr (name : Bytes) : Option (SockaddrUn × Nat) :=
  let addr : SockaddrUn := ⟨AF_UNIX, List.replicate sunPath 0⟩
  if name.head? = some commercialAt then
    let abs := name.tail
    if abs.length + 1 > sunPath then none
    else some ({ addr with sunPath := memcpy (addr.sunPath.set 0 0) 1 abs }, offsetofPath + 1 + abs.length)
  else if name.length ≥ sunPath then none
  else some ({ addr with sunPath := memcpy addr.sunPath 0 name }, sizeofSockaddrUn)

/-- `is_abstract` (`uds_server.c:28`) -/
def isAbstract (name : Bytes) : Bool := name.head? = some commercialAt

/-- `cleanup` (`uds_server.c:32`): the file that is removed, if any. -/
def cleanup (name : Bytes) : Option Bytes := if !isAbstract name then some name else none

/-! ## What the kernel reads -/

inductive Endpoint
  | abstract (name : Bytes)
  | file (path : Bytes)
deriving DecidableEq, Repr

def denoted (a : SockaddrUn × Nat) : Endpoint :=
  if a.1.sunPath.head? = some 0 then .abstract (a.1.sunPath.take (a.2 - offsetofPath)) else .file (cstring a.1.sunPath)

/-- How many bytes of `sun_path` are looked at. -/
def Endpoint.reads : Endpoint → Nat
  | .abstract name => name.length
  | .file path => path.length + 1

def Endpoint.bound : Endpoint → Option Bytes
  | .abstract _ => none
  | .file path => some path

/-- What is asked of the address of one name: the `@` decides between the namespaces, its name is a NUL and
the rest of the string, no more than the array is read, and the server removes what was bound and nothing
else. -/
structure Encoded (name : Bytes) (a : SockaddrUn × Nat) : Prop where
  namespaces : (∃ n, denoted a = .abstract n) ↔ name.head? = some commercialAt
  exact      : ∀ rest, name = commercialAt :: rest → denoted a = .abstract (0 :: rest)
  inside     : a.1.sunPath.length = sunPath ∧ a.2 ≤ sizeofSockaddrUn ∧ (denoted a).reads ≤ sunPath
  server     : (isAbstract name = true ↔ ∃ n, denoted a = .abstract n) ∧ cleanup name = (denoted a).bound

/-- Two names denote one endpoint only if they are one. -/
structure Separated (a b : Bytes) (A B : SockaddrUn × Nat) : Prop where
  injective : denoted A = denoted B ↔ a = b
  left      : Encoded a A
  right     : Encoded b B

/-! ## What the two encodings denote -/

/-- The array as it is left, behind what was copied. -/
theorem memcpy_zeros (name : Bytes) (k n : Nat) :
    memcpy (List.replicate (k + n) 0) k name = List.replicate k 0 ++ name ++ List.replicate (n - name.length) 0 := by
  rw [memcpy, List.take_replicate, List.drop_replicate, Nat.min_eq_left (Nat.le_add_right k n), Nat.add_sub_add_left]

/-- A string with an `@`. -/
theorem fill_abstract {rest : Bytes} {A : SockaddrUn × Nat} (h : fillUdsAddr (commercialAt :: rest) = some A) :
    rest.length + 1 ≤ sunPath ∧
      A = (⟨AF_UNIX, 0 :: rest ++ List.replicate (107 - rest.length) 0⟩, offsetofPath + 1 + rest.length) := by
  have hzeros : (List.replicate sunPath (0 : UInt8)).set 0 0 = List.replicate (1 + 107) 0 := rfl
  simp only [fillUdsAddr, List.head?_cons, if_true, List.tail_cons, hzeros, memcpy_zeros] at h
  by_cases hlong : rest.length + 1 > sunPath
  · rw [if_pos hlong] at h
    cases h
  · rw [if_neg hlong, Option.some.injEq] at h
    exact ⟨by omega, h.symm⟩

/-- A string without. -/
theorem fill_file {name : Bytes} {A : SockaddrUn × Nat} (hname : name.head? ≠ some commercialAt)
    (h : fillUdsAddr name = some A) :
    name.length < sunPath ∧ A = (⟨AF_UNIX, name ++ List.replicate (sunPath - name.length) 0⟩, sizeofSockaddrUn) := by
  have hzeros : List.replicate sunPath (0 : UInt8) = List.replicate (0 + 108) 0 := rfl
  simp only [fillUdsAddr, if_neg hname, hzeros, memcpy_zeros] at h
  by_cases hlong : name.length ≥ sunPath
  · rw [if_pos hlong] at h
    cases h
  · rw [if_neg hlong, Option.some.injEq] at h
    exact ⟨by omega, h.symm⟩

theorem denoted_abstract {rest : Bytes} {A : SockaddrUn × Nat} (h : fillUdsAddr (commercialAt :: rest) = some A) :
    denoted A = .abstract (0 :: rest) := by
  obtain ⟨-, rfl⟩ := fill_abstract h
  have hlen : offsetofPath + 1 + rest.length - offsetofPath = (0 :: rest).length := by rw [List.length_cons]; omega
  unfold denoted
  simp only [List.cons_append, List.head?_cons, if_true, hlen]
  rw [← List.cons_append, List.take_left]

theorem denoted_file {name : Bytes} (h0 : (0 : UInt8) ∉ name) (hne : name ≠ []) (hname : name.head? ≠ some commercialAt)
    {A : SockaddrUn × Nat} (h : fillUdsAddr name = some A) : denoted A = .file name := by
  obtain ⟨hlt, rfl⟩ := fill_file hname h
  obtain ⟨n, hn⟩ : ∃ n, sunPath - name.length = n + 1 := ⟨sunPath - name.length - 1, by omega⟩
  obtain ⟨c, t, rfl⟩ := List.exists_cons_of_ne_nil hne
  have hc : ¬ (c = 0) := fun hc => h0 (hc ▸ List.mem_cons_self ..)
  rw [denoted, if_neg (by simpa using hc), hn, List.replicate_succ, cstring_append_nul, cstring_eq h0]

/-- The empty string: 108 NULs, none of which is copied. -/
theorem denoted_empty {A : SockaddrUn × Nat} (h : fillUdsAddr [] = some A) :
    denoted A = .abstract (List.replicate 108 0) := by
  have hname : ([] : Bytes).head? ≠ some commercialAt := by simp
  obtain ⟨-, rfl⟩ := fill_file hname h
  rfl

/-- The string that an endpoint was made from. -/
def nameOf : Endpoint → Bytes
  | .abstract name => commercialAt :: name.tail
  | .file path => path

theorem nameOf_denoted {name : Bytes} (h0 : (0 : UInt8) ∉ name) (hne : name ≠ []) {A : SockaddrUn × Nat}
    (h : fillUdsAddr name = some A) : nameOf (denoted A) = name := by
  by_cases hname : name.head? = some commercialAt
  · obtain ⟨rest, rfl⟩ := List.head?_eq_some_iff.1 hname
    rw [denoted_abstract h]
    rfl
  · rw [denoted_file h0 hne hname h]
    rfl

/-! ## Which names are told apart -/

theorem encoded_of_ne_nil {name : Bytes} (h0 : (0 : UInt8) ∉ name) (hne : name ≠ []) {A : SockaddrUn × Nat}
    (h : fillUdsAddr name = some A) : Encoded name A := by
  by_cases hname : name.head? = some commercialAt
  · obtain ⟨rest, rfl⟩ := List.head?_eq_some_iff.1 hname
    have hdenoted := denoted_abstract h
    obtain ⟨hle, rfl⟩ := fill_abstract h
    refine ⟨⟨fun _ => rfl, fun _ => ⟨_, hdenoted⟩⟩, ?_, ⟨?_, ?_, ?_⟩, ⟨fun _ => ⟨_, hdenoted⟩, fun _ => ?_⟩, ?_⟩
    · intro rest' heq
      rw [hdenoted, (List.cons.inj heq).2]
    · simp only [List.length_append, List.length_cons, List.length_replicate, sunPath] at hle ⊢
      omega
    · simp only [sizeofSockaddrUn]
      omega
    · rw [hdenoted, Endpoint.reads, List.length_cons]
      exact hle
    · simp [isAbstract]
    · rw [hdenoted]
      simp [cleanup, isAbstract, Endpoint.bound]
  · have hdenoted := denoted_file h0 hne hname h
    obtain ⟨hlt, rfl⟩ := fill_file hname h
    have hno : ¬ ∃ n, denoted (⟨AF_UNIX, name ++ List.replicate (sunPath - name.length) 0⟩, sizeofSockaddrUn) = .abstract n := by
      rw [hdenoted]
      rintro ⟨n, heq⟩
      cases heq
    have habstract : isAbstract name = false := by simpa [isAbstract] using hname
    refine ⟨⟨fun h => absurd h hno, fun h => absurd h hname⟩, ?_, ⟨?_, Nat.le_refl _, ?_⟩, ⟨?_, fun h => absurd h hno⟩, ?_⟩
    · rintro rest rfl
      exact absurd rfl hname
    · simp only [List.length_append, List.length_replicate]
      omega
    · rw [hdenoted]
      exact hlt
    · rw [habstract]
      intro h
      cases h
    · rw [hdenoted, cleanup, habstract]
      rfl

/-- The empty string is abstract without an `@`. -/
theorem empty_not_encoded {A : SockaddrUn × Nat} (h : fillUdsAddr [] = some A) : ¬ Encoded [] A := by
  intro henc
  have hat := henc.namespaces.1 ⟨_, denoted_empty h⟩
  cases hat

/-- **Names and namespaces** are kept apart for exactly the strings that are not empty. -/
theorem uds_addr_iff {a b : Bytes} (ha : (0 : UInt8) ∉ a) (hb : (0 : UInt8) ∉ b) {A B : SockaddrUn × Nat}
    (hA : fillUdsAddr a = some A) (hB : fillUdsAddr b = some B) : Separated a b A B ↔ a ≠ [] ∧ b ≠ [] := by
  constructor
  · intro h
    constructor
    · rintro rfl
      exact empty_not_encoded hA h.left
    · rintro rfl
      exact empty_not_encoded hB h.right
  · rintro ⟨hane, hbne⟩
    refine ⟨⟨fun heq => ?_, ?_⟩, encoded_of_ne_nil ha hane hA, encoded_of_ne_nil hb hbne hB⟩
    · rw [← nameOf_denoted ha hane hA, ← nameOf_denoted hb hbne hB, heq]
    · rintro rfl
      rw [Option.some.inj (hA.symm.trans hB)]

/-- The default path of the server, and the abstract name of its usage text. -/
theorem uds_addr_iff_server : ∃ A B, fillUdsAddr (ascii "/tmp/csapp_uds.sock") = some A ∧
    fillUdsAddr (ascii "@csapp_uds") = some B ∧
    (Separated (ascii "/tmp/csapp_uds.sock") (ascii "@csapp_uds") A B ↔
      ascii "/tmp/csapp_uds.sock" ≠ [] ∧ ascii "@csapp_uds" ≠ []) :=
  ⟨_, _, rfl, rfl, uds_addr_iff (by decide) (by decide) rfl rfl⟩

/-- `./uds_server ""`: bound to an abstract name, and taken for a file. -/
theorem uds_addr_empty : ∃ A, fillUdsAddr [] = some A ∧ denoted A = .abstract (List.replicate 108 0) ∧
    isAbstract [] = false ∧ cleanup [] = some [] ∧ ¬ Separated [] [] A A := by
  have h : fillUdsAddr [] = some _ := rfl
  exact ⟨_, h, denoted_empty h, rfl, rfl, fun hsep => empty_not_encoded h hsep.left⟩

end ComputerSystem.Uds
