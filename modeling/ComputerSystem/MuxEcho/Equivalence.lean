import ComputerSystem.MuxEcho.Epoll
import ComputerSystem.MuxEcho.Poll
import ComputerSystem.MuxEcho.Select
/-!
# The three servers

Every state that one of them reaches is `Served`: whatever the clients do and whatever the numbers of the
descriptors are, the three loops serve every connection in the same way.
-/

namespace ComputerSystem.MuxEcho

/-- **The select, poll and epoll servers are the same echo server.** -/
theorem echo_servers_equivalent (listenfd : Nat) (others : List Nat) :
    (∀ s x, Select.start listenfd = some s →
      Reach Select.server.step Select.server.ok (World.start listenfd others, s) x → Served Select.server x) ∧
    (∀ x, Reach Poll.server.step Poll.server.ok (World.start listenfd others, Poll.start listenfd) x →
      Served Poll.server x) ∧
    (∀ x, Reach Epoll.server.step Epoll.server.ok (World.start listenfd others, Epoll.start listenfd) x →
      Served Epoll.server x) := by
  refine ⟨fun s x hs h => ?_, fun x h => ?_, fun x h => ?_⟩
  · obtain ⟨hinv, hout⟩ := Select.start_inv others hs
    exact Select.verified.served hinv hout h
  · obtain ⟨hinv, hout⟩ := Poll.start_inv listenfd others
    exact Poll.verified.served hinv hout h
  · obtain ⟨hinv, hout⟩ := Epoll.start_inv listenfd others
    exact Epoll.verified.served hinv hout h

/-! Two clients; the first one sends two bytes, which are written in two pieces, and shuts down while the
second one sends; a third one gets the descriptor of the first. -/

def echoed : List Label := [.read (.count 9), .write (.count 1), .write .eintr, .write (.count 5)]

def selectRun : List Label :=
  ([.client .connect, .client .connect, .client (.send 0 [104, 105]), .ready [] [] [], .accept (some 4) true,
    .interrupted, .ready [] [] [], .accept (some 5) true, .go, .go, .go, .go, .go] : List Label) ++ echoed ++
  ([.go, .client (.send 1 [33]), .client (.shutdown 0), .ready [] [] [], .go, .go, .go, .go, .go, .go,
    .read (.count 9), .go, .read .eintr, .go, .ready [] [] [], .go, .go, .go, .go, .go, .go, .go,
    .read (.count 9), .write (.count 1), .go, .client .connect, .ready [] [] [], .accept (some 4) true] : List Label)

def pollRun : List Label :=
  ([.client .connect, .client .connect, .client (.send 0 [104, 105]), .ready [] [] [], .accept (some 4) true,
    .interrupted, .ready [] [] [], .accept (some 5) true, .go] : List Label) ++ echoed ++
  ([.go, .client (.send 1 [33]), .client (.shutdown 0), .ready [4] [] [], .go, .go, .read (.count 9), .go,
    .read .eintr, .go, .ready [] [] [], .go, .go, .read (.count 9), .write (.count 1), .go,
    .client .connect, .ready [] [] [], .accept (some 4) true] : List Label)

def epollRun : List Label :=
  ([.client .connect, .client .connect, .client (.send 0 [104, 105]), .ready [] [] [3], .accept (some 4) true, .go,
    .interrupted, .ready [] [] [3, 4], .accept (some 5) true, .go] : List Label) ++ echoed ++
  ([.go, .client (.send 1 [33]), .client (.shutdown 0), .ready [4] [] [4, 5], .go, .read (.count 9), .go,
    .read .eintr, .go, .ready [] [] [5], .go, .read (.count 9), .write (.count 1), .go,
    .client .connect, .ready [] [] [3], .accept (some 4) true] : List Label)

/-- What the first two clients got, that the first one is closed, and whose descriptor 4 is. -/
def outcome {σ : Type} (x : World × σ) : Bytes × Bool × Bytes × Option Nat :=
  ((x.1.conns 0).written, (x.1.conns 0).closed, (x.1.conns 1).written, x.1.table 4)

theorem echo_servers_equivalent_run :
    (∃ x, Served Select.server x ∧ outcome x = ([104, 105], true, [33], some 2)) ∧
    (∃ x, Served Poll.server x ∧ outcome x = ([104, 105], true, [33], some 2)) ∧
    (∃ x, Served Epoll.server x ∧ outcome x = ([104, 105], true, [33], some 2)) := by
  obtain ⟨hselect, hpoll, hepoll⟩ := echo_servers_equivalent 3 [0, 1, 2]
  refine ⟨?_, ?_, ?_⟩
  · have hend : (runWhile Select.server.step Select.server.ok
        (World.start 3 [0, 1, 2], ⟨Function.update (fun _ => false) 3 true, 3, .select⟩) selectRun).map outcome =
        some ([104, 105], true, [33], some 2) := by decide
    obtain ⟨x, hx, heq⟩ := Option.map_eq_some_iff.1 hend
    exact ⟨x, hselect _ x rfl (runWhile_reach hx), heq⟩
  · have hend : (runWhile Poll.server.step Poll.server.ok (World.start 3 [0, 1, 2], Poll.start 3) pollRun).map outcome =
        some ([104, 105], true, [33], some 2) := by decide
    obtain ⟨x, hx, heq⟩ := Option.map_eq_some_iff.1 hend
    exact ⟨x, hpoll x (runWhile_reach hx), heq⟩
  · have hend : (runWhile Epoll.server.step Epoll.server.ok (World.start 3 [0, 1, 2], Epoll.start 3) epollRun).map outcome =
        some ([104, 105], true, [33], some 2) := by decide
    obtain ⟨x, hx, heq⟩ := Option.map_eq_some_iff.1 hend
    exact ⟨x, hepoll x (runWhile_reach hx), heq⟩

end ComputerSystem.MuxEcho
