import ComputerSystem.Rio.Stream
import ComputerSystem.Lib.Machine
import ComputerSystem.Rio.Conserve
import ComputerSystem.Coroutine.Refine
import ComputerSystem.Coroutine.Places
import ComputerSystem.EpollEt.Frame
import ComputerSystem.Shell.Reachable
import ComputerSystem.ProcessEcho.Server
import ComputerSystem.Tiny.Processes
import ComputerSystem.Echo.Deadlock
import ComputerSystem.Echo.Stream
import ComputerSystem.Tiny.Multipart
import ComputerSystem.Tiny.Put
import ComputerSystem.Tiny.Headers
import ComputerSystem.Tiny.Response
import ComputerSystem.Uds.Ownership
import ComputerSystem.Shell.Typed
import ComputerSystem.MuxEcho.Equivalence
import ComputerSystem.Dedup.Hash
import ComputerSystem.Tiny.Framing
import ComputerSystem.EpollEt.Append
import ComputerSystem.MuxEcho.PollRound
import ComputerSystem.MuxEcho.SelectRound
import ComputerSystem.PtrChase.Sattolo
import ComputerSystem.Tiny.Transfer
import ComputerSystem.Tiny.Bounds
import ComputerSystem.Tiny.Contained
import ComputerSystem.Sync.JobList
import ComputerSystem.Unroll.Mountain
import ComputerSystem.Rio.FullWrite
import ComputerSystem.Rio.Readn
import ComputerSystem.Shell.Split
import ComputerSystem.Uds.RecvFd
import ComputerSystem.Shell.Masks
import ComputerSystem.Tiny.Request
import ComputerSystem.Dedup.Capacity
import ComputerSystem.Coroutine.Clock
import ComputerSystem.Shell.Sio
import ComputerSystem.Uds.Addr
import ComputerSystem.Net.Open
import ComputerSystem.Tiny.Adder
import ComputerSystem.Tiny.Strings
import ComputerSystem.RaceWrite.Final
import ComputerSystem.Waitsig.Progress
import ComputerSystem.Sync.Reaped
import ComputerSystem.ThreadEcho.Clients
import ComputerSystem.Tiny.Answered
import ComputerSystem.ProcessEcho.Descriptors
import ComputerSystem.Uds.Passing
import ComputerSystem.Uds.SocketFile
import ComputerSystem.Shell.Notices
import ComputerSystem.Preload.Interpose
import ComputerSystem.Ipc.Ends
