import LinuxApi.SystemV.SharedMemoryTransfer
import LinuxApi.Kernel.Credentials
import LinuxApi.Process.SetUserId
import LinuxApi.Process.Daemonize
import LinuxApi.Kernel.Children
import LinuxApi.Process.WaitBySignal
import LinuxApi.SystemV.SemaphoreStartup
import LinuxApi.Kernel.MessageQueue
import LinuxApi.Posix.QueueSignal
import LinuxApi.Posix.QueueThread
import LinuxApi.Sockets.EchoServer
import LinuxApi.Sockets.EchoServerRoles
import LinuxApi.Sockets.EchoServerReaping
import LinuxApi.Sockets.EchoSession
import LinuxApi.Sockets.Datagram
import LinuxApi.Sockets.DatagramLoop
import LinuxApi.Kernel.Segments
import LinuxApi.Pipes.FifoServer
import LinuxApi.SystemV.QueueServer
import LinuxApi.SystemV.QueueServerLive
import LinuxApi.SystemV.SharedMemoryPair
import LinuxApi.SystemV.SharedMemoryCounters
import LinuxApi.Kernel.Monitor
import LinuxApi.Pthread.Adders
import LinuxApi.Pthread.ProducerConsumer
import LinuxApi.Pthread.TimerAdvancedThread
import LinuxApi.Pthread.TimerSettimeThread
import LinuxApi.AltIo.Epoll
import LinuxApi.AltIo.SignalIo
import LinuxApi.Kernel.Signals
import LinuxApi.Signals.SignalSuspend
import LinuxApi.FileIo.AsyncWrite
import LinuxApi.Kernel.Lock
import LinuxApi.Posix.SharedObject
import LinuxApi.Pthread.ProtectedSum
import LinuxApi.FileIo.SelectPoll
import LinuxApi.Kernel.Descriptors
import LinuxApi.Process.BecomeDaemon
import LinuxApi.Process.LogMessage
import LinuxApi.SystemV.SemaphoreCreator
import LinuxApi.Kernel.CText
import LinuxApi.SystemV.QueueServerCalls
import LinuxApi.Sockets.Connector
import LinuxApi.FileIo.Terminator
import LinuxApi.SystemV.SharedMemoryFailure
import LinuxApi.FileIo.FileLock
import LinuxApi.Kernel.Bytes
import LinuxApi.Timers.TimerAdvancedFd
import LinuxApi.Timers.TimerFunc
import LinuxApi.AltIo.SignalIoPrint
import LinuxApi.FileIo.Inotify
import LinuxApi.FileIo.FileEvent
import LinuxApi.Pipes.PipeStdinout
import LinuxApi.FileIo.CopyLoops
import LinuxApi.FileIo.FullRead
import LinuxApi.FileIo.BlockNumbers
import LinuxApi.FileIo.Mmap
import LinuxApi.FileIo.SelectPollEnd
import LinuxApi.Sockets.DatagramClient
import LinuxApi.Process.MakeDaemon
import LinuxApi.Kernel.Lines
import LinuxApi.Pipes.Popen
import LinuxApi.FileIo.StdioRead
import LinuxApi.Process.DaemonizeTicks
import LinuxApi.Sockets.StreamServer
import LinuxApi.Sockets.StreamServerLive
import LinuxApi.Process.SyncBySignal
import LinuxApi.Process.SyncBySignalLive
import LinuxApi.Kernel.Heap
import LinuxApi.Pthread.Cancellation
import LinuxApi.Pthread.ThreadSafe
import LinuxApi.Pthread.ThreadSpecific
import LinuxApi.Kernel.SignalQueue
import LinuxApi.Signals.SuspendSync
import LinuxApi.Error.GetNum
import LinuxApi.Posix.NamedSemaphore
import LinuxApi.FileIo.Flock
import LinuxApi.Signals.SignalBasic
import LinuxApi.Signals.SignalLongjmp
import LinuxApi.Error.ErrorFunctions
import LinuxApi.Posix.QueueExchange
