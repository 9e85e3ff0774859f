import Tlpi.Lib.Machine
import Tlpi.Lib.CInt
import Tlpi.Lib.RingAlloc
import Tlpi.Lib.Post
import Tlpi.Svsem.BinarySems
import Tlpi.Svshm.Xfr
import Tlpi.Svshm.XfrLemmas
import Tlpi.Svmsg.FileServer
import Tlpi.Svmsg.FileServerLemmas
import Tlpi.Svmsg.FileServerRuns
import Tlpi.Pipes.FifoSeqnum
import Tlpi.Pipes.FifoSeqnumLemmas
import Tlpi.Pipes.FifoSeqnumRanges
import Tlpi.Sockets.ReadLine
import Tlpi.Sockets.ReadLineLemmas
import Tlpi.Sockets.SeqnumServer
import Tlpi.Namespaces.NamespacesOf
import Tlpi.Namespaces.NamespacesOfLemmas
import Tlpi.Namespaces.NamespacesOfTree
import Tlpi.Inotify.Dtree
import Tlpi.Inotify.DtreeCache
import Tlpi.Inotify.DtreeLemmas
import Tlpi.Inotify.DtreeInvariant
import Tlpi.Inotify.DtreeZap
import Tlpi.Inotify.DtreeRead
import Tlpi.Inotify.DtreeReadRuns
import Tlpi.Inotify.DtreeWorld
import Tlpi.Lib.SepPath
import Tlpi.Inotify.DtreeReplay
import Tlpi.Inotify.DtreeTree
import Tlpi.Inotify.DtreeTracks
import Tlpi.Inotify.DtreeScan
import Tlpi.Inotify.DtreeMonitor
import Tlpi.Inotify.DtreeRuns
import Tlpi.Lib.Tally
import Tlpi.Svsem.GoodInit
import Tlpi.Altio.SelectMq
import Tlpi.Filelock.CreatePidFile
import Tlpi.Pmsg.MqNotify
import Tlpi.Procexec.MultiSigchld
import Tlpi.Lib.Monitor
import Tlpi.Threads.MultiJoin
import Tlpi.Threads.ProdCondvar
import Tlpi.Threads.ProdCondvarRuns
import Tlpi.Seccomp.UserNotification
import Tlpi.Namespaces.PidNamespaces
import Tlpi.Inotify.DtreeRewrite
import Tlpi.Inotify.DtreeZapInPlace
import Tlpi.Lib.FdTable
import Tlpi.Lib.PathWalk
import Tlpi.Namespaces.NsCapable
import Tlpi.Namespaces.NsCapableLemmas
import Tlpi.Seccomp.TmpConfined
import Tlpi.Sockets.Rdwrn
import Tlpi.Sockets.ReadLineEintr
import Tlpi.Sockets.Sendfile
import Tlpi.Inotify.DtreeNames
import Tlpi.Inotify.DtreeReinit
import Tlpi.Lib.Bpf
import Tlpi.Lib.Environ
import Tlpi.Proc.Setenv
import Tlpi.Procexec.Execlp
import Tlpi.Procexec.ExeclpArgv
import Tlpi.Seccomp.Filters
import Tlpi.Acl.AclParse
import Tlpi.Acl.AclUpdate
import Tlpi.Common.GetNum
import Tlpi.Svsem.SvsemOp
import Tlpi.Files.Chiflag
import Tlpi.Seccomp.SeccompLaunch
import Tlpi.Sockets.InetSockets
import Tlpi.Lib.Cmsg
import Tlpi.Lib.Getopt
import Tlpi.Lib.Signals
import Tlpi.Namespaces.UsernsChildExec
import Tlpi.Namespaces.UsernsChildExecUsage
import Tlpi.Procexec.System
import Tlpi.Pty.PtyFork
import Tlpi.Sockets.ScmMulti
import Tlpi.Cgroups.ViewV2Cgroups
import Tlpi.Common.PrnTs
import Tlpi.Fileio.Copy
import Tlpi.Inotify.DtreeReadBounds
import Tlpi.Lib.Heap
import Tlpi.Mmap.Mmcopy
import Tlpi.Namespaces.WrapText
import Tlpi.Timers.DemoTimerfd
import Tlpi.Lib.Lock
import Tlpi.Pmsg.MqNotifyThread
import Tlpi.Sockets.UdUcase
import Tlpi.Threads.ThreadIncr
import Tlpi.Fileio.AtomicAppend
import Tlpi.Inotify.DtreeRecovery
import Tlpi.Altio.EpollInput
import Tlpi.Threads.OneTimeInit
import Tlpi.Threads.PthreadBarrier
import Tlpi.Threads.Strerror
import Tlpi.Lib.Forest
import Tlpi.Lib.Fuel
import Tlpi.Namespaces.NamespacesOfDisplay
import Tlpi.Altio.SelfPipe
import Tlpi.Lib.Stream
import Tlpi.Namespaces.UsernsChildMaps
import Tlpi.Sockets.IsEcho
import Tlpi.Sockets.ScmFunctions
import Tlpi.Tty.TestTty
import Tlpi.Cgroups.ViewV2Display
import Tlpi.Cgroups.ViewV2Members
import Tlpi.Seccomp.Stacked
import Tlpi.Signals.SigSpeedSigsuspend
import Tlpi.Daemons.BecomeDaemon
