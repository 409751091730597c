import Xv6.CacheMap
import Xv6.ConsoleText
import Xv6.CrashAtomicity
import Xv6.ExecAtomic
import Xv6.ExitWait
import Xv6.FileRefs
import Xv6.ForkCopy
import Xv6.FsDirRun
import Xv6.FsOrphans
import Xv6.FsShared
import Xv6.Grep
import Xv6.IputLock
import Xv6.Kill
import Xv6.LogSpace
import Xv6.Memmove
import Xv6.Morecore
import Xv6.PageMapRuns
import Xv6.Pids
import Xv6.PipeRead
import Xv6.PipeWakeup
import Xv6.SleepWakeup
