import OsHomework.Lib.Transition
import OsHomework.Lib.Collect
import OsHomework.Lib.Ownership
import OsHomework.Lib.Tokens
import OsHomework.Lib.Stoi
import OsHomework.Lib.ByteMem
import OsHomework.Lib.LinkedList
import OsHomework.Lib.DoublyLinked
import OsHomework.Lib.Tiling
import OsHomework.Lib.Buddy
import OsHomework.Lib.FdTable
import OsHomework.Lib.CString
import OsHomework.Lib.Decimal
import OsHomework.Shell.Command
import OsHomework.Shell.Background
import OsHomework.Shell.Dispatch
import OsHomework.Shell.Jobs
import OsHomework.Shell.Quit
import OsHomework.Shell.Kill
import OsHomework.Shell.Foreground
import OsHomework.Shell.FgArgument
import OsHomework.Shell.Pipe
import OsHomework.Shell.PipeContents
import OsHomework.Shell.Redirect
import OsHomework.Shell.Operators
import OsHomework.Shell.Nesting
import OsHomework.Shell.Storage
import OsHomework.Shell.ChangeDir
import OsHomework.Shell.Smash
import OsHomework.Shell.Output
import OsHomework.Kernel.Tasks
import OsHomework.Kernel.Ancestor
import OsHomework.Kernel.Siblings
import OsHomework.Kernel.Calls
import OsHomework.Server.ReqQ
import OsHomework.Server.ReqList
import OsHomework.Server.ReqLinks
import OsHomework.Server.ReqRefine
import OsHomework.Server.Model
import OsHomework.Server.Sections
import OsHomework.Server.Admission
import OsHomework.Server.Wakeup
import OsHomework.Server.Accounting
import OsHomework.Server.History
import OsHomework.Server.RandomDrop
import OsHomework.Server.BlockFlush
import OsHomework.Server.OnHeap
import OsHomework.Server.Rio
import OsHomework.Server.Request
import OsHomework.Server.Headers
import OsHomework.Server.Uri
import OsHomework.Server.Buffers
import OsHomework.Server.Writen
import OsHomework.Server.Response
import OsHomework.Server.Client
import OsHomework.Server.Statistics
import OsHomework.Malloc2.Model
import OsHomework.Malloc2.Blocks
import OsHomework.Malloc2.Paths
import OsHomework.Malloc2.Stats
import OsHomework.Malloc2.Peak
import OsHomework.Malloc2.Integrity
import OsHomework.Malloc1.Model
import OsHomework.Malloc3.Model
import OsHomework.Malloc3.MDList
import OsHomework.Malloc3.BackLinks
import OsHomework.Malloc3.SortedSet
import OsHomework.Malloc3.Lists
import OsHomework.Malloc3.Pool
import OsHomework.Malloc3.Calls
import OsHomework.Malloc3.Tiling
import OsHomework.Malloc3.Ready
import OsHomework.Malloc3.Arena
import OsHomework.Malloc3.Refusal
import OsHomework.Malloc3.Integrity
import OsHomework.Malloc3.Contents
import OsHomework.Malloc3.Lifo
import OsHomework.Malloc3.Stats
import OsHomework.Malloc3.BestFit
import OsHomework.Malloc3.Coalesce
import OsHomework.Malloc3.Grow
import OsHomework.Malloc3.Realloc
import OsHomework.Malloc3.Chains
import OsHomework.Allocators
