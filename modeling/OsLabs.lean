import OsLabs.Lib.Run
import OsLabs.Lib.Ring
import OsLabs.Lib.Lease
import OsLabs.Lib.Pool
import OsLabs.Lib.Files
import OsLabs.Lib.Patch
import OsLabs.Lib.Simulation
import OsLabs.Lib.Owners
import OsLabs.Lib.Counters
import OsLabs.Fibers.Fiber
import OsLabs.Fibers.Api
import OsLabs.Fibers.Machine
import OsLabs.Fibers.Coop
import OsLabs.Fibers.Fifo
import OsLabs.Fibers.Sweep
import OsLabs.PFibers.Tick
import OsLabs.PFibers.Steps
import OsLabs.PFibers.Nodes
import OsLabs.PFibers.Contexts
import OsLabs.PFibers.Statements
import OsLabs.PFibers.Switch
import OsLabs.PFibers.Fresh
import OsLabs.PFibers.Cycle
import OsLabs.PFibers.Registers
import OsLabs.PFibers.Transfer
import OsLabs.PFibers.RedZone
import OsLabs.PFibers.Activation
import OsLabs.PFibers.Turns
import OsLabs.Alarm.Trap
import OsLabs.Alarm.Push
import OsLabs.Alarm.Machine
import OsLabs.Alarm.Nesting
import OsLabs.Alarm.Period
import OsLabs.Alarm.Resume
import OsLabs.Alarm.Table
import OsLabs.Alarm.Pages
import OsLabs.Atomic.SpinLock
import OsLabs.Atomic.RwLock
import OsLabs.Atomic.SeqLock
import OsLabs.Atomic.Cas
import OsLabs.Memory.Malloc
import OsLabs.Memory.Refusal
import OsLabs.Memory.Wrap
import OsLabs.HugeArray.Handler
import OsLabs.HugeArray.Table
import OsLabs.Xv6.Date
import OsLabs.Xv6.Printf
import OsLabs.Elf.Backtrace
import OsLabs.Elf.Descriptors
import OsLabs.Bash.Syntax
import OsLabs.Bash.Argv
import OsLabs.Bash.Machine
import OsLabs.Bash.Redirects
import OsLabs.Bash.Commands
import OsLabs.Bash.Descriptors
import OsLabs.Bash.Pipeline
import OsLabs.Bash.Readers
import OsLabs.Bash.Output
import OsLabs.Bash.Rendering
import OsLabs.Bash.Stdio
import OsLabs.Bash.Cleanup
import OsLabs.Bash.Files
import OsLabs.Bash.Contents
import OsLabs.Jobserver.Machine
import OsLabs.Jobserver.Semaphore
import OsLabs.Jobserver.Launches
import OsLabs.Jobserver.Progress
import OsLabs.Logger.Machine
import OsLabs.Logger.Rotation
import OsLabs.Logger.Collect
import OsLabs.Logger.Copy
import OsLabs.Logger.Requests
import OsLabs.Logger.Shift
import OsLabs.Gate.Msr
import OsLabs.Xv6.Log
import OsLabs.Xv6.Commit
import OsLabs.Xv6.Reservation
import OsLabs.Xv6.Disk
import OsLabs.Xv6.Inode
import OsLabs.Xv6.Contents
import OsLabs.Xv6.File
import OsLabs.Xv6.Transaction
import OsLabs.Xv6.Shell
import OsLabs.Xv6.Grammar
import OsLabs.Xv6.Parser
import OsLabs.Xv6.Strings
import OsLabs.Xv6.Pipe
import OsLabs.Xv6.Ptable
import OsLabs.Xv6.Family
import OsLabs.Xv6.Pids
import OsLabs.Xv6.Scheduler
