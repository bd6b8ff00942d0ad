import KernelConfiguration.Runs
import KernelConfiguration.Scripts
import KernelConfiguration.Async.Modules
import KernelConfiguration.Async.Driver
import KernelConfiguration.Async.Invariant
import KernelConfiguration.Async.Sequential
import KernelConfiguration.Async.Partition
import KernelConfiguration.Async.Order
import KernelConfiguration.Async.InitMem
import KernelConfiguration.Async.Release
import KernelConfiguration.Async.Latch
import KernelConfiguration.Async.DefaultPath
import KernelConfiguration.Async.Text
import KernelConfiguration.Async.Tasks
import KernelConfiguration.Async.Threads
import KernelConfiguration.Async.Overlap
import KernelConfiguration.Async.Progress
import KernelConfiguration.Async.LinkOrder
import KernelConfiguration.Async.Traces
import KernelConfiguration.Async.Client
import KernelConfiguration.Digraph
import KernelConfiguration.OrdMap
import KernelConfiguration.Thinning
import KernelConfiguration.Depends.Search
import KernelConfiguration.Depends.Reduction
import KernelConfiguration.Depends.Modules
import KernelConfiguration.Depends.Scanner
import KernelConfiguration.Depends.Paths
import KernelConfiguration.Depends.InPlace
import KernelConfiguration.Depends.Reader
import KernelConfiguration.Depends.Cycles
import KernelConfiguration.Depends.Printer
import KernelConfiguration.Depends.Records
import KernelConfiguration.Depends.Canonical
import KernelConfiguration.Depends.Answers
import KernelConfiguration.Depends.Termination
import KernelConfiguration.Depends.Dot
