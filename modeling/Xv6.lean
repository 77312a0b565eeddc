import Xv6.Lib.Bytes
import Xv6.Lib.Replay
import Xv6.Lib.Prog
import Xv6.Lib.Ledger
import Xv6.Lib.Run
import Xv6.Lib.Acyclic
import Xv6.Lib.Monitor
import Xv6.Lib.Path
import Xv6.Lib.Cycle
import Xv6.Lib.Descriptors
import Xv6.Lib.Ring
import Xv6.Param
import Xv6.Log.Crash
import Xv6.Log.Group
import Xv6.Log.Admission
import Xv6.Log.Sleepers
import Xv6.Bio.Cache
import Xv6.Bio.Core
import Xv6.Bio.Script
import Xv6.Bio.Steps
import Xv6.Bio.Coherence
import Xv6.Bio.Lru
import Xv6.Fs.Layout
import Xv6.Fs.State
import Xv6.Fs.Rules
import Xv6.Fs.Inode
import Xv6.Fs.Dir
import Xv6.Fs.Exec
import Xv6.Fs.Sysfile
import Xv6.Fs.Blocks
import Xv6.Fs.BlockSpec
import Xv6.Fs.ContentSpec
import Xv6.Fs.Contents
import Xv6.Fs.TruncSpec
import Xv6.Fs.Tree
import Xv6.Fs.Inv
import Xv6.Fs.InodeSpec
import Xv6.Fs.DirSpec
import Xv6.Fs.View
import Xv6.Fs.Files
import Xv6.Fs.Step
import Xv6.Fs.Names
import Xv6.Fs.Order
import Xv6.Fs.CallSpec
import Xv6.Fs.CreateSpec
import Xv6.Fs.OpenSpec
import Xv6.Fs.FileSpec
import Xv6.Fs.ProcSpec
import Xv6.Fs.Boot
import Xv6.Fs.Directories
import Xv6.Pipe
import Xv6.Console
import Xv6.Virtio.Driver
import Xv6.Virtio.Books
import Xv6.Virtio.Requests
import Xv6.Process.Table
import Xv6.Process.Calls
import Xv6.Process.Kernel
import Xv6.Process.Locks
import Xv6.Process.Cpus
import Xv6.Process.Steps
import Xv6.Process.Sleep
import Xv6.Process.Family
import Xv6.Process.Wait
import Xv6.Process.Reaping
import Xv6.Fileread
import Xv6.Shell.Parse
import Xv6.Shell.Tokens
import Xv6.Shell.Grammar
import Xv6.Shell.Accepts
import Xv6.Shell.Run
import Xv6.Shell.Plumbing
import Xv6.Umalloc.Code
import Xv6.Umalloc.Arena
import Xv6.Umalloc.Malloc
import Xv6.Umalloc.Runs
import Xv6.Primes.Code
import Xv6.Primes.Plumbing
import Xv6.Primes.Chain
import Xv6.Primes.Sieve
import Xv6.Primes.Pipeline
import Xv6.Primes.Printed
import Xv6.Vm.Code
import Xv6.Vm.Table
import Xv6.Vm.Rules
import Xv6.Vm.Copy
import Xv6.Vm.Space
import Xv6.Vm.SpaceSpec
import Xv6.Vm.Grow
import Xv6.Vm.Free
import Xv6.Vm.Fork
import Xv6.Vm.Sbrk
import Xv6.Ulib
import Xv6.Grep.Match
import Xv6.Grep.Lines
import Xv6.Printf
import Xv6.Xargs
import Xv6.Find
import Xv6.Shell.Strings
import Xv6.Mkfs.Code
import Xv6.Mkfs.Inv
import Xv6.Mkfs.Image
import Xv6.Umalloc.Sbrk
