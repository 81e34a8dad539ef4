import Xv6.Param
import Xv6.Library.Bytes
import Xv6.Library.Disk
import Xv6.Library.StateExcept
import Xv6.Library.Ring
import Xv6.Library.Triple
import Xv6.Library.GroupCommit
import Xv6.Layout
import Xv6.Bio
import Xv6.Log
import Xv6.Crash
import Xv6.Fs.State
import Xv6.Fs.Inode
import Xv6.Fs.Dir
import Xv6.Fs.Bracket
import Xv6.Fs.LogBudget
import Xv6.Fs.Tree
import Xv6.Mkfs
import Xv6.Mkfs.EmptyFiles
import Xv6.Fs.Sysfile
import Xv6.Fs.Counts
import Xv6.Fs.Runs
import Xv6.Proc
import Xv6.Exec
import Xv6.Proc.Invariant
import Xv6.Malloc
import Xv6.Pipe
import Xv6.Filewrite
import Xv6.Console
import Xv6.Library.CString
import Xv6.Sh.Parse
import Xv6.Sh.Grammar
import Xv6.Sh.Accept
import Xv6.Sh.Parsecmd
import Xv6.Fs.Content
import Xv6.Fs.Bmap
import Xv6.Fs.ReadWrite
import Xv6.Grep.Match
import Xv6.Grep.Lines
import Xv6.Uart
import Xv6.Printf
import Xv6.Bio.Lru
import Xv6.Fs.WriteBudget
import Xv6.Fs.WriteRuns
import Xv6.Fs.FilewriteLoop
import Xv6.Library.Memory
import Xv6.ExecStack
import Xv6.Memmove
import Xv6.Fs.Bitmap
import Xv6.Library.Trace
import Xv6.Spinlock
import Xv6.Kalloc
