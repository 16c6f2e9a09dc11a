import RivOS.Support.Runs
import RivOS.Support.Ownership
import RivOS.Lib.CString
import RivOS.Sys.SysMod
import RivOS.Sys.Protection
import RivOS.Gen.Map
import RivOS.Support.LastMax
import RivOS.Fs.FileSystem
import RivOS.Fs.Routing
import RivOS.Fs.Descriptors
import RivOS.Mem.Alloc
import RivOS.Support.FirstFit
import RivOS.Mem.Heap
import RivOS.Mem.HeapRuns
import RivOS.InitRamFs.Genfs
import RivOS.InitRamFs.RivFs
import RivOS.InitRamFs.Image
import RivOS.InitRamFs.Paths
import RivOS.InitRamFs.Lookup
import RivOS.InitRamFs.Iterate
import RivOS.InitRamFs.Handles
import RivOS.InitRamFs.Bounds
import RivOS.Gen.Err
import RivOS.Mem.Page
import RivOS.Mem.FrameBitmap
import RivOS.Support.Except
import RivOS.Support.Paging
import RivOS.Mem.Mmu
import RivOS.Mem.PageWords
import RivOS.Proc.Process
import RivOS.Proc.Scheduler
import RivOS.Proc.Switching
import RivOS.Proc.Loader
import RivOS.Proc.System
import RivOS.Proc.Isolation
import RivOS.Proc.Dispatch
import RivOS.Proc.Segments
import RivOS.Proc.LoadImage
import RivOS.Proc.Mmap
import RivOS.Proc.Stack
import RivOS.Proc.FromFile
import RivOS.Proc.Ticks
import RivOS.Proc.StartUp
import RivOS.Sys.Syscalls
import RivOS.Mem.HeapOwned
import RivOS.Gen.Vec
import RivOS.InitRamFs.SyscLayer
import RivOS.InitRamFs.SyscStub
import RivOS.Support.Cursor
import RivOS.Support.Loops
import RivOS.Gen.Alpha
import RivOS.Lib.Pointer
import RivOS.Rap.Text
import RivOS.Rap.RapFile
import RivOS.Rap.ParseRap
import RivOS.Gen.Conf
import RivOS.Lisp.Tokenize
import RivOS.Lisp.Parse
import RivOS.Lisp.Exec
import RivOS.Lisp.Arith
import RivOS.Lisp.Render
import RivOS.InitRamFs.RivFsData
import RivOS.InitRamFs.Parsed
import RivOS.InitRamFs.ReadBack
import RivOS.InitRamFs.Resolve
import RivOS.Mem.Buffers
import RivOS.Support.Chain
import RivOS.Fs.Fat32
import RivOS.Fs.Fat32Read
import RivOS.Fs.Fat32Lookup
import RivOS.Fs.Fat32Paths
import RivOS.Boot.Agreement
import RivOS.Lisp.Closed
import RivOS.Gen.ConfClosed
import RivOS.Lisp.Dispatch
import RivOS.Lisp.Calls
import RivOS.Lisp.Returns
import RivOS.Fs.Fat32Loops
import RivOS.Fs.Fat32Truncated
import RivOS.Fs.Fat32Bounds
import RivOS.Fs.Refusals
import RivOS.Storage.AtaPio
import RivOS.Fs.BootFs
import RivOS.Vfs.DriveTable
import RivOS.InitRamFs.Init
import RivOS.InitRamFs.ElfBuffer
import RivOS.Fs.OnHeap
import RivOS.Fs.Residue
import RivOS.Fs.Ext2Safe
import RivOS.Fs.SectorPaths
import RivOS.Fs.Fat32Separators
import RivOS.Storage.Sectors
import RivOS.Gen.Dictionary
import RivOS.Gen.Format
import RivOS.Proc.InitList
import RivOS.Fs.Keyboard
import RivOS.Gen.Vector
import RivOS.Lib.Str
import RivOS.Obj.Handle
import RivOS.Boot.Term
import RivOS.InitRamFs.Answers
import RivOS.Lib.Numbers
import RivOS.Lib.StrAppend
import RivOS.Lib.StrAppendLaws
import RivOS.Lisp.Sine
import RivOS.Lisp.SineError
import RivOS.Lisp.Table
import RivOS.Lisp.TableLaws
import RivOS.Proc.Exit
import RivOS.Lisp.CallGraph
import RivOS.Lisp.Grammar
import RivOS.Lisp.Termination
import RivOS.Lisp.Vela
import RivOS.Lisp.Checked
import RivOS.Sys.Font
import RivOS.Sys.Terminal
import RivOS.InitRamFs.Module
import RivOS.Proc.KernelFrames
import RivOS.Proc.KernelScreen
import RivOS.Sys.SyscallReturn
import RivOS.Sys.Exceptions
