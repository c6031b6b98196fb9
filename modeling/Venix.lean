import Venix.Lib.Bytes
import Venix.Lib.Run
import Venix.Lib.PtrTree
import Venix.Lib.Couple
import Venix.Lib.Ring
import Venix.Fs.Alloc
import Venix.Fs.FreeList
import Venix.Fs.Bmap
import Venix.Fs.BmapTree
import Venix.Fs.BmapRun
import Venix.Fs.RdwriRun
import Venix.Fs.Itrunc
import Venix.Fs.FaultsRun
import Venix.Fs.ItruncFaults
import Venix.Fs.Creat
import Venix.Fs.Pipe
import Venix.Fs.PipeRun
import Venix.Kernel.MapSound
import Venix.Kernel.MapRun
import Venix.Lib.Chain
import Venix.Kernel.Slp
import Venix.Kernel.SlpRun
import Venix.Kernel.Callout
import Venix.Kernel.CalloutRun
import Venix.Kernel.Clist
import Venix.Kernel.ClistRep
import Venix.Kernel.ClistRun
import Venix.Kernel.ClistSpl
import Venix.Kernel.Exece
import Venix.Kernel.ExeceRun
import Venix.Kernel.Tty
import Venix.Kernel.TtyRun
import Venix.Lib.Loan
import Venix.Lib.Tally
import Venix.Kernel.Text
import Venix.Kernel.TextRun
import Venix.Kernel.Fork
import Venix.Kernel.ForkRun
import Venix.Bio.Buf
import Venix.Bio.Lists
import Venix.Bio.Inv
import Venix.Bio.Ops
import Venix.Bio.Run
import Venix.Inode.Table
import Venix.Inode.TableRun
import Venix.Inode.IallocRun
import Venix.Libmp.Mint
import Venix.Lib.Limbs
import Venix.Libmp.Loops
import Venix.Libmp.Madd
import Venix.Libmp.Mult
import Venix.Libmp.Msqrt
import Venix.Libmp.Gcd
import Venix.Libmp.Mout
import Venix.Libmp.MoutRun
import Venix.Libmp.ReadBack
import Venix.Libmp.Pow
import Venix.Libmp.RpowRun
import Venix.Kernel.CalloutBounds
import Venix.Kernel.TimeOfDay
import Venix.Kernel.BreakBound
import Venix.Bio.Swap
import Venix.Bio.Elevator
import Venix.Lib.LinkChain
import Venix.Libc.MallocRing
import Venix.Libc.MallocRun
import Venix.Libc.Realloc
import Venix.Libc.Calloc
import Venix.Libc.CryptRun
import Venix.Libc.Qsort
import Venix.Libc.QsortRun
import Venix.Libc.AsctimeRun
import Venix.Sim86.Procs
import Venix.Vm86.Fds
import Venix.Sim86.Load
import Venix.Vm86.Load
import Venix.Load.ImageRun
import Venix.Sim86.Marks
import Venix.Load.Args
import Venix.Load.ArgsRun
import Venix.Lib.Excl
import Venix.Kernel.Mount
import Venix.Kernel.MountRun
import Venix.Sim86.Run
import Venix.Sim86.Gives
import Venix.Sim86.GivesHelpers
import Venix.Sim86.GivesRun
import Venix.Sim86.Noninterference
import Venix.Sim86.Bounds
import Venix.Sim86.Rep
import Venix.Sim86.Alu
import Venix.Sim86.Operand
import Venix.Sim86.Mul
import Venix.Sim86.Div
import Venix.Lib.Rotation
import Venix.Sim86.Rotate
import Venix.Sim86.PrefixOrder
import Venix.Lib.Scatter
import Venix.Emul.Host
import Venix.Sim86.Write
import Venix.Sim86.Rdwr
import Venix.Vm86.Rdwr
import Venix.Emul.RdwrRun
import Venix.Emul.Results
import Venix.Sim86.Sbreak
import Venix.Tar.HeaderRun
import Venix.Stdio.DoscanRun
import Venix.Stdio.StreamRun
import Venix.Stdio.InputRun
import Venix.Xt.DriverRun
import Venix.Xt.Packet
import Venix.Diff.Ed
import Venix.Diff.Longest
import Venix.Console.AnsiRun
import Venix.Comm.CommRun
import Venix.Dbm.PageRun
import Venix.Uucp.Pk0Run
import Venix.Diff.Hash
import Venix.Grep.CompileRun
import Venix.Grep.Advance
import Venix.Grep.AdvanceRun
