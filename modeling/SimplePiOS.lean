import SimplePiOS.Kernel.Exec
import SimplePiOS.Libpi.Block
import SimplePiOS.Libpi.Flat
import SimplePiOS.Kernel.FsChain
import SimplePiOS.Kernel.FsRead
import SimplePiOS.Kernel.FsWalk
import SimplePiOS.Lib.Fifo
import SimplePiOS.Libpi.Uart
import SimplePiOS.Libpi.Printf
import SimplePiOS.Boot.Agreement
import SimplePiOS.Kernel.Cswitch
import SimplePiOS.Kernel.Swi
import SimplePiOS.Shell.Loader
import SimplePiOS.Shell.Commands
import SimplePiOS.Shell.Framing
import SimplePiOS.Shell.Markers
import SimplePiOS.Shell.Window
import SimplePiOS.Boot.Region
import SimplePiOS.Kernel.Reserved
import SimplePiOS.Kernel.ExecRun
import SimplePiOS.Kernel.Directory
import SimplePiOS.Kernel.LongNames
import SimplePiOS.Kernel.DirCommands
import SimplePiOS.Kernel.LoadTargets
import SimplePiOS.Kernel.Volume
import SimplePiOS.Kernel.Cat
import SimplePiOS.Shell.LoadSpace
import SimplePiOS.Libpi.Pwm
import SimplePiOS.Kernel.Descriptor
import SimplePiOS.Shell.Tokenize
import SimplePiOS.Fuse.Files
import SimplePiOS.Fuse.Forward
import SimplePiOS.Kernel.ThreadBlocks
import SimplePiOS.Kernel.Fork
import SimplePiOS.Kernel.HeapBooks
import SimplePiOS.Kernel.HeapAligned
import SimplePiOS.Kernel.Dangling
import SimplePiOS.Kernel.Leaked
import SimplePiOS.Kernel.Tlb
import SimplePiOS.Kernel.LoadWindow
import SimplePiOS.Kernel.SdRoundTrip
import SimplePiOS.Kernel.Utf8
import SimplePiOS.Shell.Session
import SimplePiOS.Shell.Serial
import SimplePiOS.Boot.Install
import SimplePiOS.Kernel.Fairness
import SimplePiOS.Kernel.Program
