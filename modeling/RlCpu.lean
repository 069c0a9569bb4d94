import RlCpu.Sim.Arbitration
import RlCpu.Binutils.Strip
import RlCpu.Binutils.Labels
import RlCpu.Binutils.InlineShift
import RlCpu.Binutils.DivideSigned
import RlCpu.Binutils.WordCopy
import RlCpu.Binutils.Procedures
import RlCpu.Binutils.ProgramCode
import RlCpu.Lcc.StaticData
import RlCpu.Libc.Realloc
import RlCpu.Kernel.Loop
import RlCpu.Kernel.WaitQueue
import RlCpu.Kernel.Pids
import RlCpu.Kernel.Waitpid
import RlCpu.Kernel.ExecArgs
import RlCpu.Kernel.UserCopy
import RlCpu.Kernel.Selectors
import RlCpu.Kernel.RingBuffer
import RlCpu.Kernel.Pipes
import RlCpu.Kernel.Terminal
import RlCpu.Kernel.SetArena
import RlCpu.Kernel.FreeSector
import RlCpu.Kernel.Mounts
import RlCpu.Kernel.BlockFiles
