import LisaMinix.Fs.PipeRuns
import LisaMinix.Kernel.MmuContexts
import LisaMinix.Kernel.Interrupts
import LisaMinix.Kernel.SignalRuns
import LisaMinix.Mm.ForkImage
import LisaMinix.Kernel.Buffers
import LisaMinix.Mm.ExitWait
import LisaMinix.Fs.FifoRuns
import LisaMinix.Kernel.Keyboard
import LisaMinix.Mm.Relocate
import LisaMinix.Fs.Scattered
import LisaMinix.Tools.DiskLayout
import LisaMinix.Fs.Suspension
import LisaMinix.Mm.StartUp
import LisaMinix.Mm.ExecStack
import LisaMinix.Mm.AlarmTimes
import LisaMinix.Tools.FsCheckSound
import LisaMinix.Tools.MkfsFits
import LisaMinix.Fs.Server.BlockDevices
import LisaMinix.Kernel.SigDelivery
import LisaMinix.Kernel.TtyLines
import LisaMinix.Kernel.TtyReads
import LisaMinix.Kernel.VduSequences
import LisaMinix.Tools.ProFileImage
import LisaMinix.Kernel.TraceRuns
import LisaMinix.Kernel.FloppyRuns
import LisaMinix.Libc.Qsort
import LisaMinix.Commands.SortNumbers
import LisaMinix.Libc.StdioWrites
import LisaMinix.Libc.MallocRuns
import LisaMinix.Mm.Pids
import LisaMinix.Fs.Server.BitMaps
import LisaMinix.Fs.Server.TruncateRuns
import LisaMinix.Kernel.MessageRuns
import LisaMinix.Kernel.RoundRobin
import LisaMinix.Fs.Server.BlockStore
import LisaMinix.Fs.Server.Descriptors
import LisaMinix.Fs.Server.FileReadRuns
