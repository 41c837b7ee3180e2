import NeulaCpu.Pipeline.Precise
import NeulaCpu.Pipeline.Refinement
import NeulaCpu.Privilege.Interrupt
import NeulaCpu.Privilege.KernelInst
import NeulaCpu.Privilege.PlvInForce
import NeulaCpu.Execute.Divide
import NeulaCpu.Execute.Multiply
import NeulaCpu.Csr.Timer
import NeulaCpu.Csr.Write
import NeulaCpu.Memory.AxiAcks
import NeulaCpu.Memory.Coherence
import NeulaCpu.Memory.LoadData
import NeulaCpu.Memory.Replacement
import NeulaCpu.Memory.WriteBack
import NeulaCpu.Xv6.BufferCache
import NeulaCpu.Xv6.ConsoleLines
import NeulaCpu.Xv6.FailedWrite
import NeulaCpu.Xv6.ForkCopy
import NeulaCpu.Xv6.InodeFree
import NeulaCpu.Xv6.Kill
import NeulaCpu.Xv6.LogAdmission
import NeulaCpu.Xv6.LogRecovery
import NeulaCpu.Xv6.Memmove
import NeulaCpu.Xv6.MkfsKernel
import NeulaCpu.Xv6.Namei
import NeulaCpu.Xv6.OpenFiles
import NeulaCpu.Xv6.PipeFault
import NeulaCpu.Xv6.ProcLifecycle
import NeulaCpu.Xv6.Reservation
import NeulaCpu.Xv6.Spinlock
import NeulaCpu.Xv6.TableRefinement
import NeulaCpu.Xv6.Uart
import NeulaCpu.Xv6.VirtioRequests
import NeulaCpu.Xv6.Wakeup
import NeulaCpu.User.Grep
