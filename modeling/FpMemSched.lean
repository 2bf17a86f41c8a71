import FpMemSched.Lib.Runs
import FpMemSched.Lib.Crews
import FpMemSched.Lib.Scan
import FpMemSched.Lib.Slots
import FpMemSched.Lib.Places
import FpMemSched.Lib.Linked
import FpMemSched.Lib.Masks
import FpMemSched.Lib.Spaces
import FpMemSched.Lib.Buckets
import FpMemSched.Lib.Circular
import FpMemSched.Lib.Ring
import FpMemSched.Lib.Tables
import FpMemSched.Lib.Bitmaps
import FpMemSched.Lib.Blocks
import FpMemSched.Lib.Logs
import FpMemSched.Arbiter
import FpMemSched.ArbiterSafe
import FpMemSched.ArbiterCpus
import FpMemSched.GuestProtocol
import FpMemSched.Irqchip
import FpMemSched.Delivery
import FpMemSched.PendingRing
import FpMemSched.Distributor
import FpMemSched.DistributorOwned
import FpMemSched.CellIrqs
import FpMemSched.IrqsOwned
import FpMemSched.Erika.Kernel
import FpMemSched.Erika.Creation
import FpMemSched.Erika.Dprem
import FpMemSched.Erika.Order
import FpMemSched.Erika.Started
import FpMemSched.Erika.Dispatch
import FpMemSched.Erika.Ceiling
import FpMemSched.Erika.Nodes
import FpMemSched.Erika.Operations
import FpMemSched.Erika.Pointers
import FpMemSched.Erika.Carried
import FpMemSched.Erika.Selection
import FpMemSched.Erika.ListPrimitives
import FpMemSched.Erika.Refinement
import FpMemSched.Erika.Phases
import FpMemSched.Erika.Services
import FpMemSched.Erika.StackShape
import FpMemSched.Erika.Turns
import FpMemSched.Erika.Token
import FpMemSched.Erika.Multiqueue
import FpMemSched.Erika.ReadyPrio
import FpMemSched.Erika.QueuesAgree
import FpMemSched.Erika.Bystanders
import FpMemSched.Erika.Semaphores
import FpMemSched.Erika.Alarm
import FpMemSched.Erika.Countdown
import FpMemSched.Erika.AlarmsAgree
import FpMemSched.Erika.TwoCores
import FpMemSched.Erika.Reenabled
import FpMemSched.Erika.SchedTable
import FpMemSched.Erika.TickCount
import FpMemSched.Erika.OnTime
import FpMemSched.Erika.Rosters
import FpMemSched.Erika.Chaining
import FpMemSched.Erika.Synchronize
import FpMemSched.Erika.Elapsed
import FpMemSched.Tdma
import FpMemSched.TdmaExact
import FpMemSched.TdmaSafe
import FpMemSched.TdmaLate
import FpMemSched.TdmaGuest
import FpMemSched.CpuControl
import FpMemSched.TdmaRestart
import FpMemSched.CpuLife
import FpMemSched.Coloring
import FpMemSched.ColoringExact
import FpMemSched.ColoringBounds
import FpMemSched.CellLoad
import FpMemSched.LoadPieces
import FpMemSched.LoadComplete
import FpMemSched.Mmio
import FpMemSched.PagePool
import FpMemSched.PageTables
import FpMemSched.PageWalks
import FpMemSched.TableReleases
import FpMemSched.StraightPasses
import FpMemSched.PagingExact
import FpMemSched.CellMemory
import FpMemSched.CellOwned
import FpMemSched.LoadableMapped
import FpMemSched.CellDestroyed
import FpMemSched.WholeSystem
import FpMemSched.BringUp
import FpMemSched.BringUpEnds
import FpMemSched.Management
import FpMemSched.ManagementCells
import FpMemSched.HypervisorDisable
import FpMemSched.SpisRouted
import FpMemSched.Console
import FpMemSched.VirtualIrqs
import FpMemSched.PrintkDivision
import FpMemSched.Doorbells
