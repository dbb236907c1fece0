import Ssos.Foundations.Coalescing
import Ssos.Mem.Heap
import Ssos.Mem.HeapInvariant
import Ssos.Mem.KmallocSpec
import Ssos.Mem.KfreeSpec
import Ssos.Mem.GrowthSpec
import Ssos.Foundations.InterruptController
import Ssos.Foundations.PartialRuns
import Ssos.Mem.HeapRuns
import Ssos.Mem.HeaderWalk
import Ssos.Mem.FirstPage
import Ssos.Mem.GrownHeap
import Ssos.Foundations.RunScan
import Ssos.Mem.MemOps
import Ssos.Mem.Paging
import Ssos.Mem.FrameScan
import Ssos.Foundations.RadixTable
import Ssos.Mem.PageTables
import Ssos.Mem.FrameMapping
import Ssos.Drivers.ScancodeStreams
import Ssos.Drivers.KeyQueue
import Ssos.Crc32
import Ssos.Foundations.RecordLayout
import Ssos.Fs.Gpt
import Ssos.Mem.FrameInit
import Ssos.Foundations.Allocation
import Ssos.Shell.LineBuffer
import Ssos.Shell.MainLoop
import Ssos.Mem.KfreeSteps
import Ssos.Shell.PromptReset
import Ssos.Shell.Keystrokes
import Ssos.Mem.Payloads
import Ssos.Shell.KernelHeap
import Ssos.Shell.KernelLine
import Ssos.Foundations.CharGrid
import Ssos.Foundations.PixelRaster
import Ssos.Drivers.Screen
import Ssos.Drivers.Disk
import Ssos.Drivers.ScreenGrid
import Ssos.Drivers.AtaDrive
import Ssos.Drivers.DiskTransfers
import Ssos.Foundations.BurstErrors
import Ssos.Fs.GptCorruption
import Ssos.Mem.SkippedBuckets
import Ssos.Mem.FrameRelease
import Ssos.Mem.HeapSizes
import Ssos.Mem.RequestSizes
import Ssos.Mem.ExhaustedHeap
import Ssos.Foundations.FirstMaximum
import Ssos.Mem.FrameRegion
import Ssos.Drivers.EmptyReads
import Ssos.Shell.ShiftKeys
import Ssos.Drivers.WriteErrors
import Ssos.Mem.TablePool
import Ssos.Mem.BootFrames
import Ssos.Mem.KernelMemory
import Ssos.Mem.HeapGrowth
import Ssos.Foundations.StackMachine
import Ssos.Interrupts.Pic
import Ssos.Interrupts.Dispatch
import Ssos.Drivers.KeyboardPort
import Ssos.Foundations.Retry
import Ssos.Drivers.KeyboardInit
import Ssos.Drivers.KeyboardHandshake
import Ssos.Drivers.DiskStore
import Ssos.Drivers.DiskInit
import Ssos.Drivers.DiskOnBus
import Ssos.Fs.GptDisk
import Ssos.Interrupts.Idt
import Ssos.Drivers.ScreenText
import Ssos.Interrupts.ExceptionReport
import Ssos.Interrupts.Stubs
import Ssos.Foundations.Stages
import Ssos.Kernel.Boot
import Ssos.Kernel.BootResult
