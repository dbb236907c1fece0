import Ssos.Drivers.DiskOnBus
import Ssos.Drivers.KeyboardHandshake
import Ssos.Foundations.Stages
import Ssos.Fs.GptDisk
import Ssos.Interrupts.ExceptionReport
import Ssos.Mem.KernelMemory

/-!
# The boot

`kmain` of `kernel/kmain.c`: the screen and the interrupts, then the
initialisations that can fail, each with its messages. The result tells
`shell_init`, which does not return, from `stop`.
-/

namespace Ssos

open ByteMemory Polling Stages InterruptController

/-- The answers of the boot loader, the register and the symbols that the code
reads, and what an undefined shift gives. -/
structure BootInfo where
  baseRevisionSupported : Bool
  mmapEntries : Option (List LimineMemmapEntry)
  hhOff : Option Word
  framebuffer : Option Framebuffer
  cr3 : Word
  image : KernelImage
  undefinedShift : ℕ → Word
  idtEntries : ℕ
  isrStubAddr : ℕ → BitVec 64

/-- The statics and the devices of all parts. `descriptors` is the memory that
holds the interrupt descriptor table. -/
structure Kernel where
  screen : Screen
  idtReg : Idtr
  descriptors : Mem
  pics : Pair
  ps2 : Ps2
  frames : Paging
  heap : Heap
  identifyDataBlock : Words
  bus : AtaBus
  gptVars : GptVars

namespace Kernel

def print (str : String) (k : Kernel) : Option Kernel :=
  (screenPrint (text str) k.screen).map fun screen => { k with screen }

def screenInit (fb : Framebuffer) (k : Kernel) : Option Kernel :=
  (Ssos.screenInit fb k.screen.mem).map fun screen =>
    { k with screen := screenSetFontScale 2 screen }

def idtInit (boot : BootInfo) (k : Kernel) : Kernel :=
  let (idtReg, descriptors) := Ssos.idtInit boot.idtEntries boot.isrStubAddr k.descriptors
  { k with idtReg, descriptors }

def picInit (k : Kernel) : Kernel := { k with pics := k.pics.outbs Ssos.picInit }

def keyboardInit (fuel : ℕ) (k : Kernel) : Option (ℤ × Kernel) :=
  (Ssos.keyboardInit Ssos.ps2 Ps2.installDriver fuel k.ps2).map fun (ret, ps2) =>
    (ret, { k with ps2 })

def initFrameAllocator (boot : BootInfo) (mmapEntries : List LimineMemmapEntry) (hhOff : Word)
    (k : Kernel) : ℤ × Kernel :=
  let (ret, frames) := initFrameAllocatorOr boot.undefinedShift boot.cr3 boot.image mmapEntries
    hhOff k.frames
  (ret, { k with frames })

def kallocInit (k : Kernel) : ℤ × Kernel :=
  let (page, frames) := pagingAllocPages 1 k.frames
  let (ret, heap) := Ssos.kallocInit page.toNat k.heap
  (ret, { k with frames, heap })

def diskInit (fuel : ℕ) (k : Kernel) : Option (ℤ × Kernel) :=
  (Ssos.diskInit ataBus AtaBus.installDriver fuel k.identifyDataBlock k.bus).map
    fun (ret, identifyDataBlock, bus) => (ret, { k with identifyDataBlock, bus })

/-- `gpt_init` over the frame allocator, which its one request is made to. -/
def gptInit (fuel : ℕ) (k : Kernel) : Option (ℤ × Kernel) :=
  let answers := frameAnswers (memBlocksMaxLevelCount - k.heap.highestLevel)
    (2 ^ (k.heap.highestLevel + 1 - 18)) k.frames
  (gptInitDisk ataBus answers fuel k.gptVars k.heap k.bus).map fun (ret, gptVars, heap, bus) =>
    (ret, { k with gptVars, heap, bus, frames := (kmallocFrames 512 k.heap k.frames).2 })

/-- The messages about a failure of `gpt_init`. -/
def gptFailed (ret : ℤ) (k : Kernel) : Option Kernel :=
  (screenPrintAddr (ret % 2 ^ 64).toNat k.screen).bind fun screen =>
    (screenPutch '\n'.toUInt8 screen).bind fun screen =>
      print "[FATAL ERROR] Failed to initilize GPT. Stopping.\n" { k with screen }

/-- The initialisations that can fail. -/
def initAll (boot : BootInfo) (mmapEntries : List LimineMemmapEntry) (hhOff : Word) :
    ℕ → Kernel → Option (Bool × Kernel) :=
  staged keyboardInit
    (fun _ => print "[FATAL ERROR] Failed to initilize keyboard driver. Stopping.\n") some <|
  staged (fun _ k => some (initFrameAllocator boot mmapEntries hhOff k))
    (fun _ => print "[FATAL ERROR] Failed to initilize page frame allocator. Stopping.\n")
    (print "[INFO] Initilized page frame allocator.\n") <|
  staged (fun _ k => some (kallocInit k))
    (fun _ => print "[FATAL ERROR] Failed to initilize kernel memory allocator. Stopping.\n")
    (print "[INFO] Initilized kernel memory allocator.\n") <|
  staged diskInit (fun _ => print "[FATAL ERROR] Failed to initilize disk. Stopping.\n")
    (print "[INFO] Initilized disk.\n") <|
  staged gptInit gptFailed (print "[INFO] Initilized GPT.\n") fun _ k => some (true, k)

end Kernel

/-- `true` where `kmain` calls `shell_init`, `false` where it stops. -/
def kmain (boot : BootInfo) (fuel : ℕ) (k : Kernel) : Option (Bool × Kernel) :=
  if !boot.baseRevisionSupported then some (false, k)
  else
    match boot.mmapEntries, boot.hhOff, boot.framebuffer with
    | some mmapEntries, some hhOff, some framebuffer =>
      (k.screenInit framebuffer).bind fun k =>
        (k.print "[INFO] Initilized screen.\n").bind fun k =>
          ((k.idtInit boot).print "[INFO] Initilized IDT.\n").bind fun k =>
            (k.picInit.print "[INFO] Initilized PIC.\n").bind fun k =>
              (k.print "[INFO] Enabled interrupts.\n").bind
                (Kernel.initAll boot mmapEntries hhOff fuel)
    | _, _, _ => some (false, k)

end Ssos
