import Ssos.Kernel.Boot

/-!
# How the boot ends

The initialisations of `kmain` as stages. Each is given what the ones before it
have set up, and the console shows the messages of all of them.

## Main result

- `kmain_result` — where the boot stops, what is then on the screen, and what it leaves to the shell
-/

namespace Ssos

open ByteMemory Polling Stages CharGrid Buddy

/-! ### Results -/

/-- What the initialisations return; none where `disk_init` waits for ever. -/
structure BootResults where
  keyboard : ℤ
  frames : ℤ
  heap : ℤ
  disk : Option ℤ
  gpt : ℤ

/-- The initialisations with their messages. -/
def BootResults.stages (results : BootResults) : List (Stage UInt8) := [
  ⟨some results.keyboard,
    text "[FATAL ERROR] Failed to initilize keyboard driver. Stopping.\n", []⟩,
  ⟨some results.frames,
    text "[FATAL ERROR] Failed to initilize page frame allocator. Stopping.\n",
    text "[INFO] Initilized page frame allocator.\n"⟩,
  ⟨some results.heap,
    text "[FATAL ERROR] Failed to initilize kernel memory allocator. Stopping.\n",
    text "[INFO] Initilized kernel memory allocator.\n"⟩,
  ⟨results.disk, text "[FATAL ERROR] Failed to initilize disk. Stopping.\n",
    text "[INFO] Initilized disk.\n"⟩,
  ⟨some results.gpt, addrText (results.gpt % 2 ^ 64).toNat ++ (['\n'.toUInt8] ++
      text "[FATAL ERROR] Failed to initilize GPT. Stopping.\n"),
    text "[INFO] Initilized GPT.\n"⟩]

/-- The messages in front of them. -/
def bootMessages : List UInt8 :=
  text "[INFO] Initilized screen.\n" ++ text "[INFO] Initilized IDT.\n" ++
    text "[INFO] Initilized PIC.\n" ++ text "[INFO] Enabled interrupts.\n"

/-! ### The parts -/

namespace Kernel

/-- The console shows the log. -/
def Logged (fb : Framebuffer) (color columns rows : ℕ) (log : List UInt8) (k : Kernel) : Prop :=
  ShowsGrid fb color 2 columns rows k.screen (terminalOf columns rows log)

/-- The stubs are in the table, and the controllers wait for requests. -/
structure InterruptsReady (boot : BootInfo) (k : Kernel) : Prop where
  gates : ∀ vector < 256, lookupGate k.idtReg k.descriptors vector =
    if vector < 48 then some (interruptGate (boot.isrStubAddr vector)) else none
  ready : k.pics.Ready 0x20
  quiet : k.pics.Quiet

/-- The first page of the region is the heap, in which nothing is allocated. -/
structure MemoryReady (region : Paging) (k : Kernel) : Prop where
  page : PageOk region.firstAddr
  used : UsedUpTo region.presentPageCount 1 k.frames.pages
  heap : PageInv region.firstAddr ⟨k.heap, []⟩

/-- The drive takes calls and holds the store. -/
structure DiskReady (capacity : ℕ) (store : SectorStore) (identity : Option Sector) (k : Kernel) :
    Prop where
  bus : k.bus.Ready
  holds : HoldsStore capacity store k.bus.drive
  identity : identity = some (sectorOf k.identifyDataBlock 0)

/-- The statics are those of the valid header in the block. -/
def GptReady (block : Sector) (k : Kernel) : Prop :=
  ∃ header : GptHeader, header.bytes = (sectorBytes block).take 92 ∧ header.Valid ∧
    k.gptVars = header.toGptVars

end Kernel

/-- One small request does not reach the frame allocator. -/
theorem Kernel.MemoryReady.kmalloc_frames {region : Paging} {k : Kernel}
    (h : k.MemoryReady region) : (kmallocFrames 512 k.heap k.frames).2 = k.frames := by
  obtain ⟨-, -, ⟨free, live, hs⟩, ho⟩ := h
  have hsizes := hs.ok.repr.sizesOk
  have hlevel : k.heap.highestLevel = 18 := ho.highest
  have hsize : k.heap.highestBlockSize = 2 ^ (k.heap.highestLevel + 3) := hsizes.size_eq
  refine @kmallocFrames_frames ⟨k.frames, ⟨k.heap, []⟩⟩ 512 hsizes ?_
  show (512 + metaSize) % 2 ^ 64 ≤ k.heap.highestBlockSize
  rw [hsize, hlevel]
  decide

section Stages
variable {fb : Framebuffer} {color columns rows : ℕ} (hconsole : fb.Console color 2 columns rows)
  {k : Kernel} {log : List UInt8}
include hconsole

theorem Kernel.Logged.prints (h : k.Logged fb color columns rows log) {f : Screen → Option Screen}
    {chars : List UInt8} (hf : Prints f chars) :
    ∃ screen, f k.screen = some screen ∧
      ({ k with screen } : Kernel).Logged fb color columns rows (log ++ chars) := by
  obtain ⟨screen, hscreen, hshows⟩ := hf _ _ _ _ _ _ _ hconsole h
  refine ⟨screen, hscreen, ?_⟩
  rw [Kernel.Logged, terminalOf, List.foldl_append]
  exact hshows

theorem Kernel.Logged.print (h : k.Logged fb color columns rows log) {str : String}
    (hplain : Plain (text str)) :
    ∃ screen, k.print str = some { k with screen } ∧
      ({ k with screen } : Kernel).Logged fb color columns rows (log ++ text str) := by
  obtain ⟨screen, hscreen, hlog⟩ := h.prints hconsole (prints_print hplain)
  refine ⟨screen, ?_, hlog⟩
  rw [Kernel.print, hscreen, Option.map_some]

variable {Done : Kernel → Prop} {next : ℕ → Kernel → Option (Bool × Kernel)}
  {rest : List (Stage UInt8)}

/-- **A stage with one message for each result.** It leaves the screen alone. -/
theorem follows_printed (h : k.Logged fb color columns rows log)
    {init : ℕ → Kernel → Option (ℤ × Kernel)} {result : Option ℤ} {fatal info : String}
    (hfatal : Plain (text fatal)) (hinfo : Plain (text info))
    (hnone : result = none → Hangs fun fuel => init fuel k)
    (hsome : ∀ r, result = some r → ∃ k₁, Settles (fun fuel => init fuel k) (r, k₁) ∧
      k₁.screen = k.screen ∧ (r = 0 → ∀ screen,
        ({ k₁ with screen } : Kernel).Logged fb color columns rows (log ++ text info) →
          Follows (Kernel.Logged fb color columns rows) Done next { k₁ with screen }
            (log ++ text info) rest)) :
    Follows (Kernel.Logged fb color columns rows) Done
      (staged init (fun _ => Kernel.print fatal) (Kernel.print info) next) k log
      (⟨result, text fatal, text info⟩ :: rest) := by
  refine .staged hnone fun r hr => ?_
  obtain ⟨k₁, hinit, hscreen, hnext⟩ := hsome r hr
  have h₁ : k₁.Logged fb color columns rows log := by
    rw [Kernel.Logged, hscreen]
    exact h
  refine ⟨k₁, hinit, fun _ => ?_, fun hzero => ?_⟩
  · obtain ⟨screen, hprint, hlog⟩ := h₁.print hconsole hfatal
    exact ⟨_, hprint, hlog⟩
  · obtain ⟨screen, hprint, hlog⟩ := h₁.print hconsole hinfo
    exact ⟨_, hprint, hnext hzero screen hlog⟩

/-- The keyboard. Its success is not reported. -/
theorem follows_keyboardInit (h : k.Logged fb color columns rows log) (hboots : k.ps2.Boots)
    {ret : ℤ} (hret : ∀ r, InitResult k.ps2.garbled k.ps2.transmissions r ↔ r = ret)
    {fatal : String} (hfatal : Plain (text fatal))
    (hnext : ∀ ps2 : Ps2, ps2.Enabled → Follows (Kernel.Logged fb color columns rows) Done next
      { k with ps2 } log rest) :
    Follows (Kernel.Logged fb color columns rows) Done
      (staged Kernel.keyboardInit (fun _ => Kernel.print fatal) some next) k log
      (⟨some ret, text fatal, []⟩ :: rest) := by
  obtain ⟨r, d, hsettles, hresult, henabled⟩ := hboots.initResult
  obtain rfl : r = ret := (hret r).1 hresult
  refine .staged (fun hnone => absurd hnone (Option.some_ne_none r)) ?_
  rintro r' ⟨⟩
  refine ⟨{ k with ps2 := d }, hsettles.map _, fun _ => ?_, fun hzero => ?_⟩
  · have hd : ({ k with ps2 := d } : Kernel).Logged fb color columns rows log := h
    obtain ⟨screen, hprint, hlog⟩ := hd.print hconsole hfatal
    exact ⟨_, hprint, hlog⟩
  · refine ⟨_, rfl, ?_⟩
    rw [List.append_nil]
    exact hnext d (henabled hzero)

/-- The frame allocator. -/
theorem follows_initFrameAllocator (h : k.Logged fb color columns rows log) {boot : BootInfo}
    {mmapEntries : List LimineMemmapEntry} {hhOff : Word} {ret : ℤ} {region : Paging}
    (hinit : initFrameAllocatorOr boot.undefinedShift boot.cr3 boot.image mmapEntries hhOff k.frames =
      (ret, region)) {fatal info : String} (hfatal : Plain (text fatal)) (hinfo : Plain (text info))
    (hnext : ∀ screen, FreshRegion hhOff region →
      ({ k with frames := region, screen } : Kernel).Logged fb color columns rows (log ++ text info) →
        Follows (Kernel.Logged fb color columns rows) Done next { k with frames := region, screen }
          (log ++ text info) rest) :
    Follows (Kernel.Logged fb color columns rows) Done
      (staged (fun _ k => some (k.initFrameAllocator boot mmapEntries hhOff))
        (fun _ => Kernel.print fatal) (Kernel.print info) next) k log
      (⟨some ret, text fatal, text info⟩ :: rest) := by
  refine follows_printed hconsole h hfatal hinfo (fun hnone => absurd hnone (Option.some_ne_none ret)) ?_
  rintro r ⟨⟩
  refine ⟨{ k with frames := region }, ?_, rfl, fun hzero screen hlog => ?_⟩
  · simp only [Kernel.initFrameAllocator, hinit]
    exact .const _
  · subst hzero
    exact hnext screen (freshRegion_of_init hinit) hlog

/-- The heap gets the first page of the region. -/
theorem follows_kallocInit (h : k.Logged fb color columns rows log) {hhOff : Word}
    (hregion : FreshRegion hhOff k.frames) (halign : 2 ^ 21 ∣ hhOff.toNat)
    (hle : k.frames.firstAddr + maxPages * 0x200000 ≤ 2 ^ 64) {mem : Mem}
    (hheap : k.heap = Heap.initial mem) {fatal info : String} (hfatal : Plain (text fatal))
    (hinfo : Plain (text info))
    (hnext : ∀ frames heap screen, Kernel.MemoryReady k.frames { k with frames, heap, screen } →
      ({ k with frames, heap, screen } : Kernel).Logged fb color columns rows (log ++ text info) →
        Follows (Kernel.Logged fb color columns rows) Done next { k with frames, heap, screen }
          (log ++ text info) rest) :
    Follows (Kernel.Logged fb color columns rows) Done
      (staged (fun _ k => some k.kallocInit) (fun _ => Kernel.print fatal) (Kernel.print info) next)
      k log (⟨some (if k.frames.firstAddr = 0 then -1 else 0), text fatal, text info⟩ :: rest) := by
  obtain ⟨hpage, -, hused⟩ := hregion.allocFirst hle
  have hinit : k.kallocInit = ((kallocInit k.frames.firstAddr k.heap).1, { k with
      frames := (pagingAllocPages 1 k.frames).2
      heap := (kallocInit k.frames.firstAddr k.heap).2 }) := by
    rw [← hpage]
    rfl
  refine follows_printed hconsole h hfatal hinfo (fun hnone => absurd hnone (Option.some_ne_none _)) ?_
  rintro r ⟨⟩
  simp only [hinit]
  by_cases hzero : k.frames.firstAddr = 0
  · rw [if_pos hzero, kallocInit, if_pos hzero]
    exact ⟨_, .const _, rfl, fun h => absurd h (by decide)⟩
  · have hret : (kallocInit k.frames.firstAddr k.heap).1 = 0 := by rw [kallocInit, if_neg hzero]
    rw [if_neg hzero, hret]
    have hok := hregion.pageOk halign (Nat.pos_of_ne_zero hzero) hle
    refine ⟨_, .const _, rfl, fun _ screen hlog => hnext _ _ screen ⟨hok, hused, ?_⟩ hlog⟩
    obtain ⟨hholds, honPage⟩ := start_holds mem hok
    rw [hheap]
    exact ⟨⟨_, _, hholds⟩, honPage⟩

/-- The disk. -/
theorem follows_diskInit (h : k.Logged fb color columns rows log) {capacity : ℕ}
    {store : SectorStore} (hdisk : k.bus.floating = none →
      k.bus.identifying = .no ∧ HoldsStore capacity store k.bus.drive)
    {fatal info : String} (hfatal : Plain (text fatal)) (hinfo : Plain (text info))
    (hnext : ∀ identifyDataBlock bus screen,
      Kernel.DiskReady capacity store k.bus.identity { k with identifyDataBlock, bus, screen } →
      ({ k with identifyDataBlock, bus, screen } : Kernel).Logged fb color columns rows
          (log ++ text info) →
        Follows (Kernel.Logged fb color columns rows) Done next
          { k with identifyDataBlock, bus, screen } (log ++ text info) rest) :
    Follows (Kernel.Logged fb color columns rows) Done
      (staged Kernel.diskInit (fun _ => Kernel.print fatal) (Kernel.print info) next) k log
      (⟨k.bus.outcome, text fatal, text info⟩ :: rest) := by
  obtain ⟨r, words, bus, houtcome, hsettles, hdone⟩ | ⟨houtcome, hhangs⟩ :=
    diskInit_store hdisk k.identifyDataBlock
  · rw [houtcome]
    refine follows_printed hconsole h hfatal hinfo
      (fun hnone => absurd hnone (Option.some_ne_none r)) ?_
    rintro r' ⟨⟩
    refine ⟨{ k with identifyDataBlock := words, bus }, hsettles.map _, rfl,
      fun hzero screen hlog => ?_⟩
    obtain ⟨hbus, hholds, hidentity⟩ := hdone hzero
    exact hnext words bus screen ⟨hbus, hholds, hidentity⟩ hlog
  · rw [houtcome]
    refine follows_printed hconsole h hfatal hinfo (fun _ => hhangs.map _) ?_
    intro r hr
    exact absurd hr.symm (Option.some_ne_none r)

/-- The messages about a failure of `gpt_init`. -/
theorem Kernel.Logged.gptFailed (h : k.Logged fb color columns rows log) (ret : ℤ) :
    ∃ k₂, k.gptFailed ret = some k₂ ∧ k₂.Logged fb color columns rows
      (log ++ (addrText (ret % 2 ^ 64).toNat ++ (['\n'.toUInt8] ++
        text "[FATAL ERROR] Failed to initilize GPT. Stopping.\n"))) := by
  have hnewline : Prints (screenPutch '\n'.toUInt8) ['\n'.toUInt8] := prints_putch (by decide)
  have hfatal : Plain (text "[FATAL ERROR] Failed to initilize GPT. Stopping.\n") := by decide
  obtain ⟨screen, hscreen, hlog⟩ := h.prints hconsole
    ((prints_printAddr (ret % 2 ^ 64).toNat).bind (hnewline.bind (prints_print hfatal)))
  refine ⟨{ k with screen }, ?_, hlog⟩
  refine Eq.trans ?_ (congrArg (Option.map fun screen => { k with screen }) hscreen)
  rw [Kernel.gptFailed, Option.map_bind]
  refine congrArg _ (funext fun s => ?_)
  rw [Function.comp_apply, Option.map_bind]
  rfl

/-- The GPT. The buffer comes from the empty heap and goes back to it. -/
theorem follows_gptInit (h : k.Logged fb color columns rows log) {region : Paging}
    (hmemory : k.MemoryReady region) {capacity : ℕ}
    (hcap : capacity ≤ 2 ^ 28) (hblock : 2 ≤ capacity) {store : SectorStore}
    {identity : Option Sector} (hdisk : k.DiskReady capacity store identity) {header : GptHeader}
    (hheader : header.bytes = (sectorBytes (store 1)).take 92)
    (hdone : ∀ gptVars heap bus frames screen,
      let k' : Kernel := { k with gptVars, heap, bus, frames, screen }
      k'.MemoryReady region → k'.DiskReady capacity store identity → k'.GptReady (store 1) →
        Done k') :
    Follows (Kernel.Logged fb color columns rows) Done
      (staged Kernel.gptInit Kernel.gptFailed (Kernel.print "[INFO] Initilized GPT.\n")
        fun _ k => some (true, k)) k log
      [⟨some header.verdict, addrText (header.verdict % 2 ^ 64).toNat ++ (['\n'.toUInt8] ++
          text "[FATAL ERROR] Failed to initilize GPT. Stopping.\n"),
        text "[INFO] Initilized GPT.\n"⟩] := by
  obtain ⟨ret, gptVars, heap, d, hsettles, hholds, hrestored, hroom, -⟩ :=
    hmemory.heap.gptInitDisk hdisk.holds hcap hblock
      (frameAnswers (memBlocksMaxLevelCount - k.heap.highestLevel)
        (2 ^ (k.heap.highestLevel + 1 - 18)) k.frames) k.gptVars
  obtain ⟨rfl, hvalid, hvars⟩ := (hroom (roomForSector_of_empty hmemory.page rfl)).eq hheader
  have hinit : Settles (fun fuel => k.gptInit fuel) (header.verdict, { k with
      gptVars, heap, bus := k.bus.withDrive d, frames := (kmallocFrames 512 k.heap k.frames).2 }) := by
    have hbus := gptInitDisk_embeds hdisk.bus.embeds (d := k.bus.drive)
    rw [show k.bus.withDrive k.bus.drive = k.bus from rfl] at hbus
    simp only [Kernel.gptInit, hbus, Option.map_map]
    exact hsettles.map _
  have hframes : (kmallocFrames 512 k.heap k.frames).2 = k.frames := hmemory.kmalloc_frames
  rw [hframes] at hinit
  have h₁ : ({ k with gptVars, heap, bus := k.bus.withDrive d } : Kernel).Logged fb color columns rows
      log := h
  refine .staged (fun hnone => absurd hnone (Option.some_ne_none _)) ?_
  rintro r ⟨⟩
  refine ⟨_, hinit, fun _ => ?_, fun hzero => ?_⟩
  · exact h₁.gptFailed hconsole header.verdict
  · have hinfo : Plain (text "[INFO] Initilized GPT.\n") := by decide
    obtain ⟨screen, hprint, hlog⟩ := h₁.print hconsole hinfo
    refine ⟨_, hprint, .nil hlog (hdone _ _ _ _ _ ⟨hmemory.page, hmemory.used, hrestored.inv⟩
      ⟨⟨hdisk.bus.floating, ⟨hdisk.bus.rests.identifying, hholds.idle⟩, hdisk.bus.installed⟩, hholds,
        hdisk.identity⟩ ⟨header, hheader, hvalid.1 hzero, hvars⟩)⟩

end Stages

/-! ### The whole boot -/

/-- A machine that is switched on: a cleared framebuffer, zeroed statics, a
keyboard, and where there is a drive one that rests and holds the store. -/
structure Kernel.Starts (boot : BootInfo) (fb : Framebuffer) (capacity : ℕ) (store : SectorStore)
    (k : Kernel) : Prop where
  cleared : ∀ a, fb.address ≤ a → a < fb.address + fb.pitch * fb.height → k.screen.mem a = 0
  descriptors : ∀ x, boot.idtEntries ≤ x → x < boot.idtEntries + 16 * idtEntryCount →
    k.descriptors x = 0
  keyboard : k.ps2.Boots
  heap : ∃ mem, k.heap = Heap.initial mem
  disk : k.bus.floating = none → k.bus.identifying = .no ∧ HoldsStore capacity store k.bus.drive

/-- The frame allocator behind its initialisation. -/
def Kernel.region (boot : BootInfo) (mmapEntries : List LimineMemmapEntry) (hhOff : Word)
    (k : Kernel) : Paging :=
  (initFrameAllocatorOr boot.undefinedShift boot.cr3 boot.image mmapEntries hhOff k.frames).2

/-- The results on this machine. -/
structure BootResults.On (boot : BootInfo) (mmapEntries : List LimineMemmapEntry) (hhOff : Word)
    (store : SectorStore) (k : Kernel) (results : BootResults) : Prop where
  keyboard : ∀ r, InitResult k.ps2.garbled k.ps2.transmissions r ↔ r = results.keyboard
  frames : results.frames =
    (initFrameAllocatorOr boot.undefinedShift boot.cr3 boot.image mmapEntries hhOff k.frames).1
  heap : results.heap = if (k.region boot mmapEntries hhOff).firstAddr = 0 then -1 else 0
  disk : results.disk = k.bus.outcome
  gpt : ∀ header : GptHeader, header.bytes = (sectorBytes (store 1)).take 92 →
    results.gpt = header.verdict

/-- What the shell is started on. -/
structure Kernel.Booted (boot : BootInfo) (region : Paging) (capacity : ℕ) (store : SectorStore)
    (identity : Option Sector) (k : Kernel) : Prop where
  interrupts : k.InterruptsReady boot
  keyboard : k.ps2.Enabled
  memory : k.MemoryReady region
  disk : k.DiskReady capacity store identity
  gpt : k.GptReady (store 1)

/-- `pic_init` without requests in between. -/
theorem outbs_picInit (p : InterruptController.Pair) :
    (p.outbs picInit).Ready 0x20 ∧ (p.outbs picInit).Quiet := by
  have hwrites : (picInit.map fun write => BusEvent.write write.1 write.2).filterMap BusEvent.write? =
      picInit := rfl
  have hready := picInit_ready hwrites p
  rwa [List.foldl_map] at hready

section Boot
variable {boot : BootInfo} {mmapEntries : List LimineMemmapEntry} {hhOff : Word} {fb : Framebuffer}
  {color columns rows capacity : ℕ} {store : SectorStore} {k : Kernel}

/-- What comes in front of the initialisations. -/
theorem kmain_front (hsupported : boot.baseRevisionSupported = true)
    (hmmap : boot.mmapEntries = some mmapEntries) (hhh : boot.hhOff = some hhOff)
    (hfb : boot.framebuffer = some fb) (hcolor : screenGetRgbColor fb 255 255 255 = some color)
    (hconsole : fb.Console color 2 columns rows) (hcolumns : 0 < columns) (hrows : 0 < rows)
    (hk : k.Starts boot fb capacity store) :
    ∃ idtReg descriptors pics screen,
      (∀ fuel, kmain boot fuel k = Kernel.initAll boot mmapEntries hhOff fuel
        { k with idtReg, descriptors, pics, screen }) ∧
      ({ k with idtReg, descriptors, pics, screen } : Kernel).Logged fb color columns rows
        bootMessages ∧
      ({ k with idtReg, descriptors, pics, screen } : Kernel).InterruptsReady boot := by
  have hscreen : k.screenInit fb = some { k with screen := Screen.start fb k.screen.mem color 2 } := by
    rw [Kernel.screenInit, screenInit, hcolor]
    rfl
  have hstart : ({ k with screen := Screen.start fb k.screen.mem color 2 } : Kernel).Logged fb color
      columns rows [] :=
    ⟨renders_start (by decide) hk.cleared hconsole.mapped, Terminal.ready_empty hcolumns hrows⟩
  obtain ⟨s₁, hprint₁, hlog₁⟩ :=
    hstart.print hconsole (show Plain (text "[INFO] Initilized screen.\n") by decide)
  obtain ⟨idtReg, descriptors, hidt⟩ : ∃ idtReg descriptors,
      idtInit boot.idtEntries boot.isrStubAddr k.descriptors = (idtReg, descriptors) := ⟨_, _, rfl⟩
  have hinit : ({ k with screen := s₁ } : Kernel).idtInit boot =
      { k with screen := s₁, idtReg, descriptors } := by
    rw [Kernel.idtInit, hidt]
  have hidtLog : ({ k with screen := s₁, idtReg, descriptors } : Kernel).Logged fb color columns rows
      (text "[INFO] Initilized screen.\n") := hlog₁
  obtain ⟨s₂, hprint₂, hlog₂⟩ :=
    hidtLog.print hconsole (show Plain (text "[INFO] Initilized IDT.\n") by decide)
  have hpicLog : ({ k with screen := s₂, idtReg, descriptors } : Kernel).picInit.Logged fb color
      columns rows _ := hlog₂
  obtain ⟨s₃, hprint₃, hlog₃⟩ :=
    hpicLog.print hconsole (show Plain (text "[INFO] Initilized PIC.\n") by decide)
  obtain ⟨s₄, hprint₄, hlog₄⟩ :=
    hlog₃.print hconsole (show Plain (text "[INFO] Enabled interrupts.\n") by decide)
  refine ⟨idtReg, descriptors, k.pics.outbs picInit, s₄, fun fuel => ?_, hlog₄, fun vector hvector => ?_,
    ?_, ?_⟩
  · rw [kmain, if_neg (by rw [hsupported]; decide)]
    simp only [hmmap, hhh, hfb, hscreen, Option.bind_some]
    rw [hprint₁, Option.bind_some, hinit, hprint₂, Option.bind_some, hprint₃, Option.bind_some, hprint₄,
      Option.bind_some]
    rfl
  · exact lookupGate_kept hidt hk.descriptors (fun _ _ _ => rfl) hvector
  · exact (outbs_picInit k.pics).1
  · exact (outbs_picInit k.pics).2

/-- **All stages**, the last one first. -/
theorem initAll_follows (hconsole : fb.Console color 2 columns rows)
    (hlog : k.Logged fb color columns rows bootMessages) (hinterrupts : k.InterruptsReady boot)
    (hboots : k.ps2.Boots) {mem : Mem} (hheap : k.heap = Heap.initial mem)
    (hbus : k.bus.floating = none → k.bus.identifying = .no ∧ HoldsStore capacity store k.bus.drive)
    (hcap : capacity ≤ 2 ^ 28) (hblock : 2 ≤ capacity) (halign : 2 ^ 21 ∣ hhOff.toNat)
    (hle : (k.region boot mmapEntries hhOff).firstAddr + maxPages * 0x200000 ≤ 2 ^ 64)
    {results : BootResults} (hresults : results.On boot mmapEntries hhOff store k) :
    Follows (Kernel.Logged fb color columns rows)
      (Kernel.Booted boot (k.region boot mmapEntries hhOff) capacity store k.bus.identity)
      (Kernel.initAll boot mmapEntries hhOff) k bootMessages results.stages := by
  obtain ⟨header, hheader⟩ := exists_header (store 1)
  rw [BootResults.stages, hresults.gpt header hheader, hresults.disk]
  refine follows_keyboardInit hconsole hlog hboots hresults.keyboard ?_ fun ps2 hps2 => ?_
  · decide
  have hregion : initFrameAllocatorOr boot.undefinedShift boot.cr3 boot.image mmapEntries hhOff
      k.frames = (results.frames, k.region boot mmapEntries hhOff) := Prod.ext hresults.frames.symm rfl
  have hlog : ({ k with ps2 } : Kernel).Logged fb color columns rows bootMessages := hlog
  refine follows_initFrameAllocator hconsole hlog hregion ?_ ?_ fun screen hfresh hlog => ?_
  · decide
  · decide
  rw [hresults.heap]
  refine follows_kallocInit hconsole hlog hfresh halign hle hheap ?_ ?_
    fun frames heap screen hmemory hlog => ?_
  · decide
  · decide
  refine follows_diskInit hconsole hlog hbus ?_ ?_ fun identifyDataBlock bus screen hdisk hlog => ?_
  · decide
  · decide
  have hready : Kernel.MemoryReady (k.region boot mmapEntries hhOff) { k with
      ps2, frames, heap, identifyDataBlock, bus } := ⟨hmemory.page, hmemory.used, hmemory.heap⟩
  refine follows_gptInit hconsole hlog ⟨hready.page, hready.used, hready.heap⟩ hcap hblock hdisk
    hheader fun gptVars heap bus frames screen hmemory hdisk hgpt => ?_
  exact ⟨⟨hinterrupts.gates, hinterrupts.ready, hinterrupts.quiet⟩, hps2, hmemory, hdisk, hgpt⟩

/-- The results on a machine that starts. -/
theorem Kernel.Starts.exists_results (hk : k.Starts boot fb capacity store)
    (mmapEntries : List LimineMemmapEntry) (hhOff : Word) :
    ∃ results : BootResults, results.On boot mmapEntries hhOff store k := by
  obtain ⟨keyboard, _, _, hkeyboard, _⟩ := hk.keyboard.initResult
  obtain ⟨header, hheader⟩ := exists_header (store 1)
  refine ⟨⟨keyboard, _, _, _, header.verdict⟩, fun r => ⟨fun hr => hr.unique hkeyboard, fun hr => hr ▸ hkeyboard⟩,
    rfl, rfl, rfl, fun header' hheader' => ?_⟩
  rw [GptHeader.bytes_injective (hheader.trans hheader'.symm)]

end Boot

/-- **How the boot ends.** The results of the initialisations are those that the
devices and the memory map give. If all of them are 0 the shell is started, on a
machine where every part is set up. Otherwise the first one that is not decides:
`kmain` stops behind its message, or waits for ever where `disk_init` does. The
console shows the messages of all stages up to there. -/
theorem kmain_result {boot : BootInfo} {mmapEntries : List LimineMemmapEntry} {hhOff : Word}
    {fb : Framebuffer} {color columns rows capacity : ℕ} {store : SectorStore} {k : Kernel}
    (hsupported : boot.baseRevisionSupported = true) (hmmap : boot.mmapEntries = some mmapEntries)
    (hhh : boot.hhOff = some hhOff) (hfb : boot.framebuffer = some fb)
    (hcolor : screenGetRgbColor fb 255 255 255 = some color)
    (hconsole : fb.Console color 2 columns rows) (hcolumns : 0 < columns) (hrows : 0 < rows)
    (hk : k.Starts boot fb capacity store) (hcap : capacity ≤ 2 ^ 28) (hblock : 2 ≤ capacity)
    (halign : 2 ^ 21 ∣ hhOff.toNat)
    (hle : (k.region boot mmapEntries hhOff).firstAddr + maxPages * 0x200000 ≤ 2 ^ 64) :
    ∃ results : BootResults, results.On boot mmapEntries hhOff store k ∧
      ((∀ stage ∈ results.stages, stage.result = some 0) ∧
        (∃ k', Settles (fun fuel => kmain boot fuel k) (true, k') ∧
          k'.Logged fb color columns rows (bootMessages ++ successes results.stages) ∧
          k'.Booted boot (k.region boot mmapEntries hhOff) capacity store k.bus.identity) ∨
      ∃ before stage after, results.stages = before ++ stage :: after ∧
        (∀ stage ∈ before, stage.result = some 0) ∧ stage.result ≠ some 0 ∧
        (stage.result = none → Hangs fun fuel => kmain boot fuel k) ∧
        ∀ r, stage.result = some r → ∃ k', Settles (fun fuel => kmain boot fuel k) (false, k') ∧
          k'.Logged fb color columns rows
            (bootMessages ++ (successes before ++ stage.onFailure))) := by
  obtain ⟨results, hresults⟩ := hk.exists_results mmapEntries hhOff
  obtain ⟨idtReg, descriptors, pics, screen, hfront, hlog, hinterrupts⟩ :=
    kmain_front hsupported hmmap hhh hfb hcolor hconsole hcolumns hrows hk
  obtain ⟨mem, hheap⟩ := hk.heap
  have hfollows := initAll_follows hconsole hlog hinterrupts hk.keyboard hheap hk.disk hcap hblock
    halign hle ⟨hresults.keyboard, hresults.frames, hresults.heap, hresults.disk, hresults.gpt⟩
  refine ⟨results, hresults, (all_succeed_or results.stages).imp (fun hall => ⟨hall, ?_⟩) ?_⟩
  · simp only [hfront]
    exact hfollows.reaches hall
  · rintro ⟨before, stage, after, hsplit, hbefore, hstage⟩
    rw [hsplit] at hfollows
    obtain ⟨hnone, hsome⟩ := hfollows.ends hbefore
    simp only [hfront]
    refine ⟨before, stage, after, hsplit, hbefore, hstage, hnone, fun r hr => hsome r hr ?_⟩
    rintro rfl
    exact hstage hr

/-- A machine without a drive. -/
theorem kmain_result_noDrive :
    let boot : BootInfo := {
      baseRevisionSupported := true, mmapEntries := some lowMemory
      hhOff := some 0xFFFF800000000000#64, framebuffer := some framebuffer16x16, cr3 := 0x1000#64
      image := ⟨0xFFFF800001000000#64, 0xFFFF800001200000#64⟩, undefinedShift := fun _ => 0
      idtEntries := 0x100000, isrStubAddr := fun v => BitVec.ofNat 64 (0x2000 + 64 * v) }
    let controller : InterruptController.Controller :=
      ⟨fun _ => false, fun _ => false, 0, 0, 0, 0, .nothing, false, false⟩
    let k : Kernel := {
      screen := Screen.start framebuffer16x16 (fun _ => 0) 0 1, idtReg := ⟨0, 0⟩
      descriptors := fun _ => 0, pics := ⟨controller, controller⟩
      ps2 := {
        keyboard := ⟨true, 3, false⟩, expectsConfig := false, config := 0, installed := false
        garbled := fun _ => false, transmissions := 0, typed := fun _ => [], queue := [], last := 0
        inputBusy := 0, lag := fun _ => 0, interrupts := fun _ => 0, accesses := 0, sent := []
        handled := [] }
      frames := noTables, heap := Heap.initial fun _ => 0, identifyDataBlock := fun _ => 0
      bus := {
        floating := some 0, signatureMid := 0, signatureHigh := 0, identity := none
        identifying := .no, drive := .blank 2, installed := false }
      gptVars := ⟨0, 0, 0, fun _ => 0, 0, 0, 0, 0⟩ }
    ∃ k', Settles (fun fuel => kmain boot fuel k) (false, k') := by
  intro boot controller k
  have hmapped : framebuffer16x16.Mapped := ⟨rfl, by decide, by decide, by decide⟩
  have hconsole : framebuffer16x16.Console 0xFFFFFF 2 1 1 :=
    ⟨hmapped, ⟨rfl, rfl⟩, by decide, by decide, by decide⟩
  have hboots : k.ps2.Boots :=
    ⟨rfl, rfl, rfl, List.not_mem_nil, fun _ => List.not_mem_nil, Or.inl rfl⟩
  have hk : k.Starts boot framebuffer16x16 2 fun _ _ => 0 :=
    ⟨fun _ _ _ => rfl, fun _ _ _ => rfl, hboots, ⟨_, rfl⟩, fun h => absurd h (Option.some_ne_none _)⟩
  have hwrap : (k.region boot lowMemory 0xFFFF800000000000#64).firstAddr + maxPages * 0x200000 ≤ 2 ^ 64 :=
    show lowRegion.firstAddr + maxPages * 0x200000 ≤ 2 ^ 64 by decide
  obtain ⟨results, hresults, hend⟩ := @kmain_result boot lowMemory 0xFFFF800000000000#64
    framebuffer16x16 0xFFFFFF 1 1 2 (fun _ _ => 0) k rfl rfl rfl rfl (by decide) hconsole (by decide)
    (by decide) hk (by decide) (by decide) (by decide) hwrap
  have hdisk : results.disk = some (-1) := hresults.disk
  obtain ⟨hall, -⟩ | ⟨before, stage, after, hsplit, -, hne, -, hsome⟩ := hend
  · simp [BootResults.stages, hdisk] at hall
  · have hmem : stage ∈ results.stages := by simp [hsplit]
    obtain ⟨r, hr⟩ : ∃ r, stage.result = some r := by
      simp only [BootResults.stages, List.mem_cons, List.not_mem_nil, or_false] at hmem
      rcases hmem with rfl | rfl | rfl | rfl | rfl
      exacts [⟨_, rfl⟩, ⟨_, rfl⟩, ⟨_, rfl⟩, ⟨_, hdisk⟩, ⟨_, rfl⟩]
    obtain ⟨k', hsettles, -⟩ := hsome r hr
    exact ⟨k', hsettles⟩

end Ssos
