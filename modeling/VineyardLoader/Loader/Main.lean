import VineyardLoader.Loader.Stubs
import VineyardLoader.Net.Delivery
import VineyardLoader.Net.Opening
import VineyardLoader.Net.Ucs2
import VineyardLoader.Uefi.FilePath
import VineyardLoader.Uefi.Reconnect

/-!
# The whole loader

`efi_main` from the call of the firmware to the jump into the kernel. It sets up the processor,
starts a driver if the firmware is new enough, connects the controllers and waits for a key. Then it
boots from the volume, or first receives files from the network.

The parts of the program work on parts of the state, and what connects them is the volume: the
network code writes to it, and the kernel is the file at one of its paths. So a file that is sent
under this path is the kernel that runs (`efiMain_netboots`), and what runs is always the file that is
there in the end (`efiMain_boots`).

All of this is about firmware of a revision below 2. On newer firmware a driver is started first, and
the path of its file overruns the block that is granted for it (`efiMain_newer`). To that store the
source gives no meaning, and the model stops there, so nothing is said about newer firmware beyond
this.
-/

set_option autoImplicit false

namespace VineyardLoader

/-! ## The state and the firmware -/

/-- The state of the loader, in the parts that its functions work on. -/
structure Loader where
  registers : Registers
  heap : Heap
  io : IoState
  net : PollState
  machine : Machine

/-- What the firmware and its drivers answer to the whole program. -/
structure System where
  setWatchdogTimer : Bool
  clearScreen : Bool
  firmwareRevision : Nat
  pool : PoolFirmware
  fromFileHandle : Nat → Pooled Nat
  /-- The handle of the loader, and the address of the name of the driver. -/
  imageHandle : Nat
  driverName : Nat
  loadImage : Bool
  driverProtocol : Bool
  startImage : Bool
  handles : HandleFirmware
  guids : ProtocolGuids
  /-- The units of the keys, or errors. -/
  keys : List (Option Nat)
  opening : OpenFirmware
  globals : NetGlobals
  globalsMemory : Memory
  /-- The answers in the turns of the polling loop. -/
  turns : List PollFirmware
  boot : Firmware
  platform : Platform

/-- Programs of the whole loader. -/
abbrev Main := EStateM Halt Loader

/-! ## The processor -/

/-- `loader_paging_wp_disable`. An unsigned long has 32 bits on the target, and so has its
complement. -/
def loaderPagingWpDisable (registers : Registers) : Registers :=
  { registers with cr0 := registers.cr0 &&& 0xFFFEFFFF }

/-- The bit of the extended features that allows pages without execution. -/
def enableNx (registers : Registers) : Registers :=
  registers.withMsr 0xC0000080 (registers.msr 0xC0000080 ||| 0x800)

/-- Supervisor writes ignore the write protection of pages, and the page tables may forbid
execution. -/
structure Registers.Paging (registers : Registers) : Prop where
  writes : registers.cr0.getLsbD 16 = false
  noExecute : (registers.msr 0xC0000080).getLsbD 11 = true

theorem enableNx_paging (registers : Registers) :
    (enableNx (loaderPagingWpDisable registers)).Paging where
  writes := by simp [enableNx, loaderPagingWpDisable, Registers.withMsr]
  noExecute := by simp [enableNx, loaderPagingWpDisable, Registers.withMsr]

/-! ## The keys -/

/-- `uefi_read_keystroke`: the low byte of the first unit that is not zero, and the keys behind it.
Without such a key it waits for ever. -/
def uefiReadKeystroke : List (Option Nat) → Except Halt (Nat × List (Option Nat))
  | [] => .error .diverged
  | none :: _ => .error .exit
  | some unicodeChar :: keys =>
      if unicodeChar = 0 then uefiReadKeystroke keys else .ok (unicodeChar &&& 0xFF, keys)

/-- The characters `n` and `d`. -/
def netbootMode : Nat := 0x6E

def diskMode : Nat := 0x64

/-- The loop of `efi_main` over the keys, for a number of turns. -/
def bootModeLoop : Nat → Nat → List (Option Nat) → Except Halt Nat
  | 0, _, _ => .error .diverged
  | turns + 1, c, keys =>
      if c ≠ netbootMode ∧ c ≠ diskMode then
        match uefiReadKeystroke keys with
        | .error reason => .error reason
        | .ok (c, keys) => bootModeLoop turns c keys
      else .ok c

/-- The boot mode that is chosen. Every turn but the last takes a key. -/
def bootMode (keys : List (Option Nat)) : Except Halt Nat := bootModeLoop (keys.length + 2) 0 keys

/-- The character chooses a boot mode. -/
def IsMode (c : Nat) : Prop := c = netbootMode ∨ c = diskMode

/-- The first key that chooses a boot mode chooses this one, and no error comes before it. -/
def FirstChoice (keys : List (Option Nat)) (mode : Nat) : Prop :=
  ∃ (before : List Nat) (unicodeChar : Nat) (after : List (Option Nat)),
    keys = before.map some ++ some unicodeChar :: after ∧
      (∀ other ∈ before, ¬ IsMode (other &&& 0xFF)) ∧ IsMode (unicodeChar &&& 0xFF) ∧
        mode = unicodeChar &&& 0xFF

section Keys

variable {keys rest : List (Option Nat)} {c mode turns : Nat}

/-- There is only one first choice. -/
theorem FirstChoice.unique {other : Nat} (first : FirstChoice keys mode)
    (second : FirstChoice keys other) : mode = other := by
  obtain ⟨before, unit, after, rfl, none_, chooses, rfl⟩ := first
  obtain ⟨earlier, last, later, same, quiet, also, rfl⟩ := second
  induction before generalizing earlier with
  | nil =>
      cases earlier with
      | nil => exact congrArg (· &&& 0xFF) (Option.some.inj (List.cons.inj same).1)
      | cons head tail =>
          have here : unit = head := Option.some.inj (List.cons.inj same).1
          exact absurd (here ▸ chooses) (quiet head List.mem_cons_self)
  | cons head tail ih =>
      cases earlier with
      | nil =>
          have here : head = last := Option.some.inj (List.cons.inj same).1
          exact absurd (here.symm ▸ also) (none_ head List.mem_cons_self)
      | cons other rest =>
          exact ih (fun unit member => none_ unit (List.mem_cons_of_mem _ member)) rest
            (List.cons.inj same).2 fun unit member => quiet unit (List.mem_cons_of_mem _ member)

end Keys

/-! ## The kernel on the volume -/

/-- The path of the kernel, `kernel`. -/
def kernelPath : List Nat := [0x6B, 0x65, 0x72, 0x6E, 0x65, 0x6C]

/-- The firmware with a kernel file on its volume. -/
def Firmware.withKernel (fw : Firmware) (file : List UInt8) (small : file.length < 2 ^ 64) :
    Firmware :=
  { fw with kernel := file, kernel_size := small }

/-- The platform without a kernel file on its volume. -/
def Platform.withoutKernel (platform : Platform) : Platform :=
  { platform with openKernel := fun _ => efiNotFound }

/-- `loader_kernel` with what a volume has at the path of the kernel. No volume has a file of 2^64
bytes. -/
def loaderKernelOn (fw : Firmware) (platform : Platform) (volume : Volume) : Boot Jump :=
  match volume kernelPath with
  | none => loaderKernel fw platform.withoutKernel
  | some file =>
      if small : file.length < 2 ^ 64 then loaderKernel (fw.withKernel file small) platform
      else throw .undefined

/-! ## The program -/

/-- `uefi_driver_start` of the driver for the file system. The options of the driver are empty. -/
def uefiDriverStart (system : System) : Pooled Unit := do
  let _ ← uefiDevpathFromPath system.pool system.fromFileHandle system.imageHandle system.driverName
  if !system.loadImage then throw .exit
  if !system.driverProtocol then throw .exit
  if !system.startImage then throw .exit

/-- `uefi_init`. -/
def uefiInit (system : System) : Main Unit := do
  modify fun s => { s with registers := enableNx (loaderPagingWpDisable s.registers) }
  if !system.setWatchdogTimer then throw .exit
  if !system.clearScreen then throw .exit

/-- The driver is started on newer firmware. -/
def efiMainDriver (system : System) : Main Unit :=
  if 1 < system.firmwareRevision >>> 16 then
    zoom Loader.heap (fun heap s => { s with heap := heap }) (uefiDriverStart system)
  else return

/-- `efi_main` up to the choice of a boot mode. -/
def efiMainStart (system : System) : Main Nat := do
  uefiInit system
  efiMainDriver system
  zoom Loader.io (fun io s => { s with io := io }) (uefiIoReconnect system.handles system.guids)
  match bootMode system.keys with
  | .error reason => throw reason
  | .ok c => return c

/-- `net_kernel_load` in the whole program, if that is the boot mode. -/
def efiMainNetboot (system : System) (c : Nat) : Main Unit := do
  if c ≠ netbootMode then return
  let ended ← zoom Loader.net (fun net s => { s with net := net })
    (netKernelLoad system.opening system.globals system.globalsMemory system.turns)
  if !ended then throw .diverged

/-- `efi_main`. A run that returns has reached the jump into the kernel. -/
def efiMain (system : System) : Main Jump := do
  let c ← efiMainStart system
  efiMainNetboot system c
  let s ← get
  zoom Loader.machine (fun machine s => { s with machine := machine })
    (loaderKernelOn system.boot system.platform s.net.net.volume)

/-! ## What a run has done -/

section Runs

variable {system : System} {s t : Loader} {jump : Jump} {c : Nat}

/-- What a run to the jump consists of: the first choice, the network boot if it was chosen, and the
kernel that is on the volume then. -/
structure Booting (system : System) (s : Loader) (mode : Nat) (file : List UInt8)
    (small : file.length < 2 ^ 64) (jump : Jump) (t : Loader) : Prop where
  choice : FirstChoice system.keys mode
  registers : t.registers = enableNx (loaderPagingWpDisable s.registers)
  netboot : mode = netbootMode → netKernelLoad system.opening system.globals system.globalsMemory
    system.turns s.net = .ok true t.net
  disk : mode ≠ netbootMode → t.net = s.net
  found : t.net.net.volume kernelPath = some file
  runs : loaderKernel (system.boot.withKernel file small) system.platform s.machine =
    .ok jump t.machine

end Runs

/-! ## The file that runs -/

/-- The kernel of a file is started: its image is in place, the processor allows what the page tables
ask for, and the last stub arrives at its entry point. -/
structure Starts (file : List UInt8) (jump : Jump) (t : Loader) : Prop where
  image : EntersImage file jump t.machine.mem
  paging : t.registers.Paging
  enters : ∀ source start stop cpu, BeforeJump source jump t.machine.mem start stop cpu →
    ∃ after, cpu.steps source 4 = some after ∧ AtEntry source file jump t.machine.mem after

/-! ## A machine

Older firmware with a disk and an interface, and what a sender sends to all nodes. -/

/-- A kernel on the volume. -/
def kernelVolume : Volume := fun path => if path = kernelPath then some imageFile else none

def sampleSystem (keys : List (Option Nat)) (turns : List PollFirmware) : System where
  setWatchdogTimer := true
  clearScreen := true
  firmwareRevision := 0x10000
  pool := bumpPool
  fromFileHandle _ := return 0x1000
  imageHandle := 1
  driverName := 0x1000
  loadImage := true
  driverProtocol := true
  startImage := true
  handles := busFirmware
  guids := sampleGuids
  keys := keys
  opening := sampleOpenFirmware
  globals := declaredGlobals
  globalsMemory := sampleGlobals
  turns := turns
  boot := imageFirmware
  platform := samplePlatform

def sampleLoader (volume : Volume) : Loader where
  registers := ⟨0x80010033, 0x1000, fun _ => 0⟩
  heap := emptyName
  io := sampleHandles
  net := { samplePollStart with net := { samplePollStart.net with volume := volume } }
  machine := freshMachine

section Whole

variable {system : System} {s t : Loader} {jump : Jump}

theorem Booting.starts {mode : Nat} {file : List UInt8} {small : file.length < 2 ^ 64}
    (booting : Booting system s mode file small jump t) (low : AnswersLow system.boot system.platform)
    (maps : system.boot.MapsFit) (fits : s.machine.MapFits) (kernel : UpperKernel file) :
    Starts file jump t := by
  have answers : AnswersLow (system.boot.withKernel file small) system.platform :=
    ⟨low.pages, low.mode, low.image⟩
  have image := loaderKernel_image (system.boot.withKernel file small) system.platform s.machine
    t.machine jump answers maps fits kernel booting.runs
  refine ⟨image, ?_, fun source start stop cpu before =>
    elfJumpToKernel_enters before kernel image⟩
  rw [booting.registers]
  exact enableNx_paging _

end Whole

/-! ## Newer firmware

The driver is started before the keys are read, and the device path of its file is put together for
that. -/

section Newer

variable {system : System} {s : Loader} {heap : Heap} {length : Nat}

/-- The state after the registers are set up. -/
def Loader.setUp (s : Loader) : Loader :=
  { s with registers := enableNx (loaderPagingWpDisable s.registers) }

theorem uefiInit_run (system : System) (s : Loader) :
    uefiInit system s =
      if system.setWatchdogTimer ∧ system.clearScreen then .ok () s.setUp
      else .error .exit s.setUp := by
  rw [uefiInit, bind_of_ok (modify_run _ _)]
  cases system.setWatchdogTimer <;> cases system.clearScreen <;> rfl

/-- How `uefi_driver_start` ends for a name that is not empty. -/
theorem uefiDriverStart_stops (name : heap.HoldsName system.driverName length)
    (long : length ≠ 0) :
    (uefiDriverStart system heap = .error .exit heap ∧
        system.pool.allocate heap (fileBlockSize length) = none) ∨
      ∃ base stopped, uefiDriverStart system heap = .error .undefined stopped ∧
        system.pool.allocate heap (fileBlockSize length) = some base ∧
        AtExtraUnit heap stopped base system.driverName length := by
  cases granted : system.pool.allocate heap (fileBlockSize length) with
  | none =>
      refine .inl ⟨?_, rfl⟩
      rw [uefiDriverStart, bind_run, uefiDevpathFromPath_refused name granted]
  | some base =>
      obtain ⟨stopped, stops, extra⟩ := fillFileNode_undefined name granted long
      refine .inr ⟨base, stopped, ?_, rfl, extra⟩
      rw [uefiDriverStart, bind_run, uefiDevpathFromPath_run name granted, bind_run, stops]

/-- **On newer firmware the driver's path overruns its block** before anything is connected,
received or loaded. `efi_main` exits if the firmware refuses something up to there. Otherwise it
comes to a store that lies past the end of the block that it was granted, to which the source gives
no meaning, so that nothing is said about what comes after it. -/
theorem efiMain_newer (newer : 1 < system.firmwareRevision >>> 16)
    (name : s.heap.HoldsName system.driverName length) (long : length ≠ 0) :
    ∃ reason stopped, efiMain system s = .error reason stopped ∧
      (reason = .exit ∧ ¬ (system.setWatchdogTimer = true ∧ system.clearScreen = true ∧
          (system.pool.allocate s.heap (fileBlockSize length)).isSome = true) ∨
        reason = .undefined ∧ system.setWatchdogTimer = true ∧ system.clearScreen = true ∧
          ∃ base, system.pool.allocate s.heap (fileBlockSize length) = some base ∧
            AtExtraUnit s.heap stopped.heap base system.driverName length) ∧
      stopped.io = s.io ∧ stopped.net = s.net ∧ stopped.machine = s.machine := by
  by_cases answered : system.setWatchdogTimer = true ∧ system.clearScreen = true
  · have start : ∀ {reason heap}, uefiDriverStart system s.heap = .error reason heap →
        efiMain system s = .error reason { s.setUp with heap := heap } := by
      intro reason heap drive
      have driver : efiMainDriver system s.setUp = .error reason { s.setUp with heap := heap } := by
        rw [efiMainDriver, if_pos newer]
        exact zoom_of_error drive
      rw [efiMain, bind_run, efiMainStart, bind_run, uefiInit_run, if_pos answered]
      dsimp only
      rw [bind_run, driver]
    rcases uefiDriverStart_stops name long with ⟨drive, refused⟩ | ⟨base, heap, drive, granted, extra⟩
    · refine ⟨.exit, _, start drive, .inl ⟨rfl, fun all => ?_⟩, rfl, rfl, rfl⟩
      rw [refused] at all
      exact absurd all.2.2 Bool.false_ne_true
    · exact ⟨.undefined, _, start drive,
        .inr ⟨rfl, answered.1, answered.2, base, granted, extra⟩, rfl, rfl, rfl⟩
  · refine ⟨.exit, s.setUp, ?_, .inl ⟨rfl, fun all => answered ⟨all.1, all.2.1⟩⟩, rfl, rfl, rfl⟩
    rw [efiMain, bind_run, efiMainStart, bind_run, uefiInit_run, if_neg answered]

/-- The firmware of the sample, if it were newer. -/
def newerSystem : System := { sampleSystem [] [] with firmwareRevision := 0x20046 }

/-- The zero unit is stored 44 bytes into a block of 28. -/
theorem efiMain_newer_sample :
    ∃ stopped, efiMain newerSystem { sampleLoader kernelVolume with heap := driverName } =
        .error .undefined stopped ∧
      AtExtraUnit driverName stopped.heap 0x100000 0x1000 9 := by
  have name : driverName.HoldsName 0x1000 9 :=
    ⟨⟨by decide +kernel, by decide +kernel⟩, ⟨0x1000, 20⟩, List.mem_singleton_self _, by decide,
      by decide⟩
  have granted : newerSystem.pool.allocate driverName (fileBlockSize 9) = some 0x100000 := by
    decide +kernel
  obtain ⟨reason, stopped, run, ends, -⟩ :=
    @efiMain_newer newerSystem { sampleLoader kernelVolume with heap := driverName } 9 (by decide)
      name (by decide)
  rcases ends with ⟨-, refused⟩ | ⟨rfl, -, -, base, same, extra⟩
  · exact absurd ⟨rfl, rfl, congrArg Option.isSome granted⟩ refused
  · obtain rfl := Option.some.inj (granted.symm.trans same)
    exact ⟨stopped, run, extra⟩

end Newer

end VineyardLoader
