import VineyardLoader.Foundation.Memory
import VineyardLoader.Foundation.Effects

/-!
# The machine under boot services

The loader runs while the firmware's boot services are up. Memory is identity-mapped, so a
pointer is a physical address and the page tables the loader builds are bytes of the same
memory as the segments it loads.

The firmware is a parameter. It decides which pages `AllocatePages` returns, and it may
refuse. What the specification promises about its answers is part of its type: pages are
aligned, below the end of physical memory, and apart from every range it has handed out.
The firmware also keeps the memory map, which every allocation may extend and whose key
every allocation changes.

A call that the loader wraps in `EFIERR` ends the program when it fails. A write outside
the object it goes to has no meaning in the source language, and the program stops there
with `Halt.undefined`.
-/

set_option autoImplicit false

namespace VineyardLoader

/-- The part of `efi_status` that the loader tells apart. -/
inductive EfiStatus where
  | success
  | bufferTooSmall
  | error (code : Nat)
deriving Repr, DecidableEq

/-- `EFI_ERROR`. -/
def EfiStatus.isError : EfiStatus → Bool
  | .success => false
  | .bufferTooSmall => true
  | .error _ => true

/-- Why a program stopped before it returned. -/
inductive Halt where
  /-- `EFIERR`: the error is printed, a key is awaited, and `Exit` leaves the image. -/
  | exit
  /-- `efi_panic`: the message is printed and the processor spins. -/
  | panic (message : String)
  /-- An access that the source language gives no meaning to. -/
  | undefined
  /-- A loop that did not end. -/
  | diverged
  /-- `ResetSystem`, which does not return. -/
  | reset
deriving Repr, DecidableEq

/-- A pool allocation: its address, its size, and the bytes from its address on. The bytes
past the size are those of whatever follows it. -/
structure Block where
  address : Nat
  size : Nat
  bytes : Memory

/-- The firmware's memory map: whole descriptors of one size, at least one of them, under a
key. -/
structure MemoryMap where
  key : Nat
  descriptorSize : Nat
  bytes : List UInt8
  positive : 0 < descriptorSize
  whole : bytes.length % descriptorSize = 0
  nonempty : 0 < bytes.length

/-- A call of `GetMemoryMap` that filled a buffer. -/
structure MapFill where
  buffer : Nat
  key : Nat
  descriptorSize : Nat
  bytes : List UInt8

/-- A call of `Read` on the kernel file: the bytes from a position on, put at an address. -/
structure FileRead where
  position : Nat
  size : Nat
  buffer : Nat
deriving Repr, DecidableEq

/-- The state of the machine while boot services are up. -/
structure Machine where
  /-- Physical memory. -/
  mem : Memory
  /-- The ranges `AllocatePages` has handed out. -/
  allocated : List Extent
  /-- The memory map the firmware keeps. -/
  memoryMap : MemoryMap
  /-- The position in the kernel file. -/
  position : Nat
  /-- The calls of `Read` that went into pages, in order. -/
  reads : List FileRead
  /-- The calls of `GetMemoryMap` that filled a buffer, the latest first. -/
  mapFills : List MapFill
  /-- The key with which `ExitBootServices` succeeded. -/
  exitKey : Option Nat
  /-- The active graphics mode. -/
  mode : Nat

/-- The size of an EFI page. -/
def pageSize : Nat := 0x1000

/-- The end of physical memory: the architecture has 52 address bits. -/
def physicalEnd : Nat := 2 ^ 52

/-- The firmware's answers to the boot service calls of the loader, as functions of the
machine they are asked in. -/
structure Firmware where
  /-- The address of a page allocation, or a refusal. -/
  allocatePages : Machine → Nat → Option Nat
  allocatePages_aligned : ∀ machine pages base, allocatePages machine pages = some base →
    base % pageSize = 0
  allocatePages_below : ∀ machine pages base, allocatePages machine pages = some base →
    base + pages * pageSize ≤ physicalEnd
  allocatePages_fresh : ∀ machine pages base, allocatePages machine pages = some base →
    ∀ extent ∈ machine.allocated, Extent.Disjoint ⟨base, pages * pageSize⟩ extent
  /-- The address and the old contents of a pool allocation, or a refusal. -/
  allocatePool : Machine → Nat → Option (Nat × Memory)
  /-- Whether `FreePool` accepts a block. -/
  freePool : Machine → Bool
  /-- The memory map after an allocation made in the given machine. -/
  mapAfter : Machine → MemoryMap
  mapAfter_key : ∀ machine, (mapAfter machine).key ≠ machine.memoryMap.key
  /-- An error of `GetMemoryMap` other than a buffer that is too small. -/
  mapError : Machine → Option Nat
  /-- What `GetMemoryMap` leaves in the key and the descriptor size when the buffer is too
  small: the specification is silent, and firmware differs. -/
  tooSmall : Machine → Nat → Nat → Nat × Nat
  /-- Whether `ExitBootServices` accepts a key. -/
  acceptsExit : Machine → Nat → Bool
  acceptsExit_current : ∀ machine key, acceptsExit machine key = true →
    key = machine.memoryMap.key
  /-- The kernel file. Its size is a 64-bit number. -/
  kernel : List UInt8
  kernel_size : kernel.length < 2 ^ 64

/-- Programs of the loader. -/
abbrev Boot := EStateM Halt Machine

/-! ## Memory -/

/-- The 64-bit word at an address. -/
def readWord (address : Nat) : Boot Nat := do
  return (← get).mem.load64 address

/-- Store a 64-bit word. -/
def writeWord (address value : Nat) : Boot Unit :=
  modify fun machine => { machine with mem := machine.mem.store64 address value }

/-- Write bytes into an object. Outside the object the write has no meaning. -/
def writeObject (object : Extent) (start size : Nat) (source : Nat → UInt8) : Boot Unit :=
  if size = 0 ∨ (object.start ≤ start ∧ start + size ≤ object.start + object.size) then
    modify fun machine => { machine with mem := machine.mem.overwrite start size source }
  else throw .undefined

@[simp]
theorem readWord_run (address : Nat) (machine : Machine) :
    readWord address machine = .ok (machine.mem.load64 address) machine := rfl

@[simp]
theorem writeWord_run (address value : Nat) (machine : Machine) :
    writeWord address value machine =
      .ok () { machine with mem := machine.mem.store64 address value } := rfl

/-! ## Boot services -/

variable (fw : Firmware)

/-- `AllocatePages` of any pages. -/
def callAllocatePages (pages : Nat) : Boot (Option Nat) := do
  let machine ← get
  match fw.allocatePages machine pages with
  | none => return none
  | some base =>
      set { machine with
        allocated := ⟨base, pages * pageSize⟩ :: machine.allocated
        memoryMap := fw.mapAfter machine }
      return some base

/-- `AllocatePool`. -/
def callAllocatePool (size : Nat) : Boot (Option Block) := do
  let machine ← get
  match fw.allocatePool machine size with
  | none => return none
  | some (address, bytes) =>
      set { machine with memoryMap := fw.mapAfter machine }
      return some ⟨address, size, bytes⟩

/-- The value of a call under `EFIERR`. -/
def orExit {α : Type} : Option α → Boot α
  | some value => return value
  | none => throw .exit

/-- `uefi_alloc_pages`: pages under `EFIERR`, set to zero. -/
def uefiAllocPages (pages : Nat) : Boot Nat := do
  let addr ← orExit (← callAllocatePages fw pages)
  modify fun machine => { machine with mem := machine.mem.fill addr (pages <<< 12) 0 }
  return addr

/-- `malloc`: pool memory under `EFIERR`. -/
def malloc (size : Nat) : Boot Block := do
  orExit (← callAllocatePool fw size)

/-- `free`: a pool block is given back, under `EFIERR`. -/
def free (_block : Block) : Boot Unit := do
  let machine ← get
  if fw.freePool machine then set { machine with memoryMap := fw.mapAfter machine }
  else throw .exit

section Allocation

variable {fw} {machine final : Machine} {pages : Nat}

/-- The machine after a page allocation at the given address. -/
def Machine.withPages (fw : Firmware) (machine : Machine) (base pages : Nat) : Machine :=
  { machine with
    allocated := ⟨base, pages * pageSize⟩ :: machine.allocated
    memoryMap := fw.mapAfter machine }

theorem callAllocatePages_some {base : Nat} (granted : fw.allocatePages machine pages = some base) :
    callAllocatePages fw pages machine = .ok (some base) (machine.withPages fw base pages) := by
  simp only [callAllocatePages, bind_run, get_run, granted]
  rfl

theorem callAllocatePages_none (refused : fw.allocatePages machine pages = none) :
    callAllocatePages fw pages machine = .ok none machine := by
  simp only [callAllocatePages, bind_run, get_run, refused]
  rfl

/-- A zeroed allocation returns pages the firmware granted. -/
theorem uefiAllocPages_ok {addr : Nat} :
    uefiAllocPages fw pages machine = .ok addr final ↔
      fw.allocatePages machine pages = some addr ∧
        final = { machine.withPages fw addr pages with
          mem := machine.mem.fill addr (pages <<< 12) 0 } := by
  cases granted : fw.allocatePages machine pages with
  | none =>
      simp [uefiAllocPages, bind_run, callAllocatePages_none granted, orExit]
  | some base =>
      simp only [uefiAllocPages, bind_run, callAllocatePages_some granted, orExit, pure_run,
        modify_run, EStateM.Result.ok.injEq, Option.some.injEq]
      constructor
      · rintro ⟨rfl, rfl⟩
        exact ⟨rfl, rfl⟩
      · rintro ⟨rfl, rfl⟩
        exact ⟨rfl, rfl⟩

/-- A zeroed allocation stops only when the firmware refuses. -/
theorem uefiAllocPages_error {reason : Halt} :
    uefiAllocPages fw pages machine = .error reason final ↔
      fw.allocatePages machine pages = none ∧ reason = .exit ∧ final = machine := by
  cases granted : fw.allocatePages machine pages with
  | none =>
      simp [uefiAllocPages, bind_run, callAllocatePages_none granted, orExit, eq_comm]
  | some base =>
      simp only [uefiAllocPages, bind_run, callAllocatePages_some granted, orExit, pure_run,
        modify_run, reduceCtorEq, false_and]

end Allocation

/-! ## The kernel file -/

/-- `SetPosition`. The largest position stands for the end of the file. -/
def setPosition (position : Nat) : Boot Unit :=
  modify fun machine =>
    { machine with
      position := if position = 2 ^ 64 - 1 then fw.kernel.length else position }

/-- `Read`: the bytes from the position on, as many as asked for and as the file has. Past
the end of the file it is a device error, and at the end it is empty. -/
def readFile (size : Nat) : Boot (EfiStatus × List UInt8) := do
  let machine ← get
  if fw.kernel.length < machine.position then return (.error 7, [])
  else
    let data := (fw.kernel.drop machine.position).take size
    set { machine with position := machine.position + data.length }
    return (.success, data)

/-- The bytes of the file that a read of the given size at the given position gives. -/
def Firmware.fileBytes (position size : Nat) : List UInt8 :=
  let position := if position = 2 ^ 64 - 1 then fw.kernel.length else position
  if fw.kernel.length < position then [] else (fw.kernel.drop position).take size

/-- A read at a position changes nothing but the position. -/
theorem setPosition_readFile {α : Type} (position size : Nat) (machine : Machine)
    (rest : EfiStatus × List UInt8 → Boot α) :
    ∃ status stopped,
      (do setPosition fw position; let result ← readFile fw size; rest result) machine =
        rest (status, fw.fileBytes position size) { machine with position := stopped } := by
  have moved : setPosition fw position machine = .ok () { machine with
      position := if position = 2 ^ 64 - 1 then fw.kernel.length else position } := rfl
  rw [bind_of_ok moved, Firmware.fileBytes]
  by_cases past : fw.kernel.length < (if position = 2 ^ 64 - 1 then fw.kernel.length else position)
  · simp only [bind_run, readFile, get_run, if_pos past, pure_run]
    exact ⟨.error 7, _, rfl⟩
  · simp only [bind_run, readFile, get_run, if_neg past]
    exact ⟨.success, _, rfl⟩

/-- A read gives at most what was asked for. -/
theorem Firmware.fileBytes_length (position size : Nat) :
    (fw.fileBytes position size).length ≤ size := by
  simp only [fileBytes]
  generalize (if position = 2 ^ 64 - 1 then fw.kernel.length else position) = start
  split
  · exact Nat.zero_le _
  · exact List.length_take_le _ _

/-- A read inside the file gives the bytes of the file. -/
theorem Firmware.fileBytes_inside {position size : Nat}
    (inside : position + size ≤ fw.kernel.length) :
    (fw.fileBytes position size).length = size ∧
      ∀ index, index < size →
        (fw.fileBytes position size).getD index 0 = fw.kernel.getD (position + index) 0 := by
  have bounded := fw.kernel_size
  unfold fileBytes
  by_cases last : position = 2 ^ 64 - 1
  · -- the largest position stands for the end, where nothing is left to read
    obtain rfl : size = 0 := by omega
    simp [last]
  · rw [if_neg last, if_neg (by omega)]
    refine ⟨by simp; omega, fun index below => ?_⟩
    simp [List.getD, below]

/-! ## What the calls leave alone -/

section Keeps

variable {fw} {π : Type} {part : Machine → π}

theorem callAllocatePool_keeps
    (ignoresMap : ∀ machine map, part { machine with memoryMap := map } = part machine)
    (size : Nat) : Keeps part (callAllocatePool fw size) := by
  intro machine
  rw [callAllocatePool, bind_of_ok (get_run _)]
  cases granted : fw.allocatePool machine size with
  | none => rfl
  | some pool => exact ignoresMap _ _

theorem orExit_keeps {α : Type} : ∀ answer : Option α, Keeps part (orExit answer)
  | some value => Keeps.pure value
  | none => Keeps.throw _

theorem free_keeps
    (ignoresMap : ∀ machine map, part { machine with memoryMap := map } = part machine)
    (block : Block) : Keeps part (free fw block) := by
  intro machine
  rw [free, bind_of_ok (get_run _)]
  split
  · exact ignoresMap _ _
  · rfl

theorem setPosition_keeps
    (ignoresPosition : ∀ machine place, part { machine with position := place } = part machine)
    (position : Nat) : Keeps part (setPosition fw position) :=
  Keeps.modify fun machine => ignoresPosition machine _

theorem readFile_keeps
    (ignoresPosition : ∀ machine place, part { machine with position := place } = part machine)
    (size : Nat) : Keeps part (readFile fw size) := by
  intro machine
  rw [readFile, bind_of_ok (get_run _)]
  split
  · rfl
  · exact ignoresPosition _ _

end Keeps

/-! ## A firmware -/

/-- The first page boundary past every range handed out, and past the first megabyte. -/
def firstFree (machine : Machine) : Nat :=
  ((machine.allocated.map fun extent => extent.start + extent.size).foldl max 0x100000
    + pageSize - 1) / pageSize * pageSize

theorem le_foldl_max {value : Nat} :
    ∀ {values : List Nat} {start : Nat}, value ∈ values ∨ value ≤ start →
      value ≤ values.foldl max start := by
  intro values
  induction values with
  | nil =>
      rintro start (member | below)
      · simp at member
      · exact below
  | cons first rest ih =>
      rintro start (member | below)
      · rcases List.mem_cons.mp member with rfl | later
        · exact ih (.inr (Nat.le_max_right start value))
        · exact ih (.inl later)
      · exact ih (.inr (below.trans (Nat.le_max_left start first)))

theorem firstFree_aligned (machine : Machine) : firstFree machine % pageSize = 0 :=
  Nat.mul_mod_left _ _

/-- Everything that was handed out ends before the first free page. -/
theorem le_firstFree {machine : Machine} {extent : Extent} (member : extent ∈ machine.allocated) :
    extent.start + extent.size ≤ firstFree machine := by
  have past : extent.start + extent.size ≤
      (machine.allocated.map fun extent => extent.start + extent.size).foldl max 0x100000 :=
    le_foldl_max (.inl (List.mem_map_of_mem member))
  simp only [firstFree, pageSize]
  omega

/-- A firmware that hands out pages from low to high addresses until memory ends, and whose
map keeps its descriptors. -/
def bumpFirmware (kernel : List UInt8) (small : kernel.length < 2 ^ 64) : Firmware where
  allocatePages machine pages :=
    if firstFree machine + pages * pageSize ≤ physicalEnd then some (firstFree machine) else none
  allocatePages_aligned machine pages base granted := by
    split at granted
    · cases granted
      exact firstFree_aligned machine
    · cases granted
  allocatePages_below machine pages base granted := by
    split at granted
    · rename_i fits
      cases granted
      exact fits
    · cases granted
  allocatePages_fresh machine pages base granted := by
    split at granted
    · cases granted
      intro extent member
      exact (Extent.disjoint_of_le (.inl (le_firstFree member))).symm
    · cases granted
  allocatePool machine _ := some (firstFree machine, fun _ => 0xAA)
  freePool _ := true
  mapAfter machine :=
    { machine.memoryMap with key := machine.memoryMap.key + 1 }
  mapAfter_key machine := by simp
  mapError _ := none
  tooSmall machine _ _ := (machine.memoryMap.key, machine.memoryMap.descriptorSize)
  acceptsExit machine key := key == machine.memoryMap.key
  acceptsExit_current machine key accepted := by simpa using accepted
  kernel := kernel
  kernel_size := small

/-- A machine with nothing allocated whose memory holds one byte everywhere. -/
def freshMachine : Machine where
  mem := fun _ => 0xAA
  allocated := []
  memoryMap := ⟨1, 48, List.replicate 96 0, by decide, by simp, by simp⟩
  position := 0
  reads := []
  mapFills := []
  exitKey := none
  mode := 0

end VineyardLoader
