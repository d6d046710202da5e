import VineyardLoader.Uefi.Machine

/-!
# Volumes, graphics and tables of the platform

What the loader asks of the firmware besides memory: the volume with the kernel file, the
graphics output, its own image and the configuration tables. A `Platform` holds the answers,
as functions of the machine they are asked in. Calls that hand out a buffer allocate it, so
they change the memory map.
-/

set_option autoImplicit false

namespace VineyardLoader

/-! ## Answers -/

/-- `efi_graphics_output_mode`: where the structure and its `Info` lie, and the frame buffer. -/
structure GopMode where
  address : Nat
  info : Nat
  frameBufferBase : Nat
  frameBufferSize : Nat
deriving Repr, DecidableEq

/-- `efi_graphics_output_protocol`. -/
structure Gop where
  maxMode : Nat
  /-- The resolution that `QueryMode` reports, or an error. -/
  queryMode : Nat → Option (Nat × Nat)
  /-- Whether `SetMode` succeeds. -/
  setMode : Nat → Bool
  /-- The mode structure while a mode is active. -/
  mode : Nat → GopMode

/-- `efi_loaded_image_protocol`, the fields the loader reads. -/
structure LoadedImage where
  imageBase : Nat
  imageSize : Nat
deriving Repr, DecidableEq

/-- The answers of the platform. -/
structure Platform where
  loadedImage : Machine → Option LoadedImage
  fileSystem : Machine → Bool
  openVolume : Machine → Bool
  openKernel : Machine → EfiStatus
  closeKernel : Machine → EfiStatus
  /-- The status and the length of the first `GetInfo`. -/
  fileInfoLength : Machine → EfiStatus × Nat
  /-- The buffer after the second `GetInfo`. -/
  fileInfo : Machine → Block → Memory
  /-- The number of handles with a graphics output. -/
  gopHandles : Machine → Option Nat
  /-- `OpenProtocol` on a handle: an error, no interface, or an interface. -/
  openGop : Machine → Nat → Option (Option Gop)
  /-- The text at `FirmwareVendor`. -/
  firmwareVendor : Memory
  /-- The configuration tables: a GUID and a pointer each. -/
  configurationTable : List (Nat × Nat)
  /-- The old contents of the ELF header on the stack. -/
  stackHeader : Memory
  /-- The old contents of `descriptor_size` on the stack. -/
  stackDescriptorSize : Nat

variable (fw : Firmware) (platform : Platform)

/-- A call that hands out a buffer changes the memory map. -/
def touchMap : Boot Unit :=
  modify fun machine => { machine with memoryMap := fw.mapAfter machine }

/-- A status under `EFIERR`. -/
def efiErr (succeeded : Bool) : Boot Unit :=
  if succeeded then return else throw .exit

/-! ## Files -/

/-- `fs_open` of the kernel. -/
def fsOpen : Boot Unit := do
  let machine ← get
  efiErr (platform.loadedImage machine).isSome
  efiErr (platform.fileSystem machine)
  efiErr (platform.openVolume machine)
  if platform.openKernel machine ≠ .success then throw (.panic "file not found\n")

/-- `fs_get_file_info`. The status of the second `GetInfo` is not looked at. -/
def fsGetFileInfo : Boot Block := do
  let (status, length) := platform.fileInfoLength (← get)
  if status ≠ .success ∧ status ≠ .bufferTooSmall then throw (.panic "couldn't get file info")
  let fileInfo ← malloc fw length
  return { fileInfo with bytes := platform.fileInfo (← get) fileInfo }

/-- `fs_read` of the kernel file into a block: the block as the read leaves it. -/
def fsRead (length offset : Nat) (buffer : Block) : Boot Block := do
  setPosition fw offset
  let (status, data) ← readFile fw length
  efiErr (!status.isError)
  setPosition fw 0
  return { buffer with bytes := buffer.bytes.overwrite 0 data.length fun index => data.getD index 0 }

/-! ## Image and tables -/

/-- `efi_get_image`. -/
def efiGetImage : Boot LoadedImage := do
  orExit (platform.loadedImage (← get))

/-- `ACPI_20_TABLE_GUID`. -/
def acpi20TableGuid : Nat := 0x8868e871e4f111d3bc220080c73c8881

/-- `efi_get_rsdp`: the first table with the GUID. -/
def efiGetRsdp : Option Nat :=
  (platform.configurationTable.find? fun table => table.1 = acpi20TableGuid).map Prod.snd

/-! ## The memory map -/

/-- What `GetMemoryMap` leaves in its output parameters. -/
structure MapAnswer where
  size : Nat
  key : Nat
  descriptorSize : Nat
deriving Repr, DecidableEq

/-- `GetMemoryMap`. A buffer that is too small is left alone, and the size is the size that
is needed. -/
def callGetMemoryMap (buffer : Nat) (arguments : MapAnswer) : Boot (EfiStatus × MapAnswer) := do
  let machine ← get
  match fw.mapError machine with
  | some code => return (.error code, arguments)
  | none =>
      let map := machine.memoryMap
      if arguments.size < map.bytes.length then
        let (key, descriptorSize) := fw.tooSmall machine arguments.key arguments.descriptorSize
        return (.bufferTooSmall, ⟨map.bytes.length, key, descriptorSize⟩)
      else
        set { machine with
          mem := machine.mem.overwrite buffer map.bytes.length fun index => map.bytes.getD index 0
          mapFills := ⟨buffer, map.key, map.descriptorSize, map.bytes⟩ :: machine.mapFills }
        return (.success, ⟨map.bytes.length, map.key, map.descriptorSize⟩)

/-- `ExitBootServices` under `EFIERR`. -/
def exitBootServices (key : Nat) : Boot Unit := do
  let machine ← get
  if fw.acceptsExit machine key then set { machine with exitKey := some key }
  else throw .exit

end VineyardLoader
