import VineyardLoader.Loader.Framebuffer
import VineyardLoader.Loader.Phdrs

/-!
# Starting the kernel

`loader_kernel` from the first page table to the jump. The info page that the kernel
receives is a record of its fields. The last step before the jump fetches the memory map and
leaves boot services, and its status is not looked at.
-/

set_option autoImplicit false

namespace VineyardLoader

/-- `info_t`. -/
structure Info where
  image : LoadedImage := ⟨0, 0⟩
  efiMemoryMap : Nat := 0
  efiMemoryMapEntries : Nat := 0
  efiMemoryMapKey : Nat := 0
  efiMemoryMapDescriptorSize : Nat := 0
  rsdp : Nat := 0
  gopMode : Nat := 0
  copy : Nat := 0
  copySize : Nat := 0
deriving Repr, DecidableEq

/-- What `elf_jump_to_kernel` receives. -/
structure Jump where
  info : Info
  entry : Nat
  pml4 : Nat
deriving Repr, DecidableEq

def stackBase : Nat := 0xFFFFFE0000000000
def stackSize : Nat := 0x21000

variable (fw : Firmware) (platform : Platform)

/-- `loader_parse_header`: the first 64 bytes of the file over the old contents of the
header. -/
def loaderParseHeader : Boot Elf64Ehdr := do
  let (status, data) ← readFile fw 64
  efiErr (!status.isError)
  return readEhdr (platform.stackHeader.overwrite 0 data.length (bytesOf data))

/-- The number of pages for a memory map of a size, with one to spare. -/
def mapPages (size : Nat) : Nat := ((size + 0xFFF) % 2 ^ 64) / 0x1000 + 1

/-- The part of `efi_get_memory_map` with the buffer in place: the map is fetched with the
size from before, and boot services are left. -/
def fetchMemoryMap (info : Info) (arguments : MapAnswer) : Boot (EfiStatus × Info) := do
  let (status, answer) ← callGetMemoryMap fw info.efiMemoryMap arguments
  let info := { info with efiMemoryMapKey := answer.key }
  if status.isError ∧ status ≠ .bufferTooSmall then return (status, info)
  -- the division by the size of a descriptor
  if answer.descriptorSize = 0 then throw .undefined
  exitBootServices fw answer.key
  return (.success, { info with
    efiMemoryMapEntries := answer.size / answer.descriptorSize
    efiMemoryMapDescriptorSize := answer.descriptorSize })

/-- `efi_get_memory_map`: the status, and the info page as the function leaves it. -/
def efiGetMemoryMap (info : Info) (pml4 : Nat) : Boot (EfiStatus × Info) := do
  let (status, answer) ←
    callGetMemoryMap fw info.efiMemoryMap ⟨0, info.efiMemoryMapKey, platform.stackDescriptorSize⟩
  let info := { info with efiMemoryMapKey := answer.key }
  if status.isError ∧ status ≠ .bufferTooSmall then return (status, info)
  let pages := mapPages answer.size
  match ← callAllocatePages fw pages with
  | none => return (.error 9, info)
  | some buffer =>
      loaderPagingMapAddr fw pml4 buffer (pages <<< 12) (pageWrite ||| pagePresent)
      fetchMemoryMap fw { info with efiMemoryMap := buffer } answer

/-- `loader_kernel` up to the memory map. -/
def loaderKernelPrepare : Boot Jump := do
  let pml4 ← loaderPagingSetup fw
  fsOpen platform
  let fileInfo ← fsGetFileInfo fw platform
  -- `FileSize`
  let fileSize := fileInfo.bytes.load64 8
  let copy ← malloc fw fileSize
  let copy ← fsRead fw fileSize 0 copy
  let header ← loaderParseHeader fw platform
  elfHeaderCheck header
  loaderKernelPhdrs fw header pml4
  if (platform.closeKernel (← get)).isError then throw (.panic "error closing kernel file")
  let stack ← uefiAllocPages fw 33
  let info ← uefiAllocPages fw 1
  loaderPagingMap fw pml4 info info (pageWrite ||| pagePresent)
  repeatTimes (fun i =>
    loaderPagingMap fw pml4 (stack + (i <<< 12)) (stackBase + (i <<< 12))
      (pagePresent ||| pageWrite ||| pageNx)) 33
  writeWord (stack + stackSize - 8 * 4) info
  let gopMode ← framebufferGet fw platform pml4
  let image ← efiGetImage platform
  let pages := if image.imageSize % 0x1000 = 0 then image.imageSize >>> 12
    else (image.imageSize >>> 12) + 1
  repeatTimes (fun i =>
    let address := (image.imageBase + (i <<< 12)) % 2 ^ 64
    loaderPagingMap fw pml4 address address (pagePresent ||| pageWrite)) pages
  return {
    info := {
      image := image
      rsdp := (efiGetRsdp platform).getD 0
      gopMode := gopMode
      copy := copy.address
      copySize := fileSize }
    entry := header.eEntry
    pml4 := pml4 }

/-- `loader_kernel`: a run that returns has reached the jump. -/
def loaderKernel : Boot Jump := do
  let jump ← loaderKernelPrepare fw platform
  let (_, info) ← efiGetMemoryMap fw platform jump.info jump.pml4
  return { jump with info := info }

end VineyardLoader
