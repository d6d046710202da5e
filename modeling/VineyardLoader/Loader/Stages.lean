import VineyardLoader.Loader.AddressSpace
import VineyardLoader.Loader.Kernel

/-!
# The stages of `loader_kernel`

`loader_kernel` opens the kernel file and reads its header, checks the header, loads the
segments, sets up what the kernel is handed, and fetches the memory map. This module cuts it
into these stages (`loaderKernel_eq`), so that a run can be followed stage by stage.

The loops that map ranges of memory become sequences of calls of `loader_paging_map`. There
are two ways to count the pages of a range. `loader_paging_map_addr` takes the pages from the
start to the end of the range, the page after the range included where the range ends with a
page (`addrCalls`). The frame buffer and the image of the loader are counted by their size
(`sizeCalls`).
-/

set_option autoImplicit false

namespace VineyardLoader

/-! ## Sequences of calls -/

/-- The flags of a range that is mapped to itself. -/
def identityFlags : Nat := pagePresent ||| pageWrite

/-- The calls of `loader_paging_map_addr`. -/
def rangeCalls (start length flags : Nat) : List MapCall :=
  (List.range ((1 + (((start + length) % 2 ^ 64) >>> 12 + 2 ^ 64 - start >>> 12)) % 2 ^ 64)).map
    fun i =>
      ⟨((start &&& 0x000FFFFFFFFFF000) + (i <<< 12)) % 2 ^ 64,
        ((start &&& 0x000FFFFFFFFFF000) + (i <<< 12)) % 2 ^ 64, flags⟩

/-- The calls of `loader_paging_map_addr` for a range that is present and writable. -/
def addrCalls (start length : Nat) : List MapCall := rangeCalls start length identityFlags

/-- The calls of a loop over a range counted by its size. -/
def sizeCalls (base size : Nat) : List MapCall :=
  (List.range (if size % 0x1000 = 0 then size >>> 12 else (size >>> 12) + 1)).map fun i =>
    ⟨(base + (i <<< 12)) % 2 ^ 64, (base + (i <<< 12)) % 2 ^ 64, identityFlags⟩

/-- The calls for the stack of the kernel. -/
def stackCalls (stack : Nat) : List MapCall :=
  (List.range 33).map fun i =>
    ⟨stack + (i <<< 12), stackBase + (i <<< 12), pagePresent ||| pageWrite ||| pageNx⟩

/-- The calls of `framebuffer_get`. -/
def modeCalls (mode : GopMode) : List MapCall :=
  addrCalls mode.address 8 ++ (addrCalls mode.info 8 ++
    sizeCalls mode.frameBufferBase mode.frameBufferSize)

variable {fw : Firmware} {platform : Platform} {pml4 : Nat}

theorem loaderPagingMapAll_append (first second : List MapCall) :
    loaderPagingMapAll fw pml4 (first ++ second) = (do
      loaderPagingMapAll fw pml4 first
      loaderPagingMapAll fw pml4 second) := by
  simp [loaderPagingMapAll]

/-- A counted loop of calls is the sequence of its calls. -/
theorem repeatTimes_eq_loaderPagingMapAll (call : Nat → MapCall) (count : Nat) :
    repeatTimes (fun i => loaderPagingMap fw pml4 (call i).physical (call i).virtual
      (call i).flags) count = loaderPagingMapAll fw pml4 ((List.range count).map call) := by
  rw [repeatTimes_eq_forM, loaderPagingMapAll, List.forM_eq_forM, List.forM_eq_forM,
    List.forM_map]

theorem loaderPagingMapAddr_eq_rangeCalls (start length flags : Nat) :
    loaderPagingMapAddr fw pml4 start length flags =
      loaderPagingMapAll fw pml4 (rangeCalls start length flags) := by
  rw [rangeCalls, ← repeatTimes_eq_loaderPagingMapAll]
  rfl

theorem loaderPagingMapAddr_eq (start length : Nat) :
    loaderPagingMapAddr fw pml4 start length identityFlags =
      loaderPagingMapAll fw pml4 (addrCalls start length) :=
  loaderPagingMapAddr_eq_rangeCalls start length identityFlags

/-! ## Stages -/

/-- What `loader_kernel` has when it comes to the check of the header. -/
structure Opened where
  pml4 : Nat
  copy : Block
  fileSize : Nat
  header : Elf64Ehdr

/-- The first stage: new tables, the kernel file with a copy of it, and its header. -/
def loaderKernelOpen (fw : Firmware) (platform : Platform) : Boot Opened := do
  let pml4 ← loaderPagingSetup fw
  fsOpen platform
  let fileInfo ← fsGetFileInfo fw platform
  let fileSize := fileInfo.bytes.load64 8
  let copy ← malloc fw fileSize
  let copy ← fsRead fw fileSize 0 copy
  let header ← loaderParseHeader fw platform
  return ⟨pml4, copy, fileSize, header⟩

/-- The mode that `framebuffer_get` maps. -/
def framebufferMode (fw : Firmware) (platform : Platform) : Boot GopMode := do
  match ← efiGopGet fw platform with
  | none => throw .undefined
  | some gop =>
      let _ ← framebufferSetup fw platform gop
      return gop.mode (← get).mode

/-- The objects that are mapped for the kernel. -/
structure Objects where
  stack : Nat
  info : Nat
  mode : GopMode
  image : LoadedImage
deriving Repr, DecidableEq

/-- The stage after the segments: the file is closed, and the stack, the info page, the mode
and the image of the loader are mapped. -/
def loaderKernelSetUp (fw : Firmware) (platform : Platform) (pml4 : Nat) : Boot Objects := do
  if (platform.closeKernel (← get)).isError then throw (.panic "error closing kernel file")
  let stack ← uefiAllocPages fw 33
  let info ← uefiAllocPages fw 1
  loaderPagingMapAll fw pml4 (⟨info, info, identityFlags⟩ :: stackCalls stack)
  writeWord (stack + stackSize - 8 * 4) info
  let mode ← framebufferMode fw platform
  loaderPagingMapAll fw pml4 (modeCalls mode)
  let image ← efiGetImage platform
  loaderPagingMapAll fw pml4 (sizeCalls image.imageBase image.imageSize)
  return ⟨stack, info, mode, image⟩

/-- What the jump is given. -/
def Opened.jump (platform : Platform) (opened : Opened) (objects : Objects) : Jump where
  info := {
    image := objects.image
    rsdp := (efiGetRsdp platform).getD 0
    gopMode := objects.mode.address
    copy := opened.copy.address
    copySize := opened.fileSize }
  entry := opened.header.eEntry
  pml4 := opened.pml4

/-- The stages from the segments on. -/
def loaderKernelLoad (fw : Firmware) (platform : Platform) (opened : Opened) : Boot Jump := do
  loaderKernelPhdrs fw opened.header opened.pml4
  let objects ← loaderKernelSetUp fw platform opened.pml4
  let jump := opened.jump platform objects
  let (_, info) ← efiGetMemoryMap fw platform jump.info jump.pml4
  return { jump with info := info }

theorem framebufferGet_eq :
    framebufferGet fw platform pml4 = (do
      let mode ← framebufferMode fw platform
      loaderPagingMapAll fw pml4 (modeCalls mode)
      return mode.address) := by
  rw [framebufferGet, framebufferMode, bind_assoc]
  apply congrArg (efiGopGet fw platform >>= ·)
  funext answer
  cases answer with
  | none => rfl
  | some gop =>
      simp only [bind_assoc, pure_bind, modeCalls, loaderPagingMapAll_append,
        ← loaderPagingMapAddr_eq, sizeCalls, ← repeatTimes_eq_loaderPagingMapAll]
      rfl

theorem loaderPagingMapAll_stackCalls (info stack : Nat) :
    loaderPagingMapAll fw pml4 (⟨info, info, identityFlags⟩ :: stackCalls stack) = (do
      loaderPagingMap fw pml4 info info (pageWrite ||| pagePresent)
      repeatTimes (fun i =>
        loaderPagingMap fw pml4 (stack + (i <<< 12)) (stackBase + (i <<< 12))
          (pagePresent ||| pageWrite ||| pageNx)) 33) := by
  rw [loaderPagingMapAll, List.forM_eq_forM, List.forM_cons, ← List.forM_eq_forM,
    ← loaderPagingMapAll, stackCalls, ← repeatTimes_eq_loaderPagingMapAll]
  rfl

theorem loaderPagingMapAll_sizeCalls (base size : Nat) :
    loaderPagingMapAll fw pml4 (sizeCalls base size) = repeatTimes (fun i =>
      loaderPagingMap fw pml4 ((base + (i <<< 12)) % 2 ^ 64) ((base + (i <<< 12)) % 2 ^ 64)
        (pagePresent ||| pageWrite))
      (if size % 0x1000 = 0 then size >>> 12 else (size >>> 12) + 1) := by
  rw [sizeCalls, ← repeatTimes_eq_loaderPagingMapAll]
  rfl

/-- **`loader_kernel` is its stages, one after the other.** -/
theorem loaderKernel_eq :
    loaderKernel fw platform = (do
      let opened ← loaderKernelOpen fw platform
      elfHeaderCheck opened.header
      loaderKernelLoad fw platform opened) := by
  simp only [loaderKernel, loaderKernelPrepare, loaderKernelOpen, loaderKernelLoad,
    loaderKernelSetUp, framebufferGet_eq, bind_assoc, pure_bind, loaderPagingMapAll_stackCalls,
    loaderPagingMapAll_sizeCalls, ite_bind, Opened.jump]

/-! ## What the stages leave alone -/

section Keeps

variable {π : Type} {part : Machine → π}

theorem efiErr_keeps (succeeded : Bool) : Keeps part (efiErr succeeded) :=
  Keeps.ite (fun _ => Keeps.pure _) fun _ => Keeps.throw _

theorem fsOpen_keeps : Keeps part (fsOpen platform) := by
  refine Keeps.get.bind fun machine => (efiErr_keeps _).bind fun _ => ?_
  refine (efiErr_keeps _).bind fun _ => (efiErr_keeps _).bind fun _ => ?_
  exact Keeps.ite (fun _ => Keeps.throw _) fun _ => Keeps.pure _

theorem elfHeaderCheck_keeps (header : Elf64Ehdr) : Keeps part (elfHeaderCheck header) := by
  refine Keeps.check (Keeps.check (Keeps.check (Keeps.check (Keeps.check (Keeps.check ?_)))))
  exact Keeps.ite (fun _ => Keeps.throw _) fun _ => Keeps.pure _

theorem gopLoop_keeps : ∀ remaining i, Keeps part (gopLoop platform remaining i)
  | 0, _ => Keeps.pure _
  | remaining + 1, i => by
      refine Keeps.get.bind fun machine => (orExit_keeps _).bind fun answer => ?_
      cases answer with
      | none => exact gopLoop_keeps remaining (i + 1)
      | some gop => exact Keeps.pure _

section Position

variable (ignoresPosition : ∀ machine place,
  part { machine with position := place } = part machine)
include ignoresPosition

theorem fsRead_keeps (length offset : Nat) (buffer : Block) :
    Keeps part (fsRead fw length offset buffer) := by
  refine (setPosition_keeps ignoresPosition _).bind fun _ => ?_
  refine (readFile_keeps ignoresPosition _).bind fun result => (efiErr_keeps _).bind fun _ => ?_
  exact (setPosition_keeps ignoresPosition _).bind fun _ => Keeps.pure _

theorem loaderParseHeader_keeps : Keeps part (loaderParseHeader fw platform) := by
  refine (readFile_keeps ignoresPosition _).bind fun result => ?_
  exact (efiErr_keeps _).bind fun _ => Keeps.pure _

end Position

section Map

variable (ignoresMap : ∀ machine map, part { machine with memoryMap := map } = part machine)
include ignoresMap

theorem malloc_keeps (size : Nat) : Keeps part (malloc fw size) :=
  (callAllocatePool_keeps ignoresMap size).bind orExit_keeps

theorem touchMap_keeps : Keeps part (touchMap fw) :=
  Keeps.modify fun machine => ignoresMap machine _

theorem fsGetFileInfo_keeps : Keeps part (fsGetFileInfo fw platform) := by
  refine Keeps.get.bind fun machine => Keeps.check ?_
  exact (malloc_keeps ignoresMap _).bind fun _ => Keeps.get.bind fun _ => Keeps.pure _

theorem efiGopGet_keeps : Keeps part (efiGopGet fw platform) :=
  Keeps.get.bind fun _ => (orExit_keeps _).bind fun _ =>
    (touchMap_keeps ignoresMap).bind fun _ => gopLoop_keeps _ _

variable (ignoresMode : ∀ machine active, part { machine with mode := active } = part machine)
include ignoresMode

theorem modeLoop_keeps (gop : Gop) : ∀ remaining i maxW maxH selection,
    Keeps part (modeLoop fw platform gop remaining i maxW maxH selection)
  | 0, _, _, _, _ => Keeps.pure _
  | remaining + 1, i, maxW, maxH, selection => by
      refine (callAllocatePool_keeps ignoresMap _).bind fun _ => ?_
      refine (touchMap_keeps ignoresMap).bind fun _ => (orExit_keeps _).bind fun resolution => ?_
      refine Keeps.ite (fun _ => ?_) fun _ => Keeps.ite (fun _ => ?_) fun _ => ?_
      · exact Keeps.bind (Keeps.modify fun _ => ignoresMode _ _) fun _ => Keeps.pure _
      · exact modeLoop_keeps gop remaining _ _ _ _
      · exact modeLoop_keeps gop remaining _ _ _ _

theorem framebufferSetup_keeps (gop : Gop) : Keeps part (framebufferSetup fw platform gop) := by
  refine (modeLoop_keeps ignoresMap ignoresMode gop _ _ _ _ _).bind fun answer => ?_
  cases answer with
  | none => exact Keeps.pure _
  | some selection =>
      refine Keeps.ite (fun _ => ?_) fun _ => Keeps.pure _
      exact Keeps.bind (Keeps.modify fun _ => ignoresMode _ _) fun _ => Keeps.pure _

end Map

end Keeps

end VineyardLoader
