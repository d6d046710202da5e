import VineyardLoader.Uefi.Platform
import VineyardLoader.Loader.Paging

/-!
# The graphics output

`framebuffer_get` opens the first graphics output, selects a mode, and maps the mode
structures and the frame buffer to themselves.
-/

set_option autoImplicit false

namespace VineyardLoader

variable (fw : Firmware) (platform : Platform)

/-- The loop of `efi_gop_get` over the handles from an index on. -/
def gopLoop : Nat → Nat → Boot (Option Gop)
  | 0, _ => return none
  | remaining + 1, i => do
      match ← orExit (platform.openGop (← get) i) with
      | some gop => return some gop
      | none => gopLoop remaining (i + 1)

/-- `efi_gop_get`. Without an interface the output parameter is never set. -/
def efiGopGet : Boot (Option Gop) := do
  let num ← orExit (platform.gopHandles (← get))
  touchMap fw
  gopLoop platform num 0

/-- The first 13 bytes of `EFI_OVMF_SIGNATURE`. -/
def efiOvmfSignature : List UInt8 :=
  [0x45, 0, 0x44, 0, 0x4B, 0, 0x20, 0, 0x49, 0, 0x49, 0, 0]

/-- Whether the firmware names itself as OVMF does. -/
def isOvmf : Bool :=
  (List.range 13).all fun index => platform.firmwareVendor index == efiOvmfSignature.getD index 0

/-- `SetMode`, whose status is not looked at. -/
def setMode (gop : Gop) (i : Nat) : Boot Unit :=
  modify fun machine => { machine with mode := if gop.setMode i then i else machine.mode }

/-- The loop of `framebuffer_setup` over the modes from an index on. It returns the
selection, or nothing when the OVMF mode has been set. -/
def modeLoop (gop : Gop) : Nat → Nat → Nat → Nat → Nat → Boot (Option Nat)
  | 0, _, _, _, selection => return some selection
  | remaining + 1, i, maxW, maxH, selection => do
      -- the status of the allocation is not looked at
      let _ ← callAllocatePool fw 8
      touchMap fw
      let (width, h) ← orExit (gop.queryMode i)
      if isOvmf platform ∧ width = 800 ∧ h = 600 then
        setMode gop i
        return none
      else if width > maxW ∨ h > maxH then modeLoop gop remaining (i + 1) width h i
      else modeLoop gop remaining (i + 1) maxW maxH selection

/-- `framebuffer_setup`. -/
def framebufferSetup (gop : Gop) : Boot Bool := do
  match ← modeLoop fw platform gop gop.maxMode 0 0 0 0 with
  | none => return true
  | some selection =>
      if !isOvmf platform ∧ selection ≠ 0 then
        setMode gop selection
        return true
      else return false

/-- `framebuffer_get`: the address of the mode structure is returned. -/
def framebufferGet (pml4 : Nat) : Boot Nat := do
  match ← efiGopGet fw platform with
  | none => throw .undefined
  | some gop =>
      let _ ← framebufferSetup fw platform gop
      let mode := gop.mode (← get).mode
      loaderPagingMapAddr fw pml4 mode.address 8 (pagePresent ||| pageWrite)
      loaderPagingMapAddr fw pml4 mode.info 8 (pagePresent ||| pageWrite)
      let framebufferPages :=
        if mode.frameBufferSize % 0x1000 = 0 then mode.frameBufferSize >>> 12
        else (mode.frameBufferSize >>> 12) + 1
      repeatTimes (fun i =>
        let address := (mode.frameBufferBase + (i <<< 12)) % 2 ^ 64
        loaderPagingMap fw pml4 address address (pagePresent ||| pageWrite)) framebufferPages
      return mode.address

end VineyardLoader
