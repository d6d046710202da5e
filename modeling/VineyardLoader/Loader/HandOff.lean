import VineyardLoader.Loader.Image
import VineyardLoader.Loader.Stages

/-!
# Handing over the memory map

The kernel should receive the memory map that the firmware had when it left boot services:
descriptors written by a `GetMemoryMap` whose key `ExitBootServices` accepted. The loader
measures the map, allocates a buffer and extends the page tables, and fetches the map with
the size from before. `GetMemoryMap` errors are returned to a caller that does not look at
them, and a buffer that has become too small is not an error to the loader.

Until the map is fetched nothing writes to the log of the map (`loaderKernelPrepare_keeps`).
The hand-off is right exactly when the firmware behaves as `Fetchable` says
(`loaderKernel_handedOff_iff`).
-/

set_option autoImplicit false

namespace VineyardLoader

variable {fw : Firmware} {platform : Platform} {pml4 : Nat}

/-- What the hand-off depends on: the fills of the map, and the key of the exit. -/
def Machine.handOff (machine : Machine) : List MapFill × Option Nat :=
  (machine.mapFills, machine.exitKey)

/-! ## Before the map is fetched -/

section Keeps

theorem callAllocatePages_keeps (pages : Nat) :
    Keeps Machine.handOff (callAllocatePages fw pages) := by
  intro machine
  cases granted : fw.allocatePages machine pages with
  | none =>
      rw [callAllocatePages_none granted]
      rfl
  | some base =>
      rw [callAllocatePages_some granted]
      rfl

theorem uefiAllocPages_keeps (pages : Nat) : Keeps Machine.handOff (uefiAllocPages fw pages) := by
  refine (callAllocatePages_keeps pages).bind fun answer => (orExit_keeps answer).bind fun addr => ?_
  exact Keeps.bind (Keeps.modify fun _ => rfl) fun _ => Keeps.pure _

theorem writeWord_keeps (address value : Nat) : Keeps Machine.handOff (writeWord address value) :=
  Keeps.modify fun _ => rfl

theorem writeObject_keeps (object : Extent) (start size : Nat) (source : Nat → UInt8) :
    Keeps Machine.handOff (writeObject object start size source) :=
  Keeps.ite (fun _ => Keeps.modify fun _ => rfl) fun _ => Keeps.throw _

theorem readWord_keeps (address : Nat) : Keeps Machine.handOff (readWord address) :=
  Keeps.get.bind fun _ => Keeps.pure _

theorem nextTable_keeps (table index : Nat) : Keeps Machine.handOff (nextTable fw table index) := by
  refine (readWord_keeps _).bind fun entry => Keeps.ite (fun _ => ?_) fun _ => Keeps.pure _
  refine (uefiAllocPages_keeps 1).bind fun next => ?_
  exact (writeWord_keeps _ _).bind fun _ => Keeps.pure _

theorem loaderPagingMap_keeps (pml4 physical virtual flags : Nat) :
    Keeps Machine.handOff (loaderPagingMap fw pml4 physical virtual flags) :=
  (nextTable_keeps _ _).bind fun _ => (nextTable_keeps _ _).bind fun _ =>
    (nextTable_keeps _ _).bind fun _ => writeWord_keeps _ _

theorem loaderPagingMapAddr_keeps (pml4 start length flags : Nat) :
    Keeps Machine.handOff (loaderPagingMapAddr fw pml4 start length flags) :=
  Keeps.repeatTimes (fun _ => loaderPagingMap_keeps _ _ _ _) _

theorem loaderPagingSetup_keeps : Keeps Machine.handOff (loaderPagingSetup fw) :=
  (uefiAllocPages_keeps 1).bind fun _ => (writeWord_keeps _ _).bind fun _ => Keeps.pure _

theorem loadSegment_keeps (pml4 : Nat) (phdr : Elf64Phdr) :
    Keeps Machine.handOff (loadSegment fw pml4 phdr) := by
  refine (callAllocatePages_keeps _).bind fun answer => ?_
  cases answer with
  | none => exact Keeps.throw _
  | some physical =>
      refine (setPosition_keeps (fun _ _ => rfl) _).bind fun _ => ?_
      refine (readFile_keeps (fun _ _ => rfl) _).bind fun result => ?_
      refine (writeObject_keeps _ _ _ _).bind fun _ => ?_
      refine Keeps.bind (Keeps.modify fun _ => rfl) fun _ => ?_
      refine (Keeps.repeatTimes (fun _ => loaderPagingMap_keeps _ _ _ _) _).bind fun _ => ?_
      exact Keeps.ite (fun _ => writeObject_keeps _ _ _ _) fun _ => Keeps.pure _

theorem phdrLoop_keeps (pml4 : Nat) (phdrs : Block) (stride bound : Nat) :
    ∀ fuel offset, Keeps Machine.handOff (phdrLoop fw pml4 phdrs stride bound fuel offset)
  | 0, _ => Keeps.throw _
  | fuel + 1, offset => by
      rw [phdrLoop]
      refine Keeps.ite (fun _ => ?_) fun _ => Keeps.pure _
      refine Keeps.ite (fun _ => ?_) fun _ => phdrLoop_keeps pml4 phdrs stride bound fuel _
      exact (loadSegment_keeps _ _).bind fun _ => phdrLoop_keeps pml4 phdrs stride bound fuel _

theorem loaderKernelPhdrs_keeps (header : Elf64Ehdr) (pml4 : Nat) :
    Keeps Machine.handOff (loaderKernelPhdrs fw header pml4) := by
  refine (loaderParsePhdrs_keeps (fun _ _ => rfl) (fun _ _ => rfl) header).bind fun phdrs => ?_
  refine Keeps.check ?_
  exact (phdrLoop_keeps _ _ _ _ _ _).bind fun _ => free_keeps (fun _ _ => rfl) _

theorem framebufferGet_keeps (pml4 : Nat) :
    Keeps Machine.handOff (framebufferGet fw platform pml4) := by
  refine (efiGopGet_keeps fun _ _ => rfl).bind fun answer => ?_
  cases answer with
  | none => exact Keeps.throw _
  | some gop =>
      refine (framebufferSetup_keeps (fun _ _ => rfl) (fun _ _ => rfl) gop).bind fun _ => ?_
      refine Keeps.get.bind fun machine => (loaderPagingMapAddr_keeps _ _ _ _).bind fun _ => ?_
      refine (loaderPagingMapAddr_keeps _ _ _ _).bind fun _ => ?_
      exact (Keeps.repeatTimes (fun _ => loaderPagingMap_keeps _ _ _ _) _).bind fun _ =>
        Keeps.pure _

/-- **Until the map is fetched, the loader neither fetches a map nor leaves boot services.** -/
theorem loaderKernelPrepare_keeps : Keeps Machine.handOff (loaderKernelPrepare fw platform) := by
  refine loaderPagingSetup_keeps.bind fun pml4 => fsOpen_keeps.bind fun _ => ?_
  refine (fsGetFileInfo_keeps fun _ _ => rfl).bind fun fileInfo => ?_
  refine (malloc_keeps (fun _ _ => rfl) _).bind fun copy => ?_
  refine (fsRead_keeps (fun _ _ => rfl) _ _ _).bind fun copy => ?_
  refine (loaderParseHeader_keeps fun _ _ => rfl).bind fun header => ?_
  refine (elfHeaderCheck_keeps header).bind fun _ => ?_
  refine (loaderKernelPhdrs_keeps header pml4).bind fun _ => Keeps.get.bind fun machine => ?_
  refine Keeps.check ?_
  refine (uefiAllocPages_keeps _).bind fun stack => (uefiAllocPages_keeps _).bind fun info => ?_
  refine (loaderPagingMap_keeps _ _ _ _).bind fun _ => ?_
  refine (Keeps.repeatTimes (fun _ => loaderPagingMap_keeps _ _ _ _) _).bind fun _ => ?_
  refine (writeWord_keeps _ _).bind fun _ => (framebufferGet_keeps _).bind fun gopMode => ?_
  refine Keeps.bind (Keeps.get.bind fun _ => orExit_keeps _) fun image => ?_
  exact (Keeps.repeatTimes (fun _ => loaderPagingMap_keeps _ _ _ _) _).bind fun _ => Keeps.pure _

end Keeps

/-! ## Fetching the map -/

section Calls

variable {machine : Machine} {buffer : Nat} {arguments : MapAnswer}

theorem callGetMemoryMap_error {code : Nat} (fails : fw.mapError machine = some code) :
    callGetMemoryMap fw buffer arguments machine = .ok (.error code, arguments) machine := by
  simp only [callGetMemoryMap, bind_run, get_run, fails, pure_run]

theorem callGetMemoryMap_small (answers : fw.mapError machine = none)
    (small : arguments.size < machine.memoryMap.bytes.length) :
    callGetMemoryMap fw buffer arguments machine =
      .ok (.bufferTooSmall, ⟨machine.memoryMap.bytes.length,
        (fw.tooSmall machine arguments.key arguments.descriptorSize).1,
        (fw.tooSmall machine arguments.key arguments.descriptorSize).2⟩) machine := by
  simp only [callGetMemoryMap, bind_run, get_run, answers, if_pos small, pure_run]

/-- The machine after the map has been written to a buffer. -/
def Machine.withMap (machine : Machine) (buffer : Nat) : Machine :=
  { machine with
    mem := machine.mem.overwrite buffer machine.memoryMap.bytes.length fun index =>
      machine.memoryMap.bytes.getD index 0
    mapFills := ⟨buffer, machine.memoryMap.key, machine.memoryMap.descriptorSize,
      machine.memoryMap.bytes⟩ :: machine.mapFills }

theorem Machine.withMap_mem {index : Nat} (bound : index < machine.memoryMap.bytes.length) :
    (machine.withMap buffer).mem (buffer + index) = machine.memoryMap.bytes.getD index 0 := by
  simp only [Machine.withMap]
  rw [machine.mem.overwrite_offset bound]

theorem callGetMemoryMap_filled (answers : fw.mapError machine = none)
    (enough : machine.memoryMap.bytes.length ≤ arguments.size) :
    callGetMemoryMap fw buffer arguments machine =
      .ok (.success, ⟨machine.memoryMap.bytes.length, machine.memoryMap.key,
        machine.memoryMap.descriptorSize⟩) (machine.withMap buffer) := by
  simp only [callGetMemoryMap, bind_run, get_run, answers, if_neg (Nat.not_lt.mpr enough)]
  rfl

/-- Boot services are left with a key that is accepted. -/
theorem exitBootServices_ok {key : Nat} {final : Machine}
    (run : exitBootServices fw key machine = .ok () final) :
    fw.acceptsExit machine key = true ∧ final = { machine with exitKey := some key } := by
  rw [exitBootServices, bind_of_ok (get_run _)] at run
  split at run
  · rename_i accepted
    cases run
    exact ⟨accepted, rfl⟩
  · cases run

/-- A key that is refused stops the loader. -/
theorem exitBootServices_error {key : Nat} {reason : Halt} {stopped : Machine}
    (run : exitBootServices fw key machine = .error reason stopped) :
    fw.acceptsExit stopped key = false ∧ stopped = machine := by
  rw [exitBootServices, bind_of_ok (get_run _)] at run
  split at run
  · cases run
  · rename_i refused
    cases run
    exact ⟨Bool.eq_false_iff.mpr refused, rfl⟩

variable {info : Info}

/-- Where the map cannot be had, the error is returned. -/
theorem fetchMemoryMap_fails {code : Nat} (fails : fw.mapError machine = some code) :
    fetchMemoryMap fw info arguments machine =
      .ok (.error code, { info with efiMemoryMapKey := arguments.key }) machine := by
  rw [fetchMemoryMap, bind_of_ok (callGetMemoryMap_error fails)]
  rfl

/-- A map that fits is written to the buffer, and boot services are left with its key. -/
theorem fetchMemoryMap_fits (answers : fw.mapError machine = none)
    (enough : machine.memoryMap.bytes.length ≤ arguments.size) :
    fetchMemoryMap fw info arguments machine = (do
      exitBootServices fw machine.memoryMap.key
      return (EfiStatus.success, { info with
        efiMemoryMapKey := machine.memoryMap.key
        efiMemoryMapEntries := machine.memoryMap.bytes.length / machine.memoryMap.descriptorSize
        efiMemoryMapDescriptorSize := machine.memoryMap.descriptorSize }))
      (machine.withMap info.efiMemoryMap) := by
  rw [fetchMemoryMap, bind_of_ok (callGetMemoryMap_filled answers enough)]
  simp only [EfiStatus.isError, Bool.false_eq_true, false_and, if_false,
    if_neg machine.memoryMap.positive.ne']

/-- A map that has outgrown the buffer is not written, but boot services are left all the
same. -/
theorem fetchMemoryMap_outgrown (answers : fw.mapError machine = none)
    (small : arguments.size < machine.memoryMap.bytes.length) :
    fetchMemoryMap fw info arguments machine = (do
      let (key, descriptorSize) := fw.tooSmall machine arguments.key arguments.descriptorSize
      if descriptorSize = 0 then throw Halt.undefined
      exitBootServices fw key
      return (EfiStatus.success, { info with
        efiMemoryMapKey := key
        efiMemoryMapEntries := machine.memoryMap.bytes.length / descriptorSize
        efiMemoryMapDescriptorSize := descriptorSize })) machine := by
  rw [fetchMemoryMap, bind_of_ok (callGetMemoryMap_small answers small)]
  simp only [EfiStatus.isError, ne_eq, not_true_eq_false, and_false, if_false]

/-- `efi_get_memory_map` returns at once where the map cannot be had or its pages are refused.
Otherwise it maps the pages and fetches the map with the size from before. -/
theorem efiGetMemoryMap_cases (fw : Firmware) (platform : Platform) (info : Info) (pml4 : Nat)
    (machine : Machine) :
    (∃ status after, efiGetMemoryMap fw platform info pml4 machine = .ok (status, after) machine ∧
      ∀ buffer, fw.mapError machine = none →
        fw.allocatePages machine (mapPages machine.memoryMap.bytes.length) ≠ some buffer) ∨
    ∃ buffer asked arguments, efiGetMemoryMap fw platform info pml4 machine = (do
        loaderPagingMapAddr fw pml4 buffer (mapPages machine.memoryMap.bytes.length <<< 12)
          (pageWrite ||| pagePresent)
        fetchMemoryMap fw asked arguments)
        (machine.withPages fw buffer (mapPages machine.memoryMap.bytes.length)) ∧
      fw.mapError machine = none ∧
      fw.allocatePages machine (mapPages machine.memoryMap.bytes.length) = some buffer ∧
      asked.efiMemoryMap = buffer ∧ arguments.size = machine.memoryMap.bytes.length := by
  cases first : fw.mapError machine with
  | some code =>
      refine .inl ⟨.error code, info, ?_, nofun⟩
      rw [efiGetMemoryMap, bind_of_ok (callGetMemoryMap_error first)]
      rfl
  | none =>
      obtain ⟨key, descriptorSize, measured⟩ : ∃ key descriptorSize,
          callGetMemoryMap fw info.efiMemoryMap
            ⟨0, info.efiMemoryMapKey, platform.stackDescriptorSize⟩ machine =
              .ok (.bufferTooSmall, ⟨machine.memoryMap.bytes.length, key, descriptorSize⟩)
                machine :=
        ⟨_, _, callGetMemoryMap_small first machine.memoryMap.nonempty⟩
      cases granted : fw.allocatePages machine (mapPages machine.memoryMap.bytes.length) with
      | none =>
          refine .inl ⟨.error 9, { info with efiMemoryMapKey := key }, ?_, nofun⟩
          rw [efiGetMemoryMap, bind_of_ok measured]
          exact bind_of_ok (callAllocatePages_none granted)
      | some buffer =>
          refine .inr ⟨buffer, { info with efiMemoryMapKey := key, efiMemoryMap := buffer },
            ⟨machine.memoryMap.bytes.length, key, descriptorSize⟩, ?_, rfl, rfl, rfl, rfl⟩
          rw [efiGetMemoryMap, bind_of_ok measured]
          exact bind_of_ok (callAllocatePages_some granted)

end Calls

/-- The kernel finds the map of the firmware: boot services were left with a key, and the
buffer holds the descriptors that a `GetMemoryMap` with this key wrote. -/
def HandedOff (machine : Machine) (info : Info) : Prop :=
  machine.exitKey = some info.efiMemoryMapKey ∧
    ∃ fill ∈ machine.mapFills,
      fill.buffer = info.efiMemoryMap ∧ fill.key = info.efiMemoryMapKey ∧
      fill.descriptorSize = info.efiMemoryMapDescriptorSize ∧
      fill.bytes.length = info.efiMemoryMapEntries * info.efiMemoryMapDescriptorSize ∧
      ∀ index, index < fill.bytes.length →
        machine.mem (info.efiMemoryMap + index) = fill.bytes.getD index 0

/-- The firmware lets the map be fetched: the first `GetMemoryMap` does not fail, the pages
for the map are granted, and when the pages have been mapped the second `GetMemoryMap` does
not fail and the map has not outgrown the size of the first. -/
def Fetchable (fw : Firmware) (pml4 : Nat) (before : Machine) : Prop :=
  fw.mapError before = none ∧
    ∃ buffer, fw.allocatePages before (mapPages before.memoryMap.bytes.length) = some buffer ∧
      ∀ mapped, loaderPagingMapAddr fw pml4 buffer (mapPages before.memoryMap.bytes.length <<< 12)
          (pageWrite ||| pagePresent)
          (before.withPages fw buffer (mapPages before.memoryMap.bytes.length)) = .ok () mapped →
        fw.mapError mapped = none ∧
          mapped.memoryMap.bytes.length ≤ before.memoryMap.bytes.length

section Fetch

variable {before final : Machine} {info after : Info} {status : EfiStatus}

/-- Nothing was handed off while boot services are up. -/
theorem not_handedOff (up : final.exitKey = none) : ¬ HandedOff final after := by
  rintro ⟨exit, -⟩
  rw [up] at exit
  cases exit

/-- With the buffer in place, the map is handed off exactly when it fits. -/
theorem fetchMemoryMap_handedOff_iff {arguments : MapAnswer}
    (untouched : before.handOff = ([], none))
    (run : fetchMemoryMap fw info arguments before = .ok (status, after) final) :
    HandedOff final after ↔
      fw.mapError before = none ∧ before.memoryMap.bytes.length ≤ arguments.size := by
  obtain ⟨noFill, up⟩ : before.mapFills = [] ∧ before.exitKey = none := Prod.mk.inj untouched
  cases second : fw.mapError before with
  | some code =>
      rw [fetchMemoryMap_fails second] at run
      cases run
      exact iff_of_false (not_handedOff up) fun fits => by cases fits.1
  | none =>
      by_cases enough : before.memoryMap.bytes.length ≤ arguments.size
      · refine iff_of_true ?_ ⟨rfl, enough⟩
        rw [fetchMemoryMap_fits second enough] at run
        obtain ⟨⟨⟩, left, exits, done⟩ := bind_eq_ok.mp run
        cases done
        obtain ⟨-, rfl⟩ := exitBootServices_ok exits
        refine ⟨rfl, _, List.mem_cons_self, rfl, rfl, rfl, ?_, fun index bound => ?_⟩
        · exact (Nat.div_mul_cancel (Nat.dvd_of_mod_eq_zero before.memoryMap.whole)).symm
        · exact before.withMap_mem bound
      · refine iff_of_false ?_ fun fits => enough fits.2
        rw [fetchMemoryMap_outgrown second (Nat.lt_of_not_le enough)] at run
        obtain ⟨-, run⟩ := check_eq_ok.mp run
        obtain ⟨⟨⟩, left, exits, done⟩ := bind_eq_ok.mp run
        cases done
        obtain ⟨-, rfl⟩ := exitBootServices_ok exits
        -- the exit succeeded, but no map was ever written
        rintro ⟨-, fill, member, -⟩
        have noMember : fill ∈ before.mapFills := member
        rw [noFill] at noMember
        cases noMember

/-- `efi_get_memory_map` hands the map off exactly when the firmware lets it be fetched. -/
theorem efiGetMemoryMap_handedOff_iff (untouched : before.handOff = ([], none))
    (run : efiGetMemoryMap fw platform info pml4 before = .ok (status, after) final) :
    HandedOff final after ↔ Fetchable fw pml4 before := by
  have up : before.exitKey = none := (Prod.mk.inj untouched).2
  rcases efiGetMemoryMap_cases fw platform info pml4 before with
    ⟨_, _, returns, refused⟩ | ⟨buffer, asked, arguments, maps, first, granted, -, size⟩
  · -- an error is returned, and nobody looks at it
    rw [returns] at run
    cases run
    apply iff_of_false (not_handedOff up)
    rintro ⟨answers, buffer, granted, -⟩
    exact refused buffer answers granted
  · rw [maps] at run
    obtain ⟨⟨⟩, mapped, maps, fetch⟩ := bind_eq_ok.mp run
    have kept : mapped.handOff = ([], none) :=
      ((loaderPagingMapAddr_keeps _ _ _ _).ok maps).trans untouched
    rw [fetchMemoryMap_handedOff_iff kept fetch, size]
    constructor
    · intro fits
      refine ⟨first, buffer, granted, fun other same => ?_⟩
      rw [maps] at same
      cases same
      exact fits
    · rintro ⟨-, other, given, fits⟩
      rw [granted] at given
      cases given
      exact fits mapped maps

end Fetch

/-- **Memory map hand-off.** Let boot services be up when `loader_kernel` starts. Whenever it
reaches the jump, the kernel finds the map of the firmware exactly when the firmware, from the
machine in which `efi_get_memory_map` is called on, lets the map be fetched. -/
theorem loaderKernel_handedOff_iff (fw : Firmware) (platform : Platform)
    (machine before final : Machine) (prepared jump : Jump)
    (untouched : machine.mapFills = [] ∧ machine.exitKey = none)
    (prepare : loaderKernelPrepare fw platform machine = .ok prepared before)
    (run : loaderKernel fw platform machine = .ok jump final) :
    HandedOff final jump.info ↔ Fetchable fw prepared.pml4 before := by
  have start : before.handOff = ([], none) := by
    rw [loaderKernelPrepare_keeps.ok prepare, Machine.handOff, untouched.1, untouched.2]
  rw [loaderKernel, bind_of_ok prepare] at run
  obtain ⟨⟨status, after⟩, last, fetch, done⟩ := bind_eq_ok.mp run
  cases done
  exact efiGetMemoryMap_handedOff_iff start fetch

/-- A graphics output with one mode. -/
def sampleGop : Gop where
  maxMode := 1
  queryMode _ := some (800, 600)
  setMode _ := true
  mode _ := ⟨0x7000, 0x7100, 0x80000000, 0x2000⟩

/-- A platform that answers every call. -/
def samplePlatform : Platform where
  loadedImage _ := some ⟨0x40000, 0x2000⟩
  fileSystem _ := true
  openVolume _ := true
  openKernel _ := .success
  closeKernel _ := .success
  fileInfoLength _ := (.bufferTooSmall, 94)
  fileInfo _ fileInfo := fileInfo.bytes.store64 8 179
  gopHandles _ := some 1
  openGop _ _ := some (some sampleGop)
  firmwareVendor _ := 0
  configurationTable := [(acpi20TableGuid, 0x9000)]
  stackHeader _ := 0xAA
  stackDescriptorSize := 0xAAAA

theorem loaderKernel_handedOff_sample :
    ∃ prepared before jump final,
      loaderKernelPrepare sampleFirmware samplePlatform freshMachine = .ok prepared before ∧
      loaderKernel sampleFirmware samplePlatform freshMachine = .ok jump final ∧
      (HandedOff final jump.info ↔ Fetchable sampleFirmware prepared.pml4 before) := by
  have runs : returned (loaderKernel sampleFirmware samplePlatform freshMachine) = true := by
    decide +kernel
  obtain ⟨jump, final, run⟩ := exists_ok_of_returned runs
  obtain ⟨prepared, before, prepare, -⟩ := bind_eq_ok.mp run
  exact ⟨prepared, before, jump, final, prepare, run,
    loaderKernel_handedOff_iff sampleFirmware samplePlatform freshMachine before final prepared
      jump ⟨rfl, rfl⟩ prepare run⟩

/-- A firmware whose map gains a descriptor with every allocation, and which reports the key
also when the buffer is too small. -/
def growingFirmware : Firmware :=
  { sampleFirmware with
    mapAfter := fun machine =>
      { key := machine.memoryMap.key + 1
        descriptorSize := machine.memoryMap.descriptorSize
        bytes := machine.memoryMap.bytes ++ List.replicate machine.memoryMap.descriptorSize 0
        positive := machine.memoryMap.positive
        whole := by
          rw [List.length_append, List.length_replicate, Nat.add_mod_right]
          exact machine.memoryMap.whole
        nonempty := by
          rw [List.length_append]
          exact Nat.add_pos_left machine.memoryMap.nonempty _ }
    mapAfter_key := fun machine => Nat.succ_ne_self _ }

/-- The map outgrows the buffer, boot services are left with the current key, and the kernel
starts with a buffer that was never written. -/
theorem growingFirmware_not_handedOff :
    ∃ jump final,
      loaderKernel growingFirmware samplePlatform freshMachine = .ok jump final ∧
      final.exitKey = some jump.info.efiMemoryMapKey ∧ final.mapFills = [] ∧
      ¬ HandedOff final jump.info := by
  have check : (match loaderKernel growingFirmware samplePlatform freshMachine with
      | .ok jump final =>
          final.exitKey == some jump.info.efiMemoryMapKey && final.mapFills.isEmpty
      | .error _ _ => false) = true := by decide +kernel
  cases run : loaderKernel growingFirmware samplePlatform freshMachine with
  | error reason stopped =>
      rw [run] at check
      cases check
  | ok jump final =>
      rw [run] at check
      simp only [Bool.and_eq_true, beq_iff_eq, List.isEmpty_iff] at check
      refine ⟨jump, final, rfl, check.1, check.2, ?_⟩
      rintro ⟨-, fill, member, -⟩
      rw [check.2] at member
      cases member

end VineyardLoader
