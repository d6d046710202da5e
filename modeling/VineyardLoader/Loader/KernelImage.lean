import VineyardLoader.Loader.Entry
import VineyardLoader.Loader.Truncation

/-!
# The image of the kernel at its entry

After the segments have been loaded, `loader_kernel` goes on to allocate the stack, the info page
and the memory map, and to map what the kernel is handed, which makes more tables. None of this
touches memory that was granted before and holds no table (`Spared`), so the bytes of the segments
are still there when the kernel is entered.

Put together with the stages before, this says what the loader is for. Of a well-formed kernel file
for the upper half, every byte of every loadable segment is at its address when the kernel is
entered, and zeros follow the bytes of the file (`loaderKernel_image`). The condition is on the
bytes of the file alone.
-/

set_option autoImplicit false

namespace VineyardLoader

variable {fw : Firmware} {platform : Platform} {machine middle final : Machine} {pml4 : Nat}
  {calls : List MapCall} {extent : Extent}

/-! ## Memory that is left alone -/

/-- From one machine to another, memory of its own keeps its bytes and holds no table. -/
structure Spared (pml4 : Nat) (extent : Extent) (before after : Machine) : Prop where
  reserved : Reserved pml4 extent after
  same : ∀ address, extent.Contains address → after.mem address = before.mem address

theorem Spared.trans (first : Spared pml4 extent machine middle)
    (second : Spared pml4 extent middle final) : Spared pml4 extent machine final :=
  ⟨second.reserved, fun address inside =>
    (second.same address inside).trans (first.same address inside)⟩

/-- More calls of `loader_paging_map` spare what is reserved. -/
theorem Reserved.maps_spares {more : List MapCall} (reserved : Reserved pml4 extent machine)
    (mapped : Mapped pml4 calls machine) (mappable : ∀ call ∈ more, call.Mappable)
    (run : loaderPagingMapAll fw pml4 more machine = .ok () final) :
    Mapped pml4 (calls ++ more) final ∧ Spared pml4 extent machine final := by
  obtain ⟨after, grows⟩ := mapped.maps mappable run
  obtain ⟨kept, same⟩ := reserved.grows grows
  exact ⟨after, kept, same⟩

/-- Zeroed pages are other pages. -/
theorem Reserved.pages_spares {pages addr : Nat} (reserved : Reserved pml4 extent machine)
    (mapped : Mapped pml4 calls machine) (run : uefiAllocPages fw pages machine = .ok addr final) :
    Mapped pml4 calls final ∧ Reserved pml4 ⟨addr, pages * pageSize⟩ final ∧
      Extent.Disjoint ⟨addr, pages * pageSize⟩ extent ∧ Spared pml4 extent machine final := by
  obtain ⟨after, fresh, others⟩ := uefiAllocPages_reserved mapped run
  obtain ⟨granted, rfl⟩ := uefiAllocPages_ok.mp run
  have apart := fw.allocatePages_fresh _ _ _ granted _ reserved.owned
  refine ⟨after, fresh, apart, others _ reserved, fun address inside => ?_⟩
  have outside : ¬ Extent.Contains ⟨addr, pages * pageSize⟩ address :=
    fun here => apart address here inside
  apply machine.mem.fill_outside
  simp only [Extent.Contains, pageSize] at outside
  rw [Nat.shiftLeft_eq]
  omega

/-- A write to other reserved memory. -/
theorem Reserved.write_spares {object : Extent} (reserved : Reserved pml4 extent machine)
    (mapped : Mapped pml4 calls machine) (target : Reserved pml4 object machine)
    (apart : object.Disjoint extent) (other : Machine)
    (same : ∀ address, ¬ object.Contains address → other.mem address = machine.mem address)
    (allocated : ∀ extent ∈ machine.allocated, extent ∈ other.allocated) :
    Mapped pml4 calls other ∧ Spared pml4 extent machine other := by
  obtain ⟨after, others⟩ := mapped.of_reserved target same allocated
  exact ⟨after, others _ reserved,
    fun address inside => same address fun here => apart address here inside⟩

/-- The same memory with nothing new allocated. -/
theorem Reserved.store_spares (reserved : Reserved pml4 extent machine)
    (mapped : Mapped pml4 calls machine) (kept : final.store = machine.store) :
    Mapped pml4 calls final ∧ Spared pml4 extent machine final := by
  simp only [Machine.store, Prod.mk.injEq] at kept
  obtain ⟨after, others⟩ : Mapped pml4 calls final ∧ _ :=
    mapped.of_same kept.1 fun extent member => by rwa [kept.2.1]
  exact ⟨after, others _ reserved, fun address _ => by rw [kept.1]⟩

/-- **The stage that sets up the objects spares what was reserved before.** -/
theorem loaderKernelSetUp_spares {objects : Objects} (low : AnswersLow fw platform)
    (mapped : Mapped pml4 calls machine) (reserved : Reserved pml4 extent machine)
    (run : loaderKernelSetUp fw platform pml4 machine = .ok objects final) :
    Spared pml4 extent machine final := by
  have objectsLow := (loaderKernelSetUp_arranged low mapped run).1
  rw [loaderKernelSetUp, bind_of_ok (get_run _)] at run
  obtain ⟨-, run⟩ := check_eq_ok.mp run
  obtain ⟨stack, first, allocStack, run⟩ := bind_eq_ok.mp run
  obtain ⟨info, second, allocInfo, run⟩ := bind_eq_ok.mp run
  obtain ⟨⟨⟩, third, maps, run⟩ := bind_eq_ok.mp run
  rw [bind_of_ok (writeWord_run _ _ _)] at run
  obtain ⟨mode, fourth, graphics, run⟩ := bind_eq_ok.mp run
  obtain ⟨⟨⟩, fifth, mapsMode, run⟩ := bind_eq_ok.mp run
  obtain ⟨image, sixth, finds, run⟩ := bind_eq_ok.mp run
  obtain ⟨⟨⟩, seventh, mapsImage, run⟩ := bind_eq_ok.mp run
  cases run
  obtain ⟨-, rfl⟩ := efiGetImage_ok finds
  obtain ⟨-, kept⟩ := framebufferMode_ok graphics
  obtain ⟨mapped, onStack, apart, spared⟩ := reserved.pages_spares mapped allocStack
  obtain ⟨withInfo, -, -, stackSpared⟩ := onStack.pages_spares mapped allocInfo
  obtain ⟨mapped, -, -, next⟩ := spared.reserved.pages_spares mapped allocInfo
  have spared := spared.trans next
  rw [identityCall_of_aligned objectsLow.infoAligned] at maps
  obtain ⟨-, stackSpared⟩ := stackSpared.reserved.maps_spares withInfo objectsLow.first_mappable maps
  obtain ⟨mapped, next⟩ := spared.reserved.maps_spares mapped objectsLow.first_mappable maps
  have spared := spared.trans next
  -- the pointer goes to the stack, which was granted after what is spared
  have outside : ∀ address, ¬ Extent.Contains ⟨stack, 33 * pageSize⟩ address →
      third.mem.store64 (stack + stackSize - 8 * 4) info address = third.mem address := by
    intro address outside
    simp only [Extent.Contains, pageSize] at outside
    apply third.mem.store64_outside
    simp only [stackSize]
    omega
  obtain ⟨mapped, next⟩ := spared.reserved.write_spares mapped stackSpared.reserved apart
    { third with mem := third.mem.store64 (stack + stackSize - 8 * 4) info }
    outside fun _ member => member
  have spared := spared.trans next
  obtain ⟨mapped, next⟩ := spared.reserved.store_spares mapped kept
  have spared := spared.trans next
  obtain ⟨mapped, next⟩ := spared.reserved.maps_spares mapped (fun call member =>
    (modeCalls_isIdentity objectsLow.mode call member).mappable) mapsMode
  have spared := spared.trans next
  obtain ⟨-, next⟩ := spared.reserved.maps_spares mapped (fun call member =>
    (sizeCalls_isIdentity objectsLow.image.aligned objectsLow.image.below call member).mappable)
      mapsImage
  exact spared.trans next

/-- New pages that are mapped to themselves and written to. -/
theorem Reserved.buffer_spares {pages buffer : Nat} {extended : Machine}
    (reserved : Reserved pml4 extent machine) (mapped : Mapped pml4 calls machine)
    (granted : fw.allocatePages machine pages = some buffer)
    (below : buffer + pages * pageSize ≤ lowerEnd)
    (maps : loaderPagingMapAddr fw pml4 buffer (pages <<< 12) (pageWrite ||| pagePresent)
      (machine.withPages fw buffer pages) = .ok () extended)
    (allocated : final.allocated = extended.allocated)
    (same : ∀ place, ¬ Extent.Contains ⟨buffer, pages * pageSize⟩ place →
      final.mem place = extended.mem place) : Spared pml4 extent machine final := by
  have shift : pages <<< 12 = pages * pageSize := Nat.shiftLeft_eq _ _
  have flags : pageWrite ||| pagePresent = identityFlags := rfl
  rw [shift, flags, loaderPagingMapAddr_eq] at maps
  have apart := fw.allocatePages_fresh _ _ _ granted _ reserved.owned
  obtain ⟨taken, others⟩ : Mapped pml4 calls (machine.withPages fw buffer pages) ∧ _ :=
    mapped.of_same rfl fun _ member => List.mem_cons_of_mem _ member
  have mappable : ∀ call ∈ addrCalls buffer (pages * pageSize), call.Mappable :=
    fun call member => (addrCalls_isIdentity (by omega) call member).mappable
  obtain ⟨grown, target⟩ := (Reserved.granted mapped granted).maps_spares taken mappable maps
  obtain ⟨-, spared⟩ := (others _ reserved).maps_spares taken mappable maps
  obtain ⟨-, next⟩ := spared.reserved.write_spares grown target.reserved apart final same
    fun _ member => by rwa [allocated]
  exact ⟨next.reserved, fun address inside =>
    (next.same address inside).trans (spared.same address inside)⟩

/-- **`efi_get_memory_map` spares what was reserved before**: the map goes to new pages. -/
theorem efiGetMemoryMap_spares {info after : Info} {status : EfiStatus}
    (low : AnswersLow fw platform) (small : machine.memoryMap.bytes.length ≤ physicalEnd)
    (mapped : Mapped pml4 calls machine) (reserved : Reserved pml4 extent machine)
    (run : efiGetMemoryMap fw platform info pml4 machine = .ok (status, after) final) :
    Spared pml4 extent machine final := by
  rcases efiGetMemoryMap_cases fw platform info pml4 machine with
    ⟨_, _, returns, -⟩ | ⟨buffer, asked, arguments, maps, -, granted, pointer, size⟩
  · rw [returns] at run
    cases run
    exact ⟨reserved, fun _ _ => rfl⟩
  · rw [maps] at run
    obtain ⟨⟨⟩, extended, maps, fetch⟩ := bind_eq_ok.mp run
    obtain ⟨-, allocated, same⟩ := fetchMemoryMap_frame fetch
    rw [pointer] at same
    refine reserved.buffer_spares mapped granted (low.pages _ _ _ granted) maps allocated ?_
    intro place outside
    refine same place fun inside => outside ?_
    have fits := le_mapPages small
    simp only [Extent.Contains, size] at inside ⊢
    omega

/-! ## The size of the memory map -/

/-- The memory map of the firmware is no longer than physical memory. -/
def Machine.MapFits (machine : Machine) : Prop := machine.memoryMap.bytes.length ≤ physicalEnd

/-- The firmware never makes the map longer than that. -/
def Firmware.MapsFit (fw : Firmware) : Prop :=
  ∀ machine : Machine, machine.MapFits → (fw.mapAfter machine).bytes.length ≤ physicalEnd

/-- A program that leaves the map no longer than that, where it stops as well. -/
abbrev BoundsMap {α : Type} (program : Boot α) : Prop :=
  Preserves Machine.MapFits Machine.MapFits program

section MapFits

variable (maps : fw.MapsFit)

/-- What does not touch the map keeps it short. -/
theorem mapFits_of_keeps {α : Type} {program : Boot α} (keeps : Keeps Machine.memoryMap program) :
    BoundsMap program := by
  refine preserves_self_iff.mpr fun machine fits => ?_
  have same : (finalState (program machine)).memoryMap = machine.memoryMap := keeps machine
  rwa [Machine.MapFits, same]

theorem modify_mapFits {change : Machine → Machine}
    (same : ∀ machine, (change machine).memoryMap = machine.memoryMap) :
    BoundsMap (modify change : Boot PUnit) :=
  mapFits_of_keeps (Keeps.modify same)

theorem throw_mapFits {α : Type} (reason : Halt) : BoundsMap (throw reason : Boot α) :=
  mapFits_of_keeps (Keeps.throw reason)

theorem forM_mapFits {β : Type} {body : β → Boot PUnit} (turn : ∀ item, BoundsMap (body item))
    (items : List β) : BoundsMap (items.forM body) := by
  induction items with
  | nil => exact Preserves.pure _
  | cons item items ih =>
      rw [List.forM_eq_forM, List.forM_cons]
      exact (turn item).bind fun _ => ih

include maps

theorem callAllocatePages_mapFits (pages : Nat) :
    BoundsMap (callAllocatePages fw pages) := by
  refine Preserves.of_ok fun machine fits => ?_
  cases granted : fw.allocatePages machine pages with
  | none => exact ⟨_, _, callAllocatePages_none granted, fits⟩
  | some base => exact ⟨_, _, callAllocatePages_some granted, maps machine fits⟩

theorem callAllocatePool_mapFits (size : Nat) :
    BoundsMap (callAllocatePool fw size) := by
  refine Preserves.of_ok fun machine fits => ?_
  rw [callAllocatePool, bind_of_ok (get_run _)]
  cases fw.allocatePool machine size with
  | none => exact ⟨_, _, rfl, fits⟩
  | some pool => exact ⟨_, _, rfl, maps machine fits⟩

theorem touchMap_mapFits : BoundsMap (touchMap fw) :=
  Preserves.modify maps

theorem free_mapFits (block : Block) :
    BoundsMap (free fw block) := by
  refine preserves_self_iff.mpr fun machine fits => ?_
  rw [free, bind_of_ok (get_run _)]
  split
  · exact maps machine fits
  · exact fits

theorem uefiAllocPages_mapFits (pages : Nat) :
    BoundsMap (uefiAllocPages fw pages) := by
  refine (callAllocatePages_mapFits maps pages).bind fun answer => ?_
  refine (mapFits_of_keeps (orExit_keeps answer)).bind fun addr => ?_
  exact Preserves.bind (modify_mapFits fun _ => rfl) fun _ => Preserves.pure _

theorem loaderPagingMap_mapFits (pml4 physical virtual flags : Nat) :
    BoundsMap (loaderPagingMap fw pml4 physical virtual flags) := by
  have next : ∀ table index,
      BoundsMap (nextTable fw table index) := by
    intro table index
    refine (mapFits_of_keeps (Keeps.get.bind fun _ => Keeps.pure _)).bind fun entry => ?_
    refine Preserves.ite (fun _ => ?_) fun _ => Preserves.pure _
    refine (uefiAllocPages_mapFits maps 1).bind fun page => ?_
    exact Preserves.bind (modify_mapFits fun _ => rfl) fun _ => Preserves.pure _
  refine (next _ _).bind fun pml3 => (next _ _).bind fun pml2 => (next _ _).bind fun pml1 => ?_
  exact modify_mapFits fun _ => rfl

theorem loaderPagingMapAll_mapFits (pml4 : Nat) (calls : List MapCall) :
    BoundsMap (loaderPagingMapAll fw pml4 calls) :=
  forM_mapFits (fun _ => loaderPagingMap_mapFits maps pml4 _ _ _) calls

theorem loaderPagingSetup_mapFits  : BoundsMap (loaderPagingSetup fw) := by
  refine (uefiAllocPages_mapFits maps 1).bind fun pml4 => ?_
  exact Preserves.bind (modify_mapFits fun _ => rfl) fun _ => Preserves.pure _

theorem loadSegment_mapFits (pml4 : Nat) (phdr : Elf64Phdr) :
    BoundsMap (loadSegment fw pml4 phdr) := by
  have object : ∀ extent start size source,
      BoundsMap (writeObject extent start size source) :=
    fun extent start size source => mapFits_of_keeps
      (Keeps.ite (fun _ => Keeps.modify fun _ => rfl) fun _ => Keeps.throw _)
  refine (callAllocatePages_mapFits maps _).bind fun answer => ?_
  cases answer with
  | none => exact throw_mapFits _
  | some physical =>
      refine (mapFits_of_keeps (setPosition_keeps (fun _ _ => rfl) _)).bind fun _ => ?_
      refine (mapFits_of_keeps (readFile_keeps (fun _ _ => rfl) _)).bind fun result => ?_
      refine (object _ _ _ _).bind fun _ => Preserves.bind (modify_mapFits fun _ => rfl) fun _ => ?_
      have loop : BoundsMap (repeatTimes (fun i =>
          loaderPagingMap fw pml4 (physical + (i <<< 12)) ((phdr.pVaddr + (i <<< 12)) % 2 ^ 64)
            (efiElfPhdrFlags phdr.pFlags)) phdr.pages) := by
        rw [repeatTimes_eq_forM]
        exact forM_mapFits (fun _ => loaderPagingMap_mapFits maps _ _ _ _) _
      refine loop.bind fun _ => ?_
      exact Preserves.ite (fun _ => object _ _ _ _) fun _ => Preserves.pure _

theorem loaderKernelPhdrs_mapFits (header : Elf64Ehdr) (pml4 : Nat) :
    BoundsMap (loaderKernelPhdrs fw header pml4) := by
  have parse : BoundsMap (loaderParsePhdrs fw header) := by
    refine (mapFits_of_keeps (setPosition_keeps (fun _ _ => rfl) _)).bind fun _ => ?_
    refine (callAllocatePool_mapFits maps _).bind fun answer => ?_
    refine (mapFits_of_keeps (orExit_keeps answer)).bind fun phdrs => ?_
    refine (mapFits_of_keeps (readFile_keeps (fun _ _ => rfl) _)).bind fun result => ?_
    refine Preserves.ite (fun _ => ?_) fun _ => Preserves.pure _
    exact (throw_mapFits _).bind fun _ => Preserves.pure _
  refine parse.bind fun phdrs => ?_
  have rest : BoundsMap (do
      phdrLoop fw pml4 phdrs header.ePhentsize (header.ePhnum * header.ePhentsize)
        (header.ePhnum + 1) 0
      free fw phdrs) := by
    rw [phdrLoop_eq_forM]
    exact (forM_mapFits (loadSegment_mapFits maps pml4) _).bind fun _ => free_mapFits maps _
  refine Preserves.ite (fun _ => ?_) fun _ => rest
  exact (throw_mapFits _).bind fun _ => rest

theorem loaderKernelOpen_mapFits :
    BoundsMap (loaderKernelOpen fw platform) := by
  have malloc : ∀ size, BoundsMap (malloc fw size) :=
    fun size => (callAllocatePool_mapFits maps size).bind fun answer =>
      mapFits_of_keeps (orExit_keeps answer)
  refine (loaderPagingSetup_mapFits maps).bind fun pml4 => ?_
  refine (mapFits_of_keeps fsOpen_keeps).bind fun _ => ?_
  have fileInfo : BoundsMap (fsGetFileInfo fw platform) := by
    have rest : ∀ length, BoundsMap (do
        let fileInfo ← VineyardLoader.malloc fw length
        return { fileInfo with bytes := platform.fileInfo (← get) fileInfo }) :=
      fun length => (malloc length).bind fun _ => Preserves.get.bind fun _ => Preserves.pure _
    refine Preserves.get.bind fun machine => Preserves.ite (fun _ => ?_) fun _ => rest _
    exact (throw_mapFits _).bind fun _ => rest _
  refine fileInfo.bind fun info => (malloc _).bind fun copy => ?_
  refine (mapFits_of_keeps (fsRead_keeps (fun _ _ => rfl) _ _ _)).bind fun copy => ?_
  exact (mapFits_of_keeps (loaderParseHeader_keeps fun _ _ => rfl)).bind fun _ => Preserves.pure _

theorem framebufferMode_mapFits :
    BoundsMap (framebufferMode fw platform) := by
  have modes : ∀ gop remaining i maxW maxH selection, BoundsMap
      (modeLoop fw platform gop remaining i maxW maxH selection) := by
    intro gop remaining
    induction remaining with
    | zero => exact fun _ _ _ _ => Preserves.pure _
    | succ remaining ih =>
        intro i maxW maxH selection
        refine (callAllocatePool_mapFits maps _).bind fun _ => (touchMap_mapFits maps).bind fun _ => ?_
        refine (mapFits_of_keeps (orExit_keeps _)).bind fun resolution => ?_
        refine Preserves.ite (fun _ => ?_) fun _ => Preserves.ite (fun _ => ih _ _ _ _) fun _ =>
          ih _ _ _ _
        exact Preserves.bind (modify_mapFits fun _ => rfl) fun _ => Preserves.pure _
  have found : BoundsMap (efiGopGet fw platform) :=
    Preserves.get.bind fun _ => (mapFits_of_keeps (orExit_keeps _)).bind fun _ =>
      (touchMap_mapFits maps).bind fun _ => mapFits_of_keeps (gopLoop_keeps _ _)
  refine found.bind fun answer => ?_
  cases answer with
  | none => exact throw_mapFits _
  | some gop =>
      have setup : BoundsMap (framebufferSetup fw platform gop) := by
        refine (modes gop _ _ _ _ _).bind fun answer => ?_
        cases answer with
        | none => exact Preserves.pure _
        | some selection =>
            refine Preserves.ite (fun _ => ?_) fun _ => Preserves.pure _
            exact Preserves.bind (modify_mapFits fun _ => rfl) fun _ => Preserves.pure _
      exact setup.bind fun _ => Preserves.get.bind fun _ => Preserves.pure _

theorem loaderKernelSetUp_mapFits (pml4 : Nat) :
    BoundsMap (loaderKernelSetUp fw platform pml4) := by
  have rest : BoundsMap (do
      let stack ← uefiAllocPages fw 33
      let info ← uefiAllocPages fw 1
      loaderPagingMapAll fw pml4 (⟨info, info, identityFlags⟩ :: stackCalls stack)
      writeWord (stack + stackSize - 8 * 4) info
      let mode ← framebufferMode fw platform
      loaderPagingMapAll fw pml4 (modeCalls mode)
      let image ← efiGetImage platform
      loaderPagingMapAll fw pml4 (sizeCalls image.imageBase image.imageSize)
      return (⟨stack, info, mode, image⟩ : Objects)) := by
    refine (uefiAllocPages_mapFits maps _).bind fun stack => ?_
    refine (uefiAllocPages_mapFits maps _).bind fun info => ?_
    refine (loaderPagingMapAll_mapFits maps _ _).bind fun _ => ?_
    refine Preserves.bind (modify_mapFits fun _ => rfl) fun _ => ?_
    refine (framebufferMode_mapFits maps).bind fun mode => ?_
    refine (loaderPagingMapAll_mapFits maps _ _).bind fun _ => ?_
    refine (mapFits_of_keeps (Keeps.get.bind fun _ => orExit_keeps _)).bind fun image => ?_
    exact (loaderPagingMapAll_mapFits maps _ _).bind fun _ => Preserves.pure _
  refine Preserves.get.bind fun _ => Preserves.ite (fun _ => ?_) fun _ => rest
  exact (throw_mapFits _).bind fun _ => rest

end MapFits

/-! ## Kernel files for the upper half -/

/-- The loadable entries of the program header table in a file. -/
def fileSegments (file : List UInt8) : List Elf64Phdr :=
  loadSegments (kernelHeader file)
    ⟨0, 0, fun index => bytesOf file ((kernelHeader file).ePhoff + index)⟩

/-- The byte of the image of a segment: a byte of the file, or zero after them. -/
def Elf64Phdr.fileByte (file : List UInt8) (phdr : Elf64Phdr) (k : Nat) : UInt8 :=
  if k < phdr.pFilesz then file.getD (phdr.pOffset + k) 0 else 0

/-- A file with its header, its table and its segments in it, whose segments are for pages of their
own in the upper half, after its first page. -/
structure UpperKernel (file : List UInt8) : Prop where
  ehdr : 64 ≤ file.length
  stride : 56 ≤ (kernelHeader file).ePhentsize
  table : (kernelHeader file).ePhoff +
    (kernelHeader file).ePhnum * (kernelHeader file).ePhentsize ≤ file.length
  upper : ∀ phdr ∈ fileSegments file, phdr.Upper
  notFirst : ∀ phdr ∈ fileSegments file, ¬ phdr.Covers upperPage
  ordered : ∀ phdr ∈ fileSegments file, phdr.pFilesz ≤ phdr.pMemsz
  inside : ∀ phdr ∈ fileSegments file, phdr.pOffset + phdr.pFilesz ≤ file.length
  disjoint : (fileSegments file).Pairwise fun first second =>
    ∀ k, k < first.pMemsz → ∀ l, l < second.pMemsz →
      first.address k / pageSize ≠ second.address l / pageSize

/-- A program header is its 56 bytes. -/
theorem readPhdr_congr {first second : Memory} {offset : Nat}
    (agree : ∀ index, index < 56 → first (offset + index) = second (offset + index)) :
    readPhdr first offset = readPhdr second offset := by
  have field : ∀ place width, place + width ≤ 56 →
      first.loadLE (offset + place) width = second.loadLE (offset + place) width := by
    intro place width inside
    refine Memory.loadLE_congr fun index bound => ?_
    rw [Nat.add_assoc]
    exact agree _ (by omega)
  have type := field 0 4 (by decide)
  rw [Nat.add_zero] at type
  simp only [readPhdr, type, field 4 4 (by decide), field 8 8 (by decide), field 16 8 (by decide),
    field 24 8 (by decide), field 32 8 (by decide), field 40 8 (by decide), field 48 8 (by decide)]

/-- The header that is read from a long enough file has the fields of the header in the file. -/
theorem loaderKernelOpen_fields {opened : Opened} (long : 64 ≤ fw.kernel.length)
    (opens : loaderKernelOpen fw platform machine = .ok opened middle) :
    opened.header.eEntry = (kernelHeader fw.kernel).eEntry ∧
      opened.header.ePhoff = (kernelHeader fw.kernel).ePhoff ∧
      opened.header.ePhentsize = (kernelHeader fw.kernel).ePhentsize ∧
      opened.header.ePhnum = (kernelHeader fw.kernel).ePhnum := by
  rw [(loaderKernelOpen_ok opens).2]
  have field : ∀ place width, place + width ≤ 64 →
      (platform.stackHeader.overwrite 0 (fw.kernel.take 64).length
        (bytesOf (fw.kernel.take 64))).loadLE place width =
      Memory.loadLE (bytesOf fw.kernel) place width :=
    fun place width inside => Memory.loadLE_congr fun index bound => headerBytes_eq long (by omega)
  exact ⟨field 24 8 (by decide), field 32 8 (by decide), field 54 2 (by decide),
    field 56 2 (by decide)⟩

/-- A table that starts in the file was read over the old contents of its block. -/
theorem loaderParsePhdrs_block {header : Elf64Ehdr} {phdrs : Block} {parsed : Machine}
    (starts : header.ePhoff ≤ fw.kernel.length)
    (parse : loaderParsePhdrs fw header machine = .ok phdrs parsed) :
    ∃ address old, phdrs = tableBlock fw header address old := by
  cases pool : fw.allocatePool (machine.seek fw header.ePhoff)
      (header.ePhnum * header.ePhentsize) with
  | none =>
      have moved : setPosition fw header.ePhoff machine =
          .ok () (machine.seek fw header.ePhoff) := rfl
      have refused : callAllocatePool fw (header.ePhnum * header.ePhentsize)
          (machine.seek fw header.ePhoff) = .ok none (machine.seek fw header.ePhoff) := by
        rw [callAllocatePool, bind_of_ok (get_run _), pool]
        rfl
      rw [loaderParsePhdrs, bind_of_ok moved, bind_of_ok refused] at parse
      cases parse
  | some answer =>
      obtain ⟨other, run⟩ := loaderParsePhdrs_run pool fun past =>
        absurd past.1 (Nat.not_lt.mpr starts)
      have same := parse.symm.trans run
      exact ⟨_, _, (EStateM.Result.ok.inj same).1⟩

/-- An entry of at least 56 bytes ends in its table. -/
theorem entry_inside {index count stride place : Nat} (member : index < count)
    (long : 56 ≤ stride) (inside : place < 56) : index * stride + place < count * stride := by
  have next := Nat.mul_le_mul_right stride (Nat.succ_le_of_lt member)
  rw [Nat.succ_mul] at next
  omega

/-- The table that was parsed gives the segments of the file. -/
theorem loaderParsePhdrs_segments {opened : Opened} {phdrs : Block} {parsed : Machine}
    (kernel : UpperKernel fw.kernel)
    (opens : loaderKernelOpen fw platform machine = .ok opened middle)
    (parse : loaderParsePhdrs fw opened.header middle = .ok phdrs parsed) :
    loadSegments opened.header phdrs = fileSegments fw.kernel := by
  obtain ⟨-, phoff, phentsize, phnum⟩ := loaderKernelOpen_fields kernel.ehdr opens
  have starts : opened.header.ePhoff ≤ fw.kernel.length := by
    rw [phoff]
    exact (Nat.le_add_right _ _).trans kernel.table
  obtain ⟨address, old, rfl⟩ := loaderParsePhdrs_block starts parse
  obtain ⟨length, bytes⟩ := fw.fileBytes_inside kernel.table
  have stride := kernel.stride
  rw [loadSegments, fileSegments, loadSegments, phdrEntries, phdrEntries, phentsize, phnum]
  refine congrArg _ (List.map_congr_left fun index member => readPhdr_congr fun place inside => ?_)
  rw [if_neg (by omega), List.mem_range] at member
  have within := entry_inside member stride inside
  show old.overwrite 0 (fw.fileBytes opened.header.ePhoff _).length _ _ = _
  rw [phoff, phentsize, phnum, Memory.overwrite_inside _ (Nat.zero_le _) (by omega), Nat.sub_zero]
  exact bytes _ within

/-! ## The whole run -/

/-- Fetching the memory map leaves the image in the info page alone. -/
theorem fetchMemoryMap_image {info after : Info} {arguments : MapAnswer} {status : EfiStatus}
    (run : fetchMemoryMap fw info arguments machine = .ok (status, after) final) :
    after.image = info.image := by
  obtain ⟨⟨first, answer⟩, filled, -, rest⟩ := bind_eq_ok.mp run
  dsimp only at rest
  split at rest
  · cases rest
    rfl
  · obtain ⟨-, rest⟩ := check_eq_ok.mp rest
    obtain ⟨⟨⟩, left, -, done⟩ := bind_eq_ok.mp rest
    cases done
    rfl

theorem efiGetMemoryMap_image {info after : Info} {status : EfiStatus}
    (run : efiGetMemoryMap fw platform info pml4 machine = .ok (status, after) final) :
    after.image = info.image := by
  obtain ⟨⟨first, answer⟩, measured, -, rest⟩ := bind_eq_ok.mp run
  dsimp only at rest
  split at rest
  · cases rest
    rfl
  · obtain ⟨granted, asked, -, rest⟩ := bind_eq_ok.mp rest
    cases granted with
    | none =>
        cases rest
        rfl
    | some buffer =>
        obtain ⟨⟨⟩, mapped, -, fetch⟩ := bind_eq_ok.mp rest
        have kept := fetchMemoryMap_image fetch
        exact kept

/-- What the kernel of a file finds when it is entered: its entry point, every byte of its segments
at its address, writable and executable, its stack with the pointer to the info page, and the image
of the loader, from which it is entered, where it was. -/
structure EntersImage (file : List UInt8) (jump : Jump) (mem : Memory) : Prop where
  entry : jump.entry = (kernelHeader file).eEntry
  image : ∀ phdr ∈ fileSegments file, ∀ k, k < phdr.pMemsz →
    ∃ physical, translate mem jump.pml4 (phdr.pVaddr + k) = some physical ∧
      mem physical = phdr.fileByte file k
  access : ∀ phdr ∈ fileSegments file, ∀ k, k < phdr.pMemsz →
    ∃ found, walk mem jump.pml4 (phdr.pVaddr + k) = some found ∧ found.writable = true ∧
      found.noExecute = false
  stack : ∀ k, k < stackSize → ∃ found, walk mem jump.pml4 (stackBase + k) = some found ∧
    found.writable = true ∧ found.noExecute = true
  argument : ∃ info physical, translate mem jump.pml4 (stackBase + stackSize - 32) = some physical ∧
    mem.load64 physical = info ∧ IdentityMapped mem jump.pml4 ⟨info, pageSize⟩
  loader : IdentityMapped mem jump.pml4 ⟨jump.info.image.imageBase, jump.info.image.imageSize⟩

/-- The bytes of a loaded segment are still there when the kernel is entered. -/
theorem Loaded.byte_spared {initial loaded before : Machine} {segments : List LoadedSegment}
    {segment : LoadedSegment} {objects : Objects} {info after : Info} {status : EfiStatus} {k : Nat}
    (all : Loaded fw pml4 initial segments loaded) (empty : Refines initial pml4 fun _ => none)
    (low : AnswersLow fw platform) (small : before.memoryMap.bytes.length ≤ physicalEnd)
    (sets : loaderKernelSetUp fw platform pml4 loaded = .ok objects before)
    (fetch : efiGetMemoryMap fw platform info pml4 before = .ok (status, after) final)
    (member : segment ∈ segments) (inner : segment.phdr.Inner) (inFile : segment.phdr.FitsFile fw)
    (bound : k < segment.phdr.pMemsz) :
    final.mem (segment.base + k) = segment.phdr.imageByte fw k := by
  have inside : segment.extent.Contains (segment.base + k) := by
    have enough := inner.memsz_le
    rw [LoadedSegment.extent_contains]
    omega
  have reserved : Reserved pml4 segment.extent loaded :=
    ⟨all.owned segment member, all.apart segment member⟩
  have arranged := (loaderKernelSetUp_arranged low (all.mapped empty) sets).2
  have spared := loaderKernelSetUp_spares low (all.mapped empty) reserved sets
  have later := efiGetMemoryMap_spares low small arranged.mapped spared.reserved fetch
  rw [(spared.trans later).same _ inside]
  exact all.contents segment member inner inFile k bound

/-- The stages of a run to the jump. -/
theorem loaderKernel_stages {jump : Jump} (maps : fw.MapsFit) (fits : machine.MapFits)
    (run : loaderKernel fw platform machine = .ok jump final) :
    ∃ opened middle loaded objects before status after,
      loaderKernelOpen fw platform machine = .ok opened middle ∧
      loaderKernelPhdrs fw opened.header opened.pml4 middle = .ok () loaded ∧
      loaderKernelSetUp fw platform opened.pml4 loaded = .ok objects before ∧
      efiGetMemoryMap fw platform (opened.jump platform objects).info opened.pml4 before =
        .ok (status, after) final ∧
      before.MapFits ∧ { opened.jump platform objects with info := after } = jump := by
  obtain ⟨opened, middle, opens, rest⟩ := bind_eq_ok.mp (loaderKernel_eq ▸ run)
  rw [bind_of_ok (loaderKernel_passes opens run), loaderKernelLoad] at rest
  obtain ⟨⟨⟩, loaded, loads, rest⟩ := bind_eq_ok.mp rest
  obtain ⟨objects, before, sets, rest⟩ := bind_eq_ok.mp rest
  obtain ⟨status, after, fetch, same⟩ := loaderKernel_reaches opens loads sets run
  have middleFits := (loaderKernelOpen_mapFits maps machine fits).1 _ _ opens
  have loadedFits := (loaderKernelPhdrs_mapFits maps _ _ middle middleFits).1 _ _ loads
  have small := (loaderKernelSetUp_mapFits maps _ loaded loadedFits).1 _ _ sets
  exact ⟨opened, middle, loaded, objects, before, status, after, opens, loads, sets, fetch, small,
    same⟩

/-- The address space of a kernel for the upper half, when its segments have been loaded. -/
theorem UpperKernel.entrySpace {opened : Opened} {loaded before : Machine} {objects : Objects}
    {info after : Info} {status : EfiStatus} {segments : List LoadedSegment}
    (kernel : UpperKernel fw.kernel) (low : AnswersLow fw platform) (small : before.MapFits)
    (opens : loaderKernelOpen fw platform machine = .ok opened middle)
    (fits : ∀ phdr ∈ fileSegments fw.kernel, phdr.Fits)
    (same : segments.map LoadedSegment.phdr = fileSegments fw.kernel)
    (granted : ∀ segment ∈ segments, segment.Granted fw)
    (all : Loaded fw opened.pml4 middle segments loaded)
    (sets : loaderKernelSetUp fw platform opened.pml4 loaded = .ok objects before)
    (fetch : efiGetMemoryMap fw platform info opened.pml4 before = .ok (status, after) final) :
    EntrySpace final.mem opened.pml4 segments objects (mapBuffer fw before) ∧
      ∀ buffer, mapBuffer fw before = some buffer → after.efiMemoryMap = buffer.start := by
  obtain ⟨empty, -⟩ := loaderKernelOpen_ok opens
  obtain ⟨objectsLow, arranged⟩ := loaderKernelSetUp_arranged low (all.mapped empty) sets
  obtain ⟨entered, buffers⟩ := efiGetMemoryMap_arranged low small arranged fetch
  rw [List.append_assoc] at entered
  have phdrOf : ∀ segment ∈ segments, segment.phdr ∈ fileSegments fw.kernel :=
    fun segment member => same ▸ List.mem_map_of_mem member
  have apart : (segments.map LoadedSegment.phdr).Pairwise Elf64Phdr.Apart := by
    rw [same]
    exact Elf64Phdr.pairwise_apart (fun phdr member k => (kernel.upper phdr member).canonical)
      kernel.disjoint
  refine ⟨EntrySpace.of_arranged (fun segment member => kernel.upper _ (phdrOf segment member))
    (fun segment member => fits _ (phdrOf segment member)) apart objectsLow
    (fun buffer found => (buffers buffer found).2) (fun segment member => ?_) entered
    (.inl fun segment member => kernel.notFirst _ (phdrOf segment member)),
    fun buffer found => (buffers buffer found).1⟩
  obtain ⟨asked, answer⟩ := granted segment member
  exact low.pages _ _ _ answer

/-- **What the loader is for.** Let the kernel file be well formed and for the upper half, and let all
memory that the firmware answers with be in the lower half. Whenever `loader_kernel` reaches the
jump, the kernel finds every byte of its segments at its address. -/
theorem loaderKernel_image (fw : Firmware) (platform : Platform) (machine final : Machine)
    (jump : Jump) (low : AnswersLow fw platform) (maps : fw.MapsFit) (fits : machine.MapFits)
    (kernel : UpperKernel fw.kernel) (run : loaderKernel fw platform machine = .ok jump final) :
    EntersImage fw.kernel jump final.mem := by
  obtain ⟨opened, middle, loaded, objects, before, status, after, opens, loads, sets, fetch, small,
    rfl⟩ := loaderKernel_stages maps fits run
  obtain ⟨empty, -⟩ := loaderKernelOpen_ok opens
  obtain ⟨phdrs, parsed, -, parse, -⟩ := loaderKernelPhdrs_ok.mp loads
  have table := loaderParsePhdrs_segments kernel opens parse
  obtain ⟨segments, same, granted, all⟩ := loaderKernelPhdrs_loaded ⟨_, empty⟩ parse
    (by rw [table]; exact fun phdr member => (kernel.upper phdr member).inner) loads
  rw [table] at same
  have sizes : ∀ phdr ∈ fileSegments fw.kernel, phdr.Fits := by
    rw [← table]
    exact fun phdr => loadSegments_fits
  obtain ⟨space, -⟩ := kernel.entrySpace low small opens sizes same granted all sets fetch
  have phdrOf : ∀ segment ∈ segments, segment.phdr ∈ fileSegments fw.kernel :=
    fun segment member => same ▸ List.mem_map_of_mem member
  have upper := fun segment member => kernel.upper _ (phdrOf segment member)
  -- the walk, and the byte that is still where it was loaded
  have found : ∀ segment ∈ segments, ∀ k, k < segment.phdr.pMemsz →
      walk final.mem opened.pml4 (segment.phdr.pVaddr + k) = some ⟨segment.base + k / 4096 * 4096,
        efiElfPhdrFlags segment.phdr.pFlags, true, false⟩ := by
    intro segment member k bound
    rw [← (upper segment member).address_eq bound]
    exact space.segments segment member k bound
  have byte : ∀ segment ∈ segments, ∀ k, k < segment.phdr.pMemsz →
      final.mem (segment.base + k) = segment.phdr.fileByte fw.kernel k := by
    intro segment member k bound
    have phdrMember := phdrOf segment member
    exact all.byte_spared empty low small sets fetch member (upper segment member).inner
      ⟨kernel.ordered _ phdrMember, kernel.inside _ phdrMember⟩ bound
  obtain ⟨physical, onStack, pointer⟩ := space.argument
  have kept : after.image = objects.image := efiGetMemoryMap_image fetch
  have loader : IdentityMapped final.mem opened.pml4 ⟨after.image.imageBase, after.image.imageSize⟩ := by
    rw [kept]
    exact space.image
  refine ⟨(loaderKernelOpen_fields kernel.ehdr opens).1, ?_, ?_, fun k bound =>
    ⟨_, space.stack k bound, rfl, rfl⟩,
    ⟨objects.info, physical, onStack, pointer, space.info⟩, loader⟩
  · rw [← same]
    intro phdr phdrMember k bound
    obtain ⟨segment, member, rfl⟩ := List.mem_map.mp phdrMember
    refine ⟨segment.base + k, ?_, byte segment member k bound⟩
    have aligned := (upper segment member).aligned
    show translate final.mem opened.pml4 _ = _
    rw [translate, found segment member k bound, Option.map_some]
    simp only [pageSize] at aligned ⊢
    exact congrArg some (by omega)
  · rw [← same]
    intro phdr phdrMember k bound
    obtain ⟨segment, member, rfl⟩ := List.mem_map.mp phdrMember
    exact ⟨_, found segment member k bound, rfl, rfl⟩

/-! ## A kernel -/

/-- A segment of two file bytes and two zero bytes near the end of the addresses. -/
def imageSegment : Elf64Phdr := ⟨ptLoad, 6, 120, 0xFFFFFFFF80000000, 0, 2, 4, 0x1000⟩

def imageFile : List UInt8 := kernelFile 0xFFFFFFFF80000000 [imageSegment] [0x11, 0x22]

theorem fileSegments_imageFile : fileSegments imageFile = [imageSegment] := by decide +kernel

theorem imageFile_upper : UpperKernel imageFile where
  ehdr := by decide +kernel
  stride := by decide +kernel
  table := by decide +kernel
  upper := by
    rw [fileSegments_imageFile]
    intro phdr member
    rw [List.mem_singleton.mp member]
    exact ⟨by decide, by decide, by decide, by unfold Elf64Phdr.Inner; decide, by decide⟩
  notFirst := by
    rw [fileSegments_imageFile]
    intro phdr member
    rw [List.mem_singleton.mp member]
    rintro ⟨k, bound, here⟩
    simp only [imageSegment, Elf64Phdr.address, pageOf, pageSize, upperPage] at bound here
    omega
  ordered := by
    rw [fileSegments_imageFile]
    decide
  inside := by
    rw [fileSegments_imageFile]
    decide +kernel
  disjoint := by
    rw [fileSegments_imageFile]
    exact List.pairwise_singleton _ _

theorem imagePlace_aligned : (lowerEnd - 3 * pageSize) % pageSize = 0 := by decide

theorem imagePlace_fits : lowerEnd - 3 * pageSize + 2 * pageSize ≤ lowerEnd := by decide

theorem imageFile_small : imageFile.length < 2 ^ 64 := by decide +kernel

def imageFirmware : Firmware :=
  placingFirmware (lowerEnd - 3 * pageSize) imagePlace_aligned imagePlace_fits imageFile
    imageFile_small

theorem imageFirmware_mapsFit : imageFirmware.MapsFit := fun _ fits => fits

theorem loaderKernel_image_sample :
    ∃ jump final, loaderKernel imageFirmware samplePlatform freshMachine = .ok jump final ∧
      EntersImage imageFile jump final.mem := by
  have runs : returned (loaderKernel imageFirmware samplePlatform freshMachine) = true := by
    decide +kernel
  obtain ⟨jump, final, run⟩ := exists_ok_of_returned runs
  have fits : freshMachine.MapFits := by
    unfold Machine.MapFits
    decide
  exact ⟨jump, final, run, loaderKernel_image imageFirmware samplePlatform freshMachine final jump
    placingFirmware_low imageFirmware_mapsFit fits imageFile_upper run⟩

end VineyardLoader
