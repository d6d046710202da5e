import VineyardLoader.Foundation.Contracts
import VineyardLoader.Loader.KernelImage

/-!
# Pages of the loader's own

From the first page table to the jump, `loader_kernel` does four things to memory. It is granted
pages, it maps a page, it writes to pages that it was granted for something other than a table, and
often it does nothing at all. An invariant that the first three keep (`Tracks`) holds at the jump,
and where the loader stops the weaker condition holds that it leaves (`loaderKernel_tracks`).

The invariant is told which pages the loader has besides the tables: those of the segments
(`Tracks.placed`), the stack and the info page (`Tracks.setUp`), and the memory map
(`Tracks.memoryMap`).
-/

set_option autoImplicit false

namespace VineyardLoader

variable {fw : Firmware} {platform : Platform} {pml4 : Nat} {own : List Extent}
  {machine final : Machine} {left : Machine → Prop} {invariant : List Extent → Machine → Prop}

/-! ## Invariants -/

/-- Memory, and what of it is granted. -/
def Machine.occupied (machine : Machine) : Memory × List Extent := (machine.mem, machine.allocated)

theorem framebufferMode_keeps : Keeps Machine.occupied (framebufferMode fw platform) := by
  refine (efiGopGet_keeps fun _ _ => rfl).bind fun answer => ?_
  cases answer with
  | none => exact Keeps.throw _
  | some gop =>
      refine (framebufferSetup_keeps (fun _ _ => rfl) (fun _ _ => rfl) gop).bind fun _ => ?_
      exact Keeps.get.bind fun _ => Keeps.pure _

/-- An invariant of the tables and of the pages that are no tables, which are listed. -/
structure Tracks (fw : Firmware) (pml4 : Nat) (left : Machine → Prop)
    (invariant : List Extent → Machine → Prop) : Prop where
  map : ∀ own (call : MapCall), call.Mappable →
    Ensures (invariant own) (loaderPagingMap fw pml4 call.physical call.virtual call.flags)
      (fun _ => invariant own) left
  grant : ∀ {own machine final pages base}, invariant own machine →
    fw.allocatePages machine pages = some base →
      final.allocated = ⟨base, pages * pageSize⟩ :: machine.allocated →
        (∀ address, ¬ Extent.Contains ⟨base, pages * pageSize⟩ address →
          final.mem address = machine.mem address) →
            invariant (⟨base, pages * pageSize⟩ :: own) final
  write : ∀ {own machine final}, invariant own machine → final.allocated = machine.allocated →
    (∀ address, (∀ extent ∈ own, ¬ extent.Contains address) →
      final.mem address = machine.mem address) → invariant own final
  stop : ∀ {own machine}, invariant own machine → left machine

namespace Tracks

variable (tracks : Tracks fw pml4 left invariant)
include tracks

theorem of_occupied (holds : invariant own machine) (same : final.occupied = machine.occupied) :
    invariant own final := by
  simp only [Machine.occupied, Prod.mk.injEq] at same
  exact tracks.write holds same.2 fun address _ => by rw [same.1]

/-- What leaves memory alone. -/
theorem keeps {α : Type} {program : Boot α} (keeps : Keeps Machine.occupied program) :
    Ensures (invariant own) program (fun _ => invariant own) left := by
  intro machine holds
  refine ⟨fun value final run => tracks.of_occupied holds (keeps.ok run),
    fun reason stopped run => tracks.stop (tracks.of_occupied holds (keeps.error run))⟩

theorem pages (pages : Nat) :
    Ensures (invariant own) (uefiAllocPages fw pages)
      (fun addr machine => invariant (⟨addr, pages * pageSize⟩ :: own) machine ∧
        ∃ asked, fw.allocatePages asked pages = some addr) left := by
  intro machine holds
  refine ⟨fun addr final run => ?_, fun reason stopped run => ?_⟩
  · obtain ⟨granted, rfl⟩ := uefiAllocPages_ok.mp run
    refine ⟨tracks.grant holds granted rfl fun address outside => machine.mem.fill_outside ?_,
      machine, granted⟩
    simp only [Extent.Contains, pageSize] at outside
    rw [Nat.shiftLeft_eq]
    omega
  · obtain ⟨-, -, rfl⟩ := uefiAllocPages_error.mp run
    exact tracks.stop holds

theorem maps {calls : List MapCall} (mappable : ∀ call ∈ calls, call.Mappable) :
    Ensures (invariant own) (loaderPagingMapAll fw pml4 calls) (fun _ => invariant own) left :=
  Ensures.forM fun call member => tracks.map own call (mappable call member)

/-- Outside its object a write stops the program. -/
theorem object {object : Extent} (owned : object ∈ own) (place size : Nat)
    (source : Nat → UInt8) :
    Ensures (invariant own) (writeObject object place size source) (fun _ => invariant own)
      left := by
  refine Ensures.ite (fun allowed => Ensures.modify fun machine holds => ?_) fun _ =>
    Ensures.throw fun _ holds => tracks.stop holds
  refine tracks.write holds rfl fun address outside => machine.mem.overwrite_outside ?_
  have notObject := outside object owned
  simp only [Extent.Contains] at notObject
  omega

/-! ## The segments -/

/-- A turn of the loop of `loader_kernel_phdrs` with the pages that the firmware grants. -/
theorem placed {phdr : Elf64Phdr} {base : Nat} (fits : phdr.Fits) (inner : phdr.Inner)
    (holds : invariant own machine) (granted : fw.allocatePages machine phdr.pages = some base) :
    Ensures (fun state => state = machine) (loadSegment fw pml4 phdr)
      (fun _ => invariant (LoadedSegment.extent ⟨phdr, base⟩ :: own)) left := by
  rintro _ rfl
  obtain ⟨stopped, rest⟩ := loadSegment_eq pml4 granted
  have isPages : LoadedSegment.IsPages ⟨phdr, base⟩ :=
    ⟨fw.allocatePages_aligned _ _ _ granted, fw.allocatePages_below _ _ _ granted⟩
  have owned : LoadedSegment.extent ⟨phdr, base⟩ ∈ LoadedSegment.extent ⟨phdr, base⟩ :: own :=
    List.mem_cons_self
  have place : Ensures (invariant (LoadedSegment.extent ⟨phdr, base⟩ :: own))
      (placeSegment fw pml4 ⟨phdr, base⟩)
      (fun _ => invariant (LoadedSegment.extent ⟨phdr, base⟩ :: own)) left := by
    refine (tracks.object owned _ _ _).bind fun _ => ?_
    refine Ensures.bind (tracks.keeps (Keeps.modify fun _ => rfl)) fun _ => ?_
    refine (tracks.maps (LoadedSegment.calls_mappable fits inner isPages)).bind fun _ => ?_
    exact Ensures.ite (fun _ => tracks.object owned _ _ _) fun _ => Ensures.pure fun _ => id
  rw [rest]
  exact place _ (tracks.grant holds granted rfl fun _ _ => rfl)

/-- A turn of the loop of `loader_kernel_phdrs`. -/
theorem segment {phdr : Elf64Phdr} (fits : phdr.Fits) (inner : phdr.Inner) :
    Ensures (fun machine => ∃ own, invariant own machine) (loadSegment fw pml4 phdr)
      (fun _ machine => ∃ own, invariant own machine) left := by
  rintro machine ⟨own, holds⟩
  cases granted : fw.allocatePages machine phdr.pages with
  | none =>
      rw [loadSegment, bind_of_ok (callAllocatePages_none granted)]
      exact Ensures.throw (fun _ other => tracks.stop other) machine holds
  | some base =>
      exact (tracks.placed fits inner holds granted).weaken (fun _ => id)
        (fun _ _ after => ⟨_, after⟩) machine rfl

theorem phdrs {header : Elf64Ehdr} (holds : invariant own machine)
    (inner : ∀ phdrs parsed, loaderParsePhdrs fw header machine = .ok phdrs parsed →
      ∀ phdr ∈ loadSegments header phdrs, phdr.Inner) :
    Ensures (fun state => state = machine) (loaderKernelPhdrs fw header pml4)
      (fun _ final => ∃ own, invariant own final) left := by
  have keeps : Keeps Machine.occupied (loaderParsePhdrs fw header) :=
    loaderParsePhdrs_keeps (fun _ _ => rfl) (fun _ _ => rfl) header
  have parse : Ensures (fun state => state = machine) (loaderParsePhdrs fw header)
      (fun phdrs state => invariant own state ∧
        ∃ parsed, loaderParsePhdrs fw header machine = .ok phdrs parsed) left := by
    rintro _ rfl
    exact ⟨fun phdrs parsed run => ⟨tracks.of_occupied holds (keeps.ok run), parsed, run⟩,
      fun reason stopped run => tracks.stop (tracks.of_occupied holds (keeps.error run))⟩
  refine parse.bind fun phdrs => Ensures.assume fun ⟨parsed, run⟩ => ?_
  refine Ensures.check (fun _ other => tracks.stop other) ?_
  rw [phdrLoop_eq_forM]
  have loop : Ensures (fun state => ∃ own, invariant own state)
      ((loadSegments header phdrs).forM (loadSegment fw pml4))
      (fun _ state => ∃ own, invariant own state) left :=
    Ensures.forM fun phdr member =>
      tracks.segment (loadSegments_fits member) (inner phdrs parsed run phdr member)
  refine (loop.weaken (fun state held => ⟨own, held⟩) fun _ _ => id).bind fun _ => ?_
  refine Ensures.exists_ fun more => ?_
  exact (tracks.keeps (free_keeps (fun _ _ => rfl) phdrs)).weaken (fun _ => id)
    fun _ _ after => ⟨more, after⟩

/-! ## The objects of the kernel -/

theorem mode (low : AnswersLow fw platform) :
    Ensures (invariant own) (framebufferMode fw platform)
      (fun mode machine => invariant own machine ∧ mode.Low) left := by
  intro machine holds
  obtain ⟨returns, stops⟩ := tracks.keeps framebufferMode_keeps machine holds
  refine ⟨fun mode final run => ⟨returns mode final run, ?_⟩, stops⟩
  obtain ⟨⟨asked, index, gop, active, answers, rfl⟩, -⟩ := framebufferMode_ok run
  exact low.mode _ _ _ _ answers

theorem image (low : AnswersLow fw platform) :
    Ensures (invariant own) (efiGetImage platform)
      (fun image machine => invariant own machine ∧ image.Low) left := by
  intro machine holds
  obtain ⟨returns, stops⟩ :=
    tracks.keeps (Keeps.get.bind fun _ => orExit_keeps _ : Keeps _ (efiGetImage platform))
      machine holds
  refine ⟨fun image final run => ⟨returns image final run, ?_⟩, stops⟩
  obtain ⟨answers, -⟩ := efiGetImage_ok run
  exact low.image _ _ answers

/-- The stack and the info page are granted, and the tables grow. -/
theorem setUp (low : AnswersLow fw platform) :
    Ensures (invariant own) (loaderKernelSetUp fw platform pml4)
      (fun objects => invariant
        (⟨objects.info, 1 * pageSize⟩ :: ⟨objects.stack, 33 * pageSize⟩ :: own)) left := by
  refine Ensures.get.bind fun _ => Ensures.check (fun _ holds => tracks.stop holds) ?_
  refine (tracks.pages 33).bind fun stack => Ensures.assume fun ⟨asked, stackAnswer⟩ => ?_
  refine (tracks.pages 1).bind fun info => Ensures.assume fun ⟨other, infoAnswer⟩ => ?_
  have stackLow := low.pages _ _ _ stackAnswer
  have infoLow := low.pages _ _ _ infoAnswer
  have stackAligned := fw.allocatePages_aligned _ _ _ stackAnswer
  have infoAligned := fw.allocatePages_aligned _ _ _ infoAnswer
  have first : ∀ call ∈ (⟨info, info, identityFlags⟩ : MapCall) :: stackCalls stack,
      call.Mappable := by
    refine List.forall_mem_cons.mpr ⟨?_, stackCalls_mappable stackAligned stackLow⟩
    rw [identityCall_of_aligned infoAligned]
    have pages := lowerEnd_eq
    exact MapCall.IsIdentity.mappable ⟨_, by omega, rfl⟩
  refine (tracks.maps first).bind fun _ => ?_
  -- the pointer to the info page goes to the stack
  have argument : Ensures (invariant (⟨info, 1 * pageSize⟩ :: ⟨stack, 33 * pageSize⟩ :: own))
      (writeWord (stack + stackSize - 8 * 4) info)
      (fun _ => invariant (⟨info, 1 * pageSize⟩ :: ⟨stack, 33 * pageSize⟩ :: own)) left := by
    refine Ensures.modify fun machine holds => tracks.write holds rfl fun address outside => ?_
    have notStack := outside ⟨stack, 33 * pageSize⟩ (by simp)
    simp only [Extent.Contains, pageSize] at notStack
    apply machine.mem.store64_outside
    simp only [stackSize]
    omega
  refine argument.bind fun _ => ?_
  refine (tracks.mode low).bind fun mode => Ensures.assume fun modeLow => ?_
  refine (tracks.maps fun call member =>
    (modeCalls_isIdentity modeLow call member).mappable).bind fun _ => ?_
  refine (tracks.image low).bind fun image => Ensures.assume fun imageLow => ?_
  refine (tracks.maps fun call member =>
    (sizeCalls_isIdentity imageLow.aligned imageLow.below call member).mappable).bind fun _ => ?_
  exact Ensures.pure fun _ => id

/-! ## The memory map -/

theorem fetch {info : Info} {arguments : MapAnswer} {size : Nat}
    (owned : ⟨info.efiMemoryMap, size⟩ ∈ own) (fits : arguments.size ≤ size) :
    Ensures (invariant own) (fetchMemoryMap fw info arguments) (fun _ => invariant own) left := by
  have call : Ensures (invariant own) (callGetMemoryMap fw info.efiMemoryMap arguments)
      (fun _ => invariant own) left := by
    refine Ensures.of_ok fun machine holds => ?_
    obtain ⟨status, answer, called, call, allocated, same⟩ :=
      @callGetMemoryMap_frame fw machine info.efiMemoryMap arguments
    refine ⟨(status, answer), called, call, tracks.write holds allocated fun address outside => ?_⟩
    have notBuffer := outside _ owned
    simp only [Extent.Contains] at notBuffer
    exact same address (by simp only [Extent.Contains]; omega)
  have exits : ∀ key, Keeps Machine.occupied (exitBootServices fw key) := by
    intro key machine
    rw [exitBootServices, bind_of_ok (get_run _)]
    split
    · rfl
    · rfl
  refine call.bind fun answer => Ensures.ite (fun _ => Ensures.pure fun _ => id) fun _ => ?_
  refine Ensures.check (fun _ holds => tracks.stop holds) ?_
  exact Ensures.bind (tracks.keeps (exits _)) fun _ => Ensures.pure fun _ => id

/-- The memory map is granted pages, unless the firmware refuses. -/
theorem memoryMap (low : AnswersLow fw platform) (info : Info) (holds : invariant own machine)
    (small : machine.MapFits) :
    Ensures (fun state => state = machine) (efiGetMemoryMap fw platform info pml4)
      (fun _ => invariant ((mapBuffer fw machine).toList ++ own)) left := by
  rintro _ rfl
  rcases efiGetMemoryMap_cases fw platform info pml4 _ with
    ⟨_, _, returns, refused⟩ | ⟨buffer, asked, arguments, maps, answers, granted, pointer, size⟩
  · rw [returns, mapBuffer_eq_none refused]
    refine ⟨fun value final run => ?_, nofun⟩
    cases run
    exact holds
  · rw [maps, mapBuffer_eq_some answers granted]
    generalize mapped : mapPages _ = pages at granted ⊢
    have below := low.pages _ _ _ granted
    have fits : arguments.size ≤ pages * pageSize := by
      rw [size, ← mapped]
      exact le_mapPages small
    have owned : (⟨asked.efiMemoryMap, pages * pageSize⟩ : Extent) ∈
        ⟨buffer, pages * pageSize⟩ :: own := by
      rw [pointer]
      exact List.mem_cons_self
    have shift : pages <<< 12 = pages * pageSize := Nat.shiftLeft_eq _ _
    have flags : pageWrite ||| pagePresent = identityFlags := rfl
    rw [shift, flags, loaderPagingMapAddr_eq]
    have rest : Ensures (invariant (⟨buffer, pages * pageSize⟩ :: own)) (do
        loaderPagingMapAll fw pml4 (addrCalls buffer (pages * pageSize))
        fetchMemoryMap fw asked arguments)
        (fun _ => invariant (⟨buffer, pages * pageSize⟩ :: own)) left :=
      (tracks.maps fun call member =>
        (addrCalls_isIdentity (by omega) call member).mappable).bind fun _ =>
          tracks.fetch owned fits
    exact rest _ (tracks.grant holds granted rfl fun _ _ => rfl)

end Tracks

/-! ## The whole run -/

/-- No loadable entry of the table that the loader parses lies in the slot of the self-map. -/
def InnerTable (fw : Firmware) (platform : Platform) (machine : Machine) : Prop :=
  ∀ opened middle phdrs parsed, loaderKernelOpen fw platform machine = .ok opened middle →
    loaderParsePhdrs fw opened.header middle = .ok phdrs parsed →
      ∀ phdr ∈ loadSegments opened.header phdrs, phdr.Inner

/-- For a file with its table in it this is a condition on the file. -/
theorem UpperKernel.innerTable (kernel : UpperKernel fw.kernel) : InnerTable fw platform machine := by
  intro opened middle phdrs parsed opens parse
  rw [loaderParsePhdrs_segments kernel opens parse]
  exact fun phdr member => (kernel.upper phdr member).inner

/-- The stage that opens the file grants nothing but the new tables. -/
theorem loaderKernelOpen_tracks {invariant : Nat → List Extent → Machine → Prop}
    (tracks : ∀ pml4, Tracks fw pml4 left (invariant pml4))
    (setup : Ensures (fun state => state = machine) (loaderPagingSetup fw)
      (fun pml4 => invariant pml4 []) left) :
    Ensures (fun state => state = machine) (loaderKernelOpen fw platform)
      (fun opened => invariant opened.pml4 []) left := by
  refine setup.bind fun pml4 => Ensures.bind ((tracks pml4).keeps fsOpen_keeps) fun _ => ?_
  refine Ensures.bind ((tracks pml4).keeps (fsGetFileInfo_keeps fun _ _ => rfl)) fun fileInfo => ?_
  refine Ensures.bind ((tracks pml4).keeps (malloc_keeps (fun _ _ => rfl) _)) fun copy => ?_
  refine Ensures.bind ((tracks pml4).keeps (fsRead_keeps (fun _ _ => rfl) _ _ _)) fun copy => ?_
  refine Ensures.bind ((tracks pml4).keeps (loaderParseHeader_keeps fun _ _ => rfl)) fun _ => ?_
  exact Ensures.pure fun _ => id

/-- **An invariant of the tables and of the other pages holds at the jump**, if it holds of new
tables. -/
theorem loaderKernel_tracks {invariant : Nat → List Extent → Machine → Prop}
    (tracks : ∀ pml4, Tracks fw pml4 left (invariant pml4))
    (setup : Ensures (fun state => state = machine) (loaderPagingSetup fw)
      (fun pml4 => invariant pml4 []) left)
    (low : AnswersLow fw platform) (maps : fw.MapsFit) (fits : machine.MapFits)
    (inner : InnerTable fw platform machine) :
    Ensures (fun state => state = machine) (loaderKernel fw platform)
      (fun jump final => ∃ own, invariant jump.pml4 own final) left := by
  have opening := @loaderKernelOpen_tracks fw platform machine left invariant tracks setup
  have known : Ensures (fun state => state = machine) (loaderKernelOpen fw platform)
      (fun opened middle => (invariant opened.pml4 [] middle ∧ middle.MapFits) ∧
        loaderKernelOpen fw platform machine = .ok opened middle) left := by
    rintro _ rfl
    refine ⟨fun opened middle opens => ⟨⟨(opening _ rfl).1 _ _ opens, ?_⟩, opens⟩,
      (opening _ rfl).2⟩
    exact (loaderKernelOpen_mapFits maps _ fits).1 _ _ opens
  rw [loaderKernel_eq]
  refine known.bind fun opened => ?_
  rintro middle ⟨⟨holds, middleFits⟩, opens⟩
  have check : Ensures (fun state => state = middle) (elfHeaderCheck opened.header)
      (fun _ state => state = middle ∧ state.MapFits) left := by
    have keeps : Keeps id (elfHeaderCheck opened.header) := elfHeaderCheck_keeps _
    intro state same
    refine ⟨fun _ final run => ?_, fun reason stopped run => ?_⟩
    · have kept : final = middle := (keeps.ok run).trans same
      exact ⟨kept, kept ▸ middleFits⟩
    · have kept : stopped = middle := (keeps.error run).trans same
      exact (tracks opened.pml4).stop (kept ▸ holds)
  have loads := ((tracks opened.pml4).phdrs holds (inner opened middle · · opens)).and
    (loaderKernelPhdrs_mapFits maps opened.header opened.pml4).ensures
  have sets := fun own => (@Tracks.setUp fw platform opened.pml4 own left _
    (tracks opened.pml4) low).and (loaderKernelSetUp_mapFits maps opened.pml4).ensures
  have rest : Ensures (fun state => state = middle) (do
      elfHeaderCheck opened.header
      loaderKernelLoad fw platform opened)
      (fun jump final => ∃ own, invariant jump.pml4 own final) left := by
    refine check.bind fun _ => loads.bind fun _ => ?_
    rintro loaded ⟨⟨own, held⟩, loadedFits⟩
    refine (sets own).bind (fun objects => ?_) loaded ⟨held, loadedFits⟩
    rintro before ⟨set, beforeFits⟩
    refine (((tracks opened.pml4).memoryMap low _ set beforeFits).bind fun fetched => ?_) before rfl
    exact Ensures.pure fun final after => ⟨_, after⟩
  exact rest middle rfl

end VineyardLoader
