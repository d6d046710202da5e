import VineyardLoader.Loader.HandOff
import VineyardLoader.Loader.Ranges

/-!
# What the loader arranges for the kernel

After the segments, `loader_kernel` allocates the stack and the info page, maps them with the
mode structures, the frame buffer and its own image, puts the pointer to the info page on the
stack, and fetches the memory map into pages that it maps as well.

The tables hold the calls of `loader_paging_map` so far (`Mapped`), and the stack is memory of
its own (`Reserved`), so the pointer stays where it was put (`Arranged`). Both stages keep this
and add their calls (`loaderKernelSetUp_arranged`, `efiGetMemoryMap_arranged`).
-/

set_option autoImplicit false

namespace VineyardLoader

variable {fw : Firmware} {platform : Platform} {machine final : Machine} {pml4 : Nat}
  {calls : List MapCall}

/-! ## Tables and memory of its own -/

/-- The tables hold a sequence of calls. -/
structure Mapped (pml4 : Nat) (calls : List MapCall) (machine : Machine) : Prop where
  holds : HoldsTables machine pml4
  walks : ∀ v, slice v 39 ≠ selfMapSlot →
    walk machine.mem pml4 v = (lastFor calls (pageOf v)).map MapCall.translation

/-- Allocated memory that holds no table. -/
structure Reserved (pml4 : Nat) (extent : Extent) (machine : Machine) : Prop where
  owned : extent ∈ machine.allocated
  apart : ∀ path table, path.length ≤ 3 → tableAt machine.mem pml4 path = some table →
    extent.Disjoint (tableExtent table)

theorem Mapped.maps {more : List MapCall} (mapped : Mapped pml4 calls machine)
    (mappable : ∀ call ∈ more, call.Mappable)
    (run : loaderPagingMapAll fw pml4 more machine = .ok () final) :
    Mapped pml4 (calls ++ more) final ∧ Grows pml4 machine final := by
  obtain ⟨holds, grows, walks⟩ := loaderPagingMapAll_walk mapped.holds mappable run
  refine ⟨⟨holds, fun v inner => ?_⟩, grows⟩
  rw [walks v inner, mapped.walks v inner, lastFor_append, Option.map_or]

theorem Reserved.grows {extent : Extent} (reserved : Reserved pml4 extent machine)
    (grows : Grows pml4 machine final) :
    Reserved pml4 extent final ∧
      ∀ address, extent.Contains address → final.mem address = machine.mem address := by
  refine ⟨⟨grows.allocated _ reserved.owned, fun path table short ends => ?_⟩, ?_⟩
  · rcases grows.fresh path table short ends with old | apart
    · exact reserved.apart path table short old
    · exact (apart extent reserved.owned).symm
  · intro address inside
    refine grows.others address ⟨extent, reserved.owned, inside⟩ ?_
    intro path table short ends inTable
    exact reserved.apart path table short ends address inside inTable

/-- Pages that are granted hold no table. -/
theorem Reserved.granted {pages base : Nat} (mapped : Mapped pml4 calls machine)
    (granted : fw.allocatePages machine pages = some base) :
    Reserved pml4 ⟨base, pages * pageSize⟩ (machine.withPages fw base pages) where
  owned := List.mem_cons_self
  apart path table short ends := fw.allocatePages_fresh _ _ _ granted _
    (mapped.holds.tree.owned path table short ends)

section Agree

variable {other : Machine}
  (agree : ∀ path table, path.length ≤ 3 → tableAt machine.mem pml4 path = some table →
    ∀ address, (tableExtent table).Contains address → other.mem address = machine.mem address)
  (allocated : ∀ extent ∈ machine.allocated, extent ∈ other.allocated)
include agree allocated

theorem Mapped.of_agree (mapped : Mapped pml4 calls machine) : Mapped pml4 calls other := by
  obtain ⟨holds, walks⟩ := mapped.holds.of_agree agree allocated
  refine ⟨holds, fun v inner => ?_⟩
  rw [walks v inner, mapped.walks v inner]

theorem Reserved.of_agree {extent : Extent} (reserved : Reserved pml4 extent machine) :
    Reserved pml4 extent other := by
  refine ⟨allocated _ reserved.owned, fun path table short ends => ?_⟩
  rw [tableAt_of_agree agree path short] at ends
  exact reserved.apart path table short ends

theorem Mapped.and_reserved_of_agree (mapped : Mapped pml4 calls machine) :
    Mapped pml4 calls other ∧ ∀ range, Reserved pml4 range machine → Reserved pml4 range other :=
  ⟨mapped.of_agree agree allocated, fun _ range => range.of_agree agree allocated⟩

end Agree

/-- A write to reserved memory keeps the tables. -/
theorem Mapped.of_reserved {extent : Extent} {other : Machine} (mapped : Mapped pml4 calls machine)
    (reserved : Reserved pml4 extent machine)
    (same : ∀ address, ¬ extent.Contains address → other.mem address = machine.mem address)
    (allocated : ∀ extent ∈ machine.allocated, extent ∈ other.allocated) :
    Mapped pml4 calls other ∧ ∀ range, Reserved pml4 range machine → Reserved pml4 range other := by
  refine mapped.and_reserved_of_agree ?_ allocated
  intro path table short ends address inTable
  exact same address fun inside => reserved.apart path table short ends address inside inTable

/-- The same memory with more of it allocated. -/
theorem Mapped.of_same {other : Machine} (mapped : Mapped pml4 calls machine)
    (same : other.mem = machine.mem)
    (allocated : ∀ extent ∈ machine.allocated, extent ∈ other.allocated) :
    Mapped pml4 calls other ∧ ∀ range, Reserved pml4 range machine → Reserved pml4 range other := by
  refine mapped.and_reserved_of_agree ?_ allocated
  intro path table short ends address inTable
  rw [same]

/-- Zeroed pages are memory of their own. -/
theorem uefiAllocPages_reserved {pages addr : Nat} (mapped : Mapped pml4 calls machine)
    (run : uefiAllocPages fw pages machine = .ok addr final) :
    Mapped pml4 calls final ∧ Reserved pml4 ⟨addr, pages * pageSize⟩ final ∧
      ∀ range, Reserved pml4 range machine → Reserved pml4 range final := by
  obtain ⟨granted, rfl⟩ := uefiAllocPages_ok.mp run
  have reserved := Reserved.granted mapped granted
  obtain ⟨before, kept⟩ : Mapped pml4 calls (machine.withPages fw addr pages) ∧ _ :=
    mapped.of_same rfl fun _ member => List.mem_cons_of_mem _ member
  have outside : ∀ address, ¬ Extent.Contains ⟨addr, pages * pageSize⟩ address →
      machine.mem.fill addr (pages <<< 12) 0 address = machine.mem address := by
    intro address outside
    simp only [Extent.Contains, pageSize] at outside
    apply machine.mem.fill_outside
    rw [Nat.shiftLeft_eq]
    omega
  obtain ⟨after, others⟩ : Mapped pml4 calls { machine.withPages fw addr pages with
      mem := machine.mem.fill addr (pages <<< 12) 0 } ∧ _ :=
    before.of_reserved reserved outside fun _ member => member
  exact ⟨after, others _ reserved, fun range old => others _ (kept range old)⟩

/-! ## The stack and its argument -/

/-- The pages of the stack. -/
def stackExtent (stack : Nat) : Extent := ⟨stack, 33 * pageSize⟩

/-- The tables hold the calls so far, and the stack, which is memory of its own, has the
pointer to the info page. -/
structure Arranged (pml4 : Nat) (calls : List MapCall) (stack info : Nat) (machine : Machine) :
    Prop where
  mapped : Mapped pml4 calls machine
  reserved : Reserved pml4 (stackExtent stack) machine
  argument : machine.mem.load64 (stack + stackSize - 8 * 4) = info

section Arranged

variable {stack info : Nat}

/-- The argument lies in the stack. -/
theorem load64_argument {other : Machine}
    (same : ∀ address, (stackExtent stack).Contains address →
      other.mem address = machine.mem address) :
    other.mem.load64 (stack + stackSize - 8 * 4) = machine.mem.load64 (stack + stackSize - 8 * 4) := by
  refine Memory.load64_congr fun index bound => same _ ?_
  simp only [stackExtent, Extent.Contains, stackSize, pageSize]
  omega

theorem Arranged.maps {more : List MapCall} (arranged : Arranged pml4 calls stack info machine)
    (mappable : ∀ call ∈ more, call.Mappable)
    (run : loaderPagingMapAll fw pml4 more machine = .ok () final) :
    Arranged pml4 (calls ++ more) stack info final := by
  obtain ⟨mapped, grows⟩ := arranged.mapped.maps mappable run
  obtain ⟨reserved, same⟩ := arranged.reserved.grows grows
  exact ⟨mapped, reserved, (load64_argument same).trans arranged.argument⟩

/-- A write to memory that is reserved and apart from the stack changes nothing. -/
theorem Arranged.of_reserved {extent : Extent} {other : Machine}
    (arranged : Arranged pml4 calls stack info machine) (reserved : Reserved pml4 extent machine)
    (apart : extent.Disjoint (stackExtent stack))
    (same : ∀ address, ¬ extent.Contains address → other.mem address = machine.mem address)
    (allocated : ∀ extent ∈ machine.allocated, extent ∈ other.allocated) :
    Arranged pml4 calls stack info other := by
  obtain ⟨mapped, others⟩ := arranged.mapped.of_reserved reserved same allocated
  refine ⟨mapped, others _ arranged.reserved, ?_⟩
  rw [load64_argument fun address inside => same address fun here => apart address here inside]
  exact arranged.argument

theorem Arranged.of_same {other : Machine} (arranged : Arranged pml4 calls stack info machine)
    (same : other.mem = machine.mem)
    (allocated : ∀ extent ∈ machine.allocated, extent ∈ other.allocated) :
    Arranged pml4 calls stack info other := by
  obtain ⟨mapped, others⟩ := arranged.mapped.of_same same allocated
  refine ⟨mapped, others _ arranged.reserved, ?_⟩
  rw [same]
  exact arranged.argument

/-- The pointer to the info page is put on the stack. -/
theorem Mapped.writeArgument (mapped : Mapped pml4 calls machine)
    (reserved : Reserved pml4 (stackExtent stack) machine) (fits : info < 2 ^ 64) :
    Arranged pml4 calls stack info { machine with
      mem := machine.mem.store64 (stack + stackSize - 8 * 4) info } := by
  have outside : ∀ address, ¬ (stackExtent stack).Contains address →
      machine.mem.store64 (stack + stackSize - 8 * 4) info address = machine.mem address := by
    intro address outside
    simp only [stackExtent, Extent.Contains, pageSize] at outside
    apply machine.mem.store64_outside
    simp only [stackSize]
    omega
  obtain ⟨after, others⟩ : Mapped pml4 calls { machine with
      mem := machine.mem.store64 (stack + stackSize - 8 * 4) info } ∧ _ :=
    mapped.of_reserved reserved outside fun _ member => member
  exact ⟨after, others _ reserved, machine.mem.load64_store64 _ fits⟩

end Arranged

/-! ## Low addresses -/

/-- A mode with everything in the lower half and an aligned frame buffer. -/
structure GopMode.Low (mode : GopMode) : Prop where
  address : mode.address < lowerEnd
  info : mode.info < lowerEnd
  aligned : mode.frameBufferBase % pageSize = 0
  frameBuffer : mode.frameBufferBase + mode.frameBufferSize ≤ lowerEnd

/-- An aligned image in the lower half. -/
structure LoadedImage.Low (image : LoadedImage) : Prop where
  aligned : image.imageBase % pageSize = 0
  below : image.imageBase + image.imageSize ≤ lowerEnd

/-- All memory that the firmware answers with lies in the lower half, and the image and the
frame buffer are aligned. -/
structure AnswersLow (fw : Firmware) (platform : Platform) : Prop where
  pages : ∀ machine pages base, fw.allocatePages machine pages = some base →
    base + pages * pageSize ≤ lowerEnd
  mode : ∀ machine index gop active, platform.openGop machine index = some (some gop) →
    (gop.mode active).Low
  image : ∀ machine image, platform.loadedImage machine = some image → image.Low

/-- The objects of the kernel, aligned and in the lower half. -/
structure Objects.Low (objects : Objects) : Prop where
  stackAligned : objects.stack % pageSize = 0
  stackBelow : objects.stack + 33 * pageSize ≤ lowerEnd
  infoAligned : objects.info % pageSize = 0
  infoBelow : objects.info + pageSize ≤ lowerEnd
  mode : objects.mode.Low
  image : objects.image.Low

/-! ## The stages after the segments -/

/-- The mode is one that the platform answers with, and memory is left alone. -/
theorem gopLoop_ok {gop : Gop} : ∀ {remaining i : Nat} {machine : Machine},
    gopLoop platform remaining i machine = .ok (some gop) final →
      ∃ asked index, platform.openGop asked index = some (some gop) := by
  intro remaining
  induction remaining with
  | zero =>
      intro i machine run
      cases run
  | succ remaining ih =>
      intro i machine run
      rw [gopLoop, bind_of_ok (get_run _)] at run
      cases answer : platform.openGop machine i with
      | none =>
          rw [answer] at run
          cases run
      | some found =>
          rw [answer] at run
          cases found with
          | none => exact ih run
          | some other =>
              cases run
              exact ⟨_, i, answer⟩

theorem framebufferMode_ok {mode : GopMode}
    (run : framebufferMode fw platform machine = .ok mode final) :
    (∃ asked index gop active, platform.openGop asked index = some (some gop) ∧
      mode = gop.mode active) ∧ final.store = machine.store := by
  obtain ⟨answer, found, get_, rest⟩ := bind_eq_ok.mp run
  cases answer with
  | none => cases rest
  | some gop =>
      obtain ⟨selected, active, setup, rest⟩ := bind_eq_ok.mp rest
      cases rest
      have kept : final.store = machine.store :=
        ((framebufferSetup_keeps (fun _ _ => rfl) (fun _ _ => rfl) gop).ok setup).trans
          ((efiGopGet_keeps fun _ _ => rfl).ok get_)
      obtain ⟨handles, num, -, loop⟩ := bind_eq_ok.mp get_
      obtain ⟨count, answered, -, loop⟩ := bind_eq_ok.mp loop
      obtain ⟨⟨⟩, touched, -, loop⟩ := bind_eq_ok.mp loop
      obtain ⟨asked, index, answers⟩ := gopLoop_ok loop
      exact ⟨⟨asked, index, gop, final.mode, answers, rfl⟩, kept⟩

theorem efiGetImage_ok {image : LoadedImage}
    (run : efiGetImage platform machine = .ok image final) :
    platform.loadedImage machine = some image ∧ final = machine := by
  rw [efiGetImage, bind_of_ok (get_run _)] at run
  cases answer : platform.loadedImage machine with
  | none =>
      rw [answer] at run
      cases run
  | some found =>
      rw [answer] at run
      cases run
      exact ⟨rfl, rfl⟩

/-- The calls of the stage that sets up the objects. -/
def Objects.mapCalls (objects : Objects) : List MapCall :=
  (identityCall (objects.info / 4096) :: stackCalls objects.stack) ++
    (modeCalls objects.mode ++ sizeCalls objects.image.imageBase objects.image.imageSize)

theorem modeCalls_isIdentity {mode : GopMode} (low : mode.Low) :
    ∀ call ∈ modeCalls mode, call.IsIdentity := by
  have address := low.address
  have info := low.info
  intro call member
  rcases List.mem_append.mp member with first | rest
  · exact addrCalls_isIdentity (by omega) call first
  rcases List.mem_append.mp rest with second | third
  · exact addrCalls_isIdentity (by omega) call second
  · exact sizeCalls_isIdentity low.aligned low.frameBuffer call third

theorem stackCalls_mappable {stack : Nat} (aligned : stack % pageSize = 0)
    (below : stack + 33 * pageSize ≤ lowerEnd) : ∀ call ∈ stackCalls stack, call.Mappable := by
  intro call member
  obtain ⟨i, bound, rfl⟩ := List.mem_map.mp member
  rw [List.mem_range] at bound
  simp only [pageSize, lowerEnd] at *
  simp only [Nat.shiftLeft_eq]
  refine ⟨?_, ?_, ?_, (by decide : ValidFlags (pagePresent ||| pageWrite ||| pageNx))⟩
  · simp only [stackBase]
    omega
  · simp only [slice, selfMapSlot, stackBase]
    omega
  · simp only [IsPage, pageSize, physicalEnd]
    omega

section Low

variable {objects : Objects} (low : objects.Low)
include low

theorem Objects.Low.info_lt : objects.info < 2 ^ 64 := by
  have below := low.infoBelow
  simp only [lowerEnd] at below
  omega

theorem Objects.Low.info_isIdentity : (identityCall (objects.info / 4096)).IsIdentity := by
  have pages := lowerEnd_eq
  have below := low.infoBelow
  exact ⟨_, by omega, rfl⟩

/-- The calls for the info page and the stack. -/
theorem Objects.Low.first_mappable :
    ∀ call ∈ identityCall (objects.info / 4096) :: stackCalls objects.stack, call.Mappable := by
  intro call member
  rcases List.mem_cons.mp member with rfl | onStack
  · exact low.info_isIdentity.mappable
  · exact stackCalls_mappable low.stackAligned low.stackBelow call onStack

end Low

/-- **The stage that sets up the objects adds their calls**, and leaves the pointer to the
info page on the stack. -/
theorem loaderKernelSetUp_arranged {objects : Objects} (low : AnswersLow fw platform)
    (mapped : Mapped pml4 calls machine)
    (run : loaderKernelSetUp fw platform pml4 machine = .ok objects final) :
    objects.Low ∧ Arranged pml4 (calls ++ objects.mapCalls) objects.stack objects.info final := by
  rw [loaderKernelSetUp, bind_of_ok (get_run _)] at run
  obtain ⟨-, run⟩ := check_eq_ok.mp run
  obtain ⟨stack, first, allocStack, run⟩ := bind_eq_ok.mp run
  obtain ⟨info, second, allocInfo, run⟩ := bind_eq_ok.mp run
  obtain ⟨⟨⟩, third, maps, run⟩ := bind_eq_ok.mp run
  rw [bind_of_ok (writeWord_run _ _ _)] at run
  obtain ⟨mode, fourth, graphics, run⟩ := bind_eq_ok.mp run
  obtain ⟨⟨⟩, fifth, mapsMode, run⟩ := bind_eq_ok.mp run
  obtain ⟨image, sixth, finds, run⟩ := bind_eq_ok.mp run
  obtain ⟨⟨⟩, seventh, mapsImage, run⟩ := bind_eq_ok.mp run
  cases run
  obtain ⟨stackGranted, -⟩ := uefiAllocPages_ok.mp allocStack
  obtain ⟨infoGranted, -⟩ := uefiAllocPages_ok.mp allocInfo
  obtain ⟨image_, rfl⟩ := efiGetImage_ok finds
  obtain ⟨⟨asked, index, gop, active, answers, rfl⟩, kept⟩ := framebufferMode_ok graphics
  have objectsLow : Objects.Low ⟨stack, info, gop.mode active, image⟩ :=
    { stackAligned := fw.allocatePages_aligned _ _ _ stackGranted
      stackBelow := low.pages _ _ _ stackGranted
      infoAligned := fw.allocatePages_aligned _ _ _ infoGranted
      infoBelow := by simpa using low.pages _ _ _ infoGranted
      mode := low.mode _ _ _ _ answers
      image := low.image _ _ image_ }
  refine ⟨objectsLow, ?_⟩
  -- the stack is allocated before the info page, and both before the tables grow
  obtain ⟨mapped, reserved, -⟩ := uefiAllocPages_reserved mapped allocStack
  obtain ⟨mapped, -, others⟩ := uefiAllocPages_reserved mapped allocInfo
  rw [identityCall_of_aligned objectsLow.infoAligned] at maps
  obtain ⟨mapped, grows⟩ := mapped.maps objectsLow.first_mappable maps
  obtain ⟨reserved, -⟩ := (others _ reserved).grows grows
  have written := mapped.writeArgument reserved objectsLow.info_lt
  simp only [Machine.store, Prod.mk.injEq] at kept
  have shown := written.of_same kept.1 fun extent member => by rwa [kept.2.1]
  have withMode := shown.maps (fun call member =>
    (modeCalls_isIdentity objectsLow.mode call member).mappable) mapsMode
  have withImage := withMode.maps (fun call member =>
    (sizeCalls_isIdentity objectsLow.image.aligned objectsLow.image.below call member).mappable)
      mapsImage
  rwa [List.append_assoc, List.append_assoc] at withImage

/-! ## The memory map -/

/-- The pages for the memory map, where the loader comes to ask for them and is given them. -/
def mapBuffer (fw : Firmware) (before : Machine) : Option Extent :=
  match fw.mapError before with
  | some _ => none
  | none =>
      (fw.allocatePages before (mapPages before.memoryMap.bytes.length)).map fun buffer =>
        ⟨buffer, mapPages before.memoryMap.bytes.length * pageSize⟩

theorem mapBuffer_eq_none {before : Machine}
    (refused : ∀ buffer, fw.mapError before = none →
      fw.allocatePages before (mapPages before.memoryMap.bytes.length) ≠ some buffer) :
    mapBuffer fw before = none := by
  rw [mapBuffer]
  cases answers : fw.mapError before with
  | some code => rfl
  | none =>
      have none_ := Option.eq_none_iff_forall_ne_some.mpr fun buffer => refused buffer answers
      rw [none_]
      rfl

theorem mapBuffer_eq_some {before : Machine} {buffer : Nat} (answers : fw.mapError before = none)
    (granted : fw.allocatePages before (mapPages before.memoryMap.bytes.length) = some buffer) :
    mapBuffer fw before =
      some ⟨buffer, mapPages before.memoryMap.bytes.length * pageSize⟩ := by
  rw [mapBuffer, answers, granted]
  rfl

/-- The calls for the pages of the memory map. -/
def bufferCalls : Option Extent → List MapCall
  | none => []
  | some buffer => addrCalls buffer.start buffer.size

/-- `GetMemoryMap` writes to its buffer only. -/
theorem callGetMemoryMap_frame (buffer : Nat) (arguments : MapAnswer) :
    ∃ status answer called,
      callGetMemoryMap fw buffer arguments machine = .ok (status, answer) called ∧
      called.allocated = machine.allocated ∧
      ∀ address, ¬ Extent.Contains ⟨buffer, arguments.size⟩ address →
        called.mem address = machine.mem address := by
  cases fails : fw.mapError machine with
  | some code => exact ⟨_, _, _, callGetMemoryMap_error fails, rfl, fun _ _ => rfl⟩
  | none =>
      by_cases enough : machine.memoryMap.bytes.length ≤ arguments.size
      · refine ⟨_, _, _, callGetMemoryMap_filled fails enough, rfl, fun address outside => ?_⟩
        simp only [Extent.Contains] at outside
        simp only [Machine.withMap]
        exact machine.mem.overwrite_outside (by omega)
      · exact ⟨_, _, _, callGetMemoryMap_small fails (Nat.lt_of_not_le enough), rfl,
          fun _ _ => rfl⟩

/-- With the buffer in place, the rest writes to the buffer only. -/
theorem fetchMemoryMap_frame {info after : Info} {arguments : MapAnswer} {status : EfiStatus}
    (run : fetchMemoryMap fw info arguments machine = .ok (status, after) final) :
    after.efiMemoryMap = info.efiMemoryMap ∧ final.allocated = machine.allocated ∧
      ∀ address, ¬ Extent.Contains ⟨info.efiMemoryMap, arguments.size⟩ address →
        final.mem address = machine.mem address := by
  obtain ⟨status, answer, called, call, allocated, same⟩ :=
    @callGetMemoryMap_frame fw machine info.efiMemoryMap arguments
  rw [fetchMemoryMap, bind_of_ok call] at run
  dsimp only at run
  split at run
  · cases run
    exact ⟨rfl, allocated, same⟩
  · obtain ⟨-, run⟩ := check_eq_ok.mp run
    obtain ⟨⟨⟩, left, exits, done⟩ := bind_eq_ok.mp run
    cases done
    obtain ⟨-, rfl⟩ := exitBootServices_ok exits
    exact ⟨rfl, allocated, same⟩

/-- A map that fits in memory fits in the pages for it. -/
theorem le_mapPages {size : Nat} (small : size ≤ physicalEnd) : size ≤ mapPages size * pageSize := by
  simp only [physicalEnd] at small
  simp only [mapPages, pageSize]
  omega

/-- New pages are mapped to themselves and written to. -/
theorem Arranged.buffer {stack address pages buffer : Nat} {mapped : Machine}
    (arranged : Arranged pml4 calls stack address machine)
    (granted : fw.allocatePages machine pages = some buffer)
    (below : buffer + pages * pageSize ≤ lowerEnd)
    (maps : loaderPagingMapAddr fw pml4 buffer (pages <<< 12) (pageWrite ||| pagePresent)
      (machine.withPages fw buffer pages) = .ok () mapped)
    (allocated : final.allocated = mapped.allocated)
    (same : ∀ place, ¬ Extent.Contains ⟨buffer, pages * pageSize⟩ place →
      final.mem place = mapped.mem place) :
    Arranged pml4 (calls ++ addrCalls buffer (pages * pageSize)) stack address final := by
  have shift : pages <<< 12 = pages * pageSize := Nat.shiftLeft_eq _ _
  have flags : pageWrite ||| pagePresent = identityFlags := rfl
  rw [shift, flags, loaderPagingMapAddr_eq] at maps
  have taken : Arranged pml4 calls stack address (machine.withPages fw buffer pages) :=
    arranged.of_same rfl fun _ member => List.mem_cons_of_mem _ member
  have mappable : ∀ call ∈ addrCalls buffer (pages * pageSize), call.Mappable :=
    fun call member => (addrCalls_isIdentity (by omega) call member).mappable
  obtain ⟨-, grows⟩ := taken.mapped.maps mappable maps
  have reserved := ((Reserved.granted arranged.mapped granted).grows grows).1
  have apart := fw.allocatePages_fresh _ _ _ granted _ arranged.reserved.owned
  apply (taken.maps mappable maps).of_reserved reserved apart same
  rw [allocated]
  exact fun _ member => member

/-- **`efi_get_memory_map` adds the calls for its buffer**, and writes to nothing else. -/
theorem efiGetMemoryMap_arranged {stack address : Nat} {info after : Info} {status : EfiStatus}
    (low : AnswersLow fw platform) (small : machine.memoryMap.bytes.length ≤ physicalEnd)
    (arranged : Arranged pml4 calls stack address machine)
    (run : efiGetMemoryMap fw platform info pml4 machine = .ok (status, after) final) :
    Arranged pml4 (calls ++ bufferCalls (mapBuffer fw machine)) stack address final ∧
      ∀ buffer, mapBuffer fw machine = some buffer → after.efiMemoryMap = buffer.start ∧
        buffer.start + buffer.size ≤ lowerEnd := by
  rcases efiGetMemoryMap_cases fw platform info pml4 machine with
    ⟨_, _, returns, refused⟩ | ⟨buffer, asked, arguments, maps, answers, granted, pointer, size⟩
  · rw [returns] at run
    cases run
    have noBuffer : mapBuffer fw machine = none := mapBuffer_eq_none refused
    rw [noBuffer, bufferCalls, List.append_nil]
    exact ⟨arranged, nofun⟩
  · rw [maps] at run
    obtain ⟨⟨⟩, mapped, maps, fetch⟩ := bind_eq_ok.mp run
    have below := low.pages _ _ _ granted
    obtain ⟨kept, allocated, same⟩ := fetchMemoryMap_frame fetch
    rw [pointer] at kept same
    rw [mapBuffer_eq_some answers granted]
    refine ⟨?_, fun other found => ?_⟩
    · apply arranged.buffer granted below maps allocated
      intro place outside
      refine same place fun inside => outside ?_
      have fits := le_mapPages small
      simp only [Extent.Contains, size] at inside ⊢
      omega
    · cases found
      exact ⟨kept, below⟩

end VineyardLoader
