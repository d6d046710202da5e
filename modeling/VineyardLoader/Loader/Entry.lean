import VineyardLoader.Loader.Arrangement
import VineyardLoader.Loader.Header

/-!
# The address space at the entry of the kernel

When `elf_jump_to_kernel` loads the new tables, the kernel should find its segments, its stack
with the pointer to the info page, and the info page, the loader, the frame buffer and the
memory map where they were (`EntrySpace`).

The last call for a page decides. The calls after the segments are for pages of the stack and
of the lower half, where ranges that overlap ask for the same thing. One page is an exception:
where a range ends with the lower half, `loader_paging_map_addr` maps the page after it, and
the tables see the first page of the upper half. A segment there loses its page
(`kernel_entry_iff`).
-/

set_option autoImplicit false

namespace VineyardLoader

variable {fw : Firmware} {platform : Platform} {machine final : Machine} {pml4 page : Nat}
  {calls : List MapCall} {objects : Objects} {buffer : Option Extent}

/-! ## The calls after the segments -/

/-- The ranges that are mapped to themselves after the stack. -/
def Objects.ranges (objects : Objects) (buffer : Option Extent) : List MapCall :=
  modeCalls objects.mode ++ (sizeCalls objects.image.imageBase objects.image.imageSize ++
    bufferCalls buffer)

/-- The calls that map pages to themselves. -/
def Objects.identities (objects : Objects) (buffer : Option Extent) : List MapCall :=
  identityCall (objects.info / 4096) :: objects.ranges buffer

theorem lastFor_later :
    lastFor (objects.mapCalls ++ bufferCalls buffer) page =
      ((lastFor (objects.ranges buffer) page).or (lastFor (stackCalls objects.stack) page)).or
        (lastFor [identityCall (objects.info / 4096)] page) := by
  have order : objects.mapCalls ++ bufferCalls buffer =
      [identityCall (objects.info / 4096)] ++
        (stackCalls objects.stack ++ objects.ranges buffer) := by
    simp [Objects.mapCalls, Objects.ranges]
  rw [order, lastFor_append, lastFor_append]

section Ranges

variable (low : objects.Low)
  (bufferLow : ∀ extent, buffer = some extent → extent.start + extent.size ≤ lowerEnd)
include low bufferLow

theorem Objects.identities_isIdentity :
    ∀ call ∈ objects.identities buffer, call.IsIdentity := by
  intro call member
  rcases List.mem_cons.mp member with rfl | ranges
  · exact low.info_isIdentity
  rcases List.mem_append.mp ranges with mode | ranges
  · exact modeCalls_isIdentity low.mode call mode
  rcases List.mem_append.mp ranges with image | ranges
  · exact sizeCalls_isIdentity low.image.aligned low.image.below call image
  · cases buffer with
    | none => cases ranges
    | some extent =>
        have below := bufferLow extent rfl
        exact addrCalls_isIdentity (by omega) call ranges

end Ranges

/-- The pages of the stack, as the tables see them. -/
theorem pageOf_stack {k : Nat} (bound : k < stackSize) :
    pageOf (stackBase + k) = 0xFE0000000 + k / 4096 := by
  simp only [stackSize] at bound
  simp only [pageOf, pageSize, stackBase]
  omega

theorem upperPage_lt_pageOf_stack {k : Nat} (bound : k < stackSize) :
    upperPage < pageOf (stackBase + k) := by
  rw [pageOf_stack bound]
  exact Nat.lt_add_right _ (by decide)

theorem lastFor_stackCalls {stack k : Nat} (bound : k < stackSize) :
    lastFor (stackCalls stack) (pageOf (stackBase + k)) =
      some ⟨stack + k / 4096 * 4096, stackBase + k / 4096 * 4096,
        pagePresent ||| pageWrite ||| pageNx⟩ := by
  have inside : k / 4096 < 33 := by
    simp only [stackSize] at bound
    omega
  refine lastFor_eq_some ?_ ?_ ?_
  · refine List.mem_map.mpr ⟨k / 4096, List.mem_range.mpr inside, ?_⟩
    rw [Nat.shiftLeft_eq]
  · rw [pageOf_stack bound, pageOf_stack (by unfold stackSize; omega)]
    omega
  · intro other member here
    obtain ⟨i, iBound, rfl⟩ := List.mem_map.mp member
    rw [List.mem_range] at iBound
    simp only [Nat.shiftLeft_eq] at here ⊢
    rw [pageOf_stack bound, pageOf_stack (by unfold stackSize; omega)] at here
    obtain rfl : i = k / 4096 := by omega
    rfl

theorem lastFor_stackCalls_eq_none {stack : Nat}
    (off : ∀ k, k < stackSize → pageOf (stackBase + k) ≠ page) :
    lastFor (stackCalls stack) page = none := by
  rw [lastFor_eq_none]
  intro call member
  obtain ⟨i, iBound, rfl⟩ := List.mem_map.mp member
  rw [List.mem_range] at iBound
  simp only [Nat.shiftLeft_eq]
  exact off (i * 2 ^ 12) (by unfold stackSize; omega)

section Later

variable (low : objects.Low)
  (bufferLow : ∀ extent, buffer = some extent → extent.start + extent.size ≤ lowerEnd)
include low bufferLow

theorem Objects.page_le {page : Nat} (member : identityCall page ∈ objects.identities buffer) :
    page ≤ upperPage := by
  obtain ⟨found, foundLow, same⟩ := objects.identities_isIdentity low bufferLow _ member
  rwa [identityCall_injective same]

/-- A page that a range asks for is mapped to itself. -/
theorem lastFor_later_identity (member : identityCall page ∈ objects.identities buffer) :
    lastFor (objects.mapCalls ++ bufferCalls buffer) page = some (identityCall page) := by
  have below := objects.page_le low bufferLow member
  have offStack : lastFor (stackCalls objects.stack) page = none := by
    apply lastFor_stackCalls_eq_none
    rintro k bound rfl
    exact absurd below (Nat.not_le.mpr (upperPage_lt_pageOf_stack bound))
  rw [lastFor_later, offStack, Option.or_none, ← lastFor_append]
  exact lastFor_identity (objects.identities_isIdentity low bufferLow) below member

/-- A page that no range asks for is mapped with the stack or not at all. -/
theorem lastFor_later_of_not_mem (noRange : identityCall page ∉ objects.identities buffer) :
    lastFor (objects.mapCalls ++ bufferCalls buffer) page =
      lastFor (stackCalls objects.stack) page := by
  have none_ := lastFor_identity_eq_none (objects.identities_isIdentity low bufferLow) noRange
  rw [Objects.identities, ← List.singleton_append, lastFor_append, Option.or_eq_none_iff] at none_
  rw [lastFor_later, none_.1, none_.2, Option.none_or, Option.or_none]

theorem lastFor_later_stack {k : Nat} (bound : k < stackSize) :
    lastFor (objects.mapCalls ++ bufferCalls buffer) (pageOf (stackBase + k)) =
      some ⟨objects.stack + k / 4096 * 4096, stackBase + k / 4096 * 4096,
        pagePresent ||| pageWrite ||| pageNx⟩ := by
  rw [lastFor_later_of_not_mem low bufferLow, lastFor_stackCalls bound]
  intro member
  have below := objects.page_le low bufferLow member
  exact absurd below (Nat.not_le.mpr (upperPage_lt_pageOf_stack bound))

end Later

/-! ## The first page of the upper half -/

/-- No range that `loader_paging_map_addr` maps ends with the lower half. -/
structure EndsBelow (objects : Objects) (buffer : Option Extent) : Prop where
  mode : objects.mode.address + 8 < lowerEnd
  info : objects.mode.info + 8 < lowerEnd
  buffer : ∀ extent, buffer = some extent → extent.start + extent.size < lowerEnd

theorem upper_mem_addrCalls {start length : Nat} (low : start ≤ lowerEnd)
    (ends : start + length < lowerEnd + 4096) :
    identityCall upperPage ∈ addrCalls start length ↔ lowerEnd ≤ start + length := by
  have pages := lowerEnd_eq
  rw [mem_addrCalls (ends.trans lowerEnd_add_page_lt)]
  constructor
  · rintro ⟨page, -, upper, same⟩
    have := identityCall_injective same
    omega
  · intro reaches
    exact ⟨upperPage, by omega, by omega, rfl⟩

theorem upper_not_mem_sizeCalls {base size : Nat} (aligned : base % pageSize = 0)
    (low : base + size ≤ lowerEnd) : identityCall upperPage ∉ sizeCalls base size := by
  have pages := lowerEnd_eq
  have room := lowerEnd_add_page_lt
  intro member
  obtain ⟨page, -, inside, same⟩ := (mem_sizeCalls aligned (by omega)).mp member
  have := identityCall_injective same
  omega

/-- **The first page of the upper half is taken when a range ends with the lower half.** -/
theorem upper_mem_identities (low : objects.Low)
    (bufferLow : ∀ extent, buffer = some extent → extent.start + extent.size ≤ lowerEnd) :
    identityCall upperPage ∈ objects.identities buffer ↔ ¬ EndsBelow objects buffer := by
  have address := low.mode.address
  have info := low.mode.info
  have notInfo : identityCall upperPage ≠ identityCall (objects.info / 4096) := by
    intro same
    have pages := lowerEnd_eq
    have below := low.infoBelow
    have := identityCall_injective same
    simp only [pageSize] at below
    omega
  have inBuffer : identityCall upperPage ∈ bufferCalls buffer ↔
      ¬ ∀ extent, buffer = some extent → extent.start + extent.size < lowerEnd := by
    cases buffer with
    | none => simp [bufferCalls]
    | some extent =>
        have below := bufferLow extent rfl
        rw [bufferCalls, upper_mem_addrCalls (by omega) (by omega)]
        simp
  simp only [Objects.identities, Objects.ranges, modeCalls, List.mem_cons, List.mem_append,
    notInfo, upper_mem_addrCalls address.le (Nat.add_lt_add address (by decide : 8 < 4096)),
    upper_mem_addrCalls info.le (Nat.add_lt_add info (by decide : 8 < 4096)),
    upper_not_mem_sizeCalls low.mode.aligned low.mode.frameBuffer,
    upper_not_mem_sizeCalls low.image.aligned low.image.below, inBuffer, false_or, or_false]
  constructor
  · rintro (⟨mode | info⟩ | buffer) below
    · exact absurd below.mode (by omega)
    · exact absurd below.info (by omega)
    · exact buffer below.buffer
  · intro reaches
    by_contra neither
    simp only [not_or, not_le, not_not] at neither
    exact reaches ⟨neither.1.1, neither.1.2, neither.2⟩

/-! ## What the kernel finds -/

/-- Every byte of a range is mapped to itself, present and writable. -/
def IdentityMapped (mem : Memory) (pml4 : Nat) (extent : Extent) : Prop :=
  ∀ v, extent.Contains v →
    walk mem pml4 v = some ⟨v / 4096 * 4096, pagePresent ||| pageWrite, true, false⟩

/-- The address space that the kernel needs: the pages of its segments with their flags, the
pages of the stack with the pointer to the info page, and the other objects where they
were. -/
structure EntrySpace (mem : Memory) (pml4 : Nat) (segments : List LoadedSegment)
    (objects : Objects) (buffer : Option Extent) : Prop where
  segments : ∀ segment ∈ segments, ∀ k, k < segment.phdr.pMemsz →
    walk mem pml4 (segment.phdr.address k) =
      some ⟨segment.base + k / 4096 * 4096, efiElfPhdrFlags segment.phdr.pFlags, true, false⟩
  stack : ∀ k, k < stackSize →
    walk mem pml4 (stackBase + k) =
      some ⟨objects.stack + k / 4096 * 4096, pagePresent ||| pageWrite ||| pageNx, true, true⟩
  argument : ∃ physical, translate mem pml4 (stackBase + stackSize - 32) = some physical ∧
    mem.load64 physical = objects.info
  info : IdentityMapped mem pml4 ⟨objects.info, pageSize⟩
  image : IdentityMapped mem pml4 ⟨objects.image.imageBase, objects.image.imageSize⟩
  frameBuffer : IdentityMapped mem pml4
    ⟨objects.mode.frameBufferBase, objects.mode.frameBufferSize⟩
  memoryMap : ∀ extent, buffer = some extent → IdentityMapped mem pml4 extent

/-- The segments of a kernel in the upper half: aligned, not past the end of the addresses,
outside the slot of the self-map and off the stack. -/
structure Elf64Phdr.Upper (phdr : Elf64Phdr) : Prop where
  aligned : phdr.pVaddr % pageSize = 0
  upper : 0xFFFF800000000000 ≤ phdr.pVaddr
  ends : phdr.pVaddr + phdr.pMemsz ≤ 2 ^ 64
  inner : phdr.Inner
  offStack : ∀ k, k < phdr.pMemsz →
    ¬ (stackBase ≤ phdr.address k ∧ phdr.address k < stackBase + stackSize)

namespace Elf64Phdr.Upper

variable {phdr : Elf64Phdr} (upper : phdr.Upper) {k : Nat} (bound : k < phdr.pMemsz)
include upper bound

theorem address_eq : phdr.address k = phdr.pVaddr + k := by
  have ends := upper.ends
  simp only [Elf64Phdr.address]
  omega

theorem canonical : Canonical (phdr.address k) := by
  have lower := upper.upper
  have ends := upper.ends
  rw [upper.address_eq bound]
  simp only [Canonical]
  omega

theorem upperPage_le : upperPage ≤ pageOf (phdr.address k) := by
  have lower := upper.upper
  have ends := upper.ends
  rw [upper.address_eq bound]
  simp only [upperPage, pageOf, pageSize]
  omega

/-- A page of the segment is no page of the stack. -/
theorem ne_stack {place : Nat} (inside : place < stackSize) :
    pageOf (stackBase + place) ≠ pageOf (phdr.address k) := by
  intro same
  have off := upper.offStack k bound
  have lower := upper.upper
  have ends := upper.ends
  rw [pageOf_stack inside] at same
  rw [upper.address_eq bound] at same off
  simp only [pageOf, pageSize] at same
  simp only [stackBase, stackSize] at off
  simp only [stackSize] at inside
  omega

end Elf64Phdr.Upper

/-- What a walk finds at a page that is present and writable. -/
theorem translation_writable (physical virtual : Nat) :
    MapCall.translation ⟨physical, virtual, pagePresent ||| pageWrite⟩ =
      ⟨physical, pagePresent ||| pageWrite, true, false⟩ := by
  have write : (pagePresent ||| pageWrite) &&& pageWrite != 0 := by decide
  have execute : ((pagePresent ||| pageWrite) &&& pageNx != 0) = false := by decide
  rw [MapCall.translation, write, execute]

section Space

variable {stack info : Nat} {segments : List LoadedSegment}
  (low : objects.Low)
  (bufferLow : ∀ extent, buffer = some extent → extent.start + extent.size ≤ lowerEnd)
  (arranged : Arranged pml4 (calls ++ (objects.mapCalls ++ bufferCalls buffer)) objects.stack
    objects.info final)
include low bufferLow arranged

/-- A range of the lower half whose pages are asked for is mapped to itself. -/
theorem identityMapped_of_mem {extent : Extent} (below : extent.start + extent.size ≤ lowerEnd)
    (members : ∀ v, extent.Contains v → identityCall (v / 4096) ∈ objects.identities buffer) :
    IdentityMapped final.mem pml4 extent := by
  intro v inside
  have range := inside.2
  simp only [lowerEnd] at below
  have pages : pageOf v = v / 4096 := by
    simp only [pageOf, pageSize]
    omega
  have inner : slice v 39 ≠ selfMapSlot := by
    simp only [slice, selfMapSlot]
    omega
  rw [arranged.mapped.walks v inner, pages, lastFor_append,
    lastFor_later_identity low bufferLow (members v inside), Option.some_or, Option.map_some]
  exact congrArg some (translation_writable _ _)

/-- A range that is counted by its size is mapped to itself if its calls are among the others. -/
theorem identityMapped_sizeCalls {base size : Nat} (aligned : base % pageSize = 0)
    (below : base + size ≤ lowerEnd)
    (asked : ∀ call ∈ sizeCalls base size, call ∈ objects.identities buffer) :
    IdentityMapped final.mem pml4 ⟨base, size⟩ := by
  have room := lowerEnd_add_page_lt
  have physical : base + size ≤ physicalEnd := by omega
  refine identityMapped_of_mem low bufferLow arranged below fun v inside => asked _ ?_
  rw [mem_sizeCalls aligned physical]
  exact ⟨_, Nat.div_le_div_right inside.1, (Nat.div_mul_le_self _ _).trans_lt inside.2, rfl⟩

theorem EntrySpace.stack_mapped {k : Nat} (bound : k < stackSize) :
    walk final.mem pml4 (stackBase + k) =
      some ⟨objects.stack + k / 4096 * 4096, pagePresent ||| pageWrite ||| pageNx, true, true⟩ := by
  have inner : slice (stackBase + k) 39 ≠ selfMapSlot := by
    simp only [stackSize] at bound
    simp only [slice, selfMapSlot, stackBase]
    omega
  rw [arranged.mapped.walks _ inner, lastFor_append, lastFor_later_stack low bufferLow bound,
    Option.some_or, Option.map_some, MapCall.translation]
  have write : (pagePresent ||| pageWrite ||| pageNx) &&& pageWrite != 0 := by decide
  have execute : (pagePresent ||| pageWrite ||| pageNx) &&& pageNx != 0 := by decide
  rw [write, execute]

/-- The pointer to the info page is found through the stack of the kernel. -/
theorem EntrySpace.argument_found :
    ∃ physical, translate final.mem pml4 (stackBase + stackSize - 32) = some physical ∧
      final.mem.load64 physical = objects.info := by
  have place : stackBase + stackSize - 32 = stackBase + (stackSize - 32) := by decide
  refine ⟨_, ?_, arranged.argument⟩
  rw [translate, place, EntrySpace.stack_mapped low bufferLow arranged (by decide),
    Option.map_some]
  have offset : (stackBase + (stackSize - 32)) % pageSize = 4064 := by decide
  have inPage : (stackSize - 32) / 4096 * 4096 + 4064 = stackSize - 8 * 4 := by decide
  have whole : 8 * 4 ≤ stackSize := by decide
  simp only [offset]
  rw [Nat.add_assoc, inPage, Nat.add_sub_assoc whole]

/-- The pages of the objects other than the stack are mapped to themselves. -/
theorem EntrySpace.objects_mapped :
    IdentityMapped final.mem pml4 ⟨objects.info, pageSize⟩ ∧
      IdentityMapped final.mem pml4 ⟨objects.image.imageBase, objects.image.imageSize⟩ ∧
      IdentityMapped final.mem pml4
        ⟨objects.mode.frameBufferBase, objects.mode.frameBufferSize⟩ ∧
      ∀ extent, buffer = some extent → IdentityMapped final.mem pml4 extent := by
  refine ⟨?_, ?_, ?_, fun extent found => ?_⟩
  · apply identityMapped_of_mem low bufferLow arranged low.infoBelow
    intro v inside
    have aligned := low.infoAligned
    have page : v / 4096 = objects.info / 4096 := by
      simp only [Extent.Contains, pageSize] at inside
      simp only [pageSize] at aligned
      omega
    rw [page]
    exact List.mem_cons_self
  · apply identityMapped_sizeCalls low bufferLow arranged low.image.aligned low.image.below
    intro call member
    exact List.mem_cons_of_mem _ (List.mem_append_right _ (List.mem_append_left _ member))
  · apply identityMapped_sizeCalls low bufferLow arranged low.mode.aligned low.mode.frameBuffer
    intro call member
    exact List.mem_cons_of_mem _ (List.mem_append_left _ (List.mem_append_right _
      (List.mem_append_right _ member)))
  · have below := bufferLow extent found
    have room := lowerEnd_add_page_lt
    apply identityMapped_of_mem low bufferLow arranged below
    intro v inside
    refine List.mem_cons_of_mem _ (List.mem_append_right _ (List.mem_append_right _ ?_))
    rw [found, bufferCalls, mem_addrCalls (by omega)]
    exact ⟨_, Nat.div_le_div_right inside.1, Nat.div_le_div_right inside.2.le, rfl⟩

end Space

/-! ## The segments -/

/-- The tables after the segments hold the calls for the segments. -/
theorem Loaded.mapped {segments : List LoadedSegment}
    (loaded : Loaded fw pml4 machine segments final) (empty : Refines machine pml4 fun _ => none) :
    Mapped pml4 (segments.flatMap LoadedSegment.calls) final where
  holds := loaded.holds
  walks v inner := by
    rw [loaded.walks v inner, empty.walk_eq inner, Option.map_none, Option.or_none]

section Segments

variable {segments : List LoadedSegment} {segment : LoadedSegment} {k : Nat}
  (upper : ∀ segment ∈ segments, segment.phdr.Upper)
  (fits : ∀ segment ∈ segments, segment.phdr.Fits)
  (apart : (segments.map LoadedSegment.phdr).Pairwise Elf64Phdr.Apart)
  (member : segment ∈ segments) (bound : k < segment.phdr.pMemsz)
include upper fits apart member bound

/-- Among the segments, a byte is in its own page. -/
theorem lastFor_segments :
    lastFor (segments.flatMap LoadedSegment.calls) (pageOf (segment.phdr.address k)) =
      some ⟨segment.base + k / 4096 * 4096, segment.phdr.address (k / 4096 * 4096),
        pagePresent ||| pageWrite⟩ := by
  obtain ⟨before, after, split⟩ := List.append_of_mem member
  have here := upper segment member
  apply LoadedSegment.lastFor_flatMap split here.inner (fits segment member) here.aligned bound
  intro later laterMember requests
  have laterFits := fits later (by simp [split, laterMember])
  rw [split, List.map_append, List.map_cons, List.pairwise_append, List.pairwise_cons] at apart
  exact apart.2.1.1 later.phdr (List.mem_map_of_mem laterMember) _ ⟨k, bound, rfl⟩
    (requests.covers laterFits)

variable (low : objects.Low)
  (bufferLow : ∀ extent, buffer = some extent → extent.start + extent.size ≤ lowerEnd)
  (below : segment.base + segment.phdr.pages * pageSize ≤ lowerEnd)
  (arranged : Arranged pml4 (segments.flatMap LoadedSegment.calls ++
    (objects.mapCalls ++ bufferCalls buffer)) objects.stack objects.info final)
include low bufferLow below arranged

/-- **A byte of a segment keeps its page unless it is on the first page of the upper half and
a range ends with the lower half.** -/
theorem segment_found_iff :
    walk final.mem pml4 (segment.phdr.address k) =
        some ⟨segment.base + k / 4096 * 4096, efiElfPhdrFlags segment.phdr.pFlags, true, false⟩ ↔
      (pageOf (segment.phdr.address k) = upperPage → EndsBelow objects buffer) := by
  have here := upper segment member
  rw [arranged.mapped.walks _ (here.inner k bound), lastFor_append,
    lastFor_segments upper fits apart member bound, efiElfPhdrFlags_eq]
  by_cases taken : identityCall (pageOf (segment.phdr.address k)) ∈ objects.identities buffer
  · -- the page is the first of the upper half, and goes to the page after the lower half
    have first : pageOf (segment.phdr.address k) = upperPage :=
      Nat.le_antisymm (objects.page_le low bufferLow taken) (here.upperPage_le bound)
    rw [lastFor_later_identity low bufferLow taken, Option.some_or, Option.map_some, identityCall,
      identityFlags, translation_writable]
    rw [first, upper_mem_identities low bufferLow] at taken
    refine iff_of_false (fun same => ?_) fun ends => taken (ends first)
    have index := here.inner.index_lt bound
    rw [first] at same
    have pages := lowerEnd_eq
    simp only [Option.some.injEq, Translation.mk.injEq, and_true] at same
    simp only [pageSize] at below
    omega
  · have off : lastFor (stackCalls objects.stack) (pageOf (segment.phdr.address k)) = none :=
      lastFor_stackCalls_eq_none fun place inside => here.ne_stack bound inside
    rw [lastFor_later_of_not_mem low bufferLow taken, off, Option.none_or, Option.map_some,
      translation_writable]
    apply iff_of_true rfl
    intro first
    rw [first, upper_mem_identities low bufferLow] at taken
    exact not_not.mp taken

end Segments

/-- **The kernel finds its address space**, if no segment is on the first page of the upper half or
no range ends with the lower half. -/
theorem EntrySpace.of_arranged {segments : List LoadedSegment}
    (upper : ∀ segment ∈ segments, segment.phdr.Upper)
    (fits : ∀ segment ∈ segments, segment.phdr.Fits)
    (apart : (segments.map LoadedSegment.phdr).Pairwise Elf64Phdr.Apart)
    (low : objects.Low)
    (bufferLow : ∀ extent, buffer = some extent → extent.start + extent.size ≤ lowerEnd)
    (below : ∀ segment ∈ segments,
      segment.base + segment.phdr.pages * pageSize ≤ lowerEnd)
    (arranged : Arranged pml4 (segments.flatMap LoadedSegment.calls ++
      (objects.mapCalls ++ bufferCalls buffer)) objects.stack objects.info final)
    (room : (∀ segment ∈ segments, ¬ segment.phdr.Covers upperPage) ∨ EndsBelow objects buffer) :
    EntrySpace final.mem pml4 segments objects buffer := by
  obtain ⟨info, image, frameBuffer, memoryMap⟩ := EntrySpace.objects_mapped low bufferLow arranged
  refine ⟨fun segment member k bound => ?_,
    fun k bound => EntrySpace.stack_mapped low bufferLow arranged bound,
    EntrySpace.argument_found low bufferLow arranged, info, image, frameBuffer, memoryMap⟩
  rw [segment_found_iff upper fits apart member bound low bufferLow (below segment member) arranged]
  intro first
  rcases room with uncovered | ends
  · exact absurd ⟨k, bound, first⟩ (uncovered segment member)
  · exact ends

/-! ## The whole run -/

/-- **The address space at the entry of the kernel.** Let the segments be in the upper half, on
pages of their own, and let all memory that the firmware answers with be in the lower half.
When `loader_kernel` reaches the jump, the kernel finds the address space that it needs exactly
when no segment is on the first page of the upper half or no range that
`loader_paging_map_addr` maps ends with the lower half. -/
theorem kernel_entry_iff (fw : Firmware) (platform : Platform)
    (machine middle parsed loaded before final : Machine) (opened : Opened) (phdrs : Block)
    (objects : Objects) (jump : Jump)
    (low : AnswersLow fw platform)
    (opens : loaderKernelOpen fw platform machine = .ok opened middle)
    (parse : loaderParsePhdrs fw opened.header middle = .ok phdrs parsed)
    (upper : ∀ phdr ∈ loadSegments opened.header phdrs, phdr.Upper)
    (disjoint : (loadSegments opened.header phdrs).Pairwise fun first second =>
      ∀ k, k < first.pMemsz → ∀ l, l < second.pMemsz →
        first.address k / pageSize ≠ second.address l / pageSize)
    (loads : loaderKernelPhdrs fw opened.header opened.pml4 middle = .ok () loaded)
    (sets : loaderKernelSetUp fw platform opened.pml4 loaded = .ok objects before)
    (small : before.memoryMap.bytes.length ≤ physicalEnd)
    (run : loaderKernel fw platform machine = .ok jump final) :
    ∃ segments, segments.map LoadedSegment.phdr = loadSegments opened.header phdrs ∧
      Loaded fw opened.pml4 middle segments loaded ∧
      (∀ buffer, mapBuffer fw before = some buffer → jump.info.efiMemoryMap = buffer.start) ∧
      (EntrySpace final.mem jump.pml4 segments objects (mapBuffer fw before) ↔
        (∀ phdr ∈ loadSegments opened.header phdrs, ¬ phdr.Covers upperPage) ∨
          EndsBelow objects (mapBuffer fw before)) := by
  obtain ⟨empty, header⟩ := loaderKernelOpen_ok opens
  obtain ⟨segments, same, granted, all⟩ := loaderKernelPhdrs_loaded ⟨_, empty⟩ parse
    (fun phdr member => (upper phdr member).inner) loads
  obtain ⟨objectsLow, arranged⟩ := loaderKernelSetUp_arranged low (all.mapped empty) sets
  obtain ⟨status, after, fetch, rfl⟩ := loaderKernel_reaches opens loads sets run
  obtain ⟨arranged, buffers⟩ := efiGetMemoryMap_arranged low small arranged fetch
  rw [List.append_assoc] at arranged
  have bufferLow := fun buffer found => (buffers buffer found).2
  have phdrOf : ∀ segment ∈ segments, segment.phdr ∈ loadSegments opened.header phdrs := by
    intro segment member
    rw [← same]
    exact List.mem_map_of_mem member
  have apart : (segments.map LoadedSegment.phdr).Pairwise Elf64Phdr.Apart := by
    rw [same]
    exact Elf64Phdr.pairwise_apart (fun phdr member k => (upper phdr member).canonical) disjoint
  have segmentUpper := fun segment member => upper _ (phdrOf segment member)
  have fits : ∀ segment ∈ segments, segment.phdr.Fits :=
    fun segment member => loadSegments_fits (phdrOf segment member)
  have below : ∀ segment ∈ segments,
      segment.base + segment.phdr.pages * pageSize ≤ lowerEnd := by
    intro segment member
    obtain ⟨asked, answer⟩ := granted segment member
    exact low.pages _ _ _ answer
  refine ⟨segments, same, all, fun buffer given => (buffers buffer given).1, ?_⟩
  constructor
  · intro space
    by_contra neither
    obtain ⟨covered, reaches⟩ := not_or.mp neither
    simp only [not_forall, not_not] at covered
    obtain ⟨phdr, phdrMember, k, bound, first⟩ := covered
    rw [← same] at phdrMember
    obtain ⟨segment, member, rfl⟩ := List.mem_map.mp phdrMember
    have found := (segment_found_iff segmentUpper fits apart member bound objectsLow bufferLow
      (below segment member) arranged).mp (space.segments segment member k bound)
    exact reaches (found first)
  · intro holds
    exact EntrySpace.of_arranged segmentUpper fits apart objectsLow bufferLow below arranged
      (holds.imp_left fun uncovered segment member => uncovered _ (phdrOf segment member))

/-! ## Two machines -/

/-- A segment of one byte on the first page of the upper half. -/
def upperSegment : Elf64Phdr := ⟨ptLoad, 7, 120, 0xFFFF800000000000, 0, 1, 1, 0x1000⟩

theorem upperSegment_upper : upperSegment.Upper :=
  ⟨by decide, by decide, by decide, by unfold Elf64Phdr.Inner; decide, by decide⟩

/-- The machine without what is allocated from an address on. -/
def Machine.below (machine : Machine) (limit : Nat) : Machine :=
  { machine with allocated := machine.allocated.filter fun extent => extent.start < limit }

/-- A firmware that gives two pages at one place, and any other pages below it. -/
def placingFirmware (place : Nat) (aligned : place % pageSize = 0)
    (fits : place + 2 * pageSize ≤ lowerEnd) (kernel : List UInt8)
    (small : kernel.length < 2 ^ 64) : Firmware :=
  { bumpFirmware kernel small with
    allocatePages := fun machine pages =>
      if pages = 2 then
        if machine.allocated.all fun extent => extent.start + extent.size ≤ place then some place
        else none
      else if firstFree (machine.below place) + pages * pageSize ≤ place then
        some (firstFree (machine.below place))
      else none
    allocatePages_aligned := by
      intro machine pages base granted
      split_ifs at granted
      · cases granted
        exact aligned
      · cases granted
        exact firstFree_aligned _
    allocatePages_below := by
      intro machine pages base granted
      have room := lowerEnd_add_page_lt
      split_ifs at granted with two
      · cases granted
        rw [two]
        omega
      · cases granted
        omega
    allocatePages_fresh := by
      intro machine pages base granted extent member
      split_ifs at granted with two past inside
      · cases granted
        have ends := List.all_eq_true.mp past extent member
        rw [decide_eq_true_eq] at ends
        exact Extent.disjoint_of_le (.inr ends)
      · cases granted
        by_cases high : place ≤ extent.start
        · exact Extent.disjoint_of_le (.inl (inside.trans high))
        · have low : extent ∈ (machine.below place).allocated :=
            List.mem_filter.mpr ⟨member, decide_eq_true (Nat.lt_of_not_le high)⟩
          exact Extent.disjoint_of_le (.inr (le_firstFree low)) }

theorem sampleMode_low : GopMode.Low ⟨0x7000, 0x7100, 0x80000000, 0x2000⟩ :=
  ⟨by decide, by decide, by decide, by decide⟩

theorem placingFirmware_low {place : Nat} {aligned : place % pageSize = 0}
    {fits : place + 2 * pageSize ≤ lowerEnd} {kernel : List UInt8}
    {small : kernel.length < 2 ^ 64} :
    AnswersLow (placingFirmware place aligned fits kernel small) samplePlatform where
  pages := by
    intro machine pages base granted
    simp only [placingFirmware] at granted
    split_ifs at granted with two
    · cases granted
      rw [two]
      exact fits
    · cases granted
      omega
  mode := by
    rintro machine index gop active answer
    cases answer
    exact sampleMode_low
  image := by
    rintro machine image answer
    cases answer
    exact ⟨by decide, by decide⟩

/-- The memory map ends a page before the lower half does. -/
def roomFirmware : Firmware :=
  placingFirmware (lowerEnd - 3 * pageSize) (by decide) (by decide)
    (kernelFile 0xFFFF800000000000 [upperSegment] [0x11]) (by decide +kernel)

theorem kernel_entry_sample :
    ∃ segments opened phdrs objects jump middle parsed loaded before final,
      EntryRun roomFirmware samplePlatform [upperSegment] opened phdrs objects jump middle parsed
        loaded before final ∧
      EntrySpace final.mem jump.pml4 segments objects (mapBuffer roomFirmware before) := by
  have check : entersKernel roomFirmware samplePlatform [upperSegment]
      (fun objects _ _ before _ =>
        decide (objects.mode.address + 8 < lowerEnd ∧ objects.mode.info + 8 < lowerEnd) &&
          mapBuffer roomFirmware before == some ⟨lowerEnd - 3 * pageSize, 2 * pageSize⟩) = true := by
    decide +kernel
  obtain ⟨opened, phdrs, objects, jump, middle, parsed, loaded, before, final, entry, test⟩ :=
    entersKernel_ok check
  rw [Bool.and_eq_true, decide_eq_true_eq, beq_iff_eq] at test
  obtain ⟨⟨mode, info⟩, buffer⟩ := test
  have upper : ∀ phdr ∈ loadSegments opened.header phdrs, phdr.Upper := by
    rw [entry.table]
    intro phdr member
    rw [List.mem_singleton.mp member]
    exact upperSegment_upper
  have disjoint : (loadSegments opened.header phdrs).Pairwise fun first second =>
      ∀ k, k < first.pMemsz → ∀ l, l < second.pMemsz →
        first.address k / pageSize ≠ second.address l / pageSize := by
    rw [entry.table]
    exact List.pairwise_singleton _ _
  obtain ⟨segments, -, -, -, exactly⟩ := kernel_entry_iff roomFirmware samplePlatform freshMachine
    middle parsed loaded before final opened phdrs objects jump placingFirmware_low entry.opens
    entry.parse upper disjoint entry.loads entry.sets entry.small entry.run
  refine ⟨segments, opened, phdrs, objects, jump, middle, parsed, loaded, before, final, entry,
    exactly.mpr (.inr ⟨mode, info, fun extent found => ?_⟩)⟩
  rw [buffer] at found
  cases found
  decide

/-- The memory map ends with the lower half. -/
def noRoomFirmware : Firmware :=
  placingFirmware (lowerEnd - 2 * pageSize) (by decide) (by decide)
    (kernelFile 0xFFFF800000000000 [upperSegment] [0x11]) (by decide +kernel)

/-- The page after the memory map takes the place of the first page of the kernel. -/
theorem upperSegment_lost :
    AnswersLow noRoomFirmware samplePlatform ∧ upperSegment.Upper ∧
      ∃ opened phdrs objects jump middle parsed loaded before final base,
        EntryRun noRoomFirmware samplePlatform [upperSegment] opened phdrs objects jump middle
          parsed loaded before final ∧
        loaded.reads = [LoadedSegment.read ⟨upperSegment, base⟩] ∧
        walk loaded.mem opened.pml4 0xFFFF800000000000 = some ⟨base, 3, true, false⟩ ∧
        walk final.mem jump.pml4 0xFFFF800000000000 = some ⟨lowerEnd, 3, true, false⟩ ∧
        ¬ EntrySpace final.mem jump.pml4 [⟨upperSegment, base⟩] objects
          (mapBuffer noRoomFirmware before) := by
  refine ⟨placingFirmware_low, upperSegment_upper, ?_⟩
  have check : entersKernel noRoomFirmware samplePlatform [upperSegment]
      (fun _ jump loaded _ final =>
        loaded.reads == [LoadedSegment.read ⟨upperSegment, 0x101000⟩] &&
          walk loaded.mem jump.pml4 0xFFFF800000000000 == some ⟨0x101000, 3, true, false⟩ &&
          walk final.mem jump.pml4 0xFFFF800000000000 == some ⟨lowerEnd, 3, true, false⟩) = true := by
    decide +kernel
  obtain ⟨opened, phdrs, objects, jump, middle, parsed, loaded, before, final, entry, test⟩ :=
    entersKernel_ok check
  rw [Bool.and_eq_true, Bool.and_eq_true, beq_iff_eq, beq_iff_eq, beq_iff_eq] at test
  obtain ⟨⟨reads, mapped⟩, lost⟩ := test
  obtain ⟨status, after, -, rfl⟩ := loaderKernel_reaches entry.opens entry.loads entry.sets entry.run
  refine ⟨opened, phdrs, objects, _, middle, parsed, loaded, before, final, 0x101000, entry, reads,
    mapped, lost, fun space => ?_⟩
  have kept := space.segments _ List.mem_cons_self 0 (by decide)
  have address : upperSegment.address 0 = 0xFFFF800000000000 := by decide
  rw [address, lost] at kept
  simp [lowerEnd] at kept

end VineyardLoader
