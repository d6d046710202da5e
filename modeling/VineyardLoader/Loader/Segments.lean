import VineyardLoader.Loader.Phdrs

/-!
# What loading the segments leaves in the machine

A loaded segment is a program header with the address the firmware gave its pages. `Loaded`
says what a machine holds after a list of segments: the tables map the pages of the
segments, the last request for a page wins, each segment has pages of its own, and the
pages hold the bytes of the file and zeros after them.

One turn of the loop of `loader_kernel_phdrs` adds a segment (`Loaded.step`), so the loop
loads all of them (`Loaded.all_and`). The proof of a turn follows the code: the pages are
granted, the file bytes are written to them, the pages are mapped, and zeros are written.
Writes into the pages of a segment miss the tables, and the writes of the mapping miss the
pages, because each is an allocation of its own.
-/

set_option autoImplicit false

namespace VineyardLoader

/-! ## Segments -/

/-- The address of a byte of the segment. -/
def Elf64Phdr.address (phdr : Elf64Phdr) (k : Nat) : Nat := (phdr.pVaddr + k) % 2 ^ 64

/-- No address of the segment lies in the slot of the self-map. -/
def Elf64Phdr.Inner (phdr : Elf64Phdr) : Prop :=
  ∀ k, k < phdr.pMemsz → slice (phdr.address k) 39 ≠ selfMapSlot

/-- A segment that does not meet the self-map lies in the other slots. -/
theorem Elf64Phdr.Inner.memsz_le_slots {phdr : Elf64Phdr} (inner : phdr.Inner) :
    phdr.pMemsz + 2 ^ 39 ≤ 2 ^ 48 := by
  by_contra long
  have first := inner 0 (by omega)
  simp only [slice, selfMapSlot, Elf64Phdr.address] at first
  have next := inner ((510 * 2 ^ 39 + 2 ^ 64 - phdr.pVaddr % 2 ^ 48) % 2 ^ 48) (by omega)
  simp only [slice, selfMapSlot, Elf64Phdr.address] at next
  omega

/-- The pages of the loader hold the whole segment. -/
theorem Elf64Phdr.Inner.memsz_le {phdr : Elf64Phdr} (inner : phdr.Inner) :
    phdr.pMemsz ≤ phdr.pages * 4096 := by
  have short := inner.memsz_le_slots
  simp only [Elf64Phdr.pages]
  omega

/-- A program header and the address of the pages of its segment. -/
structure LoadedSegment where
  phdr : Elf64Phdr
  base : Nat
deriving Repr, DecidableEq

namespace LoadedSegment

/-- The pages of the segment. -/
def extent (segment : LoadedSegment) : Extent := ⟨segment.base, segment.phdr.pages * pageSize⟩

/-- The calls of `loader_paging_map` for the segment. -/
def calls (segment : LoadedSegment) : List MapCall :=
  (List.range segment.phdr.pages).map fun i =>
    ⟨segment.base + (i <<< 12), (segment.phdr.pVaddr + (i <<< 12)) % 2 ^ 64,
      efiElfPhdrFlags segment.phdr.pFlags⟩

/-- The file read of the segment. -/
def read (segment : LoadedSegment) : FileRead :=
  ⟨segment.phdr.pOffset, segment.phdr.pFilesz, segment.base⟩

/-- The firmware gave the pages of the segment. -/
def Granted (fw : Firmware) (segment : LoadedSegment) : Prop :=
  ∃ asked, fw.allocatePages asked segment.phdr.pages = some segment.base

/-- The pages are where the firmware may put pages. -/
def IsPages (segment : LoadedSegment) : Prop :=
  segment.base % pageSize = 0 ∧ segment.base + segment.phdr.pages * pageSize ≤ physicalEnd

theorem extent_contains {segment : LoadedSegment} {address : Nat} :
    segment.extent.Contains address ↔
      segment.base ≤ address ∧ address < segment.base + segment.phdr.pages * 0x1000 := Iff.rfl

theorem mem_calls {segment : LoadedSegment} {call : MapCall} :
    call ∈ segment.calls ↔ ∃ i, i < segment.phdr.pages ∧
      call = ⟨segment.base + i * 4096, (segment.phdr.pVaddr + i * 4096) % 2 ^ 64,
        pagePresent ||| pageWrite⟩ := by
  simp only [calls, List.mem_map, List.mem_range, Nat.shiftLeft_eq, efiElfPhdrFlags_eq]
  constructor
  · rintro ⟨i, bound, rfl⟩
    exact ⟨i, bound, rfl⟩
  · rintro ⟨i, bound, rfl⟩
    exact ⟨i, bound, rfl⟩

end LoadedSegment

/-- A page that the loader counts holds an address of the segment. -/
theorem Elf64Phdr.Fits.page_inside {phdr : Elf64Phdr} (fits : phdr.Fits) {i : Nat}
    (bound : i < phdr.pages) : i * 4096 < phdr.pMemsz := by
  have memsz := fits.memsz
  simp only [Elf64Phdr.pages] at bound
  omega

theorem LoadedSegment.calls_mappable {segment : LoadedSegment} (fits : segment.phdr.Fits)
    (inner : segment.phdr.Inner) (isPages : segment.IsPages) :
    ∀ call ∈ segment.calls, call.Mappable := by
  intro call member
  obtain ⟨i, bound, rfl⟩ := LoadedSegment.mem_calls.mp member
  have page : IsPage (segment.base + i * 4096) := by
    simp only [LoadedSegment.IsPages, pageSize] at isPages
    simp only [IsPage, pageSize]
    omega
  exact ⟨Nat.mod_lt _ (by decide), inner _ (fits.page_inside bound), page, linkFlags_valid⟩

/-- The sizes of a segment are in order and its file bytes lie in the file. -/
structure Elf64Phdr.FitsFile (fw : Firmware) (phdr : Elf64Phdr) : Prop where
  ordered : phdr.pFilesz ≤ phdr.pMemsz
  inside : phdr.pOffset + phdr.pFilesz ≤ fw.kernel.length

/-- The byte of the image of a segment: a byte of the file, or zero after them. -/
def Elf64Phdr.imageByte (fw : Firmware) (phdr : Elf64Phdr) (k : Nat) : UInt8 :=
  if k < phdr.pFilesz then fw.kernel.getD (phdr.pOffset + k) 0 else 0

/-- The number of zero bytes after the file bytes, as the loader computes it. -/
def Elf64Phdr.zeros (phdr : Elf64Phdr) : Nat := (phdr.pMemsz + 2 ^ 64 - phdr.pFilesz) % 2 ^ 64

/-- A machine with a range of its memory overwritten. -/
def Machine.overwrite (machine : Machine) (start size : Nat) (source : Nat → UInt8) : Machine :=
  { machine with mem := machine.mem.overwrite start size source }

@[simp] theorem Machine.overwrite_mem (machine : Machine) (start size : Nat)
    (source : Nat → UInt8) :
    (machine.overwrite start size source).mem = machine.mem.overwrite start size source := rfl

@[simp] theorem Machine.overwrite_reads (machine : Machine) (start size : Nat)
    (source : Nat → UInt8) : (machine.overwrite start size source).reads = machine.reads := rfl

/-! ## One segment -/

/-- A write that was allowed. -/
theorem writeObject_ok {object : Extent} {start size : Nat} {source : Nat → UInt8}
    {machine final : Machine} :
    writeObject object start size source machine = .ok () final ↔
      (size = 0 ∨ (object.start ≤ start ∧ start + size ≤ object.start + object.size)) ∧
        final = machine.overwrite start size source := by
  unfold writeObject
  split
  · rename_i allowed
    simp only [modify_run, EStateM.Result.ok.injEq, true_and, eq_comm (a := final)]
    tauto
  · rename_i outside
    simp [outside]

/-- A write that stopped went outside its object. -/
theorem writeObject_error {object : Extent} {start size : Nat} {source : Nat → UInt8}
    {machine final : Machine} {reason : Halt}
    (run : writeObject object start size source machine = .error reason final) :
    reason = .undefined ∧
      ¬ (size = 0 ∨ (object.start ≤ start ∧ start + size ≤ object.start + object.size)) := by
  unfold writeObject at run
  split at run
  · simp at run
  · rename_i outside
    cases run
    exact ⟨rfl, outside⟩

variable {fw : Firmware} {machine final : Machine} {pml4 : Nat} {phdr : Elf64Phdr}

/-- The rest of a turn when the pages are there, on the bytes that the file gives. -/
def placeSegment (fw : Firmware) (pml4 : Nat) (segment : LoadedSegment) : Boot Unit := do
  writeObject segment.extent segment.base
    (fw.fileBytes segment.phdr.pOffset segment.phdr.pFilesz).length
    (bytesOf (fw.fileBytes segment.phdr.pOffset segment.phdr.pFilesz))
  modify fun machine => { machine with reads := machine.reads ++ [segment.read] }
  loaderPagingMapAll fw pml4 segment.calls
  if 0 < segment.phdr.zeros then
    writeObject segment.extent (segment.base + segment.phdr.pFilesz) segment.phdr.zeros fun _ => 0

theorem loadSegment_eq (pml4 : Nat) {base : Nat}
    (granted : fw.allocatePages machine phdr.pages = some base) :
    ∃ stopped, loadSegment fw pml4 phdr machine = placeSegment fw pml4 ⟨phdr, base⟩
      { machine.withPages fw base phdr.pages with position := stopped } := by
  obtain ⟨status, stopped, after⟩ := setPosition_readFile fw phdr.pOffset phdr.pFilesz
    (machine.withPages fw base phdr.pages) fun result => do
      writeObject ⟨base, phdr.pages * pageSize⟩ base result.2.length (bytesOf result.2)
      modify fun machine =>
        { machine with reads := machine.reads ++ [⟨phdr.pOffset, phdr.pFilesz, base⟩] }
      repeatTimes (fun i =>
        loaderPagingMap fw pml4 (base + (i <<< 12)) ((phdr.pVaddr + (i <<< 12)) % 2 ^ 64)
          (efiElfPhdrFlags phdr.pFlags)) phdr.pages
      if 0 < phdr.zeros then
        writeObject ⟨base, phdr.pages * pageSize⟩ (base + phdr.pFilesz) phdr.zeros fun _ => 0
  have loop : loaderPagingMapAll fw pml4 (LoadedSegment.calls ⟨phdr, base⟩) =
      repeatTimes (fun i =>
        loaderPagingMap fw pml4 (base + (i <<< 12)) ((phdr.pVaddr + (i <<< 12)) % 2 ^ 64)
          (efiElfPhdrFlags phdr.pFlags)) phdr.pages := by
    rw [repeatTimes_eq_forM, loaderPagingMapAll, LoadedSegment.calls, List.forM_eq_forM,
      List.forM_map]
    rfl
  refine ⟨stopped, ?_⟩
  rw [loadSegment, bind_of_ok (callAllocatePages_some granted), placeSegment, loop]
  exact after

/-- A turn of the loop, part by part. -/
structure SegmentRun (fw : Firmware) (pml4 : Nat) (segment : LoadedSegment)
    (machine filled mapped final : Machine) : Prop where
  granted : fw.allocatePages machine segment.phdr.pages = some segment.base
  fits : (fw.fileBytes segment.phdr.pOffset segment.phdr.pFilesz).length = 0 ∨
    (fw.fileBytes segment.phdr.pOffset segment.phdr.pFilesz).length ≤
      segment.phdr.pages * pageSize
  filledMem : filled.mem = machine.mem.overwrite segment.base
    (fw.fileBytes segment.phdr.pOffset segment.phdr.pFilesz).length
      (bytesOf (fw.fileBytes segment.phdr.pOffset segment.phdr.pFilesz))
  filledAllocated : filled.allocated = segment.extent :: machine.allocated
  filledReads : filled.reads = machine.reads ++ [segment.read]
  maps : loaderPagingMapAll fw pml4 segment.calls filled = .ok () mapped
  zeros : segment.phdr.zeros = 0 ∨
    segment.phdr.pFilesz + segment.phdr.zeros ≤ segment.phdr.pages * pageSize
  finish : final = mapped.overwrite (segment.base + segment.phdr.pFilesz) segment.phdr.zeros
    fun _ => 0

theorem overwrite_zero (machine : Machine) (start : Nat) (source : Nat → UInt8) :
    machine.overwrite start 0 source = machine := by
  have same : machine.mem.overwrite start 0 source = machine.mem := by
    funext address
    exact machine.mem.overwrite_outside (by omega)
  rw [Machine.overwrite, same]

theorem loadSegment_ok (run : loadSegment fw pml4 phdr machine = .ok () final) :
    ∃ base filled mapped, SegmentRun fw pml4 ⟨phdr, base⟩ machine filled mapped final := by
  cases granted : fw.allocatePages machine phdr.pages with
  | none =>
      rw [loadSegment, bind_of_ok (callAllocatePages_none granted)] at run
      simp at run
  | some base =>
      obtain ⟨stopped, rest⟩ := loadSegment_eq pml4 granted
      rw [rest, placeSegment] at run
      obtain ⟨⟨⟩, written, write, run⟩ := bind_eq_ok.mp run
      obtain ⟨fits, rfl⟩ := writeObject_ok.mp write
      rw [bind_of_ok (modify_run _ _)] at run
      obtain ⟨⟨⟩, mapped, maps, zero⟩ := bind_eq_ok.mp run
      refine ⟨base, _, mapped, granted, ?_, rfl, rfl, rfl, maps, ?_, ?_⟩
      · simpa [LoadedSegment.extent] using fits
      · split at zero
        · obtain ⟨allowed, -⟩ := writeObject_ok.mp zero
          simp only [LoadedSegment.extent, Nat.add_assoc, Nat.add_le_add_iff_left] at allowed
          tauto
        · exact .inl (Nat.eq_zero_of_not_pos ‹_›)
      · split at zero
        · exact (writeObject_ok.mp zero).2
        · rename_i positive
          obtain rfl : mapped = final := by simpa using zero
          rw [Nat.eq_zero_of_not_pos positive, overwrite_zero]

/-- The file bytes and the zeros of a segment fit in its pages. -/
structure Elf64Phdr.Room (fw : Firmware) (phdr : Elf64Phdr) : Prop where
  bytes : (fw.fileBytes phdr.pOffset phdr.pFilesz).length ≤ phdr.pages * pageSize
  zeros : phdr.zeros = 0 ∨ phdr.pFilesz + phdr.zeros ≤ phdr.pages * pageSize

/-- Sizes in order leave room. -/
theorem Elf64Phdr.Inner.room (inner : phdr.Inner) (ordered : phdr.pFilesz ≤ phdr.pMemsz) :
    phdr.Room fw := by
  have length := fw.fileBytes_length phdr.pOffset phdr.pFilesz
  have enough := inner.memsz_le
  have small := inner.memsz_le_slots
  constructor
  · simp only [pageSize]
    omega
  · simp only [Elf64Phdr.zeros, pageSize]
    omega

theorem SegmentRun.room {segment : LoadedSegment} {filled mapped : Machine}
    (run : SegmentRun fw pml4 segment machine filled mapped final) : segment.phdr.Room fw :=
  ⟨run.fits.elim (fun zero => zero ▸ Nat.zero_le _) id, run.zeros⟩

/-- **Where a turn stops**: at a write outside of the pages, for a segment without room, or where
the firmware refuses pages. -/
theorem loadSegment_stops {reason : Halt}
    (run : loadSegment fw pml4 phdr machine = .error reason final) :
    (reason = .undefined ∧ ¬ phdr.Room fw) ∨ (reason ≠ .undefined ∧
      (fw.allocatePages final phdr.pages = none ∨ fw.allocatePages final 1 = none)) := by
  cases granted : fw.allocatePages machine phdr.pages with
  | none =>
      rw [loadSegment, bind_of_ok (callAllocatePages_none granted)] at run
      obtain ⟨rfl, rfl⟩ : Halt.panic " error mapping kernel" = reason ∧ machine = final := by
        simpa using run
      exact .inr ⟨by simp, .inl granted⟩
  | some base =>
      obtain ⟨stopped, rest⟩ := loadSegment_eq pml4 granted
      rw [rest, placeSegment] at run
      rcases bind_eq_error.mp run with write | ⟨⟨⟩, written, -, run⟩
      · obtain ⟨undefined, outside⟩ := writeObject_error write
        refine .inl ⟨undefined, fun room => ?_⟩
        have bytes := room.bytes
        simp only [LoadedSegment.extent] at outside
        omega
      rw [bind_of_ok (modify_run _ _)] at run
      rcases bind_eq_error.mp run with maps | ⟨⟨⟩, mapped, -, zero⟩
      · obtain ⟨rfl, refused⟩ := loaderPagingMapAll_error maps
        exact .inr ⟨by simp, .inr refused⟩
      · split at zero
        · obtain ⟨undefined, outside⟩ := writeObject_error zero
          refine .inl ⟨undefined, fun room => ?_⟩
          have zeros := room.zeros
          simp only [LoadedSegment.extent] at outside
          omega
        · simp at zero

/-- **A turn stops only when the firmware refuses pages**, if the segment has room. -/
theorem loadSegment_error {reason : Halt} (room : phdr.Room fw)
    (run : loadSegment fw pml4 phdr machine = .error reason final) :
    fw.allocatePages final phdr.pages = none ∨ fw.allocatePages final 1 = none :=
  ((loadSegment_stops run).resolve_left fun stops => stops.2 room).2

/-! ## All segments -/

/-- What a machine holds after the segments have been loaded from an initial machine. -/
structure Loaded (fw : Firmware) (pml4 : Nat) (initial : Machine) (segments : List LoadedSegment)
    (machine : Machine) : Prop where
  holds : HoldsTables machine pml4
  reads : machine.reads = initial.reads ++ segments.map LoadedSegment.read
  /-- The last request for a page wins. -/
  walks : ∀ v, slice v 39 ≠ selfMapSlot →
    walk machine.mem pml4 v =
      ((lastFor (segments.flatMap LoadedSegment.calls) (pageOf v)).map MapCall.translation).or
        (walk initial.mem pml4 v)
  isPages : ∀ segment ∈ segments, segment.IsPages
  owned : ∀ segment ∈ segments, segment.extent ∈ machine.allocated
  /-- The pages of a segment hold no table. -/
  apart : ∀ segment ∈ segments, ∀ path table, path.length ≤ 3 →
    tableAt machine.mem pml4 path = some table →
      segment.extent.Disjoint (tableExtent table)
  /-- Two segments share no page of memory. -/
  disjoint : segments.Pairwise fun first second => first.extent.Disjoint second.extent
  /-- The pages hold the bytes of the file and zeros after them. -/
  contents : ∀ segment ∈ segments, segment.phdr.Inner → segment.phdr.FitsFile fw →
    ∀ k, k < segment.phdr.pMemsz → machine.mem (segment.base + k) = segment.phdr.imageByte fw k

theorem Loaded.nil (holds : HoldsTables machine pml4) : Loaded fw pml4 machine [] machine where
  holds := holds
  reads := by simp
  walks v _ := by simp [lastFor]
  isPages := by simp
  owned := by simp
  apart := by simp
  disjoint := List.Pairwise.nil
  contents := by simp

namespace SegmentRun

variable {segment : LoadedSegment} {filled mapped : Machine}
  (run : SegmentRun fw pml4 segment machine filled mapped final)
include run

theorem isPages : segment.IsPages :=
  ⟨fw.allocatePages_aligned _ _ _ run.granted, fw.allocatePages_below _ _ _ run.granted⟩

theorem fresh : ∀ extent ∈ machine.allocated, segment.extent.Disjoint extent :=
  fw.allocatePages_fresh _ _ _ run.granted

/-- The file bytes go into the pages of the segment. -/
theorem filled_outside {address : Nat} (outside : ¬ segment.extent.Contains address) :
    filled.mem address = machine.mem address := by
  have fits := run.fits
  rw [LoadedSegment.extent_contains] at outside
  rw [run.filledMem]
  apply machine.mem.overwrite_outside
  simp only [pageSize] at fits
  omega

/-- The zeros go into the pages of the segment. -/
theorem final_outside {address : Nat} (outside : ¬ segment.extent.Contains address) :
    final.mem address = mapped.mem address := by
  have fits := run.zeros
  rw [LoadedSegment.extent_contains] at outside
  rw [run.finish, Machine.overwrite_mem]
  apply mapped.mem.overwrite_outside
  simp only [pageSize] at fits
  omega

section Tables

variable (holds : HoldsTables machine pml4) (fits : segment.phdr.Fits)
  (inner : segment.phdr.Inner)
include holds

/-- The tables were allocated before the pages of the segment. -/
theorem tables_outside {path : List Nat} {table address : Nat} (short : path.length ≤ 3)
    (ends : tableAt machine.mem pml4 path = some table)
    (inside : (tableExtent table).Contains address) : ¬ segment.extent.Contains address :=
  fun here => run.fresh _ (holds.tree.owned path table short ends) address here inside

theorem filled_agree : ∀ path table, path.length ≤ 3 →
    tableAt machine.mem pml4 path = some table → ∀ address, (tableExtent table).Contains address →
      filled.mem address = machine.mem address :=
  fun _ _ short ends _ inside => run.filled_outside (run.tables_outside holds short ends inside)

theorem filled_holds : HoldsTables filled pml4 ∧ ∀ v, slice v 39 ≠ selfMapSlot →
    walk filled.mem pml4 v = walk machine.mem pml4 v :=
  holds.of_agree (run.filled_agree holds) fun extent member => by
    rw [run.filledAllocated]
    exact List.mem_cons_of_mem _ member

include fits inner

theorem mapped_walk : HoldsTables mapped pml4 ∧ Grows pml4 filled mapped ∧
    ∀ v, slice v 39 ≠ selfMapSlot →
      walk mapped.mem pml4 v =
        ((lastFor segment.calls (pageOf v)).map MapCall.translation).or
          (walk filled.mem pml4 v) :=
  loaderPagingMapAll_walk (run.filled_holds holds).1
    (LoadedSegment.calls_mappable fits inner run.isPages) run.maps

/-- A table after the mapping is a table from before it, or lies apart from everything that
was allocated before. -/
theorem mapped_tables {path : List Nat} {table : Nat} (short : path.length ≤ 3)
    (ends : tableAt mapped.mem pml4 path = some table) :
    tableAt machine.mem pml4 path = some table ∨
      ∀ extent ∈ segment.extent :: machine.allocated, (tableExtent table).Disjoint extent := by
  obtain ⟨-, grows, -⟩ := run.mapped_walk holds fits inner
  rcases grows.fresh path table short ends with old | apart
  · left
    rwa [tableAt_of_agree (run.filled_agree holds) path short] at old
  · right
    rwa [run.filledAllocated] at apart

theorem extent_apart {path : List Nat} {table : Nat} (short : path.length ≤ 3)
    (ends : tableAt mapped.mem pml4 path = some table) :
    segment.extent.Disjoint (tableExtent table) := by
  rcases run.mapped_tables holds fits inner short ends with old | apart
  · exact run.fresh _ (holds.tree.owned path table short old)
  · exact (apart segment.extent List.mem_cons_self).symm

theorem final_agree : ∀ path table, path.length ≤ 3 →
    tableAt mapped.mem pml4 path = some table → ∀ address, (tableExtent table).Contains address →
      final.mem address = mapped.mem address :=
  fun _ _ short ends address inside => run.final_outside fun here =>
    run.extent_apart holds fits inner short ends address here inside

/-- The mapping keeps the bytes of what was allocated before it and holds no table. -/
theorem mapped_mem {address : Nat} {extent : Extent}
    (member : extent ∈ segment.extent :: machine.allocated) (inside : extent.Contains address)
    (noTable : ∀ path table, path.length ≤ 3 → tableAt machine.mem pml4 path = some table →
      ¬ (tableExtent table).Contains address) :
    mapped.mem address = filled.mem address := by
  obtain ⟨-, grows, -⟩ := run.mapped_walk holds fits inner
  refine grows.others address ⟨extent, ?_, inside⟩ ?_
  · rw [run.filledAllocated]
    exact member
  · intro path table short ends
    rw [tableAt_of_agree (run.filled_agree holds) path short] at ends
    exact noTable path table short ends

/-- The bytes of the segment after the turn. -/
theorem final_image (inFile : segment.phdr.FitsFile fw) {k : Nat} (bound : k < segment.phdr.pMemsz) :
    final.mem (segment.base + k) = segment.phdr.imageByte fw k := by
  obtain ⟨length, bytes⟩ := fw.fileBytes_inside inFile.inside
  have ordered := inFile.ordered
  have small := inner.memsz_le_slots
  have counted : segment.phdr.zeros = segment.phdr.pMemsz - segment.phdr.pFilesz := by
    simp only [Elf64Phdr.zeros]
    omega
  have inside : segment.extent.Contains (segment.base + k) := by
    have enough := inner.memsz_le
    rw [LoadedSegment.extent_contains]
    omega
  rw [run.finish, Machine.overwrite_mem, Elf64Phdr.imageByte]
  by_cases file : k < segment.phdr.pFilesz
  · have kept : mapped.mem (segment.base + k) = filled.mem (segment.base + k) :=
      run.mapped_mem holds fits inner List.mem_cons_self inside fun _ _ short ends inTable =>
        run.tables_outside holds short ends inTable inside
    rw [if_pos file, ← bytes k file]
    rw [mapped.mem.overwrite_outside (by omega), kept, run.filledMem,
      machine.mem.overwrite_offset (by omega)]
    rfl
  · rw [if_neg file]
    rw [mapped.mem.overwrite_inside (by omega) (by omega)]

/-- What was allocated stays allocated, and the pages of the segment are too. -/
theorem final_allocated : ∀ extent ∈ segment.extent :: machine.allocated,
    extent ∈ final.allocated := by
  obtain ⟨-, grows, -⟩ := run.mapped_walk holds fits inner
  intro extent member
  rw [run.finish]
  apply grows.allocated extent
  rw [run.filledAllocated]
  exact member

theorem final_holds : HoldsTables final pml4 ∧ ∀ v, slice v 39 ≠ selfMapSlot →
    walk final.mem pml4 v = walk mapped.mem pml4 v := by
  obtain ⟨mappedHolds, -, -⟩ := run.mapped_walk holds fits inner
  refine mappedHolds.of_agree (run.final_agree holds fits inner) fun extent member => ?_
  rw [run.finish]
  exact member

/-- The turn writes to its own pages and to tables. Every other byte that was allocated before
keeps its value. -/
theorem final_mem {address : Nat} {extent : Extent} (member : extent ∈ machine.allocated)
    (inside : extent.Contains address)
    (noTable : ∀ path table, path.length ≤ 3 → tableAt machine.mem pml4 path = some table →
      ¬ (tableExtent table).Contains address) :
    final.mem address = machine.mem address := by
  have outside : ¬ segment.extent.Contains address :=
    fun here => run.fresh extent member address here inside
  rw [run.final_outside outside,
    run.mapped_mem holds fits inner (List.mem_cons_of_mem _ member) inside noTable,
    run.filled_outside outside]

end Tables

end SegmentRun

/-- **One turn of the loop loads one segment.** -/
theorem Loaded.step {initial : Machine} {segments : List LoadedSegment}
    (loaded : Loaded fw pml4 initial segments machine) (fits : phdr.Fits) (inner : phdr.Inner)
    (turn : loadSegment fw pml4 phdr machine = .ok () final) :
    ∃ base, fw.allocatePages machine phdr.pages = some base ∧
      Loaded fw pml4 initial (segments ++ [⟨phdr, base⟩]) final := by
  obtain ⟨base, filled, mapped, run⟩ := loadSegment_ok turn
  have holds := loaded.holds
  obtain ⟨-, grows, mappedWalk⟩ := run.mapped_walk holds fits inner
  obtain ⟨finalHolds, finalWalk⟩ := run.final_holds holds fits inner
  have allocated := run.final_allocated holds fits inner
  refine ⟨base, run.granted, finalHolds, ?_, ?_, ?_, ?_, ?_, ?_, ?_⟩
  · rw [run.finish, Machine.overwrite_reads, grows.reads, run.filledReads, loaded.reads]
    simp
  · intro v innerV
    rw [finalWalk v innerV, mappedWalk v innerV, (run.filled_holds holds).2 v innerV,
      loaded.walks v innerV, List.flatMap_append, List.flatMap_singleton, lastFor_append,
      Option.map_or, Option.or_assoc]
  · exact List.forall_mem_append.mpr ⟨loaded.isPages, List.forall_mem_singleton.mpr run.isPages⟩
  · refine List.forall_mem_append.mpr ⟨fun segment old => ?_, List.forall_mem_singleton.mpr ?_⟩
    · exact allocated _ (List.mem_cons_of_mem _ (loaded.owned segment old))
    · exact allocated _ List.mem_cons_self
  · intro segment member path table short ends
    rw [tableAt_of_agree (run.final_agree holds fits inner) path short] at ends
    rcases List.mem_append.mp member with old | new
    · rcases run.mapped_tables holds fits inner short ends with same | apart
      · exact loaded.apart segment old path table short same
      · exact (apart _ (List.mem_cons_of_mem _ (loaded.owned segment old))).symm
    · rw [List.mem_singleton.mp new]
      exact run.extent_apart holds fits inner short ends
  · rw [List.pairwise_append]
    refine ⟨loaded.disjoint, List.pairwise_singleton _ _, fun first old => ?_⟩
    exact List.forall_mem_singleton.mpr (run.fresh _ (loaded.owned first old)).symm
  · refine List.forall_mem_append.mpr ⟨?_, List.forall_mem_singleton.mpr ?_⟩
    · intro segment old innerSegment inFile k bound
      have inside : segment.extent.Contains (segment.base + k) := by
        have enough := innerSegment.memsz_le
        rw [LoadedSegment.extent_contains]
        omega
      rw [run.final_mem holds fits inner (loaded.owned segment old) inside
        fun path table short ends => loaded.apart segment old path table short ends _ inside]
      exact loaded.contents segment old innerSegment inFile k bound
    · intro _ inFile k bound
      exact run.final_image holds fits inner inFile bound

/-- The loop loads every segment, and what each turn keeps besides holds of all of them. -/
theorem Loaded.all_and {also : List LoadedSegment → Machine → Prop} {phdrs : List Elf64Phdr}
    (holds : HoldsTables machine pml4) (fits : ∀ phdr ∈ phdrs, phdr.Fits)
    (inner : ∀ phdr ∈ phdrs, phdr.Inner) (first : also [] machine)
    (turns : ∀ segments phdr base before after, phdr ∈ phdrs → also segments before →
      fw.allocatePages before phdr.pages = some base →
        loadSegment fw pml4 phdr before = .ok () after → also (segments ++ [⟨phdr, base⟩]) after)
    (run : phdrs.forM (loadSegment fw pml4) machine = .ok () final) :
    ∃ segments, segments.map LoadedSegment.phdr = phdrs ∧
      (∀ segment ∈ segments, segment.Granted fw) ∧ Loaded fw pml4 machine segments final ∧
        also segments final := by
  let invariant (visited : List Elf64Phdr) (reached : Machine) : Prop :=
    ∃ segments, segments.map LoadedSegment.phdr = visited ∧
      (∀ segment ∈ segments, segment.Granted fw) ∧ Loaded fw pml4 machine segments reached ∧
        also segments reached
  have loop : invariant ([] ++ phdrs) final := by
    refine forM_ok ⟨[], rfl, by simp, Loaded.nil holds, first⟩ ?_ run
    rintro earlier phdr before after ⟨rest, split⟩ ⟨segments, same, granted, loaded, kept⟩ turn
    have member : phdr ∈ phdrs := by
      rw [List.nil_append] at split
      rw [split]
      simp
    obtain ⟨base, here, next⟩ := loaded.step (fits phdr member) (inner phdr member) turn
    refine ⟨_, by simp [same], fun segment member => ?_, next,
      turns segments phdr base before after member kept here turn⟩
    rcases List.mem_append.mp member with old | new
    · exact granted segment old
    · rw [List.mem_singleton.mp new]
      exact ⟨before, here⟩
  exact loop

end VineyardLoader
